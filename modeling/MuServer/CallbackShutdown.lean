import MuServer.ConnectionQueue
import MuServer.MessageCallback

/-!
# A half-close asked for by the message callback

With the loop thread as its only caller a connection is shut down between two
statements of its own: what `EAGAIN` has left in the queue is watched before
user code goes on. So the half-close comes behind all that was handed over.
-/

set_option autoImplicit false

namespace MuServer
open Lib.Machine

variable {T W S : Type}

/-- No frame that goes on behind `doWriting` or behind the test of `shutdown`. -/
def Clean (stack : List Frame) : Prop := .enableWriting ∉ stack ∧ .shutdownStore ∉ stack

structure Ordered (control : Control T) (stack : List Frame) : Prop where
  tail : Clean stack.tail
  calling : control ≠ .frames → Clean stack

theorem clean_cons (frame : Frame) (stack : List Frame) (h : Clean stack)
    (hw : frame ≠ .enableWriting) (hs : frame ≠ .shutdownStore) : Clean (frame::stack) :=
  ⟨by simp [h.1, hw.symm], by simp [h.2, hs.symm]⟩

theorem clean_tail (stack : List Frame) (h : Clean stack) : Clean stack.tail :=
  ⟨fun hm => h.1 (List.mem_of_mem_tail hm), fun hm => h.2 (List.mem_of_mem_tail hm)⟩

theorem ordered_clean (control : Control T) (stack : List Frame) (h : Clean stack) :
    Ordered control stack := ⟨clean_tail stack h, fun _ => h⟩

theorem ordered_push (frame : Frame) (stack : List Frame) (h : Clean stack) :
    Ordered (T := T) .frames (frame::stack) := ⟨h, fun hne => absurd rfl hne⟩

theorem handlers_clean (revents : Revents) : Clean revents.handlers := by
  unfold Revents.handlers
  constructor <;> split <;> split <;> split <;> split <;> simp

namespace TcpConnection

theorem blocked_latch (c : TcpConnection T) (h : c.highWaterCallback_ = false) :
    c.blocked = c.frames (.enableWriting::c.stack) := by
  have hn : c.exceedsHighWater = false := by
    rw [exceedsHighWater, h, Bool.and_false]
  rw [blocked, hn]
  rfl

theorem drained_control (c : TcpConnection T) :
    c.drained.control = c.control ∧ c.drained.stack = c.stack := by
  obtain ⟨poller, channel, hd⟩ := c.drained_channel
  rw [hd]
  exact ⟨rfl, rfl⟩

theorem runFunctor_ordered (c : TcpConnection T) (f : Functor T) (h : Clean c.stack) :
    Ordered (c.runFunctor f).control (c.runFunctor f).stack := by
  cases f with
  | sendInLoop call data =>
    simp only [runFunctor, sendInLoop]
    split <;> exact ordered_clean _ _ h
  | sendFileInLoop | shutdownInLoop => exact ordered_clean _ _ h
  | connectEstablished => exact ordered_push .user _ h
  | connectDestroyed =>
    refine ordered_clean _ _ ?_
    have hr := clean_cons .removeChannel c.stack h (by simp) (by simp)
    simp only [runFunctor, connectDestroyed]
    split
    · exact clean_cons .destroyStore _ hr (by simp) (by simp)
    · exact hr

theorem doWriting_ordered (c c' : TcpConnection T) (result : SocketResult) (h : Clean c.stack)
    (hlatch : c.highWaterCallback_ = false) (hs : c.doWriting result = some c') :
    Ordered c'.control c'.stack := by
  cases doWriting_round c c' result hs with
  | empty | nothing | progress => exact ordered_clean _ _ h
  | drains call ctx ctx' out =>
    obtain ⟨hcontrol, hstack⟩ := (c.issue.took call ctx' [] out).drained_control
    rw [hcontrol, hstack]
    exact ordered_clean _ _ h
  | blocks =>
    rw [blocked_latch c.issue hlatch]
    exact ordered_push _ _ h
  | fails => exact ordered_push _ _ h

theorem runFrame_ordered (c c' : TcpConnection T) (stack : List Frame) (result : SocketResult)
    (frame : Frame) (h : Clean stack) (hs : c.runFrame stack result frame = some c') :
    Ordered c'.control c'.stack := by
  cases runFrame_framed c c' stack result frame hs with
  | handleRead | destroyStore => exact ordered_push _ _ h
  | handleClose =>
    exact ordered_push .user _ (clean_cons .closeCallback _ h (by simp) (by simp))
  | writes | writesNothing | handleError | closeCallback | writingAlready | enableWriting
  | shutdownStore | removeChannel => exact ordered_clean _ _ h

variable [DecidableEq T]

theorem exec_latch (c c' : TcpConnection T) (result : SocketResult)
    (hs : c.exec result = some c') : c'.highWaterCallback_ = c.highWaterCallback_ := by
  cases exec_stepped c c' result hs with
  | functor _ f =>
    cases f with
    | sendInLoop call data =>
      simp only [runFunctor, sendInLoop]
      split <;> rfl
    | sendFileInLoop | shutdownInLoop | connectEstablished | connectDestroyed => rfl
  | writing _ _ hcontrol hw =>
    cases doWriting_round c c' result hw with
    | empty | nothing | progress | fails => rfl
    | drains call ctx ctx' out =>
      obtain ⟨poller, channel, hd⟩ := drained_channel (c.issue.took call ctx' [] out)
      rw [hd]
      rfl
    | blocks =>
      obtain ⟨triggered, stack, hb, -⟩ := blocked_frames c.issue
      rw [hb]
      rfl
  | frame _ frame stack _ hcontrol hstack hr =>
    cases runFrame_framed c c' stack result frame hr <;> rfl

theorem exec_ordered (c c' : TcpConnection T) (result : SocketResult)
    (h : Ordered c.control c.stack) (hlatch : c.highWaterCallback_ = false)
    (hs : c.exec result = some c') : Ordered c'.control c'.stack := by
  cases exec_stepped c c' result hs with
  | functor _ f hcontrol => exact runFunctor_ordered c f (h.calling (by simp [hcontrol]))
  | writing _ _ hcontrol hw =>
    exact doWriting_ordered c c' result (h.calling (by simp [hcontrol])) hlatch hw
  | frame _ frame stack _ hcontrol hstack hr =>
    have ht := h.tail
    rw [hstack] at ht
    exact runFrame_ordered c c' stack result frame ht hr

end TcpConnection

def beforeShutdown (calls : List Request) : List Request := calls.takeWhile (fun r => r ≠ .shutdown)

theorem beforeShutdown_append (calls later : List Request) (h : .shutdown ∈ calls) :
    beforeShutdown (calls ++ later) = beforeShutdown calls := by
  unfold beforeShutdown
  induction calls with
  | nil => exact absurd h List.not_mem_nil
  | cons r calls ih =>
    rw [List.cons_append, List.takeWhile_cons, List.takeWhile_cons]
    split
    · rename_i hr
      rw [ih ((List.mem_cons.mp h).resolve_left (fun he => by simp [← he] at hr))]
    · rfl

theorem beforeShutdown_none (calls : List Request) (h : .shutdown ∉ calls) :
    beforeShutdown (calls ++ [.shutdown]) = calls := by
  unfold beforeShutdown
  rw [List.takeWhile_append_of_pos]
  · simp
  · intro r hr
    simp only [decide_eq_true_eq, ne_eq]
    rintro rfl
    exact h hr

theorem beforeShutdown_all (calls : List Request) (h : .shutdown ∉ calls) :
    beforeShutdown calls = calls := by
  refine List.takeWhile_eq_self_iff.mpr (fun r hr => ?_)
  simp only [decide_eq_true_eq, ne_eq]
  rintro rfl
  exact h hr

theorem beforeShutdown_grows (calls later : List Request) :
    beforeShutdown calls <+: beforeShutdown (calls ++ later) := by
  by_cases h : .shutdown ∈ calls
  · exact (beforeShutdown_append calls later h).symm ▸ List.prefix_refl _
  · unfold beforeShutdown
    rw [List.takeWhile_append_of_pos]
    · exact (List.takeWhile_prefix _).trans (List.prefix_append _ _)
    · intro r hr
      simp only [decide_eq_true_eq, ne_eq]
      rintro rfl
      exact h hr

theorem handedOver_grows (calls calls' : List Request) (h : calls <+: calls') :
    handedOver calls <+: handedOver calls' := by
  obtain ⟨later, rfl⟩ := h
  rw [handedOver, handedOver, List.filterMap_append]
  exact List.prefix_append _ _

namespace TcpConnection

/-- A hard error is followed by `handleClose` at once, and a call of `shutdown`
by its store and `shutdownInLoop`. -/
structure Asking (c : TcpConnection T) (made : List Request) : Prop where
  latch : c.highWaterCallback_ = false
  ordered : Ordered c.control c.stack
  erred : c.hardErrors ≠ 0 → c.state_ = .kDisconnected ∨
    (c.control = .frames ∧ c.stack.head? = some .handleClose)
  storing : .shutdownStore ∈ c.stack → c.state_ = .kConnected
  closing : c.control.isShutdown = true → c.state_ = .kDisconnecting
  unasked : c.state_ = .kConnected → .shutdownStore ∉ c.stack → .shutdown ∉ made
  asked : .shutdownStore ∈ c.stack ∨ c.control.isShutdown = true →
    c.handed = handedOver (beforeShutdown made) ∧ .shutdown ∈ made

theorem asking_same (c c' : TcpConnection T) (made : List Request) (h : c.Asking made)
    (hlatch : c'.highWaterCallback_ = c.highWaterCallback_)
    (hordered : Ordered c'.control c'.stack) (herr : c'.hardErrors = c.hardErrors)
    (hstate : c'.state_ = c.state_) (hnone : .shutdownStore ∉ c.stack)
    (hnone' : .shutdownStore ∉ c'.stack) (hshut : c'.control.isShutdown = false)
    (hhead : c.control = .frames → c.stack.head? ≠ some .handleClose) : c'.Asking made where
  latch := hlatch.trans h.latch
  ordered := hordered
  erred := by
    rw [herr, hstate]
    exact fun he => Or.inl ((h.erred he).resolve_right (fun hc => hhead hc.1 hc.2))
  storing := fun hm => absurd hm hnone'
  closing := fun hc => absurd (hshut.symm.trans hc) (by simp)
  unasked := by
    rw [hstate]
    exact fun hc _ => h.unasked hc hnone
  asked := fun hc => absurd hc (by simp [hnone', hshut])

theorem asking_lost (c : TcpConnection T) (made : List Request)
    (hlatch : c.highWaterCallback_ = false) (hordered : Ordered c.control c.stack)
    (hstate : c.state_ = .kDisconnected) (hnone : .shutdownStore ∉ c.stack)
    (hshut : c.control.isShutdown = false) : c.Asking made where
  latch := hlatch
  ordered := hordered
  erred := fun _ => Or.inl hstate
  storing := fun hm => absurd hm hnone
  closing := fun hc => absurd (hshut.symm.trans hc) (by simp)
  unasked := fun hc => absurd (hstate.symm.trans hc) (by simp)
  asked := fun hc => absurd hc (by simp [hnone, hshut])

variable [DecidableEq T]

theorem functor_asking (c : TcpConnection T) (f : Functor T) (result : SocketResult)
    (made : List Request) (h : c.Asking made) (ha : c.Aged) (hcontrol : c.control = .functor f)
    (hestablish : f = .connectEstablished → made = []) : (c.runFunctor f).Asking made := by
  have hs : c.exec result = some (c.runFunctor f) := by rw [exec, hcontrol]
  have hclean : Clean c.stack := h.ordered.calling (by simp [hcontrol])
  have hlatch := exec_latch c _ result hs
  have hordered := exec_ordered c _ result h.ordered h.latch hs
  have hframes : c.control = .frames → c.stack.head? ≠ some .handleClose := by simp [hcontrol]
  cases f with
  | connectEstablished =>
    have hy := young_state c ha hcontrol
    refine ⟨hlatch.trans h.latch, hordered, fun he => ?_, fun _ => rfl, fun hc => ?_,
      fun _ _ => ?_, fun hc => ?_⟩
    · rcases h.erred he with hd | hd
      · exact absurd (hy.state.symm.trans hd) (by simp)
      · exact absurd (hcontrol.symm.trans hd.1) (by simp)
    · exact absurd hc (by simp [runFunctor, frames, Control.isShutdown])
    · rw [hestablish rfl]
      exact List.not_mem_nil
    · rcases hc with hc | hc
      · exact absurd ((List.mem_cons.mp hc).resolve_left (by simp)) hclean.2
      · exact absurd hc (by simp [runFunctor, frames, Control.isShutdown])
  | connectDestroyed =>
    refine asking_same c _ made h hlatch hordered rfl rfl hclean.2 ?_ rfl hframes
    simp only [runFunctor, frames, connectDestroyed]
    split <;> simp [hclean.2]
  | sendInLoop call data =>
    refine asking_same c _ made h hlatch hordered ?_ ?_ hclean.2 ?_ ?_ hframes <;>
      simp only [runFunctor, sendInLoop] <;> split <;> first | rfl | exact hclean.2
  | sendFileInLoop | shutdownInLoop =>
    exact asking_same c _ made h hlatch hordered rfl rfl hclean.2 hclean.2 rfl hframes

theorem writing_asking (c c' : TcpConnection T) (result : SocketResult) (made : List Request)
    (h : c.Asking made) (hcontrol : c.control = .doWriting) (hs : c.exec result = some c')
    (hw : c.doWriting result = some c') : c'.Asking made := by
  have hclean : Clean c.stack := h.ordered.calling (by simp [hcontrol])
  have hlatch := exec_latch c _ result hs
  have hordered := exec_ordered c _ result h.ordered h.latch hs
  have hframes : c.control = .frames → c.stack.head? ≠ some .handleClose := by simp [hcontrol]
  have hshut : c.control.isShutdown = false := by rw [hcontrol]; rfl
  cases doWriting_round c c' result hw with
  | empty | nothing =>
    exact asking_same c _ made h hlatch hordered rfl rfl hclean.2 hclean.2 rfl hframes
  | progress =>
    exact asking_same c _ made h hlatch hordered rfl rfl hclean.2 hclean.2 hshut hframes
  | drains call ctx ctx' out =>
    obtain ⟨poller, channel, hd⟩ := drained_channel (c.issue.took call ctx' [] out)
    rw [hd] at hlatch hordered ⊢
    exact asking_same c _ made h hlatch hordered rfl rfl hclean.2 hclean.2 hshut hframes
  | blocks =>
    rw [blocked_latch c.issue h.latch] at hlatch hordered ⊢
    exact asking_same c _ made h hlatch hordered rfl rfl hclean.2
      (by simpa [frames, issue] using hclean.2) rfl hframes
  | fails =>
    refine ⟨hlatch.trans h.latch, hordered, fun _ => Or.inr ⟨rfl, rfl⟩, fun hm => ?_, fun hc => ?_,
      fun hc hm => ?_, fun hc => ?_⟩
    · exact absurd ((List.mem_cons.mp hm).resolve_left (by simp)) hclean.2
    · exact absurd hc (by simp [writeFails, frames, Control.isShutdown])
    · exact h.unasked hc hclean.2
    · rcases hc with hc | hc
      · exact absurd ((List.mem_cons.mp hc).resolve_left (by simp)) hclean.2
      · exact absurd hc (by simp [writeFails, frames, Control.isShutdown])

theorem frame_asking (c c' : TcpConnection T) (result : SocketResult) (frame : Frame)
    (stack : List Frame) (made : List Request) (h : c.Asking made) (hcontrol : c.control = .frames)
    (hstack : c.stack = frame::stack) (hs : c.exec result = some c')
    (hr : c.runFrame stack result frame = some c') : c'.Asking made := by
  have hlatch := exec_latch c _ result hs
  have hordered := exec_ordered c _ result h.ordered h.latch hs
  have hclean : Clean stack := by
    have ht := h.ordered.tail
    rwa [hstack] at ht
  have hnone : frame ≠ .shutdownStore → .shutdownStore ∉ c.stack := by
    intro hne hm
    rw [hstack] at hm
    exact hclean.2 ((List.mem_cons.mp hm).resolve_left hne.symm)
  have hhead : frame ≠ .handleClose → c.control = .frames → c.stack.head? ≠ some .handleClose := by
    intro hne _
    simpa [hstack] using hne
  cases runFrame_framed c c' stack result frame hr with
  | handleRead =>
    refine asking_same c _ made h hlatch hordered rfl rfl (hnone (by simp)) ?_ rfl (hhead (by simp))
    intro hm
    refine hclean.2 ((List.mem_cons.mp hm).resolve_left ?_)
    unfold afterRead
    split <;> simp
  | handleError | closeCallback | writingAlready | enableWriting | removeChannel | writesNothing
  | writes =>
    exact asking_same c _ made h hlatch hordered rfl rfl (hnone (by simp)) hclean.2 rfl
      (hhead (by simp))
  | handleClose | destroyStore =>
    exact asking_lost _ made (hlatch.trans h.latch) hordered rfl
      (by simpa [frames, TcpConnection.handleClose] using hclean.2) rfl
  | shutdownStore =>
    have hm : .shutdownStore ∈ c.stack := by simp [hstack]
    obtain ⟨hh, hmade⟩ := h.asked (Or.inl hm)
    refine ⟨hlatch.trans h.latch, hordered, fun he => ?_, fun hm' => absurd hm' hclean.2,
      fun _ => rfl, fun hc => absurd hc (by simp [setStates]), fun _ => ⟨?_, hmade⟩⟩
    · rcases h.erred he with hd | hd
      · exact absurd ((h.storing hm).symm.trans hd) (by simp)
      · exact absurd hd.2 (by simp [hstack])
    · rw [← hh, handed_frames c hcontrol]
      exact handed_nothing _ _ rfl rfl

theorem exec_asking (c c' : TcpConnection T) (result : SocketResult) (made : List Request)
    (h : c.Asking made) (ha : c.Aged)
    (hestablish : c.control = .functor .connectEstablished → made = [])
    (hs : c.exec result = some c') : c'.Asking made := by
  cases exec_stepped c c' result hs with
  | functor _ f hcontrol =>
    exact functor_asking c f result made h ha hcontrol (fun hf => hestablish (hf ▸ hcontrol))
  | writing _ _ hcontrol hw => exact writing_asking c c' result made h hcontrol hs hw
  | frame _ frame stack _ hcontrol hstack hr =>
    exact frame_asking c c' result frame stack made h hcontrol hstack hs hr

theorem request_asking (c c' : TcpConnection T) (r : Request) (made : List Request)
    (h : c.Asking made) (hp : c.Passed (handedOver made)) (hin : c.inUser = true)
    (hs : c.step (.request r) = some c') : c'.Asking (made ++ [r]) := by
  obtain ⟨hcontrol, stack, hstack⟩ := c.inUser_iff.mp hin
  have hclean : Clean c.stack := by
    have ht := h.ordered.tail
    rw [hstack] at ht ⊢
    exact clean_cons .user stack ht (by simp) (by simp)
  have hshut : c.control.isShutdown = false := by rw [hcontrol]; rfl
  have hup : c.state_ = .kConnected → c.hardErrors = 0 := by
    intro hstate
    by_contra he
    rcases h.erred he with hd | hd
    · exact absurd (hstate.symm.trans hd) (by simp)
    · exact absurd hd.2 (by simp [hstack])
  cases step_stepped c _ c' hs with
  | refused _ hstate =>
    exact ⟨h.latch, h.ordered, h.erred, h.storing, h.closing, fun hc => absurd hc hstate,
      fun hc => absurd hc (by simp [hclean.2, hshut])⟩
  | sends _ f _ hstate hf =>
    have hr : r ≠ .shutdown := by
      rintro rfl
      exact absurd hf (by simp [sendFunctor])
    have hcalls : f.isShutdown = false := c.sendFunctor_isShutdown none r f hf
    refine ⟨h.latch, ordered_clean _ _ hclean, fun he => absurd (hup hstate) he,
      fun hm => absurd hm hclean.2, fun hc => absurd (hcalls.symm.trans hc) (by simp),
      fun hc hm => ?_, fun hc => absurd hc (by simp [hclean.2, Control.isShutdown, hcalls, accept])⟩
    have hnone := h.unasked hc hm
    simp [hnone, hr.symm]
  | shutdowns _ hstate =>
    have hnone : .shutdown ∉ made := h.unasked hstate hclean.2
    refine ⟨h.latch, ?_, fun he => absurd (hup hstate) he, fun _ => hstate, h.closing,
      fun _ hm => absurd (List.mem_cons_self ..) hm, fun _ => ⟨?_, by simp⟩⟩
    · rw [hcontrol]
      exact ordered_push _ _ hclean
    · rw [beforeShutdown_none made hnone]
      exact hp.all hstate

structure Over (c : TcpConnection T) (made : List Request) : Prop where
  queue : c.contextQueue_ = []
  payloads : c.control.payloads = []
  unharmed : c.hardErrors = 0
  state : c.state_ = .kDisconnecting ∨ c.state_ = .kDisconnected
  called : .shutdown ∈ made
  wire : c.wire = (handedOver (beforeShutdown made)).flatten

structure Finished (c : TcpConnection T) (made : List Request) : Prop where
  positive : ∀ x ∈ c.contextQueue_, 0 < x.2.remaining
  watched : c.hardErrors = 0 → c.WatchedSound
  closed : c.halfCloses ≠ [] → c.Over made

theorem exec_over (c c' : TcpConnection T) (result : SocketResult) (made : List Request)
    (h : c.Over made) (ha : c.Aged) (hs : c.exec result = some c') : c'.Over made := by
  cases exec_stepped c c' result hs with
  | functor _ f hcontrol =>
    have hp := h.payloads
    rw [hcontrol] at hp
    cases f with
    | sendInLoop call data => exact absurd hp (by simp [Control.payloads, Functor.payloads])
    | sendFileInLoop call file => exact absurd hp (by simp [Control.payloads, Functor.payloads])
    | connectEstablished =>
      have hy := young_state c ha hcontrol
      exact absurd h.state (by simp [hy.state])
    | shutdownInLoop | connectDestroyed => exact ⟨h.queue, rfl, h.unharmed, h.state, h.called, h.wire⟩
  | writing _ _ hcontrol hw =>
    cases doWriting_round c c' result hw with
    | empty => exact ⟨h.queue, rfl, h.unharmed, h.state, h.called, h.wire⟩
    | progress _ _ _ _ _ _ hq => exact absurd (h.queue.symm.trans hq) (by simp)
    | drains _ _ _ _ _ hq => exact absurd (h.queue.symm.trans hq) (by simp)
    | blocks _ _ _ hq => exact absurd (h.queue.symm.trans hq) (by simp)
    | nothing _ _ _ hq => exact absurd (h.queue.symm.trans hq) (by simp)
    | fails _ _ _ hq => exact absurd (h.queue.symm.trans hq) (by simp)
  | frame _ frame stack _ hcontrol hstack hr =>
    cases runFrame_framed c c' stack result frame hr with
    | handleRead | writes | writesNothing | handleError | closeCallback | writingAlready
    | enableWriting | removeChannel => exact ⟨h.queue, rfl, h.unharmed, h.state, h.called, h.wire⟩
    | shutdownStore => exact ⟨h.queue, rfl, h.unharmed, Or.inl rfl, h.called, h.wire⟩
    | handleClose | destroyStore =>
      exact ⟨h.queue, rfl, h.unharmed, Or.inr rfl, h.called, h.wire⟩

theorem exec_halfCloses (c c' : TcpConnection T) (result : SocketResult)
    (hs : c.exec result = some c') (hc : c.control.isShutdown = false) :
    c'.halfCloses = c.halfCloses := by
  cases exec_stepped c c' result hs with
  | functor _ f hcontrol =>
    cases f with
    | sendInLoop call data =>
      simp only [runFunctor, sendInLoop]
      split <;> rfl
    | sendFileInLoop | connectEstablished | connectDestroyed => rfl
    | shutdownInLoop caller after =>
      rw [hcontrol] at hc
      exact absurd hc (by simp [Control.isShutdown, Functor.isShutdown])
  | writing _ _ hcontrol hw => exact (doWriting_plain c c' result hcontrol hw).halfCloses
  | frame _ frame stack _ hcontrol hstack hr =>
    cases runFrame_framed c c' stack result frame hr <;> rfl

omit [DecidableEq T] in
/-- With nothing left to watch the half-close comes behind all that was handed over. -/
theorem shutdownInLoop_over (c : TcpConnection T) (caller : Option T) (after : ℕ)
    (made : List Request) (h : c.Asking made) (hf : c.Finished made) (hw : c.WritesSound)
    (hcontrol : c.control = .functor (.shutdownInLoop caller after))
    (hh : (c.runFunctor (.shutdownInLoop caller after)).halfCloses ≠ []) :
    (c.runFunctor (.shutdownInLoop caller after)).Over made := by
  have hshut : c.control.isShutdown = true := by rw [hcontrol]; rfl
  have hstate := h.closing hshut
  obtain ⟨hall, hmade⟩ := h.asked (Or.inr hshut)
  rw [handed_nothing c _ hcontrol rfl] at hall
  have herr : c.hardErrors = 0 := by
    by_contra he
    rcases h.erred he with hd | hd
    · exact absurd (hstate.symm.trans hd) (by simp)
    · exact absurd (hcontrol.symm.trans hd.1) (by simp)
  by_cases hwriting : c.channel_.isWriting = true
  · -- the half-close is one of before
    have hsame : (c.runFunctor (.shutdownInLoop caller after)).halfCloses = c.halfCloses :=
      if_pos hwriting
    have ho := hf.closed (hsame ▸ hh)
    exact ⟨ho.queue, rfl, herr, Or.inl hstate, hmade, ho.wire⟩
  · have hempty : c.contextQueue_ = [] := by
      by_contra hq
      refine hq (watched_empty c (hf.watched herr) (by simp [hstate]) (by simp [hcontrol])
        (by simpa using hwriting) ?_)
      have hclean := h.ordered.calling (by simp [hcontrol])
      obtain ⟨x, rest, hx⟩ := List.exists_cons_of_ne_nil hq
      have hpos := hf.positive x (by simp [hx])
      simp only [unwatched, emptyFront, hx, Bool.or_eq_false_iff, decide_eq_false_iff_not]
      exact ⟨hclean.1, by omega⟩
    have hwire := hw herr
    rw [hempty] at hwire
    refine ⟨hempty, rfl, herr, Or.inl hstate, hmade, ?_⟩
    rw [← hall, hwire.queued_eq]
    refine hwire.wire_eq.trans ?_
    simp [payloads, frontSent]

theorem exec_positive (c c' : TcpConnection T) (result : SocketResult)
    (h : ∀ x ∈ c.contextQueue_, 0 < x.2.remaining) (hp : [] ∉ c.control.payloads)
    (hs : c.exec result = some c') : ∀ x ∈ c'.contextQueue_, 0 < x.2.remaining := by
  have hsnoc : ∀ (call : Call T) (ctx : Context), 0 < ctx.remaining →
      ∀ x ∈ c.contextQueue_ ++ [(call, ctx)], 0 < x.2.remaining := by
    intro call ctx hctx x hx
    rcases List.mem_append.mp hx with hx | hx
    · exact h x hx
    · rwa [List.mem_singleton.mp hx]
  cases exec_stepped c c' result hs with
  | functor _ f hcontrol =>
    rw [hcontrol] at hp
    cases f with
    | sendInLoop call data =>
      simp only [runFunctor, sendInLoop]
      split
      · exact h
      · refine hsnoc call _ ?_
        rw [Context.ofData_remaining]
        exact List.length_pos_iff.mpr (fun he => hp (by simp [Control.payloads, Functor.payloads, he]))
    | sendFileInLoop call file =>
      refine hsnoc call _ ?_
      rw [Context.ofFile_remaining]
      refine Nat.pos_of_ne_zero (fun he => hp ?_)
      have hsize : file.fileSize_ = 0 := he
      have hnone : file.payload = [] := by
        rw [StaticFile.payload, hsize, List.take_zero]
      simp [Control.payloads, Functor.payloads, hnone]
    | shutdownInLoop | connectEstablished | connectDestroyed => exact h
  | writing _ _ hcontrol hw =>
    have hrest : ∀ call ctx rest, c.contextQueue_ = (call, ctx)::rest →
        ∀ x ∈ rest, 0 < x.2.remaining := fun call ctx rest hq x hx => h x (by simp [hq, hx])
    cases doWriting_round c c' result hw with
    | empty | nothing => exact h
    | progress call ctx ctx' rest out n hq =>
      intro x hx
      simp only [took] at hx
      split at hx
      · exact hrest call ctx rest hq x hx
      · rename_i hc
        rcases List.mem_cons.mp hx with rfl | hx
        · exact Nat.pos_of_ne_zero (fun he => hc (ctx'.isComplete_iff.mpr he))
        · exact hrest call ctx rest hq x hx
    | drains call ctx ctx' out n hq _ hc =>
      rw [drained_empty c.issue call ctx' out hc]
      simp
    | blocks =>
      obtain ⟨triggered, stack, hb, -⟩ := blocked_frames c.issue
      rw [hb]
      exact h
    | fails call ctx rest hq => exact hrest call ctx rest hq
  | frame _ frame stack _ hcontrol hstack hr =>
    cases runFrame_framed c c' stack result frame hr <;> exact h

theorem exec_finished (c c' : TcpConnection T) (result : SocketResult) (made : List Request)
    (h : c.Finished made) (ha : c.Aged) (hask : c.Asking made) (hw : c.WritesSound)
    (hp : [] ∉ c.control.payloads) (hs : c.exec result = some c') : c'.Finished made where
  positive := exec_positive c c' result h.positive hp hs
  watched := by
    intro herr
    cases exec_stepped c c' result hs with
    | functor _ f hcontrol =>
      have he : c.hardErrors = 0 := by
        rw [← herr]
        cases f with
        | sendInLoop call data =>
          simp only [runFunctor, sendInLoop]
          split <;> rfl
        | sendFileInLoop | shutdownInLoop | connectEstablished | connectDestroyed => rfl
      exact runFunctor_watched c (h.watched he) ha f hcontrol
    | writing _ _ hcontrol hw =>
      cases doWriting_round c c' result hw with
      | empty _ hq => exact fun _ hne => absurd hq hne
      | progress | drains => exact doWriting_watched c _ _ hcontrol (by simp) hw
      | blocks | nothing => exact doWriting_watched c _ _ hcontrol (by simp) hw
      | fails => exact absurd herr (Nat.succ_ne_zero _)
    | frame _ frame stack _ hcontrol hstack hr =>
      have he : c.hardErrors = 0 := by
        rw [← herr]
        cases runFrame_framed c c' stack result frame hr <;> rfl
      refine runFrame_watched c c' (h.watched he) result frame stack hcontrol hstack hr ?_
      rintro rfl
      exact hask.storing (by simp [hstack])
  closed := by
    intro hh
    cases hc : c.control.isShutdown with
    | false =>
      rw [exec_halfCloses c c' result hs hc] at hh
      exact exec_over c c' result made (h.closed hh) ha hs
    | true =>
      cases exec_stepped c c' result hs with
      | functor _ f hcontrol =>
        rw [hcontrol] at hc
        cases f with
        | shutdownInLoop caller after =>
          exact shutdownInLoop_over c caller after made hask h hw hcontrol hh
        | sendInLoop | sendFileInLoop | connectEstablished | connectDestroyed =>
          exact absurd hc (by simp [Control.isShutdown, Functor.isShutdown])
      | writing _ _ hcontrol => exact absurd hc (by simp [hcontrol, Control.isShutdown])
      | frame _ frame stack _ hcontrol => exact absurd hc (by simp [hcontrol, Control.isShutdown])

omit [DecidableEq T] in
theorem over_later (c c' : TcpConnection T) (made later : List Request) (h : c.Over made)
    (hq : c'.contextQueue_ = c.contextQueue_) (hp : c'.control.payloads = [])
    (he : c'.hardErrors = c.hardErrors) (hs : c'.state_ = c.state_) (hw : c'.wire = c.wire) :
    c'.Over (made ++ later) where
  queue := hq.trans h.queue
  payloads := hp
  unharmed := he.trans h.unharmed
  state := hs ▸ h.state
  called := List.mem_append_left _ h.called
  wire := by rw [hw, beforeShutdown_append made later h.called, h.wire]

theorem request_finished (c c' : TcpConnection T) (r : Request) (made : List Request)
    (h : c.Finished made) (ha : c.Aged) (hs : c.step (.request r) = some c') :
    c'.Finished (made ++ [r]) := by
  have hwatched : c.hardErrors = 0 → c'.WatchedSound := fun he =>
    step_watched c (.request r) c' (h.watched he) ha rfl rfl hs
  have hup : c.state_ = .kConnected → c.halfCloses = [] := by
    intro hstate
    by_contra hh
    exact absurd (h.closed hh).state (by simp [hstate])
  cases step_stepped c _ c' hs with
  | refused _ hstate =>
    exact ⟨h.positive, hwatched, fun hh =>
      over_later c c made [r] (h.closed hh) rfl (h.closed hh).payloads rfl rfl rfl⟩
  | sends _ f _ hstate | shutdowns _ hstate =>
    exact ⟨h.positive, hwatched, fun hh => absurd (hup hstate) hh⟩

end TcpConnection

namespace Served

structure Settled (s : Served T W S) : Prop where
  asking : s.conn.Asking s.made
  finished : [] ∉ handedOver s.made → s.conn.Finished s.made

theorem start_settled (fd owner : ℕ) (service : S) :
    (start (T := T) (W := W) fd owner service).Settled where
  asking := ⟨rfl, ordered_clean _ _ ⟨List.not_mem_nil, List.not_mem_nil⟩, fun he => absurd rfl he,
    fun hm => absurd hm List.not_mem_nil, fun hc => absurd hc Bool.false_ne_true,
    fun _ _ => List.not_mem_nil,
    fun hc => absurd hc (by simp [start, TcpConnection.start, Control.isShutdown])⟩
  finished := fun _ => ⟨fun x hx => absurd hx List.not_mem_nil, fun _ _ hq => absurd rfl hq,
    fun hh => absurd rfl hh⟩

theorem control_payloads (s : Served T W S) (h : s.Sound) (hp : [] ∉ handedOver s.made) :
    [] ∉ s.conn.control.payloads := by
  intro hm
  exact hp (h.passed.initial.subset (List.mem_append_right _ hm))

variable [DecidableEq T]

theorem exec_settled (s : Served T W S) (h : s.Sound) (hset : s.Settled)
    (hw : s.conn.WritesSound) (result : SocketResult) (c : TcpConnection T)
    (hc : s.conn.exec result = some c) (s' : Served T W S) (hconn : s'.conn = c)
    (hmade : s'.made = s.made) : s'.Settled := by
  obtain rfl := hconn
  constructor
  · rw [hmade]
    refine TcpConnection.exec_asking _ _ result _ hset.asking h.aged (fun hcontrol => ?_) hc
    exact (h.early (TcpConnection.young_state _ h.aged hcontrol).established).1
  · rw [hmade]
    intro hp
    exact TcpConnection.exec_finished _ _ result _ (hset.finished hp) h.aged hset.asking hw
      (control_payloads s h hp) hc

/-- A step of the connection's loop that executes no statement of its code. -/
theorem idle_settled (s : Served T W S) (h : s.Sound) (hset : s.Settled) (a : Act T)
    (c : TcpConnection T) (ho : s.own a = true) (hc : s.conn.step a = some c)
    (hne : ∀ result, a ≠ .exec result) : Settled { s with conn := c } := by
  have hwatched : s.conn.WatchedSound → c.WatchedSound := by
    intro hw
    cases a with
    | exec result => exact absurd rfl (hne result)
    | store t =>
      have hi := h.threads t
      exact absurd hc (by simp [TcpConnection.step, hi])
    | poll | handleEvent | doPendingFunctor | userCode | request | setHighWaterMark | userReturns
    | call | post | queueDestroyed =>
      exact TcpConnection.step_watched s.conn _ c hw h.aged rfl rfl hc
  have hover : ∀ made, s.conn.Over made → c.contextQueue_ = s.conn.contextQueue_ →
      c.control.payloads = [] → c.hardErrors = s.conn.hardErrors → c.state_ = s.conn.state_ →
      c.wire = s.conn.wire → c.Over made := by
    intro made hov h1 h2 h3 h4 h5
    have hl := TcpConnection.over_later s.conn c made [] hov h1 h2 h3 h4 h5
    rwa [List.append_nil] at hl
  have hask := hset.asking
  have hnil : Clean [] := ⟨List.not_mem_nil, List.not_mem_nil⟩
  cases TcpConnection.step_stepped s.conn a c hc with
  | functor result | writing result | frame result => exact absurd rfl (hne result)
  | pending f fs hcontrol hstack hactive hpending =>
    have hf : f.payloads = [] ∧ f.isShutdown = false := by
      rcases h.pending f (by simp [hpending]) with rfl | rfl <;> exact ⟨rfl, rfl⟩
    have hclean : Clean s.conn.stack := hstack ▸ hnil
    refine ⟨TcpConnection.asking_same s.conn _ s.made hask rfl (ordered_clean _ _ hclean) rfl rfl
      hclean.2 hclean.2 hf.2 (by simp [hstack]), fun hp => ?_⟩
    have hfin := hset.finished hp
    exact ⟨hfin.positive, fun he => hwatched (hfin.watched he),
      fun hh => hover _ (hfin.closed hh) rfl hf.1 rfl rfl rfl⟩
  | handleEvent revents hcontrol hstack =>
    have hclean := handlers_clean revents
    refine ⟨TcpConnection.asking_same s.conn _ s.made hask rfl (ordered_clean _ _ hclean) rfl rfl
      (by simp [hstack]) hclean.2 (by simp [hcontrol, Control.isShutdown]) (by simp [hstack]),
      fun hp => ?_⟩
    have hfin := hset.finished hp
    exact ⟨hfin.positive, fun he => hwatched (hfin.watched he),
      fun hh => hover _ (hfin.closed hh) rfl (hfin.closed hh).payloads rfl rfl rfl⟩
  | userCode hcontrol hstack =>
    have hclean := clean_cons .user [] hnil (by simp) (by simp)
    refine ⟨TcpConnection.asking_same s.conn _ s.made hask rfl (ordered_clean _ _ hclean) rfl rfl
      (by simp [hstack]) hclean.2 (by simp [hcontrol, Control.isShutdown]) (by simp [hstack]),
      fun hp => ?_⟩
    have hfin := hset.finished hp
    exact ⟨hfin.positive, fun he => hwatched (hfin.watched he),
      fun hh => hover _ (hfin.closed hh) rfl (hfin.closed hh).payloads rfl rfl rfl⟩
  | userReturns stack hcontrol hstack =>
    have hclean : Clean stack := by
      have ht := hask.ordered.tail
      rwa [hstack] at ht
    have hnone : .shutdownStore ∉ s.conn.stack := by
      rw [hstack]
      exact (clean_cons .user stack hclean (by simp) (by simp)).2
    refine ⟨TcpConnection.asking_same s.conn _ s.made hask rfl (ordered_clean _ _ hclean) rfl rfl
      hnone hclean.2 (by simp [hcontrol, Control.isShutdown]) (by simp [hstack]), fun hp => ?_⟩
    have hfin := hset.finished hp
    exact ⟨hfin.positive, fun he => hwatched (hfin.watched he),
      fun hh => hover _ (hfin.closed hh) rfl (hfin.closed hh).payloads rfl rfl rfl⟩
  | poll | queueDestroyed =>
    refine ⟨⟨hask.latch, hask.ordered, hask.erred, hask.storing, hask.closing, hask.unasked,
      hask.asked⟩, fun hp => ?_⟩
    have hfin := hset.finished hp
    exact ⟨hfin.positive, fun he => hwatched (hfin.watched he),
      fun hh => hover _ (hfin.closed hh) rfl (hfin.closed hh).payloads rfl rfl rfl⟩
  | store t hstoring => exact absurd (hstoring.symm.trans (h.threads t)) (by simp)
  | post t f hposting => exact absurd (hposting.symm.trans (h.threads t)) (by simp)
  | refused | sends | shutdowns | setHighWaterMark | callRefused | calls | callShutdown =>
    exact absurd ho (by simp [own])

variable (callback : MessageCallback W S)

theorem step_settled (s : Served T W S) (a : ServeAct T W) (s' : Served T W S) (h : s.Sound)
    (hset : s.Settled) (hw : s.conn.WritesSound) (hs : s.step callback a = some s') :
    s'.Settled := by
  cases step_stepped callback s a s' hs with
  | conn a c ho hc =>
    cases a with
    | exec result => exact exec_settled s h hset hw result c hc _ rfl rfl
    | poll | handleEvent | doPendingFunctor | userCode | request | setHighWaterMark | userReturns
    | call | store | post | queueDestroyed =>
      exact idle_settled s h hset _ c ho hc (by simp)
  | message m c _ hr hcalls hdata hc hok =>
    obtain ⟨buffer, -, calls, service, buffer', -, rfl⟩ := handleRead_ok callback s m c s' hok
    exact exec_settled s h hset hw _ c hc _ rfl rfl
  | call r calls c hcalls hin hc =>
    have hin' : s.conn.inUser = true := (Bool.and_eq_true_iff.mp hin).1
    refine ⟨TcpConnection.request_asking s.conn c r s.made hset.asking h.passed hin' hc,
      fun hp => ?_⟩
    refine TcpConnection.request_finished s.conn c r s.made (hset.finished ?_) h.aged hc
    intro hm
    refine hp ?_
    rw [handedOver, List.filterMap_append]
    exact List.mem_append_left _ hm

theorem reach_settled (fd owner : ℕ) (service : S) (ok : Served T W S → ServeAct T W → Prop)
    (s : Served T W S) (h : Reach (step callback) ok (start fd owner service) s) : s.Settled := by
  have hall := reach_invariant _ _ _ (fun s => s.Sound ∧ s.conn.WritesSound ∧ s.Settled)
    ⟨start_sound fd owner service, TcpConnection.start_writes fd owner,
      start_settled fd owner service⟩ ?_ s h
  · exact hall.2.2
  · rintro s a t ⟨hs, hw, hset⟩ - ht
    obtain ⟨b, hb⟩ := step_conn callback s a t ht
    exact ⟨step_sound callback s a t hs ht, TcpConnection.step_writes _ b _ hw hb,
      step_settled callback s a t hs hset hw ht⟩

def Stopped (s : Served T W S) : Prop := s.conn.handed <+: handedOver (beforeShutdown s.made)

theorem exec_stopped (s : Served T W S) (h : s.Sound) (hstop : s.Stopped) (result : SocketResult)
    (c : TcpConnection T) (hc : s.conn.exec result = some c) :
    c.handed <+: handedOver (beforeShutdown s.made) := by
  refine (TcpConnection.exec_passed s.conn c result s.conn.handed ⟨List.prefix_refl _, fun _ => rfl⟩
    hc (fun hcontrol => ?_)).initial.trans hstop
  have hi := h.passed.initial
  rw [(h.early (TcpConnection.young_state _ h.aged hcontrol).established).1] at hi
  exact List.prefix_nil.mp hi

theorem step_stopped (s : Served T W S) (a : ServeAct T W) (s' : Served T W S) (h : s.Sound)
    (hset : s.Settled) (hstop : s.Stopped) (hs : s.step callback a = some s') : s'.Stopped := by
  cases step_stepped callback s a s' hs with
  | conn a c ho hc =>
    cases TcpConnection.step_stepped s.conn a c hc with
    | functor result | writing result | frame result => exact exec_stopped s h hstop result _ hc
    | pending f fs hcontrol hstack hactive hpending =>
      have hf : f.payloads = [] := by
        rcases h.pending f (by simp [hpending]) with rfl | rfl <;> rfl
      change TcpConnection.handed _ <+: _
      rw [TcpConnection.handed_nothing _ f rfl hf, ← TcpConnection.handed_frames s.conn hcontrol]
      exact hstop
    | store t hstoring => exact absurd (hstoring.symm.trans (h.threads t)) (by simp)
    | post t f hposting => exact absurd (hposting.symm.trans (h.threads t)) (by simp)
    | refused | sends | shutdowns | setHighWaterMark | callRefused | calls | callShutdown =>
      exact absurd ho (by simp [own])
    | poll | handleEvent | userCode | userReturns | queueDestroyed => exact hstop
  | message m c _ hr hcalls hdata hc hok =>
    obtain ⟨buffer, -, calls, service, buffer', -, rfl⟩ := handleRead_ok callback s m c s' hok
    exact exec_stopped s h hstop _ c hc
  | call r calls c hcalls hin hc =>
    have hgrows := handedOver_grows _ _ (beforeShutdown_grows s.made [r])
    have hp := TcpConnection.request_passed s.conn c r _ h.passed hc
    cases TcpConnection.step_stepped s.conn _ c hc with
    | refused | shutdowns => exact hstop.trans hgrows
    | sends _ f hcontrol hstate hf =>
      have hr : r ≠ .shutdown := by
        rintro rfl
        exact absurd hf (by simp [TcpConnection.sendFunctor])
      have hnone : .shutdown ∉ s.made := by
        refine hset.asking.unasked hstate (fun hm => ?_)
        obtain ⟨-, stack, hstack⟩ := s.conn.inUser_iff.mp (Bool.and_eq_true_iff.mp hin).1
        rw [hstack] at hm
        have ht := hset.asking.ordered.tail
        rw [hstack] at ht
        exact ht.2 ((List.mem_cons.mp hm).resolve_left (by simp))
      have hall : beforeShutdown (s.made ++ [r]) = s.made ++ [r] :=
        beforeShutdown_all _ (by simp [hnone, hr.symm])
      have happend : handedOver (s.made ++ [r]) = handedOver s.made ++ handedOver [r] :=
        List.filterMap_append
      change _ <+: handedOver (beforeShutdown (s.made ++ [r]))
      rw [hall, happend]
      exact hp.initial

theorem reach_stopped (fd owner : ℕ) (service : S) (ok : Served T W S → ServeAct T W → Prop)
    (s : Served T W S) (h : Reach (step callback) ok (start fd owner service) s) : s.Stopped := by
  have hall := reach_invariant _ _ _
    (fun s => s.Sound ∧ s.conn.WritesSound ∧ s.Settled ∧ s.Stopped)
    ⟨start_sound fd owner service, TcpConnection.start_writes fd owner,
      start_settled fd owner service, List.prefix_refl _⟩ ?_ s h
  · exact hall.2.2.2
  · rintro s a t ⟨hs, hw, hset, hstop⟩ - ht
    obtain ⟨b, hb⟩ := step_conn callback s a t ht
    exact ⟨step_sound callback s a t hs ht, TcpConnection.step_writes _ b _ hw hb,
      step_settled callback s a t hs hset hw ht, step_stopped callback s a t hs hset hstop ht⟩

/-- The bytes on the wire begin what was handed over in front of the first `shutdown`. -/
theorem reach_wire_before (fd owner : ℕ) (service : S) (ok : Served T W S → ServeAct T W → Prop)
    (s : Served T W S) (h : Reach (step callback) ok (start fd owner service) s)
    (herr : s.conn.hardErrors = 0) :
    s.conn.wire <+: (handedOver (beforeShutdown s.made)).flatten := by
  obtain ⟨later, hl⟩ := reach_stopped callback fd owner service ok s h
  have hw := reach_writesSound callback fd owner service ok s h herr
  refine (TcpConnection.writes_initial _ _ _ _ _ hw).trans ?_
  rw [← hl, TcpConnection.handed, List.append_assoc, List.flatten_append]
  exact List.prefix_append _ _

end Served
end MuServer
