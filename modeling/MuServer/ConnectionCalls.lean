import MuServer.TcpConnection

/-!
# The order of the calls

A call that passed the test of `state_` goes from its thread through
`pendingFunctors_` to the loop thread and there into the queue. `Lined` says that
the calls of one caller stay in order on this way.
-/

set_option autoImplicit false

namespace MuServer
open Lib.Tickets

variable {T : Type}

def Functor.calls : Functor T → List (Call T)
  | .sendInLoop call _ => [call]
  | .sendFileInLoop call _ => [call]
  | _ => []

def Control.calls : Control T → List (Call T)
  | .functor f => f.calls
  | _ => []

def waiting (now : List (Call T)) (pending : List (Functor T)) : List (Call T) :=
  now ++ pending.flatMap Functor.calls

structure Lined (done now : List (Call T)) (pending : List (Functor T)) (accepted : Option T → ℕ)
    (threads : T → Phase T) : Prop where
  numbered : Numbered (done ++ waiting now pending) accepted
  foreign : ∀ f ∈ pending, ∀ x ∈ f.calls, x.caller ≠ none
  posting : ∀ t f, threads t = .posting f → ∀ x ∈ f.calls,
    x.caller = some t ∧ x.number < accepted (some t) ∧
      ∀ y ∈ done ++ waiting now pending, y.caller = some t → y.number < x.number

theorem lined_sublist (done now done' now' : List (Call T)) (pending pending' : List (Functor T))
    (accepted : Option T → ℕ) (threads : T → Phase T)
    (h : Lined done now pending accepted threads)
    (hs : (done' ++ waiting now' pending').Sublist (done ++ waiting now pending))
    (hp : ∀ f ∈ pending', f ∈ pending) : Lined done' now' pending' accepted threads where
  numbered := numbered_sublist _ _ _ h.numbered hs
  foreign := fun f hf => h.foreign f (hp f hf)
  posting := by
    intro t f hf x hx
    obtain ⟨hc, hn, hl⟩ := h.posting t f hf x hx
    exact ⟨hc, hn, fun y hy => hl y (hs.subset hy)⟩

theorem lined_accept [DecidableEq T] (done : List (Call T)) (pending : List (Functor T))
    (accepted : Option T → ℕ) (threads : T → Phase T)
    (h : Lined done [] pending accepted threads) :
    Lined done [⟨none, accepted none⟩] pending
      (Function.update accepted none (accepted none+1)) threads where
  numbered := by
    apply numbered_next done (pending.flatMap Functor.calls) none accepted h.numbered
    intro y hy
    obtain ⟨f, hf, hy⟩ := List.mem_flatMap.mp hy
    exact h.foreign f hf y hy
  foreign := h.foreign
  posting := by
    intro t f hf x hx
    obtain ⟨hc, hn, hl⟩ := h.posting t f hf x hx
    refine ⟨hc, Nat.lt_of_lt_of_le hn (le_update_succ accepted none (some t)), ?_⟩
    intro y hy he
    rcases List.mem_append.mp hy with hy | hy
    · exact hl y (List.mem_append_left _ hy) he
    · rcases List.mem_cons.mp hy with rfl | hy
      · exact absurd he (by simp)
      · exact hl y (List.mem_append_right _ hy) he

theorem lined_call [DecidableEq T] (done now : List (Call T)) (pending : List (Functor T))
    (accepted : Option T → ℕ) (threads : T → Phase T) (t : T) (f : Functor T)
    (h : Lined done now pending accepted threads) (hf : f.calls = [⟨some t, accepted (some t)⟩]) :
    Lined done now pending (Function.update accepted (some t) (accepted (some t)+1))
      (Function.update threads t (.posting f)) where
  numbered := numbered_mono _ _ _ h.numbered (le_update_succ accepted (some t))
  foreign := h.foreign
  posting := by
    intro u g hg x hx
    by_cases hu : u = t
    · subst hu
      rw [Function.update_self] at hg
      obtain rfl := Phase.posting.inj hg
      rw [hf] at hx
      obtain rfl := List.mem_singleton.mp hx
      refine ⟨rfl, ?_, ?_⟩
      · rw [Function.update_self]
        exact Nat.lt_succ_self _
      · intro y hy he
        have hy' := h.numbered.lt_count y hy
        rwa [he] at hy'
    · rw [Function.update_of_ne hu] at hg
      obtain ⟨hc, hn, hl⟩ := h.posting u g hg x hx
      exact ⟨hc, Nat.lt_of_lt_of_le hn (le_update_succ accepted (some t) (some u)), hl⟩

theorem lined_thread [DecidableEq T] (done now : List (Call T)) (pending : List (Functor T))
    (accepted : Option T → ℕ) (threads : T → Phase T) (t : T) (phase : Phase T)
    (h : Lined done now pending accepted threads)
    (hphase : ∀ f, phase = .posting f → f.calls = []) :
    Lined done now pending accepted (Function.update threads t phase) where
  numbered := h.numbered
  foreign := h.foreign
  posting := by
    intro u g hg x hx
    by_cases hu : u = t
    · subst hu
      rw [Function.update_self] at hg
      rw [hphase g hg] at hx
      exact absurd hx List.not_mem_nil
    · rw [Function.update_of_ne hu] at hg
      exact h.posting u g hg x hx

theorem lined_queue (done now : List (Call T)) (pending : List (Functor T))
    (accepted : Option T → ℕ) (threads : T → Phase T) (f : Functor T)
    (h : Lined done now pending accepted threads) (hf : f.calls = []) :
    Lined done now (pending ++ [f]) accepted threads := by
  have hw : waiting now (pending ++ [f]) = waiting now pending := by
    simp [waiting, hf]
  constructor
  · rw [hw]
    exact h.numbered
  · intro g hg x hx
    rcases List.mem_append.mp hg with hg | hg
    · exact h.foreign g hg x hx
    · obtain rfl := List.mem_singleton.mp hg
      rw [hf] at hx
      exact absurd hx List.not_mem_nil
  · rw [hw]
    exact h.posting

theorem lined_post [DecidableEq T] (done : List (Call T)) (pending : List (Functor T))
    (accepted : Option T → ℕ) (threads : T → Phase T) (t : T) (f : Functor T) (now : List (Call T))
    (h : Lined done now pending accepted threads) (hf : threads t = .posting f)
    (hlen : f.calls = [] ∨ ∃ x, f.calls = [x]) :
    Lined done now (pending ++ [f]) accepted (Function.update threads t .idle) := by
  rcases hlen with hf' | ⟨x, hx⟩
  · apply lined_thread
    · exact lined_queue _ _ _ _ _ f h hf'
    · simp
  · obtain ⟨hc, hn, hl⟩ := h.posting t f hf x (by simp [hx])
    have hw : done ++ waiting now (pending ++ [f]) = done ++ waiting now pending ++ [x] := by
      simp [waiting, hx]
    constructor
    · rw [hw]
      apply numbered_insert _ [] x accepted
      · rw [List.append_nil]
        exact h.numbered
      · rwa [hc]
      · intro y hy he
        exact hl y hy (he.trans hc)
      · simp
    · intro g hg y hy
      rcases List.mem_append.mp hg with hg | hg
      · exact h.foreign g hg y hy
      · obtain rfl := List.mem_singleton.mp hg
        rw [hx] at hy
        obtain rfl := List.mem_singleton.mp hy
        rw [hc]
        simp
    · intro u g hg y hy
      by_cases hu : u = t
      · subst hu
        rw [Function.update_self] at hg
        exact absurd hg (by simp)
      · rw [Function.update_of_ne hu] at hg
        obtain ⟨hc', hn', hl'⟩ := h.posting u g hg y hy
        refine ⟨hc', hn', ?_⟩
        rw [hw]
        intro z hz he
        rcases List.mem_append.mp hz with hz | hz
        · exact hl' z hz he
        · obtain rfl := List.mem_singleton.mp hz
          exact absurd (Option.some.inj (he.symm.trans hc)) hu

namespace TcpConnection

def done (c : TcpConnection T) : List (Call T) := c.queued.map Prod.fst

def LinedSound (c : TcpConnection T) : Prop :=
  Lined c.done c.control.calls c.pendingFunctors_ c.accepted c.threads

theorem sendFunctor_calls (c : TcpConnection T) (caller : Option T) (r : Request) (f : Functor T)
    (hf : c.sendFunctor caller r = some f) : f.calls = [⟨caller, c.accepted caller⟩] := by
  obtain ⟨data, rfl⟩ | ⟨file, rfl⟩ := c.sendFunctor_sends caller r f hf <;> rfl

theorem enqueue_lined (c : TcpConnection T) (call : Call T) (ctx : Context) (len : ℕ)
    (payload : Bytes) (h : Lined c.done [call] c.pendingFunctors_ c.accepted c.threads) :
    (c.enqueue call ctx len payload).LinedSound := by
  apply lined_sublist _ _ _ _ _ _ _ _ h
  · simp [enqueue, done, waiting, Control.calls]
  · exact fun _ hf => hf

theorem runFunctor_lined (c : TcpConnection T) (f : Functor T) (h : c.LinedSound)
    (hcontrol : c.control = .functor f) : (c.runFunctor f).LinedSound := by
  unfold LinedSound at h
  rw [hcontrol] at h
  cases f with
  | sendInLoop call data =>
    simp only [runFunctor, sendInLoop]
    split
    · apply lined_sublist _ _ _ _ _ _ _ _ h
      · simp [frames, done, waiting, Control.calls]
      · exact fun _ hf => hf
    · exact enqueue_lined c call _ _ _ h
  | sendFileInLoop call file => exact enqueue_lined c call _ _ _ h
  | shutdownInLoop caller after => exact h
  | connectEstablished => exact h
  | connectDestroyed => exact h

theorem doWriting_lined (c c' : TcpConnection T) (result : SocketResult) (h : c.LinedSound)
    (hcontrol : c.control = .doWriting) (hs : c.doWriting result = some c') : c'.LinedSound := by
  have hl : Lined c.done [] c.pendingFunctors_ c.accepted c.threads := by
    unfold LinedSound at h
    rwa [hcontrol] at h
  cases doWriting_round c c' result hs with
  | empty => exact hl
  | progress => exact h
  | drains call ctx ctx' out =>
    obtain ⟨poller, channel, hd⟩ := drained_channel (c.issue.took call ctx' [] out)
    rw [hd]
    exact h
  | blocks =>
    obtain ⟨triggered, stack, hb, -⟩ := blocked_frames c.issue
    rw [hb]
    exact hl
  | nothing => exact hl
  | fails => exact hl

theorem runFrame_lined (c c' : TcpConnection T) (stack : List Frame) (result : SocketResult)
    (frame : Frame) (h : c.LinedSound) (hcontrol : c.control = .frames)
    (hs : c.runFrame stack result frame = some c') : c'.LinedSound := by
  have hl : Lined c.done [] c.pendingFunctors_ c.accepted c.threads := by
    unfold LinedSound at h
    rwa [hcontrol] at h
  cases runFrame_framed c c' stack result frame hs with
  | handleRead | writes | writesNothing | handleError | handleClose | closeCallback
  | writingAlready | enableWriting | shutdownStore | destroyStore | removeChannel => exact hl

theorem calls_short (f : Functor T) : f.calls = [] ∨ ∃ x, f.calls = [x] := by
  cases f with
  | sendInLoop call data => exact Or.inr ⟨call, rfl⟩
  | sendFileInLoop call file => exact Or.inr ⟨call, rfl⟩
  | shutdownInLoop | connectEstablished | connectDestroyed => exact Or.inl rfl

theorem step_lined [DecidableEq T] (c : TcpConnection T) (a : Act T) (c' : TcpConnection T)
    (h : c.LinedSound) (hs : c.step a = some c') : c'.LinedSound := by
  cases step_stepped c a c' hs with
  | pending f fs hcontrol hstack hactive hpending =>
    unfold LinedSound at h
    rw [hcontrol, hpending] at h
    apply lined_sublist _ _ _ _ _ _ _ _ h
    · simp [waiting, Control.calls, done]
    · exact fun g hg => List.mem_cons_of_mem f hg
  | sends r f hcontrol hstate hf =>
    unfold LinedSound at h
    rw [hcontrol] at h
    have ha := lined_accept _ _ _ _ h
    rw [← c.sendFunctor_calls none r f hf] at ha
    exact ha
  | functor result f hcontrol => exact runFunctor_lined c f h hcontrol
  | writing result _ hcontrol hw => exact doWriting_lined c c' result h hcontrol hw
  | frame result frame stack _ hcontrol hstack hr =>
    exact runFrame_lined c c' stack result frame h hcontrol hr
  | calls t r f hidle hstate hf =>
    exact lined_call _ _ _ _ _ t f h (c.sendFunctor_calls (some t) r f hf)
  | callShutdown t hidle hstate => exact lined_thread _ _ _ _ _ t .storing h (by simp)
  | store t hstoring =>
    apply lined_thread _ _ _ _ _ t _ h
    intro f hf
    obtain rfl := Phase.posting.inj hf
    rfl
  | post t f hposting => exact lined_post _ _ _ _ t f _ h hposting (calls_short f)
  | queueDestroyed => exact lined_queue _ _ _ _ _ _ h rfl
  | poll | handleEvent | userCode | refused | shutdowns | setHighWaterMark | userReturns
  | callRefused => exact h

theorem start_lined (fd owner : ℕ) : (start (T := T) fd owner).LinedSound where
  numbered := numbered_nil _
  foreign := by simp [start, Functor.calls]
  posting := by simp [start]

end TcpConnection
end MuServer
