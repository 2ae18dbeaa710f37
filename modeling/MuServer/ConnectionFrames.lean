import MuServer.TcpConnection

/-!
# The frames of the loop thread

Every `closeCallback` frame comes from a run of `handleClose`, every
`removeChannel` frame from a run of `connectDestroyed`.
-/

set_option autoImplicit false

namespace MuServer

variable {T : Type}

/-- A frame that ends neither a `handleClose` nor a `connectDestroyed`. -/
def Frame.plain : Frame → Bool
  | .closeCallback => false
  | .removeChannel => false
  | _ => true

structure Ledger (closes closeCallbacks destroyed removes : ℕ) (stack : List Frame) : Prop where
  closing : closeCallbacks+stack.count .closeCallback ≤ closes
  removing : removes+stack.count .removeChannel = destroyed

theorem plain_count (frame : Frame) (stack : List Frame) (hp : frame.plain = true) :
    (frame::stack).count .closeCallback = stack.count .closeCallback ∧
      (frame::stack).count .removeChannel = stack.count .removeChannel := by
  cases frame <;> simp [Frame.plain] at hp ⊢

theorem ledger_push (closes closeCallbacks destroyed removes : ℕ) (stack : List Frame)
    (frame : Frame) (h : Ledger closes closeCallbacks destroyed removes stack)
    (hp : frame.plain = true) : Ledger closes closeCallbacks destroyed removes (frame::stack) := by
  obtain ⟨hc, hr⟩ := plain_count frame stack hp
  constructor
  · rw [hc]
    exact h.closing
  · rw [hr]
    exact h.removing

theorem ledger_pop (closes closeCallbacks destroyed removes : ℕ) (stack : List Frame)
    (frame : Frame) (h : Ledger closes closeCallbacks destroyed removes (frame::stack))
    (hp : frame.plain = true) : Ledger closes closeCallbacks destroyed removes stack := by
  obtain ⟨hc, hr⟩ := plain_count frame stack hp
  constructor
  · rw [← hc]
    exact h.closing
  · rw [← hr]
    exact h.removing

theorem ledger_append (closes closeCallbacks destroyed removes : ℕ) (stack frames : List Frame)
    (h : Ledger closes closeCallbacks destroyed removes stack)
    (hp : ∀ frame ∈ frames, frame.plain = true) :
    Ledger closes closeCallbacks destroyed removes (frames ++ stack) := by
  induction frames with
  | nil => exact h
  | cons frame frames ih =>
    apply ledger_push
    · exact ih (fun g hg => hp g (List.mem_cons_of_mem _ hg))
    · exact hp frame (List.mem_cons_self ..)

theorem ledger_close (closes closeCallbacks destroyed removes : ℕ) (stack : List Frame)
    (h : Ledger closes closeCallbacks destroyed removes stack) :
    Ledger (closes+1) closeCallbacks destroyed removes (.closeCallback::stack) where
  closing := by
    have hc := h.closing
    rw [List.count_cons_self]
    omega
  removing := by
    have hr := h.removing
    rwa [List.count_cons_of_ne (by simp)]

theorem ledger_callback (closes closeCallbacks destroyed removes : ℕ) (stack : List Frame)
    (h : Ledger closes closeCallbacks destroyed removes (.closeCallback::stack)) :
    Ledger closes (closeCallbacks+1) destroyed removes stack where
  closing := by
    have hc := h.closing
    rw [List.count_cons_self] at hc
    omega
  removing := by
    have hr := h.removing
    rwa [List.count_cons_of_ne (by simp)] at hr

theorem ledger_destroy (closes closeCallbacks destroyed removes : ℕ) (stack : List Frame)
    (h : Ledger closes closeCallbacks destroyed removes stack) :
    Ledger closes closeCallbacks (destroyed+1) removes (.removeChannel::stack) where
  closing := by
    have hc := h.closing
    rwa [List.count_cons_of_ne (by simp)]
  removing := by
    have hr := h.removing
    rw [List.count_cons_self]
    omega

theorem ledger_remove (closes closeCallbacks destroyed removes : ℕ) (stack : List Frame)
    (h : Ledger closes closeCallbacks destroyed removes (.removeChannel::stack)) :
    Ledger closes closeCallbacks destroyed (removes+1) stack where
  closing := by
    have hc := h.closing
    rwa [List.count_cons_of_ne (by simp)] at hc
  removing := by
    have hr := h.removing
    rw [List.count_cons_self] at hr
    omega

theorem handlers_plain (revents : Revents) : ∀ frame ∈ revents.handlers, frame.plain = true := by
  unfold Revents.handlers
  split <;> split <;> split <;> split <;> simp [Frame.plain]

namespace TcpConnection

def LedgerSound (c : TcpConnection T) : Prop :=
  Ledger c.closes c.closeCallbacks c.destroyed c.removes c.stack

theorem runFunctor_ledger (c : TcpConnection T) (h : c.LedgerSound) (f : Functor T) :
    (c.runFunctor f).LedgerSound := by
  cases f with
  | sendInLoop call data =>
    simp only [runFunctor, sendInLoop]
    split
    · exact h
    · exact h
  | sendFileInLoop | shutdownInLoop => exact h
  | connectEstablished => exact ledger_push _ _ _ _ _ .user h rfl
  | connectDestroyed =>
    have hr := ledger_destroy _ _ _ _ _ h
    simp only [runFunctor, connectDestroyed]
    split
    · exact ledger_push _ _ _ _ _ .destroyStore hr rfl
    · exact hr

theorem doWriting_ledger (c c' : TcpConnection T) (h : c.LedgerSound) (result : SocketResult)
    (hs : c.doWriting result = some c') : c'.LedgerSound := by
  cases doWriting_round c c' result hs with
  | empty | progress | nothing => exact h
  | drains call ctx ctx' out =>
    obtain ⟨poller, channel, hd⟩ := drained_channel (c.issue.took call ctx' [] out)
    rw [hd]
    exact h
  | blocks =>
    have hw := ledger_push _ _ _ _ _ .enableWriting h rfl
    unfold blocked
    split
    · exact ledger_push _ _ _ _ _ .user hw rfl
    · exact hw
  | fails => exact ledger_push _ _ _ _ _ .handleClose h rfl

theorem runFrame_ledger (c c' : TcpConnection T) (h : c.LedgerSound) (stack : List Frame)
    (result : SocketResult) (frame : Frame) (hstack : c.stack = frame::stack)
    (hs : c.runFrame stack result frame = some c') : c'.LedgerSound := by
  unfold LedgerSound at h
  rw [hstack] at h
  cases runFrame_framed c c' stack result frame hs with
  | handleRead =>
    have hr : (afterRead result).plain = true := by
      unfold afterRead
      split <;> rfl
    exact ledger_push _ _ _ _ _ _ (ledger_pop _ _ _ _ _ _ h rfl) hr
  | writes | writesNothing | handleError | writingAlready | enableWriting | shutdownStore =>
    exact ledger_pop _ _ _ _ _ _ h rfl
  | destroyStore =>
    exact ledger_push _ _ _ _ _ .user (ledger_pop _ _ _ _ _ _ h rfl) rfl
  | handleClose =>
    exact ledger_push _ _ _ _ _ .user (ledger_close _ _ _ _ _ (ledger_pop _ _ _ _ _ _ h rfl)) rfl
  | closeCallback =>
    exact ledger_callback _ _ _ _ _ h
  | removeChannel =>
    exact ledger_remove _ _ _ _ _ h

theorem step_ledger [DecidableEq T] (c : TcpConnection T) (a : Act T) (c' : TcpConnection T)
    (h : c.LedgerSound) (hs : c.step a = some c') : c'.LedgerSound := by
  cases step_stepped c a c' hs with
  | functor result f => exact runFunctor_ledger c h f
  | writing result _ hcontrol hw => exact doWriting_ledger c c' h result hw
  | frame result frame stack _ hcontrol hstack hr =>
    exact runFrame_ledger c c' h stack result frame hstack hr
  | handleEvent revents hcontrol hstack =>
    unfold LedgerSound at h
    rw [hstack] at h
    have ha := ledger_append _ _ _ _ _ revents.handlers h (handlers_plain revents)
    rwa [List.append_nil] at ha
  | userCode hcontrol hstack =>
    unfold LedgerSound at h
    rw [hstack] at h
    exact ledger_push _ _ _ _ _ .user h rfl
  | shutdowns => exact ledger_push _ _ _ _ _ .shutdownStore h rfl
  | userReturns stack hcontrol hstack =>
    unfold LedgerSound at h
    rw [hstack] at h
    exact ledger_pop _ _ _ _ _ _ h rfl
  | poll | pending | refused | sends | setHighWaterMark | callRefused | calls | callShutdown
  | store | post | queueDestroyed => exact h

theorem start_ledger (fd owner : ℕ) : (start (T := T) fd owner).LedgerSound := ⟨le_refl _, rfl⟩

end TcpConnection
end MuServer
