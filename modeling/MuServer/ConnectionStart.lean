import MuServer.TcpConnection

/-!
# Before `connectEstablished`

Until it runs the connection refuses every call, its channel is not in the poller
and nothing else of it is pending in front. It runs once.
-/

set_option autoImplicit false

namespace MuServer

variable {T : Type}

namespace TcpConnection

/-- `connectEstablished` is the first functor, or the one that runs. -/
def ToEstablish (c : TcpConnection T) : Prop :=
  (c.control = .frames ∧ ∃ fs, c.pendingFunctors_ = .connectEstablished::fs ∧
    Functor.connectEstablished ∉ fs) ∨
  (c.control = .functor .connectEstablished ∧ Functor.connectEstablished ∉ c.pendingFunctors_)

structure Young (c : TcpConnection T) : Prop where
  state : c.state_ = .kConnecting
  stack : ∀ frame ∈ c.stack, frame = .user
  active : c.active = none
  index : c.channel_.index_ = .kNew
  threads : ∀ t, c.threads t = .idle
  closes : c.closes = 0
  established : c.established = 0
  destroyed : c.destroyed = 0
  toEstablish : c.ToEstablish

structure Grown (c : TcpConnection T) : Prop where
  established : c.established = 1
  pending : Functor.connectEstablished ∉ c.pendingFunctors_
  control : c.control ≠ .functor .connectEstablished
  threads : ∀ t, c.threads t ≠ .posting .connectEstablished

def Aged (c : TcpConnection T) : Prop := c.Young ∨ c.Grown

theorem start_young (fd owner : ℕ) : (start (T := T) fd owner).Young where
  state := rfl
  stack := by simp [start]
  active := rfl
  index := rfl
  threads := fun _ => rfl
  closes := rfl
  established := rfl
  destroyed := rfl
  toEstablish := Or.inl ⟨rfl, [], rfl, by simp⟩

theorem sendFunctor_ne (c : TcpConnection T) (caller : Option T) (r : Request) (f : Functor T)
    (hf : c.sendFunctor caller r = some f) : f ≠ .connectEstablished := by
  obtain ⟨data, rfl⟩ | ⟨file, rfl⟩ := c.sendFunctor_sends caller r f hf <;> simp

theorem young_runs (c : TcpConnection T) (h : c.Young) (f : Functor T)
    (hcontrol : c.control = .functor f) : (c.runFunctor f).Grown := by
  rcases h.toEstablish with ⟨hc, -⟩ | ⟨hc, hp⟩
  · exact absurd (hc.symm.trans hcontrol) (by simp)
  · obtain rfl := Control.functor.inj (hcontrol.symm.trans hc)
    constructor
    · change c.established+1 = 1
      rw [h.established]
    · exact hp
    · simp [runFunctor, frames]
    · intro t ht
      exact absurd ((h.threads t).symm.trans ht) (by simp)

theorem young_step [DecidableEq T] (c : TcpConnection T) (a : Act T) (c' : TcpConnection T)
    (h : c.Young) (hs : c.step a = some c') : c'.Aged := by
  have hstate : c.state_ ≠ .kConnected := by
    rw [h.state]
    simp
  cases step_stepped c a c' hs with
  | poll revents hcontrol hstack hactive hindex =>
    exact absurd (h.index.symm.trans hindex) (by simp)
  | handleEvent revents hcontrol hstack hactive =>
    exact absurd (h.active.symm.trans hactive) (by simp)
  | pending f fs hcontrol hstack hactive hpending =>
    left
    refine ⟨h.state, h.stack, h.active, h.index, h.threads, h.closes, h.established, h.destroyed, ?_⟩
    rcases h.toEstablish with ⟨-, fs', hp, hnot⟩ | ⟨hc, -⟩
    · obtain ⟨rfl, rfl⟩ := List.cons.inj (hpending.symm.trans hp)
      exact Or.inr ⟨rfl, hnot⟩
    · exact absurd (hcontrol.symm.trans hc) (by simp)
  | userCode hcontrol hstack =>
    left
    exact ⟨h.state, by simp, h.active, h.index, h.threads, h.closes, h.established, h.destroyed,
      h.toEstablish⟩
  | userReturns stack hcontrol hstack =>
    left
    refine ⟨h.state, ?_, h.active, h.index, h.threads, h.closes, h.established, h.destroyed,
      h.toEstablish⟩
    intro frame hf
    apply h.stack
    rw [hstack]
    exact List.mem_cons_of_mem _ hf
  | setHighWaterMark mark =>
    left
    exact ⟨h.state, h.stack, h.active, h.index, h.threads, h.closes, h.established, h.destroyed,
      h.toEstablish⟩
  | queueDestroyed =>
    left
    refine ⟨h.state, h.stack, h.active, h.index, h.threads, h.closes, h.established, h.destroyed, ?_⟩
    rcases h.toEstablish with ⟨hc, fs, hp, hnot⟩ | ⟨hc, hp⟩
    · left
      refine ⟨hc, fs ++ [.connectDestroyed], ?_, by simpa using hnot⟩
      simp [queueInLoop, hp]
    · exact Or.inr ⟨hc, by simpa [queueInLoop] using hp⟩
  | functor result f hcontrol => exact Or.inr (young_runs c h f hcontrol)
  | writing result _ hcontrol hw =>
    rcases h.toEstablish with ⟨hc, -⟩ | ⟨hc, -⟩
    · exact absurd (hcontrol.symm.trans hc) (by simp)
    · exact absurd (hcontrol.symm.trans hc) (by simp)
  | frame result frame stack _ hcontrol hstack hr =>
    have hf : frame = .user := h.stack frame (by simp [hstack])
    subst hf
    exact absurd hr (by simp [runFrame])
  | store t hstoring => exact absurd ((h.threads t).symm.trans hstoring) (by simp)
  | post t f hposting => exact absurd ((h.threads t).symm.trans hposting) (by simp)
  | sends r f hcontrol hs' => exact absurd hs' hstate
  | shutdowns hcontrol hs' => exact absurd hs' hstate
  | calls t r f hidle hs' => exact absurd hs' hstate
  | callShutdown t hidle hs' => exact absurd hs' hstate
  | refused => exact Or.inl h
  | callRefused => exact Or.inl h

theorem exec_grown [DecidableEq T] (c c' : TcpConnection T) (h : c.Grown) (result : SocketResult)
    (hs : c.exec result = some c') : c'.Grown := by
  have hk := exec_kept c c' result hs
  constructor
  · rw [hk.established h.control]
    exact h.established
  · rw [hk.pending]
    exact h.pending
  · intro hc
    obtain ⟨after, hf⟩ := hk.calls _ hc
    exact absurd hf (by simp)
  · rw [hk.threads]
    exact h.threads

theorem grown_step [DecidableEq T] (c : TcpConnection T) (a : Act T) (c' : TcpConnection T)
    (h : c.Grown) (hs : c.step a = some c') : c'.Grown := by
  have hthread : ∀ (t : T) (phase : Phase T), phase ≠ .posting .connectEstablished →
      ∀ u, Function.update c.threads t phase u ≠ .posting .connectEstablished := by
    intro t phase hp u
    by_cases hu : u = t
    · subst hu
      rwa [Function.update_self]
    · rw [Function.update_of_ne hu]
      exact h.threads u
  cases step_stepped c a c' hs with
  | pending f fs hcontrol hstack hactive hpending =>
    have hp := h.pending
    rw [hpending, List.mem_cons, not_or] at hp
    refine ⟨h.established, hp.2, ?_, h.threads⟩
    intro he
    exact hp.1 (Control.functor.inj he).symm
  | sends r f hcontrol hstate hf =>
    refine ⟨h.established, h.pending, ?_, h.threads⟩
    intro he
    exact c.sendFunctor_ne none r f hf (Control.functor.inj he)
  | functor result | writing result | frame result => exact exec_grown c _ h result hs
  | calls t r f hidle hstate hf =>
    refine ⟨h.established, h.pending, h.control, hthread t _ ?_⟩
    intro he
    exact c.sendFunctor_ne (some t) r f hf (Phase.posting.inj he)
  | callShutdown t => exact ⟨h.established, h.pending, h.control, hthread t _ (by simp)⟩
  | store t => exact ⟨h.established, h.pending, h.control, hthread t _ (by simp)⟩
  | post t f hposting =>
    refine ⟨h.established, ?_, h.control, hthread t _ (by simp)⟩
    intro he
    rcases List.mem_append.mp he with he | he
    · exact h.pending he
    · obtain rfl := List.mem_singleton.mp he
      exact h.threads t hposting
  | queueDestroyed =>
    exact ⟨h.established, by simpa [queueInLoop] using h.pending, h.control, h.threads⟩
  | poll | handleEvent | userCode | refused | shutdowns | setHighWaterMark | userReturns
  | callRefused => exact ⟨h.established, h.pending, h.control, h.threads⟩

theorem step_aged [DecidableEq T] (c : TcpConnection T) (a : Act T) (c' : TcpConnection T)
    (h : c.Aged) (hs : c.step a = some c') : c'.Aged := by
  rcases h with h | h
  · exact young_step c a c' h hs
  · exact Or.inr (grown_step c a c' h hs)

end TcpConnection
end MuServer
