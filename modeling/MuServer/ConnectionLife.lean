import MuServer.ConnectionFrames
import MuServer.ConnectionStart

/-!
# A connection and its poller

Each step leaves the channel alone, updates it in the poller or removes it from
there. `Life` follows the channel from `connectEstablished` to the removal in
`connectDestroyed`; behind the removal a channel must not be updated again.
-/

set_option autoImplicit false

namespace MuServer

variable {T : Type}

def Functor.isDestroy : Functor T → Bool
  | .connectDestroyed => true
  | _ => false

def Control.isDestroy : Control T → Bool
  | .functor f => f.isDestroy
  | _ => false

namespace TcpConnection

def updates (c : TcpConnection T) : Act T → Bool
  | .exec _ =>
    match c.control, c.stack with
    | .functor .connectEstablished, _ => true
    | .doWriting, _ => c.channel_.isWriting
    | .frames, .handleClose::_ => true
    | .frames, .destroyStore::_ => true
    | .frames, .enableWriting::_ => !c.channel_.isWriting
    | _, _ => false
  | _ => false

inductive Touch (c : TcpConnection T) (a : Act T) (c' : TcpConnection T) : Prop
  | same (hp : c'.poller = c.poller) (hc : c'.channel_ = c.channel_)
      (hr : c'.removes = c.removes) (he : c'.established = c.established)
  | updated (events : Events) (hu : c.updates a = true)
      (hp : c'.poller = (c.poller.updateChannel { c.channel_ with events_ := events }).1)
      (hc : c'.channel_ = (c.poller.updateChannel { c.channel_ with events_ := events }).2)
      (hr : c'.removes = c.removes)
  | removed (stack : List Frame) (hcontrol : c.control = .frames)
      (hstack : c.stack = .removeChannel::stack) (hstack' : c'.stack = stack)
      (hp : c'.poller = (c.poller.removeChannel c.channel_).1)
      (hc : c'.channel_ = (c.poller.removeChannel c.channel_).2)
      (hr : c'.removes = c.removes+1)

theorem runFunctor_touch (c : TcpConnection T) (f : Functor T) (result : SocketResult)
    (hcontrol : c.control = .functor f) : Touch c (.exec result) (c.runFunctor f) := by
  cases f with
  | sendInLoop call data =>
    simp only [runFunctor, sendInLoop]
    split
    · exact .same rfl rfl rfl rfl
    · exact .same rfl rfl rfl rfl
  | connectEstablished => exact .updated _ (by simp [updates, hcontrol]) rfl rfl rfl
  | sendFileInLoop | shutdownInLoop | connectDestroyed => exact .same rfl rfl rfl rfl

theorem doWriting_touch (c c' : TcpConnection T) (result : SocketResult)
    (hcontrol : c.control = .doWriting) (hs : c.doWriting result = some c') :
    Touch c (.exec result) c' := by
  cases doWriting_round c c' result hs with
  | empty | progress | nothing | fails => exact .same rfl rfl rfl rfl
  | drains call ctx ctx' out n =>
    unfold drained
    split
    · rename_i hw
      have hw' : c.channel_.isWriting = true := hw
      exact .updated _ (by simpa [updates, hcontrol] using hw') rfl rfl rfl
    · exact .same rfl rfl rfl rfl
  | blocks =>
    obtain ⟨triggered, stack, hb, -⟩ := blocked_frames c.issue
    rw [hb]
    exact .same rfl rfl rfl rfl

theorem runFrame_touch (c c' : TcpConnection T) (stack : List Frame) (result : SocketResult)
    (frame : Frame) (hcontrol : c.control = .frames) (hstack : c.stack = frame::stack)
    (hs : c.runFrame stack result frame = some c') : Touch c (.exec result) c' := by
  cases runFrame_framed c c' stack result frame hs with
  | handleRead | writes | writesNothing | handleError | closeCallback | writingAlready
  | shutdownStore => exact .same rfl rfl rfl rfl
  | enableWriting hw =>
    exact .updated _ (by simp [updates, hcontrol, hstack, hw]) rfl rfl rfl
  | handleClose | destroyStore =>
    exact .updated kNoneEvent (by simp [updates, hcontrol, hstack]) rfl rfl rfl
  | removeChannel =>
    exact .removed stack hcontrol hstack rfl rfl rfl rfl

theorem step_touch [DecidableEq T] (c : TcpConnection T) (a : Act T) (c' : TcpConnection T)
    (hs : c.step a = some c') : Touch c a c' := by
  cases step_stepped c a c' hs with
  | functor result f hcontrol => exact runFunctor_touch c f result hcontrol
  | writing result _ hcontrol hw => exact doWriting_touch c c' result hcontrol hw
  | frame result frame stack _ hcontrol hstack hr =>
    exact runFrame_touch c c' stack result frame hcontrol hstack hr
  | poll | handleEvent | pending | userCode | refused | sends | shutdowns | setHighWaterMark
  | userReturns | callRefused | calls | callShutdown | store | post | queueDestroyed =>
    exact .same rfl rfl rfl rfl

def destroys (c : TcpConnection T) : ℕ :=
  c.control.isDestroy.toNat+c.pendingFunctors_.countP Functor.isDestroy+c.destroyed

structure Life (c : TcpConnection T) : Prop where
  aged : c.Aged
  ledger : c.LedgerSound
  threads : ∀ t f, c.threads t = .posting f → f.isDestroy = false
  index : c.channel_.index_ = .kNew ↔ c.established = 0 ∨ c.removes ≠ 0
  active : c.control.isDestroy = true ∨ c.destroyed ≠ 0 → c.active = none

theorem start_life (fd owner : ℕ) : (start (T := T) fd owner).Life where
  aged := Or.inl (start_young fd owner)
  ledger := start_ledger fd owner
  threads := by simp [start]
  index := by simp [start]
  active := fun _ => rfl

theorem sendFunctor_isDestroy (c : TcpConnection T) (caller : Option T) (r : Request)
    (f : Functor T) (hf : c.sendFunctor caller r = some f) : f.isDestroy = false := by
  obtain ⟨data, rfl⟩ | ⟨file, rfl⟩ := c.sendFunctor_sends caller r f hf <;> rfl

theorem isDestroy_iff (c : TcpConnection T) :
    c.control.isDestroy = true ↔ c.control = .functor .connectDestroyed := by
  cases hc : c.control with
  | functor f => cases f <;> simp [Control.isDestroy, Functor.isDestroy]
  | frames | doWriting => simp [Control.isDestroy]

theorem kept_isDestroy (c c' : TcpConnection T) (hk : Kept c c') : c'.control.isDestroy = false := by
  cases hc : c'.control with
  | functor f =>
    obtain ⟨after, rfl⟩ := hk.calls f hc
    rfl
  | frames | doWriting => rfl

theorem removing_index (c : TcpConnection T) (h : c.Life) (hd : c.destroys ≤ 1)
    (stack : List Frame) (hstack : c.stack = .removeChannel::stack) :
    c.removes = 0 ∧ c.channel_.index_ ≠ .kNew := by
  have hl := h.ledger.removing
  rw [hstack, List.count_cons_self] at hl
  have hr : c.removes = 0 := by
    unfold destroys at hd
    omega
  refine ⟨hr, ?_⟩
  intro hi
  rcases h.index.mp hi with he | hne
  · rcases h.aged with hy | hg
    · have hf := hy.stack .removeChannel (by simp [hstack])
      exact absurd hf (by simp)
    · have hg' := hg.established
      omega
  · exact hne hr

section Steps

variable [DecidableEq T]

theorem step_index (c : TcpConnection T) (a : Act T) (c' : TcpConnection T) (h : c.Life)
    (hg : c.removes ≠ 0 → c.updates a = false) (hs : c.step a = some c') :
    c'.channel_.index_ = .kNew ↔ c'.established = 0 ∨ c'.removes ≠ 0 := by
  cases step_touch c a c' hs with
  | same hp hc hr he =>
    rw [hc, hr, he]
    exact h.index
  | updated events hu hp hc hr =>
    obtain ⟨index, hne, hi⟩ := c.poller.updateChannel_channel { c.channel_ with events_ := events }
    have hindex : c'.channel_.index_ ≠ .kNew := by
      rw [hc, hi]
      exact hne
    have hremoves : c'.removes = 0 := by
      rw [hr]
      by_contra hn
      exact absurd (hu.symm.trans (hg hn)) (by simp)
    have hestablished : c'.established = 1 := by
      rcases step_aged c a c' h.aged hs with hy | hgr
      · exact absurd hy.index hindex
      · exact hgr.established
    simp [hindex, hremoves, hestablished]
  | removed stack hcontrol hstack hstack' hp hc hr =>
    have hindex : c'.channel_.index_ = .kNew := by
      rw [hc]
      rfl
    simp [hindex, hr]

theorem exec_active (c c' : TcpConnection T) (result : SocketResult) (h : c.Life)
    (hs : c.exec result = some c') :
    c'.control.isDestroy = true ∨ c'.destroyed ≠ 0 → c'.active = none := by
  have hk := exec_kept c c' result hs
  rw [kept_isDestroy c c' hk, hk.active]
  intro hd
  apply h.active
  by_cases hc : c.control = .functor .connectDestroyed
  · exact Or.inl (c.isDestroy_iff.mpr hc)
  · right
    rw [← hk.destroyed hc]
    exact hd.resolve_left (by simp)

theorem step_active (c : TcpConnection T) (a : Act T) (c' : TcpConnection T) (h : c.Life)
    (hs : c.step a = some c') :
    c'.control.isDestroy = true ∨ c'.destroyed ≠ 0 → c'.active = none := by
  cases step_stepped c a c' hs with
  | functor result | writing result | frame result => exact exec_active c _ result h hs
  | poll revents hcontrol hstack hactive hindex =>
    intro hd
    have hd' : c.destroyed ≠ 0 := by
      rcases hd with hd | hd
      · simp [hcontrol, Control.isDestroy] at hd
      · exact hd
    have hl := h.ledger.removing
    rw [hstack, List.count_nil] at hl
    have hnew := h.index.mpr (Or.inr (by omega))
    exact absurd (hnew.symm.trans hindex) (by simp)
  | handleEvent => exact fun _ => rfl
  | pending f fs hcontrol hstack hactive => exact fun _ => hactive
  | sends r f hcontrol hstate hf =>
    intro hd
    apply h.active
    right
    rcases hd with hd | hd
    · exact absurd ((c.sendFunctor_isDestroy none r f hf).symm.trans hd) (by simp)
    · exact hd
  | userCode | refused | shutdowns | setHighWaterMark | userReturns | callRefused | calls
  | callShutdown | store | post | queueDestroyed => exact h.active

theorem step_threads (c : TcpConnection T) (a : Act T) (c' : TcpConnection T) (h : c.Life)
    (hs : c.step a = some c') : ∀ t f, c'.threads t = .posting f → f.isDestroy = false := by
  have hthread : ∀ (t : T) (phase : Phase T), (∀ f, phase = .posting f → f.isDestroy = false) →
      ∀ u f, Function.update c.threads t phase u = .posting f → f.isDestroy = false := by
    intro t phase hp u f hu
    by_cases he : u = t
    · subst he
      rw [Function.update_self] at hu
      exact hp f hu
    · rw [Function.update_of_ne he] at hu
      exact h.threads u f hu
  cases step_stepped c a c' hs with
  | functor result | writing result | frame result =>
    rw [(exec_kept c _ result hs).threads]
    exact h.threads
  | calls t r f hidle hstate hf =>
    apply hthread
    intro g hg
    obtain rfl := Phase.posting.inj hg
    exact c.sendFunctor_isDestroy (some t) r f hf
  | callShutdown t => exact hthread t .storing (by simp)
  | store t =>
    apply hthread
    intro f hf
    obtain rfl := Phase.posting.inj hf
    rfl
  | post t => exact hthread t .idle (by simp)
  | poll | handleEvent | pending | userCode | refused | sends | shutdowns | setHighWaterMark
  | userReturns | callRefused | queueDestroyed => exact h.threads

theorem step_life (c : TcpConnection T) (a : Act T) (c' : TcpConnection T) (h : c.Life)
    (hg : c.removes ≠ 0 → c.updates a = false) (hs : c.step a = some c') : c'.Life where
  aged := step_aged c a c' h.aged hs
  ledger := step_ledger c a c' h.ledger hs
  threads := step_threads c a c' h hs
  index := step_index c a c' h hg hs
  active := step_active c a c' h hs

theorem exec_destroys (c c' : TcpConnection T) (result : SocketResult)
    (hs : c.exec result = some c') : c'.destroys = c.destroys := by
  have hk := exec_kept c c' result hs
  have hc' := kept_isDestroy c c' hk
  by_cases hc : c.control = .functor .connectDestroyed
  · simp only [exec, hc] at hs
    obtain rfl := Option.some.inj hs
    simp only [destroys, hc, runFunctor, frames, Control.isDestroy, Functor.isDestroy]
    simp
    omega
  · have hd : c.control.isDestroy = false := by
      by_contra hne
      exact hc (c.isDestroy_iff.mp (by simpa using hne))
    simp [destroys, hc', hd, hk.pending, hk.destroyed hc]

theorem step_destroys (c : TcpConnection T) (a : Act T) (c' : TcpConnection T) (h : c.Life)
    (ha : a ≠ .queueDestroyed) (hs : c.step a = some c') : c'.destroys = c.destroys := by
  cases step_stepped c a c' hs with
  | functor result | writing result | frame result => exact exec_destroys c _ result hs
  | pending f fs hcontrol hstack hactive hpending =>
    cases hf : f.isDestroy with
    | true =>
      simp [destroys, hcontrol, hpending, Control.isDestroy, hf]
      omega
    | false => simp [destroys, hcontrol, hpending, Control.isDestroy, hf]
  | sends r f hcontrol hstate hf =>
    simp [destroys, accept, hcontrol, Control.isDestroy, c.sendFunctor_isDestroy none r f hf]
  | post t f hposting => simp [destroys, queueInLoop, h.threads t f hposting]
  | queueDestroyed => exact absurd rfl ha
  | poll | handleEvent | userCode | refused | shutdowns | setHighWaterMark | userReturns
  | callRefused | calls | callShutdown | store => rfl

omit [DecidableEq T] in
theorem queueDestroyed_destroys (c : TcpConnection T) :
    (c.queueInLoop .connectDestroyed).destroys = c.destroys+1 := by
  simp [destroys, queueInLoop, Functor.isDestroy]
  omega

/-- The loop thread's next statement is the call of `closeCallback_`. -/
def firesClose (c : TcpConnection T) : Act T → Bool
  | .exec _ => c.control = .frames ∧ c.stack.head? = some .closeCallback
  | _ => false

end Steps
end TcpConnection
end MuServer
