import MuServer.ConnectionLife
import MuServer.EpollPollerRuns

/-!
# A connection leaves its server

`connectDestroyed` takes the interest away only where it finds `kConnected`; where
`handleClose` has run that is done already. A connection in between, half-closed
by `shutdown`, keeps its interest, and the assert of `removeChannel` fails.
-/

set_option autoImplicit false

namespace MuServer
open Lib.Machine

inductive LeaveAct (T : Type) where
  | conn (a : Act T)
  /-- `~TcpServer` on the loop thread, from the user's code: `runInLoop` makes the
  call at once -/
  | destroyServer
  deriving DecidableEq

structure Leaving (T : Type) where
  conn : TcpConnection T
  /-- calls of `connectionCallback_` in `handleClose` and `connectDestroyed` -/
  disconnects : ℕ := 0
  /-- `connectDestroyed` has just come to its end -/
  finished : Bool := false

namespace TcpConnection

variable {T : Type}

def atFrame (c : TcpConnection T) (frame : Frame) : Bool :=
  match c.control, c.stack with
  | .frames, f::_ => f = frame
  | _, _ => false

def disconnecting (c : TcpConnection T) : Act T → Bool
  | .exec _ => c.atFrame .handleClose || c.atFrame .destroyStore
  | _ => false

def removing (c : TcpConnection T) : Act T → Bool
  | .exec _ => c.atFrame .removeChannel
  | _ => false

/-- The interest is there to be taken, or one `handleClose` has taken it and
nothing has put `EPOLLOUT` back. -/
def removable (c : TcpConnection T) : Bool :=
  c.state_ = .kConnected ||
    (c.state_ = .kDisconnected && !c.channel_.isWriting && c.closes = 1)

end TcpConnection

namespace Leaving

variable {T : Type}

def start (fd owner : ℕ) : Leaving T := { conn := .start fd owner }

def settle (s : Leaving T) (a : Act T) (c : TcpConnection T) : Leaving T where
  conn := c
  disconnects := if s.conn.disconnecting a then s.disconnects+1 else s.disconnects
  finished := s.conn.removing a

/-- How `connectDestroyed` is to leave the connection; the channel's interest is
as it was when it was removed. -/
structure Left (s : Leaving T) : Prop where
  interest : s.conn.channel_.isNoneEvent = true
  asserts : s.conn.poller.failed = false
  map : s.conn.poller.channels_ s.conn.channel_.fd_ = none
  epoll : s.conn.poller.epoll s.conn.channel_.fd_ = none
  state : s.conn.state_ = .kDisconnected
  once : s.disconnects = 1

def Destroyed (s : Leaving T) : Prop := s.finished = true → s.Left

def firstRun (s : Leaving T) : LeaveAct T → Bool
  | .conn (.exec _) => !s.conn.control.isDestroy || s.conn.destroyed = 0
  | _ => true

/-- `connectDestroyed` finds the connection removable, and no `shutdown` of another
thread stores its state behind that. -/
def leaveGuard (s : Leaving T) : LeaveAct T → Bool
  | .conn (.exec _) => !s.conn.control.isDestroy || s.conn.removable
  | .conn (.store _) => .removeChannel ∉ s.conn.stack || s.conn.atFrame .destroyStore
  | _ => true

variable [DecidableEq T]

def step (s : Leaving T) : LeaveAct T → Option (Leaving T)
  | .conn a => (s.conn.step a).map (s.settle a)
  | .destroyServer =>
    if s.conn.inUser && s.conn.state_ ≠ .kConnecting then
      some { s with
        conn := { s.conn with control := .functor .connectDestroyed }
        finished := false }
    else none

end Leaving

namespace TcpConnection

variable {T : Type}

structure Registered (c : TcpConnection T) : Prop where
  inStep : c.removes = 0 → c.poller.InStep c.channel_
  sound : c.removes = 0 → c.poller.Sound
  index : c.removes = 0 → c.established ≠ 0 → c.channel_.index_ ≠ .kNew

theorem step_registered [DecidableEq T] (c : TcpConnection T) (a : Act T) (c' : TcpConnection T)
    (h : c.Registered) (hs : c.step a = some c') : c'.Registered := by
  cases step_touch c a c' hs with
  | same hp hc hr he =>
    refine ⟨?_, ?_, ?_⟩
    · rw [hp, hc, hr]
      exact h.inStep
    · rw [hp, hr]
      exact h.sound
    · rw [hc, hr, he]
      exact h.index
  | updated events hu hp hc hr =>
    obtain ⟨index, hne, hi⟩ := c.poller.updateChannel_channel { c.channel_ with events_ := events }
    have hupdate : c.removes = 0 → c'.poller.Sound ∧ c'.poller.InStep c'.channel_ := by
      intro hz
      have hl := (h.inStep hz).listed
      rw [hp, hc]
      exact c.poller.updateChannel_inStep { c.channel_ with events_ := events }
        ⟨hl.new, hl.held, hl.added, hl.absent⟩ (h.sound hz)
    refine ⟨fun hz => (hupdate (hr ▸ hz)).2, fun hz => (hupdate (hr ▸ hz)).1, fun _ _ => ?_⟩
    rw [hc, hi]
    exact hne
  | removed stack hcontrol hstack hstack' hp hc hr =>
    have hne : c'.removes ≠ 0 := by
      rw [hr]
      exact Nat.succ_ne_zero _
    exact ⟨fun hz => absurd hz hne, fun hz => absurd hz hne, fun hz => absurd hz hne⟩

theorem removed_left (c : TcpConnection T) (h : c.Registered) (hz : c.removes = 0)
    (he : c.established ≠ 0) (hnone : c.channel_.isNoneEvent = true) :
    c.removeChannel.poller.failed = false ∧
      c.removeChannel.poller.channels_ c.removeChannel.channel_.fd_ = none ∧
      c.removeChannel.poller.epoll c.removeChannel.channel_.fd_ = none := by
  obtain ⟨hsound, hstep⟩ := c.poller.removeChannel_inStep c.channel_ (h.inStep hz) (h.sound hz)
    (h.index hz he) hnone
  exact ⟨hsound.1, hstep.listed.new rfl, hstep.listed.absent (by simp [EpollPoller.removeChannel,
    Channel.setIndex])⟩

structure Living (c : TcpConnection T) (n : ℕ) : Prop where
  disconnects : n = c.closes
  connected : c.state_ = .kConnected → c.closes = 0
  frames : .destroyStore ∉ c.stack
  reading : c.closes ≠ 0 → c.channel_.events_.read = false

/-- A statement that closes nothing and takes up no interest in reading. -/
theorem living_same (c c' : TcpConnection T) (n : ℕ) (h : c.Living n)
    (hcloses : c'.closes = c.closes)
    (hstate : c'.state_ = .kConnected → c.state_ = .kConnected ∨ c.closes = 0)
    (hframes : .destroyStore ∈ c'.stack → .destroyStore ∈ c.stack)
    (hreading : c'.channel_.events_.read = true → c.channel_.events_.read = true ∨ c.closes = 0) :
    c'.Living n where
  disconnects := h.disconnects.trans hcloses.symm
  connected := by
    intro hs
    rw [hcloses]
    exact (hstate hs).elim h.connected id
  frames := fun hm => h.frames (hframes hm)
  reading := by
    intro hne
    rw [hcloses] at hne
    by_contra hr
    rcases hreading (Bool.eq_true_of_not_eq_false hr) with hread | hz
    · exact absurd ((h.reading hne).symm.trans hread) (by simp)
    · exact hne hz

theorem runFunctor_living (c : TcpConnection T) (n : ℕ) (h : c.Living n) (ha : c.Aged)
    (f : Functor T) (hcontrol : c.control = .functor f) (hf : f.isDestroy = false) :
    (c.runFunctor f).Living n := by
  cases f with
  | sendInLoop call data =>
    simp only [runFunctor, sendInLoop]
    split
    · exact living_same c _ n h rfl Or.inl id Or.inl
    · exact living_same c _ n h rfl Or.inl id Or.inl
  | sendFileInLoop | shutdownInLoop => exact living_same c _ n h rfl Or.inl id Or.inl
  | connectEstablished =>
    have hc : c.closes = 0 := by
      rcases ha with hy | hg
      · exact hy.closes
      · exact absurd hcontrol hg.control
    exact living_same c _ n h rfl (fun _ => Or.inr hc) (by simp [runFunctor, frames])
      (fun _ => Or.inr hc)
  | connectDestroyed => exact absurd hf (by simp [Functor.isDestroy])

theorem doWriting_living (c c' : TcpConnection T) (n : ℕ) (h : c.Living n) (result : SocketResult)
    (hs : c.doWriting result = some c') : c'.Living n := by
  cases doWriting_round c c' result hs with
  | empty | progress | nothing => exact living_same c _ n h rfl Or.inl id Or.inl
  | fails => exact living_same c _ n h rfl Or.inl (by simp [writeFails, frames, issue]) Or.inl
  | drains call ctx ctx' out m =>
    unfold drained
    split
    · refine living_same c _ n h rfl Or.inl id (fun hr => Or.inl ?_)
      have he := c.poller.updateChannel_events c.channel_.disableWriting
      change (c.poller.updateChannel c.channel_.disableWriting).2.events_.read = true at hr
      rwa [he] at hr
    · exact living_same c _ n h rfl Or.inl id Or.inl
  | blocks =>
    obtain ⟨triggered, stack, hb, hstack⟩ := blocked_frames c.issue
    rw [hb]
    refine living_same c _ n h rfl Or.inl ?_ Or.inl
    rcases hstack with rfl | rfl <;> simp [frames, issue]

theorem runFrame_living (c c' : TcpConnection T) (n : ℕ) (h : c.Living n) (stack : List Frame)
    (result : SocketResult) (frame : Frame) (hcontrol : c.control = .frames)
    (hstack : c.stack = frame::stack) (hs : c.runFrame stack result frame = some c') :
    c'.Living (if c.disconnecting (.exec result) then n+1 else n) := by
  have htail : .destroyStore ∈ stack → .destroyStore ∈ c.stack := by
    rw [hstack]
    exact List.mem_cons_of_mem _
  have hquiet : frame ≠ .handleClose → (if c.disconnecting (.exec result) then n+1 else n) = n := by
    intro hne
    have hdestroy : frame ≠ .destroyStore := by
      rintro rfl
      exact h.frames (by simp [hstack])
    simp [disconnecting, atFrame, hcontrol, hstack, hne, hdestroy]
  cases runFrame_framed c c' stack result frame hs with
  | handleRead =>
    rw [hquiet (by simp)]
    refine living_same c _ n h rfl Or.inl (fun hm => htail ?_) Or.inl
    refine (List.mem_cons.mp hm).resolve_left ?_
    unfold afterRead
    split <;> simp
  | handleClose =>
    have hcount : (if c.disconnecting (.exec result) then n+1 else n) = n+1 := by
      simp [disconnecting, atFrame, hcontrol, hstack]
    rw [hcount]
    constructor
    · change n+1 = c.closes+1
      rw [h.disconnects]
    · intro hconnected
      exact absurd hconnected (by simp [frames, handleClose, disableAll, updateChannel, setStates])
    · intro hm
      exact h.frames (htail (by simpa [frames] using hm))
    · intro _
      have he := c.poller.updateChannel_events c.channel_.disableAll
      change (c.poller.updateChannel c.channel_.disableAll).2.events_.read = false
      rw [he]
      rfl
  | enableWriting =>
    rw [hquiet (by simp)]
    refine living_same c _ n h rfl Or.inl htail (fun hr => Or.inl ?_)
    have he := c.poller.updateChannel_events c.channel_.enableWriting
    change (c.poller.updateChannel c.channel_.enableWriting).2.events_.read = true at hr
    rwa [he] at hr
  | shutdownStore =>
    rw [hquiet (by simp)]
    exact living_same c _ n h rfl (fun hc => absurd hc (by simp [setStates])) htail Or.inl
  | destroyStore => exact absurd (by simp [hstack]) h.frames
  | writes | writesNothing | handleError | closeCallback | writingAlready | removeChannel =>
    rw [hquiet (by simp)]
    exact living_same c _ n h rfl Or.inl htail Or.inl

theorem step_living [DecidableEq T] (c : TcpConnection T) (a : Act T) (c' : TcpConnection T) (n : ℕ)
    (h : c.Living n) (ha : c.Aged) (hd : ∀ f result, c.control = .functor f → a = .exec result →
      f.isDestroy = false) (hs : c.step a = some c') :
    c'.Living (if c.disconnecting a then n+1 else n) := by
  cases step_stepped c a c' hs with
  | functor result f hcontrol =>
    have hno : c.disconnecting (.exec result) = false := by
      simp [disconnecting, atFrame, hcontrol]
    rw [hno]
    exact runFunctor_living c n h ha f hcontrol (hd f result hcontrol rfl)
  | writing result _ hcontrol hw =>
    have hno : c.disconnecting (.exec result) = false := by
      simp [disconnecting, atFrame, hcontrol]
    rw [hno]
    exact doWriting_living c c' n h result hw
  | frame result frame stack _ hcontrol hstack hr =>
    exact runFrame_living c c' n h stack result frame hcontrol hstack hr
  | handleEvent revents hcontrol hstack =>
    exact living_same c _ n h rfl Or.inl (by simp [Revents.handlers]) Or.inl
  | userCode => exact living_same c _ n h rfl Or.inl (by simp) Or.inl
  | shutdowns => exact living_same c _ n h rfl Or.inl (by simp) Or.inl
  | userReturns stack hcontrol hstack =>
    exact living_same c _ n h rfl Or.inl (by
      rw [hstack]
      exact List.mem_cons_of_mem _) Or.inl
  | store =>
    exact living_same c _ n h rfl (fun hc => absurd hc (by simp [store, setStates])) id Or.inl
  | poll | pending | refused | sends | setHighWaterMark | callRefused | calls | callShutdown | post
  | queueDestroyed => exact living_same c _ n h rfl Or.inl id Or.inl

structure Quit (c : TcpConnection T) (n : ℕ) : Prop where
  state : c.state_ = .kDisconnected
  interest : c.channel_.isNoneEvent = true
  once : n = 1

inductive Ending (c : TcpConnection T) (n : ℕ) : Prop
  | storing (below : List Frame) (hcontrol : c.control = .frames)
      (hstack : c.stack = .destroyStore::.removeChannel::below) (hnone : n = 0)
  | calling (below : List Frame)
      (hcontrol : c.control = .frames ∨ c.control = .functor .connectDestroyed)
      (hstack : c.stack = .user::.removeChannel::below) (hquit : c.Quit n)
  | removing (below : List Frame) (hcontrol : c.control = .frames)
      (hstack : c.stack = .removeChannel::below) (hquit : c.Quit n)

theorem ending_same (c c' : TcpConnection T) (n : ℕ) (h : c.Ending n)
    (hcontrol : c'.control = c.control) (hstack : c'.stack = c.stack)
    (hstate : c'.state_ = c.state_) (hchannel : c'.channel_ = c.channel_) : c'.Ending n := by
  have hquit : c.Quit n → c'.Quit n := by
    intro hq
    refine ⟨hstate.trans hq.state, ?_, hq.once⟩
    rw [hchannel]
    exact hq.interest
  cases h with
  | storing below hc hs hnone => exact .storing below (hcontrol.trans hc) (hstack.trans hs) hnone
  | calling below hc hs hq =>
    refine .calling below ?_ (hstack.trans hs) (hquit hq)
    rw [hcontrol]
    exact hc
  | removing below hc hs hq =>
    exact .removing below (hcontrol.trans hc) (hstack.trans hs) (hquit hq)

theorem destroy_ending (c : TcpConnection T) (n : ℕ) (h : c.Living n) (hr : c.removable = true) :
    (c.runFunctor .connectDestroyed).Ending n := by
  simp only [removable, Bool.or_eq_true, Bool.and_eq_true, decide_eq_true_eq,
    Bool.not_eq_true'] at hr
  rcases hr with hstate | ⟨⟨hstate, hwriting⟩, hcloses⟩
  · refine .storing c.stack rfl ?_ (h.disconnects.trans (h.connected hstate))
    simp [runFunctor, connectDestroyed, hstate, frames]
  · refine .removing c.stack rfl ?_ ⟨hstate, ?_, h.disconnects.trans hcloses⟩
    · simp [runFunctor, connectDestroyed, hstate, frames]
    · have hread := h.reading (by omega)
      have hnone : c.channel_.events_ = kNoneEvent := by
        cases he : c.channel_.events_ with
        | mk read write =>
          simp only [Channel.isWriting, he] at hwriting hread
          rw [hwriting, hread]
          rfl
      exact decide_eq_true hnone

theorem runFrame_ending (c c' : TcpConnection T) (n : ℕ) (h : c.Ending n) (stack : List Frame)
    (result : SocketResult) (frame : Frame) (hcontrol : c.control = .frames)
    (hstack : c.stack = frame::stack) (hs : c.runFrame stack result frame = some c') :
    c'.Ending (if c.disconnecting (.exec result) then n+1 else n) ∨ c'.removes ≠ 0 := by
  cases h with
  | storing below _ hstack' hnone =>
    obtain ⟨rfl, rfl⟩ := List.cons.inj (hstack.symm.trans hstack')
    obtain rfl := Option.some.inj hs
    have hcount : c.disconnecting (.exec result) = true := by
      simp [disconnecting, atFrame, hcontrol, hstack]
    have he := c.poller.updateChannel_events c.channel_.disableAll
    refine Or.inl (.calling below (Or.inl rfl) rfl ⟨rfl, decide_eq_true he, ?_⟩)
    rw [hcount, hnone]
    rfl
  | calling below _ hstack' =>
    obtain ⟨rfl, -⟩ := List.cons.inj (hstack.symm.trans hstack')
    exact absurd hs (by simp [runFrame])
  | removing below _ hstack' =>
    obtain ⟨rfl, -⟩ := List.cons.inj (hstack.symm.trans hstack')
    obtain rfl := Option.some.inj hs
    exact Or.inr (Nat.succ_ne_zero _)

theorem step_ending [DecidableEq T] (c : TcpConnection T) (a : Act T) (c' : TcpConnection T) (n : ℕ)
    (h : c.Ending n) (hstore : ∀ t, a = .store t → c.atFrame .destroyStore = true)
    (hdestroy : ∀ result, a = .exec result → c.control ≠ .functor .connectDestroyed)
    (hs : c.step a = some c') :
    c'.Ending (if c.disconnecting a then n+1 else n) ∨ c'.removes ≠ 0 := by
  have hbusy : c.stack ≠ [] := by
    cases h with
    | storing _ _ hstack | calling _ _ hstack | removing _ _ hstack => simp [hstack]
  have hcontrols : c.control = .frames ∨ c.control = .functor .connectDestroyed := by
    cases h with
    | storing _ hcontrol | removing _ hcontrol => exact Or.inl hcontrol
    | calling _ hcontrol => exact hcontrol
  -- behind its test `connectDestroyed` runs user code only on a disconnected connection
  have huser : ∀ r, a = .request r → c.state_ ≠ .kConnected := by
    rintro r rfl hstate
    obtain ⟨hin, -⟩ := Option.ite_none_right_eq_some.mp hs
    obtain ⟨-, stack, hstack⟩ := c.inUser_iff.mp hin
    cases h with
    | storing _ _ hstack' => exact absurd (hstack.symm.trans hstack') (by simp)
    | calling _ _ _ hquit => exact absurd (hquit.state.symm.trans hstate) (by simp)
    | removing _ _ _ hquit => exact absurd (hquit.state.symm.trans hstate) (by simp)
  cases step_stepped c a c' hs with
  | functor result f hcontrol =>
    rcases hcontrols with hc | hc
    · exact absurd (hc.symm.trans hcontrol) (by simp)
    · exact absurd hc (hdestroy result rfl)
  | writing result _ hcontrol =>
    rcases hcontrols with hc | hc
    · exact absurd (hc.symm.trans hcontrol) (by simp)
    · exact absurd (hc.symm.trans hcontrol) (by simp)
  | frame result frame stack _ hcontrol hstack hr =>
    exact runFrame_ending c c' n h stack result frame hcontrol hstack hr
  | poll _ _ hstack | handleEvent _ _ hstack | pending _ _ _ hstack | userCode _ hstack =>
    exact absurd hstack hbusy
  | sends r _ _ hstate => exact absurd hstate (huser r rfl)
  | shutdowns _ hstate => exact absurd hstate (huser .shutdown rfl)
  | userReturns stack hcontrol hstack =>
    cases h with
    | storing _ _ hstack' => exact absurd (hstack.symm.trans hstack') (by simp)
    | calling below _ hstack' hquit =>
      obtain ⟨-, rfl⟩ := List.cons.inj (hstack.symm.trans hstack')
      exact Or.inl (.removing below hcontrol rfl ⟨hquit.state, hquit.interest, hquit.once⟩)
    | removing _ _ hstack' => exact absurd (hstack.symm.trans hstack') (by simp)
  | store t hstoring =>
    have hframe := hstore t rfl
    cases h with
    | storing below hcontrol hstack hnone => exact Or.inl (.storing below hcontrol hstack hnone)
    | calling below _ hstack =>
      unfold atFrame at hframe
      rcases hcontrols with hc | hc <;> simp [hc, hstack] at hframe
    | removing below _ hstack =>
      unfold atFrame at hframe
      rcases hcontrols with hc | hc <;> simp [hc, hstack] at hframe
  | refused | setHighWaterMark | callRefused | calls | callShutdown | post | queueDestroyed =>
    exact Or.inl (ending_same c _ n h rfl rfl rfl rfl)

theorem atFrame_iff (c : TcpConnection T) (frame : Frame) :
    c.atFrame frame = true ↔ c.control = .frames ∧ ∃ stack, c.stack = frame::stack := by
  unfold atFrame
  split
  · rename_i f stack hcontrol hstack
    simp [hcontrol, hstack]
  · rename_i hnot
    constructor
    · intro hf
      exact absurd hf (by simp)
    · rintro ⟨hcontrol, stack, hstack⟩
      exact (hnot frame stack hcontrol hstack).elim

theorem step_destroyed [DecidableEq T] (c : TcpConnection T) (a : Act T) (c' : TcpConnection T)
    (hno : ∀ result, a = .exec result → c.control ≠ .functor .connectDestroyed)
    (hs : c.step a = some c') : c'.destroyed = c.destroyed := by
  cases step_stepped c a c' hs with
  | functor result | writing result | frame result =>
    exact (exec_kept c _ result hs).destroyed (hno result rfl)
  | poll | handleEvent | pending | userCode | refused | sends | shutdowns | setHighWaterMark
  | userReturns | callRefused | calls | callShutdown | store | post | queueDestroyed => rfl

theorem step_removes [DecidableEq T] (c : TcpConnection T) (a : Act T) (c' : TcpConnection T)
    (hs : c.step a = some c') : c.removes ≤ c'.removes := by
  cases step_touch c a c' hs with
  | same _ _ hr => exact hr.ge
  | updated _ _ _ _ hr => exact hr.ge
  | removed _ _ _ _ _ _ hr =>
    rw [hr]
    exact Nat.le_succ _

end TcpConnection

namespace Leaving

variable {T : Type}

structure Sound (s : Leaving T) : Prop where
  aged : s.conn.Aged
  ledger : s.conn.LedgerSound
  registered : s.conn.Registered
  first : s.conn.destroyed ≤ 1
  living : s.conn.destroyed = 0 → s.conn.Living s.disconnects
  ending : s.conn.destroyed = 1 → s.conn.removes = 0 → s.conn.Ending s.disconnects
  destroyed : s.Destroyed

theorem start_sound (fd owner : ℕ) : (start (T := T) fd owner).Sound where
  aged := Or.inl (TcpConnection.start_young fd owner)
  ledger := TcpConnection.start_ledger fd owner
  registered := by
    refine ⟨fun _ => ⟨⟨?_, ?_, ?_, ?_⟩, ?_, ?_⟩, fun _ => ⟨rfl, rfl⟩, fun _ he => absurd rfl he⟩ <;>
      simp [start, TcpConnection.start]
  first := Nat.zero_le 1
  living := fun _ => ⟨rfl, fun _ => rfl, by simp [start, TcpConnection.start], fun _ => rfl⟩
  ending := fun hd => absurd hd (by simp [start, TcpConnection.start])
  destroyed := fun hf => absurd hf (by simp [start])

theorem removing_left (s : Leaving T) (h : s.Sound) (result : SocketResult) (c : TcpConnection T)
    (hremoving : s.conn.removing (.exec result) = true)
    (hs : s.conn.exec result = some c) : (s.settle (.exec result) c).Left := by
  obtain ⟨hcontrol, stack, hstack⟩ := (s.conn.atFrame_iff .removeChannel).mp hremoving
  simp only [TcpConnection.exec, hcontrol, hstack] at hs
  obtain rfl := Option.some.inj hs
  have hl := h.ledger.removing
  rw [hstack, List.count_cons_self] at hl
  have hfirst := h.first
  have hone : s.conn.destroyed = 1 := by omega
  have hzero : s.conn.removes = 0 := by omega
  have hestablished : s.conn.established ≠ 0 := by
    rcases h.aged with hy | hg
    · have hy' := hy.destroyed
      omega
    · have hg' := hg.established
      omega
  have hquit : s.conn.Quit s.disconnects := by
    cases h.ending hone hzero with
    | storing _ _ hstack' => exact absurd (hstack.symm.trans hstack') (by simp)
    | calling _ _ hstack' => exact absurd (hstack.symm.trans hstack') (by simp)
    | removing _ _ _ hquit => exact hquit
  obtain ⟨hfailed, hmap, hepoll⟩ :=
    s.conn.removed_left h.registered hzero hestablished hquit.interest
  have hcount : s.conn.disconnecting (.exec result) = false := by
    simp [TcpConnection.disconnecting, TcpConnection.atFrame, hcontrol, hstack]
  refine ⟨hquit.interest, hfailed, hmap, hepoll, hquit.state, ?_⟩
  change (if s.conn.disconnecting (.exec result) then s.disconnects+1 else s.disconnects) = 1
  rw [hcount]
  exact hquit.once

theorem destroy_sound (s : Leaving T) (h : s.Sound) (result : SocketResult)
    (hcontrol : s.conn.control = .functor .connectDestroyed) (hfirst : s.conn.destroyed = 0)
    (hr : s.conn.removable = true) (haged : (s.conn.runFunctor .connectDestroyed).Aged)
    (hledger : (s.conn.runFunctor .connectDestroyed).LedgerSound)
    (hregistered : (s.conn.runFunctor .connectDestroyed).Registered) :
    (s.settle (.exec result) (s.conn.runFunctor .connectDestroyed)).Sound := by
  have hcount : s.conn.disconnecting (.exec result) = false := by
    simp [TcpConnection.disconnecting, TcpConnection.atFrame, hcontrol]
  have hremoving : s.conn.removing (.exec result) = false := by
    simp [TcpConnection.removing, TcpConnection.atFrame, hcontrol]
  have hone : (s.conn.runFunctor .connectDestroyed).destroyed = 1 := by
    change s.conn.destroyed+1 = 1
    rw [hfirst]
  refine ⟨haged, hledger, hregistered, hone.le, fun hz => ?_, fun _ _ => ?_, fun hf => ?_⟩
  · exact absurd (hone.symm.trans hz) (by simp)
  · change (s.conn.runFunctor .connectDestroyed).Ending
      (if s.conn.disconnecting (.exec result) then s.disconnects+1 else s.disconnects)
    rw [hcount]
    exact s.conn.destroy_ending s.disconnects (h.living hfirst) hr
  · exact absurd (hremoving.symm.trans hf) (by simp)

variable [DecidableEq T]

theorem conn_sound (s : Leaving T) (a : Act T) (c : TcpConnection T) (h : s.Sound)
    (hfirst : s.firstRun (.conn a) = true) (hguard : s.leaveGuard (.conn a) = true)
    (hs : s.conn.step a = some c) : (s.settle a c).Sound := by
  have haged := TcpConnection.step_aged s.conn a c h.aged hs
  have hledger := TcpConnection.step_ledger s.conn a c h.ledger hs
  have hregistered := TcpConnection.step_registered s.conn a c h.registered hs
  by_cases hd : ∃ result, a = .exec result ∧ s.conn.control = .functor .connectDestroyed
  · obtain ⟨result, rfl, hcontrol⟩ := hd
    have hdestroy := s.conn.isDestroy_iff.mpr hcontrol
    have hz : s.conn.destroyed = 0 := by simpa [firstRun, hdestroy] using hfirst
    have hr : s.conn.removable = true := by simpa [leaveGuard, hdestroy] using hguard
    simp only [TcpConnection.step, TcpConnection.exec, hcontrol] at hs
    obtain rfl := Option.some.inj hs
    exact s.destroy_sound h result hcontrol hz hr haged hledger hregistered
  · have hno : ∀ result, a = .exec result → s.conn.control ≠ .functor .connectDestroyed :=
      fun result ha hcontrol => hd ⟨result, ha, hcontrol⟩
    have hcount := TcpConnection.step_destroyed s.conn a c hno hs
    have hremoves := TcpConnection.step_removes s.conn a c hs
    refine ⟨haged, hledger, hregistered, hcount.le.trans h.first, fun hz => ?_, fun hone hz => ?_,
      fun hf => ?_⟩
    · have hz' : c.destroyed = 0 := hz
      refine TcpConnection.step_living s.conn a c s.disconnects (h.living (by omega)) h.aged ?_ hs
      intro f result hcontrol ha
      by_contra hf
      have hdestroy : s.conn.control.isDestroy = true := by
        rw [hcontrol]
        exact Bool.eq_true_of_not_eq_false hf
      exact hno result ha (s.conn.isDestroy_iff.mp hdestroy)
    · have hone' : c.destroyed = 1 := hone
      have hz' : c.removes = 0 := hz
      have hending := h.ending (by omega) (by omega)
      have hstore : ∀ t, a = .store t → s.conn.atFrame .destroyStore = true := by
        rintro t rfl
        have hmem : .removeChannel ∈ s.conn.stack := by
          cases hending with
          | storing _ _ hstack | calling _ _ hstack | removing _ _ hstack => simp [hstack]
        simpa [leaveGuard, hmem] using hguard
      exact (TcpConnection.step_ending s.conn a c s.disconnects hending hstore hno hs).resolve_right
        (fun hne => hne hz')
    · have hremoving : s.conn.removing a = true := hf
      cases a with
      | exec result => exact s.removing_left h result c hremoving hs
      | _ => exact absurd hremoving (by simp [TcpConnection.removing])

theorem destroyServer_sound (s : Leaving T) (h : s.Sound) (hin : s.conn.inUser = true)
    (hstate : s.conn.state_ ≠ .kConnecting) :
    Sound { s with
      conn := { s.conn with control := .functor .connectDestroyed }, finished := false } := by
  obtain ⟨hcontrol, stack, hstack⟩ := s.conn.inUser_iff.mp hin
  have hgrown : s.conn.Grown := h.aged.resolve_left (fun hy => hstate hy.state)
  refine ⟨Or.inr ⟨hgrown.established, hgrown.pending, by simp, hgrown.threads⟩, h.ledger,
    ⟨h.registered.inStep, h.registered.sound, h.registered.index⟩, h.first, fun hz => ?_,
    fun hone hz => ?_, fun hf => absurd hf (by simp)⟩
  · have hl := h.living hz
    exact ⟨hl.disconnects, hl.connected, hl.frames, hl.reading⟩
  · cases h.ending hone hz with
    | storing _ _ hstack' => exact absurd (hstack.symm.trans hstack') (by simp)
    | calling below _ hstack' hquit =>
      exact .calling below (Or.inr rfl) hstack' ⟨hquit.state, hquit.interest, hquit.once⟩
    | removing _ _ hstack' => exact absurd (hstack.symm.trans hstack') (by simp)

theorem step_sound (s : Leaving T) (a : LeaveAct T) (t : Leaving T) (h : s.Sound)
    (hfirst : s.firstRun a = true) (hguard : s.leaveGuard a = true) (hs : s.step a = some t) :
    t.Sound := by
  cases a with
  | conn a =>
    obtain ⟨c, hc, rfl⟩ := Option.map_eq_some_iff.mp hs
    exact s.conn_sound a c h hfirst hguard hc
  | destroyServer =>
    obtain ⟨hin, ht⟩ := Option.ite_none_right_eq_some.mp hs
    obtain rfl := Option.some.inj ht
    simp only [Bool.and_eq_true, decide_eq_true_eq] at hin
    exact s.destroyServer_sound h hin.1 hin.2

/-- The removal of a channel by a `connectDestroyed` that must fail. -/
theorem removal_fails (s : Leaving T) (stack : List Frame) (hcontrol : s.conn.control = .frames)
    (hstack : s.conn.stack = .removeChannel::stack)
    (hbad : s.conn.state_ = .kDisconnected → s.conn.channel_.isNoneEvent = true →
      s.disconnects ≠ 1) : ∃ t, s.step (.conn (.exec .again)) = some t ∧ ¬ t.Destroyed := by
  have hframe : s.conn.atFrame .removeChannel = true :=
    (s.conn.atFrame_iff _).mpr ⟨hcontrol, stack, hstack⟩
  have hcount : s.conn.disconnecting (.exec .again) = false := by
    simp [TcpConnection.disconnecting, TcpConnection.atFrame, hcontrol, hstack]
  refine ⟨s.settle (.exec .again) (s.conn.removeChannel.frames stack), ?_, fun hd => ?_⟩
  · simp only [step, TcpConnection.step, TcpConnection.exec, hcontrol, hstack]
    rfl
  · have hleft := hd hframe
    have honce := hleft.once
    change (if s.conn.disconnecting (.exec .again) then s.disconnects+1 else s.disconnects) = 1
      at honce
    rw [hcount] at honce
    exact hbad hleft.state hleft.interest honce

theorem destroy_fails (s : Leaving T) (h : s.Sound) (result : SocketResult)
    (hcontrol : s.conn.control = .functor .connectDestroyed) (hzero : s.conn.destroyed = 0)
    (hr : s.conn.removable = false) :
    ∃ t, (s.settle (.exec result) (s.conn.runFunctor .connectDestroyed)).step
      (.conn (.exec .again)) = some t ∧ ¬ t.Destroyed := by
  have hl := h.living hzero
  have hcount : s.conn.disconnecting (.exec result) = false := by
    simp [TcpConnection.disconnecting, TcpConnection.atFrame, hcontrol]
  simp only [TcpConnection.removable, Bool.or_eq_false_iff, decide_eq_false_iff_not] at hr
  obtain ⟨hconnected, hclosed⟩ := hr
  apply removal_fails _ s.conn.stack rfl
  · change s.conn.connectDestroyed ++ s.conn.stack = .removeChannel::s.conn.stack
    rw [TcpConnection.connectDestroyed, if_neg hconnected]
    rfl
  · intro hstate hnone
    change (if s.conn.disconnecting (.exec result) then s.disconnects+1 else s.disconnects) ≠ 1
    rw [hcount]
    intro honce
    have hstate' : s.conn.state_ = .kDisconnected := hstate
    have hevents : s.conn.channel_.events_ = kNoneEvent := of_decide_eq_true hnone
    have hcloses : s.conn.closes = 1 := hl.disconnects.symm.trans honce
    simp [hstate', Channel.isWriting, hevents, kNoneEvent, hcloses] at hclosed

theorem return_fails (s : Leaving T) (below : List Frame) (hcontrol : s.conn.control = .frames)
    (hstack : s.conn.stack = .user::.removeChannel::below)
    (hstate : s.conn.state_ ≠ .kDisconnected) :
    ∃ as t, run step s as = some t ∧ ¬ t.Destroyed := by
  have hin : s.conn.inUser = true := (s.conn.inUser_iff).mpr ⟨hcontrol, _, hstack⟩
  have htail : s.conn.stack.tail = .removeChannel::below := by rw [hstack, List.tail_cons]
  have hreturns : s.step (.conn .userReturns) =
      some (s.settle .userReturns { s.conn with stack := s.conn.stack.tail }) := by
    rw [step, TcpConnection.step, if_pos hin]
    rfl
  obtain ⟨t, ht, hfails⟩ := removal_fails
    (s.settle .userReturns { s.conn with stack := s.conn.stack.tail }) below hcontrol htail
    (fun hd => absurd hd hstate)
  refine ⟨[.conn .userReturns, .conn (.exec .again)], t, ?_, hfails⟩
  rw [run, hreturns, Option.bind_some, run, ht]
  rfl

/-- Half-closed, a `connectDestroyed` goes to the removal at once. -/
theorem call_fails (s : Leaving T) (hcontrol : s.conn.control = .functor .connectDestroyed)
    (hstate : s.conn.state_ = .kDisconnecting) :
    ∃ as t, run step s as = some t ∧ ¬ t.Destroyed := by
  have hcalls : s.step (.conn (.exec .again)) =
      some (s.settle (.exec .again) (s.conn.runFunctor .connectDestroyed)) := by
    simp only [step, TcpConnection.step, TcpConnection.exec, hcontrol]
    rfl
  have hstack : (s.conn.runFunctor .connectDestroyed).stack = .removeChannel::s.conn.stack := by
    change s.conn.connectDestroyed ++ s.conn.stack = _
    rw [TcpConnection.connectDestroyed, hstate]
    rfl
  obtain ⟨t, ht, hfails⟩ := removal_fails
    (s.settle (.exec .again) (s.conn.runFunctor .connectDestroyed)) s.conn.stack rfl hstack
    (fun hd => absurd (hstate.symm.trans hd) (by simp))
  refine ⟨[.conn (.exec .again), .conn (.exec .again)], t, ?_, hfails⟩
  rw [run, hcalls, Option.bind_some, run, ht]
  rfl

theorem store_fails (s : Leaving T) (h : s.Sound) (t : T) (hmem : .removeChannel ∈ s.conn.stack)
    (hframe : s.conn.atFrame .destroyStore = false) :
    ∃ as u, run step (s.settle (.store t) (s.conn.store t)) as = some u ∧ ¬ u.Destroyed := by
  have hl := h.ledger.removing
  have hcount := List.count_pos_iff.mpr hmem
  have hfirst := h.first
  have hstate : (s.conn.store t).state_ ≠ .kDisconnected := by
    simp [TcpConnection.store, TcpConnection.setStates]
  cases h.ending (by omega) (by omega) with
  | storing below hcontrol hstack =>
    have hat := (s.conn.atFrame_iff .destroyStore).mpr ⟨hcontrol, _, hstack⟩
    exact absurd (hframe.symm.trans hat) (by simp)
  | calling below hcontrol hstack =>
    rcases hcontrol with hcontrol | hcontrol
    · exact return_fails _ below hcontrol hstack hstate
    · exact call_fails _ hcontrol rfl
  | removing below hcontrol hstack =>
    obtain ⟨u, hu, hfails⟩ := removal_fails (s.settle (.store t) (s.conn.store t)) below hcontrol
      hstack (fun hd => absurd hd hstate)
    refine ⟨[.conn (.exec .again)], u, ?_, hfails⟩
    rw [run, hu]
    rfl

theorem guard_exact (s : Leaving T) (h : s.Sound) (a : LeaveAct T) (t : Leaving T)
    (hfirst : s.firstRun a = true) (hguard : s.leaveGuard a = false) (hs : s.step a = some t) :
    ∃ as u, run step t as = some u ∧ ¬ u.Destroyed := by
  cases a with
  | destroyServer => exact absurd hguard (by simp [leaveGuard])
  | conn a =>
    obtain ⟨c, hc, rfl⟩ := Option.map_eq_some_iff.mp hs
    cases a with
    | exec result =>
      simp only [leaveGuard, Bool.or_eq_false_iff, Bool.not_eq_false'] at hguard
      have hcontrol := s.conn.isDestroy_iff.mp hguard.1
      have hzero : s.conn.destroyed = 0 := by simpa [firstRun, hguard.1] using hfirst
      simp only [TcpConnection.step, TcpConnection.exec, hcontrol] at hc
      obtain rfl := Option.some.inj hc
      obtain ⟨u, hu, hfails⟩ := s.destroy_fails h result hcontrol hzero hguard.2
      refine ⟨[.conn (.exec .again)], u, ?_, hfails⟩
      rw [run, hu]
      rfl
    | store t =>
      simp only [leaveGuard, Bool.or_eq_false_iff, decide_eq_false_iff_not, not_not] at hguard
      obtain ⟨-, hc'⟩ := Option.ite_none_right_eq_some.mp hc
      obtain rfl := Option.some.inj hc'
      exact s.store_fails h t hguard.1 hguard.2
    | _ => exact absurd hguard (by simp [leaveGuard])

/-- In a run whose steps meet the guard every `connectDestroyed` ends as it should;
a next step against it leads to one that does not. -/
theorem reach_destroyed (fd owner : ℕ) (s : Leaving T)
    (h : Reach step (fun s a => (s.firstRun a && s.leaveGuard a) = true) (start fd owner) s) :
    s.Destroyed ∧ ∀ a t, s.firstRun a = true → s.leaveGuard a = false → s.step a = some t →
      ∃ as u, run step t as = some u ∧ ¬ u.Destroyed := by
  have hsound : s.Sound := by
    refine reach_invariant _ _ _ Sound (start_sound fd owner) ?_ s h
    intro s a t hs hok ht
    simp only [Bool.and_eq_true] at hok
    exact step_sound s a t hs hok.1 hok.2 ht
  exact ⟨hsound.destroyed, guard_exact s hsound⟩

def serverGoes : List (LeaveAct ℕ) :=
  [.conn .doPendingFunctor, .conn (.exec .again), .conn (.request (.send [1, 2])),
    .conn (.exec .again), .conn (.exec .again), .conn (.exec .again), .destroyServer,
    .conn (.exec .again), .conn (.exec .again), .conn .userReturns, .conn (.exec .again)]

theorem reach_destroyed_serverGoes :
    ∃ s, run step (start (T := ℕ) 5 0) serverGoes = some s ∧ s.finished = true ∧
      s.conn.contextQueue_ ≠ [] ∧ s.Left := by
  obtain ⟨s, hs⟩ : ∃ s, run step (start (T := ℕ) 5 0) serverGoes = some s := ⟨_, rfl⟩
  have hreach := run_reach step (fun s a => s.firstRun a && s.leaveGuard a) (start 5 0) s
    serverGoes hs rfl
  have hdestroyed := (reach_destroyed 5 0 s hreach).1
  have hfinished : s.finished = true := by
    obtain rfl := Option.some.inj hs
    rfl
  have hqueue : s.conn.contextQueue_ ≠ [] := by
    obtain rfl := Option.some.inj hs
    exact List.cons_ne_nil _ _
  exact ⟨s, hs, hfinished, hqueue, hdestroyed hfinished⟩

def halfClosed : List (LeaveAct ℕ) :=
  [.conn .doPendingFunctor, .conn (.exec .again), .conn (.request .shutdown),
    .conn (.exec .again), .conn (.exec .again), .conn .userReturns, .conn .queueDestroyed,
    .conn .doPendingFunctor, .conn (.exec .again), .conn (.exec .again)]

theorem halfClosed_fails :
    ¬ ∀ s, Reach step (fun s a => s.firstRun a = true) (start (T := ℕ) 5 0) s → s.Destroyed := by
  intro hall
  obtain ⟨s, hs⟩ : ∃ s, run step (start (T := ℕ) 5 0) halfClosed = some s := ⟨_, rfl⟩
  have hreach := run_reach step firstRun (start 5 0) s halfClosed hs rfl
  have hdestroyed := hall s hreach
  obtain rfl := Option.some.inj hs
  exact absurd (hdestroyed rfl).asserts (by decide)

end Leaving
end MuServer
