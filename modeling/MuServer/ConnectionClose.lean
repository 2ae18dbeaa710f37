import MuServer.ConnectionFrames
import MuServer.ConnectionStart

/-!
# A closed connection

`closeGuard` is what a step must meet for the close to be final: the four places
that can go on with a closed connection are `sendFileInLoop`, the store in
`shutdown`, the test behind the high-water callback and `handleClose` itself.
-/

set_option autoImplicit false

namespace MuServer
open Lib.Machine

variable {T : Type}

namespace TcpConnection

def undoes (c : TcpConnection T) : Bool :=
  match c.control, c.stack with
  | .functor (.sendFileInLoop _ _), _ => true
  | .frames, .handleClose::_ => true
  | .frames, .shutdownStore::_ => true
  | .frames, .enableWriting::_ => !c.channel_.isWriting
  | _, _ => false

def closeGuard (c : TcpConnection T) (a : Act T) : Bool :=
  c.closes = 0 ||
    match a with
    | .exec _ => !c.undoes
    | .store _ => false
    | _ => true

structure CloseSound (c : TcpConnection T) : Prop where
  closes_le : c.closes ≤ 1
  writes : c.writesAfterClose = 0
  enables : c.enablesAfterClose = 0
  state : c.closes ≠ 0 → c.state_ = .kDisconnected
  events : c.closes ≠ 0 → c.channel_.events_ = kNoneEvent
  control : c.closes ≠ 0 → c.control ≠ .doWriting

structure Open (c : TcpConnection T) : Prop where
  closes : c.closes = 0
  writes : c.writesAfterClose = 0
  enables : c.enablesAfterClose = 0

theorem open_sound (c : TcpConnection T) (h : c.Open) : c.CloseSound where
  closes_le := by
    rw [h.closes]
    exact Nat.zero_le 1
  writes := h.writes
  enables := h.enables
  state := fun hc => absurd h.closes hc
  events := fun hc => absurd h.closes hc
  control := fun hc => absurd h.closes hc

theorem sound_open (c : TcpConnection T) (h : c.CloseSound) (hc : c.closes = 0) : c.Open :=
  ⟨hc, h.writes, h.enables⟩

theorem afterClose_open (c : TcpConnection T) (h : c.Open) (n : ℕ) : c.afterClose n = n :=
  if_pos h.closes

theorem enableReading_open (c : TcpConnection T) (h : c.Open) : c.enableReading.Open :=
  ⟨h.closes, h.writes, (c.afterClose_open h _).trans h.enables⟩

theorem enableWriting_open (c : TcpConnection T) (h : c.Open) : c.enableWriting.Open :=
  ⟨h.closes, h.writes, (c.afterClose_open h _).trans h.enables⟩

theorem doWriting_open (c c' : TcpConnection T) (h : c.Open) (result : SocketResult)
    (hs : c.doWriting result = some c') : c'.Open := by
  have hi : c.issue.Open := ⟨h.closes, (c.afterClose_open h _).trans h.writes, h.enables⟩
  cases doWriting_round c c' result hs with
  | empty => exact ⟨h.closes, h.writes, h.enables⟩
  | progress | nothing | fails => exact ⟨hi.closes, hi.writes, hi.enables⟩
  | drains call ctx ctx' out =>
    obtain ⟨poller, channel, hd⟩ := drained_channel (c.issue.took call ctx' [] out)
    rw [hd]
    exact ⟨hi.closes, hi.writes, hi.enables⟩
  | blocks =>
    obtain ⟨triggered, stack, hb, -⟩ := blocked_frames c.issue
    rw [hb]
    exact ⟨hi.closes, hi.writes, hi.enables⟩

theorem frames_sound (c : TcpConnection T) (h : c.CloseSound) (stack : List Frame) :
    (c.frames stack).CloseSound :=
  ⟨h.closes_le, h.writes, h.enables, h.state, h.events, fun _ => by simp [frames]⟩

theorem disableAll_events (c : TcpConnection T) : c.disableAll.channel_.events_ = kNoneEvent :=
  c.poller.updateChannel_events _

theorem runFunctor_close (c : TcpConnection T) (h : c.CloseSound) (ha : c.Aged) (f : Functor T)
    (hcontrol : c.control = .functor f) (hg : c.closes = 0 ∨ c.undoes = false) :
    (c.runFunctor f).CloseSound := by
  cases f with
  | sendInLoop call data =>
    simp only [runFunctor, sendInLoop]
    split
    · exact frames_sound c h _
    · rename_i hstate
      have hc : c.closes = 0 := by
        by_contra hne
        exact hstate (h.state hne)
      exact open_sound _ ⟨hc, h.writes, h.enables⟩
  | sendFileInLoop call file =>
    have hc : c.closes = 0 := by
      rcases hg with hc | hu
      · exact hc
      · simp [undoes, hcontrol] at hu
    exact open_sound _ ⟨hc, h.writes, h.enables⟩
  | shutdownInLoop | connectDestroyed =>
    exact ⟨h.closes_le, h.writes, h.enables, h.state, h.events,
      fun _ => by simp [runFunctor, frames]⟩
  | connectEstablished =>
    have hc : c.closes = 0 := by
      rcases ha with hy | hgr
      · exact hy.closes
      · exact absurd hcontrol hgr.control
    have he := enableReading_open (c.setStates .kConnected) ⟨hc, h.writes, h.enables⟩
    exact open_sound _ ⟨he.closes, he.writes, he.enables⟩

theorem handleClose_close (c : TcpConnection T) (h : c.Open) (stack : List Frame) :
    (c.handleClose.frames stack).CloseSound where
  closes_le := by
    change c.closes+1 ≤ 1
    rw [h.closes]
  writes := h.writes
  enables := h.enables
  state := fun _ => rfl
  events := fun _ => disableAll_events _
  control := fun _ => by simp [frames]

theorem runFrame_close (c c' : TcpConnection T) (h : c.CloseSound) (stack : List Frame)
    (result : SocketResult) (frame : Frame) (hcontrol : c.control = .frames)
    (hstack : c.stack = frame::stack) (hg : c.closes = 0 ∨ c.undoes = false)
    (hs : c.runFrame stack result frame = some c') : c'.CloseSound := by
  have hopen : c.undoes = true → c.Open := by
    intro hu
    rcases hg with hc | hu'
    · exact sound_open c h hc
    · exact absurd (hu.symm.trans hu') (by simp)
  cases runFrame_framed c c' stack result frame hs with
  | handleRead | writesNothing | handleError | writingAlready => exact frames_sound c h _
  | writes hw =>
    have hc : c.closes = 0 := by
      by_contra hne
      simp [Channel.isWriting, h.events hne, kNoneEvent] at hw
    exact open_sound _ ⟨hc, h.writes, h.enables⟩
  | handleClose =>
    exact handleClose_close c (hopen (by simp [undoes, hcontrol, hstack])) _
  | enableWriting hw =>
    have he := enableWriting_open c (hopen (by simp [undoes, hcontrol, hstack, hw]))
    exact open_sound _ ⟨he.closes, he.writes, he.enables⟩
  | shutdownStore =>
    have ho := hopen (by simp [undoes, hcontrol, hstack])
    exact open_sound _ ⟨ho.closes, ho.writes, ho.enables⟩
  | destroyStore =>
    exact ⟨h.closes_le, h.writes, h.enables, fun _ => rfl, fun _ => disableAll_events _,
      fun _ => by simp [frames]⟩
  | closeCallback | removeChannel =>
    exact ⟨h.closes_le, h.writes, h.enables, h.state, h.events, fun _ => by simp [frames]⟩

variable [DecidableEq T]

theorem step_close (c : TcpConnection T) (a : Act T) (c' : TcpConnection T) (h : c.CloseSound)
    (ha : c.Aged) (hg : c.closeGuard a = true) (hs : c.step a = some c') : c'.CloseSound := by
  have hexec : ∀ result, a = .exec result → c.closes = 0 ∨ c.undoes = false := by
    rintro result rfl
    simpa [closeGuard] using hg
  cases step_stepped c a c' hs with
  | functor result f hcontrol => exact runFunctor_close c h ha f hcontrol (hexec result rfl)
  | writing result _ hcontrol hw =>
    have hc : c.closes = 0 := by
      by_contra hne
      exact h.control hne hcontrol
    exact open_sound c' (doWriting_open c c' (sound_open c h hc) result hw)
  | frame result frame stack _ hcontrol hstack hr =>
    exact runFrame_close c c' h stack result frame hcontrol hstack (hexec result rfl) hr
  | pending | sends =>
    exact ⟨h.closes_le, h.writes, h.enables, h.state, h.events, fun _ => by simp⟩
  | store t hstoring =>
    have hc : c.closes = 0 := by simpa [closeGuard] using hg
    exact open_sound _ ⟨hc, h.writes, h.enables⟩
  | poll | handleEvent | userCode | refused | shutdowns | setHighWaterMark | userReturns
  | callRefused | calls | callShutdown | post | queueDestroyed =>
    exact ⟨h.closes_le, h.writes, h.enables, h.state, h.events, h.control⟩

/-- A step against the guard breaks the close: at once, or with the write that
`doWriting` makes next. -/
theorem guard_exact (c : TcpConnection T) (a : Act T) (c' : TcpConnection T) (hc : c.closes ≠ 0)
    (hg : c.closeGuard a = false) (hs : c.step a = some c') :
    c'.state_ ≠ .kDisconnected ∨ c'.enablesAfterClose ≠ 0 ∨ 1 < c'.closes ∨
      (c'.control = .doWriting ∧ c'.contextQueue_ ≠ []) := by
  cases step_stepped c a c' hs with
  | functor result f hcontrol =>
    cases f with
    | sendFileInLoop call file =>
      right; right; right
      exact ⟨rfl, by simp [runFunctor, sendFileInLoop, enqueue]⟩
    | sendInLoop | shutdownInLoop | connectEstablished | connectDestroyed =>
      simp [closeGuard, undoes, hcontrol] at hg
  | frame result frame stack _ hcontrol hstack hr =>
    cases frame with
    | handleClose =>
      obtain rfl := Option.some.inj hr
      right; right; left
      exact Nat.succ_lt_succ (Nat.pos_of_ne_zero hc)
    | shutdownStore =>
      obtain rfl := Option.some.inj hr
      left
      simp [setStates]
    | enableWriting =>
      have hw : c.channel_.isWriting = false := by
        simpa [closeGuard, undoes, hcontrol, hstack, hc] using hg
      simp only [runFrame, hw] at hr
      obtain rfl := Option.some.inj hr
      right; left
      simp [frames, enableWriting, afterClose, hc]
    | user | handleRead | handleWrite | handleError | closeCallback | destroyStore
    | removeChannel => simp [closeGuard, undoes, hcontrol, hstack] at hg
  | store t =>
    left
    simp [TcpConnection.store, setStates]
  | writing result _ hcontrol => simp [closeGuard, undoes, hcontrol] at hg
  | poll | handleEvent | pending | userCode | refused | sends | shutdowns | setHighWaterMark
  | userReturns | callRefused | calls | callShutdown | post | queueDestroyed =>
    simp [closeGuard] at hg

omit [DecidableEq T] in
theorem start_close (fd owner : ℕ) : (start (T := T) fd owner).CloseSound :=
  open_sound _ ⟨rfl, rfl, rfl⟩

structure StaysClosed (c : TcpConnection T) : Prop where
  state : c.closes ≠ 0 → c.state_ = .kDisconnected
  writes : c.writesAfterClose = 0
  enables : c.enablesAfterClose = 0
  once : c.closeCallbacks ≤ 1

/-- The promises of the close hold in every run whose steps meet the guard. -/
theorem reach_closed (fd owner : ℕ) (c : TcpConnection T)
    (h : Reach step (fun s a => s.closeGuard a = true) (start fd owner) c) : c.StaysClosed := by
  obtain ⟨hs, -, hl⟩ := reach_invariant _ _ _ (fun s => s.CloseSound ∧ s.Aged ∧ s.LedgerSound)
    ⟨start_close fd owner, Or.inl (start_young fd owner), start_ledger fd owner⟩
    (fun s a t hs hg ht => ⟨step_close s a t hs.1 hs.2.1 hg ht, step_aged s a t hs.2.1 ht,
      step_ledger s a t hs.2.2 ht⟩) c h
  refine ⟨hs.state, hs.writes, hs.enables, ?_⟩
  have h1 := hs.closes_le
  have h2 := hl.closing
  omega

def peerCloses : List (Act ℕ) :=
  [.doPendingFunctor, .exec .again, .userReturns, .call 1 (.send [7]), .poll { rd := true },
    .handleEvent, .exec (.bytes 0), .exec .again, .userReturns, .exec .again, .post 1,
    .doPendingFunctor, .exec .again]

theorem reach_closed_peerCloses :
    ∃ c, run step (start (T := ℕ) 5 0) peerCloses = some c ∧ c.closes = 1 ∧
      c.state_ = .kDisconnected ∧ c.writesAfterClose = 0 := by
  obtain ⟨c, hc⟩ : ∃ c, run step (start (T := ℕ) 5 0) peerCloses = some c := ⟨_, rfl⟩
  have hreach := run_reach step closeGuard (start 5 0) c peerCloses hc rfl
  have hcloses : c.closes = 1 := by
    obtain rfl := Option.some.inj hc
    rfl
  have hs := reach_closed 5 0 c hreach
  exact ⟨c, hc, hcloses, hs.state (by omega), hs.writes⟩

/-- As `peerCloses`, with a file: `sendFileInLoop` does not look at `state_`. -/
def fileBehindClose : List (Act ℕ) :=
  [.doPendingFunctor, .exec .again, .userReturns, .call 1 (.sendFile ⟨[7], 0, 1⟩),
    .poll { rd := true }, .handleEvent, .exec (.bytes 0), .exec .again, .userReturns,
    .exec .again, .post 1, .doPendingFunctor, .exec .again, .exec .again, .exec .again]

theorem fileBehindClose_writes :
    ¬ ∀ c, Reach step (fun _ _ => True) (start (T := ℕ) 5 0) c → c.StaysClosed := by
  intro hall
  obtain ⟨c, hc⟩ : ∃ c, run step (start (T := ℕ) 5 0) fileBehindClose = some c := ⟨_, rfl⟩
  have hreach := run_reach step (fun _ _ => true) (start 5 0) c fileBehindClose hc rfl
  have h := hall c (reach_mono _ _ _ _ (fun _ _ _ => trivial) c hreach)
  obtain rfl := Option.some.inj hc
  exact absurd h.writes (by decide)

end TcpConnection
end MuServer
