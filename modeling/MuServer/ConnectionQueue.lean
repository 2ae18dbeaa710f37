import MuServer.ConnectionShutdown

/-!
# What waits for the socket

On an open connection contexts wait in `contextQueue_` only while `doWriting` runs,
while `EPOLLOUT` is watched, or where `EAGAIN` has ended `doWriting` without it.
-/

set_option autoImplicit false

namespace MuServer

variable {T : Type}

namespace TcpConnection

def WatchedSound (c : TcpConnection T) : Prop :=
  c.state_ ≠ .kDisconnected → c.contextQueue_ ≠ [] →
    c.channel_.isWriting = true ∨ c.control = .doWriting ∨ c.unwatched = true

theorem updateChannel_isWriting (c : TcpConnection T) (channel : Channel) :
    (c.updateChannel channel).channel_.isWriting = channel.isWriting :=
  congrArg Events.write (c.poller.updateChannel_events channel)

/-- A statement that leaves the queue, `EPOLLOUT` and the frames of `doWriting`. -/
theorem watched_same (c c' : TcpConnection T) (h : c.WatchedSound)
    (hcontrol : c.control ≠ .doWriting)
    (hstate : c'.state_ ≠ .kDisconnected → c.state_ ≠ .kDisconnected)
    (hqueue : c'.contextQueue_ = c.contextQueue_)
    (hwriting : c'.channel_.isWriting = c.channel_.isWriting)
    (hstack : .enableWriting ∈ c.stack → .enableWriting ∈ c'.stack) : c'.WatchedSound := by
  intro hs hq
  rw [hqueue] at hq
  rcases h (hstate hs) hq with hw | hc | hu
  · exact Or.inl (hwriting.trans hw)
  · exact absurd hc hcontrol
  · right; right
    simp only [unwatched, emptyFront, hqueue, Bool.or_eq_true, decide_eq_true_eq] at hu ⊢
    exact hu.imp_left hstack

theorem runFunctor_watched (c : TcpConnection T) (h : c.WatchedSound) (ha : c.Aged)
    (f : Functor T) (hcontrol : c.control = .functor f) : (c.runFunctor f).WatchedSound := by
  have hc : c.control ≠ .doWriting := by simp [hcontrol]
  cases f with
  | sendInLoop call data =>
    simp only [runFunctor, sendInLoop]
    split
    · rename_i hstate
      exact fun hs => absurd hstate hs
    · exact fun _ _ => Or.inr (Or.inl rfl)
  | sendFileInLoop call file => exact fun _ _ => Or.inr (Or.inl rfl)
  | shutdownInLoop caller after => exact watched_same c _ h hc (fun hs => hs) rfl rfl (fun hm => hm)
  | connectEstablished =>
    have hy := young_state c ha hcontrol
    apply watched_same c (c.runFunctor .connectEstablished) h hc (fun _ => by simp [hy.state]) rfl
    · exact updateChannel_isWriting (c.setStates .kConnected) _
    · exact List.mem_cons_of_mem _
  | connectDestroyed =>
    exact watched_same c _ h hc (fun hs => hs) rfl rfl (List.mem_append_right _)

/-- `EAGAIN` leaves with a frame that enables `EPOLLOUT`, or with an empty context. -/
theorem doWriting_watched (c c' : TcpConnection T) (result : SocketResult)
    (hcontrol : c.control = .doWriting) (hne : result ≠ .fails)
    (hs : c.doWriting result = some c') : c'.WatchedSound := by
  intro _ hq
  cases doWriting_round c c' result hs with
  | empty _ hempty => exact absurd hempty hq
  | progress => exact Or.inr (Or.inl hcontrol)
  | drains call ctx ctx' out n _ hw hc =>
    exact absurd (drained_empty c.issue call ctx' out hc) hq
  | blocks =>
    right; right
    obtain ⟨triggered, stack, hb, hstack⟩ := blocked_frames c.issue
    rw [hb]
    rcases hstack with rfl | rfl <;> simp [unwatched, frames]
  | nothing call ctx rest hqueue hr =>
    right; right
    simp [unwatched, emptyFront, frames, issue, hqueue, hr]
  | fails => exact absurd rfl hne

theorem enableWriting_tail (c : TcpConnection T) (frame : Frame) (stack : List Frame)
    (hstack : c.stack = frame::stack) (hf : frame ≠ .enableWriting)
    (hm : .enableWriting ∈ c.stack) : .enableWriting ∈ stack := by
  rw [hstack] at hm
  exact (List.mem_cons.mp hm).resolve_left (fun he => hf he.symm)

theorem runFrame_watched (c c' : TcpConnection T) (h : c.WatchedSound) (result : SocketResult)
    (frame : Frame) (stack : List Frame) (hcontrol : c.control = .frames)
    (hstack : c.stack = frame::stack) (hr : c.runFrame stack result frame = some c')
    (hstore : frame = .shutdownStore → c.state_ = .kConnected) : c'.WatchedSound := by
  have hc : c.control ≠ .doWriting := by simp [hcontrol]
  have htail := enableWriting_tail c frame stack hstack
  cases runFrame_framed c c' stack result frame hr with
  | handleRead =>
    exact watched_same c _ h hc (fun hs => hs) rfl rfl
      (fun hm => List.mem_cons_of_mem _ (htail (by simp) hm))
  | writes => exact fun _ _ => Or.inr (Or.inl rfl)
  | writingAlready hw => exact fun _ _ => Or.inl hw
  | enableWriting => exact fun _ _ => Or.inl (updateChannel_isWriting c _)
  | writesNothing | handleError | closeCallback | removeChannel =>
    exact watched_same c _ h hc (fun hs => hs) rfl rfl (htail (by simp))
  | shutdownStore =>
    have hstate := hstore rfl
    exact watched_same c _ h hc (fun _ => by simp [hstate]) rfl rfl (htail (by simp))
  | handleClose | destroyStore => exact fun hs => absurd rfl hs

theorem step_watched [DecidableEq T] (c : TcpConnection T) (a : Act T) (c' : TcpConnection T)
    (h : c.WatchedSound) (ha : c.Aged) (ho : c.staysOpen a = true) (hg : c.shutdownGuard a = true)
    (hs : c.step a = some c') : c'.WatchedSound := by
  cases step_stepped c a c' hs with
  | functor result f hcontrol => exact runFunctor_watched c h ha f hcontrol
  | writing result _ hcontrol hw =>
    have hne : result ≠ .fails := by simpa [staysOpen, hcontrol] using ho
    exact doWriting_watched c c' result hcontrol hne hw
  | frame result frame stack _ hcontrol hstack hr =>
    apply runFrame_watched c c' h result frame stack hcontrol hstack hr
    rintro rfl
    simpa [shutdownGuard, hcontrol, hstack] using hg
  | handleEvent revents hcontrol hstack =>
    exact watched_same c _ h (by simp [hcontrol]) (fun hs => hs) rfl rfl (by simp [hstack])
  | pending f fs hcontrol =>
    exact watched_same c _ h (by simp [hcontrol]) (fun hs => hs) rfl rfl (fun hm => hm)
  | userCode hcontrol hstack =>
    exact watched_same c _ h (by simp [hcontrol]) (fun hs => hs) rfl rfl (by simp [hstack])
  | sends r f hcontrol =>
    exact watched_same c _ h (by simp [hcontrol]) (fun hs => hs) rfl rfl (fun hm => hm)
  | shutdowns hcontrol =>
    exact watched_same c _ h (by simp [hcontrol]) (fun hs => hs) rfl rfl (List.mem_cons_of_mem _)
  | userReturns stack hcontrol hstack =>
    exact watched_same c _ h (by simp [hcontrol]) (fun hs => hs) rfl rfl (by simp [hstack])
  | store t hstoring =>
    have hstate : c.state_ = .kConnected := by simpa [shutdownGuard] using hg
    exact fun _ => h (by simp [hstate])
  | poll | refused | setHighWaterMark | callRefused | calls | callShutdown | post
  | queueDestroyed => exact h

/-- Where `EPOLLOUT` is not watched and no `EAGAIN` has ended `doWriting`, nothing waits. -/
theorem watched_empty (c : TcpConnection T) (h : c.WatchedSound)
    (hstate : c.state_ ≠ .kDisconnected) (hcontrol : c.control ≠ .doWriting)
    (hwriting : c.channel_.isWriting = false) (hu : c.unwatched = false) :
    c.contextQueue_ = [] := by
  by_contra hq
  rcases h hstate hq with hw | hc | hu'
  · exact absurd (hwriting.symm.trans hw) (by simp)
  · exact hcontrol hc
  · exact absurd (hu.symm.trans hu') (by simp)

end TcpConnection
end MuServer
