import MuServer.ConnectionQueue

/-!
# `EPOLLOUT` and the queue

Outside `doWriting` the channel of a connection that stays connected watches
`EPOLLOUT` exactly while contexts wait, unless the high-water callback has
drained the queue: the `doWriting` that called it enables `EPOLLOUT` all the
same.
-/

set_option autoImplicit false

namespace MuServer
open Lib.Machine

variable {T : Type}

namespace TcpConnection

/-- The loop thread is at the loop of `doWriting`, or in a call that it makes:
the high-water callback, or `handleClose` behind a failed write. -/
def inDoWriting (c : TcpConnection T) : Prop :=
  c.control = .doWriting ∨ .enableWriting ∈ c.stack ∨
    (c.hardErrors ≠ 0 ∧ c.stack.head? = some .handleClose)

instance [DecidableEq T] (c : TcpConnection T) : Decidable c.inDoWriting :=
  inferInstanceAs (Decidable (_ ∨ _))

def Mirrored (c : TcpConnection T) : Prop :=
  ¬ c.inDoWriting → (c.channel_.isWriting = true ↔ c.contextQueue_ ≠ [])

def zeroReturns (c : TcpConnection T) (a : Act T) : Bool :=
  match a with
  | .exec result =>
    match c.control with
    | .doWriting => !c.emptyFront || result = .bytes 0
    | _ => true
  | _ => true

/-- Behind its `EAGAIN` `doWriting` finds contexts in the queue. -/
def mirrorGuard (c : TcpConnection T) (a : Act T) : Bool :=
  match a with
  | .exec _ =>
    match c.control, c.stack with
    | .frames, .enableWriting::_ => c.channel_.isWriting || !c.contextQueue_.isEmpty
    | _, _ => true
  | _ => true

structure MirrorSound (c : TcpConnection T) : Prop where
  watching : c.hardErrors = 0 → c.channel_.isWriting = true → c.contextQueue_ ≠ []
  waiting : c.hardErrors = 0 → c.contextQueue_ ≠ [] →
    c.channel_.isWriting = true ∨ c.control = .doWriting ∨ .enableWriting ∈ c.stack
  failed : c.hardErrors ≠ 0 → c.control = .frames ∧ c.stack.head? = some .handleClose

theorem mirrorSound_mirrored (c : TcpConnection T) (h : c.MirrorSound) : c.Mirrored := by
  intro hout
  simp only [inDoWriting, not_or] at hout
  obtain ⟨hcontrol, hstack, hclose⟩ := hout
  have hnone : c.hardErrors = 0 := by
    by_contra hne
    exact hclose ⟨hne, (h.failed hne).2⟩
  refine ⟨h.watching hnone, fun hq => ?_⟩
  rcases h.waiting hnone hq with hw | hc | hs
  · exact hw
  · exact absurd hc hcontrol
  · exact absurd hs hstack

/-- A statement that leaves the queue, `EPOLLOUT` and the frames of `doWriting`. -/
theorem mirror_same (c c' : TcpConnection T) (h : c.MirrorSound)
    (hcontrol : c.control ≠ .doWriting) (hnone : c.hardErrors = 0)
    (hhard : c'.hardErrors = c.hardErrors)
    (hqueue : c'.contextQueue_ = c.contextQueue_)
    (hwriting : c'.channel_.isWriting = c.channel_.isWriting)
    (hstack : .enableWriting ∈ c.stack → .enableWriting ∈ c'.stack) : c'.MirrorSound where
  watching := by
    intro _ hw
    rw [hqueue]
    exact h.watching hnone (hwriting ▸ hw)
  waiting := by
    intro _ hq
    rw [hqueue] at hq
    rcases h.waiting hnone hq with hw | hc | hs
    · exact Or.inl (hwriting.trans hw)
    · exact absurd hc hcontrol
    · exact Or.inr (Or.inr (hstack hs))
  failed := fun hne => absurd (hhard.trans hnone) hne

/-- Within `doWriting` the queue may be anything as long as `EPOLLOUT` is not
watched without need. -/
theorem mirror_inside (c' : TcpConnection T) (hnone : c'.hardErrors = 0)
    (hwatching : c'.channel_.isWriting = true → c'.contextQueue_ ≠ [])
    (hinside : c'.control = .doWriting ∨ .enableWriting ∈ c'.stack) : c'.MirrorSound where
  watching := fun _ => hwatching
  waiting := fun _ _ => Or.inr hinside
  failed := fun hne => absurd hnone hne

theorem runFunctor_mirror (c : TcpConnection T) (h : c.MirrorSound) (hnone : c.hardErrors = 0)
    (f : Functor T) (hcontrol : c.control = .functor f) : (c.runFunctor f).MirrorSound := by
  have hc : c.control ≠ .doWriting := by simp [hcontrol]
  cases f with
  | sendInLoop call data =>
    simp only [runFunctor, sendInLoop]
    split
    · exact mirror_same c _ h hc hnone rfl rfl rfl (fun hm => hm)
    · exact mirror_inside _ hnone (fun _ => by simp [enqueue]) (Or.inl rfl)
  | sendFileInLoop call file =>
    exact mirror_inside _ hnone (fun _ => by simp [runFunctor, sendFileInLoop, enqueue])
      (Or.inl rfl)
  | shutdownInLoop caller after => exact mirror_same c _ h hc hnone rfl rfl rfl (fun hm => hm)
  | connectEstablished =>
    exact mirror_same c _ h hc hnone rfl rfl
      (updateChannel_isWriting (c.setStates .kConnected) _) (List.mem_cons_of_mem _)
  | connectDestroyed =>
    exact mirror_same c _ h hc hnone rfl rfl rfl (List.mem_append_right _)

theorem drained_isWriting (c : TcpConnection T) : c.drained.channel_.isWriting = false := by
  unfold drained
  split
  · exact updateChannel_isWriting c _
  · rename_i hw
    exact Bool.not_eq_true _ ▸ hw

theorem doWriting_mirror (c c' : TcpConnection T) (h : c.MirrorSound) (hnone : c.hardErrors = 0)
    (result : SocketResult) (hcontrol : c.control = .doWriting)
    (hz : c.zeroReturns (.exec result) = true) (hs : c.doWriting result = some c') :
    c'.MirrorSound := by
  have hwatching := h.watching hnone
  cases doWriting_round c c' result hs with
  | empty _ hq =>
    refine ⟨fun _ hw => absurd hq (hwatching hw), fun _ hne => absurd hq hne,
      fun hne => absurd hnone hne⟩
  | progress call ctx ctx' rest out n hq hw hmore =>
    refine mirror_inside _ hnone (fun _ => ?_) (Or.inl hcontrol)
    change (if ctx'.isComplete then rest else (call, ctx')::rest) ≠ []
    split
    · rename_i hc
      exact fun he => hmore ⟨hc, he⟩
    · simp
  | drains call ctx ctx' out n hq hw hc =>
    have hempty := drained_empty c.issue call ctx' out hc
    have hhard : (c.issue.took call ctx' [] out).drained.hardErrors = 0 := by
      obtain ⟨poller, channel, hd⟩ := drained_channel (c.issue.took call ctx' [] out)
      rw [hd]
      exact hnone
    exact ⟨fun _ hw' => absurd (hw'.symm.trans (drained_isWriting _)) (by simp),
      fun _ hne => absurd hempty hne, fun hne => absurd hhard hne⟩
  | blocks call ctx rest hq hr =>
    have hne : c.contextQueue_ ≠ [] := by simp [hq]
    obtain ⟨triggered, stack, hb, hstack⟩ := blocked_frames c.issue
    rw [hb]
    refine mirror_inside _ hnone (fun _ => hne) (Or.inr ?_)
    rcases hstack with rfl | rfl <;> simp [frames]
  | nothing call ctx rest hq hr =>
    simp [zeroReturns, hcontrol, emptyFront, hq, hr] at hz
  | fails call ctx rest hq =>
    refine ⟨fun hz' => absurd hz' (Nat.succ_ne_zero _), fun hz' => absurd hz' (Nat.succ_ne_zero _),
      fun _ => ⟨rfl, rfl⟩⟩

theorem runFrame_mirror (c c' : TcpConnection T) (h : c.MirrorSound) (hnone : c.hardErrors = 0)
    (result : SocketResult) (frame : Frame) (stack : List Frame) (hcontrol : c.control = .frames)
    (hstack : c.stack = frame::stack) (hr : c.runFrame stack result frame = some c')
    (hopen : c'.state_ ≠ .kDisconnected) (hg : c.mirrorGuard (.exec result) = true) :
    c'.MirrorSound := by
  have hc : c.control ≠ .doWriting := by simp [hcontrol]
  have htail := enableWriting_tail c frame stack hstack
  cases runFrame_framed c c' stack result frame hr with
  | handleRead =>
    exact mirror_same c _ h hc hnone rfl rfl rfl
      (fun hm => List.mem_cons_of_mem _ (htail (by simp) hm))
  | writes => exact mirror_inside _ hnone (h.watching hnone) (Or.inl rfl)
  | writingAlready hw =>
    exact ⟨h.watching, fun _ _ => Or.inl hw, fun hne => absurd hnone hne⟩
  | enableWriting hw =>
    have hq : c.contextQueue_ ≠ [] := by simpa [mirrorGuard, hcontrol, hstack, hw] using hg
    exact ⟨fun _ _ => hq, fun _ _ => Or.inl (updateChannel_isWriting c _),
      fun hne => absurd hnone hne⟩
  | writesNothing | handleError | closeCallback | shutdownStore | removeChannel =>
    exact mirror_same c _ h hc hnone rfl rfl rfl (htail (by simp))
  | handleClose | destroyStore => exact absurd rfl hopen

/-- Behind a failed write the loop thread goes on in `handleClose`. -/
theorem failed_step [DecidableEq T] (c : TcpConnection T) (a : Act T) (c' : TcpConnection T)
    (h : c.MirrorSound) (hne : c.hardErrors ≠ 0) (hopen : c'.state_ ≠ .kDisconnected)
    (hs : c.step a = some c') : c'.MirrorSound := by
  obtain ⟨hcontrol, hhead⟩ := h.failed hne
  obtain ⟨stack, hstack⟩ := List.head?_eq_some_iff.mp hhead
  have huser : ∀ r, a ≠ .request r := by
    rintro r rfl
    obtain ⟨hin, -⟩ := Option.ite_none_right_eq_some.mp hs
    obtain ⟨-, rest, hrest⟩ := c.inUser_iff.mp hin
    exact absurd (hstack.symm.trans hrest) (by simp)
  cases step_stepped c a c' hs with
  | functor result f hf => exact absurd (hcontrol.symm.trans hf) (by simp)
  | writing result _ hf => exact absurd (hcontrol.symm.trans hf) (by simp)
  | frame result frame stack' _ _ hstack' hr =>
    obtain rfl := (List.cons.inj (hstack.symm.trans hstack')).1
    obtain rfl := Option.some.inj hr
    exact absurd rfl hopen
  | poll _ _ hempty | handleEvent _ _ hempty | pending _ _ _ hempty | userCode _ hempty =>
    exact absurd (hstack.symm.trans hempty) (by simp)
  | userReturns _ _ hreturn => exact absurd (hstack.symm.trans hreturn) (by simp)
  | sends r => exact absurd rfl (huser r)
  | shutdowns => exact absurd rfl (huser .shutdown)
  | refused | setHighWaterMark | callRefused | calls | callShutdown | store | post
  | queueDestroyed => exact ⟨h.watching, h.waiting, h.failed⟩

theorem step_mirror [DecidableEq T] (c : TcpConnection T) (a : Act T) (c' : TcpConnection T)
    (h : c.MirrorSound) (hopen : c'.state_ ≠ .kDisconnected) (hz : c.zeroReturns a = true)
    (hg : c.mirrorGuard a = true) (hs : c.step a = some c') : c'.MirrorSound := by
  by_cases hnone : c.hardErrors = 0
  · cases step_stepped c a c' hs with
    | functor result f hcontrol => exact runFunctor_mirror c h hnone f hcontrol
    | writing result _ hcontrol hw => exact doWriting_mirror c c' h hnone result hcontrol hz hw
    | frame result frame stack _ hcontrol hstack hr =>
      exact runFrame_mirror c c' h hnone result frame stack hcontrol hstack hr hopen hg
    | handleEvent revents hcontrol hstack =>
      exact mirror_same c _ h (by simp [hcontrol]) hnone rfl rfl rfl (by simp [hstack])
    | pending f fs hcontrol =>
      exact mirror_same c _ h (by simp [hcontrol]) hnone rfl rfl rfl (fun hm => hm)
    | userCode hcontrol hstack =>
      exact mirror_same c _ h (by simp [hcontrol]) hnone rfl rfl rfl (by simp [hstack])
    | sends r f hcontrol =>
      exact mirror_same c _ h (by simp [hcontrol]) hnone rfl rfl rfl (fun hm => hm)
    | shutdowns hcontrol =>
      exact mirror_same c _ h (by simp [hcontrol]) hnone rfl rfl rfl (List.mem_cons_of_mem _)
    | userReturns stack hcontrol hstack =>
      exact mirror_same c _ h (by simp [hcontrol]) hnone rfl rfl rfl (by simp [hstack])
    | poll | refused | setHighWaterMark | callRefused | calls | callShutdown | store | post
    | queueDestroyed => exact ⟨h.watching, h.waiting, h.failed⟩
  · exact failed_step c a c' h hnone hopen hs

theorem start_mirror (fd owner : ℕ) : (start (T := T) fd owner).MirrorSound where
  watching := fun _ hw => absurd hw (by simp [start, Channel.isWriting, kNoneEvent])
  waiting := fun _ hq => absurd rfl hq
  failed := fun hne => absurd rfl hne

variable [DecidableEq T]

def staysConnected (c : TcpConnection T) (a : Act T) : Bool :=
  match c.step a with
  | some c' => c'.state_ ≠ .kDisconnected
  | none => true

/-- `EPOLLOUT` follows the queue in every run whose steps meet the guard. -/
theorem reach_mirrored (fd owner : ℕ) (c : TcpConnection T)
    (h : Reach step (fun s a => (s.staysConnected a && s.zeroReturns a && s.mirrorGuard a) = true)
      (start fd owner) c) : c.Mirrored := by
  apply mirrorSound_mirrored
  refine reach_invariant _ _ _ MirrorSound (start_mirror fd owner) (fun s a t hs hok ht => ?_) c h
  simp only [Bool.and_eq_true] at hok
  have hopen : t.state_ ≠ .kDisconnected := by simpa [staysConnected, ht] using hok.1.1
  exact step_mirror s a t hs hopen hok.1.2 hok.2 ht

omit [DecidableEq T] in
theorem enableWriting_unmirrored (c : TcpConnection T) (stack : List Frame) (result : SocketResult)
    (hno : .enableWriting ∉ stack) (hnone : c.hardErrors = 0)
    (hw : c.channel_.isWriting = false) (hq : c.contextQueue_ = []) :
    ∃ c', c.runFrame stack result .enableWriting = some c' ∧ ¬ c'.Mirrored := by
  refine ⟨c.enableWriting.frames stack, if_neg (by simp [hw]), fun hm => ?_⟩
  have hout : ¬ (c.enableWriting.frames stack).inDoWriting := by
    rintro (hc | hs | ⟨hne, -⟩)
    · exact absurd hc (by simp [frames])
    · exact hno hs
    · exact hne hnone
  exact (hm hout).mp (updateChannel_isWriting c _) hq

/-- The callback sends more and the socket takes it with `EPOLLOUT` watched. -/
def callbackBlocks : List (Act ℕ) :=
  [.doPendingFunctor, .exec .again, .setHighWaterMark 0, .request (.send [1, 2]), .exec .again,
    .exec .again, .request (.send [3]), .exec .again, .exec (.bytes 1), .exec .again, .exec .again,
    .userReturns, .exec .again, .userReturns, .poll { out := true }, .handleEvent, .exec .again,
    .exec (.bytes 1), .exec (.bytes 1), .exec .again]

theorem reach_mirrored_callbackBlocks :
    ∃ c, run step (start (T := ℕ) 5 0) callbackBlocks = some c ∧ c.wire = [1, 2, 3] ∧
      c.Mirrored := by
  obtain ⟨c, hc⟩ : ∃ c, run step (start (T := ℕ) 5 0) callbackBlocks = some c := ⟨_, rfl⟩
  have hreach := run_reach step
    (fun s a => s.staysConnected a && s.zeroReturns a && s.mirrorGuard a) (start 5 0) c
    callbackBlocks hc rfl
  have hwire : c.wire = [1, 2, 3] := by
    obtain rfl := Option.some.inj hc
    rfl
  exact ⟨c, hc, hwire, reach_mirrored 5 0 c hreach⟩

def callbackDrains : List (Act ℕ) :=
  [.doPendingFunctor, .exec .again, .setHighWaterMark 0, .request (.send [1, 2]), .exec .again,
    .exec .again, .request (.send [3]), .exec .again, .exec (.bytes 2), .exec (.bytes 1),
    .exec .again, .userReturns, .exec .again]

theorem callbackDrains_unmirrored :
    ¬ ∀ c, Reach step (fun s a => (s.staysConnected a && s.zeroReturns a) = true)
      (start (T := ℕ) 5 0) c → c.Mirrored := by
  intro hall
  obtain ⟨c, hc⟩ : ∃ c, run step (start (T := ℕ) 5 0) callbackDrains = some c := ⟨_, rfl⟩
  have hreach := run_reach step (fun s a => s.staysConnected a && s.zeroReturns a) (start 5 0) c
    callbackDrains hc rfl
  have h := hall c hreach
  obtain rfl := Option.some.inj hc
  exact (h (by decide +kernel)).mp rfl rfl

end TcpConnection
end MuServer
