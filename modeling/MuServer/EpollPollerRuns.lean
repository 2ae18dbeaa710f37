import MuServer.EpollPoller
import MuServer.Lib.Machine

/-!
# The channels of one poller

A loop's channels change their interest and leave, in any order. Each channel
has its own descriptor, so a call about one of them leaves what the poller and
the kernel keep about the others alone, and the three records of a channel can
be followed by themselves.
-/

set_option autoImplicit false

namespace MuServer

open Lib

namespace EpollPoller

structure Listed (p : EpollPoller) (channel : Channel) : Prop where
  new : channel.index_ = .kNew → p.channels_ channel.fd_ = none
  held : channel.index_ ≠ .kNew → p.holds channel = true
  added : channel.index_ = .kAdded → (p.epoll channel.fd_).isSome = true
  absent : channel.index_ ≠ .kAdded → p.epoll channel.fd_ = none

structure InStep (p : EpollPoller) (channel : Channel) : Prop where
  listed : p.Listed channel
  mask : ∀ mask, p.epoll channel.fd_ = some mask → mask = channel.events_
  interest : channel.events_ ≠ kNoneEvent → channel.index_ = .kAdded

structure Agree (p : EpollPoller) (channel : Channel) : Prop where
  new : channel.index_ = .kNew ↔ p.holds channel = false
  added : channel.index_ = .kAdded ↔ (p.epoll channel.fd_).isSome = true
  mask : ∀ mask, p.epoll channel.fd_ = some mask → mask = channel.events_
  watched : channel.events_ ≠ kNoneEvent → (p.epoll channel.fd_).isSome = true

theorem inStep_agree (p : EpollPoller) (channel : Channel) (h : p.InStep channel) :
    p.Agree channel where
  new := by
    constructor
    · intro hnew
      simp [holds, h.listed.new hnew]
    · intro hnot
      by_contra hnew
      simp [h.listed.held hnew] at hnot
  added := by
    constructor
    · exact h.listed.added
    · intro hsome
      by_contra hadded
      simp [h.listed.absent hadded] at hsome
  mask := h.mask
  watched := fun hevents => h.listed.added (h.interest hevents)

def Sound (p : EpollPoller) : Prop := p.failed = false ∧ p.refused = false

theorem assertFind_true (p : EpollPoller) (b : Bool) (h : b = true) : p.assertFind b = p := by
  simp [assertFind, h]

theorem assert_true (p : EpollPoller) (b : Bool) (h : b = true) : p.assert b = p := by
  simp [assert, h]

theorem update_add (p : EpollPoller) (channel : Channel) (h : p.epoll channel.fd_ = none) :
    p.update .add channel =
      { p with epoll := Function.update p.epoll channel.fd_ (some channel.events_) } := by
  simp [update, h]

theorem update_mod (p : EpollPoller) (channel : Channel)
    (h : (p.epoll channel.fd_).isSome = true) : p.update .mod channel =
      { p with epoll := Function.update p.epoll channel.fd_ (some channel.events_) } := by
  simp only [update, h, if_true]

theorem update_del (p : EpollPoller) (channel : Channel)
    (h : (p.epoll channel.fd_).isSome = true) : p.update .del channel =
      { p with epoll := Function.update p.epoll channel.fd_ none } := by
  simp only [update, h, if_true]

theorem updateChannel_inStep (p : EpollPoller) (channel : Channel) (h : p.Listed channel)
    (hs : p.Sound) : (p.updateChannel channel).1.Sound
      ∧ (p.updateChannel channel).1.InStep (p.updateChannel channel).2 := by
  unfold updateChannel
  cases hi : channel.index_ with
  | kNew =>
    have hmap := h.new hi
    have habsent := h.absent (by simp [hi])
    dsimp only
    rw [assertFind_true _ _ (by simp [hmap]), update_add (p.setChannel _ _) _ habsent]
    refine ⟨hs, ⟨⟨?_, ?_, ?_, ?_⟩, ?_, ?_⟩⟩ <;> simp [Channel.setIndex, holds, setChannel]
  | kDeleted =>
    have hheld := h.held (by simp [hi])
    have habsent := h.absent (by simp [hi])
    dsimp only
    rw [assertFind_true _ _ hheld, update_add _ _ habsent]
    refine ⟨hs, ⟨⟨?_, fun _ => hheld, ?_, ?_⟩, ?_, ?_⟩⟩ <;> simp [Channel.setIndex]
  | kAdded =>
    have hheld := h.held (by simp [hi])
    have hadded := h.added hi
    dsimp only
    rw [assertFind_true _ _ hheld]
    by_cases hnone : channel.isNoneEvent = true
    · rw [if_pos hnone, update_del _ _ hadded]
      have hevents : channel.events_ = kNoneEvent := of_decide_eq_true hnone
      refine ⟨hs, ⟨⟨?_, fun _ => hheld, ?_, ?_⟩, ?_, ?_⟩⟩ <;> simp [Channel.setIndex, hevents]
    · rw [if_neg hnone, update_mod _ _ hadded]
      refine ⟨hs, ⟨⟨?_, fun _ => hheld, ?_, ?_⟩, ?_, ?_⟩⟩ <;> simp [hi]

theorem updateChannel_index (p : EpollPoller) (channel : Channel) :
    (p.updateChannel channel).2.index_ =
      if channel.index_ = .kAdded ∧ channel.isNoneEvent = true then .kDeleted else .kAdded := by
  unfold updateChannel
  cases hi : channel.index_ with
  | kNew => simp [Channel.setIndex]
  | kDeleted => simp [Channel.setIndex]
  | kAdded =>
    by_cases hnone : channel.isNoneEvent = true
    · simp [hnone, Channel.setIndex]
    · simp [hnone, hi]

theorem removeChannel_inStep (p : EpollPoller) (channel : Channel) (h : p.InStep channel)
    (hs : p.Sound) (hnew : channel.index_ ≠ .kNew) (hnone : channel.isNoneEvent = true) :
    (p.removeChannel channel).1.Sound
      ∧ (p.removeChannel channel).1.InStep (p.removeChannel channel).2 := by
  have hcheck : p.checkRemove channel = p := by
    rw [checkRemove, assertFind_true _ _ (h.listed.held hnew),
      assert_true _ _ (by simp [hnone, hnew])]
  have hevents : channel.events_ = kNoneEvent := of_decide_eq_true hnone
  unfold removeChannel
  rw [hcheck]
  by_cases hadded : channel.index_ = .kAdded
  · dsimp only
    rw [if_pos hadded, update_del (p.setChannel _ _) _ (h.listed.added hadded)]
    refine ⟨hs, ⟨⟨?_, ?_, ?_, ?_⟩, ?_, ?_⟩⟩ <;> simp [Channel.setIndex, setChannel, hevents]
  · have habsent := h.listed.absent hadded
    dsimp only
    rw [if_neg hadded]
    refine ⟨hs, ⟨⟨?_, ?_, ?_, ?_⟩, ?_, ?_⟩⟩ <;>
      simp [Channel.setIndex, setChannel, hevents, habsent]

theorem inStep_frame (p q : EpollPoller) (channel : Channel) (h : p.InStep channel)
    (hmap : q.channels_ channel.fd_ = p.channels_ channel.fd_)
    (hepoll : q.epoll channel.fd_ = p.epoll channel.fd_) : q.InStep channel := by
  obtain ⟨⟨hnew, hheld, hadded, habsent⟩, hmask, hinterest⟩ := h
  rw [← hmap] at hnew
  rw [← hepoll] at hadded habsent hmask
  refine ⟨⟨hnew, fun hne => ?_, hadded, habsent⟩, hmask, hinterest⟩
  rw [holds, hmap]
  exact hheld hne

theorem update_frame (p : EpollPoller) (op : EpollOp) (channel : Channel) (fd : ℕ)
    (hfd : fd ≠ channel.fd_) : (p.update op channel).epoll fd = p.epoll fd := by
  cases op <;> simp only [update] <;> split <;> simp [hfd]

theorem updateChannel_frame (p : EpollPoller) (channel : Channel) (fd : ℕ)
    (hfd : fd ≠ channel.fd_) : (p.updateChannel channel).1.channels_ fd = p.channels_ fd
      ∧ (p.updateChannel channel).1.epoll fd = p.epoll fd := by
  unfold updateChannel
  split
  · simp [update_frame, hfd, setChannel, assertFind]
  · simp [update_frame, hfd, assertFind]
  · split <;> simp [update_frame, hfd, assertFind]

theorem removeChannel_frame (p : EpollPoller) (channel : Channel) (fd : ℕ)
    (hfd : fd ≠ channel.fd_) : (p.removeChannel channel).1.channels_ fd = p.channels_ fd
      ∧ (p.removeChannel channel).1.epoll fd = p.epoll fd := by
  unfold removeChannel
  dsimp only
  split <;> simp [update_frame, hfd, setChannel, checkRemove, assertFind, assert]

end EpollPoller

inductive Interest where
  | enableReading
  | disableReading
  | enableWriting
  | disableWriting
  | disableAll
  deriving DecidableEq, Repr

def Interest.apply : Interest → Channel → Channel
  | .enableReading, channel => channel.enableReading
  | .disableReading, channel => channel.disableReading
  | .enableWriting, channel => channel.enableWriting
  | .disableWriting, channel => channel.disableWriting
  | .disableAll, channel => channel.disableAll

theorem Interest.apply_spec (change : Interest) (channel : Channel) :
    ∃ events, change.apply channel = { channel with events_ := events } := by
  cases change <;> exact ⟨_, rfl⟩

structure Polled (ι : Type) where
  poller : EpollPoller := {}
  channels : ι → Channel

namespace Polled

variable {ι : Type}

def create (fd address : ι → ℕ) : Polled ι where
  channels := fun i => { fd_ := fd i, owner := address i }

structure Kept (fd : ι → ℕ) (s : Polled ι) : Prop where
  fds : ∀ i, (s.channels i).fd_ = fd i
  sound : s.poller.Sound
  inStep : ∀ i, s.poller.InStep (s.channels i)

theorem create_kept (fd address : ι → ℕ) : Kept fd (create fd address) where
  fds := fun _ => rfl
  sound := ⟨rfl, rfl⟩
  inStep := fun _ => by
    refine ⟨⟨?_, ?_, ?_, ?_⟩, ?_, ?_⟩ <;> simp [create]

variable [DecidableEq ι]

inductive Act (ι : Type) where
  | change (i : ι) (interest : Interest)
  | remove (i : ι)

def set (s : Polled ι) (i : ι) (r : EpollPoller × Channel) : Polled ι where
  poller := r.1
  channels := Function.update s.channels i r.2

def step (s : Polled ι) : Act ι → Option (Polled ι)
  | .change i interest => some (s.set i (s.poller.updateChannel (interest.apply (s.channels i))))
  | .remove i => some (s.set i (s.poller.removeChannel (s.channels i)))

def allowed (s : Polled ι) : Act ι → Bool
  | .change _ _ => true
  | .remove i => ((s.channels i).index_ ≠ .kNew || s.poller.holds (s.channels i))
      && (s.channels i).isNoneEvent

/-- A call about one channel that leaves the other descriptors alone. -/
theorem set_kept (fd : ι → ℕ) (hfd : Function.Injective fd) (s : Polled ι) (h : s.Kept fd) (i : ι)
    (r : EpollPoller × Channel) (hi : r.2.fd_ = fd i) (hs : r.1.Sound) (hr : r.1.InStep r.2)
    (hframe : ∀ x, x ≠ fd i → r.1.channels_ x = s.poller.channels_ x
      ∧ r.1.epoll x = s.poller.epoll x) : (s.set i r).Kept fd where
  fds := by
    intro j
    by_cases hj : j = i
    · subst hj
      simpa [set] using hi
    · simpa [set, hj] using h.fds j
  sound := hs
  inStep := by
    intro j
    by_cases hj : j = i
    · subst hj
      simpa [set] using hr
    · have hne : (s.channels j).fd_ ≠ fd i := by
        rw [h.fds j]
        exact fun heq => hj (hfd heq)
      obtain ⟨hmap, hepoll⟩ := hframe _ hne
      simpa [set, hj] using EpollPoller.inStep_frame _ _ _ (h.inStep j) hmap hepoll

theorem step_kept (fd : ι → ℕ) (hfd : Function.Injective fd) (s : Polled ι) (h : s.Kept fd)
    (a : Act ι) (hallowed : s.allowed a = true) (t : Polled ι) (ht : s.step a = some t) :
    t.Kept fd := by
  cases a with
  | change i interest =>
    obtain rfl := Option.some.inj ht
    obtain ⟨events, hevents⟩ := interest.apply_spec (s.channels i)
    have hlisted : s.poller.Listed (interest.apply (s.channels i)) := by
      obtain ⟨hnew, hheld, hadded, habsent⟩ := (h.inStep i).listed
      rw [hevents]
      exact ⟨hnew, hheld, hadded, habsent⟩
    have hi : (interest.apply (s.channels i)).fd_ = fd i := by
      rw [hevents]
      exact h.fds i
    obtain ⟨hs, hr⟩ := s.poller.updateChannel_inStep _ hlisted h.sound
    obtain ⟨index, -, hindex⟩ := s.poller.updateChannel_channel (interest.apply (s.channels i))
    apply set_kept fd hfd s h i _ _ hs hr
    · intro x hx
      exact s.poller.updateChannel_frame _ x (by rwa [hi])
    · rw [hindex]
      exact hi
  | remove i =>
    obtain rfl := Option.some.inj ht
    simp only [allowed, Bool.and_eq_true, Bool.or_eq_true, decide_eq_true_eq] at hallowed
    obtain ⟨hregistered, hnone⟩ := hallowed
    have hnew : (s.channels i).index_ ≠ .kNew := by
      rcases hregistered with hne | hholds
      · exact hne
      · intro hnew
        simp [EpollPoller.holds, (h.inStep i).listed.new hnew] at hholds
    obtain ⟨hs, hr⟩ := s.poller.removeChannel_inStep _ (h.inStep i) h.sound hnew hnone
    apply set_kept fd hfd s h i _ (h.fds i) hs hr
    intro x hx
    exact s.poller.removeChannel_frame _ x (by rwa [h.fds i])

/-- The poller's books, over all calls on any channels of distinct descriptors. -/
theorem reach_agree (fd address : ι → ℕ) (hfd : Function.Injective fd) (s : Polled ι)
    (h : Machine.Reach step (fun s a => s.allowed a = true) (create fd address) s) :
    s.poller.failed = false ∧ s.poller.refused = false
      ∧ ∀ i, s.poller.Agree (s.channels i) := by
  have hkept : s.Kept fd := by
    apply Machine.reach_invariant step _ _ (Kept fd) (create_kept fd address) _ s h
    intro s a t hs hallowed ht
    exact step_kept fd hfd s hs a hallowed t ht
  exact ⟨hkept.sound.1, hkept.sound.2, fun i => EpollPoller.inStep_agree _ _ (hkept.inStep i)⟩

theorem reach_agree_second : ∃ s : Polled ℕ, (s.channels 0).index_ = .kNew
    ∧ s.poller.epoll 8 = some { write := true } ∧ s.poller.failed = false
    ∧ s.poller.refused = false ∧ ∀ i, s.poller.Agree (s.channels i) := by
  have hrun : ∃ s, Machine.run step (create (· + 7) id)
      [.change 0 .enableReading, .change 1 .enableReading, .change 0 .disableAll,
        .change 1 .enableWriting, .change 1 .disableReading, .remove 0] = some s
      ∧ (s.channels 0).index_ = .kNew ∧ s.poller.epoll 8 = some { write := true } := by
    exact ⟨_, rfl, rfl, rfl⟩
  obtain ⟨s, hs, hindex, hepoll⟩ := hrun
  have hreach := Machine.run_reach step allowed _ s _ hs rfl
  exact ⟨s, hindex, hepoll, reach_agree _ id (fun _ _ h => Nat.add_right_cancel h) s hreach⟩

/-- A call that leaves its channel without interest is about a channel that
the kernel's set has. -/
def disablesAdded (s : Polled ι) : Act ι → Bool
  | .change i interest =>
    !(interest.apply (s.channels i)).isNoneEvent || (s.channels i).index_ = .kAdded
  | .remove _ => true

def Unwatched (s : Polled ι) : Prop :=
  ∀ i, (s.channels i).events_ = kNoneEvent → s.poller.epoll (s.channels i).fd_ = none

omit [DecidableEq ι] in
theorem unwatched_iff (fd : ι → ℕ) (s : Polled ι) (h : s.Kept fd) : s.Unwatched
    ↔ ∀ i, (s.channels i).events_ = kNoneEvent → (s.channels i).index_ ≠ .kAdded := by
  constructor
  · intro hs i hevents hadded
    have hsome := (h.inStep i).listed.added hadded
    rw [hs i hevents] at hsome
    exact absurd hsome (by simp)
  · intro hs i hevents
    exact (h.inStep i).listed.absent (hs i hevents)

/-- `updateChannel` chooses the operation by the index, and looks at the
interest of an added channel only. -/
theorem step_unwatched (fd : ι → ℕ) (hfd : Function.Injective fd) (s : Polled ι) (h : s.Kept fd)
    (hs : s.Unwatched) (a : Act ι) (hallowed : s.allowed a = true) (t : Polled ι)
    (ht : s.step a = some t) : t.Unwatched ↔ s.disablesAdded a = true := by
  rw [unwatched_iff fd t (step_kept fd hfd s h a hallowed t ht)]
  rw [unwatched_iff fd s h] at hs
  cases a with
  | change i interest =>
    obtain rfl := Option.some.inj ht
    obtain ⟨events, hevents⟩ := interest.apply_spec (s.channels i)
    have hindex : (interest.apply (s.channels i)).index_ = (s.channels i).index_ := by rw [hevents]
    have hafter := s.poller.updateChannel_events (interest.apply (s.channels i))
    have hleft := s.poller.updateChannel_index (interest.apply (s.channels i))
    simp only [disablesAdded, Bool.or_eq_true, Bool.not_eq_true', decide_eq_true_eq]
    rw [← hindex]
    constructor
    · intro ht
      by_contra hnot
      push Not at hnot
      obtain ⟨hnone, hadded⟩ := hnot
      rw [Bool.ne_false_iff] at hnone
      have hne := ht i (by simpa [set, hafter] using of_decide_eq_true hnone)
      simp [set, hleft, hadded] at hne
    · intro hok j hj
      by_cases hij : j = i
      · subst hij
        simp only [set, Function.update_self, hafter] at hj
        have hnone : (interest.apply (s.channels j)).isNoneEvent = true := decide_eq_true hj
        rw [hnone] at hok
        have hadded := hok.resolve_left (by simp)
        simp [set, hleft, hadded, hnone]
      · simp only [set, Function.update_of_ne hij] at hj ⊢
        exact hs j hj
  | remove i =>
    obtain rfl := Option.some.inj ht
    simp only [disablesAdded, iff_true]
    intro j hj
    by_cases hij : j = i
    · subst hij
      simp [set, EpollPoller.removeChannel, Channel.setIndex]
    · simp only [set, Function.update_of_ne hij] at hj ⊢
      exact hs j hj

/-- Over all runs in which no call disables a channel that is not added, and
for no other next call. -/
theorem reach_unwatched (fd address : ι → ℕ) (hfd : Function.Injective fd) (s : Polled ι)
    (h : Machine.Reach step (fun s a => s.allowed a = true ∧ s.disablesAdded a = true)
      (create fd address) s) :
    s.Unwatched ∧ ∀ a t, s.allowed a = true → s.step a = some t →
      (t.Unwatched ↔ s.disablesAdded a = true) := by
  have hkept : s.Kept fd ∧ s.Unwatched := by
    apply Machine.reach_invariant step _ _ (fun s => Kept fd s ∧ s.Unwatched) _ _ s h
    · refine ⟨create_kept fd address, ?_⟩
      intro i _
      rfl
    · rintro s a t ⟨hs, hnone⟩ ⟨hallowed, hok⟩ ht
      refine ⟨step_kept fd hfd s hs a hallowed t ht, ?_⟩
      exact (step_unwatched fd hfd s hs hnone a hallowed t ht).mpr hok
  refine ⟨hkept.2, fun a t hallowed ht => ?_⟩
  exact step_unwatched fd hfd s hkept.1 hkept.2 a hallowed t ht

theorem reach_unwatched_disabled : ∃ s : Polled ℕ, (s.channels 0).index_ = .kDeleted
    ∧ s.poller.epoll 7 = none ∧ s.Unwatched
    ∧ ∀ a t, s.allowed a = true → s.step a = some t →
      (t.Unwatched ↔ s.disablesAdded a = true) := by
  have hrun : ∃ s, Machine.run step (create (· + 7) id)
      [.change 0 .enableReading, .change 0 .enableWriting, .change 0 .disableReading,
        .change 0 .disableWriting] = some s
      ∧ (s.channels 0).index_ = .kDeleted ∧ s.poller.epoll 7 = none := by
    exact ⟨_, rfl, rfl, rfl⟩
  obtain ⟨s, hs, hindex, hepoll⟩ := hrun
  have hreach := Machine.run_reach step (fun s a => s.allowed a && s.disablesAdded a) _ s _ hs rfl
  have hreach' := Machine.reach_mono step _
    (fun s a => s.allowed a = true ∧ s.disablesAdded a = true) _
    (fun s a h => by simpa using h) s hreach
  exact ⟨s, hindex, hepoll, reach_unwatched _ id (fun _ _ h => Nat.add_right_cancel h) s hreach'⟩

/-- A second `disableAll` puts the channel back into the kernel's set. -/
theorem disableAll_twice : ∃ s : Polled ℕ,
    Machine.Reach step (fun s a => s.allowed a = true) (create (· + 7) id) s
    ∧ (s.channels 0).events_ = kNoneEvent ∧ s.poller.epoll 7 = some kNoneEvent := by
  have hrun : ∃ s, Machine.run step (create (· + 7) id)
      [.change 0 .enableReading, .change 0 .disableAll, .change 0 .disableAll] = some s
      ∧ (s.channels 0).events_ = kNoneEvent ∧ s.poller.epoll 7 = some kNoneEvent := by
    exact ⟨_, rfl, rfl, rfl⟩
  obtain ⟨s, hs, hevents, hepoll⟩ := hrun
  exact ⟨s, Machine.run_reach step allowed _ s _ hs rfl, hevents, hepoll⟩

end Polled

end MuServer
