import MuServer.TimerQueueKeys

/-!
# Whether the timer queue will be woken

The timerfd is set in two places: when a new timer comes first, and at the end
of each round of the loop of `reset`. A pass that finds nothing expired has no
such round. So the timers are watched over as long as no `handleRead` reads a
time before all of them while the timerfd is not set.
-/

set_option autoImplicit false

namespace MuServer

open Lib Lib.Fallible

namespace TimerQueue

def Watched (s : TimerQueue) : Prop :=
  s.timers_.items = [] ∨ s.it_value ≠ {} ∨ 0 < s.expirations

def passFinds (s : TimerQueue) : Act → Bool
  | .handleRead now =>
    s.it_value ≠ {} ∨ s.timers_.items = [] ∨ s.timers_.items.any (·.first ≤ now)
  | _ => true

theorem resetTimerFd_arms (s : TimerQueue) (expiration clock : TimeStamp) :
    Ends (fun _ => True) (s.resetTimerFd expiration clock)
      (fun t => t.Watched ∧ t.control = s.control) := by
  unfold resetTimerFd
  dsimp only
  split
  · apply ends_ok
    refine ⟨Or.inr (Or.inl fun hzero => ?_), rfl⟩
    -- at least a hundred microseconds are left, so one of the two parts is not zero
    rw [Timespec.mk.injEq, kMicroSecondsPerSecond] at hzero
    split at hzero <;> omega
  · exact ends_error _ _ _ trivial

theorem resetEarliest_watched (s : TimerQueue) (clock : TimeStamp) :
    Ends (fun _ => True) (s.resetEarliest clock)
      (fun t => t.Watched ∧ t.control = s.control) := by
  unfold resetEarliest
  cases hleast : s.timers_.least with
  | none =>
    apply ends_ok
    exact ⟨Or.inl (List.head?_eq_none_iff.mp hleast), rfl⟩
  | some e =>
    apply ends_bind_any
    intro timer
    exact resetTimerFd_arms s timer.expiration_ clock

/-- A timer that is not the first of all is watched over like the first. -/
theorem addTimerInLoop_watched (s : TimerQueue) (p : ℕ) (clock : TimeStamp) :
    Ends (fun _ => True) (s.addTimerInLoop p clock)
      (fun t => (s.Watched → t.Watched) ∧ t.control = s.control) := by
  have hinsert : Ends (fun _ => True) (s.insert p) (fun r => r.2.control = s.control
      ∧ (r.1 = false → s.Watched → r.2.Watched)) := by
    apply ends_bind_any
    intro timer
    refine ends_ok _ _ _ ⟨rfl, fun hfirst hwatched => ?_⟩
    rcases hwatched with hempty | harmed
    · simp [OrderedSet.least, hempty] at hfirst
    · exact Or.inr harmed
  apply ends_bind _ hinsert
  rintro ⟨earliestChanged, t⟩ ⟨hcontrol, hkept⟩
  cases earliestChanged with
  | false => exact ends_ok _ _ _ ⟨hkept rfl, hcontrol⟩
  | true =>
    apply ends_bind_any
    intro timer
    apply ends_mono (resetTimerFd_arms t timer.expiration_ clock) (fun _ hf => hf)
    rintro u ⟨hwatched, hu⟩
    exact ⟨fun _ => hwatched, hu.trans hcontrol⟩

def Attended (s : TimerQueue) : Prop := s.control.batch = [] → s.Watched

theorem attempt_attended (s : TimerQueue) (r : Except Fault TimerQueue) (h : s.Attended)
    (hr : Ends (fun _ => True) r Attended) : (s.attempt r).Attended := by
  cases r with
  | ok t => exact hr
  | error f => exact h

theorem handleRead_attended (s : TimerQueue) (hk : s.Keys) (now : TimeStamp)
    (hfinds : s.passFinds (.handleRead now) = true) : (s.handleRead now).Attended := by
  simp only [passFinds, Bool.decide_or, Bool.or_eq_true, decide_eq_true_eq, List.any_eq_true]
    at hfinds
  intro hbatch
  rcases hfinds with harmed | hempty | ⟨e, he, hdue⟩
  · exact Or.inr (Or.inl harmed)
  · left
    simp [handleRead, getExpired, OrderedSet.fromBound, hempty]
  · -- an entry that is due would be in the batch
    have hmem : e ∈ s.timers_.below ⟨now, UINTPTR_MAX⟩ :=
      (OrderedSet.mem_below _ _ _).mpr ⟨he, (hk.due now e he).mpr hdue⟩
    rw [show s.timers_.below ⟨now, UINTPTR_MAX⟩ = [] from hbatch] at hmem
    exact absurd hmem List.not_mem_nil

theorem callNext_attended (s : TimerQueue) (h : s.Attended) (pass : Pass)
    (done rest : List Entry) (hcontrol : s.control = .calling pass done rest) :
    Ends (fun _ => True) (s.callNext pass done rest) Attended := by
  cases rest with
  | nil =>
    apply ends_ok
    intro hdone
    exact h (by simpa [hcontrol, Control.batch] using hdone)
  | cons e rest =>
    apply ends_bind_any
    intro timer
    apply ends_ok
    intro hbatch
    simp [Control.batch] at hbatch

theorem resetNext_attended (s : TimerQueue) (h : s.Attended) (now clock : TimeStamp)
    (rest : List Entry) (hcontrol : s.control = .resetting now rest) :
    Ends (fun _ => True) (s.resetNext now clock rest) Attended := by
  cases rest with
  | nil => exact ends_ok _ _ _ (fun _ => h (by rw [hcontrol, Control.batch]))
  | cons e rest =>
    apply ends_bind_any
    intro t
    apply ends_mono (resetEarliest_watched _ clock) (fun _ hf => hf)
    rintro u ⟨hwatched, -⟩ -
    exact hwatched

theorem step_attended (s : TimerQueue) (hk : s.Keys) (h : s.Attended) (a : Act)
    (hfinds : s.passFinds a = true) (t : TimerQueue) (ht : s.step a = some t) : t.Attended := by
  unfold step at ht
  split at ht
  · simp at ht
  · cases a with
    | addTimer p when_ interval clock =>
      dsimp only at ht
      split at ht
      · obtain rfl := Option.some.inj ht
        apply attempt_attended _ _ h
        apply ends_mono (addTimerInLoop_watched _ p clock) (fun _ hf => hf)
        rintro t ⟨hwatched, hcontrol⟩ hbatch
        rw [hcontrol] at hbatch
        exact hwatched (h hbatch)
      · simp at ht
    | handleRead now =>
      dsimp only at ht
      split at ht
      · obtain rfl := Option.some.inj ht
        exact handleRead_attended s hk now hfinds
      · simp at ht
    | exec clock =>
      dsimp only at ht
      split at ht
      · obtain rfl := Option.some.inj ht
        exact attempt_attended _ _ h (callNext_attended s h _ _ _ ‹_›)
      · obtain rfl := Option.some.inj ht
        exact attempt_attended _ _ h (resetNext_attended s h _ clock _ ‹_›)
      · simp at ht
    | returns =>
      dsimp only at ht
      split at ht
      · obtain rfl := Option.some.inj ht
        have hcontrol : s.control = .inCallback _ _ _ := ‹_›
        intro hbatch
        exact h (by rw [hcontrol]; exact hbatch)
      · simp at ht
    | expires =>
      dsimp only at ht
      split at ht
      · simp at ht
      · obtain rfl := Option.some.inj ht
        intro _
        exact Or.inr (Or.inr (Nat.succ_pos _))

abbrev Punctual (s : TimerQueue) : Prop :=
  Machine.Reach step (fun s a => s.passFinds a = true) {} s

theorem punctual_attended (s : TimerQueue) (h : s.Punctual) : s.Keys ∧ s.Attended := by
  apply Machine.reach_invariant step _ {} (fun s => s.Keys ∧ s.Attended) _ _ s h
  · exact ⟨Filed.empty, fun _ => Or.inl rfl⟩
  · rintro s a t ⟨hk, hattended⟩ hfinds ht
    exact ⟨turn_keys s t hk (step_turn s hk a t ht), step_attended s hk hattended a hfinds t ht⟩

/-- No timer is left behind: the timerfd is armed, or has expired and is yet to be read. -/
theorem punctual_armed (s : TimerQueue) (h : s.Punctual) (hidle : s.control = .idle)
    (htimers : s.timers_.items ≠ []) : s.it_value ≠ {} ∨ 0 < s.expirations := by
  have hbatch : s.control.batch = [] := by rw [hidle, Control.batch]
  rcases (punctual_attended s h).2 hbatch with hempty | harmed
  · exact absurd hempty htimers
  · exact harmed

def firstOfTwo : List Act :=
  [.addTimer 1 ⟨1000⟩ 0 ⟨0⟩, .addTimer 2 ⟨5000⟩ 0 ⟨0⟩, .expires, .handleRead ⟨1000⟩,
    .exec ⟨1000⟩, .returns, .exec ⟨1000⟩, .exec ⟨1000⟩, .exec ⟨1000⟩]

theorem punctual_armed_second : ∃ s : TimerQueue, s.called = [0] ∧ s.timers_.items = [⟨⟨5000⟩, 2⟩]
    ∧ (s.it_value ≠ {} ∨ 0 < s.expirations) := by
  have hrun : ∃ s, Machine.run step {} firstOfTwo = some s
      ∧ Machine.runMeets step passFinds {} firstOfTwo = true
      ∧ s.control = .idle ∧ s.called = [0] ∧ s.timers_.items = [⟨⟨5000⟩, 2⟩] := by
    simp [firstOfTwo, Machine.run, Machine.runMeets, step, passFinds, free, Control.outside,
      attempt, UINTPTR_MAX, addTimer, addTimerInLoop, insert, deref, resetTimerFd, handleRead,
      getExpired, callNext, resetNext, resetEntry, resetEarliest, Timer.create, Entry.lt_iff,
      OrderedSet.empty, OrderedSet.least, OrderedSet.emplace, OrderedSet.insertItem,
      OrderedSet.below, OrderedSet.fromBound, bind, Except.bind, pure, Except.pure,
      kMicroSecondsPerSecond, TimeStamp.lt_iff, TimeStamp.le_iff]
  obtain ⟨s, hs, hmeets, hidle, hcalled, htimers⟩ := hrun
  have hreach := Machine.run_reach step passFinds {} s _ hs hmeets
  exact ⟨s, hcalled, htimers, punctual_armed s hreach hidle (by simp [htimers])⟩

theorem below_nil (timers : OrderedSet Entry) (now : TimeStamp)
    (h : ∀ e ∈ timers.items, ¬ e.first ≤ now) : timers.below ⟨now, UINTPTR_MAX⟩ = [] := by
  apply List.eq_nil_iff_forall_not_mem.mpr
  intro e he
  have hlt := timers.mem_below_lt _ e he
  rw [Entry.lt_iff] at hlt
  apply h e ((OrderedSet.mem_below _ _ _).mp he).1
  rcases hlt with hlt | ⟨heq, -⟩
  · exact le_of_lt hlt
  · exact le_of_eq heq

/-- A pass that finds nothing while the timerfd is not set leaves the timers behind. -/
theorem handleRead_strands (s : TimerQueue) (hfault : s.fault = none) (hidle : s.control = .idle)
    (now clock : TimeStamp) (hfinds : s.passFinds (.handleRead now) = false) :
    ∃ t, Machine.run step s [.handleRead now, .exec clock, .exec clock] = some t
      ∧ t.control = .idle ∧ t.timers_.items ≠ [] ∧ t.it_value = {} ∧ t.expirations = 0 := by
  simp only [passFinds, decide_eq_false_iff_not, not_or, List.any_eq_true, decide_eq_true_eq,
    not_exists, not_and, not_not] at hfinds
  obtain ⟨hunarmed, htimers, hlate⟩ := hfinds
  have hbelow := below_nil s.timers_ now hlate
  have hkept : (s.timers_.fromBound ⟨now, UINTPTR_MAX⟩).items = s.timers_.items := by
    have happend := s.timers_.below_append ⟨now, UINTPTR_MAX⟩
    rwa [hbelow, List.nil_append] at happend
  refine ⟨{ s.handleRead now with
    callingExpiredTimers := false
    control := .idle
    passes := s.passes ++ [⟨now, s.heap, []⟩] }, ?_, rfl, ?_, hunarmed, rfl⟩
  · simp [Machine.run, step, hfault, hidle, handleRead, getExpired, hbelow, callNext, resetNext,
      attempt]
  · exact fun hempty => htimers (hkept.symm.trans hempty)

/-- The wall clock has stepped back by a microsecond when the timerfd is read. -/
theorem handleRead_steps_back : ¬ ∀ s : TimerQueue, s.Reached → s.control = .idle →
    s.timers_.items ≠ [] → s.it_value ≠ {} ∨ 0 < s.expirations := by
  intro h
  have hrun : ∃ s, Machine.run step {}
      [.addTimer 1 ⟨1000⟩ 0 ⟨0⟩, .expires, .handleRead ⟨999⟩, .exec ⟨999⟩, .exec ⟨999⟩] = some s
      ∧ s.control = .idle ∧ s.timers_.items = [⟨⟨1000⟩, 1⟩] ∧ s.it_value = {}
      ∧ s.expirations = 0 := by
    simp [Machine.run, step, free, Control.outside, attempt, UINTPTR_MAX, addTimer,
      addTimerInLoop, insert, deref, resetTimerFd, handleRead, getExpired, callNext, resetNext,
      Timer.create, Entry.lt_iff, OrderedSet.empty, OrderedSet.least, OrderedSet.emplace,
      OrderedSet.insertItem, OrderedSet.below, OrderedSet.fromBound, bind, Except.bind, pure,
      Except.pure, kMicroSecondsPerSecond, TimeStamp.lt_iff]
  obtain ⟨s, hs, hidle, htimers, hunarmed, hread⟩ := hrun
  have hreached := Machine.run_reach_any step {} s _ hs
  rcases h s hreached hidle (by simp [htimers]) with harmed | hexpired
  · exact harmed hunarmed
  · omega

end TimerQueue

end MuServer
