import MuServer.TimerQueueLedger

/-!
# Runs of the timer queue

A pass over the expired timers is compared with the timers that lived when it
began. Over whole runs the entries are current, every pass runs what is due,
no timer is lost, and a repeating timer stays on its schedule for as long as
whole microseconds are doubles.
-/

set_option autoImplicit false

namespace MuServer

open Lib

structure Pass.Complete (pass : Pass) : Prop where
  due : ∀ timer, timer ∈ pass.ran ↔
    timer.expiration_ ≤ pass.now ∧ ∃ p, pass.before p = some timer
  once : (pass.ran.map Timer.callback_).Nodup
  ordered : pass.ran.Pairwise (fun a b => a.expiration_ ≤ b.expiration_)

/-- The batch of a pass on its way: it is what was due, what has been called
is its front, and the timers of the rest are as they were. -/
structure Passing (heap : ℕ → Option Timer) (pass : Pass) (done rest : List Entry) : Prop where
  due : ∀ e, e ∈ done++rest ↔
    e.first ≤ pass.now ∧ ∃ timer, pass.before e.second = some timer ∧ timer.expiration_ = e.first
  named : Named pass.before
  ran : pass.ran = done.filterMap (fun e => pass.before e.second)
  same : ∀ e ∈ rest, heap e.second = pass.before e.second

theorem passing_current (heap : ℕ → Option Timer) (pass : Pass) (done rest : List Entry)
    (h : Passing heap pass done rest) (e : Entry) (he : e ∈ done) (timer : Timer)
    (hp : pass.before e.second = some timer) :
    timer.expiration_ = e.first ∧ e.first ≤ pass.now := by
  obtain ⟨hnow, timer', hp', hexp⟩ := (h.due e).mp (List.mem_append_left rest he)
  rw [hp] at hp'
  obtain rfl := Option.some.inj hp'
  exact ⟨hexp, hnow⟩

theorem passing_complete (heap : ℕ → Option Timer) (pass : Pass) (done : List Entry)
    (h : Passing heap pass done []) (hincreasing : done.Pairwise (· < ·)) : pass.Complete where
  due := by
    intro timer
    rw [h.ran, List.mem_filterMap]
    constructor
    · rintro ⟨e, he, hp⟩
      obtain ⟨hexp, hnow⟩ := passing_current heap pass done [] h e he timer hp
      exact ⟨hexp ▸ hnow, e.second, hp⟩
    · rintro ⟨hnow, p, hp⟩
      refine ⟨⟨timer.expiration_, p⟩, ?_, hp⟩
      have he := (h.due ⟨timer.expiration_, p⟩).mpr ⟨hnow, timer, hp, rfl⟩
      simpa using he
  once := by
    rw [List.Nodup, List.pairwise_map, h.ran, List.pairwise_filterMap]
    refine hincreasing.imp_of_mem ?_
    rintro d e hd he hlt a ha b hb hname
    have hsecond := h.named _ _ a b ha hb hname
    have hexp : d.first = e.first := by
      rw [← (passing_current heap pass done [] h d hd a ha).1,
        ← (passing_current heap pass done [] h e he b hb).1]
      rw [hsecond, hb] at ha
      rw [Option.some.inj ha]
    rw [Entry.lt_iff, hsecond, hexp] at hlt
    simp at hlt
  ordered := by
    rw [h.ran, List.pairwise_filterMap]
    refine hincreasing.imp_of_mem ?_
    rintro d e hd he hlt a ha b hb
    rw [(passing_current heap pass done [] h d hd a ha).1,
      (passing_current heap pass done [] h e he b hb).1]
    rcases (Entry.lt_iff d e).mp hlt with hfirst | ⟨hfirst, -⟩
    · exact hfirst.le
    · exact hfirst.le

namespace TimerQueue

def Control.Passing (heap : ℕ → Option Timer) : Control → Prop
  | .calling pass done rest | .inCallback pass done rest => MuServer.Passing heap pass done rest
  | .idle | .resetting _ _ => True

structure Passes (s : TimerQueue) : Prop where
  complete : ∀ pass ∈ s.passes, pass.Complete
  passing : s.control.Passing s.heap

theorem passing_adds (c : Control) (heap : ℕ → Option Timer) (timers : OrderedSet Entry)
    (hk : Filed timers c.batch heap) (h : c.Passing heap) (p : ℕ) (hfree : heap p = none)
    (timer : Timer) : c.Passing (Function.update heap p (some timer)) := by
  cases c with
  | idle | resetting => trivial
  | calling pass done rest | inCallback pass done rest =>
    refine ⟨h.due, h.named, h.ran, fun e he => ?_⟩
    obtain ⟨timer', hp, -⟩ := hk.living e (Or.inr (List.mem_append_right done he))
    have hne : e.second ≠ p := fun heq => by simp [heq, hfree] at hp
    rw [Function.update_of_ne hne]
    exact h.same e he

theorem passing_begins (timers : OrderedSet Entry) (heap : ℕ → Option Timer)
    (hk : Filed timers [] heap) (hn : Named heap) (now : TimeStamp) :
    Passing heap ⟨now, heap, []⟩ [] (timers.below ⟨now, UINTPTR_MAX⟩) where
  due := by
    intro e
    rw [List.nil_append, OrderedSet.mem_below, ← hk.entry]
    constructor
    · rintro ⟨hmem, hlt⟩
      exact ⟨(hk.due now e hmem).mp hlt, Or.inl hmem⟩
    · rintro ⟨hnow, hmem | hmem⟩
      · exact ⟨hmem, (hk.due now e hmem).mpr hnow⟩
      · exact absurd hmem List.not_mem_nil
  named := hn
  ran := rfl
  same := fun _ _ => rfl

theorem passing_calls (heap : ℕ → Option Timer) (pass : Pass) (done rest : List Entry)
    (e : Entry) (timer : Timer) (h : Passing heap pass done (e::rest))
    (hp : heap e.second = some timer) :
    Passing heap { pass with ran := pass.ran ++ [timer] } (done++[e]) rest where
  due := by
    intro d
    rw [List.append_assoc]
    exact h.due d
  named := h.named
  ran := by
    rw [List.filterMap_append, ← h.ran]
    simp [← h.same e List.mem_cons_self, hp]
  same := fun d hd => h.same d (List.mem_cons_of_mem e hd)

theorem turn_passes (s t : TimerQueue) (hk : s.Keys) (hl : s.Ledger) (h : s.Passes)
    (hturn : Turn s t) : t.Passes := by
  have hpassing := h.passing
  unfold Keys at hk
  cases hturn with
  | fails | expires => exact ⟨h.complete, h.passing⟩
  | adds p when_ interval v n hfree =>
    exact ⟨h.complete, passing_adds s.control s.heap s.timers_ hk h.passing p hfree _⟩
  | begins now hcontrol =>
    rw [hcontrol] at hk
    exact ⟨h.complete, passing_begins s.timers_ s.heap hk hl.named now⟩
  | calls pass done rest e timer hcontrol hp =>
    rw [hcontrol] at hpassing
    exact ⟨h.complete, passing_calls s.heap pass done rest e timer hpassing hp⟩
  | ends pass done hcontrol =>
    rw [hcontrol] at hpassing hk
    have hdone := passing_complete s.heap pass done hpassing (by simpa [Control.batch]
      using hk.increasing)
    refine ⟨fun pass' hmem => ?_, trivial⟩
    rcases List.mem_append.mp hmem with hold | hnew
    · exact h.complete pass' hold
    · obtain rfl := List.mem_singleton.mp hnew
      exact hdone
  | returns pass done rest hcontrol =>
    rw [hcontrol] at hpassing
    exact ⟨h.complete, hpassing⟩
  | restarts | deletes | closes => exact ⟨h.complete, trivial⟩

structure Sound (s : TimerQueue) : Prop where
  keys : s.Keys
  ledger : s.Ledger
  passes : s.Passes

theorem start_sound : Sound {} where
  keys := Filed.empty
  ledger := {
    made := by simp
    named := fun p q timer timer' hp => by simp at hp
    kept := by simp
    fresh := by simp }
  passes := ⟨by simp, trivial⟩

theorem reach_sound (s : TimerQueue) (h : s.Reached) : s.Sound := by
  refine Machine.reach_invariant step (fun _ _ => True) {} Sound start_sound ?_ s h
  intro s a t hs _ ht
  have hturn := step_turn s hs.keys a t ht
  exact ⟨turn_keys s t hs.keys hturn, turn_ledger s t hs.keys hs.ledger hturn,
    turn_passes s t hs.keys hs.ledger hs.passes hturn⟩

/-- The queue never follows a stale pointer: no run fails but by a conversion
or a difference outside of `int64_t`. -/
theorem reach_fault (s : TimerQueue) (h : s.Reached) (f : Fault) (hf : s.fault = some f) :
    f = .overflow := by
  induction h with
  | refl => simp at hf
  | next s a t hs _ ht ih =>
    have hnone : s.fault = none := by
      unfold step at ht
      split at ht
      · simp at ht
      · exact Option.not_isSome_iff_eq_none.mp ‹_›
    cases step_turn s (reach_sound s hs).keys a t ht with
    | fails => exact (Option.some.inj hf).symm
    | begins => exact absurd (hnone.symm.trans hf) (by simp)
    | adds | calls | ends | returns | restarts | deletes | closes | expires =>
      exact absurd (hnone.symm.trans hf) (by simp)

/-- Every entry is current, and every living timer has exactly one, in the set
or in the batch being run. -/
structure Current (s : TimerQueue) : Prop where
  entry : ∀ e ∈ s.timers_, ∃ timer, s.heap e.second = some timer ∧ timer.expiration_ = e.first
  single : ∀ p timer, s.heap p = some timer →
    (∃! e, e ∈ s.timers_ ∧ e.second = p)
      ∨ ((∃ e ∈ s.control.batch, e.second = p) ∧ ∀ e ∈ s.timers_, e.second ≠ p)

/-- A one-shot timer is called at most once, and it is filed until a pass
takes it out to call it. -/
structure OneShot (s : TimerQueue) (n : ℕ) (when_ : TimeStamp) : Prop where
  once : s.called.count n ≤ 1
  filed : s.called.count n = 0 → ∃ p timer, s.heap p = some timer ∧ timer.callback_ = n
    ∧ (⟨when_, p⟩ ∈ s.timers_ ∨ ⟨when_, p⟩ ∈ s.control.waiting)

/-- A repeating timer lives, and it is filed under the expiration that its
calls so far lead to; within a pass, its last call may not be counted yet. -/
def Repeating (s : TimerQueue) (n : ℕ) (when_ : TimeStamp) (interval : ℚ) : Prop :=
  ∃ p timer k, s.heap p = some timer ∧ timer.callback_ = n
    ∧ Scheduled when_ interval k timer.expiration_
    ∧ (∀ m : ℤ, when_.Whole interval m → when_.Exact →
      TimeStamp.Exact ⟨when_.microsecondsSinceEpoch_+k*m⟩ →
      timer.expiration_ = ⟨when_.microsecondsSinceEpoch_+k*m⟩)
    ∧ ((s.called.count n = k
        ∧ (⟨timer.expiration_, p⟩ ∈ s.timers_ ∨ ⟨timer.expiration_, p⟩ ∈ s.control.waiting))
      ∨ (s.called.count n = k+1 ∧ ⟨timer.expiration_, p⟩ ∈ s.control.done))

theorem sound_current (s : TimerQueue) (h : s.Sound) : s.Current where
  entry := fun e he => h.keys.living e (Or.inl he)
  single := by
    intro p timer hp
    have hentry := (h.keys.entry ⟨timer.expiration_, p⟩).mpr ⟨timer, hp, rfl⟩
    rcases hentry with hmem | hmem
    · refine Or.inl ⟨_, ⟨hmem, rfl⟩, ?_⟩
      rintro e ⟨he, hsecond⟩
      exact h.keys.unique e _ (Or.inl he) (Or.inl hmem) hsecond
    · refine Or.inr ⟨⟨_, hmem, rfl⟩, fun e he hsecond => ?_⟩
      have heq := h.keys.unique e _ (Or.inl he) (Or.inr hmem) hsecond
      exact h.keys.apart _ hmem (heq ▸ he)

/-- Where the entry of a living timer is, and what that says of its calls. -/
theorem made_place (s : TimerQueue) (h : s.Sound) (p : ℕ) (timer : Timer) (when_ : TimeStamp)
    (interval : ℚ) (k : ℕ) (hp : s.heap p = some timer)
    (hm : Made s.added s.called s.control.done p timer when_ interval k) :
    (s.called.count timer.callback_ = k
        ∧ (⟨timer.expiration_, p⟩ ∈ s.timers_ ∨ ⟨timer.expiration_, p⟩ ∈ s.control.waiting))
      ∨ (s.called.count timer.callback_ = k+1 ∧ ⟨timer.expiration_, p⟩ ∈ s.control.done) := by
  have hcount := hm.counted
  by_cases hdone : (⟨timer.expiration_, p⟩ : Entry) ∈ s.control.done
  · rw [if_pos hdone] at hcount
    exact Or.inr ⟨hcount, hdone⟩
  · rw [if_neg hdone] at hcount
    have hentry := (h.keys.entry ⟨timer.expiration_, p⟩).mpr ⟨timer, hp, rfl⟩
    rw [batch_eq, List.mem_append] at hentry
    refine Or.inl ⟨hcount, ?_⟩
    rcases hentry with hmem | hmem | hmem
    · exact Or.inl hmem
    · exact absurd hmem hdone
    · exact Or.inr hmem

theorem sound_oneShot (s : TimerQueue) (h : s.Sound) (n : ℕ) (when_ : TimeStamp) (interval : ℚ)
    (hn : s.added[n]? = some (when_, interval)) (hinterval : ¬ 0 < interval) :
    s.OneShot n when_ := by
  rcases h.ledger.kept n when_ interval hn with ⟨p, timer, hp, rfl⟩ | ⟨-, hcount⟩
  · obtain ⟨w, i, k, hm⟩ := h.ledger.made p timer hp
    have hentered := hm.entered
    rw [hn] at hentered
    obtain ⟨rfl, rfl⟩ := Prod.mk.inj (Option.some.inj hentered)
    obtain ⟨rfl, hexp⟩ := scheduled_once _ _ _ _ hinterval hm.scheduled
    have hplace := made_place s h p timer when_ interval 0 hp hm
    rw [hexp] at hplace
    rcases hplace with ⟨hcount, hplace⟩ | ⟨hcount, -⟩
    · exact ⟨by omega, fun _ => ⟨p, timer, hp, rfl, hplace⟩⟩
    · exact ⟨by omega, fun hzero => by omega⟩
  · exact ⟨by omega, fun hzero => by omega⟩

theorem sound_repeating (s : TimerQueue) (h : s.Sound) (n : ℕ) (when_ : TimeStamp) (interval : ℚ)
    (hn : s.added[n]? = some (when_, interval)) (hinterval : 0 < interval) :
    s.Repeating n when_ interval := by
  rcases h.ledger.kept n when_ interval hn with ⟨p, timer, hp, rfl⟩ | ⟨honce, -⟩
  · obtain ⟨w, i, k, hm⟩ := h.ledger.made p timer hp
    have hentered := hm.entered
    rw [hn] at hentered
    obtain ⟨rfl, rfl⟩ := Prod.mk.inj (Option.some.inj hentered)
    refine ⟨p, timer, k, hp, rfl, hm.scheduled, ?_, made_place s h p timer when_ interval k hp hm⟩
    intro m hwhole hwhen hlast
    exact scheduled_whole when_ timer.expiration_ interval k m hwhole hwhen hlast hm.scheduled
  · exact absurd hinterval honce

def oneRound (when_ next : TimeStamp) (interval : ℚ) : List Act :=
  [.addTimer 1 when_ interval when_, .handleRead when_, .exec when_, .returns, .exec when_,
    .exec next, .exec next]

theorem oneRound_reached (when_ next : TimeStamp) (interval : ℚ) (hinterval : 0 < interval)
    (hnext : when_.add interval = .ok next) :
    ∃ s : TimerQueue, s.Reached ∧ s.control = .idle ∧ s.added = [(when_, interval)]
      ∧ s.called = [0]
      ∧ s.heap 1 = some { Timer.create 0 when_ interval with expiration_ := next } := by
  have hrun : ∃ s, Machine.run step {} (oneRound when_ next interval) = some s
      ∧ s.control = .idle ∧ s.added = [(when_, interval)] ∧ s.called = [0]
      ∧ s.heap 1 = some { Timer.create 0 when_ interval with expiration_ := next } := by
    simp [oneRound, Machine.run, step, free, Control.outside, attempt, UINTPTR_MAX, addTimer,
      addTimerInLoop, insert, deref, resetTimerFd, handleRead, getExpired, callNext, resetNext,
      resetEntry, resetEarliest, Timer.create, Timer.restart, Entry.lt_iff, OrderedSet.empty,
      OrderedSet.least, OrderedSet.emplace, OrderedSet.insertItem, OrderedSet.below,
      OrderedSet.fromBound, bind, Except.bind, pure, Except.pure, hinterval, hnext]
  obtain ⟨s, hs, hfinal⟩ := hrun
  exact ⟨s, Machine.run_reach_any step {} s _ hs, hfinal⟩

/-- The timers of a queue, over all of its runs. -/
theorem reach_timers (s : TimerQueue) (h : s.Reached) :
    s.Current ∧ (∀ pass ∈ s.passes, pass.Complete)
      ∧ ∀ (n : ℕ) when_ interval, s.added[n]? = some (when_, interval) →
        (¬ 0 < interval → s.OneShot n when_) ∧ (0 < interval → s.Repeating n when_ interval) := by
  have hs := reach_sound s h
  refine ⟨sound_current s hs, hs.passes.complete, fun n when_ interval hn => ⟨?_, ?_⟩⟩
  · exact sound_oneShot s hs n when_ interval hn
  · exact sound_repeating s hs n when_ interval hn

theorem reach_timers_second : ∃ s : TimerQueue, s.called = [0] ∧ s.Current
    ∧ (∀ pass ∈ s.passes, pass.Complete) ∧ s.Repeating 0 ⟨0⟩ 1 := by
  have hnext := TimeStamp.add_whole ⟨0⟩ 1 kMicroSecondsPerSecond (Or.inl TimeStamp.scaled_second)
    (by decide) (by decide)
  obtain ⟨s, hs, -, hadded, hcalled, -⟩ := oneRound_reached _ _ 1 (by norm_num) hnext
  obtain ⟨hcurrent, hpasses, htimers⟩ := reach_timers s hs
  exact ⟨s, hcalled, hcurrent, hpasses, (htimers 0 ⟨0⟩ 1 (by rw [hadded]; rfl)).2 (by norm_num)⟩

/-- A second from 2^53+1 microseconds on is not a million microseconds later. -/
theorem repeating_off_schedule : ¬ ∀ s : TimerQueue, s.Reached → s.control = .idle →
    ∀ p timer when_ (m : ℤ), s.heap p = some timer →
      s.added[timer.callback_]? = some (when_, (m : ℚ)/kMicroSecondsPerSecond) →
      timer.expiration_ = ⟨when_.microsecondsSinceEpoch_+s.called.count timer.callback_*m⟩ := by
  intro h
  obtain ⟨s, hs, hidle, hadded, hcalled, hp⟩ :=
    oneRound_reached _ _ 1 (by norm_num) TimeStamp.add_inexact
  have hexp := h s hs hidle 1 _ ⟨2^53+1⟩ kMicroSecondsPerSecond hp
    (by rw [hadded]; simp [Timer.create, kMicroSecondsPerSecond])
  rw [hcalled] at hexp
  exact absurd hexp (by decide)

end TimerQueue

end MuServer
