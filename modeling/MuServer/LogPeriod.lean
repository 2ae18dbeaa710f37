import MuServer.LogFile

/-!
# The periodic check of the log file

The floor of a day, `now * kRollPerSeconds_ / kRollPerSeconds_`, is `now`: a
period is a second. So the check rolls whenever a second has gone by since the
last roll, whatever the day, and the branch that flushes waits for a reading
in the second of the last roll.
-/

set_option autoImplicit false

namespace MuServer

open Lib

namespace LogFile

def day (now : ℤ) : ℤ := now / kRollPerSeconds_

def checks (log : LogFile) : Bool := log.checkEveryN_ ≤ log.count_+1

/-- What the check with the reading `now` is for, `t` being what it leaves. -/
structure ChecksDaily (log : LogFile) (now : ℤ) (t : LogFile) : Prop where
  rolls : t.rolls = log.rolls+1 ↔ day now ≠ day log.lastRoll_
  flushes : day now = day log.lastRoll_ → log.flushInterval_ < now-log.lastFlush_ →
    t.flushes = log.flushes+1

structure Timed where
  log : LogFile
  latest : ℤ
  appends : ℕ := 0

def latestReading (log : LogFile) (latest : ℤ) (a : Append) : ℤ :=
  if log.checks then
    if period a.clock.check ≠ log.startOfPeriod_ then a.clock.name else a.clock.check
  else latest

def timedStep (fwrite : Bytes → ℕ × Bool) (s : Timed) (a : Append) : Option Timed :=
  (step fwrite s.log a).map (fun t =>
    { log := t, latest := latestReading s.log s.latest a, appends := s.appends+1 })

structure Steady (fwrite : Bytes → ℕ × Bool) (s : Timed) (a : Append) : Prop where
  below : ∀ file r, s.log.file_ = some file → file.append fwrite a.logline = .ok r →
    r.1.writenBytes_ ≤ s.log.rollSize_
  check : s.log.checks = true → s.latest ≤ a.clock.check
  roll : s.log.checks = true → period a.clock.check ≠ s.log.startOfPeriod_ →
    a.clock.check ≤ a.clock.roll ∧ a.clock.roll ≤ a.clock.name

theorem period_eq (now : ℤ) : period now = now := Int.mul_tdiv_cancel now (by decide)

theorem count_cases (log : LogFile) (clock : Clock) :
    (log.checks = false ∧ log.count clock = { log with count_ := log.count_+1 })
      ∨ (log.checks = true ∧ clock.check ≠ log.startOfPeriod_ ∧ log.lastRoll_ < clock.name ∧
        log.count clock = { log with
          count_ := 0
          lastRoll_ := clock.name
          lastFlush_ := clock.name
          startOfPeriod_ := clock.name
          file_ := some { filename := log.basename_ }
          rolls := log.rolls+1 })
      ∨ (log.checks = true ∧ clock.check ≠ log.startOfPeriod_ ∧ ¬ log.lastRoll_ < clock.name ∧
        log.count clock = { log with count_ := 0 })
      ∨ (log.checks = true ∧ clock.check = log.startOfPeriod_ ∧
        log.flushInterval_ < clock.check-log.lastFlush_ ∧
        log.count clock = { log with
          count_ := 0, flushes := log.flushes+1, lastFlush_ := clock.check })
      ∨ (log.checks = true ∧ clock.check = log.startOfPeriod_ ∧
        ¬ log.flushInterval_ < clock.check-log.lastFlush_ ∧
        log.count clock = { log with count_ := 0 }) := by
  unfold count check rollFile
  simp only [period_eq]
  by_cases hchecks : log.checkEveryN_ ≤ log.count_+1
  · have htrue : log.checks = true := by simpa [checks] using hchecks
    rw [if_pos hchecks]
    by_cases hperiod : clock.check = log.startOfPeriod_
    · by_cases hflush : log.flushInterval_ < clock.check-log.lastFlush_
      · right; right; right; left
        rw [if_neg (not_not.mpr hperiod), if_pos hflush]
        exact ⟨htrue, hperiod, hflush, rfl⟩
      · right; right; right; right
        rw [if_neg (not_not.mpr hperiod), if_neg hflush]
        exact ⟨htrue, hperiod, hflush, rfl⟩
    · by_cases hlater : log.lastRoll_ < clock.name
      · right; left
        rw [if_pos hperiod, if_pos hlater]
        exact ⟨htrue, hperiod, hlater, rfl⟩
      · right; right; left
        rw [if_pos hperiod, if_neg hlater]
        exact ⟨htrue, hperiod, hlater, rfl⟩
  · left
    rw [if_neg hchecks]
    exact ⟨by simpa [checks] using hchecks, rfl⟩

/-- Below the limit an append writes, counts and does nothing else. -/
theorem step_below (fwrite : Bytes → ℕ × Bool) (s : Timed) (a : Append) (t : LogFile)
    (h : Steady fwrite s a) (ht : step fwrite s.log a = some t) :
    ∃ file put, s.log.file_ ≠ none ∧ t = (s.log.wrote file put).count a.clock := by
  unfold step append_unlocked at ht
  cases hopen : s.log.file_ with
  | none => simp [hopen] at ht
  | some file =>
    cases happend : file.append fwrite a.logline with
    | error f => simp [hopen, happend, Except.map] at ht
    | ok r =>
      have hbelow : ¬ (s.log.wrote r.1 r.2).rollSize_ < r.1.writenBytes_ :=
        not_lt.mpr (h.below file r hopen happend)
      simp only [hopen, happend, Except.map, if_neg hbelow, Option.some.injEq] at ht
      exact ⟨r.1, r.2, by simp, ht.symm⟩

theorem timedStep_open (fwrite : Bytes → ℕ × Bool) (s t : Timed) (a : Append)
    (h : Steady fwrite s a) (ht : timedStep fwrite s a = some t) : s.log.file_ ≠ none := by
  obtain ⟨log, hlog, -⟩ := Option.map_eq_some_iff.mp ht
  obtain ⟨-, -, hopen, -⟩ := step_below fwrite s a log h hlog
  exact hopen

structure Timely (s : Timed) : Prop where
  period : s.log.startOfPeriod_ = s.log.lastRoll_
  flushed : s.log.lastFlush_ = s.log.lastRoll_
  latest : s.log.lastRoll_ ≤ s.latest
  count : s.log.count_ = (s.appends : ℤ) % max 1 s.log.checkEveryN_
  idle : 0 ≤ s.log.flushInterval_ → s.log.flushes = 0

theorem emod_succ (k m : ℤ) (hm : 0 < m) :
    (k+1) % m = if m ≤ k % m+1 then 0 else k % m+1 := by
  have hnonneg := Int.emod_nonneg k hm.ne'
  have hlt := Int.emod_lt_of_pos k hm
  have hsplit : k+1 = k % m+1+m*(k/m) := by
    have hdiv := Int.emod_add_mul_ediv k m
    omega
  rw [hsplit, Int.add_mul_emod_self_left]
  split
  · rw [show k % m+1 = m by omega, Int.emod_self]
  · exact Int.emod_eq_of_lt (by omega) (by omega)

theorem checks_le (s : Timed) (h : Timely s) :
    s.log.checks = true ↔
      max 1 s.log.checkEveryN_ ≤ (s.appends : ℤ) % max 1 s.log.checkEveryN_+1 := by
  have hnonneg := Int.emod_nonneg (s.appends : ℤ) (show max 1 s.log.checkEveryN_ ≠ 0 by omega)
  simp only [checks, h.count, decide_eq_true_eq]
  omega

/-- The check is made by every `checkEveryN_`-th append, by each one when that
is not positive. -/
theorem checks_iff (s : Timed) (h : Timely s) :
    s.log.checks = true ↔ max 1 s.log.checkEveryN_ ∣ ((s.appends+1 : ℕ) : ℤ) := by
  have hsucc := emod_succ (s.appends : ℤ) (max 1 s.log.checkEveryN_) (by omega)
  have hnonneg := Int.emod_nonneg (s.appends : ℤ) (show max 1 s.log.checkEveryN_ ≠ 0 by omega)
  rw [checks_le s h, Int.dvd_iff_emod_eq_zero, Nat.cast_succ, hsucc]
  split <;> omega

/-- The counter after an append that makes the check and after one that does not. -/
theorem count_next (s : Timed) (h : Timely s) :
    ((s.appends+1 : ℕ) : ℤ) % max 1 s.log.checkEveryN_
      = if s.log.checks = true then 0 else s.log.count_+1 := by
  rw [Nat.cast_succ, emod_succ _ _ (by omega), ← h.count]
  have hle := checks_le s h
  rw [← h.count] at hle
  simp only [hle]

/-- One append in a run. The readings leave no room for a check that wants to
roll and cannot, and a check that does not roll is made in the second of the
last roll and flush. -/
theorem timedStep_cases (fwrite : Bytes → ℕ × Bool) (s t : Timed) (a : Append) (h : Timely s)
    (hsteady : Steady fwrite s a) (ht : timedStep fwrite s a = some t) : ∃ file put,
    (s.log.checks = false ∧
      t = { log := { s.log.wrote file put with count_ := s.log.count_+1 }
            latest := s.latest, appends := s.appends+1 })
    ∨ (s.log.checks = true ∧ a.clock.check ≠ s.log.lastRoll_ ∧
      t = { log := { s.log.wrote file put with
              count_ := 0
              lastRoll_ := a.clock.name
              lastFlush_ := a.clock.name
              startOfPeriod_ := a.clock.name
              file_ := some { filename := s.log.basename_ }
              rolls := s.log.rolls+1 }
            latest := a.clock.name, appends := s.appends+1 })
    ∨ (s.log.checks = true ∧ a.clock.check = s.log.lastRoll_ ∧ s.log.flushInterval_ < 0 ∧
      t = { log := { s.log.wrote file put with
              count_ := 0, flushes := s.log.flushes+1, lastFlush_ := a.clock.check }
            latest := a.clock.check, appends := s.appends+1 })
    ∨ (s.log.checks = true ∧ a.clock.check = s.log.lastRoll_ ∧ 0 ≤ s.log.flushInterval_ ∧
      t = { log := { s.log.wrote file put with count_ := 0 }
            latest := a.clock.check, appends := s.appends+1 }) := by
  obtain ⟨log, hlog, rfl⟩ := Option.map_eq_some_iff.mp ht
  obtain ⟨file, put, -, rfl⟩ := step_below fwrite s a log hsteady hlog
  have hperiod := h.period
  have hflushed := h.flushed
  have hlatest := h.latest
  refine ⟨file, put, ?_⟩
  unfold latestReading
  rw [period_eq, hperiod]
  rcases count_cases (s.log.wrote file put) a.clock with ⟨hchecks, heq⟩ |
    ⟨hchecks, hother, -, heq⟩ | ⟨hchecks, hother, hearly, -⟩ | ⟨hchecks, hsame, hflush, heq⟩ |
    ⟨hchecks, hsame, hflush, heq⟩ <;> change s.log.checks = _ at hchecks
  · left
    rw [heq, hchecks]
    exact ⟨rfl, rfl⟩
  · change a.clock.check ≠ s.log.startOfPeriod_ at hother
    rw [hperiod] at hother
    right; left
    rw [heq, if_pos hchecks, if_pos hother]
    exact ⟨hchecks, hother, rfl⟩
  · -- the reading of the check is the last roll's, or the roll's reading is later
    have hcheck := hsteady.check hchecks
    obtain ⟨hroll, hname⟩ := hsteady.roll hchecks (by rwa [period_eq])
    simp only [wrote] at hother hearly
    omega
  · change a.clock.check = s.log.startOfPeriod_ at hsame
    change s.log.flushInterval_ < a.clock.check-s.log.lastFlush_ at hflush
    rw [hperiod] at hsame
    right; right; left
    rw [heq, if_pos hchecks, if_neg (not_not.mpr hsame)]
    exact ⟨hchecks, hsame, by omega, rfl⟩
  · change a.clock.check = s.log.startOfPeriod_ at hsame
    change ¬ s.log.flushInterval_ < a.clock.check-s.log.lastFlush_ at hflush
    rw [hperiod] at hsame
    right; right; right
    rw [heq, if_pos hchecks, if_neg (not_not.mpr hsame)]
    exact ⟨hchecks, hsame, by omega, rfl⟩

theorem timedStep_timely (fwrite : Bytes → ℕ × Bool) (s t : Timed) (a : Append) (h : Timely s)
    (hsteady : Steady fwrite s a) (ht : timedStep fwrite s a = some t) : Timely t := by
  have hcount := count_next s h
  obtain ⟨file, put, ⟨hchecks, rfl⟩ | ⟨hchecks, -, rfl⟩ | ⟨hchecks, hsame, hinterval, rfl⟩ |
    ⟨hchecks, hsame, -, rfl⟩⟩ := timedStep_cases fwrite s t a h hsteady ht <;>
    rw [hchecks] at hcount
  · exact ⟨h.period, h.flushed, h.latest, hcount.symm, h.idle⟩
  · exact ⟨rfl, rfl, le_refl _, hcount.symm, h.idle⟩
  · refine ⟨h.period, hsame, hsame.ge, hcount.symm, ?_⟩
    intro hnonneg
    exact absurd hinterval (not_lt.mpr hnonneg)
  · exact ⟨h.period, h.flushed, hsame.ge, hcount.symm, h.idle⟩

/-- What the check does is what it is for in the second of the last roll and
on every other day. -/
theorem checksDaily_iff (fwrite : Bytes → ℕ × Bool) (s t : Timed) (a : Append) (h : Timely s)
    (hsteady : Steady fwrite s a) (hchecks : s.log.checks = true)
    (ht : timedStep fwrite s a = some t) :
    ChecksDaily s.log a.clock.check t.log ↔
      a.clock.check = s.log.lastRoll_ ∨ day a.clock.check ≠ day s.log.lastRoll_ := by
  have hflushed := h.flushed
  obtain ⟨file, put, ⟨hno, rfl⟩ | ⟨-, hother, rfl⟩ | ⟨-, hsame, hinterval, rfl⟩ |
    ⟨-, hsame, hinterval, rfl⟩⟩ := timedStep_cases fwrite s t a h hsteady ht
  · simp [hno] at hchecks
  · constructor
    · intro hdaily
      exact Or.inr (hdaily.rolls.mp rfl)
    · rintro (hsame | hday)
      · exact absurd hsame hother
      · exact ⟨⟨fun _ => hday, fun _ => rfl⟩, fun hsame => absurd hsame hday⟩
  · refine ⟨fun _ => Or.inl hsame, fun _ => ⟨?_, fun _ _ => rfl⟩⟩
    simp [wrote, hsame]
  · refine ⟨fun _ => Or.inl hsame, fun _ => ⟨?_, fun _ hlong => ?_⟩⟩
    · simp [wrote, hsame]
    · omega

section Runs

variable (fwrite : Bytes → ℕ × Bool) (basename : Bytes) (rollSize : Int64)
  (flushInterval checkEveryN : Int32) (clock : Clock)

def timedStart : Timed where
  log := create basename rollSize flushInterval checkEveryN clock
  latest := clock.name

/-- A log file whose constructor has read a second of the epoch is timely; no
other one is ever open. -/
theorem start_timely (hopen : (timedStart basename rollSize flushInterval checkEveryN
    clock).log.file_ ≠ none) :
    Timely (timedStart basename rollSize flushInterval checkEveryN clock) := by
  unfold timedStart create at hopen ⊢
  rw [rollFile_file] at hopen
  by_cases hclock : 0 < clock.name
  · simp only [rollFile, if_pos hclock]
    exact ⟨period_eq _, rfl, le_refl _, (Int.zero_emod _).symm, fun _ => rfl⟩
  · simp [if_neg hclock] at hopen

theorem reach_timely (s : Timed) (h : Machine.Reach (timedStep fwrite) (Steady fwrite)
      (timedStart basename rollSize flushInterval checkEveryN clock) s)
    (hopen : s.log.file_ ≠ none) : Timely s := by
  apply Machine.reach_invariant (timedStep fwrite) (Steady fwrite) _
    (fun s => s.log.file_ ≠ none → Timely s) _ _ s h hopen
  · exact start_timely basename rollSize flushInterval checkEveryN clock
  · intro s a t hs hsteady ht _
    exact timedStep_timely fwrite s t a (hs (timedStep_open fwrite s t a hsteady ht)) hsteady ht

/-- Every `checkEveryN_`-th append of a run makes the check, and it rolls and
flushes as it should exactly when it is made in the second of the last roll or
on another day. -/
theorem reach_checks (s : Timed) (h : Machine.Reach (timedStep fwrite) (Steady fwrite)
      (timedStart basename rollSize flushInterval checkEveryN clock) s)
    (a : Append) (t : Timed) (hsteady : Steady fwrite s a) (ht : timedStep fwrite s a = some t) :
    (s.log.checks = true ↔ max 1 s.log.checkEveryN_ ∣ ((s.appends+1 : ℕ) : ℤ))
      ∧ (s.log.checks = true → (ChecksDaily s.log a.clock.check t.log ↔
        a.clock.check = s.log.lastRoll_ ∨ day a.clock.check ≠ day s.log.lastRoll_)) := by
  have htimely := reach_timely fwrite basename rollSize flushInterval checkEveryN clock s h
    (timedStep_open fwrite s t a hsteady ht)
  exact ⟨checks_iff s htimely, fun hchecks =>
    checksDaily_iff fwrite s t a htimely hsteady hchecks ht⟩

/-- With an interval that is not negative the flush is never made. -/
theorem reach_unflushed (s : Timed) (h : Machine.Reach (timedStep fwrite) (Steady fwrite)
      (timedStart basename rollSize flushInterval checkEveryN clock) s)
    (hopen : s.log.file_ ≠ none) (hinterval : 0 ≤ s.log.flushInterval_) : s.log.flushes = 0 :=
  (reach_timely fwrite basename rollSize flushInterval checkEveryN clock s h hopen).idle hinterval

end Runs

def checksAlways : Timed := timedStart (bytes "log") 100 3 1 ⟨7, 7, 7⟩

theorem steady_small (s : Timed) (logline : Bytes) (now : ℤ) (hempty : s.log.writenBytes = 0)
    (hsize : logline.length ≤ s.log.rollSize_) (hnow : s.latest ≤ now) :
    Steady takesAll s ⟨logline, ⟨now, now, now⟩⟩ where
  below := by
    intro file r hopen happend
    rw [AppendFile.append_accepts takesAll (fun _ => rfl)] at happend
    obtain rfl := Except.ok.inj happend
    simp only [writenBytes, hopen] at hempty
    simp only [hempty]
    omega
  check _ := hnow
  roll _ _ := ⟨le_refl _, le_refl _⟩

/-- A check that is made on the next day. -/
theorem reach_checks_next_day : ∃ t, timedStep takesAll checksAlways
      ⟨bytes "one\n", ⟨86400, 86400, 86400⟩⟩ = some t
    ∧ ChecksDaily checksAlways.log 86400 t.log := by
  obtain ⟨t, ht⟩ : ∃ t, timedStep takesAll checksAlways
      ⟨bytes "one\n", ⟨86400, 86400, 86400⟩⟩ = some t := ⟨_, rfl⟩
  have hsteady := steady_small checksAlways (bytes "one\n") 86400 rfl (by decide) (by decide)
  have hchecks := (reach_checks takesAll (bytes "log") 100 3 1 ⟨7, 7, 7⟩ checksAlways .refl _ t
    hsteady ht).2 (by decide)
  exact ⟨t, ht, hchecks.mpr (Or.inr (by decide))⟩

/-- A check that is made a second after the roll rolls on the same day. -/
theorem rolls_same_day : ∃ t, Steady takesAll checksAlways ⟨bytes "one\n", ⟨8, 8, 8⟩⟩
    ∧ timedStep takesAll checksAlways ⟨bytes "one\n", ⟨8, 8, 8⟩⟩ = some t
    ∧ checksAlways.log.checks = true ∧ day 8 = day checksAlways.log.lastRoll_
    ∧ t.log.rolls = checksAlways.log.rolls+1 ∧ ¬ ChecksDaily checksAlways.log 8 t.log := by
  have hday : day 8 = day checksAlways.log.lastRoll_ := by decide
  obtain ⟨t, ht, hrolls⟩ : ∃ t, timedStep takesAll checksAlways
      ⟨bytes "one\n", ⟨8, 8, 8⟩⟩ = some t ∧ t.log.rolls = checksAlways.log.rolls+1 :=
    ⟨_, rfl, rfl⟩
  refine ⟨t, steady_small checksAlways _ 8 rfl (by decide) (by decide), ht, by decide, hday,
    hrolls, ?_⟩
  intro hdaily
  exact hdaily.rolls.mp hrolls hday

end LogFile

end MuServer
