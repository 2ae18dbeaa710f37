import MuServer.Basic
import MuServer.Lib.Machine

/-!
# The file behind the log

An `AppendFile` counts the bytes it has written; a `LogFile` rolls to a new one
when the count is beyond the limit or a new period has begun. `files` is what
the log file has put under each name, `rolls` and `flushes` are how often it
has done either.
-/

set_option autoImplicit false

namespace MuServer

open Lib

structure AppendFile where
  filename : Bytes
  writenBytes_ : ℤ := 0

namespace AppendFile

/-- The loop of `append`: what the stream takes, and how much of it is counted.
`fwrite` says how many bytes it has taken and whether `ferror` is set. -/
def appendLoop (fwrite : Bytes → ℕ × Bool) : ℕ → Bytes → Except Fault (Bytes × ℕ)
  | _, [] => .ok ([], 0)
  | 0, _::_ => .error .spins
  | fuel+1, c::cs =>
    let n := (fwrite (c::cs)).1
    if n ≠ (c::cs).length ∧ (fwrite (c::cs)).2 = true then .ok ((c::cs).take n, 0)
    else (appendLoop fwrite fuel ((c::cs).drop n)).map (fun r =>
      ((c::cs).take n ++ r.1, n+r.2))

def append (fwrite : Bytes → ℕ × Bool) (file : AppendFile) (logline : Bytes) :
    Except Fault (AppendFile × Bytes) :=
  (appendLoop fwrite (logline.length+1) logline).map (fun r =>
    ({ file with writenBytes_ := file.writenBytes_+r.2 }, r.1))

def Accepts (fwrite : Bytes → ℕ × Bool) : Prop := ∀ b, fwrite b = (b.length, false)

theorem append_accepts (fwrite : Bytes → ℕ × Bool) (h : Accepts fwrite) (file : AppendFile)
    (logline : Bytes) : file.append fwrite logline =
      .ok ({ file with writenBytes_ := file.writenBytes_+logline.length }, logline) := by
  have hloop : appendLoop fwrite (logline.length+1) logline = .ok (logline, logline.length) := by
    cases logline with
    | nil => rfl
    | cons c cs =>
      rw [appendLoop, h]
      simp [appendLoop, Except.map]
  rw [append, hloop]
  rfl

end AppendFile

/-- The seconds that `time` reads in one call of `append`: for the check, and
for the roll, where `getLogFileName` reads them again. -/
structure Clock where
  check : ℤ
  roll : ℤ
  name : ℤ

def kRollPerSeconds_ : ℤ := 60*60*24

structure LogFile where
  basename_ : Bytes
  rollSize_ : ℤ
  flushInterval_ : ℤ
  checkEveryN_ : ℤ
  startOfPeriod_ : ℤ := 0
  lastRoll_ : ℤ := 0
  lastFlush_ : ℤ := 0
  file_ : Option AppendFile := none
  count_ : ℤ := 0
  files : Bytes → Bytes := fun _ => []
  rolls : ℕ := 0
  flushes : ℕ := 0

namespace LogFile

def period (now : ℤ) : ℤ := (now*kRollPerSeconds_).tdiv kRollPerSeconds_

/-- `getLogFileName` puts a name together that is not used, and reads the clock
into `now`. -/
def rollFile (log : LogFile) (clock : Clock) : LogFile × Bool :=
  let now := clock.name
  let start := period now
  if log.lastRoll_ < now then
    ({ log with
      lastRoll_ := now
      lastFlush_ := now
      startOfPeriod_ := start
      file_ := some { filename := log.basename_ }
      rolls := log.rolls+1 }, true)
  else (log, false)

def create (basename : Bytes) (rollSize : Int64) (flushInterval checkEveryN : Int32)
    (clock : Clock) : LogFile :=
  (rollFile {
    basename_ := basename
    rollSize_ := rollSize.toInt32.toInt
    flushInterval_ := flushInterval.toInt
    checkEveryN_ := checkEveryN.toInt } clock).1

def wrote (log : LogFile) (file : AppendFile) (put : Bytes) : LogFile :=
  { log with
    file_ := some file
    files := Function.update log.files file.filename (log.files file.filename ++ put) }

def flush (log : LogFile) : LogFile := { log with flushes := log.flushes+1 }

def check (log : LogFile) (clock : Clock) : LogFile :=
  let now := clock.check
  let thisPeriod := period now
  if thisPeriod ≠ log.startOfPeriod_ then (log.rollFile clock).1
  else if log.flushInterval_ < now-log.lastFlush_ then { log.flush with lastFlush_ := now }
  else log

def count (log : LogFile) (clock : Clock) : LogFile :=
  if log.checkEveryN_ ≤ log.count_+1 then { log with count_ := 0 }.check clock
  else { log with count_ := log.count_+1 }

def append_unlocked (fwrite : Bytes → ℕ × Bool) (log : LogFile) (logline : Bytes)
    (clock : Clock) : Except Fault LogFile :=
  match log.file_ with
  | none => .error .nullPointer
  | some file => (file.append fwrite logline).map (fun r =>
      if (log.wrote r.1 r.2).rollSize_ < r.1.writenBytes_ then
        ((log.wrote r.1 r.2).rollFile clock).1
      else (log.wrote r.1 r.2).count clock)

structure Append where
  logline : Bytes
  clock : Clock

def step (fwrite : Bytes → ℕ × Bool) (log : LogFile) (a : Append) : Option LogFile :=
  match log.append_unlocked fwrite a.logline a.clock with
  | .ok log => some log
  | .error _ => none

def writenBytes (log : LogFile) : ℤ :=
  match log.file_ with
  | some file => file.writenBytes_
  | none => 0

def crosses (log : LogFile) (a : Append) : Bool :=
  log.rollSize_ < log.writenBytes+a.logline.length

def due (log : LogFile) (a : Append) : Bool :=
  log.checkEveryN_ ≤ log.count_+1 ∧ period a.clock.check ≠ log.startOfPeriod_

def rollsFile (log : LogFile) (a : Append) : Bool :=
  log.lastRoll_ < a.clock.name ∧ (log.crosses a = true ∨ log.due a = true)

def keepsFile (log : LogFile) (a : Append) : Bool :=
  !log.rollsFile a || (log.files log.basename_ ++ a.logline).isEmpty

def advanced (log : LogFile) (a : Append) : Bool :=
  !log.crosses a || log.lastRoll_ < a.clock.name

def Counts (log : LogFile) : Prop :=
  ∃ file, log.file_ = some file ∧ file.writenBytes_ = (log.files file.filename).length

structure OneFile (log : LogFile) : Prop where
  opened : ∃ n, log.file_ = some { filename := log.basename_, writenBytes_ := n }
  others : ∀ name, name ≠ log.basename_ → log.files name = []

structure SameFiles (log log' : LogFile) : Prop where
  basename_ : log'.basename_ = log.basename_
  rollSize_ : log'.rollSize_ = log.rollSize_
  files : log'.files = log.files

theorem rollFile_same (log : LogFile) (clock : Clock) : SameFiles log (log.rollFile clock).1 := by
  unfold rollFile
  dsimp only
  split <;> exact ⟨rfl, rfl, rfl⟩

theorem rollFile_file (log : LogFile) (clock : Clock) : (log.rollFile clock).1.file_ =
    if log.lastRoll_ < clock.name then some { filename := log.basename_ } else log.file_ := by
  unfold rollFile
  dsimp only
  split <;> rfl

theorem check_same (log : LogFile) (clock : Clock) : SameFiles log (log.check clock) := by
  unfold check
  dsimp only
  split
  · exact rollFile_same log clock
  · split <;> exact ⟨rfl, rfl, rfl⟩

theorem check_file (log : LogFile) (clock : Clock) : (log.check clock).file_ =
    if period clock.check ≠ log.startOfPeriod_ ∧ log.lastRoll_ < clock.name then
      some { filename := log.basename_ } else log.file_ := by
  unfold check
  dsimp only
  by_cases hperiod : period clock.check ≠ log.startOfPeriod_
  · rw [if_pos hperiod, rollFile_file]
    by_cases hlater : log.lastRoll_ < clock.name
    · rw [if_pos hlater, if_pos ⟨hperiod, hlater⟩]
    · rw [if_neg hlater, if_neg (fun h => hlater h.2)]
  · have hnot : ¬ (period clock.check ≠ log.startOfPeriod_ ∧ log.lastRoll_ < clock.name) :=
      fun h => hperiod h.1
    rw [if_neg hperiod, if_neg hnot]
    split <;> rfl

theorem count_same (log : LogFile) (clock : Clock) : SameFiles log (log.count clock) := by
  unfold count
  split
  · obtain ⟨hbasename, hsize, hfiles⟩ := check_same { log with count_ := 0 } clock
    exact ⟨hbasename, hsize, hfiles⟩
  · exact ⟨rfl, rfl, rfl⟩

theorem count_file (log : LogFile) (clock : Clock) : (log.count clock).file_ =
    if log.checkEveryN_ ≤ log.count_+1 ∧ period clock.check ≠ log.startOfPeriod_
      ∧ log.lastRoll_ < clock.name then some { filename := log.basename_ } else log.file_ := by
  unfold count
  by_cases hcount : log.checkEveryN_ ≤ log.count_+1
  · rw [if_pos hcount, check_file]
    simp only [hcount, true_and]
  · rw [if_neg hcount, if_neg (fun h => hcount h.1)]

structure Appended (log : LogFile) (a : Append) (n : ℤ) (t : LogFile) : Prop where
  basename_ : t.basename_ = log.basename_
  rollSize_ : t.rollSize_ = log.rollSize_
  files : t.files = Function.update log.files log.basename_
    (log.files log.basename_ ++ a.logline)
  file_ : t.file_ = if log.rollsFile a = true then some { filename := log.basename_ }
    else some { filename := log.basename_, writenBytes_ := n+a.logline.length }

theorem appended_oneFile (log : LogFile) (a : Append) (n : ℤ) (t : LogFile) (h : log.OneFile)
    (ht : Appended log a n t) : t.OneFile where
  opened := by
    rw [ht.file_, ht.basename_]
    split
    · exact ⟨0, rfl⟩
    · exact ⟨_, rfl⟩
  others := by
    intro name hname
    rw [ht.basename_] at hname
    rw [ht.files, Function.update_of_ne hname]
    exact h.others name hname

theorem counts_iff (log : LogFile) (name : Bytes) (n : ℤ)
    (hopen : log.file_ = some { filename := name, writenBytes_ := n }) :
    log.Counts ↔ n = (log.files name).length := by
  simp [Counts, hopen]

theorem appended_counts (log : LogFile) (a : Append) (n : ℤ) (t : LogFile)
    (hopen : log.file_ = some { filename := log.basename_, writenBytes_ := n })
    (h : log.Counts) (ht : Appended log a n t) : t.Counts ↔ log.keepsFile a = true := by
  rw [counts_iff log _ n hopen] at h
  have hfile := ht.file_
  by_cases hrolls : log.rollsFile a = true
  · rw [if_pos hrolls] at hfile
    rw [counts_iff t _ _ hfile, ht.files, Function.update_self, keepsFile, hrolls]
    simp only [Bool.not_true, Bool.false_or, List.isEmpty_iff, ← List.length_eq_zero_iff]
    omega
  · rw [if_neg hrolls] at hfile
    rw [counts_iff t _ _ hfile, ht.files, Function.update_self, List.length_append]
    simp only [keepsFile, hrolls, Bool.not_false, Bool.true_or, iff_true]
    omega

def Bounded (log : LogFile) : Prop :=
  ∀ name, ((log.files name).length : ℤ) ≤ max 0 log.rollSize_

theorem appended_bounded (log : LogFile) (a : Append) (n : ℤ) (t : LogFile)
    (hopen : log.file_ = some { filename := log.basename_, writenBytes_ := n })
    (hcounts : log.Counts) (h : log.Bounded) (hkeeps : log.keepsFile a = true)
    (hadvanced : log.advanced a = true) (ht : Appended log a n t) : t.Bounded := by
  rw [counts_iff log _ n hopen] at hcounts
  intro name
  rw [ht.rollSize_, ht.files]
  by_cases hname : name = log.basename_
  · rw [hname, Function.update_self]
    by_cases hcrosses : log.crosses a = true
    · -- the limit is crossed, so the file rolls, so nothing was put into it
      have hrolls : log.rollsFile a = true := by
        simpa [rollsFile, advanced, hcrosses] using hadvanced
      have hempty : log.files log.basename_ ++ a.logline = [] := by
        simpa [keepsFile, hrolls] using hkeeps
      rw [hempty]
      exact le_max_left 0 _
    · have hbelow : n+a.logline.length ≤ log.rollSize_ := by
        simpa [crosses, writenBytes, hopen] using hcrosses
      rw [List.length_append, Nat.cast_add, ← hcounts]
      exact hbelow.trans (le_max_right 0 _)
  · rw [Function.update_of_ne hname]
    exact h name

theorem create_files (basename : Bytes) (rollSize : Int64) (flushInterval checkEveryN : Int32)
    (clock : Clock) (name : Bytes) :
    (create basename rollSize flushInterval checkEveryN clock).files name = [] := by
  unfold create
  rw [(rollFile_same _ clock).files]

theorem create_kept (basename : Bytes) (rollSize : Int64) (flushInterval checkEveryN : Int32)
    (clock : Clock) (hclock : 0 < clock.name) :
    (create basename rollSize flushInterval checkEveryN clock).OneFile
      ∧ (create basename rollSize flushInterval checkEveryN clock).Counts := by
  have hopen : (create basename rollSize flushInterval checkEveryN clock).file_ =
      some { filename := basename } := by
    unfold create
    rw [rollFile_file, if_pos hclock]
  have hname : (create basename rollSize flushInterval checkEveryN clock).basename_ =
      basename := by
    unfold create
    rw [(rollFile_same _ clock).basename_]
  refine ⟨⟨⟨0, ?_⟩, fun name _ => create_files _ _ _ _ clock name⟩, ?_⟩
  · rw [hopen, hname]
  · rw [counts_iff _ _ _ hopen, create_files]
    rfl

theorem create_unopened (fwrite : Bytes → ℕ × Bool) (basename : Bytes) (rollSize : Int64)
    (flushInterval checkEveryN : Int32) (clock : Clock) (hclock : clock.name ≤ 0) (a : Append) :
    (create basename rollSize flushInterval checkEveryN clock).append_unlocked fwrite
      a.logline a.clock = .error .nullPointer := by
  have hopen : (create basename rollSize flushInterval checkEveryN clock).file_ = none := by
    unfold create
    rw [rollFile_file, if_neg (not_lt.mpr hclock)]
  unfold append_unlocked
  rw [hopen]

section Accepts

variable (fwrite : Bytes → ℕ × Bool) (hfwrite : AppendFile.Accepts fwrite)

include hfwrite

theorem step_appended (log : LogFile) (a : Append) (n : ℤ)
    (hopen : log.file_ = some { filename := log.basename_, writenBytes_ := n }) :
    ∃ t, step fwrite log a = some t ∧ Appended log a n t := by
  unfold step append_unlocked
  simp only [hopen, AppendFile.append_accepts fwrite hfwrite, Except.map]
  have hcrosses : log.crosses a = true ↔ log.rollSize_ < n+a.logline.length := by
    simp [crosses, writenBytes, hopen]
  generalize hw : log.wrote { filename := log.basename_, writenBytes_ := n+a.logline.length }
    a.logline = w
  have hfields : w.lastRoll_ = log.lastRoll_ ∧ w.basename_ = log.basename_
      ∧ w.rollSize_ = log.rollSize_ ∧ w.checkEveryN_ = log.checkEveryN_
      ∧ w.count_ = log.count_ ∧ w.startOfPeriod_ = log.startOfPeriod_
      ∧ w.file_ = some { filename := log.basename_, writenBytes_ := n+a.logline.length }
      ∧ w.files = Function.update log.files log.basename_
        (log.files log.basename_ ++ a.logline) := by
    rw [← hw]
    exact ⟨rfl, rfl, rfl, rfl, rfl, rfl, rfl, rfl⟩
  obtain ⟨hlast, hbasename, hsize, hevery, hcount, hstart, hfile, hfiles⟩ := hfields
  rw [hsize]
  by_cases hcross : log.rollSize_ < n+a.logline.length
  · rw [if_pos hcross]
    obtain ⟨hb, hs, hf⟩ := w.rollFile_same a.clock
    refine ⟨_, rfl, hb.trans hbasename, hs.trans hsize, hf.trans hfiles, ?_⟩
    rw [rollFile_file, hlast, hbasename, hfile]
    simp only [rollsFile, hcrosses.mpr hcross, true_or, and_true, decide_eq_true_eq]
  · rw [if_neg hcross]
    obtain ⟨hb, hs, hf⟩ := w.count_same a.clock
    refine ⟨_, rfl, hb.trans hbasename, hs.trans hsize, hf.trans hfiles, ?_⟩
    rw [count_file, hlast, hbasename, hfile, hevery, hcount, hstart]
    have hnot : log.crosses a = false := by
      rw [Bool.eq_false_iff]
      exact fun h => hcross (hcrosses.mp h)
    simp only [rollsFile, due, hnot, Bool.false_eq_true, false_or, decide_eq_true_eq]
    congr 1
    apply propext
    tauto

theorem run_oneFile (log t : LogFile) (as : List Append) (h : log.OneFile)
    (hrun : Machine.run (step fwrite) log as = some t) : t.OneFile ∧ t.basename_ = log.basename_
      ∧ t.files log.basename_ = log.files log.basename_ ++ as.flatMap Append.logline := by
  induction as generalizing log with
  | nil =>
    obtain rfl := Option.some.inj hrun
    exact ⟨h, rfl, by simp⟩
  | cons a as ih =>
    obtain ⟨n, hopen⟩ := h.opened
    obtain ⟨u, hu, happended⟩ := step_appended fwrite hfwrite log a n hopen
    rw [Machine.run, hu, Option.bind_some] at hrun
    obtain ⟨honefile, hbasename, hfiles⟩ := ih u (appended_oneFile log a n u h happended) hrun
    rw [happended.basename_] at hbasename hfiles
    refine ⟨honefile, hbasename, ?_⟩
    rw [hfiles, happended.files, Function.update_self, List.flatMap_cons, List.append_assoc]

variable (basename : Bytes) (rollSize : Int64) (flushInterval checkEveryN : Int32) (clock : Clock)
  (hclock : 0 < clock.name)

include hclock

/-- The count is right as long as no roll leaves bytes behind, and no longer. -/
theorem reach_counts (log : LogFile) (h : Machine.Reach (step fwrite)
      (fun s a => s.keepsFile a = true)
      (create basename rollSize flushInterval checkEveryN clock) log) :
    log.Counts
      ∧ (∀ a, ∃ t, step fwrite log a = some t ∧ (t.Counts ↔ log.keepsFile a = true))
      ∧ (Machine.Reach (step fwrite) (fun s a => s.keepsFile a = true ∧ s.advanced a = true)
          (create basename rollSize flushInterval checkEveryN clock) log →
        ∀ name, ((log.files name).length : ℤ) ≤ max 0 log.rollSize_) := by
  have hstart := create_kept basename rollSize flushInterval checkEveryN clock hclock
  have hkept : log.OneFile ∧ log.Counts := by
    apply Machine.reach_invariant (step fwrite) _ _ (fun s => OneFile s ∧ Counts s) hstart _ log h
    rintro s a t ⟨hone, hcounts⟩ hkeeps ht
    obtain ⟨n, hopen⟩ := hone.opened
    obtain ⟨u, hu, happended⟩ := step_appended fwrite hfwrite s a n hopen
    obtain rfl := Option.some.inj (hu.symm.trans ht)
    exact ⟨appended_oneFile s a n u hone happended,
      (appended_counts s a n u hopen hcounts happended).mpr hkeeps⟩
  refine ⟨hkept.2, fun a => ?_, fun hadvanced => ?_⟩
  · obtain ⟨n, hopen⟩ := hkept.1.opened
    obtain ⟨t, ht, happended⟩ := step_appended fwrite hfwrite log a n hopen
    exact ⟨t, ht, appended_counts log a n t hopen hkept.2 happended⟩
  · have hbounded : log.OneFile ∧ log.Counts ∧ log.Bounded := by
      apply Machine.reach_invariant (step fwrite) _ _
        (fun s => OneFile s ∧ Counts s ∧ Bounded s) _ _ log hadvanced
      · refine ⟨hstart.1, hstart.2, ?_⟩
        intro name
        rw [create_files]
        exact le_max_left 0 _
      · rintro s a t ⟨hone, hcounts, hbounded⟩ ⟨hkeeps, hadvanced⟩ ht
        obtain ⟨n, hopen⟩ := hone.opened
        obtain ⟨u, hu, happended⟩ := step_appended fwrite hfwrite s a n hopen
        obtain rfl := Option.some.inj (hu.symm.trans ht)
        exact ⟨appended_oneFile s a n u hone happended,
          (appended_counts s a n u hopen hcounts happended).mpr hkeeps,
          appended_bounded s a n u hopen hcounts hbounded hkeeps hadvanced happended⟩
    exact hbounded.2.2

end Accepts

def takesAll (b : Bytes) : ℕ × Bool := (b.length, false)

theorem reach_counts_two : ∃ log : LogFile, log.files (bytes "log") = bytes "one\ntwo\n"
    ∧ log.Counts
    ∧ (∀ a, ∃ t, step takesAll log a = some t ∧ (t.Counts ↔ log.keepsFile a = true))
    ∧ ∀ name, ((log.files name).length : ℤ) ≤ max 0 log.rollSize_ := by
  have hrun : ∃ log, Machine.run (step takesAll) (create (bytes "log") 100 3 1024 ⟨7, 7, 7⟩)
      [⟨bytes "one\n", ⟨8, 8, 8⟩⟩, ⟨bytes "two\n", ⟨9, 9, 9⟩⟩] = some log
      ∧ log.files (bytes "log") = bytes "one\ntwo\n" := by
    exact ⟨_, rfl, by decide⟩
  obtain ⟨log, hlog, hfiles⟩ := hrun
  have hreach := Machine.run_reach (step takesAll) (fun s a => s.keepsFile a && s.advanced a)
    _ log _ hlog (by decide)
  have hboth := Machine.reach_mono _ _ (fun s a => s.keepsFile a = true ∧ s.advanced a = true) _
    (fun s a h => by simpa using h) log hreach
  have hkeeps := Machine.reach_mono _ _ (fun s a => s.keepsFile a = true) _
    (fun s a h => h.1) log hboth
  obtain ⟨hcounts, hstep, hbound⟩ := reach_counts takesAll (fun _ => rfl) (bytes "log") 100 3 1024
    ⟨7, 7, 7⟩ (by decide) log hkeeps
  exact ⟨log, hfiles, hcounts, hstep, hbound hboth⟩

/-- Every record is over the limit of ten bytes and rolls, a second after the
last one, to the same file. -/
theorem rolls_same_file : ∃ log : LogFile, Machine.Reach (step takesAll)
      (fun s a => s.advanced a = true) (create (bytes "log") 10 3 1024 ⟨1, 1, 1⟩) log
    ∧ log.rolls = 4 ∧ ¬ log.Counts
    ∧ log.rollSize_+(bytes "GET /index\n").length < (log.files (bytes "log")).length := by
  have hrun : ∃ log, Machine.run (step takesAll) (create (bytes "log") 10 3 1024 ⟨1, 1, 1⟩)
      [⟨bytes "GET /index\n", ⟨2, 2, 2⟩⟩, ⟨bytes "GET /index\n", ⟨3, 3, 3⟩⟩,
        ⟨bytes "GET /index\n", ⟨4, 4, 4⟩⟩] = some log ∧ log.rolls = 4
      ∧ log.file_ = some { filename := bytes "log", writenBytes_ := 0 }
      ∧ (log.files (bytes "log")).length = 33 ∧ log.rollSize_ = 10 := by
    exact ⟨_, rfl, rfl, rfl, by decide, rfl⟩
  obtain ⟨log, hlog, hrolls, hopen, hlength, hsize⟩ := hrun
  have hreach := Machine.run_reach (step takesAll) advanced _ log _ hlog (by decide)
  refine ⟨log, hreach, hrolls, ?_, ?_⟩
  · rw [counts_iff log _ _ hopen, hlength]
    decide
  · rw [hlength, hsize]
    decide

end LogFile

end MuServer
