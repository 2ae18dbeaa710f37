import MuServer.Lib.Fallible
import MuServer.TimerQueue

/-!
# The keys of the timer queue

An entry out of `timers_` is in the batch being run. `Filed` says that the two
share the living timers out between them, each under its own expiration, so
that no key is stale and no address dangles. What a step can do at all is
`Turn`; it keeps the keys.
-/

set_option autoImplicit false

namespace MuServer

open Lib Lib.Fallible

structure Filed (timers : OrderedSet Entry) (batch : List Entry) (heap : ℕ → Option Timer) :
    Prop where
  entry : ∀ e, (e ∈ timers ∨ e ∈ batch) ↔
    ∃ timer, heap e.second = some timer ∧ timer.expiration_ = e.first
  apart : ∀ e, e ∈ batch → ¬ e ∈ timers
  increasing : batch.Pairwise (· < ·)
  address : ∀ p, heap p ≠ none → p < UINTPTR_MAX

namespace Filed

variable {timers : OrderedSet Entry} {batch : List Entry} {heap : ℕ → Option Timer}

theorem living (h : Filed timers batch heap) (e : Entry) (he : e ∈ timers ∨ e ∈ batch) :
    ∃ timer, heap e.second = some timer ∧ timer.expiration_ = e.first :=
  (h.entry e).mp he

theorem unique (h : Filed timers batch heap) (d e : Entry) (hd : d ∈ timers ∨ d ∈ batch)
    (he : e ∈ timers ∨ e ∈ batch) (heq : d.second = e.second) : d = e := by
  obtain ⟨timer, hp, ht⟩ := h.living d hd
  obtain ⟨timer', hp', ht'⟩ := h.living e he
  rw [heq, hp'] at hp
  obtain rfl := Option.some.inj hp
  obtain ⟨t, p⟩ := d
  obtain ⟨u, q⟩ := e
  simp_all

theorem current (h : Filed timers batch heap) (e : Entry) (he : e ∈ timers ∨ e ∈ batch)
    (timer : Timer) (hp : heap e.second = some timer) : timer.expiration_ = e.first := by
  obtain ⟨timer', hp', hexp⟩ := h.living e he
  rw [hp] at hp'
  obtain rfl := Option.some.inj hp'
  exact hexp

theorem head_alone (e : Entry) (h : Filed timers (e::batch) heap) (d : Entry)
    (hd : d ∈ timers ∨ d ∈ batch) : d.second ≠ e.second := by
  intro hsecond
  have heq : d = e := h.unique d e (hd.imp_right (List.mem_cons_of_mem e))
    (Or.inr List.mem_cons_self) hsecond
  subst heq
  rcases hd with hmem | hmem
  · exact h.apart d List.mem_cons_self hmem
  · exact lt_irrefl d (List.rel_of_pairwise_cons h.increasing hmem)

theorem empty : Filed .empty [] (fun _ => none) where
  entry := by simp
  apart := by simp
  increasing := .nil
  address := by simp

theorem add (h : Filed timers batch heap) (p : ℕ) (timer : Timer) (hfree : heap p = none)
    (hp : p < UINTPTR_MAX) : Filed (timers.emplace ⟨timer.expiration_, p⟩) batch
      (Function.update heap p (some timer)) where
  entry := by
    intro e
    rw [OrderedSet.mem_emplace, or_assoc, h.entry]
    by_cases he : e.second = p
    · obtain ⟨t, q⟩ := e
      subst he
      simp [hfree, eq_comm]
    · rw [Function.update_of_ne he]
      constructor
      · rintro (rfl | hold)
        · exact absurd rfl he
        · exact hold
      · exact Or.inr
  apart := by
    intro e he hmem
    rcases (OrderedSet.mem_emplace _ _ _).mp hmem with rfl | hold
    · -- nothing at a free address is waiting in the batch
      obtain ⟨timer', hp', -⟩ := h.living _ (Or.inr he)
      rw [hfree] at hp'
      simp at hp'
    · exact h.apart e he hold
  increasing := h.increasing
  address := by
    intro q hq
    by_cases heq : q = p
    · subst heq
      exact hp
    · rw [Function.update_of_ne heq] at hq
      exact h.address q hq

theorem due (h : Filed timers batch heap) (now : TimeStamp) (e : Entry) (he : e ∈ timers) :
    e < ⟨now, UINTPTR_MAX⟩ ↔ e.first ≤ now := by
  obtain ⟨timer, hp, -⟩ := h.living e (Or.inl he)
  have hlt := h.address e.second (by simp [hp])
  rw [Entry.lt_iff, le_iff_lt_or_eq]
  simp [hlt]

theorem expire (h : Filed timers [] heap) (now : TimeStamp) :
    Filed (timers.fromBound ⟨now, UINTPTR_MAX⟩) (timers.below ⟨now, UINTPTR_MAX⟩) heap where
  entry := by
    intro e
    rw [← h.entry, OrderedSet.mem_fromBound, OrderedSet.mem_below]
    by_cases hlt : e < ⟨now, UINTPTR_MAX⟩ <;> simp [hlt]
  apart := by
    intro e he hmem
    exact ((OrderedSet.mem_fromBound _ _ _).mp hmem).2 ((OrderedSet.mem_below _ _ _).mp he).2
  increasing := timers.below_increasing _
  address := h.address

theorem restart (e : Entry) (h : Filed timers (e::batch) heap) (timer : Timer) :
    Filed (timers.emplace ⟨timer.expiration_, e.second⟩) batch
      (Function.update heap e.second (some timer)) where
  entry := by
    intro d
    rw [OrderedSet.mem_emplace, or_assoc]
    by_cases hd : d.second = e.second
    · rw [hd, Function.update_self]
      constructor
      · rintro (rfl | hold)
        · exact ⟨timer, rfl, rfl⟩
        · exact absurd hd (head_alone e h d hold)
      · rintro ⟨timer', ht, hexp⟩
        obtain rfl := Option.some.inj ht
        left
        rw [← hd, hexp]
    · have hne : d ≠ e := fun heq => hd (by rw [heq])
      rw [Function.update_of_ne hd, ← h.entry, List.mem_cons]
      constructor
      · rintro (rfl | hold)
        · exact absurd rfl hd
        · exact hold.imp_right Or.inr
      · rintro (hmem | heq | hmem)
        · exact Or.inr (Or.inl hmem)
        · exact absurd heq hne
        · exact Or.inr (Or.inr hmem)
  apart := by
    intro d hd hmem
    rcases (OrderedSet.mem_emplace _ _ _).mp hmem with rfl | hold
    · exact head_alone e h _ (Or.inr hd) rfl
    · exact h.apart d (List.mem_cons_of_mem e hd) hold
  increasing := h.increasing.of_cons
  address := by
    intro q hq
    by_cases heq : q = e.second
    · subst heq
      obtain ⟨timer', hp, -⟩ := h.living e (Or.inr List.mem_cons_self)
      exact h.address e.second (by simp [hp])
    · rw [Function.update_of_ne heq] at hq
      exact h.address q hq

theorem delete (e : Entry) (h : Filed timers (e::batch) heap) :
    Filed timers batch (Function.update heap e.second none) where
  entry := by
    intro d
    by_cases hd : d.second = e.second
    · rw [hd, Function.update_self]
      simp only [reduceCtorEq, false_and, exists_false, iff_false]
      exact fun hold => head_alone e h d hold hd
    · have hne : d ≠ e := fun heq => hd (by rw [heq])
      rw [Function.update_of_ne hd, ← h.entry, List.mem_cons]
      simp [hne]
  apart := fun d hd => h.apart d (List.mem_cons_of_mem e hd)
  increasing := h.increasing.of_cons
  address := by
    intro q hq
    by_cases heq : q = e.second
    · simp [heq] at hq
    · rw [Function.update_of_ne heq] at hq
      exact h.address q hq

end Filed

namespace TimerQueue

/-- The entries taken out of `timers_` and not filed again or deleted yet. -/
def Control.batch : Control → List Entry
  | .idle => []
  | .calling _ done rest | .inCallback _ done rest => done++rest
  | .resetting _ rest => rest

def Control.done : Control → List Entry
  | .idle => []
  | .calling _ done _ | .inCallback _ done _ => done
  | .resetting _ rest => rest

def Control.waiting : Control → List Entry
  | .idle | .resetting _ _ => []
  | .calling _ _ rest | .inCallback _ _ rest => rest

theorem batch_eq (c : Control) : c.batch = c.done++c.waiting := by
  cases c with
  | idle | calling | inCallback => rfl
  | resetting _ rest => exact (List.append_nil rest).symm

def Keys (s : TimerQueue) : Prop := Filed s.timers_ s.control.batch s.heap

inductive Turn (s : TimerQueue) : TimerQueue → Prop
  | fails : Turn s { s with fault := some .overflow }
  | adds (p : ℕ) (when_ : TimeStamp) (interval : ℚ) (v : Timespec) (n : ℕ)
      (hfree : s.heap p = none) (hp : p < UINTPTR_MAX) (hout : s.control.outside = true) :
      Turn s { s with
        timers_ := s.timers_.emplace ⟨when_, p⟩
        heap := Function.update s.heap p (some (Timer.create s.added.length when_ interval))
        added := s.added ++ [(when_, interval)]
        it_value := v
        expirations := n }
  | begins (now : TimeStamp) (hcontrol : s.control = .idle) : Turn s (s.handleRead now)
  | calls (pass : Pass) (done rest : List Entry) (e : Entry) (timer : Timer)
      (hcontrol : s.control = .calling pass done (e::rest)) (hp : s.heap e.second = some timer) :
      Turn s { s with
        called := s.called ++ [timer.callback_]
        control := .inCallback { pass with ran := pass.ran ++ [timer] } (done++[e]) rest }
  | ends (pass : Pass) (done : List Entry) (hcontrol : s.control = .calling pass done []) :
      Turn s { s with
        callingExpiredTimers := false
        control := .resetting pass.now done
        passes := s.passes ++ [pass] }
  | returns (pass : Pass) (done rest : List Entry)
      (hcontrol : s.control = .inCallback pass done rest) :
      Turn s { s with control := .calling pass done rest }
  | restarts (now : TimeStamp) (e : Entry) (rest : List Entry) (timer : Timer) (next : TimeStamp)
      (v : Timespec) (n : ℕ) (hcontrol : s.control = .resetting now (e::rest))
      (hp : s.heap e.second = some timer) (hrepeated : timer.repeated_ = true)
      (hnext : timer.expiration_.add timer.interval_ = .ok next) :
      Turn s { s with
        timers_ := s.timers_.emplace ⟨next, e.second⟩
        heap := Function.update s.heap e.second (some { timer with expiration_ := next })
        control := .resetting now rest
        it_value := v
        expirations := n }
  | deletes (now : TimeStamp) (e : Entry) (rest : List Entry) (timer : Timer)
      (v : Timespec) (n : ℕ) (hcontrol : s.control = .resetting now (e::rest))
      (hp : s.heap e.second = some timer) (hrepeated : timer.repeated_ = false) :
      Turn s { s with
        heap := Function.update s.heap e.second none
        control := .resetting now rest
        it_value := v
        expirations := n }
  | closes (now : TimeStamp) (hcontrol : s.control = .resetting now []) :
      Turn s { s with control := .idle }
  | expires (v : Timespec) (n : ℕ) : Turn s { s with it_value := v, expirations := n }

theorem deref_ends (s : TimerQueue) (p : ℕ) (timer : Timer) (h : s.heap p = some timer) :
    Ends (· = Fault.overflow) (s.deref p) (· = timer) := by
  rw [deref, h]
  exact ends_ok _ _ _ rfl

theorem restart_ends (timer : Timer) (now : TimeStamp) (h : timer.repeated_ = true) :
    Ends (· = Fault.overflow) (timer.restart now) (fun restarted => ∃ next,
      timer.expiration_.add timer.interval_ = .ok next
        ∧ restarted = { timer with expiration_ := next }) := by
  have hadd : Ends (· = Fault.overflow) (timer.expiration_.add timer.interval_)
      (fun next => timer.expiration_.add timer.interval_ = .ok next) := by
    unfold TimeStamp.add toInt64
    split
    · exact ends_ok _ _ _ rfl
    · exact ends_error _ _ _ rfl
  rw [Timer.restart, if_pos h]
  refine ends_bind _ hadd (fun next hnext => ?_)
  exact ends_ok _ _ _ ⟨next, hnext, rfl⟩

theorem resetTimerFd_ends (s : TimerQueue) (expiration clock : TimeStamp) :
    Ends (· = Fault.overflow) (s.resetTimerFd expiration clock)
      (fun t => ∃ v n, t = { s with it_value := v, expirations := n }) := by
  unfold resetTimerFd
  dsimp only
  split
  · exact ends_ok _ _ _ ⟨_, _, rfl⟩
  · exact ends_error _ _ _ rfl

theorem insert_ends (s : TimerQueue) (p : ℕ) (timer : Timer) (h : s.heap p = some timer) :
    Ends (· = Fault.overflow) (s.insert p)
      (fun r => r.2 = { s with timers_ := s.timers_.emplace ⟨timer.expiration_, p⟩ }) := by
  refine ends_bind _ (deref_ends s p timer h) ?_
  rintro _ rfl
  exact ends_ok _ _ _ rfl

theorem addTimerInLoop_ends (s : TimerQueue) (p : ℕ) (clock : TimeStamp) (timer : Timer)
    (h : s.heap p = some timer) : Ends (· = Fault.overflow) (s.addTimerInLoop p clock)
      (fun t => ∃ v n, t = { s with
        timers_ := s.timers_.emplace ⟨timer.expiration_, p⟩
        it_value := v
        expirations := n }) := by
  refine ends_bind _ (insert_ends s p timer h) ?_
  rintro ⟨earliestChanged, t⟩ (rfl : t = _)
  cases earliestChanged with
  | false => exact ends_ok _ _ _ ⟨_, _, rfl⟩
  | true =>
    refine ends_bind _ (deref_ends _ p timer h) ?_
    rintro _ rfl
    exact resetTimerFd_ends _ _ _

theorem resetEntry_ends (s : TimerQueue) (now : TimeStamp) (e : Entry) (timer : Timer)
    (h : s.heap e.second = some timer) : Ends (· = Fault.overflow) (s.resetEntry now e) (fun t =>
      (timer.repeated_ = true ∧ ∃ next, timer.expiration_.add timer.interval_ = .ok next
        ∧ t = { s with
          timers_ := s.timers_.emplace ⟨next, e.second⟩
          heap := Function.update s.heap e.second (some { timer with expiration_ := next }) })
      ∨ (timer.repeated_ = false
        ∧ t = { s with heap := Function.update s.heap e.second none })) := by
  refine ends_bind _ (deref_ends s e.second timer h) ?_
  rintro _ rfl
  split
  · refine ends_bind _ (restart_ends _ now ‹_›) ?_
    rintro _ ⟨next, hnext, rfl⟩
    refine ends_bind _ (insert_ends _ e.second _ (Function.update_self _ _ _)) ?_
    rintro ⟨earliestChanged, t⟩ (rfl : t = _)
    exact ends_ok _ _ _ (Or.inl ⟨‹_›, next, hnext, rfl⟩)
  · exact ends_ok _ _ _ (Or.inr ⟨Bool.eq_false_of_not_eq_true ‹_›, rfl⟩)

theorem resetEarliest_ends (s : TimerQueue) (clock : TimeStamp) (h : s.Keys) :
    Ends (· = Fault.overflow) (s.resetEarliest clock)
      (fun t => ∃ v n, t = { s with it_value := v, expirations := n }) := by
  unfold resetEarliest
  cases hleast : s.timers_.least with
  | none => exact ends_ok _ _ _ ⟨_, _, rfl⟩
  | some e =>
    obtain ⟨timer, hp, -⟩ := h.living e (Or.inl (s.timers_.least_mem e hleast))
    refine ends_bind _ (deref_ends s e.second timer hp) ?_
    rintro _ rfl
    exact resetTimerFd_ends _ _ _

theorem attempt_turn (s : TimerQueue) (r : Except Fault TimerQueue)
    (h : Ends (· = Fault.overflow) r (Turn s)) : Turn s (s.attempt r) := by
  cases r with
  | ok t => exact h
  | error f =>
    obtain rfl : f = .overflow := h
    exact .fails

theorem callNext_turn (s : TimerQueue) (h : s.Keys) (pass : Pass) (done rest : List Entry)
    (hcontrol : s.control = .calling pass done rest) :
    Ends (· = Fault.overflow) (s.callNext pass done rest) (Turn s) := by
  cases rest with
  | nil => exact ends_ok _ _ _ (.ends pass done hcontrol)
  | cons e rest =>
    obtain ⟨timer, hp, -⟩ := h.living e (Or.inr (by simp [hcontrol, Control.batch]))
    refine ends_bind _ (deref_ends s e.second timer hp) ?_
    rintro _ rfl
    exact ends_ok _ _ _ (.calls pass done rest e _ hcontrol hp)

theorem resetNext_turn (s : TimerQueue) (h : s.Keys) (now clock : TimeStamp) (rest : List Entry)
    (hcontrol : s.control = .resetting now rest) :
    Ends (· = Fault.overflow) (s.resetNext now clock rest) (Turn s) := by
  cases rest with
  | nil => exact ends_ok _ _ _ (.closes now hcontrol)
  | cons e rest =>
    have hbatch : Filed s.timers_ (e::rest) s.heap := by
      simpa only [Keys, hcontrol, Control.batch] using h
    obtain ⟨timer, hp, -⟩ := hbatch.living e (Or.inr List.mem_cons_self)
    refine ends_bind _ (resetEntry_ends s now e timer hp) ?_
    rintro _ (⟨hrepeated, next, hnext, rfl⟩ | ⟨hrepeated, rfl⟩)
    · refine ends_mono (resetEarliest_ends _ clock ?_) (fun _ hf => hf) ?_
      · exact hbatch.restart e { timer with expiration_ := next }
      · rintro _ ⟨v, n, rfl⟩
        exact .restarts now e rest timer next v n hcontrol hp hrepeated hnext
    · refine ends_mono (resetEarliest_ends _ clock ?_) (fun _ hf => hf) ?_
      · exact hbatch.delete e
      · rintro _ ⟨v, n, rfl⟩
        exact .deletes now e rest timer v n hcontrol hp hrepeated

theorem step_turn (s : TimerQueue) (h : s.Keys) (a : Act) (t : TimerQueue)
    (ht : s.step a = some t) : Turn s t := by
  unfold step at ht
  split at ht
  · simp at ht
  · cases a with
    | addTimer p when_ interval clock =>
      dsimp only at ht
      split at ht
      · obtain rfl := Option.some.inj ht
        obtain ⟨hfree, hout⟩ := ‹_ ∧ _›
        simp only [free, Option.isNone_iff_eq_none, decide_eq_true_eq] at hfree
        apply attempt_turn
        refine ends_mono (addTimerInLoop_ends _ p clock _ (Function.update_self _ _ _))
          (fun _ hf => hf) ?_
        rintro _ ⟨v, n, rfl⟩
        exact .adds p when_ interval v n hfree.1 hfree.2 hout
      · simp at ht
    | handleRead now =>
      dsimp only at ht
      split at ht
      · obtain rfl := Option.some.inj ht
        exact .begins now ‹_›
      · simp at ht
    | exec clock =>
      dsimp only at ht
      split at ht
      · obtain rfl := Option.some.inj ht
        exact attempt_turn s _ (callNext_turn s h _ _ _ ‹_›)
      · obtain rfl := Option.some.inj ht
        exact attempt_turn s _ (resetNext_turn s h _ clock _ ‹_›)
      · simp at ht
    | returns =>
      dsimp only at ht
      split at ht
      · obtain rfl := Option.some.inj ht
        exact .returns _ _ _ ‹_›
      · simp at ht
    | expires =>
      dsimp only at ht
      split at ht
      · simp at ht
      · obtain rfl := Option.some.inj ht
        exact .expires _ _

theorem turn_keys (s t : TimerQueue) (h : s.Keys) (hturn : Turn s t) : t.Keys := by
  unfold Keys at h ⊢
  cases hturn with
  | fails | expires => exact h
  | adds p when_ interval v n hfree hp =>
    exact h.add p (Timer.create s.added.length when_ interval) hfree hp
  | begins now hcontrol =>
    simp only [hcontrol, Control.batch] at h
    exact h.expire now
  | calls pass done rest e timer hcontrol =>
    simp only [hcontrol, Control.batch] at h
    simpa [Control.batch] using h
  | ends pass done hcontrol =>
    simp only [hcontrol, Control.batch] at h
    simpa [Control.batch] using h
  | returns pass done rest hcontrol =>
    simp only [hcontrol, Control.batch] at h
    exact h
  | restarts now e rest timer next v n hcontrol =>
    simp only [hcontrol, Control.batch] at h
    exact h.restart e { timer with expiration_ := next }
  | deletes now e rest timer v n hcontrol =>
    simp only [hcontrol, Control.batch] at h
    exact h.delete e
  | closes now hcontrol =>
    simp only [hcontrol, Control.batch] at h
    exact h

end TimerQueue

end MuServer
