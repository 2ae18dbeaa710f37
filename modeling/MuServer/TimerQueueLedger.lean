import MuServer.TimerQueueKeys

/-!
# The ledger of the timer queue

Every call of `addTimer` is followed through the run: its timer lives, with an
expiration that was reached by as many additions as its callback had calls, or
it was a one-shot timer and its callback has been called once. An entry whose
callback has been called in the batch being run is one addition behind.
-/

set_option autoImplicit false

namespace MuServer

open Lib

inductive Scheduled (when_ : TimeStamp) (interval : ℚ) : ℕ → TimeStamp → Prop
  | first : Scheduled when_ interval 0 when_
  | next (k : ℕ) (t u : TimeStamp) (hrepeated : 0 < interval) (h : Scheduled when_ interval k t)
      (hadd : t.add interval = .ok u) : Scheduled when_ interval (k+1) u

theorem scheduled_once (when_ t : TimeStamp) (interval : ℚ) (k : ℕ) (hinterval : ¬ 0 < interval)
    (h : Scheduled when_ interval k t) : k = 0 ∧ t = when_ := by
  cases h with
  | first => exact ⟨rfl, rfl⟩
  | next k t u hrepeated => exact absurd hrepeated hinterval

/-- A whole number of microseconds a time, as long as the doubles can tell. -/
theorem scheduled_whole (when_ t : TimeStamp) (interval : ℚ) (k : ℕ) (m : ℤ)
    (hwhole : when_.Whole interval m) (hwhen : when_.Exact)
    (hlast : TimeStamp.Exact ⟨when_.microsecondsSinceEpoch_+k*m⟩)
    (h : Scheduled when_ interval k t) : t = ⟨when_.microsecondsSinceEpoch_+k*m⟩ := by
  induction h with
  | first => simp
  | next k t u hrepeated h hadd ih =>
    simp only [TimeStamp.Exact] at hwhen hlast
    rw [abs_le] at hwhen hlast
    push_cast at hlast
    rw [add_mul, one_mul, ← add_assoc] at hlast
    have hexact : TimeStamp.Exact ⟨when_.microsecondsSinceEpoch_+k*m⟩ := by
      simp only [TimeStamp.Exact]
      rw [abs_le]
      rcases le_total 0 m with hm | hm
      · have hk : 0 ≤ (k : ℤ)*m := mul_nonneg (by omega) hm
        constructor <;> omega
      · have hk : (k : ℤ)*m ≤ 0 := mul_nonpos_of_nonneg_of_nonpos (by omega) hm
        constructor <;> omega
    obtain rfl := ih hexact
    have hstep : TimeStamp.Whole ⟨when_.microsecondsSinceEpoch_+k*m⟩ interval m := by
      rcases hwhole with hm | ⟨hnear, hm0, hm, hlate⟩
      · exact Or.inl hm
      · have hk : 0 ≤ (k : ℤ)*m := mul_nonneg (by omega) hm0.le
        exact Or.inr ⟨hnear, hm0, hm, by dsimp only; omega⟩
    have hsum : TimeStamp.Exact ⟨when_.microsecondsSinceEpoch_+k*m+m⟩ := by
      simp only [TimeStamp.Exact]
      rw [abs_le]
      exact hlast
    rw [TimeStamp.add_whole _ interval m hstep hexact hsum] at hadd
    obtain rfl := Except.ok.inj hadd
    push_cast
    rw [add_mul, one_mul, add_assoc]

def Named (heap : ℕ → Option Timer) : Prop :=
  ∀ p q timer timer', heap p = some timer → heap q = some timer' →
    timer.callback_ = timer'.callback_ → p = q

theorem named_update (heap : ℕ → Option Timer) (p : ℕ) (timer : Timer) (h : Named heap)
    (hother : ∀ q timer', q ≠ p → heap q = some timer' → timer'.callback_ ≠ timer.callback_) :
    Named (Function.update heap p (some timer)) := by
  intro q r a b hq hr hab
  by_cases hqp : q = p <;> by_cases hrp : r = p
  · rw [hqp, hrp]
  · subst hqp
    rw [Function.update_self] at hq
    rw [Function.update_of_ne hrp] at hr
    obtain rfl := Option.some.inj hq
    exact absurd hab.symm (hother r b hrp hr)
  · subst hrp
    rw [Function.update_self] at hr
    rw [Function.update_of_ne hqp] at hq
    obtain rfl := Option.some.inj hr
    exact absurd hab (hother q a hqp hq)
  · rw [Function.update_of_ne hqp] at hq
    rw [Function.update_of_ne hrp] at hr
    exact h q r a b hq hr hab

theorem named_delete (heap : ℕ → Option Timer) (p : ℕ) (h : Named heap) :
    Named (Function.update heap p none) := by
  intro q r a b hq hr hab
  have hqp : q ≠ p := fun heq => by simp [heq] at hq
  have hrp : r ≠ p := fun heq => by simp [heq] at hr
  rw [Function.update_of_ne hqp] at hq
  rw [Function.update_of_ne hrp] at hr
  exact h q r a b hq hr hab

/-- The timer at `p` agrees with the call that added it and with the calls of
its callback so far. -/
structure Made (added : List (TimeStamp × ℚ)) (called : List ℕ) (done : List Entry) (p : ℕ)
    (timer : Timer) (when_ : TimeStamp) (interval : ℚ) (k : ℕ) : Prop where
  entered : added[timer.callback_]? = some (when_, interval)
  period : timer.interval_ = interval
  repeats : timer.repeated_ = decide (0 < interval)
  scheduled : Scheduled when_ interval k timer.expiration_
  counted : called.count timer.callback_
    = k+(if ⟨timer.expiration_, p⟩ ∈ done then 1 else 0)

namespace TimerQueue

structure Ledger (s : TimerQueue) : Prop where
  made : ∀ p timer, s.heap p = some timer →
    ∃ when_ interval k, Made s.added s.called s.control.done p timer when_ interval k
  named : Named s.heap
  kept : ∀ (n : ℕ) when_ interval, s.added[n]? = some (when_, interval) →
    (∃ p timer, s.heap p = some timer ∧ timer.callback_ = n)
      ∨ (¬ 0 < interval ∧ s.called.count n = 1)
  fresh : ∀ n ∈ s.called, n < s.added.length

theorem done_batch (c : Control) (e : Entry) (h : e ∈ c.done) : e ∈ c.batch := by
  rw [batch_eq]
  exact List.mem_append_left _ h

theorem made_lt (s : TimerQueue) (h : s.Ledger) (p : ℕ) (timer : Timer)
    (hp : s.heap p = some timer) : timer.callback_ < s.added.length := by
  obtain ⟨when_, interval, k, hm⟩ := h.made p timer hp
  exact (List.getElem?_eq_some_iff.mp hm.entered).1

theorem ledger_adds (s : TimerQueue) (hk : s.Keys) (h : s.Ledger) (p : ℕ) (when_ : TimeStamp)
    (interval : ℚ) (t : TimerQueue) (hfree : s.heap p = none)
    (hheap : t.heap = Function.update s.heap p
      (some (Timer.create s.added.length when_ interval)))
    (hadded : t.added = s.added ++ [(when_, interval)]) (hcalled : t.called = s.called)
    (hcontrol : t.control = s.control) : t.Ledger where
  made := by
    intro q timer hq
    rw [hadded, hcalled, hcontrol]
    rw [hheap] at hq
    by_cases heq : q = p
    · subst heq
      rw [Function.update_self] at hq
      obtain rfl := Option.some.inj hq
      have hcount : s.called.count s.added.length = 0 :=
        List.count_eq_zero_of_not_mem (fun hmem => lt_irrefl _ (h.fresh _ hmem))
      have hdone : ¬ (⟨when_, q⟩ : Entry) ∈ s.control.done := by
        intro hmem
        obtain ⟨timer', hp', -⟩ := hk.living _ (Or.inr (done_batch _ _ hmem))
        simp [hfree] at hp'
      refine ⟨when_, interval, 0, ?_, rfl, rfl, .first, ?_⟩
      · simp [Timer.create]
      · simp [Timer.create, hcount, hdone]
    · rw [Function.update_of_ne heq] at hq
      obtain ⟨w, i, k, hm⟩ := h.made q timer hq
      refine ⟨w, i, k, ?_, hm.period, hm.repeats, hm.scheduled, hm.counted⟩
      rw [List.getElem?_append_left (made_lt s h q timer hq)]
      exact hm.entered
  named := by
    rw [hheap]
    refine named_update _ _ _ h.named (fun q timer' _ hq => ?_)
    exact (made_lt s h q timer' hq).ne
  kept := by
    intro n w i hn
    rw [hadded] at hn
    rw [hheap, hcalled]
    by_cases hlt : n < s.added.length
    · rw [List.getElem?_append_left hlt] at hn
      rcases h.kept n w i hn with ⟨q, timer, hq, hname⟩ | hended
      · have hne : q ≠ p := fun heq => by simp [heq, hfree] at hq
        exact Or.inl ⟨q, timer, by rw [Function.update_of_ne hne]; exact hq, hname⟩
      · exact Or.inr hended
    · have hlen := (List.getElem?_eq_some_iff.mp hn).1
      rw [List.length_append, List.length_singleton] at hlen
      exact Or.inl ⟨p, _, Function.update_self _ _ _, by simp only [Timer.create]; omega⟩
  fresh := by
    intro n hn
    rw [hcalled] at hn
    rw [hadded, List.length_append]
    exact Nat.lt_add_right _ (h.fresh n hn)

theorem ledger_calls (s : TimerQueue) (hk : s.Keys) (h : s.Ledger) (pass : Pass)
    (done rest : List Entry) (e : Entry) (timer : Timer) (t : TimerQueue)
    (hs : s.control = .calling pass done (e::rest)) (hp : s.heap e.second = some timer)
    (hheap : t.heap = s.heap) (hadded : t.added = s.added)
    (hcalled : t.called = s.called ++ [timer.callback_]) (hdone : t.control.done = done++[e]) :
    t.Ledger where
  made := by
    have hkeys : Filed s.timers_ (done++e::rest) s.heap := by
      simpa only [Keys, hs, Control.batch] using hk
    have hexp := hkeys.current e (Or.inr (by simp)) timer hp
    intro q timer' hq
    rw [hheap] at hq
    rw [hadded, hcalled, hdone]
    obtain ⟨w, i, k, hm⟩ := h.made q timer' hq
    have hcount := hm.counted
    simp only [hs, Control.done] at hcount
    refine ⟨w, i, k, hm.entered, hm.period, hm.repeats, hm.scheduled, ?_⟩
    rw [List.count_append]
    by_cases heq : q = e.second
    · subst heq
      rw [hp] at hq
      obtain rfl := Option.some.inj hq
      have hnot : ¬ e ∈ done := by
        intro hmem
        have hlt := (List.pairwise_append.mp hkeys.increasing).2.2 e hmem e List.mem_cons_self
        exact lt_irrefl e hlt
      rw [hexp] at hcount ⊢
      rw [if_neg hnot] at hcount
      rw [if_pos (by simp), hcount]
      simp
    · have hne : timer.callback_ ≠ timer'.callback_ :=
        fun hname => heq (h.named _ _ _ _ hq hp hname.symm)
      have hmem : (⟨timer'.expiration_, q⟩ : Entry) ∈ done++[e]
          ↔ (⟨timer'.expiration_, q⟩ : Entry) ∈ done := by
        rw [List.mem_append, List.mem_singleton]
        constructor
        · rintro (hold | hnew)
          · exact hold
          · exact absurd (congrArg Entry.second hnew) heq
        · exact Or.inl
      rw [hcount, List.count_singleton]
      simp [hmem, hne]
  named := by
    rw [hheap]
    exact h.named
  kept := by
    intro n w i hn
    rw [hadded] at hn
    rw [hheap, hcalled]
    by_cases hname : timer.callback_ = n
    · exact Or.inl ⟨e.second, timer, hp, hname⟩
    · rcases h.kept n w i hn with hlives | ⟨honce, hcount⟩
      · exact Or.inl hlives
      · exact Or.inr ⟨honce, by rw [List.count_append, hcount]; simp [hname]⟩
  fresh := by
    intro n hn
    rw [hadded]
    rw [hcalled, List.mem_append, List.mem_singleton] at hn
    rcases hn with hn | rfl
    · exact h.fresh n hn
    · exact made_lt s h e.second timer hp

/-- An account that is not the one of the entry settled last stays as it is. -/
theorem made_other (s : TimerQueue) (h : s.Ledger) (now : TimeStamp) (e : Entry)
    (rest : List Entry) (hs : s.control = .resetting now (e::rest)) (p : ℕ) (timer : Timer)
    (hp : s.heap p = some timer) (hne : p ≠ e.second) :
    ∃ when_ interval k, Made s.added s.called rest p timer when_ interval k := by
  obtain ⟨w, i, k, hm⟩ := h.made p timer hp
  refine ⟨w, i, k, hm.entered, hm.period, hm.repeats, hm.scheduled, ?_⟩
  have hmem : (⟨timer.expiration_, p⟩ : Entry) ∈ e::rest
      ↔ (⟨timer.expiration_, p⟩ : Entry) ∈ rest := by
    rw [List.mem_cons]
    constructor
    · rintro (heq | hold)
      · exact absurd (congrArg Entry.second heq) hne
      · exact hold
    · exact Or.inr
  have hcount := hm.counted
  simp only [hs, Control.done, hmem] at hcount
  exact hcount

/-- The account of the entry at the head of the loop of `reset`: its last call
is not followed by an addition yet. -/
theorem made_settling (s : TimerQueue) (hk : s.Keys) (h : s.Ledger) (now : TimeStamp) (e : Entry)
    (rest : List Entry) (hs : s.control = .resetting now (e::rest)) (timer : Timer)
    (hp : s.heap e.second = some timer) : ∃ when_ interval k,
      s.added[timer.callback_]? = some (when_, interval) ∧ timer.interval_ = interval
      ∧ timer.repeated_ = decide (0 < interval) ∧ Scheduled when_ interval k timer.expiration_
      ∧ s.called.count timer.callback_ = k+1 := by
  obtain ⟨w, i, k, hm⟩ := h.made e.second timer hp
  refine ⟨w, i, k, hm.entered, hm.period, hm.repeats, hm.scheduled, ?_⟩
  have hexp := Filed.current hk e (Or.inr (by simp [hs, Control.batch])) timer hp
  have hcount := hm.counted
  rwa [hs, hexp, if_pos (by simp [Control.done])] at hcount

theorem ledger_restarts (s : TimerQueue) (hk : s.Keys) (h : s.Ledger) (now next : TimeStamp)
    (e : Entry) (rest : List Entry) (timer : Timer) (t : TimerQueue)
    (hs : s.control = .resetting now (e::rest)) (hp : s.heap e.second = some timer)
    (hrepeated : timer.repeated_ = true)
    (hnext : timer.expiration_.add timer.interval_ = .ok next)
    (hheap : t.heap
      = Function.update s.heap e.second (some { timer with expiration_ := next }))
    (hadded : t.added = s.added) (hcalled : t.called = s.called)
    (hdone : t.control.done = rest) : t.Ledger where
  made := by
    intro q timer' hq
    rw [hadded, hcalled, hdone]
    rw [hheap] at hq
    by_cases heq : q = e.second
    · subst heq
      rw [Function.update_self] at hq
      obtain rfl := Option.some.inj hq
      obtain ⟨w, i, k, hentered, hperiod, hrepeats, hscheduled, hcount⟩ :=
        made_settling s hk h now e rest hs timer hp
      have hpos : 0 < i := by
        rw [hrepeated] at hrepeats
        simpa using hrepeats.symm
      have hkeys : Filed s.timers_ (e::rest) s.heap := by
        simpa only [Keys, hs, Control.batch] using hk
      have hnot : ¬ (⟨next, e.second⟩ : Entry) ∈ rest :=
        fun hmem => hkeys.head_alone e _ (Or.inr hmem) rfl
      rw [hperiod] at hnext
      refine ⟨w, i, k+1, hentered, hperiod, hrepeats, .next k _ _ hpos hscheduled hnext, ?_⟩
      rw [if_neg hnot]
      exact hcount
    · rw [Function.update_of_ne heq] at hq
      exact made_other s h now e rest hs q timer' hq heq
  named := by
    rw [hheap]
    refine named_update _ _ _ h.named (fun q timer' hne hq hname => ?_)
    exact hne (h.named q e.second timer' timer hq hp hname)
  kept := by
    intro n w i hn
    rw [hadded] at hn
    rw [hheap, hcalled]
    rcases h.kept n w i hn with ⟨q, timer', hq, hname⟩ | hended
    · by_cases heq : q = e.second
      · subst heq
        rw [hp] at hq
        obtain rfl := Option.some.inj hq
        exact Or.inl ⟨e.second, _, Function.update_self _ _ _, hname⟩
      · exact Or.inl ⟨q, timer', by rw [Function.update_of_ne heq]; exact hq, hname⟩
    · exact Or.inr hended
  fresh := by
    rw [hadded, hcalled]
    exact h.fresh

theorem ledger_deletes (s : TimerQueue) (hk : s.Keys) (h : s.Ledger) (now : TimeStamp)
    (e : Entry) (rest : List Entry) (timer : Timer) (t : TimerQueue)
    (hs : s.control = .resetting now (e::rest)) (hp : s.heap e.second = some timer)
    (hrepeated : timer.repeated_ = false) (hheap : t.heap = Function.update s.heap e.second none)
    (hadded : t.added = s.added) (hcalled : t.called = s.called)
    (hdone : t.control.done = rest) : t.Ledger where
  made := by
    intro q timer' hq
    rw [hadded, hcalled, hdone]
    have heq : q ≠ e.second := fun heq => by simp [hheap, heq] at hq
    rw [hheap, Function.update_of_ne heq] at hq
    exact made_other s h now e rest hs q timer' hq heq
  named := by
    rw [hheap]
    exact named_delete _ _ h.named
  kept := by
    intro n w i hn
    rw [hadded] at hn
    rw [hheap, hcalled]
    rcases h.kept n w i hn with ⟨q, timer', hq, hname⟩ | hended
    · by_cases heq : q = e.second
      · right
        subst heq
        rw [hp] at hq
        obtain rfl := Option.some.inj hq
        obtain ⟨w', i', k, hentered, -, hrepeats, hscheduled, hcount⟩ :=
          made_settling s hk h now e rest hs timer hp
        rw [hname, hn] at hentered
        obtain ⟨rfl, rfl⟩ := Prod.mk.inj (Option.some.inj hentered)
        have honce : ¬ 0 < i := by
          rw [hrepeated] at hrepeats
          simpa using hrepeats.symm
        obtain ⟨rfl, -⟩ := scheduled_once _ _ _ _ honce hscheduled
        exact ⟨honce, hname ▸ hcount⟩
      · exact Or.inl ⟨q, timer', by rw [Function.update_of_ne heq]; exact hq, hname⟩
    · exact Or.inr hended
  fresh := by
    rw [hadded, hcalled]
    exact h.fresh

theorem ledger_same (s t : TimerQueue) (h : s.Ledger) (hheap : t.heap = s.heap)
    (hadded : t.added = s.added) (hcalled : t.called = s.called)
    (hdone : t.control.done = s.control.done) : t.Ledger where
  made := by
    rw [hheap, hadded, hcalled, hdone]
    exact h.made
  named := by
    rw [hheap]
    exact h.named
  kept := by
    rw [hheap, hadded, hcalled]
    exact h.kept
  fresh := by
    rw [hadded, hcalled]
    exact h.fresh

theorem turn_ledger (s t : TimerQueue) (hk : s.Keys) (h : s.Ledger) (hturn : Turn s t) :
    t.Ledger := by
  cases hturn with
  | fails | expires => exact ledger_same s _ h rfl rfl rfl rfl
  | adds p when_ interval v n hfree =>
    exact ledger_adds s hk h p when_ interval _ hfree rfl rfl rfl rfl
  | begins now hcontrol => exact ledger_same s _ h rfl rfl rfl (by rw [hcontrol]; rfl)
  | calls pass done rest e timer hcontrol hp =>
    exact ledger_calls s hk h pass done rest e timer _ hcontrol hp rfl rfl rfl rfl
  | ends pass done hcontrol => exact ledger_same s _ h rfl rfl rfl (by rw [hcontrol]; rfl)
  | returns pass done rest hcontrol => exact ledger_same s _ h rfl rfl rfl (by rw [hcontrol]; rfl)
  | restarts now e rest timer next v n hcontrol hp hrepeated hnext =>
    exact ledger_restarts s hk h now next e rest timer _ hcontrol hp hrepeated hnext rfl rfl rfl rfl
  | deletes now e rest timer v n hcontrol hp hrepeated =>
    exact ledger_deletes s hk h now e rest timer _ hcontrol hp hrepeated rfl rfl rfl rfl
  | closes now hcontrol => exact ledger_same s _ h rfl rfl rfl (by rw [hcontrol]; rfl)

end TimerQueue

end MuServer
