import Mathlib.Data.Nat.Init
import Mathlib.Data.Nat.Notation
import Mathlib.Order.Nat
import Mathlib.Tactic.ByContra

/-!
# Machines

A machine is a partial step function on states, an action at a time. `Reach`
collects the states of all its runs, `ok` being a condition that every step of
the run meets. What holds at the start and is kept by every such step holds
in every state of such a run. A run of a machine is also a run of each of its
components, and of every machine that it looks like from above.
-/

set_option autoImplicit false

namespace Lib.Machine

universe u v

variable {S : Type u} {A : Type v}

inductive Reach (step : S → A → Option S) (ok : S → A → Prop) (start : S) : S → Prop
  | refl : Reach step ok start start
  | next (s : S) (a : A) (t : S) : Reach step ok start s → ok s a → step s a = some t →
      Reach step ok start t

theorem reach_invariant (step : S → A → Option S) (ok : S → A → Prop) (start : S)
    (inv : S → Prop) (h0 : inv start)
    (hstep : ∀ s a t, inv s → ok s a → step s a = some t → inv t) (s : S)
    (h : Reach step ok start s) : inv s := by
  induction h with
  | refl => exact h0
  | next s a t _ hok ht ih => exact hstep s a t ih hok ht

theorem reach_mono (step : S → A → Option S) (ok ok' : S → A → Prop) (start : S)
    (hok : ∀ s a, ok s a → ok' s a) (s : S) (h : Reach step ok start s) :
    Reach step ok' start s := by
  induction h with
  | refl => exact .refl
  | next s a t _ ha ht ih => exact .next s a t ih (hok s a ha) ht

def run (step : S → A → Option S) : S → List A → Option S
  | s, [] => some s
  | s, a::as => (step s a).bind (fun t => run step t as)

theorem run_append (step : S → A → Option S) (s t : S) (as bs : List A)
    (h : run step s as = some t) : run step s (as ++ bs) = run step t bs := by
  induction as generalizing s with
  | nil =>
    obtain rfl := Option.some.inj h
    rfl
  | cons a as ih =>
    obtain ⟨u, hu, hrun⟩ := Option.bind_eq_some_iff.mp h
    rw [List.cons_append, run, hu, Option.bind_some]
    exact ih u hrun

def runMeets (step : S → A → Option S) (ok : S → A → Bool) : S → List A → Bool
  | _, [] => true
  | s, a::as => ok s a && match step s a with
    | some t => runMeets step ok t as
    | none => true

theorem runMeets_true (step : S → A → Option S) (s : S) (as : List A) :
    runMeets step (fun _ _ => true) s as = true := by
  induction as generalizing s with
  | nil => rfl
  | cons a as ih =>
    simp only [runMeets, Bool.true_and]
    split
    · exact ih _
    · rfl

theorem run_reach_from (step : S → A → Option S) (ok : S → A → Bool) (start s t : S) (as : List A)
    (hs : Reach step (fun s a => ok s a = true) start s) (hrun : run step s as = some t)
    (hok : runMeets step ok s as = true) : Reach step (fun s a => ok s a = true) start t := by
  induction as generalizing s with
  | nil =>
    obtain rfl := Option.some.inj hrun
    exact hs
  | cons a as ih =>
    simp only [runMeets, Bool.and_eq_true] at hok
    cases hu : step s a with
    | none => simp [run, hu] at hrun
    | some u =>
      simp only [run, hu, Option.bind_some] at hrun
      simp only [hu] at hok
      exact ih u (.next s a u hs hok.1 hu) hrun hok.2

theorem run_reach (step : S → A → Option S) (ok : S → A → Bool) (start t : S) (as : List A)
    (hrun : run step start as = some t) (hok : runMeets step ok start as = true) :
    Reach step (fun s a => ok s a = true) start t :=
  run_reach_from step ok start start t as .refl hrun hok

theorem run_reach_any (step : S → A → Option S) (start t : S) (as : List A)
    (hrun : run step start as = some t) : Reach step (fun _ _ => True) start t :=
  reach_mono step _ _ start (fun _ _ _ => trivial) t
    (run_reach step (fun _ _ => true) start t as hrun (runMeets_true step start as))

theorem run_reach_actions (step : S → A → Option S) (ok : A → Prop) (start s t : S) (as : List A)
    (hs : Reach step (fun _ a => ok a) start s) (hok : ∀ a ∈ as, ok a)
    (hrun : run step s as = some t) : Reach step (fun _ a => ok a) start t := by
  induction as generalizing s with
  | nil =>
    obtain rfl := Option.some.inj hrun
    exact hs
  | cons a as ih =>
    obtain ⟨u, hu, hrest⟩ := Option.bind_eq_some_iff.mp hrun
    exact ih u (.next s a u hs (hok a (by simp)) hu) (fun b hb => hok b (by simp [hb])) hrest

/-- A component that follows each step of a machine by the steps `own` gives it
follows every run by all of those. -/
theorem run_component {C : Type*} {B : Type*} (step : S → A → Option S) (part : C → B → Option C)
    (own : A → Option B) (R : S → C → Prop)
    (hstep : ∀ s c a t, R s c → step s a = some t →
      ∃ d, run part c (own a).toList = some d ∧ R t d)
    (s t : S) (c : C) (as : List A) (hR : R s c) (hrun : run step s as = some t) :
    ∃ d, run part c (as.filterMap own) = some d ∧ R t d := by
  induction as generalizing s c with
  | nil =>
    obtain rfl := Option.some.inj hrun
    exact ⟨c, rfl, hR⟩
  | cons a as ih =>
    obtain ⟨u, hu, hrest⟩ := Option.bind_eq_some_iff.mp hrun
    obtain ⟨d, hd, hRd⟩ := hstep s c a u hR hu
    obtain ⟨e, he, hRe⟩ := ih u d hRd hrest
    refine ⟨e, ?_, hRe⟩
    cases ho : own a with
    | none =>
      rw [ho] at hd
      obtain rfl := Option.some.inj hd
      rw [List.filterMap_cons_none ho]
      exact he
    | some b =>
      rw [ho] at hd
      rw [List.filterMap_cons_some ho]
      exact (run_append part c d [b] _ hd).trans he

/-- Where every step, seen through `view`, is a run of another machine, what is
reached here is reached there. -/
theorem reach_view {S' : Type*} {A' : Type*} (step : S → A → Option S) (ok : S → A → Prop)
    (step' : S' → A' → Option S') (ok' : A' → Prop) (view : S → S') (inv : S → Prop) (start : S)
    (h0 : inv start) (hinv : ∀ s a t, inv s → ok s a → step s a = some t → inv t)
    (hview : ∀ s a t, inv s → ok s a → step s a = some t →
      ∃ as, run step' (view s) as = some (view t) ∧ ∀ b ∈ as, ok' b)
    (s : S) (h : Reach step ok start s) :
    inv s ∧ Reach step' (fun _ b => ok' b) (view start) (view s) := by
  induction h with
  | refl => exact ⟨h0, .refl⟩
  | next s a t _ hok ht ih =>
    obtain ⟨hs, hreach⟩ := ih
    obtain ⟨as, hrun, has⟩ := hview s a t hs hok ht
    exact ⟨hinv s a t hs hok ht, run_reach_actions step' ok' _ _ _ as hreach has hrun⟩

variable (ended idle : ℕ → Prop) (size : ℕ → ℕ)

theorem size_antitone (hstep : ∀ k, ended (k+1) ∨ size (k+1) ≤ size k) (hnever : ∀ k, ¬ ended k)
    (n k : ℕ) (hk : n ≤ k) : size k ≤ size n := by
  induction k, hk using Nat.le_induction with
  | base => exact le_refl _
  | succ k hk ih => exact ((hstep k).resolve_left (hnever _)).trans ih

/-- A sequence that gets smaller whenever it is not idle comes to its end or
is idle from some place on. -/
theorem ends_or_idles (hstep : ∀ k, ¬ ended k → ended (k+1) ∨ size (k+1) < size k
      ∨ (size (k+1) = size k ∧ idle k)) :
    (∃ k, ended k) ∨ ∃ n, ∀ k, n ≤ k → idle k := by
  by_contra hnot
  push Not at hnot
  obtain ⟨hnever, hbusy⟩ := hnot
  have hanti := size_antitone ended size (fun k => by
    rcases hstep k (hnever k) with hend | hless | ⟨heq, -⟩
    · exact Or.inl hend
    · exact Or.inr hless.le
    · exact Or.inr heq.le) hnever
  -- a busy place beyond `n` makes what follows smaller than it was at `n`
  have hsmaller : ∀ m n, size n = m → False := by
    intro m
    induction m using Nat.strong_induction_on with
    | _ m ih =>
      intro n hn
      obtain ⟨k, hk, hbusyk⟩ := hbusy n
      have hle := hanti n k hk
      rcases hstep k (hnever k) with hend | hless | ⟨-, hidle⟩
      · exact hnever _ hend
      · exact ih (size (k+1)) (by omega) (k+1) rfl
      · exact hbusyk hidle
  exact hsmaller (size 0) 0 rfl

end Lib.Machine
