import Mathlib.Data.Nat.Notation
import Mathlib.Logic.Function.Basic
import Mathlib.Tactic.Basic

/-!
# Numbered tickets of several callers

Each caller numbers its own calls from zero. A line of tickets is in order when
the numbers of every caller rise along it; it covers a caller up to `n` when all
the tickets of that caller below `n` stand in it.
-/

set_option autoImplicit false

namespace Lib.Tickets

universe u

structure Ticket (P : Type u) where
  caller : P
  number : ℕ
  deriving DecidableEq

variable {P : Type u}

def Before (x y : Ticket P) : Prop := x.caller = y.caller → x.number < y.number

structure Numbered (line : List (Ticket P)) (count : P → ℕ) : Prop where
  sorted : line.Pairwise Before
  lt_count : ∀ x ∈ line, x.number < count x.caller

theorem numbered_nil (count : P → ℕ) : Numbered [] count := ⟨List.Pairwise.nil, by simp⟩

theorem numbered_sublist (line line' : List (Ticket P)) (count : P → ℕ)
    (h : Numbered line count) (hs : line'.Sublist line) : Numbered line' count :=
  ⟨h.sorted.sublist hs, fun x hx => h.lt_count x (hs.subset hx)⟩

theorem numbered_mono (line : List (Ticket P)) (count count' : P → ℕ)
    (h : Numbered line count) (hle : ∀ p, count p ≤ count' p) : Numbered line count' :=
  ⟨h.sorted, fun x hx => Nat.lt_of_lt_of_le (h.lt_count x hx) (hle x.caller)⟩

/-- A ticket goes in front of tickets of other callers, above its own ones. -/
theorem numbered_insert (front back : List (Ticket P)) (x : Ticket P) (count : P → ℕ)
    (h : Numbered (front ++ back) count) (hlt : x.number < count x.caller)
    (hfront : ∀ y ∈ front, y.caller = x.caller → y.number < x.number)
    (hback : ∀ y ∈ back, y.caller ≠ x.caller) : Numbered (front ++ x::back) count where
  sorted := by
    obtain ⟨hf, hb, hfb⟩ := List.pairwise_append.mp h.sorted
    apply List.pairwise_append.mpr
    refine ⟨hf, List.pairwise_cons.mpr ⟨?_, hb⟩, ?_⟩
    · intro y hy he
      exact absurd he.symm (hback y hy)
    · intro y hy z hz
      rcases List.mem_cons.mp hz with rfl | hz
      · exact hfront y hy
      · exact hfb y hy z hz
  lt_count := by
    intro y hy
    rcases List.mem_append.mp hy with hy | hy
    · exact h.lt_count y (List.mem_append_left _ hy)
    · rcases List.mem_cons.mp hy with rfl | hy
      · exact hlt
      · exact h.lt_count y (List.mem_append_right _ hy)

def Covers (line : List (Ticket P)) (p : P) (n : ℕ) : Prop := ∀ k < n, ⟨p, k⟩ ∈ line

theorem covers_subset (line line' : List (Ticket P)) (p : P) (n : ℕ) (h : Covers line p n)
    (hs : line ⊆ line') : Covers line' p n :=
  fun k hk => hs (h k hk)

theorem not_covers (front back : List (Ticket P)) (count : P → ℕ)
    (h : Numbered (front ++ back) count) (x : Ticket P) (hx : x ∈ back) (n : ℕ)
    (hn : x.number < n) : ¬ Covers front x.caller n := by
  intro hc
  have hlt := (List.pairwise_append.mp h.sorted).2.2 _ (hc x.number hn) x hx rfl
  exact Nat.lt_irrefl _ hlt

variable [DecidableEq P]

theorem le_update_succ (count : P → ℕ) (p q : P) :
    count q ≤ Function.update count p (count p+1) q := by
  by_cases h : q = p
  · subst h
    rw [Function.update_self]
    exact Nat.le_succ _
  · exact Nat.le_of_eq (Function.update_of_ne h _ _).symm

theorem numbered_next (front back : List (Ticket P)) (p : P) (count : P → ℕ)
    (h : Numbered (front ++ back) count) (hback : ∀ y ∈ back, y.caller ≠ p) :
    Numbered (front ++ ⟨p, count p⟩::back) (Function.update count p (count p+1)) := by
  apply numbered_insert
  · exact numbered_mono _ _ _ h (le_update_succ count p)
  · rw [Function.update_self]
    exact Nat.lt_succ_self _
  · intro y hy he
    have hy' := h.lt_count y (List.mem_append_left _ hy)
    change y.caller = p at he
    rwa [he] at hy'
  · exact hback

end Lib.Tickets
