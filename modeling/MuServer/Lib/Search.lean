import Mathlib.Data.List.Basic
import Mathlib.Data.List.DropRight

/-!
# First occurrences in a byte range

A search over `[first, last)` answers with a position, and with `last` itself
when there is no occurrence. Positions are offsets from `first`, so a miss is
the length of the range. The lemmas say what a hit means, that a hit does not
move when the range is extended and where the end of a line is found.
-/

set_option autoImplicit false

namespace Lib.Search

variable {α : Type*} [DecidableEq α]

/-- Offset of the first occurrence of `pat`, the length of the range if none. -/
def search (pat : List α) : List α → ℕ
  | [] => 0
  | x::xs => if pat <+: x::xs then 0 else search pat xs+1

theorem search_le (pat xs : List α) : search pat xs ≤ xs.length := by
  induction xs with
  | nil => exact le_refl 0
  | cons x xs ih =>
    simp only [search, List.length_cons]
    split <;> omega

theorem search_hit (pat xs : List α) (h : search pat xs < xs.length) :
    ∃ rest, xs = xs.take (search pat xs) ++ pat ++ rest := by
  induction xs with
  | nil => simp [search] at h
  | cons x xs ih =>
    by_cases hp : pat <+: x::xs
    · obtain ⟨rest, hr⟩ := hp
      exact ⟨rest, by simp [search, ← hr]⟩
    · simp only [search, if_neg hp, List.length_cons, Nat.add_lt_add_iff_right] at h ⊢
      obtain ⟨rest, hr⟩ := ih h
      refine ⟨rest, ?_⟩
      rw [List.take_succ_cons, List.cons_append, List.cons_append, ← hr]

theorem search_hit_length (pat xs : List α) (h : search pat xs < xs.length) :
    search pat xs+pat.length ≤ xs.length := by
  obtain ⟨rest, hr⟩ := search_hit pat xs h
  have hl := congrArg List.length hr
  simp only [List.length_append, List.length_take] at hl
  omega

theorem search_append (pat xs ys : List α) (h : search pat xs < xs.length) :
    search pat (xs ++ ys) = search pat xs := by
  induction xs with
  | nil => simp [search] at h
  | cons x xs ih =>
    by_cases hp : pat <+: x::xs
    · have hq : pat <+: x::(xs ++ ys) := hp.trans (List.prefix_append (x::xs) ys)
      simp [search, hp, hq]
    · have hlt : search pat xs < xs.length := by
        simpa [search, hp] using h
      have hl := search_hit_length pat xs hlt
      have hn : ¬ pat <+: x::(xs ++ ys) := by
        intro hq
        exact hp (List.prefix_of_prefix_length_le hq (List.prefix_append (x::xs) ys)
          (by simp only [List.length_cons]; omega))
      simp [search, hp, hn, ih hlt]

theorem search_le_occurrence (pat front rest : List α) (hpat : pat ≠ []) :
    search pat (front ++ pat ++ rest) ≤ front.length := by
  induction front with
  | nil =>
    obtain ⟨x, xs, rfl⟩ := List.exists_cons_of_ne_nil hpat
    simp [search]
  | cons x front ih =>
    rw [List.cons_append, List.cons_append, search, List.length_cons]
    split <;> omega

/-- A line without the first byte of the pattern is skipped whole. -/
theorem search_skip (c : α) (pat line rest : List α) (h : ∀ x ∈ line, x ≠ c) :
    search (c::pat) (line ++ (c::pat) ++ rest) = line.length := by
  induction line with
  | nil => simp [search]
  | cons x line ih =>
    have hx : x ≠ c := h x (by simp)
    have hn : ¬ (c::pat) <+: x::(line ++ (c::pat) ++ rest) := by
      intro hp
      exact hx (List.cons_prefix_cons.mp hp).1.symm
    rw [List.cons_append, List.cons_append, search, if_neg hn,
      ih (fun y hy => h y (by simp [hy])), List.length_cons]

/-- A line is skipped whole if the two bytes of the pattern are not in it. -/
theorem search_line (c d : α) (hcd : c ≠ d) (line rest : List α) (h : ¬ [c, d] <:+: line) :
    search [c, d] (line ++ [c, d] ++ rest) = line.length := by
  induction line with
  | nil => simp [search]
  | cons x line ih =>
    have htail : ¬ [c, d] <:+: line := fun hin => h (hin.trans (List.suffix_cons x line).isInfix)
    have hn : ¬ [c, d] <+: x::(line ++ [c, d] ++ rest) := by
      intro hp
      obtain ⟨rfl, hq⟩ := List.cons_prefix_cons.mp hp
      cases line with
      | nil => exact hcd (List.cons_prefix_cons.mp hq).1.symm
      | cons y line =>
        obtain ⟨rfl, -⟩ := List.cons_prefix_cons.mp hq
        exact h ⟨[], line, rfl⟩
    rw [List.cons_append, List.cons_append, search, if_neg hn, ih htail, List.length_cons]

theorem search_front (pat xs : List α) (hpat : pat ≠ []) (h : search pat xs < xs.length) :
    ¬ pat <:+: xs.take (search pat xs) := by
  rintro ⟨front, behind, hin⟩
  obtain ⟨rest, hrest⟩ := search_hit pat xs h
  have hle : search pat xs ≤ front.length := by
    rw [hrest, ← hin, List.append_assoc _ behind, List.append_assoc _ _ rest]
    exact search_le_occurrence pat front _ hpat
  have hlength := congrArg List.length hin
  have hpos : 0 < pat.length := List.length_pos_iff.mpr hpat
  simp only [List.length_append, List.length_take] at hlength
  omega

end Lib.Search
