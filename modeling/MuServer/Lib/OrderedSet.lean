import Mathlib.Order.Defs.LinearOrder
import Mathlib.Order.Lattice

/-!
# Ordered sets

The items in strictly increasing order. A set is cut in two at the first item
that is not below a given bound.
-/

set_option autoImplicit false

namespace Lib

universe u

structure OrderedSet (α : Type u) [LinearOrder α] where
  items : List α
  increasing : items.Pairwise (· < ·)

namespace OrderedSet

variable {α : Type u} [LinearOrder α]

def empty : OrderedSet α := ⟨[], .nil⟩

instance : Membership α (OrderedSet α) := ⟨fun s x => x ∈ s.items⟩

theorem mem_items (s : OrderedSet α) (x : α) : x ∈ s.items ↔ x ∈ s := Iff.rfl

@[simp] theorem not_mem_empty (x : α) : ¬ x ∈ (empty : OrderedSet α) := List.not_mem_nil

def insertItem (x : α) : List α → List α
  | [] => [x]
  | y::ys => if x < y then x::y::ys else if y < x then y::insertItem x ys else y::ys

theorem mem_insertItem (x z : α) (ys : List α) : z ∈ insertItem x ys ↔ z = x ∨ z ∈ ys := by
  induction ys with
  | nil => simp [insertItem]
  | cons y ys ih =>
    unfold insertItem
    split
    · exact List.mem_cons
    · split
      · rw [List.mem_cons, ih, List.mem_cons]
        exact or_left_comm
      · -- the item is there already
        have hxy : x = y := le_antisymm (not_lt.mp ‹¬ y < x›) (not_lt.mp ‹¬ x < y›)
        subst hxy
        simp

theorem insertItem_increasing (x : α) (ys : List α) (h : ys.Pairwise (· < ·)) :
    (insertItem x ys).Pairwise (· < ·) := by
  induction ys with
  | nil => exact List.pairwise_singleton _ _
  | cons y ys ih =>
    obtain ⟨hy, hys⟩ := List.pairwise_cons.mp h
    unfold insertItem
    split
    · refine List.pairwise_cons.mpr ⟨?_, h⟩
      intro z hz
      rcases List.mem_cons.mp hz with rfl | hz
      · assumption
      · exact lt_trans ‹x < y› (hy z hz)
    · split
      · refine List.pairwise_cons.mpr ⟨?_, ih hys⟩
        intro z hz
        rcases (mem_insertItem x z ys).mp hz with rfl | hz
        · assumption
        · exact hy z hz
      · exact h

def emplace (s : OrderedSet α) (x : α) : OrderedSet α :=
  ⟨insertItem x s.items, insertItem_increasing x s.items s.increasing⟩

@[simp] theorem mem_emplace (s : OrderedSet α) (x z : α) : z ∈ s.emplace x ↔ z = x ∨ z ∈ s :=
  mem_insertItem x z s.items

def least (s : OrderedSet α) : Option α := s.items.head?

def below (s : OrderedSet α) (bound : α) : List α := s.items.takeWhile (· < bound)

def fromBound (s : OrderedSet α) (bound : α) : OrderedSet α :=
  ⟨s.items.dropWhile (· < bound), s.increasing.sublist (List.dropWhile_sublist _)⟩

theorem below_increasing (s : OrderedSet α) (bound : α) : (s.below bound).Pairwise (· < ·) :=
  s.increasing.sublist (List.takeWhile_sublist _)

theorem below_append (s : OrderedSet α) (bound : α) :
    s.below bound ++ (s.fromBound bound).items = s.items := List.takeWhile_append_dropWhile

theorem mem_below_lt (s : OrderedSet α) (bound x : α) (h : x ∈ s.below bound) : x < bound := by
  simpa using List.all_eq_true.mp List.all_takeWhile x h

theorem not_lt_of_mem_dropWhile (ys : List α) (bound x : α) (hys : ys.Pairwise (· < ·))
    (h : x ∈ ys.dropWhile (· < bound)) : ¬ x < bound := by
  induction ys with
  | nil => simp at h
  | cons y ys ih =>
    obtain ⟨hy, hrest⟩ := List.pairwise_cons.mp hys
    by_cases hb : y < bound
    · rw [List.dropWhile_cons_of_pos (by simpa using hb)] at h
      exact ih hrest h
    · rw [List.dropWhile_cons_of_neg (by simpa using hb)] at h
      rcases List.mem_cons.mp h with rfl | hx
      · exact hb
      · exact fun hlt => hb (lt_trans (hy x hx) hlt)

@[simp] theorem mem_below (s : OrderedSet α) (bound x : α) :
    x ∈ s.below bound ↔ x ∈ s ∧ x < bound := by
  constructor
  · intro h
    exact ⟨(List.takeWhile_sublist _).mem h, s.mem_below_lt bound x h⟩
  · rintro ⟨hx, hlt⟩
    rw [← mem_items, ← s.below_append bound, List.mem_append] at hx
    rcases hx with hx | hx
    · exact hx
    · exact absurd hlt (not_lt_of_mem_dropWhile s.items bound x s.increasing hx)

@[simp] theorem mem_fromBound (s : OrderedSet α) (bound x : α) :
    x ∈ s.fromBound bound ↔ x ∈ s ∧ ¬ x < bound := by
  constructor
  · intro h
    exact ⟨(List.dropWhile_sublist _).mem h, not_lt_of_mem_dropWhile s.items bound x s.increasing h⟩
  · rintro ⟨hx, hlt⟩
    rw [← mem_items, ← s.below_append bound, List.mem_append] at hx
    rcases hx with hx | hx
    · exact absurd (s.mem_below_lt bound x hx) hlt
    · exact hx

theorem least_mem (s : OrderedSet α) (x : α) (h : s.least = some x) : x ∈ s :=
  List.mem_of_head? h

end OrderedSet

end Lib
