import Mathlib.Order.Nat
import Mathlib.Data.Nat.Notation

/-!
# First in, first out

A queue is its whole history: everything that was ever supplied and how much
of it has been taken from the front. The items still waiting are the rest.
-/

set_option autoImplicit false

namespace Lib

universe u

structure Fifo (α : Type u) where
  supplied : List α
  taken : ℕ
  within : taken ≤ supplied.length

namespace Fifo

variable {α : Type u}

def empty : Fifo α where
  supplied := []
  taken := 0
  within := le_refl _

def contents (q : Fifo α) : List α := q.supplied.drop q.taken

def push (q : Fifo α) (xs : List α) : Fifo α where
  supplied := q.supplied ++ xs
  taken := q.taken
  within := by
    rw [List.length_append]
    exact q.within.trans (Nat.le_add_right _ _)

/-- The first `n` waiting items leave, or all of them when there are fewer. -/
def pop (q : Fifo α) (n : ℕ) : Fifo α where
  supplied := q.supplied
  taken := min (q.taken+n) q.supplied.length
  within := Nat.min_le_right _ _

@[simp] theorem contents_empty : (empty : Fifo α).contents = [] := rfl

@[simp] theorem contents_push (q : Fifo α) (xs : List α) :
    (q.push xs).contents = q.contents ++ xs :=
  List.drop_append_of_le_length q.within

@[simp] theorem contents_pop (q : Fifo α) (n : ℕ) : (q.pop n).contents = q.contents.drop n := by
  simp only [contents, pop, List.drop_drop]
  by_cases h : q.taken+n ≤ q.supplied.length
  · rw [Nat.min_eq_left h]
  · rw [Nat.min_eq_right (by omega), List.drop_length, List.drop_of_length_le (by omega)]

theorem supplied_split (q : Fifo α) :
    ∃ gone, gone.length = q.taken ∧ q.supplied = gone ++ q.contents := by
  refine ⟨q.supplied.take q.taken, ?_, (List.take_append_drop _ _).symm⟩
  rw [List.length_take, Nat.min_eq_left q.within]

end Fifo
end Lib
