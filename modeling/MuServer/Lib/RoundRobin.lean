import Mathlib.Data.Int.CardIntervalMod
import Mathlib.Data.List.Nodup

/-!
# Dealing in turn

The members of a list are dealt in turn, again and again from the front. After any
number of deals no member has had two more of them than another.
-/

set_option autoImplicit false

namespace Lib.RoundRobin

universe u

variable {α : Type u}

/-- Who has the deal with this number; nobody but `base` where there are no members. -/
def dealt (xs : List α) (base : α) (k : ℕ) : α := xs.getD (k % xs.length) base

theorem dealt_nil (base : α) (k : ℕ) : dealt [] base k = base := rfl

theorem dealt_eq (xs : List α) (base : α) (k : ℕ) (hne : xs ≠ []) :
    xs[k % xs.length]? = some (dealt xs base k) := by
  have hlt : k % xs.length < xs.length := Nat.mod_lt _ (List.length_pos_iff.mpr hne)
  rw [dealt, List.getD_eq_getElem?_getD, List.getElem?_eq_getElem hlt, Option.getD_some]

theorem dealt_mem (xs : List α) (base : α) (k : ℕ) (hne : xs ≠ []) : dealt xs base k ∈ xs :=
  List.mem_of_getElem? (dealt_eq xs base k hne)

/-- The member at an index has the deals whose numbers leave that index. -/
theorem dealt_eq_iff (xs : List α) (hx : xs.Nodup) (base : α) (k r : ℕ) (hr : r < xs.length) :
    dealt xs base k = xs.get ⟨r, hr⟩ ↔ k ≡ r [MOD xs.length] := by
  have hlt : k % xs.length < xs.length := Nat.mod_lt _ (by omega)
  have hd : dealt xs base k = xs.get ⟨k % xs.length, hlt⟩ := by
    rw [dealt, List.getD_eq_getElem?_getD, List.getElem?_eq_getElem hlt, Option.getD_some,
      List.get_eq_getElem]
  rw [hd, hx.get_inj_iff, Fin.mk.injEq, Nat.ModEq, Nat.mod_eq_of_lt hr]

variable [DecidableEq α]

def deals (xs : List α) (base : α) (m : ℕ) (x : α) : ℕ :=
  Nat.count (fun k => dealt xs base k = x) m

theorem deals_eq (xs : List α) (hx : xs.Nodup) (base : α) (m r : ℕ) (hr : r < xs.length) :
    deals xs base m (xs.get ⟨r, hr⟩) =
      m/xs.length+if r < m % xs.length then 1 else 0 := by
  have hcount := Nat.count_modEq_card m (show 0 < xs.length by omega) r
  rw [Nat.mod_eq_of_lt hr] at hcount
  rw [deals, ← hcount]
  congr 1
  funext k
  exact propext (dealt_eq_iff xs hx base k r hr)

theorem deals_even (xs : List α) (hx : xs.Nodup) (base : α) (m : ℕ) (x y : α) (hxs : x ∈ xs)
    (hys : y ∈ xs) : deals xs base m x ≤ deals xs base m y+1 := by
  obtain ⟨⟨i, hi⟩, rfl⟩ := List.mem_iff_get.mp hxs
  obtain ⟨⟨j, hj⟩, rfl⟩ := List.mem_iff_get.mp hys
  rw [deals_eq xs hx base m i hi, deals_eq xs hx base m j hj]
  split <;> split <;> omega

end Lib.RoundRobin
