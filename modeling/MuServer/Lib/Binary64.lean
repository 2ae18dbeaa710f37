import Mathlib.Algebra.Order.Floor.Ring
import Mathlib.Data.Int.Log
import Mathlib.Data.Rat.Floor
import Mathlib.Tactic.Linarith
import Mathlib.Tactic.NormNum

/-!
# Doubles

A double is the rational number it stands for. Every operation computes the
exact result and rounds it: to the nearest multiple of the unit in the last
place of a 53-bit significand, ties to even. Exponents are not bounded, so
overflow to infinity and subnormal numbers are outside of this library.
-/

set_option autoImplicit false

namespace Lib.Binary64

def nearest (q : ℚ) : ℤ :=
  let low := ⌊q⌋
  if q-low < 1/2 then low
  else if 1/2 < q-low then low+1
  else if low % 2 = 0 then low else low+1

def unit (x : ℚ) : ℚ := 2^(Int.log 2 |x|-52)

def round (x : ℚ) : ℚ := nearest (x/unit x)*unit x

theorem unit_pos (x : ℚ) : 0 < unit x := zpow_pos (by norm_num) _

theorem nearest_intCast (n : ℤ) : nearest (n : ℚ) = n := by
  unfold nearest
  rw [Int.floor_intCast, if_pos (by norm_num)]

theorem round_exact (x : ℚ) (m : ℤ) (h : x = m*unit x) : round x = x := by
  have hu := unit_pos x
  have hq : x/unit x = m := by
    rw [div_eq_iff hu.ne']
    exact h
  rw [round, hq, nearest_intCast]
  exact h.symm

theorem unit_eq (x : ℚ) (e : ℤ) (hlow : (2 : ℚ)^e ≤ |x|) (hhigh : |x| < (2 : ℚ)^(e+1)) :
    unit x = 2^(e-52) := by
  have hpos : 0 < |x| := lt_of_lt_of_le (zpow_pos (by norm_num) _) hlow
  have h1 := (Int.zpow_le_iff_le_log (b := 2) (by decide) (x := e) hpos).mp (by exact_mod_cast hlow)
  have h2 := (Int.lt_zpow_iff_log_lt (b := 2) (by decide) (x := e+1) hpos).mp
    (by exact_mod_cast hhigh)
  have he : Int.log 2 |x| = e := by omega
  rw [unit, he]

theorem intCast_multiple (n d : ℤ) (h : d ≤ 52) : ∃ m : ℤ, (n : ℚ) = m*2^(d-52) := by
  refine ⟨n*2^(52-d).toNat, ?_⟩
  have hz : (2 : ℚ)^(52-d).toNat = 2^(52-d) := by
    rw [← zpow_natCast, Int.toNat_of_nonneg (by omega)]
  push_cast
  rw [hz, mul_assoc, ← zpow_add₀ (by norm_num)]
  norm_num

theorem round_intCast (n : ℤ) (h : |n| ≤ 2^53) : round (n : ℚ) = n := by
  by_cases h0 : n = 0
  · subst h0
    simp [round, nearest]
  · have hpos : (0 : ℚ) < |(n : ℚ)| := by
      rw [abs_pos]
      exact_mod_cast h0
    have hle : (2 : ℚ)^(Int.log 2 |(n : ℚ)|) ≤ |(n : ℚ)| := by
      exact_mod_cast Int.zpow_log_le_self (b := 2) (by decide) hpos
    have hbound : |(n : ℚ)| ≤ 2^53 := by exact_mod_cast h
    have hlog0 : 0 ≤ Int.log 2 |(n : ℚ)| := by
      apply (Int.zpow_le_iff_le_log (b := 2) (by decide) hpos).mp
      rw [zpow_zero]
      have h1 : (1 : ℤ) ≤ |n| := Int.one_le_abs h0
      exact_mod_cast h1
    by_cases hlog : Int.log 2 |(n : ℚ)| ≤ 52
    · obtain ⟨m, hm⟩ := intCast_multiple n _ hlog
      exact round_exact _ m hm
    · -- only 2^53 itself is left
      have hge : (2 : ℚ)^(53 : ℤ) ≤ 2^(Int.log 2 |(n : ℚ)|) :=
        zpow_le_zpow_right₀ (by norm_num) (by omega)
      have hn : |(n : ℚ)| = 2^(53 : ℤ) := le_antisymm hbound (hge.trans hle)
      have hu : unit (n : ℚ) = 2 := by
        rw [unit_eq (n : ℚ) 53 hn.ge (by rw [hn]; norm_num)]
        norm_num
      rcases abs_cases (n : ℚ) with ⟨ha, -⟩ | ⟨ha, -⟩
      · apply round_exact _ (2^52)
        rw [hu, ← ha, hn]
        norm_num
      · apply round_exact _ (-2^52)
        have hneg : (n : ℚ) = -2^(53 : ℤ) := by linarith
        rw [hu]
        push_cast
        linarith

theorem nearest_near (q : ℚ) (n : ℤ) (h : |q-n| < 1/2) : nearest q = n := by
  obtain ⟨hlow, hhigh⟩ := abs_lt.mp h
  unfold nearest
  by_cases hq : (n : ℚ) ≤ q
  · have hfloor : ⌊q⌋ = n := Int.floor_eq_iff.mpr ⟨hq, by linarith⟩
    rw [hfloor, if_pos hhigh]
  · have hfloor : ⌊q⌋ = n-1 := by
      apply Int.floor_eq_iff.mpr
      push_cast
      constructor <;> linarith
    rw [hfloor]
    push_cast
    rw [if_neg (by linarith), if_pos (by linarith), sub_add_cancel]

theorem nearest_error (q : ℚ) : |nearest q-q| ≤ 1/2 := by
  have hlow := Int.floor_le q
  have hhigh := Int.lt_floor_add_one q
  unfold nearest
  rw [abs_le]
  dsimp only
  split_ifs <;> push_cast <;> constructor <;> linarith

/-- The multiple of the unit that lies within half a unit is the double. -/
theorem round_near (x : ℚ) (m : ℤ) (h : |x-m*unit x| < unit x/2) : round x = m*unit x := by
  have hu := unit_pos x
  rw [round, nearest_near]
  have hdiv : x/unit x-m = (x-m*unit x)/unit x := by
    rw [sub_div, mul_div_assoc, div_self hu.ne', mul_one]
  rw [hdiv, abs_div, abs_of_pos hu, div_lt_iff₀ hu]
  linarith

theorem round_error (x : ℚ) : |round x-x| ≤ unit x/2 := by
  have hu := unit_pos x
  have hx : round x-x = (nearest (x/unit x)-x/unit x)*unit x := by
    rw [sub_mul, div_mul_cancel₀ x hu.ne', round]
  rw [hx, abs_mul, abs_of_pos hu]
  have hn := mul_le_mul_of_nonneg_right (nearest_error (x/unit x)) hu.le
  linarith

theorem unit_le (x : ℚ) (h : x ≠ 0) : unit x ≤ |x|/2^52 := by
  have hlog : (2 : ℚ)^(Int.log 2 |x|) ≤ |x| := by
    exact_mod_cast Int.zpow_log_le_self (b := 2) (by decide) (abs_pos.mpr h)
  rw [unit, zpow_sub₀ (by norm_num)]
  have hpow : (2 : ℚ)^(52 : ℤ) = 2^52 := by norm_num
  rw [hpow]
  exact div_le_div_of_nonneg_right hlog (by positivity)

theorem round_relative (x : ℚ) : |round x-x| ≤ |x|/2^53 := by
  by_cases h : x = 0
  · subst h
    simp [round, nearest]
  · have hround := round_error x
    have hunit := unit_le x h
    linarith

theorem unit_between (x : ℚ) (e f : ℤ) (hlow : (2 : ℚ)^e ≤ |x|) (hhigh : |x| < (2 : ℚ)^f) :
    ∃ d, e ≤ d ∧ d < f ∧ unit x = 2^(d-52) := by
  have hpos : 0 < |x| := lt_of_lt_of_le (zpow_pos (by norm_num) _) hlow
  refine ⟨Int.log 2 |x|, ?_, ?_, rfl⟩
  · exact (Int.zpow_le_iff_le_log (b := 2) (by decide) hpos).mp (by exact_mod_cast hlow)
  · exact (Int.lt_zpow_iff_log_lt (b := 2) (by decide) hpos).mp (by exact_mod_cast hhigh)

end Lib.Binary64
