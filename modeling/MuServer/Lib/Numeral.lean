import Mathlib.Data.Nat.Digits.Lemmas

/-!
# Numerals

`low base n` lists the digits of `n` from the lowest up, with one digit for
zero. It is what a loop writes that divides by the base at least once.
-/

set_option autoImplicit false

namespace Lib.Numeral

def low (base n : ℕ) : List ℕ := if n = 0 then [0] else Nat.digits base n

theorem low_round (base n : ℕ) (hbase : 1 < base) :
    low base n = n % base :: if n / base = 0 then [] else low base (n / base) := by
  by_cases hn : n = 0
  · simp [low, hn]
  · have hdigits := Nat.digits_def' hbase (Nat.pos_of_ne_zero hn)
    by_cases hq : n / base = 0
    · rw [hq, Nat.digits_zero] at hdigits
      simp [low, hn, hq, hdigits]
    · simp [low, hn, hq, hdigits]

theorem low_ne_nil (base n : ℕ) : low base n ≠ [] := by
  unfold low
  split
  · simp
  · exact Nat.digits_ne_nil_iff_ne_zero.mpr ‹_›

theorem low_lt (base n : ℕ) (hbase : 1 < base) (d : ℕ) (hd : d ∈ low base n) : d < base := by
  unfold low at hd
  split at hd
  · obtain rfl : d = 0 := by simpa using hd
    omega
  · exact Nat.digits_lt_base hbase hd

theorem ofDigits_low (base n : ℕ) : Nat.ofDigits base (low base n) = n := by
  unfold low
  split
  · subst n
    simp
  · exact Nat.ofDigits_digits base n

theorem low_getLast (base n : ℕ) (hn : n ≠ 0) :
    (low base n).getLast (low_ne_nil base n) ≠ 0 := by
  simp only [low, hn, if_false]
  exact Nat.getLast_digit_ne_zero base hn

/-- Digits without a zero on top of others are those of their value. -/
theorem low_ofDigits (base : ℕ) (ds : List ℕ) (hbase : 1 < base) (hne : ds ≠ [])
    (hlt : ∀ d ∈ ds, d < base) (htop : ds.getLast hne = 0 → ds = [0]) :
    low base (Nat.ofDigits base ds) = ds := by
  by_cases hzero : ds.getLast hne = 0
  · obtain rfl := htop hzero
    simp [low]
  · have hdigits := Nat.digits_ofDigits base hbase ds hlt (fun _ => hzero)
    have hpos : Nat.ofDigits base ds ≠ 0 := by
      intro hnone
      rw [hnone, Nat.digits_zero] at hdigits
      exact hne hdigits.symm
    rw [low, if_neg hpos, hdigits]

theorem low_length_le_iff (base n k : ℕ) (hbase : 1 < base) (hk : 0 < k) :
    (low base n).length ≤ k ↔ n < base^k := by
  unfold low
  split
  · subst n
    have hpos : 0 < base^k := Nat.pow_pos (by omega)
    simp only [List.length_singleton]
    omega
  · exact Nat.digits_length_le_iff hbase n

end Lib.Numeral
