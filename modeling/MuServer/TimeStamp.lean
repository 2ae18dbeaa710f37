import MuServer.Basic
import MuServer.Lib.Binary64

/-!
# Time stamps

Time stamps are compared as numbers of microseconds. Adding an interval in
seconds goes through doubles: the stamp is converted, the interval is scaled
to microseconds, and the sum is cut off towards zero. Within 2^53 microseconds
of the epoch no whole microsecond is lost when the scaled interval is whole
itself, or when the stamp leaves the sum fewer than three binary places.
-/

set_option autoImplicit false

namespace MuServer

open Lib

def kMicroSecondsPerSecond : ℤ := 1000*1000

def truncate (x : ℚ) : ℤ := if 0 ≤ x then ⌊x⌋ else ⌈x⌉

/-- The conversion of a double to `int64_t`, undefined outside of its range. -/
def toInt64 (x : ℚ) : Except Fault ℤ :=
  if -2^63 ≤ truncate x ∧ truncate x < 2^63 then .ok (truncate x) else .error .overflow

namespace TimeStamp

instance : LinearOrder TimeStamp :=
  LinearOrder.lift' microsecondsSinceEpoch_ (by
    rintro ⟨a⟩ ⟨b⟩ h
    exact congrArg mk h)

theorem le_iff (s t : TimeStamp) :
    s ≤ t ↔ s.microsecondsSinceEpoch_ ≤ t.microsecondsSinceEpoch_ := Iff.rfl

theorem lt_iff (s t : TimeStamp) :
    s < t ↔ s.microsecondsSinceEpoch_ < t.microsecondsSinceEpoch_ := Iff.rfl

def add (ts : TimeStamp) (seconds : ℚ) : Except Fault TimeStamp := do
  let microseconds ← toInt64 (Binary64.round (Binary64.round ts.microsecondsSinceEpoch_
    + Binary64.round (seconds*kMicroSecondsPerSecond)))
  return ⟨microseconds⟩

/-- The seconds are a whole number of microseconds, one way or the other: the
scaled double comes out whole, or the double is the nearest one to the number
and the stamp is late enough for the sum to absorb its error. -/
def Whole (ts : TimeStamp) (seconds : ℚ) (m : ℤ) : Prop :=
  Binary64.round (seconds*kMicroSecondsPerSecond) = m
    ∨ (seconds = Binary64.round (m/kMicroSecondsPerSecond) ∧ 0 < m ∧ m ≤ 2^48
      ∧ 2^50 ≤ ts.microsecondsSinceEpoch_)

def Exact (ts : TimeStamp) : Prop :=
  |ts.microsecondsSinceEpoch_| ≤ 2^53

instance (ts : TimeStamp) : Decidable ts.Exact :=
  inferInstanceAs (Decidable (|ts.microsecondsSinceEpoch_| ≤ 2^53))

end TimeStamp

theorem truncate_intCast (n : ℤ) : truncate (n : ℚ) = n := by
  unfold truncate
  split
  · exact Int.floor_intCast n
  · exact Int.ceil_intCast n

theorem toInt64_intCast (n : ℤ) (h : -2^63 ≤ n ∧ n < 2^63) : toInt64 (n : ℚ) = .ok n := by
  rw [toInt64, truncate_intCast, if_pos h]

/-- Scaled to microseconds, the double nearest to a number of them is off by
less than an eighth. -/
theorem scaled_error (m : ℤ) (h0 : 0 < m) (h : m ≤ 2^48) :
    |Binary64.round (Binary64.round (m/kMicroSecondsPerSecond)*kMicroSecondsPerSecond)-m|
      < 1/8 := by
  have hk : (kMicroSecondsPerSecond : ℚ) = 1000000 := by norm_num [kMicroSecondsPerSecond]
  have hm0 : (0 : ℚ) ≤ m := by exact_mod_cast h0.le
  have hm : (m : ℚ) ≤ 2^48 := by exact_mod_cast h
  rw [hk]
  set s := Binary64.round ((m : ℚ)/1000000) with hs
  have hseconds : |s-m/1000000| ≤ m/1000000/2^53 := by
    have := Binary64.round_relative ((m : ℚ)/1000000)
    rwa [abs_of_nonneg (by positivity : (0 : ℚ) ≤ m/1000000), ← hs] at this
  have hscaled : |s*1000000-m| ≤ m/2^53 := by
    have heq : s*1000000-m = (s-m/1000000)*1000000 := by ring
    rw [heq, abs_mul, abs_of_pos (by norm_num : (0 : ℚ) < 1000000)]
    calc |s-m/1000000| * 1000000 ≤ m/1000000/2^53*1000000 :=
          mul_le_mul_of_nonneg_right hseconds (by norm_num)
      _ = m/2^53 := by ring
  have hround := Binary64.round_relative (s*1000000)
  have hsize : |s*1000000| ≤ 2*m := by
    have h1 := abs_le.mp hscaled
    rw [abs_le]
    constructor <;> linarith [h1.1, h1.2]
  have hfirst := abs_le.mp hround
  have hsecond := abs_le.mp hscaled
  rw [abs_lt]
  constructor <;> linarith [hfirst.1, hfirst.2, hsecond.1, hsecond.2]

theorem sum_near (t m : ℤ) (p : ℚ) (ht : 2^50 ≤ t) (hm : 0 < m) (hsum : t+m ≤ 2^53)
    (hp : |p-m| < 1/8) : Binary64.round (t+p) = ((t+m : ℤ) : ℚ) := by
  have hlow : (2^50 : ℚ) ≤ t := by exact_mod_cast ht
  have hhigh : ((t+m : ℤ) : ℚ) ≤ 2^53 := by exact_mod_cast hsum
  have hm1 : (1 : ℚ) ≤ m := by exact_mod_cast hm
  have hnear := abs_lt.mp hp
  have hdiff : (t : ℚ)+p-((t+m : ℤ) : ℚ) = p-m := by
    push_cast
    ring
  have hpos : (0 : ℚ) ≤ t+p := by linarith [hnear.1]
  by_cases hx : (t : ℚ)+p < 2^53
  · obtain ⟨d, h50, h53, hunit⟩ := Binary64.unit_between (t+p) 50 53
      (by rw [abs_of_nonneg hpos]; norm_num; linarith [hnear.1])
      (by rw [abs_of_nonneg hpos]; norm_num at hx ⊢; exact hx)
    obtain ⟨k, hk⟩ := Binary64.intCast_multiple (t+m) d (by omega)
    have hquarter : (1 : ℚ)/4 ≤ 2^(d-52) := by
      calc (1 : ℚ)/4 = 2^(-2 : ℤ) := by norm_num
        _ ≤ 2^(d-52) := zpow_le_zpow_right₀ (by norm_num) (by omega)
    rw [Binary64.round_near (t+p) k, hunit, hk]
    rw [hunit, ← hk, hdiff]
    linarith
  · -- the unit is two here, but so is 2^53 a multiple of it
    have hlast : t+m = 2^53 := by
      have h1 : ((2^53-1 : ℤ) : ℚ) < ((t+m : ℤ) : ℚ) := by
        push_cast
        linarith [hnear.2, not_lt.mp hx]
      have h2 : 2^53-1 < t+m := by exact_mod_cast h1
      omega
    have hunit : Binary64.unit (t+p) = 2 := by
      rw [Binary64.unit_eq (t+p) 53]
      · norm_num
      · rw [abs_of_nonneg hpos]
        norm_num at hx ⊢
        exact hx
      · rw [abs_of_nonneg hpos]
        push_cast at hhigh
        norm_num at hhigh ⊢
        linarith [hnear.2]
    rw [Binary64.round_near (t+p) (2^52), hunit, hlast]
    · norm_num
    · have hlastq : ((2^52 : ℤ) : ℚ)*2 = ((t+m : ℤ) : ℚ) := by
        rw [hlast]
        norm_num
      rw [hunit, hlastq, hdiff]
      linarith

namespace TimeStamp

/-- A sum that stays in the range where whole microseconds are doubles. -/
theorem add_whole (ts : TimeStamp) (seconds : ℚ) (m : ℤ) (hw : Whole ts seconds m)
    (h : ts.Exact) (hsum : Exact ⟨ts.microsecondsSinceEpoch_+m⟩) :
    ts.add seconds = .ok ⟨ts.microsecondsSinceEpoch_+m⟩ := by
  obtain ⟨t⟩ := ts
  simp only [Exact] at h hsum
  have hrange := abs_le.mp hsum
  have hts : Binary64.round (t : ℚ) = t := Binary64.round_intCast t h
  have hround : Binary64.round (Binary64.round t+Binary64.round (seconds*kMicroSecondsPerSecond))
      = ((t+m : ℤ) : ℚ) := by
    rw [hts]
    rcases hw with hm | ⟨rfl, hm0, hm, hlate⟩
    · rw [hm]
      have := Binary64.round_intCast (t+m) hsum
      push_cast at this ⊢
      exact this
    · have herr := scaled_error m hm0 hm
      exact sum_near t m _ hlate hm0 hrange.2 herr
  simp only [add, hround, toInt64_intCast (t+m) (by omega)]
  rfl

theorem scaled_second :
    Binary64.round (1*(kMicroSecondsPerSecond : ℚ)) = kMicroSecondsPerSecond := by
  rw [one_mul]
  exact Binary64.round_intCast _ (by decide)

/-- Past 2^53 a microsecond is lost: every other integer is a double. -/
theorem add_inexact : add ⟨2^53+1⟩ 1 = .ok ⟨2^53+kMicroSecondsPerSecond⟩ := by
  have hunit (x : ℚ) (hlow : 2^53 ≤ x) (hhigh : x < 2^54) : Binary64.unit x = 2 := by
    rw [Binary64.unit_eq x 53]
    · norm_num
    · rw [abs_of_nonneg (by linarith)]
      exact_mod_cast hlow
    · rw [abs_of_nonneg (by linarith)]
      exact_mod_cast hhigh
  have hstamp : Binary64.round ((2^53+1 : ℤ) : ℚ) = 2^53 := by
    rw [Binary64.round, hunit _ (by norm_num) (by norm_num)]
    have hfloor : ⌊((2^53+1 : ℤ) : ℚ)/2⌋ = 2^52 := by
      rw [Int.floor_eq_iff]
      norm_num
    -- half-way, and the even one is below
    simp only [Binary64.nearest, hfloor]
    norm_num
  have hsum : Binary64.round (2^53+(kMicroSecondsPerSecond : ℚ))
      = ((2^53+kMicroSecondsPerSecond : ℤ) : ℚ) := by
    rw [Binary64.round_exact _ (2^52+500000), kMicroSecondsPerSecond]
    · norm_num
    · rw [hunit] <;> norm_num [kMicroSecondsPerSecond]
  simp only [add, hstamp, scaled_second, hsum,
    toInt64_intCast (2^53+kMicroSecondsPerSecond) (by decide)]
  rfl

end TimeStamp

end MuServer
