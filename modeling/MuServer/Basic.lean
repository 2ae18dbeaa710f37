import Mathlib.Data.Nat.Digits.Defs
import Mathlib.Tactic.IntervalCases
import MuServer.Lib.Search

/-!
# Bytes, faults and the C++ library functions the server calls

A step of the program either returns or ends the process. The ways to end it
are kept apart: a failed assert is not an access out of bounds.
Library functions follow their documented behaviour in the "C" locale.
-/

set_option autoImplicit false

namespace MuServer

abbrev Byte := UInt8
abbrev Bytes := List Byte

def byte (c : Char) : Byte := UInt8.ofNat c.toNat

def bytes (s : String) : Bytes := s.toList.map byte

def CR : Byte := 13
def LF : Byte := 10
def kCRLF : Bytes := [CR, LF]

inductive Fault where
  /-- a failed `assert`, which aborts the process -/
  | assertion
  /-- a read or write outside the memory of an object -/
  | outOfRange
  | nullPointer
  /-- a C++ exception that leaves the function -/
  | exception
  /-- signed integer overflow -/
  | overflow
  /-- a loop that goes round without an end -/
  | spins
  /-- a fatal log message, which aborts the process -/
  | fatal
  deriving DecidableEq, Repr

structure TimeStamp where
  microsecondsSinceEpoch_ : ℤ := 0
  deriving DecidableEq, Repr

def isspace (c : Byte) : Bool := c = 32 ∨ (9 ≤ c ∧ c ≤ 13)

def isdigit (c : Byte) : Bool := 48 ≤ c ∧ c ≤ 57

def digitsValue (ds : Bytes) : ℕ := ds.foldl (fun v c => 10*v+(c.toNat-48)) 0

def decimal (n : ℕ) : Bytes :=
  if n = 0 then [48] else ((Nat.digits 10 n).map (fun d => UInt8.ofNat (48+d))).reverse

def INT_MAX : ℤ := 2^31-1

/-- `std::stoi`: white space, an optional sign, then as many digits as there
are. No digit is `std::invalid_argument` and a value outside `int` is
`std::out_of_range`; what follows the digits is ignored. -/
def stoi (s : Bytes) : Except Fault ℤ :=
  let t := s.dropWhile isspace
  let neg := t.head? = some (byte '-')
  let u := if neg ∨ t.head? = some (byte '+') then t.tail else t
  let ds := u.takeWhile isdigit
  let v : ℤ := if neg then -(digitsValue ds : ℤ) else digitsValue ds
  if ds = [] then .error .exception
  else if -INT_MAX-1 ≤ v ∧ v ≤ INT_MAX then .ok v
  else .error .exception

def toSize (v : ℤ) : ℕ := (v % 2^64).toNat

theorem isdigit_digit (d : ℕ) (h : d < 10) : isdigit (UInt8.ofNat (48+d)) = true := by
  interval_cases d <;> decide

theorem decimal_digits (n : ℕ) (c : Byte) (hc : c ∈ decimal n) :
    ∃ d, d < 10 ∧ c = UInt8.ofNat (48+d) := by
  unfold decimal at hc
  split at hc
  · exact ⟨0, by decide, by simpa using hc⟩
  · obtain ⟨d, hd, rfl⟩ := List.mem_map.mp (List.mem_reverse.mp hc)
    exact ⟨d, Nat.digits_lt_base (by decide) hd, rfl⟩

theorem decimal_ne_nil (n : ℕ) : decimal n ≠ [] := by
  unfold decimal
  split
  · simp
  · simpa using Nat.digits_ne_nil_iff_ne_zero.mpr ‹_›

theorem digitsValue_reverse (ds : List ℕ) (h : ∀ d ∈ ds, d < 10) :
    digitsValue ((ds.map (fun d => UInt8.ofNat (48+d))).reverse) = Nat.ofDigits 10 ds := by
  induction ds with
  | nil => rfl
  | cons d ds ih =>
    have hd : (UInt8.ofNat (48+d)).toNat = 48+d := by
      have := h d (by simp)
      simp only [UInt8.toNat_ofNat']
      omega
    have ht := ih (fun e he => h e (by simp [he]))
    unfold digitsValue at ht ⊢
    rw [List.map_cons, List.reverse_cons, List.foldl_append, ht, Nat.ofDigits_cons]
    simp only [List.foldl_cons, List.foldl_nil, hd]
    omega

theorem digitsValue_decimal (n : ℕ) : digitsValue (decimal n) = n := by
  unfold decimal
  split
  · subst n
    rfl
  · rw [digitsValue_reverse _ (fun d hd => Nat.digits_lt_base (by decide) hd), Nat.ofDigits_digits]

theorem isdigit_plain (c : Byte) (h : isdigit c = true) :
    isspace c = false ∧ c ≠ byte '-' ∧ c ≠ byte '+' := by
  simp only [isdigit, decide_eq_true_eq] at h
  have hlow : 48 ≤ c.toNat := by simpa using UInt8.le_iff_toNat_le.mp h.1
  refine ⟨?_, ?_, ?_⟩
  · simp only [isspace, decide_eq_false_iff_not, not_or, not_and]
    constructor
    · rintro rfl
      exact absurd hlow (by decide)
    · intro _ hle
      have hhigh : c.toNat ≤ 13 := by simpa using UInt8.le_iff_toNat_le.mp hle
      omega
  · rintro rfl
    exact absurd hlow (by decide)
  · rintro rfl
    exact absurd hlow (by decide)

theorem stoi_digits (s : Bytes) (hne : s ≠ []) (hdigits : ∀ c ∈ s, isdigit c = true)
    (hmax : digitsValue s ≤ 2^31-1) : stoi s = .ok (digitsValue s) := by
  obtain ⟨c, cs, rfl⟩ := List.exists_cons_of_ne_nil hne
  obtain ⟨hspace, hminus, hplus⟩ := isdigit_plain c (hdigits c (by simp))
  have hall : (c::cs).takeWhile isdigit = c::cs := List.takeWhile_eq_self_iff.mpr hdigits
  have hlead : (c::cs).dropWhile isspace = c::cs := by
    rw [List.dropWhile_cons, hspace]
    rfl
  unfold stoi
  simp only [hlead, List.head?_cons, Option.some.injEq, hminus, hplus, or_self, if_false, hall,
    INT_MAX]
  rw [if_neg hne, if_pos]
  constructor <;> omega

theorem stoi_decimal (n : ℕ) (h : n ≤ 2^31-1) : stoi (decimal n) = .ok n := by
  have hdigits : ∀ c ∈ decimal n, isdigit c = true := by
    intro c hc
    obtain ⟨d, hd, rfl⟩ := decimal_digits n c hc
    exact isdigit_digit d hd
  have hstoi := stoi_digits (decimal n) (decimal_ne_nil n) hdigits
  rw [digitsValue_decimal] at hstoi
  exact hstoi h

theorem toSize_natCast (n : ℕ) (h : n ≤ 2^31-1) : toSize n = n := by
  unfold toSize
  omega

end MuServer
