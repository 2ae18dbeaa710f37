import MuServer.Basic
import MuServer.Lib.Numeral

/-!
# Integers as text

`convert` takes the digits of a number from the lowest up, with the remainder
of a truncating division as an index into a table that reads the same to both
sides, and turns the text around in place.
-/

set_option autoImplicit false

namespace MuServer

open Lib

def digits : Bytes := bytes "9876543210123456789"

def digitsHex : Bytes := bytes "0123456789ABCDEF"

def charAt (array : Bytes) (i : ℤ) : Except Fault Byte :=
  if i < 0 then .error .outOfRange
  else match (array ++ [0])[i.toNat]? with
    | some c => .ok c
    | none => .error .outOfRange

def zero (lsd : ℤ) : Except Fault Byte := charAt digits (9+lsd)

def digitLoop (base : ℤ) (digit : ℤ → Except Fault Byte) : ℕ → ℤ → Except Fault Bytes
  | 0, _ => .error .spins
  | fuel+1, i => (digit (i.tmod base)).bind (fun c =>
      if i.tdiv base ≠ 0 then (digitLoop base digit fuel (i.tdiv base)).map (fun p => c::p)
      else .ok [c])

/-- The text in `buf`, whose length is returned; a NUL follows it there. -/
def convert (value : ℤ) : Except Fault Bytes :=
  (digitLoop 10 zero (value.natAbs+1) value).map (fun p =>
    if value < 0 then (p ++ bytes "-").reverse else p.reverse)

def convertHex (value : ℕ) : Except Fault Bytes :=
  (digitLoop 16 (charAt digitsHex) (value+1) value).map List.reverse

def numeral (base : ℕ) (digit : ℕ → Byte) (n : ℕ) : Bytes :=
  ((Numeral.low base n).map digit).reverse

def decDigit (d : ℕ) : Byte := UInt8.ofNat (48+d)

def hexDigit (d : ℕ) : Byte := if d < 10 then decDigit d else UInt8.ofNat (55+d)

def integerText (v : ℤ) : Bytes :=
  if v < 0 then byte '-'::numeral 10 decDigit v.natAbs else numeral 10 decDigit v.natAbs

theorem numeral_decimal (n : ℕ) : numeral 10 decDigit n = decimal n := by
  unfold numeral decimal Numeral.low
  split
  · rfl
  · rfl

/-- The remainder has the sign of the number, whatever round it is. -/
theorem digitLoop_low (base : ℕ) (hbase : 1 < base) (table : ℤ → Except Fault Byte)
    (digit : ℕ → Byte) (s : ℤ) (hs : s = 1 ∨ s = -1)
    (htable : ∀ d : ℕ, d < base → table (s*d) = .ok (digit d)) (fuel n : ℕ) (hfuel : n < fuel) :
    digitLoop base table fuel (s*n) = .ok ((Numeral.low base n).map digit) := by
  induction fuel generalizing n with
  | zero => omega
  | succ fuel ih =>
    have hmod : (s*(n : ℤ)).tmod base = s*((n % base : ℕ) : ℤ) := by
      rcases hs with rfl | rfl <;> simp [Int.tmod_eq_emod_of_nonneg]
    have hdiv : (s*(n : ℤ)).tdiv base = s*((n / base : ℕ) : ℤ) := by
      rcases hs with rfl | rfl <;> simp
    have hround := htable (n % base) (Nat.mod_lt n (by omega))
    rw [digitLoop, hmod, hdiv, hround, Numeral.low_round base n hbase]
    simp only [Except.bind]
    by_cases hq : n / base = 0
    · simp [hq]
    · have hless : n / base < n := by
        apply Nat.div_lt_self _ hbase
        apply Nat.pos_of_ne_zero
        rintro rfl
        exact hq (Nat.zero_div base)
      have hne : s*((n / base : ℕ) : ℤ) ≠ 0 := by
        rcases hs with rfl | rfl <;> omega
      rw [if_pos hne, ih (n / base) (by omega)]
      simp [hq, Except.map]

theorem zero_digit (s : ℤ) (hs : s = 1 ∨ s = -1) (d : ℕ) (hd : d < 10) :
    zero (s*d) = .ok (decDigit d) := by
  rcases hs with rfl | rfl <;> interval_cases d <;> decide

theorem digitsHex_digit (d : ℕ) (hd : d < 16) :
    charAt digitsHex (1*d) = .ok (hexDigit d) := by
  interval_cases d <;> decide

theorem convert_eq (v : ℤ) : convert v = .ok (integerText v) := by
  unfold convert integerText numeral
  by_cases hneg : v < 0
  · have hv : v = -1*(v.natAbs : ℤ) := by omega
    have hloop := digitLoop_low 10 (by decide) zero decDigit (-1) (Or.inr rfl)
      (zero_digit (-1) (Or.inr rfl)) (v.natAbs+1) v.natAbs (Nat.lt_succ_self _)
    rw [← hv] at hloop
    rw [show ((10 : ℕ) : ℤ) = 10 from rfl] at hloop
    rw [hloop]
    simp [Except.map, hneg, bytes]
  · have hv : v = 1*(v.natAbs : ℤ) := by omega
    have hloop := digitLoop_low 10 (by decide) zero decDigit 1 (Or.inl rfl)
      (zero_digit 1 (Or.inl rfl)) (v.natAbs+1) v.natAbs (Nat.lt_succ_self _)
    rw [← hv] at hloop
    rw [show ((10 : ℕ) : ℤ) = 10 from rfl] at hloop
    rw [hloop]
    simp [Except.map, hneg]

theorem convertHex_eq (n : ℕ) : convertHex n = .ok (numeral 16 hexDigit n) := by
  have hloop := digitLoop_low 16 (by decide) (charAt digitsHex) hexDigit 1 (Or.inl rfl)
    digitsHex_digit (n+1) n (Nat.lt_succ_self n)
  rw [one_mul, show ((16 : ℕ) : ℤ) = 16 from rfl] at hloop
  unfold convertHex numeral
  rw [hloop]
  rfl

def digitValue (c : Byte) : ℕ := digitsHex.idxOf c

def numeralValue (base : ℕ) (ds : Bytes) : ℕ := ds.foldl (fun v c => base*v+digitValue c) 0

/-- The numeral of `n`, with a zero in front for the number zero only. -/
structure IsNumeral (base n : ℕ) (ds : Bytes) : Prop where
  ne_nil : ds ≠ []
  digits : ∀ c ∈ ds, c ∈ digitsHex.take base
  leading : ds.head? = some (byte '0') → ds = [byte '0']
  value : numeralValue base ds = n

def readInteger (text : Bytes) : ℤ :=
  if text.head? = some (byte '-') then -(numeralValue 10 text.tail : ℤ) else numeralValue 10 text

theorem digitsHex_getElem (d : ℕ) (hd : d < 16) : digitsHex[d]? = some (hexDigit d) := by
  interval_cases d <;> decide

theorem digitValue_hexDigit (d : ℕ) (hd : d < 16) : digitValue (hexDigit d) = d := by
  interval_cases d <;> decide

theorem hexDigit_zero (d : ℕ) (hd : d < 16) (h : hexDigit d = byte '0') : d = 0 := by
  rw [← digitValue_hexDigit d hd, h]
  rfl

theorem numeralValue_reverse (base : ℕ) (hbase : base ≤ 16) (ds : List ℕ) (h : ∀ d ∈ ds, d < base) :
    numeralValue base (ds.map hexDigit).reverse = Nat.ofDigits base ds := by
  induction ds with
  | nil => rfl
  | cons d ds ih =>
    have hd := h d List.mem_cons_self
    have hrest := ih (fun e he => h e (List.mem_cons_of_mem d he))
    unfold numeralValue at hrest ⊢
    rw [List.map_cons, List.reverse_cons, List.foldl_append, hrest, Nat.ofDigits_cons]
    simp only [List.foldl_cons, List.foldl_nil, digitValue_hexDigit d (by omega)]
    exact Nat.add_comm _ _

theorem numeral_isNumeral (base : ℕ) (hlow : 1 < base) (hhigh : base ≤ 16) (n : ℕ) :
    IsNumeral base n (numeral base hexDigit n) where
  ne_nil := by simpa [numeral] using Numeral.low_ne_nil base n
  digits := by
    intro c hc
    obtain ⟨d, hd, rfl⟩ := List.mem_map.mp (List.mem_reverse.mp hc)
    have hless := Numeral.low_lt base n hlow d hd
    apply List.mem_of_getElem? (i := d)
    rw [List.getElem?_take_of_lt hless]
    exact digitsHex_getElem d (by omega)
  leading := by
    intro hhead
    by_cases hn : n = 0
    · subst hn
      rfl
    · -- the highest digit is not zero
      have hne := Numeral.low_ne_nil base n
      have hlast := Numeral.low_lt base n hlow _ (List.getLast_mem hne)
      rw [numeral, List.head?_reverse, List.getLast?_map, List.getLast?_eq_some_getLast hne,
        Option.map_some, Option.some.injEq] at hhead
      exact absurd (hexDigit_zero _ (by omega) hhead) (Numeral.low_getLast base n hn)
  value := by
    rw [numeral, numeralValue_reverse base hhigh _ (Numeral.low_lt base n hlow),
      Numeral.ofDigits_low]

theorem isNumeral_digits (base : ℕ) (hhigh : base ≤ 16) (n : ℕ) (ds : Bytes)
    (h : IsNumeral base n ds) :
    (∀ d ∈ ds.map digitValue, d < base) ∧ (ds.map digitValue).map hexDigit = ds := by
  have hdigit : ∀ c ∈ ds, digitValue c < base ∧ hexDigit (digitValue c) = c := by
    intro c hc
    obtain ⟨d, hd, rfl⟩ := List.mem_take_iff_getElem.mp (h.digits c hc)
    have hget := digitsHex_getElem d (by omega)
    rw [List.getElem?_eq_getElem (by omega)] at hget
    rw [Option.some.inj hget, digitValue_hexDigit d (by omega)]
    exact ⟨by omega, rfl⟩
  constructor
  · intro d hd
    obtain ⟨c, hc, rfl⟩ := List.mem_map.mp hd
    exact (hdigit c hc).1
  · have hsame : ds.map (hexDigit ∘ digitValue) = ds.map id :=
      List.map_congr_left (fun c hc => (hdigit c hc).2)
    rw [List.map_map, hsame, List.map_id]

theorem numeral_unique (base : ℕ) (hlow : 1 < base) (hhigh : base ≤ 16) (n : ℕ) (ds : Bytes)
    (h : IsNumeral base n ds) : ds = numeral base hexDigit n := by
  obtain ⟨hless, hmap⟩ := isNumeral_digits base hhigh n ds h
  have hless' : ∀ d ∈ (ds.map digitValue).reverse, d < base :=
    fun d hd => hless d (List.mem_reverse.mp hd)
  have hne : (ds.map digitValue).reverse ≠ [] := by simpa using h.ne_nil
  have htop : (ds.map digitValue).reverse.getLast hne = 0 → (ds.map digitValue).reverse = [0] := by
    obtain ⟨c, cs, rfl⟩ := List.exists_cons_of_ne_nil h.ne_nil
    intro hzero
    rw [List.getLast_reverse, List.head_map, List.head_cons] at hzero
    rw [List.map_cons, List.map_cons, hzero] at hmap
    have hc : c = byte '0' := (List.cons.inj hmap).1.symm
    rw [h.leading (by rw [hc]; rfl)]
    rfl
  have hvalue : Nat.ofDigits base (ds.map digitValue).reverse = n := by
    rw [← numeralValue_reverse base hhigh _ hless', List.map_reverse, List.reverse_reverse, hmap,
      h.value]
  have hdigits := Numeral.low_ofDigits base _ hlow hne hless' htop
  rw [hvalue] at hdigits
  rw [numeral, hdigits, List.map_reverse, List.reverse_reverse, hmap]

theorem isNumeral_iff (base : ℕ) (hlow : 1 < base) (hhigh : base ≤ 16) (n : ℕ) (ds : Bytes) :
    IsNumeral base n ds ↔ ds = numeral base hexDigit n := by
  constructor
  · exact numeral_unique base hlow hhigh n ds
  · rintro rfl
    exact numeral_isNumeral base hlow hhigh n

theorem numeral_decDigit (n : ℕ) : numeral 10 decDigit n = numeral 10 hexDigit n := by
  unfold numeral
  congr 1
  apply List.map_congr_left
  intro d hd
  rw [hexDigit, if_pos (Numeral.low_lt 10 n (by decide) d hd)]

theorem integerText_numeral (v : ℤ) : ∃ ds, (∀ other, IsNumeral 10 v.natAbs other ↔ other = ds) ∧
    integerText v = if v < 0 then byte '-'::ds else ds := by
  refine ⟨numeral 10 decDigit v.natAbs, ?_, rfl⟩
  rw [numeral_decDigit]
  exact isNumeral_iff 10 (by decide) (by decide) v.natAbs

theorem readInteger_text (v : ℤ) : readInteger (integerText v) = v := by
  obtain ⟨ds, hds, htext⟩ := integerText_numeral v
  have hnumeral := (hds ds).mpr rfl
  rw [htext, readInteger]
  by_cases hneg : v < 0
  · rw [if_pos hneg, List.head?_cons, if_pos rfl, List.tail_cons, hnumeral.value]
    omega
  · have hminus : ds.head? ≠ some (byte '-') := by
      intro hhead
      exact absurd (hnumeral.digits _ (List.mem_of_head? hhead)) (by decide)
    rw [if_neg hneg, if_neg hminus, hnumeral.value]
    omega

theorem numeral_length (base : ℕ) (digit : ℕ → Byte) (n : ℕ) :
    (numeral base digit n).length = (Numeral.low base n).length := by
  simp [numeral]

theorem integerText_length (v : ℤ) (hlow : -2^63 ≤ v) (hhigh : v < 2^64) :
    (integerText v).length ≤ 20 := by
  by_cases hneg : v < 0
  · have hdigits : (Numeral.low 10 v.natAbs).length ≤ 19 := by
      rw [Numeral.low_length_le_iff 10 _ 19 (by decide) (by decide)]
      omega
    simp only [integerText, hneg, if_true, List.length_cons, numeral_length]
    omega
  · have hdigits : (Numeral.low 10 v.natAbs).length ≤ 20 := by
      rw [Numeral.low_length_le_iff 10 _ 20 (by decide) (by decide)]
      omega
    simp only [integerText, hneg, if_false, numeral_length]
    exact hdigits

theorem hexText_length (n : ℕ) (h : n < 2^64) : (numeral 16 hexDigit n).length ≤ 16 := by
  rw [numeral_length, Numeral.low_length_le_iff 16 _ 16 (by decide) (by decide)]
  omega

end MuServer
