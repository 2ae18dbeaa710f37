import MuServer.LogStream

/-!
# Integers in their own types

`convert` on a type `T`: remainder and quotient are those of `T`, every
character is stored at `p`, and `std::reverse` turns the characters around
where they are. Nothing of it leaves the types or the arrays.
-/

set_option autoImplicit false

namespace MuServer
open Lib

class IntegerType (T : Type) where
  toInt : T → ℤ
  /-- a small constant -/
  literal : ℕ → T
  rem : T → T → T
  quot : T → T → T
  toInt_literal : ∀ n, n < 128 → toInt (literal n) = n
  toInt_rem : ∀ i base, 1 < toInt base → toInt (rem i base) = (toInt i).tmod (toInt base)
  toInt_quot : ∀ i base, 1 < toInt base → toInt (quot i base) = (toInt i).tdiv (toInt base)
  low : ∀ i, -2^63 ≤ toInt i
  high : ∀ i, toInt i < 2^64

namespace IntegerType

instance : IntegerType Int32 where
  toInt := Int32.toInt
  literal := Int32.ofNat
  rem i base := i % base
  quot i base := i / base
  toInt_literal n hn := by
    rw [Int32.toInt_ofNat_of_lt (by omega)]
  toInt_rem i base _ := Int32.toInt_mod i base
  toInt_quot i base hbase := by
    apply Int32.toInt_div_of_ne_right
    rintro rfl
    exact absurd hbase (by decide)
  low i := by
    have := i.le_toInt
    omega
  high i := by
    have := i.toInt_lt
    omega

instance : IntegerType Int64 where
  toInt := Int64.toInt
  literal := Int64.ofNat
  rem i base := i % base
  quot i base := i / base
  toInt_literal n hn := by
    rw [Int64.toInt_ofNat_of_lt (by omega)]
  toInt_rem i base _ := Int64.toInt_mod i base
  toInt_quot i base hbase := by
    apply Int64.toInt_div_of_ne_right
    rintro rfl
    exact absurd hbase (by decide)
  low i := i.le_toInt
  high i := by
    have := i.toInt_lt
    omega

instance : IntegerType UInt32 where
  toInt i := i.toNat
  literal := UInt32.ofNat
  rem i base := i % base
  quot i base := i / base
  toInt_literal n hn := by
    rw [UInt32.toNat_ofNat', Nat.mod_eq_of_lt (by omega)]
  toInt_rem i base _ := by simp [Int.tmod_eq_emod_of_nonneg]
  toInt_quot i base _ := by simp
  low i := by omega
  high i := by
    have := i.toNat_lt
    omega

instance : IntegerType UInt64 where
  toInt i := i.toNat
  literal := UInt64.ofNat
  rem i base := i % base
  quot i base := i / base
  toInt_literal n hn := by
    rw [UInt64.toNat_ofNat', Nat.mod_eq_of_lt (by omega)]
  toInt_rem i base _ := by simp [Int.tmod_eq_emod_of_nonneg]
  toInt_quot i base _ := by simp
  low i := by omega
  high i := by
    have := i.toNat_lt
    omega

end IntegerType

open IntegerType

structure Conversion where
  buf : List (Option Byte)
  p : ℕ := 0
  /-- the values that `lsd` has had -/
  lsds : List ℤ := []

namespace Conversion

def store (s : Conversion) (c : Byte) : Except Fault Conversion :=
  if s.p < s.buf.length then .ok { s with buf := s.buf.set s.p (some c) }
  else .error .outOfRange

def next (s : Conversion) : Conversion := { s with p := s.p+1 }

def reads (s : Conversion) (lsd : ℤ) : Conversion := { s with lsds := s.lsds ++ [lsd] }

def reversed (s : Conversion) : Except Fault Conversion :=
  (s.store 0).map (fun s => { s with buf := (s.buf.take s.p).reverse ++ s.buf.drop s.p })

variable {T : Type} [IntegerType T]

def loop (base : T) (digit : ℤ → Except Fault Byte) :
    ℕ → Conversion → T → Except Fault Conversion
  | 0, _, _ => .error .spins
  | fuel+1, s, i =>
    let lsd := toInt (rem i base)
    let i := quot i base
    (digit lsd).bind (fun c => ((s.reads lsd).store c).bind (fun s =>
      if toInt i ≠ 0 then loop base digit fuel s.next i else .ok s.next))

end Conversion

def convertTo {T : Type} [IntegerType T] (buf : List (Option Byte)) (value : T) :
    Except Fault Conversion :=
  (Conversion.loop (literal 10) zero ((toInt value).natAbs+1) { buf := buf } value).bind (fun s =>
    if toInt value < 0 then (s.store (byte '-')).bind (fun s => s.next.reversed)
    else s.reversed)

def convertHexTo (buf : List (Option Byte)) (value : UInt64) : Except Fault Conversion :=
  (Conversion.loop (literal 16) (charAt digitsHex) (value.toNat+1) { buf := buf } value).bind
    Conversion.reversed

namespace Conversion

theorem store_at (front back : List (Option Byte)) (old : Option Byte) (lsds : List ℤ) (c : Byte) :
    store { buf := front ++ old::back, p := front.length, lsds := lsds } c =
      .ok { buf := front ++ some c::back, p := front.length, lsds := lsds } := by
  simp [store]

variable {T : Type} [IntegerType T]

theorem loop_text (base : T) (hbase : 1 < toInt base) (digit : ℤ → Except Fault Byte) (fuel : ℕ)
    (i : T) (text : Bytes) (htext : digitLoop (toInt base) digit fuel (toInt i) = .ok text)
    (front back : List (Option Byte)) (lsds : List ℤ) (hroom : text.length ≤ back.length) :
    ∃ more, loop base digit fuel { buf := front ++ back, p := front.length, lsds := lsds } i =
        .ok {
          buf := front ++ text.map some ++ back.drop text.length
          p := front.length+text.length
          lsds := lsds ++ more } ∧
      ∀ lsd ∈ more, -toInt base < lsd ∧ lsd < toInt base ∧ (0 ≤ toInt i → 0 ≤ lsd) := by
  induction fuel generalizing i text front back lsds with
  | zero => simp [digitLoop] at htext
  | succ fuel ih =>
    have hlsd := toInt_rem i base hbase
    have hquot := toInt_quot i base hbase
    have hfirst : -toInt base < toInt (rem i base) ∧ toInt (rem i base) < toInt base ∧
        (0 ≤ toInt i → 0 ≤ toInt (rem i base)) := by
      rw [hlsd]
      exact ⟨Int.lt_tmod_of_pos _ (by omega), Int.tmod_lt_of_pos _ (by omega),
        fun h => Int.tmod_nonneg _ h⟩
    simp only [digitLoop] at htext
    cases hdigit : digit ((toInt i).tmod (toInt base)) with
    | error f => simp [hdigit, Except.bind] at htext
    | ok c =>
      simp only [hdigit, Except.bind] at htext
      by_cases hmore : (toInt i).tdiv (toInt base) ≠ 0
      · rw [if_pos hmore, ← hquot] at htext
        cases hrest : digitLoop (toInt base) digit fuel (toInt (quot i base)) with
        | error f => simp [hrest, Except.map] at htext
        | ok rest =>
          simp only [hrest, Except.map, Except.ok.injEq] at htext
          subst htext
          obtain ⟨old, back, rfl⟩ : ∃ old tail, back = old::tail :=
            List.exists_cons_of_length_pos (by simp at hroom; omega)
          have hfits : rest.length ≤ back.length := by simpa using hroom
          obtain ⟨more, hloop, hlsds⟩ := ih (quot i base) rest hrest (front ++ [some c]) back
            (lsds ++ [toInt (rem i base)]) hfits
          refine ⟨toInt (rem i base)::more, ?_, ?_⟩
          · simp only [loop, hlsd, hdigit, Except.bind, reads, store_at, hquot, if_pos hmore, next]
            rw [← hlsd]
            simpa [Nat.add_assoc, Nat.add_comm 1] using hloop
          · intro lsd hmem
            rcases List.mem_cons.mp hmem with rfl | hmem
            · exact hfirst
            · obtain ⟨hlow, hhigh, hsign⟩ := hlsds lsd hmem
              refine ⟨hlow, hhigh, fun h => hsign ?_⟩
              rw [hquot]
              exact Int.tdiv_nonneg h (by omega)
      · rw [if_neg hmore] at htext
        obtain rfl := Except.ok.inj htext
        obtain ⟨old, back, rfl⟩ : ∃ old tail, back = old::tail :=
          List.exists_cons_of_length_pos (by simp at hroom; omega)
        refine ⟨[toInt (rem i base)], ?_, ?_⟩
        · simp only [loop, hlsd, hdigit, Except.bind, reads, store_at, hquot, if_neg hmore, next]
          simp
        · intro lsd hmem
          rw [List.mem_singleton.mp hmem]
          exact hfirst

theorem reversed_at (front back : List (Option Byte)) (old : Option Byte) (lsds : List ℤ) :
    reversed { buf := front ++ old::back, p := front.length, lsds := lsds } =
      .ok { buf := front.reverse ++ some 0::back, p := front.length, lsds := lsds } := by
  rw [reversed, store_at]
  simp [Except.map]

end Conversion

section Text

variable {T : Type} [IntegerType T] (buf : List (Option Byte))

structure Written (text : Bytes) (s : Conversion) : Prop where
  buf : s.buf = (text ++ [0]).map some ++ buf.drop (text.length+1)
  p : s.p = text.length

theorem reversed_written (text : Bytes) (lsds : List ℤ) (h : text.length < buf.length) :
    ∃ s, Conversion.reversed {
        buf := text.map some ++ buf.drop text.length, p := text.length, lsds := lsds } = .ok s ∧
      Written buf text.reverse s ∧ s.lsds = lsds := by
  have hdrop : buf.drop text.length = buf[text.length]::buf.drop (text.length+1) :=
    List.drop_eq_getElem_cons h
  have hreversed := Conversion.reversed_at (text.map some) (buf.drop (text.length+1))
    buf[text.length] lsds
  rw [List.length_map] at hreversed
  rw [hdrop]
  exact ⟨_, hreversed, ⟨by simp, by simp⟩, rfl⟩

theorem convertTo_written (v : T) (h : (integerText (toInt v)).length < buf.length) :
    ∃ s, convertTo buf v = .ok s ∧ Written buf (integerText (toInt v)) s ∧
      ∀ lsd ∈ s.lsds, -10 < lsd ∧ lsd < 10 := by
  have hten : toInt (literal 10 : T) = 10 := toInt_literal 10 (by decide)
  have hconvert := convert_eq (toInt v)
  unfold convert at hconvert
  cases hdigits : digitLoop 10 zero ((toInt v).natAbs+1) (toInt v) with
  | error f => simp [hdigits, Except.map] at hconvert
  | ok text =>
    simp only [hdigits, Except.map, Except.ok.injEq] at hconvert
    rw [← hten] at hdigits
    have hlength : text.length < buf.length := by
      rw [← hconvert] at h
      split at h <;> simp at h <;> omega
    obtain ⟨lsds, hloop, hlsds⟩ := Conversion.loop_text (literal 10 : T) (by rw [hten]; decide) zero
      _ v text hdigits [] buf [] hlength.le
    have hinside : ∀ lsd ∈ lsds, -10 < lsd ∧ lsd < 10 := by
      intro lsd hmem
      obtain ⟨hlow, hhigh, -⟩ := hlsds lsd hmem
      rw [hten] at hlow hhigh
      exact ⟨hlow, hhigh⟩
    simp only [List.nil_append, List.length_nil, Nat.zero_add] at hloop
    simp only [convertTo, hloop, Except.bind]
    by_cases hneg : toInt v < 0
    · rw [if_pos hneg] at hconvert ⊢
      have hlonger : (text ++ bytes "-").length < buf.length := by
        rw [← hconvert, List.length_reverse] at h
        exact h
      have hdrop : buf.drop text.length = buf[text.length]::buf.drop (text.length+1) :=
        List.drop_eq_getElem_cons hlength
      have hstore := Conversion.store_at (text.map some) (buf.drop (text.length+1))
        buf[text.length] lsds (byte '-')
      rw [List.length_map, ← hdrop] at hstore
      obtain ⟨s, hs, hwritten, hsame⟩ := reversed_written buf (text ++ bytes "-") lsds hlonger
      rw [hconvert] at hwritten
      refine ⟨s, ?_, hwritten, by rw [hsame]; exact hinside⟩
      rw [hstore]
      simpa [Conversion.next, bytes] using hs
    · rw [if_neg hneg] at hconvert ⊢
      obtain ⟨s, hs, hwritten, hsame⟩ := reversed_written buf text lsds hlength
      rw [hconvert] at hwritten
      exact ⟨s, hs, hwritten, by rw [hsame]; exact hinside⟩

theorem convertHexTo_written (p : UInt64) (h : (numeral 16 hexDigit p.toNat).length < buf.length) :
    ∃ s, convertHexTo buf p = .ok s ∧ Written buf (numeral 16 hexDigit p.toNat) s ∧
      ∀ lsd ∈ s.lsds, 0 ≤ lsd ∧ lsd < 16 := by
  have hsixteen : toInt (literal 16 : UInt64) = 16 := toInt_literal 16 (by decide)
  have hconvert := convertHex_eq p.toNat
  unfold convertHex at hconvert
  cases hdigits : digitLoop 16 (charAt digitsHex) (p.toNat+1) p.toNat with
  | error f => simp [hdigits, Except.map] at hconvert
  | ok text =>
    simp only [hdigits, Except.map, Except.ok.injEq] at hconvert
    rw [← hsixteen] at hdigits
    have hlength : text.length < buf.length := by
      rw [← hconvert, List.length_reverse] at h
      exact h
    obtain ⟨lsds, hloop, hlsds⟩ := Conversion.loop_text (literal 16 : UInt64)
      (by rw [hsixteen]; decide) (charAt digitsHex) _ p text hdigits [] buf [] hlength.le
    simp only [List.nil_append, List.length_nil, Nat.zero_add] at hloop
    obtain ⟨s, hs, hwritten, hsame⟩ := reversed_written buf text lsds hlength
    rw [hconvert] at hwritten
    refine ⟨s, ?_, hwritten, ?_⟩
    · simp only [convertHexTo, hloop, Except.bind]
      exact hs
    · intro lsd hmem
      rw [hsame] at hmem
      obtain ⟨-, hhigh, hsign⟩ := hlsds lsd hmem
      rw [hsixteen] at hhigh
      exact ⟨hsign (Int.natCast_nonneg _), hhigh⟩

structure Converts (v : T) (text : Bytes) (s : Conversion) : Prop where
  written : Written buf text s
  /-- the one numeral of the number, behind a minus if it is negative -/
  numeral : ∃ ds, (∀ other, IsNumeral 10 (toInt v).natAbs other ↔ other = ds) ∧
    text = if toInt v < 0 then byte '-'::ds else ds
  readBack : readInteger text = toInt v
  inside : ∀ lsd ∈ s.lsds, 0 ≤ 9+lsd ∧ 9+lsd < digits.length
  fits : text.length+1 ≤ LogStream.kMaxNumericSize

structure ConvertsHex (p : UInt64) (text : Bytes) (s : Conversion) : Prop where
  written : Written buf text s
  numeral : ∀ other, IsNumeral 16 p.toNat other ↔ other = text
  readBack : numeralValue 16 text = p.toNat
  inside : ∀ lsd ∈ s.lsds, 0 ≤ lsd ∧ lsd < digitsHex.length
  fits : (bytes "0x").length+text.length+1 ≤ LogStream.kMaxNumericSize

theorem convertTo_converts (v : T) (h : 21 ≤ buf.length) :
    ∃ text s, convertTo buf v = .ok s ∧ Converts buf v text s := by
  have hlength := integerText_length (toInt v) (low v) (high v)
  obtain ⟨s, hs, hwritten, hlsds⟩ := convertTo_written buf v (by omega)
  refine ⟨integerText (toInt v), s, hs, hwritten, integerText_numeral (toInt v),
    readInteger_text (toInt v), ?_, ?_⟩
  · intro lsd hmem
    obtain ⟨hlow, hhigh⟩ := hlsds lsd hmem
    have hsize : (digits.length : ℤ) = 19 := rfl
    omega
  · have hmax : LogStream.kMaxNumericSize = 48 := rfl
    omega

theorem convertHexTo_converts (p : UInt64) (h : 17 ≤ buf.length) :
    ∃ text s, convertHexTo buf p = .ok s ∧ ConvertsHex buf p text s := by
  have hlength := hexText_length p.toNat p.toNat_lt
  obtain ⟨s, hs, hwritten, hlsds⟩ := convertHexTo_written buf p (by omega)
  have hnumeral := isNumeral_iff 16 (by decide) (by decide) p.toNat
  refine ⟨numeral 16 hexDigit p.toNat, s, hs, hwritten, hnumeral, ((hnumeral _).mpr rfl).value,
    hlsds, ?_⟩
  have hprefix : (bytes "0x").length = 2 := rfl
  have hmax : LogStream.kMaxNumericSize = 48 := rfl
  omega

/-- With the room that `formatInteger` and `operator<<` make sure of, every
value of every type is written as its numeral. -/
theorem convert_canonical (h : LogStream.kMaxNumericSize ≤ buf.length) :
    (∀ v : Int32, ∃ text s, convertTo buf v = .ok s ∧ Converts buf v text s) ∧
    (∀ v : UInt32, ∃ text s, convertTo buf v = .ok s ∧ Converts buf v text s) ∧
    (∀ v : Int64, ∃ text s, convertTo buf v = .ok s ∧ Converts buf v text s) ∧
    (∀ v : UInt64, ∃ text s, convertTo buf v = .ok s ∧ Converts buf v text s) ∧
    ∀ p : UInt64, ∃ text s, convertHexTo (buf.drop 2) p = .ok s ∧
      ConvertsHex (buf.drop 2) p text s := by
  have hmax : LogStream.kMaxNumericSize = 48 := rfl
  refine ⟨fun v => ?_, fun v => ?_, fun v => ?_, fun v => ?_, fun p => ?_⟩
  · exact convertTo_converts buf v (by omega)
  · exact convertTo_converts buf v (by omega)
  · exact convertTo_converts buf v (by omega)
  · exact convertTo_converts buf v (by omega)
  · apply convertHexTo_converts
    rw [List.length_drop]
    omega

end Text

/-- The smallest `int` in an array of 48 bytes. -/
theorem convert_canonical_min : ∃ text s,
    convertTo (List.replicate 48 none) Int32.minValue = .ok s ∧
      Converts (List.replicate 48 none) Int32.minValue text s :=
  (convert_canonical (List.replicate 48 none) (by decide)).1 Int32.minValue

namespace LogStream

variable {SIZE : ℕ} {T : Type} [IntegerType T]

theorem putNumber_written (b : FixedBuffer SIZE) (text : Bytes) (h : kMaxNumericSize ≤ b.avail)
    (hfits : text.length+1 ≤ kMaxNumericSize) :
    ∃ b', putNumber b (.ok text) = .ok b' ∧ b'.cur_ = b.cur_+text.length ∧
      b'.data_ = b.data_.take b.cur_ ++ (text ++ [0]).map some ++ b.rest.drop (text.length+1) := by
  have hroom : b.cur_+(text ++ [0]).length ≤ SIZE := by
    unfold FixedBuffer.avail at h
    rw [List.length_append, List.length_singleton]
    omega
  obtain ⟨w, hw, hdata, hcur⟩ : ∃ w, b.write (text ++ [0]) = .ok w ∧
      w.data_ = b.data_.take b.cur_ ++ (text ++ [0]).map some
        ++ b.data_.drop (b.cur_+(text ++ [0]).length) ∧ w.cur_ = b.cur_ := by
    unfold FixedBuffer.write
    rw [dif_pos hroom]
    exact ⟨_, rfl, rfl, rfl⟩
  refine ⟨w.add text.length, ?_, ?_, ?_⟩
  · rw [putNumber, if_pos h]
    simp only [Except.bind, hw, Except.map]
  · rw [FixedBuffer.add, hcur]
  · rw [FixedBuffer.add, hdata, FixedBuffer.rest, List.drop_drop, List.length_append,
      List.length_singleton]

theorem rest_length (b : FixedBuffer SIZE) (h : kMaxNumericSize ≤ b.avail) :
    48 ≤ b.rest.length := by
  have hmax : kMaxNumericSize = 48 := rfl
  unfold FixedBuffer.avail at h
  rw [FixedBuffer.rest, List.length_drop, b.size_eq]
  omega

theorem formatInteger_convertTo (b : FixedBuffer SIZE) (v : T) (h : kMaxNumericSize ≤ b.avail) :
    ∃ s b', convertTo b.rest v = .ok s ∧ formatInteger b (toInt v) = .ok b' ∧
      b'.data_ = b.data_.take b.cur_ ++ s.buf ∧ b'.cur_ = b.cur_+s.p := by
  have hmax : kMaxNumericSize = 48 := rfl
  have hrest := rest_length b h
  have hlength := integerText_length (toInt v) (low v) (high v)
  obtain ⟨s, hs, hwritten, -⟩ := convertTo_written b.rest v (by omega)
  obtain ⟨b', hb', hcur, hdata⟩ := putNumber_written b (integerText (toInt v)) h (by omega)
  refine ⟨s, b', hs, ?_, ?_, ?_⟩
  · rw [formatInteger, convert_eq, hb']
  · rw [hdata, hwritten.buf, List.append_assoc]
  · rw [hcur, hwritten.p]

theorem formatPointer_convertHexTo (b : FixedBuffer SIZE) (p : UInt64)
    (h : kMaxNumericSize ≤ b.avail) :
    ∃ s b', convertHexTo (b.rest.drop 2) p = .ok s ∧ formatPointer b p = .ok b' ∧
      b'.data_ = b.data_.take b.cur_ ++ (bytes "0x").map some ++ s.buf ∧
      b'.cur_ = b.cur_+(s.p+2) := by
  have hmax : kMaxNumericSize = 48 := rfl
  have hrest := rest_length b h
  have hlength := hexText_length p.toNat p.toNat_lt
  have htext : (bytes "0x" ++ numeral 16 hexDigit p.toNat).length =
      (numeral 16 hexDigit p.toNat).length+2 := by
    rw [List.length_append, Nat.add_comm]
    rfl
  obtain ⟨s, hs, hwritten, -⟩ := convertHexTo_written (b.rest.drop 2) p (by
    rw [List.length_drop]
    omega)
  obtain ⟨b', hb', hcur, hdata⟩ := putNumber_written b
    (bytes "0x" ++ numeral 16 hexDigit p.toNat) h (by rw [htext]; omega)
  refine ⟨s, b', hs, ?_, ?_, ?_⟩
  · rw [formatPointer, convertHex_eq]
    exact hb'
  · rw [hdata, hwritten.buf, htext, List.drop_drop, Nat.add_right_comm _ 2 1, Nat.add_comm _ 2]
    simp only [List.map_append, List.append_assoc]
  · rw [hcur, hwritten.p, htext]

end LogStream

end MuServer
