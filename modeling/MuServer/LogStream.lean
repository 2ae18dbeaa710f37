import MuServer.Convert
import MuServer.FixedBuffer

/-!
# Streaming values into a buffer

Every overload of `operator<<` has its own check of the room. A number wants
the reserve of `kMaxNumericSize` and is printed where the pointer is, a text
wants a byte more than it has. A `bool` moves the pointer and nothing else.
-/

set_option autoImplicit false

namespace MuServer

structure Printed where
  text : Bytes
  fits : text.length < 48

/-- The values there is an overload for, and the calls of `append`. -/
inductive Value where
  | bool (v : Bool)
  | short (v : Int16)
  | unsignedShort (v : UInt16)
  | int (v : Int32)
  | unsignedInt (v : UInt32)
  | long (v : Int64)
  | unsignedLong (v : UInt64)
  | longLong (v : Int64)
  | unsignedLongLong (v : UInt64)
  | float (v : Printed)
  | double (v : Printed)
  | pointer (p : UInt64)
  | char (v : Byte)
  /-- the bytes at a pointer that may be null, as far as they go -/
  | cString (s : Option Bytes)
  | string (str : Bytes)
  | append (logline : Bytes)

namespace LogStream

variable {SIZE : ℕ}

def kMaxNumericSize : ℤ := 48

def putNumber (buffer_ : FixedBuffer SIZE) (text : Except Fault Bytes) :
    Except Fault (FixedBuffer SIZE) :=
  if kMaxNumericSize ≤ buffer_.avail then
    text.bind (fun text => (buffer_.write (text ++ [0])).map (fun b => b.add text.length))
  else .ok buffer_

def formatInteger (buffer_ : FixedBuffer SIZE) (v : ℤ) : Except Fault (FixedBuffer SIZE) :=
  putNumber buffer_ (convert v)

def formatPointer (buffer_ : FixedBuffer SIZE) (p : UInt64) : Except Fault (FixedBuffer SIZE) :=
  putNumber buffer_ ((convertHex p.toNat).map (fun text => bytes "0x" ++ text))

def formatDouble (buffer_ : FixedBuffer SIZE) (v : Printed) : Except Fault (FixedBuffer SIZE) :=
  putNumber buffer_ (.ok v.text)

def cText (s : Bytes) : Bytes := s.takeWhile (fun c => c ≠ 0)

def put (buffer_ : FixedBuffer SIZE) : Value → Except Fault (FixedBuffer SIZE)
  | .bool v => .ok (buffer_.add (if v then 1 else 0))
  | .short v => formatInteger buffer_ v.toInt
  | .unsignedShort v => formatInteger buffer_ v.toNat
  | .int v => formatInteger buffer_ v.toInt
  | .unsignedInt v => formatInteger buffer_ v.toNat
  | .long v => formatInteger buffer_ v.toInt
  | .unsignedLong v => formatInteger buffer_ v.toNat
  | .longLong v => formatInteger buffer_ v.toInt
  | .unsignedLongLong v => formatInteger buffer_ v.toNat
  | .float v => formatDouble buffer_ v
  | .double v => formatDouble buffer_ v
  | .pointer p => formatPointer buffer_ p
  | .char v => buffer_.append [v]
  | .cString (some s) => buffer_.append (cText s)
  | .cString none => buffer_.append (bytes "(null)")
  | .string str => buffer_.append str
  | .append logline => buffer_.append logline

def putAll (buffer_ : FixedBuffer SIZE) (vs : List Value) : Except Fault (FixedBuffer SIZE) :=
  vs.foldlM put buffer_

def render : Value → Bytes
  | .bool v => if v then bytes "1" else bytes "0"
  | .short v => integerText v.toInt
  | .unsignedShort v => integerText v.toNat
  | .int v => integerText v.toInt
  | .unsignedInt v => integerText v.toNat
  | .long v => integerText v.toInt
  | .unsignedLong v => integerText v.toNat
  | .longLong v => integerText v.toInt
  | .unsignedLongLong v => integerText v.toNat
  | .float v => v.text
  | .double v => v.text
  | .pointer p => bytes "0x" ++ numeral 16 hexDigit p.toNat
  | .char v => [v]
  | .cString (some s) => cText s
  | .cString none => bytes "(null)"
  | .string str => str
  | .append logline => logline

inductive Kind where
  | bool
  | number
  | text
  deriving DecidableEq, Repr

def kind : Value → Kind
  | .bool _ => .bool
  | .char _ | .cString _ | .string _ | .append _ => .text
  | _ => .number

def room (SIZE length : ℕ) (v : Value) : Bool :=
  match kind v with
  | .number => length+48 ≤ SIZE
  | _ => length+(render v).length < SIZE

def part (SIZE length : ℕ) (v : Value) : Bytes := if room SIZE length v then render v else []

def shown (SIZE : ℕ) : ℕ → List Value → Bytes
  | _, [] => []
  | length, v::vs =>
    part SIZE length v ++ shown SIZE (length+(part SIZE length v).length) vs

def expected (SIZE : ℕ) (vs : List Value) : Bytes := shown SIZE 0 vs

theorem shown_append (SIZE length : ℕ) (vs ws : List Value) :
    shown SIZE length (vs ++ ws) =
      shown SIZE length vs ++ shown SIZE (length+(shown SIZE length vs).length) ws := by
  induction vs generalizing length with
  | nil => simp [shown]
  | cons w vs ih =>
    rw [List.cons_append, shown, ih, shown, List.append_assoc, List.length_append, Nat.add_assoc]

theorem expected_append (SIZE : ℕ) (vs ws : List Value) :
    expected SIZE (vs ++ ws) =
      expected SIZE vs ++ shown SIZE (expected SIZE vs).length ws := by
  rw [expected, shown_append, Nat.zero_add]
  rfl

theorem expected_concat (SIZE : ℕ) (vs : List Value) (v : Value) :
    expected SIZE (vs ++ [v]) =
      expected SIZE vs ++ part SIZE (expected SIZE vs).length v := by
  rw [expected_append, shown, shown, List.append_nil]

def Blank (b : FixedBuffer SIZE) : Prop := ∀ c ∈ b.rest, c = none ∨ c = some 0

theorem create_blank : Blank (FixedBuffer.create : FixedBuffer SIZE) := by
  intro c hc
  exact Or.inl (List.eq_of_mem_replicate (List.mem_of_mem_drop hc))

theorem put_number (b : FixedBuffer SIZE) (v : Value) (h : kind v = .number) :
    put b v = putNumber b (.ok (render v)) := by
  cases v with
  | pointer p => simp [put, formatPointer, convertHex_eq, render, Except.map]
  | float v => rfl
  | double v => rfl
  | bool v => cases h
  | char v => cases h
  | cString s => cases h
  | string str => cases h
  | append logline => cases h
  | _ v => simp [put, formatInteger, convert_eq, render]

theorem put_text (b : FixedBuffer SIZE) (v : Value) (h : kind v = .text) :
    put b v = b.append (render v) := by
  cases v with
  | cString s => cases s <;> rfl
  | char v => rfl
  | string str => rfl
  | append logline => rfl
  | _ v => cases h

theorem render_number (v : Value) (h : kind v = .number) : (render v).length < 48 := by
  have hinteger : ∀ i : ℤ, -2^63 ≤ i → i < 2^64 → (integerText i).length < 48 := by
    intro i hlow hhigh
    have := integerText_length i hlow hhigh
    omega
  cases v with
  | bool v => cases h
  | char v => cases h
  | cString s => cases h
  | string str => cases h
  | append logline => cases h
  | float v => exact v.fits
  | double v => exact v.fits
  | pointer p =>
    have := hexText_length p.toNat p.toNat_lt
    simp only [render, List.length_append]
    rw [show (bytes "0x").length = 2 from rfl]
    omega
  | short v =>
    have hlow := v.le_toInt
    have hhigh := v.toInt_lt
    exact hinteger _ (by omega) (by omega)
  | int v =>
    have hlow := v.le_toInt
    have hhigh := v.toInt_lt
    exact hinteger _ (by omega) (by omega)
  | long v => exact hinteger _ v.le_toInt (by have := v.toInt_lt; omega)
  | longLong v => exact hinteger _ v.le_toInt (by have := v.toInt_lt; omega)
  | unsignedShort v => exact hinteger _ (by omega) (by have := v.toNat_lt; omega)
  | unsignedInt v => exact hinteger _ (by omega) (by have := v.toNat_lt; omega)
  | unsignedLong v => exact hinteger _ (by omega) (by have := v.toNat_lt; omega)
  | unsignedLongLong v => exact hinteger _ (by omega) (by have := v.toNat_lt; omega)

theorem putNumber_spec (b : FixedBuffer SIZE) (text : Bytes) (h : b.Inside)
    (htext : text.length < 48) : ∃ b', putNumber b (.ok text) = .ok b' ∧ b'.Inside
      ∧ b'.text = b.text ++ if b.cur_+48 ≤ SIZE then text.map some else [] := by
  unfold FixedBuffer.Inside at h
  unfold putNumber
  by_cases hroom : b.cur_+48 ≤ SIZE
  · have havail : kMaxNumericSize ≤ b.avail := by
      simp only [kMaxNumericSize, FixedBuffer.avail]
      omega
    have hlength : (text ++ [0]).length = text.length+1 := by simp
    obtain ⟨b', hwrite, hcur, htake, -⟩ :=
      b.write_add (text ++ [0]) text.length (by omega) (by omega)
    rw [List.take_left] at htake
    rw [if_pos havail, if_pos hroom]
    refine ⟨b', hwrite, ?_, htake⟩
    show b'.cur_ ≤ SIZE
    omega
  · have havail : ¬ kMaxNumericSize ≤ b.avail := by
      simp only [kMaxNumericSize, FixedBuffer.avail]
      omega
    rw [if_neg havail, if_neg hroom, List.append_nil]
    exact ⟨b, rfl, h, rfl⟩

theorem append_spec (b : FixedBuffer SIZE) (buf : Bytes) (hSIZE : SIZE < 2^31) (h : b.Inside) :
    ∃ b', b.append buf = .ok b' ∧ b'.Inside
      ∧ b'.text = b.text ++ if b.cur_+buf.length < SIZE then buf.map some else [] := by
  by_cases hroom : b.cur_+buf.length < SIZE
  · obtain ⟨b', happend, hcur, htext⟩ := b.append_fits buf (by omega) hroom
    refine ⟨b', happend, ?_, ?_⟩
    · show b'.cur_ ≤ SIZE
      omega
    · rw [if_pos hroom, htext]
  · refine ⟨b, b.append_full buf (by omega) h (by omega), h, ?_⟩
    rw [if_neg hroom, List.append_nil]

theorem put_spec (b : FixedBuffer SIZE) (v : Value) (hSIZE : SIZE < 2^31) (h : b.Inside)
    (hv : kind v ≠ .bool) : ∃ b', put b v = .ok b' ∧ b'.Inside
      ∧ b'.text = b.text ++ (part SIZE b.cur_ v).map some := by
  cases hk : kind v with
  | bool => exact absurd hk hv
  | number =>
    rw [put_number b v hk]
    obtain ⟨b', hput, hinside, htext⟩ := putNumber_spec b (render v) h (render_number v hk)
    refine ⟨b', hput, hinside, ?_⟩
    rw [htext, part]
    simp only [room, hk, decide_eq_true_eq]
    split <;> rfl
  | text =>
    rw [put_text b v hk]
    obtain ⟨b', hput, hinside, htext⟩ := append_spec b (render v) hSIZE h
    refine ⟨b', hput, hinside, ?_⟩
    rw [htext, part]
    simp only [room, hk, decide_eq_true_eq]
    split <;> rfl

theorem put_cur (b : FixedBuffer SIZE) (v : Value) (b' : FixedBuffer SIZE)
    (h : put b v = .ok b') : b.cur_ ≤ b'.cur_ := by
  have hwrite : ∀ buf k, (b.write buf).map (fun b => b.add k) = .ok b' → b.cur_ ≤ b'.cur_ := by
    intro buf k hok
    unfold FixedBuffer.write at hok
    split at hok
    · obtain rfl := Except.ok.inj hok
      exact Nat.le_add_right _ _
    · cases hok
  cases hk : kind v with
  | bool =>
    cases v with
    | bool v =>
      obtain rfl := Except.ok.inj h
      exact Nat.le_add_right _ _
    | _ v => cases hk
  | number =>
    rw [put_number b v hk, putNumber] at h
    split at h
    · exact hwrite _ _ h
    · obtain rfl := Except.ok.inj h
      exact le_rfl
  | text =>
    rw [put_text b v hk, FixedBuffer.append] at h
    split at h
    · exact hwrite _ _ h
    · obtain rfl := Except.ok.inj h
      exact le_rfl

theorem blank_write (b : FixedBuffer SIZE) (buf : Bytes) (k : ℕ) (hk : k ≤ buf.length)
    (hzero : ∀ c ∈ buf.drop k, c = 0) (b' : FixedBuffer SIZE) (hb : Blank b)
    (h : (b.write buf).map (fun b => b.add k) = .ok b') : Blank b' := by
  intro c hc
  rw [b.write_rest buf k hk b' h, List.mem_append] at hc
  rcases hc with hc | hc
  · obtain ⟨c, hmem, rfl⟩ := List.mem_map.mp hc
    rw [hzero c hmem]
    exact Or.inr rfl
  · exact hb c (List.mem_of_mem_drop hc)

theorem put_blank (b : FixedBuffer SIZE) (v : Value) (b' : FixedBuffer SIZE) (hb : Blank b)
    (h : put b v = .ok b') : Blank b' := by
  cases hk : kind v with
  | bool =>
    cases v with
    | bool v =>
      obtain rfl := Except.ok.inj h
      intro c hc
      rw [FixedBuffer.rest, FixedBuffer.add, ← List.drop_drop] at hc
      exact hb c (List.mem_of_mem_drop hc)
    | _ v => cases hk
  | number =>
    rw [put_number b v hk, putNumber] at h
    split at h
    · exact blank_write b _ _ (by simp) (by simp) b' hb h
    · obtain rfl := Except.ok.inj h
      exact hb
  | text =>
    rw [put_text b v hk, FixedBuffer.append] at h
    split at h
    · exact blank_write b _ _ le_rfl (by simp) b' hb h
    · obtain rfl := Except.ok.inj h
      exact hb

theorem putAll_append (b : FixedBuffer SIZE) (vs ws : List Value) :
    putAll b (vs ++ ws) = (putAll b vs).bind (fun b => putAll b ws) := by
  unfold putAll
  rw [List.foldlM_append]
  rfl

theorem putAll_concat (b : FixedBuffer SIZE) (vs : List Value) (v : Value) :
    putAll b (vs ++ [v]) = (putAll b vs).bind (fun b => put b v) := by
  rw [putAll_append]
  cases putAll b vs with
  | error e => rfl
  | ok b => exact bind_pure (put b v)

theorem putAll_blank (vs : List Value) (b : FixedBuffer SIZE)
    (h : putAll .create vs = .ok b) : Blank b := by
  induction vs using List.reverseRecOn generalizing b with
  | nil =>
    obtain rfl := Except.ok.inj h
    exact create_blank
  | append_singleton vs v ih =>
    rw [putAll_concat] at h
    cases hvs : putAll (.create : FixedBuffer SIZE) vs with
    | error e => simp [hvs, Except.bind] at h
    | ok b₀ =>
      rw [hvs] at h
      exact put_blank b₀ v b (ih b₀ hvs) h

theorem putAll_spec (b : FixedBuffer SIZE) (vs : List Value) (hSIZE : SIZE < 2^31)
    (h : b.Inside) (hvs : ∀ v ∈ vs, kind v ≠ .bool) : ∃ b', putAll b vs = .ok b' ∧ b'.Inside
      ∧ b'.text = b.text ++ (shown SIZE b.cur_ vs).map some := by
  induction vs generalizing b with
  | nil => exact ⟨b, rfl, h, by simp [shown]⟩
  | cons v vs ih =>
    obtain ⟨b', hput, hinside, htext⟩ := put_spec b v hSIZE h (hvs v (by simp))
    have hcur : b'.cur_ = b.cur_+(part SIZE b.cur_ v).length := by
      rw [← b'.text_length hinside, htext, List.length_append, List.length_map, b.text_length h]
    obtain ⟨b'', hputs, hinside', htext'⟩ := ih b' hinside (fun w hw => hvs w (by simp [hw]))
    refine ⟨b'', ?_, hinside', ?_⟩
    · unfold putAll at hputs ⊢
      rw [List.foldlM_cons, hput]
      exact hputs
    · rw [htext', htext, hcur, shown, List.map_append, List.append_assoc]

theorem putAll_create (SIZE : ℕ) (vs : List Value) (hSIZE : SIZE < 2^31)
    (hvs : ∀ v ∈ vs, kind v ≠ .bool) : ∃ b : FixedBuffer SIZE, putAll .create vs = .ok b
      ∧ b.Inside ∧ b.text = (expected SIZE vs).map some := by
  obtain ⟨b, hput, hinside, htext⟩ := putAll_spec (.create : FixedBuffer SIZE) vs hSIZE
    (Nat.zero_le SIZE) hvs
  refine ⟨b, hput, hinside, ?_⟩
  rw [htext, FixedBuffer.text_of_empty _ rfl, List.nil_append]
  rfl

theorem putAll_cur (b : FixedBuffer SIZE) (vs : List Value) (b' : FixedBuffer SIZE)
    (h : putAll b vs = .ok b') : b.cur_ ≤ b'.cur_ := by
  induction vs generalizing b with
  | nil =>
    obtain rfl := Except.ok.inj h
    exact le_rfl
  | cons v vs ih =>
    unfold putAll at h
    rw [List.foldlM_cons] at h
    cases hput : put b v with
    | error e =>
      rw [hput] at h
      cases h
    | ok b₁ =>
      rw [hput] at h
      exact (put_cur b v b₁ hput).trans (ih b₁ h)

def Reads (SIZE : ℕ) (vs : List Value) : Prop :=
  ∃ b : FixedBuffer SIZE, putAll .create vs = .ok b ∧ b.length ≤ SIZE
    ∧ b.text = (expected SIZE vs).map some

def Fitting (SIZE : ℕ) (vs : List Value) : Value → Prop
  | .bool v => v = false ∧ SIZE ≤ (expected SIZE vs).length+1
  | _ => True

/-- A `bool` brings a byte into the text that no insertion has written for it. -/
theorem add_bool (b : FixedBuffer SIZE) (text : Bytes) (v : Bool) (hb : Blank b) (h : b.Inside)
    (htext : b.text = text.map some) :
    ((b.add (if v then 1 else 0)).length ≤ SIZE
      ∧ (b.add (if v then 1 else 0)).text = (text ++ part SIZE text.length (.bool v)).map some)
    ↔ v = false ∧ SIZE ≤ text.length+1 := by
  have hcur : b.cur_ = text.length := by
    rw [← b.text_length h, htext, List.length_map]
  rw [b.add_text, htext]
  unfold FixedBuffer.Inside at h
  cases v with
  | false =>
    have hroom : room SIZE text.length (.bool false) = decide (text.length+1 < SIZE) := rfl
    by_cases hfits : text.length+1 < SIZE
    · simp [part, hroom, hfits, render, bytes]
    · simp [part, hroom, hfits, FixedBuffer.length, FixedBuffer.add, h, Nat.not_lt.mp hfits]
  | true =>
    simp only [if_true, Bool.true_eq_false, false_and, iff_false, not_and]
    intro hinside hsame
    have hroom : b.rest ≠ [] := by
      have hsize := b.size_eq
      simp only [FixedBuffer.length, FixedBuffer.add] at hinside
      simp only [FixedBuffer.rest, ne_eq, List.drop_eq_nil_iff]
      omega
    obtain ⟨c, cs, hrest⟩ := List.exists_cons_of_ne_nil hroom
    rw [hrest] at hsame
    have hc : c = none ∨ c = some 0 := hb c (by simp [hrest])
    unfold part at hsame
    split at hsame
    · have hone : c = some (byte '1') := by simpa [render, bytes] using hsame
      rcases hc with rfl | rfl
      · cases hone
      · exact absurd hone (by decide)
    · simpa using congrArg List.length hsame

theorem reads_concat (hSIZE : SIZE < 2^31) (vs : List Value) (v : Value) (h : Reads SIZE vs) :
    Reads SIZE (vs ++ [v]) ↔ Fitting SIZE vs v := by
  obtain ⟨b, hput, hinside, htext⟩ := h
  have hcur : b.cur_ = (expected SIZE vs).length := by
    rw [← b.text_length hinside, htext, List.length_map]
  by_cases hv : kind v = .bool
  · cases v with
    | bool v =>
      unfold Reads
      rw [putAll_concat, hput, expected_concat]
      simp only [Except.bind, put, Except.ok.injEq, exists_eq_left', Fitting]
      exact add_bool b _ v (putAll_blank vs b hput) hinside htext
    | _ v => cases hv
  · have hfit : Fitting SIZE vs v := by
      cases v with
      | bool v => exact absurd rfl hv
      | _ v => trivial
    obtain ⟨b', hput', hinside', htext'⟩ := put_spec b v hSIZE hinside hv
    refine ⟨fun _ => hfit, fun _ => ⟨b', ?_, hinside', ?_⟩⟩
    · rw [putAll_concat, hput]
      exact hput'
    · rw [htext', htext, expected_concat, hcur, List.map_append]

theorem reads_nil (SIZE : ℕ) : Reads SIZE [] :=
  ⟨.create, rfl, Nat.zero_le SIZE, FixedBuffer.text_of_empty _ rfl⟩

/-- A stream reads as it should after each of the values just when each one fits. -/
theorem reads_all (hSIZE : SIZE < 2^31) (vs : List Value) :
    (∀ us, us <+: vs → Reads SIZE us) ↔
      ∀ us v, us ++ [v] <+: vs → Fitting SIZE us v := by
  constructor
  · intro h us v hus
    have hprefix : us <+: vs := (List.prefix_append us [v]).trans hus
    exact (reads_concat hSIZE us v (h us hprefix)).mp (h _ hus)
  · intro h us hus
    induction us using List.reverseRecOn with
    | nil => exact reads_nil SIZE
    | append_singleton us v ih =>
      have hprefix : us <+: vs := (List.prefix_append us [v]).trans hus
      exact (reads_concat hSIZE us v (ih hprefix)).mpr (h us v hus)

theorem reads_all_full : Reads 3 [.string (bytes "ab"), .bool false, .int (-7)] := by
  apply (reads_all (by decide) _).mpr _ _ (List.prefix_refl _)
  intro us v hus
  cases v with
  | bool v =>
    rcases us with _ | ⟨u, _ | ⟨w, us⟩⟩
    · simp at hus
    · obtain ⟨rfl, rfl⟩ : u = .string (bytes "ab") ∧ v = false := by simpa using hus
      exact ⟨rfl, by decide⟩
    · rcases us with _ | ⟨x, us⟩ <;> simp at hus
  | _ v => trivial

/-- A `bool` is neither written nor shown. -/
theorem reads_bool : ¬ Reads 4000 [.bool true] := by
  intro h
  have hfitting := (reads_concat (by decide) [] (.bool true) (reads_nil 4000)).mp h
  exact absurd hfitting.1 (by decide)

end LogStream

end MuServer
