import MuServer.Basic

/-!
# Buffers of a fixed size

A `FixedBuffer` is an array with a pointer into it, here its offset. A byte of
the array that no one has written yet has no value. `append` converts the
room that is left to `size_t`, so it trusts that the pointer is inside.
-/

set_option autoImplicit false

namespace MuServer

def kSmallBuffer : ℕ := 4000
def kLargeBuffer : ℕ := 4000*1000

structure FixedBuffer (SIZE : ℕ) where
  data_ : List (Option Byte)
  cur_ : ℕ
  size_eq : data_.length = SIZE

namespace FixedBuffer

variable {SIZE : ℕ}

def create : FixedBuffer SIZE where
  data_ := List.replicate SIZE none
  cur_ := 0
  size_eq := List.length_replicate

def length (b : FixedBuffer SIZE) : ℕ := b.cur_

def avail (b : FixedBuffer SIZE) : ℤ := (SIZE : ℤ)-b.cur_

def reset (b : FixedBuffer SIZE) : FixedBuffer SIZE := { b with cur_ := 0 }

def bzero (b : FixedBuffer SIZE) : FixedBuffer SIZE where
  data_ := List.replicate SIZE (some 0)
  cur_ := b.cur_
  size_eq := List.length_replicate

def add (b : FixedBuffer SIZE) (len : ℕ) : FixedBuffer SIZE := { b with cur_ := b.cur_+len }

def text (b : FixedBuffer SIZE) : List (Option Byte) := b.data_.take b.cur_

def write (b : FixedBuffer SIZE) (buf : Bytes) : Except Fault (FixedBuffer SIZE) :=
  if h : b.cur_+buf.length ≤ SIZE then
    .ok {
      data_ := b.data_.take b.cur_ ++ buf.map some ++ b.data_.drop (b.cur_+buf.length)
      cur_ := b.cur_
      size_eq := by
        have hsize := b.size_eq
        simp only [List.length_append, List.length_take, List.length_map, List.length_drop]
        omega }
  else .error .outOfRange

def append (b : FixedBuffer SIZE) (buf : Bytes) : Except Fault (FixedBuffer SIZE) :=
  if buf.length < toSize b.avail then (b.write buf).map (fun b => b.add buf.length)
  else .ok b

def Inside (b : FixedBuffer SIZE) : Prop := b.cur_ ≤ SIZE

theorem text_of_empty (b : FixedBuffer SIZE) (h : b.cur_ = 0) : b.text = [] := by
  unfold text
  rw [h, List.take_zero]

theorem avail_toSize (b : FixedBuffer SIZE) (hSIZE : SIZE < 2^64) (h : b.Inside) :
    toSize b.avail = SIZE-b.cur_ := by
  unfold Inside at h
  unfold toSize avail
  omega

def rest (b : FixedBuffer SIZE) : List (Option Byte) := b.data_.drop b.cur_

theorem text_length (b : FixedBuffer SIZE) (h : b.Inside) : b.text.length = b.cur_ := by
  have hsize := b.size_eq
  unfold Inside at h
  unfold text
  rw [List.length_take]
  omega

theorem add_text (b : FixedBuffer SIZE) (len : ℕ) :
    (b.add len).text = b.text ++ b.rest.take len := by
  simp only [text, rest, add, List.take_add]

/-- Bytes are written and the pointer goes behind the first of them. -/
theorem write_add (b : FixedBuffer SIZE) (buf : Bytes) (k : ℕ) (hk : k ≤ buf.length)
    (h : b.cur_+buf.length ≤ SIZE) :
    ∃ b', (b.write buf).map (fun b => b.add k) = .ok b' ∧ b'.cur_ = b.cur_+k
      ∧ b'.text = b.text ++ (buf.take k).map some
      ∧ b'.rest = (buf.drop k).map some ++ b.rest.drop buf.length := by
  unfold write
  rw [dif_pos h]
  have hcur : (b.data_.take b.cur_).length = b.cur_ := text_length b (show b.cur_ ≤ SIZE by omega)
  refine ⟨_, rfl, rfl, ?_, ?_⟩
  · simp only [text, add, List.append_assoc]
    generalize b.data_.take b.cur_ = front at hcur ⊢
    rw [← hcur, List.take_length_add_append, List.take_append_of_le_length (by simpa using hk),
      List.map_take]
  · simp only [rest, add, List.append_assoc, List.drop_drop]
    generalize b.data_.take b.cur_ = front at hcur ⊢
    rw [← hcur, List.drop_length_add_append, List.drop_append_of_le_length (by simpa using hk),
      List.map_drop]

theorem write_rest (b : FixedBuffer SIZE) (buf : Bytes) (k : ℕ) (hk : k ≤ buf.length)
    (b' : FixedBuffer SIZE) (h : (b.write buf).map (fun b => b.add k) = .ok b') :
    b'.rest = (buf.drop k).map some ++ b.rest.drop buf.length := by
  by_cases hfits : b.cur_+buf.length ≤ SIZE
  · obtain ⟨b'', hwrite, -, -, hrest⟩ := b.write_add buf k hk hfits
    rw [hwrite] at h
    obtain rfl := Except.ok.inj h
    exact hrest
  · simp [write, hfits, Except.map] at h

theorem append_fits (b : FixedBuffer SIZE) (buf : Bytes) (hSIZE : SIZE < 2^64)
    (h : b.cur_+buf.length < SIZE) :
    ∃ b', b.append buf = .ok b' ∧ b'.cur_ = b.cur_+buf.length
      ∧ b'.text = b.text ++ buf.map some := by
  have hroom : buf.length < toSize b.avail := by
    rw [avail_toSize b hSIZE (show b.cur_ ≤ SIZE by omega)]
    omega
  unfold append
  rw [if_pos hroom]
  obtain ⟨b', hwrite, hcur, htext, -⟩ := b.write_add buf buf.length le_rfl h.le
  rw [List.take_length] at htext
  exact ⟨b', hwrite, hcur, htext⟩

theorem append_full (b : FixedBuffer SIZE) (buf : Bytes) (hSIZE : SIZE < 2^64) (h : b.Inside)
    (hfull : SIZE ≤ b.cur_+buf.length) : b.append buf = .ok b := by
  unfold append
  rw [if_neg]
  rw [avail_toSize b hSIZE h]
  unfold Inside at h
  omega

theorem append_empty (b : FixedBuffer SIZE) (buf : Bytes) (hSIZE : SIZE < 2^64) (h : b.cur_ = 0) :
    ∃ b', b.append buf = .ok b' ∧ b'.Inside
      ∧ b'.text = if buf.length < SIZE then buf.map some else [] := by
  by_cases hfits : buf.length < SIZE
  · obtain ⟨b', happend, hcur, htext⟩ := b.append_fits buf hSIZE (by omega)
    refine ⟨b', happend, ?_, ?_⟩
    · show b'.cur_ ≤ SIZE
      omega
    · rw [if_pos hfits, htext, text_of_empty b h, List.nil_append]
  · have hinside : b.Inside := by
      show b.cur_ ≤ SIZE
      omega
    refine ⟨b, b.append_full buf hSIZE hinside (by omega), hinside, ?_⟩
    rw [if_neg hfits, text_of_empty b h]

end FixedBuffer

end MuServer
