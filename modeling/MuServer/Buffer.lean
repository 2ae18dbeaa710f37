import MuServer.Basic

/-!
# The connection's input buffer

`buffer_` is the whole vector, so the bytes behind `writerIndex_` that older
messages left there are part of the state. Pointers into the vector are
indices; `peek` and `beginWrite` are the ends of the readable range.
-/

set_option autoImplicit false

namespace MuServer
open Lib.Search

def kCheapPrepend : ℕ := 8
def kInitialSize : ℕ := 1024

structure Buffer where
  buffer_ : Bytes
  readerIndex_ : ℕ
  writerIndex_ : ℕ
  deriving DecidableEq, Repr

namespace Buffer

def create (initialSize : ℕ) : Buffer where
  buffer_ := List.replicate (kCheapPrepend+initialSize) 0
  readerIndex_ := kCheapPrepend
  writerIndex_ := kCheapPrepend

def readableBytes (b : Buffer) : ℕ := b.writerIndex_-b.readerIndex_
def writableBytes (b : Buffer) : ℕ := b.buffer_.length-b.writerIndex_
def prependableBytes (b : Buffer) : ℕ := b.readerIndex_
def peek (b : Buffer) : ℕ := b.readerIndex_
def beginWrite (b : Buffer) : ℕ := b.writerIndex_

def range (b : Buffer) (first last : ℕ) : Bytes := (b.buffer_.take last).drop first

def readable (b : Buffer) : Bytes := b.range b.peek b.beginWrite

def stale (b : Buffer) : Bytes := b.buffer_.drop b.writerIndex_

def retrieveAll (b : Buffer) : Buffer :=
  { b with readerIndex_ := kCheapPrepend, writerIndex_ := kCheapPrepend }

def retrieve (b : Buffer) (len : ℕ) : Except Fault Buffer :=
  if len ≤ b.readableBytes then
    if len < b.readableBytes then .ok { b with readerIndex_ := b.readerIndex_+len }
    else .ok b.retrieveAll
  else .error .assertion

def retrieveAsString (b : Buffer) (len : ℕ) : Except Fault (Bytes × Buffer) :=
  if len ≤ b.readableBytes then do
    let rest ← b.retrieve len
    .ok (b.range b.peek (b.peek+len), rest)
  else .error .assertion

def retrieveAllAsString (b : Buffer) : Except Fault (Bytes × Buffer) :=
  b.retrieveAsString b.readableBytes

def resize (v : Bytes) (n : ℕ) : Bytes := v.take n ++ List.replicate (n-v.length) 0

def overwrite (v : Bytes) (pos : ℕ) (src : Bytes) : Bytes :=
  v.take pos ++ src ++ v.drop (pos+src.length)

def makeSpace (b : Buffer) (len : ℕ) : Except Fault Buffer :=
  if b.writableBytes+b.prependableBytes < len+kCheapPrepend then
    .ok { b with buffer_ := resize b.buffer_ (b.writerIndex_+len) }
  else
    let moved : Buffer :=
      { buffer_ := overwrite b.buffer_ kCheapPrepend b.readable
        readerIndex_ := kCheapPrepend
        writerIndex_ := kCheapPrepend+b.readableBytes }
    if b.readableBytes = moved.readableBytes then .ok moved else .error .assertion

def ensureWritableBytes (b : Buffer) (len : ℕ) : Except Fault Buffer := do
  let c ← if b.writableBytes < len then b.makeSpace len else .ok b
  if len ≤ c.writableBytes then .ok c else .error .assertion

def append (b : Buffer) (data : Bytes) : Except Fault Buffer := do
  let c ← b.ensureWritableBytes data.length
  .ok { c with
    buffer_ := overwrite c.buffer_ c.beginWrite data
    writerIndex_ := c.writerIndex_+data.length }

/-- `std::search` over the readable bytes. A miss is `beginWrite()` and not a
null pointer, so the conditional of the source always takes its first arm. -/
def findCRLF (b : Buffer) : Option ℕ :=
  let crlf : Option ℕ := some (b.peek+search kCRLF (b.range b.peek b.beginWrite))
  match crlf with
  | some p => some p
  | none => none

structure WF (b : Buffer) : Prop where
  prepend : kCheapPrepend ≤ b.readerIndex_
  order : b.readerIndex_ ≤ b.writerIndex_
  size : b.writerIndex_ ≤ b.buffer_.length

theorem create_wf (n : ℕ) : (create n).WF where
  prepend := le_refl _
  order := le_refl _
  size := by simp [create]

@[simp] theorem create_readable (n : ℕ) : (create n).readable = [] := by
  simp [readable, range, create, peek, beginWrite]

@[simp] theorem readable_length (b : Buffer) (h : b.WF) :
    b.readable.length = b.readableBytes := by
  have hs := h.size
  simp only [readable, range, peek, beginWrite, readableBytes, List.length_drop, List.length_take]
  omega

theorem retrieveAll_wf (b : Buffer) (h : b.WF) : b.retrieveAll.WF where
  prepend := le_refl _
  order := le_refl _
  size := h.prepend.trans (h.order.trans h.size)

theorem retrieveAll_readable (b : Buffer) : b.retrieveAll.readable = [] := by
  simp [readable, range, retrieveAll, peek, beginWrite]

theorem retrieve_ok (b : Buffer) (h : b.WF) (n : ℕ) (hn : n ≤ b.readable.length) :
    ∃ c, b.retrieve n = .ok c ∧ c.WF ∧ c.readable = b.readable.drop n := by
  rw [readable_length b h] at hn
  unfold retrieve
  rw [if_pos hn]
  by_cases hlt : n < b.readableBytes
  · rw [if_pos hlt]
    refine ⟨_, rfl, ⟨?_, ?_, h.size⟩, ?_⟩
    · exact h.prepend.trans (Nat.le_add_right _ _)
    · simp only [readableBytes] at hlt
      change b.readerIndex_+n ≤ b.writerIndex_
      omega
    · simp only [readable, range, peek, beginWrite, List.drop_drop]
  · rw [if_neg hlt]
    refine ⟨_, rfl, retrieveAll_wf b h, ?_⟩
    rw [retrieveAll_readable, List.drop_of_length_le]
    rw [readable_length b h]
    omega

theorem retrieve_fails (b : Buffer) (h : b.WF) (n : ℕ) (hn : b.readable.length < n) :
    b.retrieve n = .error .assertion := by
  rw [readable_length b h] at hn
  unfold retrieve
  rw [if_neg (by omega)]

theorem retrieveAsString_ok (b : Buffer) (h : b.WF) (n : ℕ) (hn : n ≤ b.readable.length) :
    ∃ c, b.retrieveAsString n = .ok (b.readable.take n, c) ∧ c.WF ∧
      c.readable = b.readable.drop n := by
  obtain ⟨c, hc, hwf, hr⟩ := retrieve_ok b h n hn
  rw [readable_length b h] at hn
  refine ⟨c, ?_, hwf, hr⟩
  have hs : b.range b.peek (b.peek+n) = b.readable.take n := by
    have ho : b.readerIndex_+n ≤ b.writerIndex_ := by
      have := h.order
      simp only [readableBytes] at hn
      omega
    simp only [readable, range, peek, beginWrite, List.drop_take, List.take_take]
    congr 1
    omega
  unfold retrieveAsString
  rw [if_pos hn, hc, hs]
  rfl

theorem retrieveAllAsString_ok (b : Buffer) (h : b.WF) :
    ∃ c, b.retrieveAllAsString = .ok (b.readable, c) ∧ c.WF ∧ c.readable = [] := by
  have hl := readable_length b h
  obtain ⟨c, hc, hwf, hr⟩ := retrieveAsString_ok b h b.readableBytes hl.ge
  rw [← hl, List.take_length, hl] at hc
  refine ⟨c, hc, hwf, ?_⟩
  rw [hr, ← hl, List.drop_length]

theorem resize_length (v : Bytes) (n : ℕ) : (resize v n).length = n := by
  simp only [resize, List.length_append, List.length_take, List.length_replicate]
  omega

theorem overwrite_length (v : Bytes) (pos : ℕ) (src : Bytes) (h : pos+src.length ≤ v.length) :
    (overwrite v pos src).length = v.length := by
  simp only [overwrite, List.length_append, List.length_take, List.length_drop]
  omega

theorem makeSpace_ok (b : Buffer) (h : b.WF) (n : ℕ) :
    ∃ c, b.makeSpace n = .ok c ∧ c.WF ∧ n ≤ c.writableBytes ∧ c.readable = b.readable := by
  have hp := h.prepend
  have ho := h.order
  have hs := h.size
  have hr := readable_length b h
  simp only [readableBytes] at hr
  by_cases hc : b.writableBytes+b.prependableBytes < n+kCheapPrepend
  · have hl := resize_length b.buffer_ (b.writerIndex_+n)
    refine ⟨{ b with buffer_ := resize b.buffer_ (b.writerIndex_+n) },
      by rw [makeSpace, if_pos hc], ⟨hp, ho, ?_⟩, ?_, ?_⟩
    · simp only [hl]
      omega
    · simp only [writableBytes, hl]
      omega
    · simp only [readable, range, peek, beginWrite, resize]
      rw [List.take_append_of_le_length (by simp only [List.length_take]; omega),
        List.take_take, Nat.min_eq_left (by omega)]
  · have hc' := hc
    simp only [writableBytes, prependableBytes] at hc'
    have hl := overwrite_length b.buffer_ kCheapPrepend b.readable (by omega)
    refine ⟨⟨overwrite b.buffer_ kCheapPrepend b.readable, kCheapPrepend,
        kCheapPrepend+b.readableBytes⟩, ?_, ⟨le_refl _, Nat.le_add_right _ _, ?_⟩, ?_, ?_⟩
    · rw [makeSpace, if_neg hc]
      exact if_pos (by simp only [readableBytes]; omega)
    · simp only [hl, readableBytes]
      omega
    · simp only [writableBytes, readableBytes, hl]
      omega
    · have hk : (b.buffer_.take kCheapPrepend).length = kCheapPrepend := by
        rw [List.length_take]
        omega
      simp only [readable, range, peek, beginWrite, overwrite, readableBytes] at hr ⊢
      rw [List.take_append_of_le_length (by rw [List.length_append]; omega),
        List.take_of_length_le (by rw [List.length_append]; omega),
        List.drop_append_of_le_length (by omega), List.drop_of_length_le (by omega),
        List.nil_append]

theorem ensureWritableBytes_ok (b : Buffer) (h : b.WF) (n : ℕ) :
    ∃ c, b.ensureWritableBytes n = .ok c ∧ c.WF ∧ n ≤ c.writableBytes ∧
      c.readable = b.readable := by
  unfold ensureWritableBytes
  by_cases hn : b.writableBytes < n
  · obtain ⟨c, hc, hwf, hw, hr⟩ := makeSpace_ok b h n
    refine ⟨c, ?_, hwf, hw, hr⟩
    simp [hn, hc, hw, bind, Except.bind]
  · refine ⟨b, ?_, h, by omega, rfl⟩
    simp [hn, bind, Except.bind]

/-- Bytes written to the tail of the vector become readable behind the others. -/
theorem fill_ok (b : Buffer) (h : b.WF) (src : Bytes) (hf : src.length ≤ b.writableBytes) :
    WF { b with
      buffer_ := overwrite b.buffer_ b.writerIndex_ src
      writerIndex_ := b.writerIndex_+src.length } ∧
    readable { b with
      buffer_ := overwrite b.buffer_ b.writerIndex_ src
      writerIndex_ := b.writerIndex_+src.length } = b.readable ++ src := by
  have ho := h.order
  have hs := h.size
  simp only [writableBytes] at hf
  have hl := overwrite_length b.buffer_ b.writerIndex_ src (by omega)
  constructor
  · refine ⟨h.prepend, ho.trans (Nat.le_add_right _ _), ?_⟩
    change b.writerIndex_+src.length ≤ (overwrite b.buffer_ b.writerIndex_ src).length
    omega
  · have ht : (b.buffer_.take b.writerIndex_).length = b.writerIndex_ := by
      rw [List.length_take]
      omega
    simp only [readable, range, peek, beginWrite, overwrite]
    rw [List.take_append_of_le_length (by rw [List.length_append]; omega),
      List.take_of_length_le (by rw [List.length_append]; omega),
      List.drop_append_of_le_length (by omega)]

/-- `append` puts the new bytes behind the readable ones, whatever was there. -/
theorem append_ok (b : Buffer) (h : b.WF) (data : Bytes) :
    ∃ c, b.append data = .ok c ∧ c.WF ∧ c.readable = b.readable ++ data := by
  obtain ⟨c, hc, hwf, hw, hr⟩ := ensureWritableBytes_ok b h data.length
  obtain ⟨hd, hdr⟩ := fill_ok c hwf data hw
  refine ⟨{ c with
      buffer_ := overwrite c.buffer_ c.writerIndex_ data
      writerIndex_ := c.writerIndex_+data.length }, ?_, hd, by rw [hdr, hr]⟩
  simp [append, hc, bind, Except.bind, beginWrite]

end Buffer
end MuServer
