import MuServer.Buffer

/-!
# The buffer in machine words

The indexes are `size_t`, so sums and differences wrap at 2^64, and a pointer
handed to `std::copy` or to a constructor has to stay inside its object. These
are the functions of the class with that arithmetic. Where the index invariant
holds and the vector may grow as far as needed they compute what the functions
on unbounded numbers compute.
-/

set_option autoImplicit false

namespace MuServer

def kExtraBuf : ℕ := 65536

def extrabufInit : Bytes := List.replicate kExtraBuf 0

theorem extrabufInit_length : extrabufInit.length = kExtraBuf := List.length_replicate

inductive Readv where
  | got (data : Bytes)
  | failed
  deriving DecidableEq, Repr

def Readv.data : Readv → Bytes
  | .got data => data
  | .failed => []

def Readv.n : Readv → ℕ
  | .got data => data.length
  | .failed => 2^64-1

namespace Buffer

def iovecLength (b : Buffer) : ℕ :=
  b.writableBytes+(if b.writableBytes < kExtraBuf then kExtraBuf else 0)

def readFd (b : Buffer) (data : Bytes) : Except Fault Buffer :=
  let writeable := b.writableBytes
  let v := overwrite b.buffer_ b.beginWrite (data.take writeable)
  if data.length ≤ writeable then
    .ok { b with buffer_ := v, writerIndex_ := b.writerIndex_+data.length }
  else
    Buffer.append { b with buffer_ := v, writerIndex_ := v.length } (data.drop writeable)

def sizeFor (b : Buffer) (len : ℕ) : ℕ :=
  if b.writableBytes < len ∧ b.writableBytes+b.prependableBytes < len+kCheapPrepend then
    b.writerIndex_+len
  else b.buffer_.length

/-- The new bytes lie behind the readable ones, in the tail of the vector or
by way of the side buffer. -/
theorem readFd_ok (b : Buffer) (h : b.WF) (data : Bytes) :
    ∃ c, b.readFd data = .ok c ∧ c.WF ∧ c.readable = b.readable ++ data := by
  have hs := h.size
  by_cases hw : data.length ≤ b.writableBytes
  · obtain ⟨hc, hr⟩ := fill_ok b h data hw
    refine ⟨{ b with
        buffer_ := overwrite b.buffer_ b.writerIndex_ data
        writerIndex_ := b.writerIndex_+data.length }, ?_, hc, hr⟩
    rw [readFd, if_pos hw, List.take_of_length_le hw]
    rfl
  · have hl : (data.take b.writableBytes).length = b.writableBytes := by
      rw [List.length_take]
      omega
    obtain ⟨hc, hr⟩ := fill_ok b h (data.take b.writableBytes) hl.le
    -- `readv` filled the vector to its end
    have hend : b.writerIndex_+(data.take b.writableBytes).length =
        (overwrite b.buffer_ b.writerIndex_ (data.take b.writableBytes)).length := by
      rw [overwrite_length _ _ _ (by rw [hl]; unfold writableBytes; omega), hl]
      unfold writableBytes
      omega
    rw [hend] at hc hr
    obtain ⟨d, hd, hdwf, hdr⟩ := append_ok _ hc (data.drop b.writableBytes)
    refine ⟨d, ?_, hdwf, ?_⟩
    · rw [readFd, if_neg hw]
      exact hd
    · rw [hdr, hr, List.append_assoc, List.take_append_drop]

end Buffer

namespace BufferWords

def add (a b : ℕ) : ℕ := (a+b) % 2^64
def sub (a b : ℕ) : ℕ := (a+2^64-b) % 2^64

def maxSize : ℕ := 2^63-1

def resize (v : Bytes) (n : ℕ) : Except Fault Bytes :=
  if n ≤ maxSize then .ok (Buffer.resize v n) else .error .exception

def load (v : Bytes) (first last : ℕ) : Except Fault Bytes :=
  if first ≤ last ∧ last ≤ v.length then .ok ((v.take last).drop first)
  else .error .outOfRange

def store (v : Bytes) (pos : ℕ) (src : Bytes) : Except Fault Bytes :=
  if pos+src.length ≤ v.length then .ok (Buffer.overwrite v pos src) else .error .outOfRange

def readableBytes (b : Buffer) : ℕ := sub b.writerIndex_ b.readerIndex_
def writableBytes (b : Buffer) : ℕ := sub b.buffer_.length b.writerIndex_
def prependableBytes (b : Buffer) : ℕ := b.readerIndex_

def retrieveAll (b : Buffer) : Buffer :=
  { b with readerIndex_ := kCheapPrepend, writerIndex_ := kCheapPrepend }

def retrieve (b : Buffer) (len : ℕ) : Except Fault Buffer :=
  if len ≤ readableBytes b then
    if len < readableBytes b then .ok { b with readerIndex_ := add b.readerIndex_ len }
    else .ok (retrieveAll b)
  else .error .assertion

def retrieveAsString (b : Buffer) (len : ℕ) : Except Fault (Bytes × Buffer) :=
  if len ≤ readableBytes b then do
    let result ← load b.buffer_ b.readerIndex_ (add b.readerIndex_ len)
    let rest ← retrieve b len
    .ok (result, rest)
  else .error .assertion

def makeSpace (b : Buffer) (len : ℕ) : Except Fault Buffer :=
  if add (writableBytes b) (prependableBytes b) < add len kCheapPrepend then do
    let v ← resize b.buffer_ (add b.writerIndex_ len)
    .ok { b with buffer_ := v }
  else do
    let readable := readableBytes b
    let src ← load b.buffer_ b.readerIndex_ b.writerIndex_
    let v ← store b.buffer_ kCheapPrepend src
    let moved : Buffer :=
      { buffer_ := v
        readerIndex_ := kCheapPrepend
        writerIndex_ := add kCheapPrepend readable }
    if readable = readableBytes moved then .ok moved else .error .assertion

def ensureWritableBytes (b : Buffer) (len : ℕ) : Except Fault Buffer := do
  let c ← if writableBytes b < len then makeSpace b len else .ok b
  if len ≤ writableBytes c then .ok c else .error .assertion

/-- `append(const char *data, size_t len)`, `data` being the whole object that
the pointer points to. -/
def append (b : Buffer) (data : Bytes) (len : ℕ) : Except Fault Buffer := do
  let c ← ensureWritableBytes b len
  let src ← load data 0 len
  let v ← store c.buffer_ c.writerIndex_ src
  .ok { c with buffer_ := v, writerIndex_ := add c.writerIndex_ len }

def readFd (b : Buffer) (r : Readv) : Except Fault Buffer := do
  let writeable := writableBytes b
  let v ← store b.buffer_ b.writerIndex_ (r.data.take writeable)
  let extrabuf ← store extrabufInit 0 (r.data.drop writeable)
  if r.n ≤ writeable then
    .ok { b with buffer_ := v, writerIndex_ := add b.writerIndex_ r.n }
  else
    append { b with buffer_ := v, writerIndex_ := v.length } extrabuf (sub r.n writeable)

theorem add_eq (a b : ℕ) (h : a+b < 2^64) : add a b = a+b := Nat.mod_eq_of_lt h

theorem sub_eq (a b : ℕ) (ha : a < 2^64) (h : b ≤ a) : sub a b = a-b := by
  unfold sub
  omega

theorem load_eq (v : Bytes) (first last : ℕ) (h : first ≤ last) (hl : last ≤ v.length) :
    load v first last = .ok ((v.take last).drop first) := if_pos ⟨h, hl⟩

theorem store_eq (v : Bytes) (pos : ℕ) (src : Bytes) (h : pos+src.length ≤ v.length) :
    store v pos src = .ok (Buffer.overwrite v pos src) := if_pos h

theorem resize_eq (v : Bytes) (n : ℕ) (h : n ≤ maxSize) :
    resize v n = .ok (Buffer.resize v n) := if_pos h

structure Bounded (b : Buffer) : Prop where
  wf : b.WF
  size : b.buffer_.length ≤ maxSize

theorem readableBytes_eq (b : Buffer) (h : Bounded b) : readableBytes b = b.readableBytes := by
  have ho := h.wf.order
  have hs := h.wf.size
  have hm := h.size
  simp only [maxSize] at hm
  exact sub_eq _ _ (by omega) ho

theorem writableBytes_eq (b : Buffer) (h : Bounded b) : writableBytes b = b.writableBytes := by
  have hm := h.size
  simp only [maxSize] at hm
  exact sub_eq _ _ (by omega) h.wf.size

theorem retrieve_eq (b : Buffer) (h : Bounded b) (len : ℕ) (hl : len ≤ b.readableBytes) :
    retrieve b len = b.retrieve len := by
  have ho := h.wf.order
  have hs := h.wf.size
  have hm := h.size
  simp only [maxSize] at hm
  have ha : add b.readerIndex_ len = b.readerIndex_+len := by
    apply add_eq
    simp only [Buffer.readableBytes] at hl
    omega
  simp only [retrieve, Buffer.retrieve, readableBytes_eq b h, ha]
  rfl

theorem retrieveAsString_eq (b : Buffer) (h : Bounded b) (len : ℕ) (hl : len ≤ b.readableBytes) :
    retrieveAsString b len = b.retrieveAsString len := by
  have ho := h.wf.order
  have hs := h.wf.size
  have hm := h.size
  simp only [maxSize] at hm
  have hr := hl
  simp only [Buffer.readableBytes] at hr
  have ha : add b.readerIndex_ len = b.readerIndex_+len := add_eq _ _ (by omega)
  rw [retrieveAsString, Buffer.retrieveAsString, readableBytes_eq b h, if_pos hl, if_pos hl, ha,
    load_eq _ _ _ (by omega) (by omega), retrieve_eq b h len hl]
  rfl

theorem sizeFor_grows (b : Buffer) (len : ℕ) (hw : b.writableBytes < len)
    (hc : b.writableBytes+b.prependableBytes < len+kCheapPrepend) :
    b.sizeFor len = b.writerIndex_+len := if_pos ⟨hw, hc⟩

/-- Bytes that have a place in the vector are fewer than it may hold. -/
theorem sizeFor_len (b : Buffer) (h : Bounded b) (len : ℕ) (hf : b.sizeFor len ≤ maxSize) :
    len ≤ maxSize := by
  have hp := h.wf.prepend
  have ho := h.wf.order
  have hs := h.wf.size
  have hm := h.size
  unfold Buffer.sizeFor at hf
  split at hf
  · omega
  · simp only [Buffer.writableBytes, Buffer.prependableBytes, kCheapPrepend] at *
    omega

/-- The readable bytes only ever slide towards the front, so `std::copy` may
be used: they are moved where the space before them is more than reserved. -/
theorem makeSpace_slides (b : Buffer) (len : ℕ) (hw : b.writableBytes < len)
    (hc : ¬b.writableBytes+b.prependableBytes < len+kCheapPrepend) :
    kCheapPrepend < b.readerIndex_ := by
  simp only [Buffer.prependableBytes] at hc
  omega

theorem makeSpace_moves (b : Buffer) (h : Bounded b) (len : ℕ)
    (hc : ¬add (writableBytes b) (prependableBytes b) < add len kCheapPrepend) :
    makeSpace b len = .ok
      { buffer_ := Buffer.overwrite b.buffer_ kCheapPrepend b.readable
        readerIndex_ := kCheapPrepend
        writerIndex_ := kCheapPrepend+b.readableBytes } := by
  have hp := h.wf.prepend
  have ho := h.wf.order
  have hs := h.wf.size
  have hm := h.size
  simp only [maxSize] at hm
  have hrl := Buffer.readable_length b h.wf
  have hfit : kCheapPrepend+b.readable.length ≤ b.buffer_.length := by
    rw [hrl]
    simp only [Buffer.readableBytes]
    omega
  have hadd : add kCheapPrepend b.readableBytes = kCheapPrepend+b.readableBytes := by
    apply add_eq
    rw [← hrl]
    omega
  have hback : sub (kCheapPrepend+b.readableBytes) kCheapPrepend = b.readableBytes := by
    rw [sub_eq _ _ _ (Nat.le_add_right _ _), Nat.add_sub_cancel_left]
    rw [← hrl]
    omega
  have hst : store b.buffer_ kCheapPrepend b.readable =
      .ok (Buffer.overwrite b.buffer_ kCheapPrepend b.readable) := store_eq _ _ _ hfit
  simp only [Buffer.readable, Buffer.range, Buffer.peek, Buffer.beginWrite] at hst
  have hrb : sub b.writerIndex_ b.readerIndex_ = b.readableBytes := readableBytes_eq b h
  rw [makeSpace, if_neg hc, load_eq _ _ _ ho hs]
  simp only [bind, Except.bind, hst, readableBytes, hrb, hadd, hback]
  rfl

theorem makeSpace_eq (b : Buffer) (h : Bounded b) (len : ℕ) (hw : b.writableBytes < len)
    (hf : b.sizeFor len ≤ maxSize) : makeSpace b len = b.makeSpace len := by
  have hp := h.wf.prepend
  have ho := h.wf.order
  have hs := h.wf.size
  have hm := h.size
  have hlen := sizeFor_len b h len hf
  simp only [maxSize] at hm hlen
  have ha : add (writableBytes b) (prependableBytes b) = b.writableBytes+b.prependableBytes := by
    rw [writableBytes_eq b h]
    apply add_eq
    simp only [Buffer.writableBytes, prependableBytes]
    omega
  have hk : add len kCheapPrepend = len+kCheapPrepend := by
    apply add_eq
    simp only [kCheapPrepend]
    omega
  by_cases hc : b.writableBytes+b.prependableBytes < len+kCheapPrepend
  · rw [makeSpace, Buffer.makeSpace, ha, hk, if_pos hc, if_pos hc]
    rw [sizeFor_grows b len hw hc] at hf
    rw [add_eq _ _ (by simp only [maxSize] at hf; omega), resize_eq _ _ hf]
    rfl
  · rw [makeSpace_moves b h len (by rwa [ha, hk]), Buffer.makeSpace, if_neg hc]
    dsimp only
    rw [if_pos (by simp only [Buffer.readableBytes]; omega)]

/-- What `makeSpace` leaves is again the vector of the size foretold. -/
theorem makeSpace_length (b : Buffer) (h : b.WF) (len : ℕ) (hw : b.writableBytes < len)
    (c : Buffer) (hc : b.makeSpace len = .ok c) : c.buffer_.length = b.sizeFor len := by
  have hs := h.size
  unfold Buffer.makeSpace at hc
  by_cases hg : b.writableBytes+b.prependableBytes < len+kCheapPrepend
  · rw [if_pos hg] at hc
    obtain rfl := Except.ok.inj hc
    rw [sizeFor_grows b len hw hg]
    exact Buffer.resize_length _ _
  · rw [if_neg hg] at hc
    have hsl := makeSpace_slides b len hw hg
    have hrl := Buffer.readable_length b h
    have hp := h.order
    simp only [Buffer.readableBytes] at hrl
    rw [if_pos (by simp only [Buffer.readableBytes]; omega)] at hc
    obtain rfl := Except.ok.inj hc
    rw [Buffer.sizeFor, if_neg (fun hb => hg hb.2)]
    exact Buffer.overwrite_length _ _ _ (by omega)

theorem ensureWritableBytes_eq (b : Buffer) (h : Bounded b) (len : ℕ)
    (hf : b.sizeFor len ≤ maxSize) :
    ensureWritableBytes b len = b.ensureWritableBytes len ∧
    ∀ c, b.ensureWritableBytes len = .ok c → Bounded c := by
  unfold ensureWritableBytes Buffer.ensureWritableBytes
  rw [writableBytes_eq b h]
  by_cases hw : b.writableBytes < len
  · obtain ⟨c, hc, hwf, hl, _⟩ := Buffer.makeSpace_ok b h.wf len
    have hb : Bounded c := ⟨hwf, by rw [makeSpace_length b h.wf len hw c hc]; exact hf⟩
    rw [if_pos hw, if_pos hw, makeSpace_eq b h len hw hf, hc]
    simp only [bind, Except.bind, writableBytes_eq c hb, if_pos hl, true_and]
    rintro d ⟨⟩
    exact hb
  · rw [if_neg hw, if_neg hw]
    simp only [bind, Except.bind, writableBytes_eq b h, true_and]
    rw [if_pos (by omega)]
    rintro d ⟨⟩
    exact h

/-- `append` reads the first `len` bytes of the object it is given. -/
theorem append_eq (b : Buffer) (h : Bounded b) (data : Bytes) (len : ℕ) (hd : len ≤ data.length)
    (hf : b.sizeFor len ≤ maxSize) :
    append b data len = b.append (data.take len) ∧
    ∀ c, b.append (data.take len) = .ok c → Bounded c := by
  obtain ⟨he, hbd⟩ := ensureWritableBytes_eq b h len hf
  obtain ⟨c, hc, hwf, hw, _⟩ := Buffer.ensureWritableBytes_ok b h.wf len
  have hb := hbd c hc
  have hs := hwf.size
  have hm := hb.size
  simp only [maxSize] at hm
  have hl : (data.take len).length = len := by
    rw [List.length_take]
    omega
  simp only [Buffer.writableBytes] at hw
  have hst : store c.buffer_ c.writerIndex_ (data.take len) =
      .ok (Buffer.overwrite c.buffer_ c.writerIndex_ (data.take len)) :=
    store_eq _ _ _ (by omega)
  have ha : add c.writerIndex_ len = c.writerIndex_+len := add_eq _ _ (by omega)
  unfold append Buffer.append
  rw [he, hl, hc, load_eq _ _ _ (Nat.zero_le _) hd]
  simp only [bind, Except.bind, List.drop_zero, hst, ha]
  refine ⟨rfl, ?_⟩
  rintro d ⟨⟩
  obtain ⟨hfw, _⟩ := Buffer.fill_ok c hwf (data.take len) (by
    simp only [Buffer.writableBytes]
    omega)
  rw [hl] at hfw
  refine ⟨hfw, ?_⟩
  change (Buffer.overwrite c.buffer_ c.writerIndex_ (data.take len)).length ≤ maxSize
  rw [Buffer.overwrite_length _ _ _ (by omega)]
  exact hb.size

theorem extrabuf_length (b : Buffer) (data : Bytes) (hn : data.length ≤ b.iovecLength) :
    (data.drop b.writableBytes).length ≤ kExtraBuf := by
  unfold Buffer.iovecLength at hn
  rw [List.length_drop]
  split at hn <;> omega

theorem extrabuf_take (zeros rest : Bytes) (h : rest.length ≤ zeros.length) :
    ∃ extrabuf, store zeros 0 rest = .ok extrabuf ∧ extrabuf.take rest.length = rest ∧
      rest.length ≤ extrabuf.length := by
  have hl := Buffer.overwrite_length zeros 0 rest (by omega)
  refine ⟨Buffer.overwrite zeros 0 rest, store_eq _ _ _ (by omega), ?_, by omega⟩
  simp only [Buffer.overwrite, List.take_zero, List.nil_append]
  exact List.take_left

/-- A filled vector has to grow as the tail that was too short would have. -/
theorem sizeFor_filled (b : Buffer) (h : b.WF) (v : Bytes) (hv : v.length = b.buffer_.length)
    (len : ℕ) (hl : b.writableBytes < len) :
    Buffer.sizeFor { b with buffer_ := v, writerIndex_ := v.length } (len-b.writableBytes) =
      b.sizeFor len := by
  have hs := h.size
  by_cases hc : b.writableBytes+b.prependableBytes < len+kCheapPrepend
  · rw [sizeFor_grows b len hl hc, sizeFor_grows]
    · simp only [Buffer.writableBytes] at hl ⊢
      omega
    · simp only [Buffer.writableBytes] at hl ⊢
      omega
    · simp only [Buffer.writableBytes, Buffer.prependableBytes] at hl hc ⊢
      omega
  · have hb : b.sizeFor len = b.buffer_.length := if_neg (fun hg => hc hg.2)
    rw [hb, Buffer.sizeFor, if_neg, hv]
    rintro ⟨_, hg⟩
    simp only [Buffer.writableBytes, Buffer.prependableBytes] at hl hc hg
    omega

theorem readFd_eq (b : Buffer) (h : Bounded b) (data : Bytes) (hn : data.length ≤ b.iovecLength)
    (hf : b.sizeFor data.length ≤ maxSize) :
    readFd b (.got data) = b.readFd data ∧ ∀ c, b.readFd data = .ok c → Bounded c := by
  have ho := h.wf.order
  have hs := h.wf.size
  have hm := h.size
  have hlen := sizeFor_len b h data.length hf
  have hx := extrabuf_length b data hn
  simp only [maxSize] at hm hlen
  have hfit : b.writerIndex_+(data.take b.writableBytes).length ≤ b.buffer_.length := by
    rw [List.length_take]
    simp only [Buffer.writableBytes]
    omega
  have hv : (Buffer.overwrite b.buffer_ b.writerIndex_ (data.take b.writableBytes)).length =
      b.buffer_.length := Buffer.overwrite_length _ _ _ hfit
  have hst := store_eq b.buffer_ b.writerIndex_ (data.take b.writableBytes) hfit
  obtain ⟨extrabuf, hex, hrest, hxl⟩ := extrabuf_take extrabufInit
    (data.drop b.writableBytes) (by rw [extrabufInit_length]; exact hx)
  rw [List.length_drop] at hrest hxl
  unfold readFd Buffer.readFd
  simp only [Readv.data, Readv.n, writableBytes_eq b h, hst, hex, Buffer.beginWrite]
  -- both copies are known now, so that the binds do not look into the side buffer
  simp only [bind, Except.bind]
  by_cases hw : data.length ≤ b.writableBytes
  · have ha : add b.writerIndex_ data.length = b.writerIndex_+data.length := by
      apply add_eq
      simp only [Buffer.writableBytes] at hw
      omega
    rw [if_pos hw, if_pos hw, ha]
    refine ⟨rfl, ?_⟩
    rintro c ⟨⟩
    obtain ⟨hc, _⟩ := Buffer.fill_ok b h.wf data hw
    rw [List.take_of_length_le hw] at hv ⊢
    exact ⟨hc, hv.trans_le h.size⟩
  · have hb : Bounded { b with
        buffer_ := Buffer.overwrite b.buffer_ b.writerIndex_ (data.take b.writableBytes)
        writerIndex_ := (Buffer.overwrite b.buffer_ b.writerIndex_
          (data.take b.writableBytes)).length } :=
      ⟨⟨h.wf.prepend, by simp only [hv]; omega, le_refl _⟩, hv.trans_le h.size⟩
    have hsub : sub data.length b.writableBytes = data.length-b.writableBytes :=
      sub_eq _ _ (by omega) (by omega)
    have hsz := sizeFor_filled b h.wf _ hv data.length (by omega)
    have happ := append_eq _ hb extrabuf (data.length-b.writableBytes) hxl (hsz.trans_le hf)
    rw [if_neg hw, if_neg hw, hsub]
    rwa [hrest] at happ

end BufferWords
end MuServer
