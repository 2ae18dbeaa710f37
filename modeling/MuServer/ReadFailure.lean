import MuServer.BufferWords

/-!
# A `readv` that fails

`readFd` holds the result of `readv` in a `size_t`, so that -1 is the largest
number and counts as bytes that did not fit. The call never comes back: the
room for them is made in arithmetic modulo 2^64, and either the assert of
`ensureWritableBytes` fails or the side buffer is read beyond its end.
-/

set_option autoImplicit false

namespace MuServer

namespace BufferWords

def toSsize (n : ℕ) : ℤ := if n < 2^63 then n else n-2^64

/-- `readFd` with all that it hands back: its result and `*savedErrno`. -/
def readFdCall (b : Buffer) (r : Readv) (errno_ savedErrno : ℕ) :
    Except Fault (ℤ × ℕ × Buffer) := do
  let c ← readFd b r
  return (toSsize r.n, if r.n < 0 then errno_ else savedErrno, c)

/-- The branches of `TcpConnection::handleRead`, the last with the `errno` it logs. -/
inductive ReadBranch where
  | messageCallback
  | handleClose
  | handleError (errno_ : ℕ)
  deriving DecidableEq, Repr

def handleRead (b : Buffer) (r : Readv) (errno_ : ℕ) : Except Fault (ReadBranch × Buffer) := do
  let (n, savedErrno, c) ← readFdCall b r errno_ 0
  if 0 < n then return (.messageCallback, c)
  else if n = 0 then return (.handleClose, c)
  else return (.handleError savedErrno, c)

/-- A failure of `readv` is passed on, and the buffer is as before. -/
def FailureReported (b : Buffer) (errno_ : ℕ) : Prop :=
  (∀ savedErrno, ∃ n, n < 0 ∧ readFdCall b .failed errno_ savedErrno = .ok (n, errno_, b))
    ∧ handleRead b .failed errno_ = .ok (.handleError errno_, b)

def missing (b : Buffer) : ℕ := 2^64-1-b.writableBytes

def filled (b : Buffer) : Buffer := { b with writerIndex_ := b.buffer_.length }

theorem readFd_failed (b : Buffer) (h : Bounded b) :
    readFd b .failed = append (filled b) extrabufInit (missing b) := by
  have hs := h.wf.size
  have hm := h.size
  simp only [maxSize] at hm
  have hover : Buffer.overwrite b.buffer_ b.writerIndex_ [] = b.buffer_ := by
    simp [Buffer.overwrite]
  have hstore : store b.buffer_ b.writerIndex_ [] = .ok b.buffer_ := by
    rw [store_eq _ _ _ (by simpa using hs), hover]
  have hextra : store extrabufInit 0 [] = .ok extrabufInit := by
    rw [store_eq _ _ _ (Nat.zero_le _)]
    simp [Buffer.overwrite]
  have hsub : sub (2^64-1) b.writableBytes = missing b := by
    apply sub_eq _ _ (by decide)
    simp only [Buffer.writableBytes]
    omega
  unfold readFd
  simp only [Readv.data, Readv.n, List.take_nil, List.drop_nil, hstore, hextra,
    writableBytes_eq b h]
  simp only [bind, Except.bind]
  rw [if_neg (by simp only [Buffer.writableBytes]; omega), hsub]
  rfl

theorem filled_bounded (b : Buffer) (h : Bounded b) : Bounded (filled b) :=
  ⟨⟨h.wf.prepend, h.wf.order.trans h.wf.size, le_refl _⟩, h.size⟩

theorem filled_writable (b : Buffer) (h : Bounded b) : writableBytes (filled b) = 0 := by
  rw [writableBytes_eq _ (filled_bounded b h)]
  exact Nat.sub_self _

/-- With less than the reserved space left the length wraps to a small number,
and the readable bytes are moved instead of growing the vector. -/
theorem makeSpace_wraps (b : Buffer) (h : Bounded b) (hw : b.writableBytes < kCheapPrepend) :
    ∃ c, makeSpace (filled b) (missing b) = .ok c ∧ Bounded c := by
  have hf := filled_bounded b h
  have hp := hf.wf.prepend
  have ho := hf.wf.order
  have hs := hf.wf.size
  have hm := hf.size
  have hreadable := Buffer.readable_length _ hf.wf
  simp only [maxSize, kCheapPrepend, Buffer.readableBytes] at hm hw hp hreadable
  have hroom : add 0 (filled b).readerIndex_ = (filled b).readerIndex_ := by
    rw [add_eq _ _ (by omega), Nat.zero_add]
  have hwrap : add (missing b) kCheapPrepend = 7-b.writableBytes := by
    simp only [add, missing, kCheapPrepend]
    omega
  have hlength := Buffer.overwrite_length (filled b).buffer_ kCheapPrepend (filled b).readable
    (by simp only [kCheapPrepend]; omega)
  refine ⟨_, makeSpace_moves _ hf _ ?_, ⟨le_refl _, Nat.le_add_right _ _, ?_⟩, ?_⟩
  · rw [filled_writable b h, prependableBytes, hroom, hwrap]
    omega
  · dsimp only
    rw [hlength]
    simp only [Buffer.readableBytes, kCheapPrepend]
    omega
  · dsimp only
    rw [hlength]
    exact hf.size

/-- Otherwise the new size wraps, and the vector is cut off before the bytes
that were free, one byte short. -/
theorem makeSpace_cuts (b : Buffer) (h : Bounded b) (hw : kCheapPrepend ≤ b.writableBytes) :
    ∃ c, makeSpace (filled b) (missing b) = .ok c ∧ writableBytes c = missing b := by
  have hf := filled_bounded b h
  have hm := hf.size
  have ho := hf.wf.order
  have hp := h.wf.prepend
  have hs := h.wf.size
  have hpo := h.wf.order
  simp only [maxSize, kCheapPrepend, Buffer.writableBytes] at hm hw hp
  have hroom : add 0 (filled b).readerIndex_ = (filled b).readerIndex_ := by
    simp only [filled] at hm ho ⊢
    rw [add_eq _ _ (by omega), Nat.zero_add]
  have hlen : add (missing b) kCheapPrepend = 2^64+7-b.writableBytes := by
    simp only [filled] at hm
    simp only [missing, kCheapPrepend, Buffer.writableBytes]
    rw [add_eq _ _ (by omega)]
    omega
  have hsize : add (filled b).writerIndex_ (missing b) = b.writerIndex_-1 := by
    simp only [filled, missing, Buffer.writableBytes, add] at hm ⊢
    omega
  refine ⟨{ filled b with buffer_ := Buffer.resize b.buffer_ (b.writerIndex_-1) }, ?_, ?_⟩
  · rw [makeSpace, filled_writable b h, prependableBytes, hroom, hlen, hsize, if_pos,
      resize_eq _ _ (by simp only [filled] at hm; simp only [maxSize]; omega)]
    · rfl
    · simp only [filled, Buffer.writableBytes] at hm ho ⊢
      omega
  · simp only [writableBytes, filled, Buffer.resize_length, sub, missing,
      Buffer.writableBytes] at hm ⊢
    omega

theorem readFd_faults (b : Buffer) (h : Bounded b) : readFd b .failed =
    .error (if b.writableBytes < kCheapPrepend then .assertion else .outOfRange) := by
  have hm := h.size
  simp only [maxSize] at hm
  have hlarge : maxSize < missing b := by
    simp only [missing, Buffer.writableBytes, maxSize]
    omega
  rw [readFd_failed b h, append, ensureWritableBytes, filled_writable b h, if_pos (by omega)]
  by_cases hw : b.writableBytes < kCheapPrepend
  · obtain ⟨c, hc, hbounded⟩ := makeSpace_wraps b h hw
    have hroom : writableBytes c ≤ maxSize := by
      rw [writableBytes_eq c hbounded]
      exact (Nat.sub_le _ _).trans hbounded.size
    rw [hc, if_pos hw]
    simp only [bind, Except.bind]
    rw [if_neg (by omega)]
  · obtain ⟨c, hc, hroom⟩ := makeSpace_cuts b h (by omega)
    have hload : load extrabufInit 0 (missing b) = .error .outOfRange := by
      apply if_neg
      rw [extrabufInit_length]
      simp only [maxSize, kExtraBuf] at hlarge ⊢
      omega
    rw [hc, if_neg hw]
    simp only [bind, Except.bind, hroom, le_refl, if_true, hload]

theorem readFdCall_faults (b : Buffer) (h : Bounded b) (errno_ savedErrno : ℕ) :
    ∃ f, readFdCall b .failed errno_ savedErrno = .error f := by
  rw [readFdCall, readFd_faults b h]
  exact ⟨_, rfl⟩

/-- No failure is ever reported. -/
theorem failure_unreported (b : Buffer) (h : Bounded b) (errno_ : ℕ) :
    ¬ FailureReported b errno_ := by
  rintro ⟨hcall, -⟩
  obtain ⟨n, -, hn⟩ := hcall 0
  obtain ⟨f, hf⟩ := readFdCall_faults b h errno_ 0
  rw [hf] at hn
  cases hn

theorem create_bounded : Bounded (Buffer.create kInitialSize) where
  wf := Buffer.create_wf kInitialSize
  size := by
    rw [Buffer.create, List.length_replicate]
    decide

theorem failure_unreported_create : ¬ FailureReported (Buffer.create kInitialSize) 104 :=
  failure_unreported _ create_bounded 104

/-- A new buffer, and a peer that resets the connection. -/
theorem readFd_reset : ¬ ∀ b : Buffer, Bounded b → ∀ errno_, FailureReported b errno_ := by
  intro h
  obtain ⟨-, hread⟩ := h _ create_bounded 104
  obtain ⟨f, hf⟩ := readFdCall_faults _ create_bounded 104 0
  rw [handleRead, hf] at hread
  cases hread

end BufferWords

end MuServer
