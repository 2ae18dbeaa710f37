import MuServer.Buffer
import MuServer.LogStream

/-!
# Reading a small file

`readToString` keeps what `read` returns in a `size_t`, so a read that fails
counts as one that has brought bytes: the loop goes on and no error is
reported. What a round appends is the buffer up to its first NUL and not the
bytes that the round has brought.
-/

set_option autoImplicit false

namespace MuServer

def kBufferSize : ℕ := 64*1024

def EISDIR : Int32 := 21

structure ReadSmallFile where
  fd_ : Int32
  err_ : Int32
  buffer_ : Bytes

inductive StatMode where
  | regular | directory | other
  deriving DecidableEq

structure Stat where
  st_mode : StatMode
  st_size : Int64
  st_mtime : Int64
  st_ctime : Int64

structure Outs where
  fileSize : Option Int64
  modifyTime : Option Int64
  createTime : Option Int64

/-- The answer of `read`: an error, or one byte and `more` of them as far as
they are asked for and the file has them. -/
inductive ReadResult where
  | fails (errno : Int32)
  | gives (more : ℕ)
  deriving DecidableEq

structure ReadLoop where
  content : Bytes := []
  buffer_ : Bytes
  unread : Bytes
  err : Int32
  errno : Int32 := 0
  failed : Bool := false

namespace ReadLoop

def read (s : ReadLoop) (toRead : ℕ) : ReadResult → ℤ × ReadLoop
  | .fails errno => (-1, { s with errno := errno, failed := true })
  | .gives more =>
    let brought := s.unread.take (min (more+1) toRead)
    (brought.length, { s with
      buffer_ := Buffer.overwrite s.buffer_ 0 brought
      unread := s.unread.drop brought.length })

/-- `content->append(buffer_)`, which takes the buffer for a string. -/
def appendBuffer (s : ReadLoop) : Except Fault ReadLoop :=
  if 0 ∈ s.buffer_ then .ok { s with content := s.content ++ LogStream.cText s.buffer_ }
  else .error .outOfRange

/-- A round of the loop, and whether it goes on. The `size_t` is not negative. -/
def round (limit : ℕ) (result : ReadResult) (s : ReadLoop) : Except Fault (Bool × ReadLoop) :=
  let toRead := min (limit-s.content.length) kBufferSize
  let r := s.read toRead result
  let n := toSize r.1
  if 0 < n then r.2.appendBuffer.map (fun t => (true, t))
  else if n < 0 then .ok (false, { r.2 with err := r.2.errno })
  else .ok (false, r.2)

def readLoop (limit : ℕ) (reads : ℕ → ReadResult) : ℕ → ℕ → ReadLoop → Except Fault ReadLoop
  | 0, _, _ => .error .spins
  | fuel+1, i, s =>
    if s.content.length < limit then
      match s.round limit (reads i) with
      | .error f => .error f
      | .ok (true, t) => readLoop limit reads fuel (i+1) t
      | .ok (false, t) => .ok t
    else .ok s

end ReadLoop

namespace ReadSmallFile

/-- The constructor. `open` has returned `fd`, and of the buffer only the first
byte is set. -/
def create (fd errno : Int32) (memory : Bytes) : ReadSmallFile where
  fd_ := fd
  err_ := if fd < 0 then errno else 0
  buffer_ := memory.set 0 0

def assign (v : Int64) : Option Int64 → Except Fault (Option Int64)
  | some _ => .ok (some v)
  | none => .error .nullPointer

def assignTime (v : Int64) (p : Option Int64) : Except Fault (Option Int64) :=
  if v ≠ 0 then assign v p else .ok p

/-- `std::string::reserve`; an `int` below zero is a `size_t` beyond `max_size`. -/
def reserve (n : Int32) : Except Fault Unit := if n < 0 then .error .exception else .ok ()

def readStat (maxSize : Int32) (fstat : Except Int32 Stat) (outs : Outs) (err : Int32) :
    Except Fault (Int32 × Outs) :=
  match fstat with
  | .error errno => .ok (errno, outs)
  | .ok statbuf => do
    let (err, fileSize) ←
      (match statbuf.st_mode with
      | .regular => do
        let fileSize ← assign statbuf.st_size outs.fileSize
        reserve (min maxSize statbuf.st_size.toInt32)
        .ok (err, fileSize)
      | .directory => .ok (EISDIR, outs.fileSize)
      | .other => .ok (err, outs.fileSize) : Except Fault (Int32 × Option Int64))
    let modifyTime ← assignTime statbuf.st_mtime outs.modifyTime
    let createTime ← assignTime statbuf.st_ctime outs.createTime
    .ok (err, ⟨fileSize, modifyTime, createTime⟩)

def readToString (f : ReadSmallFile) (maxSize : Int32) (content : Bytes) (outs : Outs)
    (fstat : Except Int32 Stat) (reads : ℕ → ReadResult) (file : Bytes) (fuel : ℕ) :
    Except Fault (Outs × ReadLoop) :=
  if 0 ≤ f.fd_ then do
    let (err, outs) ←
      if outs.fileSize ≠ none then readStat maxSize fstat outs f.err_ else .ok (f.err_, outs)
    let r ← ReadLoop.readLoop (toSize maxSize.toInt) reads fuel 0
      { buffer_ := f.buffer_, unread := file, err := err }
    .ok (outs, r)
  else .ok (outs, { content := content, buffer_ := f.buffer_, unread := file, err := f.err_ })

/-- What a call is for: it returns, with the start of the file, or with an
error if a read has failed. -/
def ReadsStart (file : Bytes) (maxSize : Int32)
    (call : ℕ → Except Fault (Outs × ReadLoop)) : Prop :=
  ∃ fuel outs r, call fuel = .ok (outs, r)
    ∧ (r.failed = false → r.content = file.take maxSize.toInt.toNat)
    ∧ (r.failed = true → r.err ≠ 0)

def Reserves (outs : Outs) (statbuf : Stat) : Prop :=
  outs.fileSize = none ∨ (0 ≤ statbuf.st_size.toInt32
    ∧ (statbuf.st_mtime ≠ 0 → outs.modifyTime ≠ none)
    ∧ (statbuf.st_ctime ≠ 0 → outs.createTime ≠ none))

end ReadSmallFile

namespace ReadLoop

/-- What the loop keeps: no error is set, a failure is not forgotten and no
NUL gets into the content. -/
structure Follows (s t : ReadLoop) : Prop where
  err : t.err = s.err
  failed : s.failed = true → t.failed = true
  plain : 0 ∉ s.content → 0 ∉ t.content

theorem follows_trans (s t u : ReadLoop) (hst : Follows s t) (htu : Follows t u) : Follows s u where
  err := htu.err.trans hst.err
  failed := fun h => htu.failed (hst.failed h)
  plain := fun h => htu.plain (hst.plain h)

theorem cText_plain (text : Bytes) : 0 ∉ LogStream.cText text := by
  intro h
  have hne := List.mem_takeWhile_imp h
  simp at hne

theorem cText_text (text rest : Bytes) (hplain : 0 ∉ text) :
    LogStream.cText (text ++ 0::rest) = text := by
  unfold LogStream.cText
  rw [List.takeWhile_append_of_pos]
  · simp
  · intro c hc
    simp only [decide_eq_true_eq]
    rintro rfl
    exact hplain hc

theorem appendBuffer_ok (s t : ReadLoop) (h : s.appendBuffer = .ok t) :
    t = { s with content := s.content ++ LogStream.cText s.buffer_ } := by
  unfold appendBuffer at h
  split at h
  · exact (Except.ok.inj h).symm
  · exact absurd h (by simp)

theorem appendBuffer_follows (s t : ReadLoop) (h : s.appendBuffer = .ok t) : Follows s t := by
  obtain rfl := appendBuffer_ok s t h
  refine ⟨rfl, fun h => h, fun h => ?_⟩
  simp only [List.mem_append, not_or]
  exact ⟨h, cText_plain _⟩

theorem round_fails (limit : ℕ) (errno : Int32) (s : ReadLoop) :
    s.round limit (.fails errno) =
      ({ s with errno := errno, failed := true } : ReadLoop).appendBuffer.map
        (fun t => (true, t)) := by
  have hlarge : 0 < toSize (-1) := by decide
  unfold round read
  dsimp only
  rw [if_pos hlarge]

theorem toSize_length (brought : Bytes) (h : brought.length ≤ kBufferSize) :
    toSize brought.length = brought.length :=
  toSize_natCast _ (h.trans (by decide))

theorem round_gives (limit more : ℕ) (s : ReadLoop) :
    s.round limit (.gives more) =
      let brought := s.unread.take (min (more+1) (min (limit-s.content.length) kBufferSize))
      let t : ReadLoop := { s with
        buffer_ := Buffer.overwrite s.buffer_ 0 brought
        unread := s.unread.drop brought.length }
      if brought = [] then .ok (false, t) else t.appendBuffer.map (fun t => (true, t)) := by
  unfold round read
  dsimp only
  generalize hb : s.unread.take (min (more+1) (min (limit-s.content.length) kBufferSize)) = brought
  have hsize : brought.length ≤ kBufferSize := by
    rw [← hb, List.length_take]
    omega
  rw [toSize_length brought hsize]
  by_cases hnil : brought = []
  · rw [if_pos hnil, if_neg (by simp [hnil]), if_neg (Nat.not_lt_zero _)]
  · rw [if_neg hnil, if_pos (List.length_pos_iff.mpr hnil)]

theorem appended_follows (s t : ReadLoop) (more : Bool)
    (h : s.appendBuffer.map (fun t => (true, t)) = .ok (more, t)) : more = true ∧ Follows s t := by
  cases happend : s.appendBuffer with
  | error f => simp [happend, Except.map] at h
  | ok u =>
    simp only [happend, Except.map, Except.ok.injEq, Prod.mk.injEq] at h
    obtain ⟨rfl, rfl⟩ := h
    exact ⟨rfl, appendBuffer_follows s u happend⟩

theorem round_failed (limit : ℕ) (errno : Int32) (s t : ReadLoop) (more : Bool)
    (h : s.round limit (.fails errno) = .ok (more, t)) :
    more = true ∧ t.failed = true ∧ Follows s t := by
  rw [round_fails] at h
  obtain ⟨hmore, herr, hfailed, hplain⟩ := appended_follows _ t more h
  exact ⟨hmore, hfailed rfl, herr, fun _ => hfailed rfl, hplain⟩

theorem round_follows (limit : ℕ) (result : ReadResult) (s t : ReadLoop) (more : Bool)
    (h : s.round limit result = .ok (more, t)) : Follows s t := by
  cases result with
  | fails errno => exact (round_failed limit errno s t more h).2.2
  | gives count =>
    rw [round_gives] at h
    dsimp only at h
    split at h
    · simp only [Except.ok.injEq, Prod.mk.injEq] at h
      obtain ⟨-, rfl⟩ := h
      exact ⟨rfl, fun h => h, fun h => h⟩
    · obtain ⟨-, herr, hfailed, hplain⟩ := appended_follows _ t more h
      exact ⟨herr, hfailed, hplain⟩

theorem readLoop_follows (limit : ℕ) (reads : ℕ → ReadResult) (fuel i : ℕ) (s r : ReadLoop)
    (h : readLoop limit reads fuel i s = .ok r) : Follows s r := by
  induction fuel generalizing i s with
  | zero => simp [readLoop] at h
  | succ fuel ih =>
    rw [readLoop] at h
    split at h
    · split at h
      · simp at h
      · rename_i t hround
        exact follows_trans s t r (round_follows limit _ s t _ hround) (ih _ _ h)
      · rename_i t hround
        obtain rfl := Except.ok.inj h
        exact round_follows limit _ s t _ hround
    · obtain rfl := Except.ok.inj h
      exact ⟨rfl, fun h => h, fun h => h⟩

/-- A run of the loop takes a round, or the content is large enough. -/
theorem readLoop_ok (limit : ℕ) (reads : ℕ → ReadResult) (fuel i : ℕ) (s r : ReadLoop)
    (hlimit : s.content.length < limit) (h : readLoop limit reads fuel i s = .ok r) :
    ∃ more t, s.round limit (reads i) = .ok (more, t) ∧ (more = false → t = r) ∧ Follows t r := by
  cases fuel with
  | zero => simp [readLoop] at h
  | succ fuel =>
    rw [readLoop, if_pos hlimit] at h
    split at h
    · simp at h
    · rename_i t hround
      exact ⟨true, t, hround, by simp, readLoop_follows limit reads fuel _ t r h⟩
    · rename_i t hround
      obtain rfl := Except.ok.inj h
      exact ⟨false, t, hround, fun _ => rfl, rfl, fun h => h, fun h => h⟩

end ReadLoop

namespace ReadSmallFile

open ReadLoop

theorem toSize_maxSize (maxSize : Int32) (h : 0 ≤ maxSize) :
    toSize maxSize.toInt = maxSize.toInt.toNat := by
  have hnonneg : 0 ≤ maxSize.toInt := by simpa using Int32.le_iff_toInt_le.mp h
  have hlt := maxSize.toInt_lt
  unfold toSize
  omega

theorem set_drop (memory : Bytes) (n : ℕ) (hn : 0 < n) :
    (memory.set 0 0).drop n = memory.drop n := by
  obtain ⟨k, rfl⟩ : ∃ k, n = k+1 := ⟨n-1, by omega⟩
  cases memory <;> rfl

theorem overwrite_text (memory text : Bytes) (hne : text ≠ [])
    (hend : memory[text.length]? = some 0) :
    ∃ rest, Buffer.overwrite (memory.set 0 0) 0 text = text ++ 0::rest := by
  obtain ⟨hlt, hzero⟩ := List.getElem?_eq_some_iff.mp hend
  refine ⟨memory.drop (text.length+1), ?_⟩
  simp only [Buffer.overwrite, List.take_zero, List.nil_append, Nat.zero_add]
  rw [set_drop _ _ (List.length_pos_iff.mpr hne), List.drop_eq_getElem_cons hlt, hzero]

theorem appendBuffer_unended (brought : Bytes) (s : ReadLoop) (hne : brought ≠ [])
    (hplain : 0 ∉ brought)
    (h : s.buffer_ = Buffer.overwrite ((List.replicate kBufferSize 1).set 0 0) 0 brought) :
    s.appendBuffer = .error .outOfRange := by
  unfold appendBuffer
  rw [h, if_neg]
  simp only [Buffer.overwrite, List.take_zero, List.nil_append, Nat.zero_add, List.mem_append,
    not_or]
  refine ⟨hplain, fun h => ?_⟩
  rw [set_drop _ _ (List.length_pos_iff.mpr hne), List.drop_replicate] at h
  simpa using List.eq_of_mem_replicate h

theorem readLoop_works (limit fuel i : ℕ) (reads : ℕ → ReadResult) (text : Bytes) (s r : ReadLoop)
    (hs : s.content = []) (hzero : s.err = 0) (h : readLoop limit reads fuel i s = .ok r)
    (hcontent : r.failed = false → r.content = text) (herr : r.failed = true → r.err ≠ 0) :
    r.failed = false ∧ 0 ∉ text := by
  have hfollows := readLoop_follows limit reads fuel i s r h
  have hworks : r.failed = false := by
    rw [Bool.eq_false_iff]
    exact fun hfailed => herr hfailed (hfollows.err.trans hzero)
  refine ⟨hworks, ?_⟩
  rw [← hcontent hworks]
  exact hfollows.plain (by simp [hs])

/-- Where the memory behind the first byte has no NUL, a call reads no file but
an empty one. -/
theorem readLoop_first (limit fuel : ℕ) (reads : ℕ → ReadResult) (file : Bytes) (r : ReadLoop)
    (hlimit : 0 < limit)
    (h : readLoop limit reads fuel 0
      { buffer_ := (List.replicate kBufferSize 1).set 0 0, unread := file, err := 0 } = .ok r)
    (hcontent : r.failed = false → r.content = file.take limit)
    (herr : r.failed = true → r.err ≠ 0) :
    file = [] ∧ ∀ errno, reads 0 ≠ .fails errno := by
  obtain ⟨hworks, hplain⟩ := readLoop_works limit fuel 0 reads _ _ r rfl rfl h hcontent herr
  obtain ⟨more, t, hround, -, hrest⟩ := readLoop_ok limit reads fuel 0
    { buffer_ := (List.replicate kBufferSize 1).set 0 0, unread := file, err := 0 } r hlimit h
  cases hread : reads 0 with
  | fails errno =>
    rw [hread] at hround
    have hfailed := hrest.failed (round_failed limit errno _ t more hround).2.1
    rw [hworks] at hfailed
    exact absurd hfailed (by simp)
  | gives count =>
    rw [hread, round_gives] at hround
    refine ⟨?_, by simp⟩
    by_contra hne
    simp only [List.length_nil, Nat.sub_zero] at hround
    have hpos : 0 < min limit kBufferSize := by
      have hsize : 0 < kBufferSize := by decide
      omega
    have hbrought : file.take (min (count+1) (min limit kBufferSize)) ≠ [] := by
      simp [List.take_eq_nil_iff, hne]
      omega
    have hprefix : 0 ∉ file.take (min (count+1) (min limit kBufferSize)) := by
      intro hmem
      apply hplain
      exact (List.take_prefix_take_left (by omega)).subset hmem
    rw [if_neg hbrought, appendBuffer_unended _ _ hbrought hprefix rfl] at hround
    simp [Except.map] at hround

theorem reserve_ok (maxSize n : Int32) (h : 0 ≤ maxSize) :
    reserve (min maxSize n) = .ok () ↔ 0 ≤ n := by
  have hmin : min maxSize n = if maxSize ≤ n then maxSize else n := rfl
  have hmax := Int32.le_iff_toInt_le.mp h
  simp only [reserve, hmin, Int32.le_iff_toInt_le, Int32.lt_iff_toInt_lt, Int32.toInt_zero] at *
  split <;> split <;> simp <;> omega

theorem assignTime_ok (v : Int64) (p : Option Int64) :
    (∃ q, assignTime v p = .ok q) ↔ (v ≠ 0 → p ≠ none) := by
  unfold assignTime assign
  cases p <;> split <;> simp_all

/-- On a regular file the branch returns exactly when it can write its results,
and it reports no error. -/
theorem readStat_regular (maxSize : Int32) (h : 0 ≤ maxSize) (statbuf : Stat) (outs : Outs)
    (err : Int32) (hregular : statbuf.st_mode = .regular) (hsize : outs.fileSize ≠ none) :
    (Reserves outs statbuf ↔ ∃ r, readStat maxSize (.ok statbuf) outs err = .ok r)
      ∧ ∀ r, readStat maxSize (.ok statbuf) outs err = .ok r → r.1 = err := by
  obtain ⟨old, hold⟩ := Option.ne_none_iff_exists'.mp hsize
  rw [Reserves, or_iff_right hsize, ← reserve_ok maxSize _ h, ← assignTime_ok, ← assignTime_ok]
  simp only [readStat, hregular, hold, assign, bind, Except.bind]
  cases reserve (min maxSize statbuf.st_size.toInt32) with
  | error f => simp
  | ok u =>
    cases assignTime statbuf.st_mtime outs.modifyTime with
    | error f => simp
    | ok modifyTime => cases assignTime statbuf.st_ctime outs.createTime <;> simp

section Calls

variable (fd errno : Int32) (hfd : 0 ≤ fd) (maxSize : Int32) (hmax : 0 ≤ maxSize)
  (content : Bytes) (outs : Outs) (st_mtime st_ctime : Int64) (reads : ℕ → ReadResult)
  (file memory : Bytes)

def regularFile : Stat where
  st_mode := .regular
  st_size := Int64.ofNat file.length
  st_mtime := st_mtime
  st_ctime := st_ctime

def firstCall : ℕ → Except Fault (Outs × ReadLoop) :=
  (create fd errno memory).readToString maxSize content outs
    (.ok (regularFile st_mtime st_ctime file)) reads file

def start : ReadLoop where
  buffer_ := memory.set 0 0
  unread := file
  err := 0

include hfd hmax

theorem firstCall_ok (fuel : ℕ) (r : ReadLoop) :
    (∃ outs', firstCall fd errno maxSize content outs st_mtime st_ctime reads file memory fuel =
        .ok (outs', r)) ↔
      Reserves outs (regularFile st_mtime st_ctime file)
        ∧ readLoop maxSize.toInt.toNat reads fuel 0 (start file memory) = .ok r := by
  have herr : (create fd errno memory).err_ = 0 := by
    have hnot : ¬ fd < 0 := by
      rw [Int32.le_iff_toInt_le] at hfd
      rw [Int32.lt_iff_toInt_lt]
      omega
    simp [create, hnot]
  have hloop : ∀ err, err = 0 → readLoop (toSize maxSize.toInt) reads fuel 0
      { buffer_ := (create fd errno memory).buffer_, unread := file, err := err } =
        readLoop maxSize.toInt.toNat reads fuel 0 (start file memory) := by
    rintro _ rfl
    rw [toSize_maxSize maxSize hmax]
    rfl
  have hopen : 0 ≤ (create fd errno memory).fd_ := hfd
  unfold firstCall readToString
  rw [if_pos hopen]
  by_cases hsize : outs.fileSize = none
  · have hreserves : Reserves outs (regularFile st_mtime st_ctime file) := Or.inl hsize
    rw [if_neg (not_not.mpr hsize)]
    simp only [bind, Except.bind, hloop _ herr, hreserves, true_and]
    cases readLoop maxSize.toInt.toNat reads fuel 0 (start file memory) <;> simp
  · obtain ⟨hiff, hkeeps⟩ := readStat_regular maxSize hmax (regularFile st_mtime st_ctime file) outs
      (create fd errno memory).err_ rfl hsize
    rw [if_pos hsize, hiff]
    cases hstat : readStat maxSize (.ok (regularFile st_mtime st_ctime file)) outs
        (create fd errno memory).err_ with
    | error f => simp [bind, Except.bind]
    | ok q =>
      simp only [bind, Except.bind, hloop _ ((hkeeps q hstat).trans herr)]
      cases readLoop maxSize.toInt.toNat reads fuel 0 (start file memory) <;> simp

/-- A call is what it is for if and only if its branch for the size returns
and its loop does so. -/
theorem firstCall_reads :
    ReadsStart file maxSize
        (firstCall fd errno maxSize content outs st_mtime st_ctime reads file memory) ↔
      Reserves outs (regularFile st_mtime st_ctime file)
        ∧ ∃ fuel r, readLoop maxSize.toInt.toNat reads fuel 0 (start file memory) = .ok r
          ∧ (r.failed = false → r.content = file.take maxSize.toInt.toNat)
          ∧ (r.failed = true → r.err ≠ 0) := by
  have hcall := firstCall_ok fd errno hfd maxSize hmax content outs st_mtime st_ctime reads file
    memory
  constructor
  · rintro ⟨fuel, outs', r, hok, hcontent, herr⟩
    obtain ⟨hreserves, hloop⟩ := (hcall fuel r).mp ⟨outs', hok⟩
    exact ⟨hreserves, fuel, r, hloop, hcontent, herr⟩
  · rintro ⟨hreserves, fuel, r, hloop, hcontent, herr⟩
    obtain ⟨outs', hok⟩ := (hcall fuel r).mpr ⟨hreserves, hloop⟩
    exact ⟨fuel, outs', r, hok, hcontent, herr⟩

/-- Whatever the buffer's memory holds, a call reads the start of its file: only
where there is nothing to read. -/
theorem readToString_iff :
    (∀ memory, memory.length = kBufferSize → ReadsStart file maxSize
        (firstCall fd errno maxSize content outs st_mtime st_ctime reads file memory)) ↔
      Reserves outs (regularFile st_mtime st_ctime file)
        ∧ (maxSize = 0 ∨ (file = [] ∧ ∀ errno, reads 0 ≠ .fails errno)) := by
  have hreads := fun memory => firstCall_reads fd errno hfd maxSize hmax content outs st_mtime
    st_ctime reads file memory
  simp only [hreads]
  constructor
  · intro h
    obtain ⟨hreserves, fuel, r, hloop, hcontent, herr⟩ :=
      h (List.replicate kBufferSize 1) List.length_replicate
    refine ⟨hreserves, ?_⟩
    by_cases hzero : maxSize = 0
    · exact Or.inl hzero
    · have hlimit : 0 < maxSize.toInt.toNat := by
        rw [Int32.le_iff_toInt_le, Int32.toInt_zero] at hmax
        have hne : maxSize.toInt ≠ 0 := fun h => hzero (Int32.toInt_inj.mp h)
        omega
      exact Or.inr (readLoop_first _ fuel reads file r hlimit hloop hcontent herr)
  · rintro ⟨hreserves, hzero | ⟨rfl, hread⟩⟩ memory -
    · refine ⟨hreserves, 1, start file memory, ?_, ?_, by simp [start]⟩
      · simp [readLoop, hzero]
      · simp [start, hzero]
    · refine ⟨hreserves, 1, start [] memory, ?_, by simp [start], by simp [start]⟩
      obtain ⟨more, hmore⟩ : ∃ more, reads 0 = .gives more := by
        cases hr : reads 0 with
        | fails e => exact absurd hr (hread e)
        | gives more => exact ⟨more, rfl⟩
      simp [readLoop, hmore, round_gives, start, Buffer.overwrite]

/-- A short file without a NUL is read, where the first read brings all that is
asked for and the memory has a NUL right behind it. -/
theorem readToString_small (hreserves : Reserves outs (regularFile st_mtime st_ctime file))
    (text : Bytes) (htext : text = file.take maxSize.toInt.toNat) (hne : text ≠ [])
    (hplain : 0 ∉ text) (hshort : text.length < kBufferSize)
    (hend : memory[text.length]? = some 0) (more : ℕ) (hfirst : reads 0 = .gives more)
    (hwhole : text.length ≤ more+1) (later : ℕ) (hsecond : reads 1 = .gives later) :
    ReadsStart file maxSize
      (firstCall fd errno maxSize content outs st_mtime st_ctime reads file memory) := by
  rw [firstCall_reads fd errno hfd maxSize hmax]
  refine ⟨hreserves, ?_⟩
  generalize maxSize.toInt.toNat = limit at htext
  have hlength := congrArg List.length htext
  rw [List.length_take] at hlength
  have hpos := List.length_pos_iff.mpr hne
  have hbrought : file.take (min (more+1) (min limit kBufferSize)) = text := by
    rw [htext, List.take_eq_take_iff]
    omega
  obtain ⟨rest, hbuffer⟩ := overwrite_text memory text hne hend
  have hround : (start file memory).round limit (reads 0) = .ok (true, {
      content := text
      buffer_ := text ++ 0::rest
      unread := file.drop text.length
      err := 0 }) := by
    rw [hfirst, round_gives]
    simp only [start, List.length_nil, Nat.sub_zero, hbrought, if_neg hne, hbuffer, appendBuffer,
      cText_text text rest hplain]
    simp [Except.map]
  refine ⟨2, ?_⟩
  rw [readLoop, if_pos (by simp [start]; omega), hround]
  by_cases hmore : text.length < limit
  · -- the file has ended, and the next read finds nothing
    have hnil : file.drop text.length = [] := List.drop_eq_nil_of_le (by omega)
    refine ⟨{ content := text, buffer_ := text ++ 0::rest, unread := [], err := 0 }, ?_, ?_, ?_⟩
    · simp [readLoop, hmore, hsecond, round_gives, hnil, Buffer.overwrite]
    · exact fun _ => htext
    · simp
  · refine ⟨{
      content := text
      buffer_ := text ++ 0::rest
      unread := file.drop text.length
      err := 0 }, ?_, ?_, ?_⟩
    · simp [readLoop, hmore]
    · exact fun _ => htext
    · simp

end Calls

/-- An empty file is read. -/
theorem readToString_iff_empty : ReadsStart [] 10 (firstCall 3 0 10 [] ⟨none, none, none⟩ 0 0
    (fun _ => .gives 0) [] (List.replicate kBufferSize 7)) :=
  (readToString_iff 3 0 (by decide) 10 (by decide) [] ⟨none, none, none⟩ 0 0 _ []).mpr
    ⟨Or.inl rfl, Or.inr ⟨rfl, by simp⟩⟩ _ List.length_replicate

/-- The byte behind a NUL is lost. -/
theorem readToString_nul : ¬ ReadsStart [97, 0, 98] 3 (firstCall 3 0 3 [] ⟨none, none, none⟩ 0 0
    (fun _ => .gives 2) [97, 0, 98] (List.replicate kBufferSize 0)) := by
  rw [firstCall_reads 3 0 (by decide) 3 (by decide)]
  rintro ⟨-, fuel, r, hloop, hcontent, herr⟩
  have hplain := (readLoop_works _ fuel 0 _ _ _ r rfl rfl hloop hcontent herr).2
  exact absurd hplain (by decide)

end ReadSmallFile

end MuServer
