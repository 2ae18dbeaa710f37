import MuServer.FixedBuffer
import MuServer.Lib.Census
import MuServer.Lib.Machine

/-!
# The asynchronous logger

The front end fills buffers; the thread at the back end takes them away, writes
them to the file and gives two of them back. A buffer is owned by the one
pointer that is not null. What happens under `mutex_` is one step; `wait_for`
may end at any time. The bytes handed to `Output.append` are kept in order.
-/

set_option autoImplicit false

namespace MuServer

open Lib

namespace AsyncLogger

/-- A `FixedBuffer<kLargeBuffer>` on the heap, by the number of its creation. -/
structure Buffer where
  serial : ℕ
  fixed : FixedBuffer kLargeBuffer

abbrev BufferPtr := Option Buffer
abbrev BufferVector := List BufferPtr

def serials (v : BufferVector) : List ℕ := v.filterMap (Option.map Buffer.serial)

inductive Phase where
  | unstarted
  /-- before the locals are set up -/
  | entry
  /-- at the test of the loop -/
  | test
  /-- before the lock -/
  | locking
  /-- in `wait_for` -/
  | waiting
  /-- behind the exchange -/
  | exchanged
  /-- in the loop over `buffersToWrite`, with so many of them written -/
  | writing (written : ℕ)
  | ended
  deriving DecidableEq

end AsyncLogger

open AsyncLogger in
structure AsyncLogger where
  running_ : Bool := false
  currentBuffer_ : BufferPtr := some ⟨0, FixedBuffer.create.bzero⟩
  nextBuffer_ : BufferPtr := some ⟨1, FixedBuffer.create.bzero⟩
  buffers_ : BufferVector := []
  phase : Phase := .unstarted
  newBuffer1 : BufferPtr := none
  newBuffer2 : BufferPtr := none
  buffersToWrite : BufferVector := []
  /-- the bytes that the file has been given -/
  output : List (Option Byte) := []
  stderr : Bytes := []
  stopped : Bool := false
  joined : Bool := false
  fault : Option Fault := none
  /-- the lines of the calls of `append` that are over -/
  appended : List Bytes := []
  made : ℕ := 2
  destroyed : List ℕ := []

namespace AsyncLogger

def newBuffer (s : AsyncLogger) : AsyncLogger × Buffer :=
  ({ s with made := s.made+1 }, ⟨s.made, FixedBuffer.create⟩)

def destroy (s : AsyncLogger) (v : BufferVector) : AsyncLogger :=
  { s with destroyed := s.destroyed ++ serials v }

def appendCurrent (s : AsyncLogger) (line : Bytes) : Except Fault AsyncLogger :=
  match s.currentBuffer_ with
  | none => .error .nullPointer
  | some buffer => do
    let fixed ← buffer.fixed.append line
    return { s with currentBuffer_ := some { buffer with fixed := fixed } }

/-- The full buffer joins `buffers_` and an empty one takes its place. -/
def rotate (s : AsyncLogger) : AsyncLogger :=
  let s := { s with buffers_ := s.buffers_ ++ [s.currentBuffer_], currentBuffer_ := none }
  match s.nextBuffer_ with
  | some next => { s with currentBuffer_ := some next, nextBuffer_ := none }
  | none =>
    let (s, buffer) := s.newBuffer
    { s with currentBuffer_ := some buffer }

def append (s : AsyncLogger) (line : Bytes) : Except Fault AsyncLogger :=
  match s.currentBuffer_ with
  | none => .error .nullPointer
  | some buffer =>
    if buffer.fixed.avail > line.length then s.appendCurrent line
    else s.rotate.appendCurrent line

def start (s : AsyncLogger) : AsyncLogger := { s with running_ := true, phase := .entry }

def stop (s : AsyncLogger) : AsyncLogger := { s with running_ := false, stopped := true }

def isEmpty : BufferPtr → Bool
  | none => false
  | some buffer => buffer.fixed.length = 0

def enter (s : AsyncLogger) : AsyncLogger :=
  let (s, buffer1) := s.newBuffer
  let (s, buffer2) := s.newBuffer
  { s with
    newBuffer1 := some { buffer1 with fixed := buffer1.fixed.bzero }
    newBuffer2 := some { buffer2 with fixed := buffer2.fixed.bzero }
    phase := .test }

def leave (s : AsyncLogger) : AsyncLogger :=
  { s.destroy (s.newBuffer1::s.newBuffer2::s.buffersToWrite) with
    newBuffer1 := none, newBuffer2 := none, buffersToWrite := [], phase := .ended }

def beginTurn (s : AsyncLogger) : Except Fault AsyncLogger :=
  if !s.running_ then .ok s.leave
  else if !isEmpty s.newBuffer1 then .error .assertion
  else if !isEmpty s.newBuffer2 then .error .assertion
  else if !s.buffersToWrite.isEmpty then .error .assertion
  else .ok { s with phase := .locking }

def exchange (s : AsyncLogger) : AsyncLogger :=
  let s := { s with
    buffersToWrite := s.buffers_ ++ [s.currentBuffer_], buffers_ := s.buffersToWrite
    currentBuffer_ := s.newBuffer1, newBuffer1 := none, phase := .exchanged }
  match s.nextBuffer_ with
  | some _ => s
  | none => { s with nextBuffer_ := s.newBuffer2, newBuffer2 := none }

/-- The message for `size` buffers, as `snprintf` puts it into 256 bytes. -/
def dropMessage (now : Bytes) (size : ℕ) : Bytes :=
  (bytes "Dropped log messages at " ++ now ++ bytes "," ++ decimal (size-2)
    ++ bytes " larger buffers\n").take 255

def giveUp (s : AsyncLogger) (now : Bytes) : AsyncLogger :=
  let message := dropMessage now s.buffersToWrite.length
  { s.destroy (s.buffersToWrite.drop 2) with
    stderr := s.stderr ++ message
    output := s.output ++ message.map some
    buffersToWrite := s.buffersToWrite.take 2
    phase := .writing 0 }

def checkSize (s : AsyncLogger) (now : Bytes) : Except Fault AsyncLogger :=
  if s.buffersToWrite.isEmpty then .error .assertion
  else if s.buffersToWrite.length > 25 then .ok (s.giveUp now)
  else .ok { s with phase := .writing 0 }

/-- `ptr = std::move(buffersToWrite.back())`, `pop_back` and `reset`. -/
def takeBack (s : AsyncLogger) : Except Fault (AsyncLogger × BufferPtr) :=
  match s.buffersToWrite.getLast? with
  | none => .error .assertion
  | some none => .error .nullPointer
  | some (some buffer) =>
    .ok ({ s with buffersToWrite := s.buffersToWrite.dropLast },
      some { buffer with fixed := buffer.fixed.reset })

def refill (s : AsyncLogger) (p : BufferPtr) : Except Fault (AsyncLogger × BufferPtr) :=
  match p with
  | some _ => .ok (s, p)
  | none => s.takeBack

def recycle (s : AsyncLogger) : Except Fault AsyncLogger := do
  let s := { s.destroy (s.buffersToWrite.drop 2) with buffersToWrite := s.buffersToWrite.take 2 }
  let (s, buffer1) ← s.refill s.newBuffer1
  let (s, buffer2) ← s.refill s.newBuffer2
  return { s.destroy s.buffersToWrite with
    newBuffer1 := buffer1, newBuffer2 := buffer2, buffersToWrite := [], phase := .test }

def writeNext (s : AsyncLogger) (written : ℕ) : Except Fault AsyncLogger :=
  match s.buffersToWrite[written]? with
  | none => s.recycle
  | some none => .error .nullPointer
  | some (some buffer) =>
    .ok { s with output := s.output ++ buffer.fixed.text, phase := .writing (written+1) }

def threadFunc (s : AsyncLogger) (now : Bytes) : Except Fault AsyncLogger :=
  match s.phase with
  | .unstarted | .ended => .ok s
  | .entry => .ok s.enter
  | .test => s.beginTurn
  | .locking => if s.buffers_.isEmpty then .ok { s with phase := .waiting } else .ok s.exchange
  | .waiting => .ok s.exchange
  | .exchanged => s.checkSize now
  | .writing written => s.writeNext written

inductive LogAct where
  | append (line : Bytes)
  | start
  | stop
  /-- `stop` returns -/
  | join
  /-- the next statement of the thread, with the time a message would give -/
  | thread (now : Bytes)

def settle (s : AsyncLogger) : Except Fault AsyncLogger → AsyncLogger
  | .ok t => t
  | .error f => { s with fault := some f }

def act (s : AsyncLogger) : LogAct → Option AsyncLogger
  | .append line => some { s.settle (s.append line) with appended := s.appended ++ [line] }
  | .start => if s.phase = .unstarted then some s.start else none
  | .stop => if s.phase = .unstarted ∨ s.stopped then none else some s.stop
  | .join =>
    if s.stopped ∧ s.phase = .ended ∧ !s.joined then some { s with joined := true } else none
  | .thread now =>
    if s.phase = .unstarted ∨ s.phase = .ended then none else some (s.settle (s.threadFunc now))

def step (s : AsyncLogger) (a : LogAct) : Option AsyncLogger :=
  if s.fault.isSome then none else s.act a

def places (s : AsyncLogger) : List (List ℕ) :=
  [serials [s.currentBuffer_], serials [s.nextBuffer_], serials s.buffers_,
    serials [s.newBuffer1], serials [s.newBuffer2], serials s.buffersToWrite, s.destroyed]

theorem kLargeBuffer_lt : kLargeBuffer < 2^64 := by decide

def Locals (s : AsyncLogger) : Prop :=
  match s.phase with
  | .unstarted | .entry | .ended =>
    s.newBuffer1 = none ∧ s.newBuffer2 = none ∧ s.buffersToWrite = []
  | .test | .locking | .waiting =>
    isEmpty s.newBuffer1 = true ∧ isEmpty s.newBuffer2 = true ∧ s.buffersToWrite = []
  | .exchanged | .writing _ =>
    s.newBuffer1 = none ∧ (∀ p ∈ s.buffersToWrite, p ≠ none) ∧ s.buffersToWrite ≠ []
      ∧ (isEmpty s.newBuffer2 = true ∨ s.newBuffer2 = none ∧ 2 ≤ s.buffersToWrite.length)

structure Sound (s : AsyncLogger) : Prop where
  fault : s.fault = none
  current : ∃ b, s.currentBuffer_ = some b ∧ b.fixed.Inside
  next : ∀ b, s.nextBuffer_ = some b → b.fixed.cur_ = 0
  spare : s.nextBuffer_ = none → s.buffers_ ≠ []
  full : ∀ p ∈ s.buffers_, p ≠ none
  census : Census s.places s.made
  locals : s.Locals

theorem full_current (s : AsyncLogger) (hs : Sound s) :
    ∀ p ∈ s.buffers_ ++ [s.currentBuffer_], p ≠ none := by
  intro p hp
  rcases List.mem_append.mp hp with hin | hin
  · exact hs.full p hin
  · obtain ⟨b, hb, -⟩ := hs.current
    rw [List.mem_singleton.mp hin, hb]
    simp

def textOf : BufferPtr → List (Option Byte)
  | none => []
  | some b => b.fixed.text

def texts (v : BufferVector) : List (Option Byte) := v.flatMap textOf

def pending (s : AsyncLogger) : BufferVector :=
  match s.phase with
  | .exchanged => s.buffersToWrite
  | .writing written => s.buffersToWrite.drop written
  | _ => []

def front (s : AsyncLogger) : List (Option Byte) := texts s.buffers_ ++ textOf s.currentBuffer_

def taken (s : AsyncLogger) : List (Option Byte) := s.output ++ texts s.pending

def recorded (lines : List Bytes) : List (Option Byte) :=
  (lines.filter (fun line => line.length < kLargeBuffer)).flatten.map some

theorem recorded_snoc (lines : List Bytes) (line : Bytes) :
    recorded (lines ++ [line])
      = recorded lines ++ if line.length < kLargeBuffer then line.map some else [] := by
  unfold recorded
  rw [List.filter_append, List.flatten_append, List.map_append]
  congr 1
  by_cases h : line.length < kLargeBuffer
  · simp [h]
  · simp [h]

theorem append_spec (s : AsyncLogger) (line : Bytes) (hs : Sound s) :
    ∃ (b : Buffer) (next : BufferPtr) (full : BufferVector) (made : ℕ),
      s.append line = .ok { s with
        currentBuffer_ := some b, nextBuffer_ := next, buffers_ := full, made := made }
      ∧ Sound { s with
        currentBuffer_ := some b, nextBuffer_ := next, buffers_ := full, made := made }
      ∧ texts full ++ b.fixed.text
        = s.front ++ if line.length < kLargeBuffer then line.map some else [] := by
  obtain ⟨b, hb, hinside⟩ := hs.current
  have hfull := full_current s hs
  by_cases hroom : b.fixed.avail > line.length
  · have hlt : b.fixed.cur_+line.length < kLargeBuffer := by
      unfold FixedBuffer.avail at hroom
      omega
    obtain ⟨fixed, happend, hcur, htext⟩ := b.fixed.append_fits line kLargeBuffer_lt hlt
    refine ⟨{ b with fixed := fixed }, s.nextBuffer_, s.buffers_, s.made, ?_, ?_, ?_⟩
    · simp only [append, appendCurrent, hb, if_pos hroom, happend]
      rfl
    · refine ⟨hs.fault, ⟨_, rfl, ?_⟩, hs.next, hs.spare, hs.full, ?_, hs.locals⟩
      · show fixed.cur_ ≤ kLargeBuffer
        omega
      · have hcensus := hs.census
        simpa [places, serials, hb] using hcensus
    · rw [if_pos (by omega), htext, ← List.append_assoc]
      simp [front, hb, textOf]
  -- the buffer that takes the place is empty, so only a longer line is lost
  · cases hnext : s.nextBuffer_ with
    | some next =>
      obtain ⟨fixed, happend, hcur, htext⟩ :=
        next.fixed.append_empty line kLargeBuffer_lt (hs.next next hnext)
      refine ⟨{ next with fixed := fixed }, none, s.buffers_ ++ [s.currentBuffer_], s.made,
        ?_, ?_, ?_⟩
      · simp only [append, rotate, appendCurrent, hb, if_neg hroom, hnext, happend]
        rfl
      · refine ⟨hs.fault, ⟨_, rfl, hcur⟩, by simp, by simp, hfull, ?_, hs.locals⟩
        apply hs.census.moved
        intro x
        simp [places, serials, hb, hnext, List.count_cons]
        omega
      · rw [htext]
        simp [front, texts]
    | none =>
      obtain ⟨fixed, happend, hcur, htext⟩ :=
        (FixedBuffer.create : FixedBuffer kLargeBuffer).append_empty line kLargeBuffer_lt rfl
      refine ⟨⟨s.made, fixed⟩, none, s.buffers_ ++ [s.currentBuffer_], s.made+1, ?_, ?_, ?_⟩
      · simp only [append, rotate, appendCurrent, newBuffer, hb, if_neg hroom, hnext, happend]
        rfl
      · refine ⟨hs.fault, ⟨_, rfl, hcur⟩, by simp, by simp, hfull, ?_, hs.locals⟩
        apply hs.census.created
        intro x
        simp [places, serials, hb, hnext, List.count_cons]
        omega
      · rw [htext]
        simp [front, texts]

def between (s : AsyncLogger) : Bool := s.phase = .locking ∨ s.phase = .waiting

inductive Moves (s t : AsyncLogger) : Prop
  | keeps : t.taken = s.taken → t.front = s.front →
      (s.between = true → t.between = true) →
      (t.between = true → s.running_ = true ∨ s.between = true) → Moves s t
  | takes : s.between = true → t.between = false → t.taken = s.taken ++ s.front →
      t.front = [] → Moves s t

structure Statement (s t : AsyncLogger) : Prop where
  sound : Sound t
  running : t.running_ = s.running_
  stopped : t.stopped = s.stopped
  appended : t.appended = s.appended
  begun : s.phase ≠ .unstarted → t.phase ≠ .unstarted
  moves : (s.phase = .exchanged → s.buffersToWrite.length ≤ 25) → Moves s t

theorem serials_cons (p : BufferPtr) (v : BufferVector) :
    serials (p::v) = serials [p] ++ serials v := by
  cases p <;> rfl

theorem isEmpty_iff (p : BufferPtr) :
    isEmpty p = true ↔ ∃ b, p = some b ∧ b.fixed.cur_ = 0 := by
  cases p with
  | none => simp [isEmpty]
  | some b =>
    constructor
    · exact fun h => ⟨b, rfl, of_decide_eq_true h⟩
    · rintro ⟨c, hc, h⟩
      obtain rfl := Option.some.inj hc
      exact decide_eq_true h

theorem enter_statement (s : AsyncLogger) (hs : Sound s) (hphase : s.phase = .entry) :
    Statement s s.enter := by
  have hlocals := hs.locals
  simp only [Locals, hphase] at hlocals
  obtain ⟨h1, h2, hw⟩ := hlocals
  refine ⟨?_, rfl, rfl, rfl, fun _ => nofun, fun _ => ?_⟩
  · refine ⟨hs.fault, hs.current, hs.next, hs.spare, hs.full, ?_, rfl, rfl, hw⟩
    have hfirst : Census [serials [s.currentBuffer_], serials [s.nextBuffer_], serials s.buffers_,
        [s.made], [], serials s.buffersToWrite, s.destroyed] (s.made+1) := by
      apply hs.census.created
      intro x
      simp [places, serials, h1, h2, List.count_cons]
      omega
    apply hfirst.created
    intro x
    simp [places, enter, newBuffer, serials, List.count_cons]
    omega
  · refine .keeps ?_ rfl ?_ ?_
    · simp [taken, pending, hphase, enter, newBuffer]
    · simp [between, hphase]
    · simp [between, enter, newBuffer]

theorem leave_statement (s : AsyncLogger) (hs : Sound s) (hphase : s.phase = .test) :
    Statement s s.leave := by
  refine ⟨?_, rfl, rfl, rfl, fun _ => nofun, fun _ => ?_⟩
  · refine ⟨hs.fault, hs.current, hs.next, hs.spare, hs.full, ?_, rfl, rfl, rfl⟩
    apply hs.census.moved
    intro x
    simp [places, leave, destroy, serials_cons s.newBuffer1 (s.newBuffer2::s.buffersToWrite),
      serials_cons s.newBuffer2 s.buffersToWrite]
    simp [serials]
    omega
  · refine .keeps ?_ rfl ?_ ?_
    · simp [taken, pending, hphase, leave, destroy]
    · simp [between, hphase]
    · simp [between, leave]

theorem beginTurn_spec (s : AsyncLogger) (hs : Sound s) (hphase : s.phase = .test) :
    s.beginTurn = .ok (if s.running_ then { s with phase := .locking } else s.leave) := by
  have hlocals := hs.locals
  simp only [Locals, hphase] at hlocals
  obtain ⟨h1, h2, hw⟩ := hlocals
  unfold beginTurn
  cases s.running_ <;> simp [h1, h2, hw]

theorem exchange_some (s : AsyncLogger) (next : Buffer) (h : s.nextBuffer_ = some next) :
    s.exchange = { s with
      buffersToWrite := s.buffers_ ++ [s.currentBuffer_], buffers_ := s.buffersToWrite
      currentBuffer_ := s.newBuffer1, newBuffer1 := none, phase := .exchanged } := by
  simp only [exchange, h]

theorem exchange_none (s : AsyncLogger) (h : s.nextBuffer_ = none) :
    s.exchange = { s with
      buffersToWrite := s.buffers_ ++ [s.currentBuffer_], buffers_ := s.buffersToWrite
      currentBuffer_ := s.newBuffer1, newBuffer1 := none, phase := .exchanged
      nextBuffer_ := s.newBuffer2, newBuffer2 := none } := by
  simp only [exchange, h]

theorem exchange_statement (s : AsyncLogger) (hs : Sound s) (hphase : s.between = true) :
    Statement s s.exchange := by
  have hlocals : isEmpty s.newBuffer1 = true ∧ isEmpty s.newBuffer2 = true
      ∧ s.buffersToWrite = [] := by
    have hlocals := hs.locals
    simp only [between, decide_eq_true_eq] at hphase
    unfold Locals at hlocals
    rcases hphase with h | h <;> simpa only [h] using hlocals
  obtain ⟨h1, h2, hw⟩ := hlocals
  obtain ⟨b1, hb1, hempty1⟩ := (isEmpty_iff _).mp h1
  obtain ⟨b2, hb2, hempty2⟩ := (isEmpty_iff _).mp h2
  obtain ⟨b, hb, -⟩ := hs.current
  have hinside1 : b1.fixed.Inside := by
    show b1.fixed.cur_ ≤ kLargeBuffer
    omega
  have hfull := full_current s hs
  have hpending : s.pending = [] := by
    simp only [between, decide_eq_true_eq] at hphase
    rcases hphase with h | h <;> simp only [pending, h]
  have htaken : s.output ++ texts (s.buffers_ ++ [s.currentBuffer_]) = s.taken ++ s.front := by
    simp [taken, hpending, texts, front]
  have hfront : texts s.buffersToWrite ++ textOf s.newBuffer1 = [] := by
    simp [hw, hb1, texts, textOf, FixedBuffer.text_of_empty, hempty1]
  cases hnext : s.nextBuffer_ with
  | some next =>
    rw [exchange_some s next hnext]
    refine ⟨⟨hs.fault, ⟨b1, hb1, hinside1⟩, hs.next, ?_, ?_, ?_, rfl, hfull, ?_, Or.inl h2⟩,
      rfl, rfl, rfl, fun _ => nofun, fun _ => .takes hphase rfl htaken hfront⟩
    · intro hnone
      exact absurd (hnext.symm.trans hnone) (by simp)
    · simp [hw]
    · apply hs.census.moved
      intro x
      simp [places, serials, hw, hb, hb1, hb2, hnext, List.count_cons]
      omega
    · simp
  | none =>
    rw [exchange_none s hnext]
    refine ⟨⟨hs.fault, ⟨b1, hb1, hinside1⟩, ?_, ?_, ?_, ?_, rfl, hfull, ?_, Or.inr ⟨rfl, ?_⟩⟩,
      rfl, rfl, rfl, fun _ => nofun, fun _ => .takes hphase rfl htaken hfront⟩
    · intro next hsome
      obtain rfl := Option.some.inj (hb2.symm.trans hsome)
      exact hempty2
    · intro hnone
      exact absurd (hb2.symm.trans hnone) (by simp)
    · simp [hw]
    · apply hs.census.moved
      intro x
      simp [places, serials, hw, hb, hb1, hb2, hnext, List.count_cons]
      omega
    · simp
    · have hlength := List.length_pos_of_ne_nil (hs.spare hnext)
      simp only [List.length_append, List.length_singleton]
      omega

theorem exists_buffer (v : BufferVector) (h : ∀ p ∈ v, p ≠ none) (i : ℕ) (hi : i < v.length) :
    ∃ b, v[i]? = some (some b) := by
  have hmem : v[i] ∈ v := List.getElem_mem hi
  obtain ⟨b, hb⟩ := Option.ne_none_iff_exists'.mp (h _ hmem)
  exact ⟨b, by rw [List.getElem?_eq_getElem hi, hb]⟩

theorem checkSize_statement (s : AsyncLogger) (now : Bytes) (hs : Sound s)
    (hphase : s.phase = .exchanged) :
    ∃ t, s.checkSize now = .ok t ∧ Statement s t := by
  have hlocals := hs.locals
  simp only [Locals, hphase] at hlocals
  obtain ⟨h1, hfull, hne, h2⟩ := hlocals
  have hnot : s.buffersToWrite.isEmpty = false := by simpa using hne
  by_cases hdrop : s.buffersToWrite.length > 25
  · refine ⟨s.giveUp now, ?_, ?_, rfl, rfl, rfl, fun _ => nofun, ?_⟩
    · simp only [checkSize, hnot, Bool.false_eq_true, if_false, if_pos hdrop]
    · refine ⟨hs.fault, hs.current, hs.next, hs.spare, hs.full, ?_, h1, ?_, ?_, ?_⟩
      · apply hs.census.moved
        intro x
        have hsplit : serials s.buffersToWrite
            = serials (s.buffersToWrite.take 2) ++ serials (s.buffersToWrite.drop 2) := by
          unfold serials
          rw [← List.filterMap_append, List.take_append_drop]
        simp [places, giveUp, destroy, hsplit]
        omega
      · exact fun p hp => hfull p (List.mem_of_mem_take hp)
      · simpa [giveUp] using hne
      · refine h2.imp_right (fun hnone => ⟨hnone.1, ?_⟩)
        simp only [giveUp, List.length_take]
        omega
    · exact fun hfew => absurd (hfew hphase) (by omega)
  · refine ⟨{ s with phase := .writing 0 }, ?_, ?_, rfl, rfl, rfl, fun _ => nofun, ?_⟩
    · simp only [checkSize, hnot, Bool.false_eq_true, if_false, if_neg hdrop]
    · exact ⟨hs.fault, hs.current, hs.next, hs.spare, hs.full, hs.census, h1, hfull, hne, h2⟩
    · intro _
      refine .keeps ?_ rfl ?_ ?_
      · simp [taken, pending, hphase]
      · simp [between, hphase]
      · simp [between]

theorem recycle_cases (s : AsyncLogger) (hne : s.buffersToWrite ≠ [])
    (hfull : ∀ p ∈ s.buffersToWrite, p ≠ none) :
    (∃ b, s.buffersToWrite = [some b])
      ∨ ∃ b c rest, s.buffersToWrite = some b::some c::rest := by
  cases hw : s.buffersToWrite with
  | nil => exact absurd hw hne
  | cons p rest =>
    rw [hw] at hfull
    obtain ⟨b, rfl⟩ := Option.ne_none_iff_exists'.mp (hfull p (by simp))
    cases rest with
    | nil => exact Or.inl ⟨b, rfl⟩
    | cons q rest =>
      obtain ⟨c, rfl⟩ := Option.ne_none_iff_exists'.mp (hfull q (by simp))
      exact Or.inr ⟨b, c, rest, rfl⟩

theorem takeBack_last (s : AsyncLogger) (v : BufferVector) (b : Buffer)
    (h : s.buffersToWrite = v ++ [some b]) :
    s.takeBack = .ok ({ s with buffersToWrite := v },
      some { b with fixed := b.fixed.reset }) := by
  unfold takeBack
  rw [h, List.getLast?_concat]
  simp only [List.dropLast_concat]

theorem recycle_sound (s : AsyncLogger) (hs : Sound s) (written : ℕ)
    (hphase : s.phase = .writing written) :
    ∃ buffer1 buffer2 destroyed, s.recycle = .ok { s with
        newBuffer1 := buffer1, newBuffer2 := buffer2, buffersToWrite := []
        destroyed := destroyed, phase := .test }
      ∧ Sound { s with
        newBuffer1 := buffer1, newBuffer2 := buffer2, buffersToWrite := []
        destroyed := destroyed, phase := .test } := by
  have hlocals := hs.locals
  simp only [Locals, hphase] at hlocals
  obtain ⟨h1, hfull, hne, h2⟩ := hlocals
  have hbind : ∀ {α β : Type} (a : α) (f : α → Except Fault β), (Except.ok a >>= f) = f a :=
    fun _ _ => rfl
  rcases recycle_cases s hne hfull with ⟨b, hw⟩ | ⟨b, c, rest, hw⟩
  -- one buffer was taken, so the exchange found a spare one and `newBuffer2` is still there
  · have h2some : isEmpty s.newBuffer2 = true := by
      rcases h2 with h2 | ⟨-, hlength⟩
      · exact h2
      · simp [hw] at hlength
    obtain ⟨b2, hb2, -⟩ := (isEmpty_iff _).mp h2some
    refine ⟨some { b with fixed := b.fixed.reset }, s.newBuffer2, s.destroyed, ?_, ?_⟩
    · unfold recycle
      simp only [destroy, h1, hb2, refill]
      rw [takeBack_last _ [] b (by simp [hw]), hbind, hbind]
      simp [hw, serials, pure, Except.pure]
    · refine ⟨hs.fault, hs.current, hs.next, hs.spare, hs.full, ?_, rfl, h2some, rfl⟩
      apply hs.census.moved
      intro x
      simp [places, serials, hw, h1, List.count_cons]
      omega
  · cases hb2 : s.newBuffer2 with
    | some b2 =>
      have h2some : isEmpty (some b2) = true := by
        rcases h2 with h2 | ⟨hnone, -⟩
        · rwa [hb2] at h2
        · simp [hb2] at hnone
      refine ⟨some { c with fixed := c.fixed.reset }, some b2,
        s.destroyed ++ serials rest ++ [b.serial], ?_, ?_⟩
      · unfold recycle
        simp only [destroy, h1, hb2, refill]
        rw [takeBack_last _ [some b] c (by simp [hw]), hbind, hbind]
        simp [hw, serials, pure, Except.pure]
      · refine ⟨hs.fault, hs.current, hs.next, hs.spare, hs.full, ?_, rfl, h2some, rfl⟩
        apply hs.census.moved
        intro x
        simp [places, serials, hw, h1, hb2, List.count_cons]
        omega
    | none =>
      refine ⟨some { c with fixed := c.fixed.reset }, some { b with fixed := b.fixed.reset },
        s.destroyed ++ serials rest, ?_, ?_⟩
      · unfold recycle
        simp only [destroy, h1, hb2, refill]
        rw [takeBack_last _ [some b] c (by simp [hw]), hbind,
          takeBack_last _ [] b (by simp), hbind]
        simp [hw, serials, pure, Except.pure]
      · refine ⟨hs.fault, hs.current, hs.next, hs.spare, hs.full, ?_, rfl, rfl, rfl⟩
        apply hs.census.moved
        intro x
        simp [places, serials, hw, h1, hb2, List.count_cons]
        omega

theorem writeNext_statement (s : AsyncLogger) (hs : Sound s) (written : ℕ)
    (hphase : s.phase = .writing written) :
    ∃ t, s.writeNext written = .ok t ∧ Statement s t := by
  have hlocals := hs.locals
  simp only [Locals, hphase] at hlocals
  obtain ⟨h1, hfull, hne, h2⟩ := hlocals
  by_cases hlt : written < s.buffersToWrite.length
  · obtain ⟨b, hb⟩ := exists_buffer s.buffersToWrite hfull written hlt
    refine ⟨{ s with output := s.output ++ b.fixed.text, phase := .writing (written+1) }, ?_,
      ?_, rfl, rfl, rfl, fun _ => nofun, ?_⟩
    · simp only [writeNext, hb]
    · exact ⟨hs.fault, hs.current, hs.next, hs.spare, hs.full, hs.census, h1, hfull, hne, h2⟩
    · intro _
      refine .keeps ?_ rfl (by simp [between, hphase]) (by simp [between])
      have hdrop : s.buffersToWrite.drop written = some b::s.buffersToWrite.drop (written+1) := by
        rw [List.getElem?_eq_getElem hlt, Option.some.injEq] at hb
        rw [List.drop_eq_getElem_cons hlt, hb]
      simp [taken, pending, hphase, hdrop, texts, textOf]
  · obtain ⟨buffer1, buffer2, destroyed, heq, hsound⟩ := recycle_sound s hs written hphase
    have hend : s.buffersToWrite[written]? = none := List.getElem?_eq_none (by omega)
    refine ⟨_, ?_, hsound, rfl, rfl, rfl, fun _ => nofun, ?_⟩
    · simp only [writeNext, hend, heq]
    · intro _
      refine .keeps ?_ rfl (by simp [between, hphase]) (by simp [between])
      have hdrop : s.buffersToWrite.drop written = [] := List.drop_eq_nil_of_le (by omega)
      simp [taken, pending, hphase, hdrop]

theorem threadFunc_statement (s : AsyncLogger) (now : Bytes) (hs : Sound s) :
    ∃ t, s.threadFunc now = .ok t ∧ Statement s t := by
  have hstays : ∀ phase, Locals { s with phase := phase } → Sound { s with phase := phase } :=
    fun _ hlocals =>
      ⟨hs.fault, hs.current, hs.next, hs.spare, hs.full, hs.census, hlocals⟩
  unfold threadFunc
  cases hphase : s.phase with
  | unstarted =>
    exact ⟨s, rfl, hs, rfl, rfl, rfl, id, fun _ => .keeps rfl rfl id Or.inr⟩
  | ended =>
    exact ⟨s, rfl, hs, rfl, rfl, rfl, id, fun _ => .keeps rfl rfl id Or.inr⟩
  | entry =>
    exact ⟨s.enter, rfl, enter_statement s hs hphase⟩
  | test =>
    have hlocals := hs.locals
    simp only [Locals, hphase] at hlocals
    show ∃ t, s.beginTurn = .ok t ∧ Statement s t
    rw [beginTurn_spec s hs hphase]
    by_cases hrunning : s.running_ = true
    · rw [if_pos hrunning]
      refine ⟨_, rfl, hstays .locking hlocals, rfl, rfl, rfl, fun _ => nofun,
        fun _ => .keeps ?_ rfl (fun _ => rfl) ?_⟩
      · simp [taken, pending, hphase]
      · exact fun _ => Or.inl hrunning
    · rw [if_neg hrunning]
      exact ⟨s.leave, rfl, leave_statement s hs hphase⟩
  | locking =>
    have hlocals := hs.locals
    simp only [Locals, hphase] at hlocals
    show ∃ t, (if s.buffers_.isEmpty then .ok { s with phase := .waiting }
      else .ok s.exchange) = Except.ok t ∧ Statement s t
    have hbetween : s.between = true := by simp [between, hphase]
    split
    · refine ⟨_, rfl, hstays .waiting hlocals, rfl, rfl, rfl, fun _ => nofun,
        fun _ => .keeps ?_ rfl (fun _ => rfl) ?_⟩
      · simp [taken, pending, hphase]
      · exact fun _ => Or.inr hbetween
    · exact ⟨s.exchange, rfl, exchange_statement s hs hbetween⟩
  | waiting =>
    have hbetween : s.between = true := by simp [between, hphase]
    exact ⟨s.exchange, rfl, exchange_statement s hs hbetween⟩
  | exchanged => exact checkSize_statement s now hs hphase
  | writing written => exact writeNext_statement s hs written hphase

inductive Effect (s t : AsyncLogger) : LogAct → Prop
  | append (line : Bytes) : t.taken = s.taken →
      t.front = s.front ++ (if line.length < kLargeBuffer then line.map some else []) →
      t.appended = s.appended ++ [line] → t.phase = s.phase → t.running_ = s.running_ →
      Effect s t (.append line)
  | thread (now : Bytes) : Statement s t → Effect s t (.thread now)
  | elsewhere (a : LogAct) : t.taken = s.taken → t.front = s.front → t.appended = s.appended →
      t.between = s.between → (s.phase ≠ .unstarted → t.phase = s.phase ∧
        (s.running_ = false → t.running_ = false)) → Effect s t a

theorem step_effect (s t : AsyncLogger) (a : LogAct) (hs : Sound s) (h : step s a = some t) :
    Sound t ∧ Effect s t a := by
  have hnone : ¬ s.fault.isSome = true := by simp [hs.fault]
  rw [step, if_neg hnone] at h
  cases a with
  | append line =>
    obtain ⟨b, next, full, made, heq, hsound, htexts⟩ := append_spec s line hs
    rw [act, heq] at h
    obtain rfl := Option.some.inj h
    refine ⟨?_, .append line rfl htexts rfl rfl rfl⟩
    exact ⟨hsound.fault, hsound.current, hsound.next, hsound.spare, hsound.full, hsound.census,
      hsound.locals⟩
  | start =>
    obtain ⟨hphase, h⟩ := Option.ite_none_right_eq_some.mp h
    obtain rfl := Option.some.inj h
    have hlocals := hs.locals
    simp only [Locals, hphase] at hlocals
    refine ⟨⟨hs.fault, hs.current, hs.next, hs.spare, hs.full, hs.census, hlocals⟩,
      .elsewhere _ ?_ rfl rfl ?_ (fun hne => absurd hphase hne)⟩
    · simp [taken, pending, hphase, start]
    · simp [between, hphase, start]
  | stop =>
    obtain ⟨-, h⟩ := Option.ite_none_left_eq_some.mp h
    obtain rfl := Option.some.inj h
    exact ⟨⟨hs.fault, hs.current, hs.next, hs.spare, hs.full, hs.census, hs.locals⟩,
      .elsewhere _ rfl rfl rfl rfl (fun _ => ⟨rfl, fun _ => rfl⟩)⟩
  | join =>
    obtain ⟨-, h⟩ := Option.ite_none_right_eq_some.mp h
    obtain rfl := Option.some.inj h
    exact ⟨⟨hs.fault, hs.current, hs.next, hs.spare, hs.full, hs.census, hs.locals⟩,
      .elsewhere _ rfl rfl rfl rfl (fun _ => ⟨rfl, id⟩)⟩
  | thread now =>
    obtain ⟨-, h⟩ := Option.ite_none_left_eq_some.mp h
    obtain ⟨u, heq, hu⟩ := threadFunc_statement s now hs
    rw [heq] at h
    obtain rfl := Option.some.inj h
    exact ⟨hu.sound, .thread now hu⟩

theorem sound_initial : Sound {} := by
  refine ⟨rfl, ⟨_, rfl, Nat.zero_le _⟩, ?_, by simp, by simp, List.Perm.refl _, rfl, rfl, rfl⟩
  intro b hb
  obtain rfl := Option.some.inj hb
  rfl

theorem reach_sound (s : AsyncLogger) (h : Machine.Reach step (fun _ _ => True) {} s) : Sound s :=
  Machine.reach_invariant step _ _ Sound sound_initial
    (fun s a t hs _ ht => (step_effect s t a hs ht).1) s h

def few (s : AsyncLogger) : LogAct → Bool
  | .thread _ => s.phase ≠ .exchanged ∨ s.buffersToWrite.length ≤ 25
  | _ => true

def LogAct.short : LogAct → Bool
  | .append line => line.length < kLargeBuffer
  | _ => true

def Complete (s : AsyncLogger) : Prop := s.taken ++ s.front = recorded s.appended

theorem step_complete (s t : AsyncLogger) (a : LogAct) (hs : Sound s) (hc : Complete s)
    (hfew : s.few a = true) (h : step s a = some t) : Complete t := by
  unfold Complete at hc ⊢
  rcases (step_effect s t a hs h).2 with ⟨line, htaken, hfront, happended, -, -⟩ | ⟨now, hst⟩
    | ⟨_, htaken, hfront, happended, -, -⟩
  · rw [htaken, hfront, happended, recorded_snoc, ← hc, List.append_assoc]
  · have hmoves := hst.moves (by
      intro hphase
      simpa [few, hphase] using hfew)
    rw [hst.appended, ← hc]
    rcases hmoves with ⟨htaken, hfront, -, -⟩ | ⟨-, -, htaken, hfront⟩
    · rw [htaken, hfront]
    · rw [htaken, hfront, List.append_nil]
  · rw [htaken, hfront, happended, hc]

theorem complete_initial : Complete {} := by
  simp [Complete, taken, pending, texts, front, textOf, recorded, FixedBuffer.text_of_empty,
    FixedBuffer.bzero, FixedBuffer.create]

theorem reach_complete (s : AsyncLogger)
    (h : Machine.Reach step (fun s a => s.few a = true) {} s) : Complete s := by
  have hboth : Sound s ∧ Complete s := by
    refine Machine.reach_invariant step _ _ (fun s => Sound s ∧ Complete s) ?_ ?_ s h
    · exact ⟨sound_initial, complete_initial⟩
    · exact fun s a t hs hfew ht =>
        ⟨(step_effect s t a hs.1 ht).1, step_complete s t a hs.1 hs.2 hfew ht⟩
  exact hboth.2

theorem reach_short (s : AsyncLogger)
    (h : Machine.Reach step (fun s a => s.few a = true ∧ a.short = true) {} s) :
    Sound s ∧ ∀ line ∈ s.appended, line.length < kLargeBuffer := by
  refine Machine.reach_invariant step _ _
    (fun s => Sound s ∧ ∀ line ∈ s.appended, line.length < kLargeBuffer) ?_ ?_ s h
  · exact ⟨sound_initial, by simp⟩
  · intro s a t hs ha ht
    obtain ⟨hsound, heffect⟩ := step_effect s t a hs.1 ht
    refine ⟨hsound, ?_⟩
    rcases heffect with ⟨line, -, -, happended, -, -⟩ | ⟨now, hst⟩ | ⟨_, -, -, happended, -, -⟩
    · intro l hl
      rw [happended] at hl
      rcases List.mem_append.mp hl with hin | hin
      · exact hs.2 l hin
      · obtain rfl := List.mem_singleton.mp hin
        simpa [LogAct.short] using ha.2
    · rw [hst.appended]
      exact hs.2
    · rw [happended]
      exact hs.2

/-- The exchange of buffers, over all calls and all turns of the thread. -/
theorem reach_exchange (s : AsyncLogger) (h : Machine.Reach step (fun _ _ => True) {} s) :
    s.fault = none ∧ s.currentBuffer_ ≠ none ∧ s.places.flatten.Nodup
      ∧ (s.phase = .test →
          (∃ b, s.newBuffer1 = some b ∧ b.fixed.length = 0) ∧
          (∃ b, s.newBuffer2 = some b ∧ b.fixed.length = 0) ∧ s.buffersToWrite = [])
      ∧ (Machine.Reach step (fun s a => s.few a = true ∧ a.short = true) {} s →
          s.output ++ texts s.pending ++ texts s.buffers_ ++ textOf s.currentBuffer_
            = s.appended.flatten.map some) := by
  have hs := reach_sound s h
  refine ⟨hs.fault, ?_, hs.census.nodup, ?_, ?_⟩
  · obtain ⟨b, hb, -⟩ := hs.current
    simp [hb]
  · intro hphase
    have hlocals := hs.locals
    simp only [Locals, hphase] at hlocals
    exact ⟨(isEmpty_iff _).mp hlocals.1, (isEmpty_iff _).mp hlocals.2.1, hlocals.2.2⟩
  · intro hshort
    have hcomplete := reach_complete s
      (Machine.reach_mono step _ _ _ (fun s a hok => hok.1) s hshort)
    have hall := (reach_short s hshort).2
    have hrecorded : recorded s.appended = s.appended.flatten.map some := by
      unfold recorded
      rw [List.filter_eq_self.mpr (fun line hline => by simpa using hall line hline)]
    rw [← hrecorded, ← hcomplete, taken, front]
    simp

/-- A line that is appended while the thread waits is written in this turn. -/
theorem reach_exchange_turn : ∃ s : AsyncLogger, s.phase = .test
    ∧ s.appended = [bytes "a\n", bytes "b\n"] ∧ s.fault = none ∧ s.places.flatten.Nodup
    ∧ s.output ++ texts s.pending ++ texts s.buffers_ ++ textOf s.currentBuffer_
      = s.appended.flatten.map some := by
  have hrun : ∃ s, Machine.run step {}
      [.append (bytes "a\n"), .start, .thread [], .thread [], .thread [],
        .append (bytes "b\n"), .thread [], .thread [], .thread [], .thread []] = some s
      ∧ s.phase = .test ∧ s.appended = [bytes "a\n", bytes "b\n"]
      ∧ Machine.runMeets step (fun s a => s.few a && a.short) {}
        [.append (bytes "a\n"), .start, .thread [], .thread [], .thread [],
          .append (bytes "b\n"), .thread [], .thread [], .thread [], .thread []] = true := by
    exact ⟨_, rfl, rfl, rfl, rfl⟩
  obtain ⟨s, hs, hphase, happended, hmeets⟩ := hrun
  have hreach := Machine.run_reach step (fun s a => s.few a && a.short) {} s _ hs hmeets
  obtain ⟨hfault, -, hnodup, -, hbytes⟩ :=
    reach_exchange s (Machine.reach_mono step _ _ _ (fun _ _ _ => trivial) s hreach)
  have hshort := Machine.reach_mono step _ (fun s a => s.few a = true ∧ a.short = true) _
    (fun s a hok => by simpa using hok) s hreach
  exact ⟨s, hphase, happended, hfault, hnodup, hbytes hshort⟩

end AsyncLogger

end MuServer
