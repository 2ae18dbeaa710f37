import MuServer.BufferWords
import MuServer.Lib.Fifo

/-!
# The buffer is a queue of bytes

Any sequence of calls on one buffer is compared with the queue that holds
everything appended or read and remembers how much of it has been retrieved.
-/

set_option autoImplicit false

namespace MuServer
open Lib

namespace BufferQueue

inductive Op where
  | append (data : Bytes)
  | retrieve (len : ℕ)
  | retrieveAsString (len : ℕ)
  | retrieveAll
  /-- `readFd` whose `readv` scatters `data` -/
  | readFd (data : Bytes)
  deriving DecidableEq, Repr

/-- What a caller and the kernel keep to in one call: a retrieve stays within
the readable bytes, `readv` within its vectors, and the vector never has to
grow beyond `max_size`. -/
def Allowed (b : Buffer) : Op → Prop
  | .append data => b.sizeFor data.length ≤ BufferWords.maxSize
  | .retrieve len => len ≤ b.readableBytes
  | .retrieveAsString len => len ≤ b.readableBytes
  | .retrieveAll => True
  | .readFd data => data.length ≤ b.iovecLength ∧ b.sizeFor data.length ≤ BufferWords.maxSize

instance (b : Buffer) : ∀ op : Op, Decidable (Allowed b op)
  | .append data => inferInstanceAs (Decidable (b.sizeFor data.length ≤ BufferWords.maxSize))
  | .retrieve len => inferInstanceAs (Decidable (len ≤ b.readableBytes))
  | .retrieveAsString len => inferInstanceAs (Decidable (len ≤ b.readableBytes))
  | .retrieveAll => inferInstanceAs (Decidable True)
  | .readFd data => inferInstanceAs (Decidable (data.length ≤ b.iovecLength ∧
      b.sizeFor data.length ≤ BufferWords.maxSize))

def step (b : Buffer) : Op → Except Fault (Bytes × Buffer)
  | .append data => do
    let c ← BufferWords.append b data data.length
    .ok ([], c)
  | .retrieve len => do
    let c ← BufferWords.retrieve b len
    .ok ([], c)
  | .retrieveAsString len => BufferWords.retrieveAsString b len
  | .retrieveAll => .ok ([], BufferWords.retrieveAll b)
  | .readFd data => do
    let c ← BufferWords.readFd b (.got data)
    .ok ([], c)

def run : Buffer → List Op → Except Fault (List Bytes × Buffer)
  | b, [] => .ok ([], b)
  | b, op::ops => do
    let r ← step b op
    let rest ← run r.2 ops
    .ok (r.1::rest.1, rest.2)

def exactStep (b : Buffer) : Op → Except Fault (Bytes × Buffer)
  | .append data => do
    let c ← b.append data
    .ok ([], c)
  | .retrieve len => do
    let c ← b.retrieve len
    .ok ([], c)
  | .retrieveAsString len => b.retrieveAsString len
  | .retrieveAll => .ok ([], b.retrieveAll)
  | .readFd data => do
    let c ← b.readFd data
    .ok ([], c)

def AllowedRun : Buffer → List Op → Prop
  | _, [] => True
  | b, op::ops => Allowed b op ∧ ∀ r, step b op = .ok r → AllowedRun r.2 ops

def queueStep (q : Fifo Byte) : Op → Fifo Byte
  | .append data => q.push data
  | .retrieve len => q.pop len
  | .retrieveAsString len => q.pop len
  | .retrieveAll => q.pop q.contents.length
  | .readFd data => q.push data

def answer (q : Fifo Byte) : Op → Bytes
  | .retrieveAsString len => q.contents.take len
  | _ => []

def queueRun : Fifo Byte → List Op → List Bytes × Fifo Byte
  | q, [] => ([], q)
  | q, op::ops =>
    let rest := queueRun (queueStep q op) ops
    (answer q op::rest.1, rest.2)

def Op.input : Op → Bytes
  | .append data => data
  | .readFd data => data
  | _ => []

structure Refines (b : Buffer) (q : Fifo Byte) : Prop where
  bounded : BufferWords.Bounded b
  readable : b.readable = q.contents

theorem create_refines (n : ℕ) (hn : kCheapPrepend+n ≤ BufferWords.maxSize) :
    Refines (Buffer.create n) Fifo.empty where
  bounded := ⟨Buffer.create_wf n, by
    change (List.replicate (kCheapPrepend+n) 0).length ≤ _
    rwa [List.length_replicate]⟩
  readable := Buffer.create_readable n

theorem step_exact (b : Buffer) (h : BufferWords.Bounded b) (op : Op) (ha : Allowed b op) :
    step b op = exactStep b op := by
  cases op with
  | append data =>
    have he := (BufferWords.append_eq b h data data.length (le_refl _) ha).1
    rw [List.take_length] at he
    simp only [step, exactStep, he]
  | retrieve len => simp only [step, exactStep, BufferWords.retrieve_eq b h len ha]
  | retrieveAsString len => exact BufferWords.retrieveAsString_eq b h len ha
  | retrieveAll => rfl
  | readFd data =>
    simp only [step, exactStep, (BufferWords.readFd_eq b h data ha.1 ha.2).1]

theorem retrieve_bounded (b : Buffer) (h : BufferWords.Bounded b) (len : ℕ) (c : Buffer)
    (hc : b.retrieve len = .ok c) (hwf : c.WF) : BufferWords.Bounded c := by
  have hs : c.buffer_ = b.buffer_ := by
    unfold Buffer.retrieve at hc
    split_ifs at hc <;> obtain rfl := Except.ok.inj hc <;> rfl
  exact ⟨hwf, by rw [hs]; exact h.size⟩

theorem retrieveAsString_retrieve (b : Buffer) (len : ℕ) (s : Bytes) (c : Buffer)
    (hc : b.retrieveAsString len = .ok (s, c)) : b.retrieve len = .ok c := by
  unfold Buffer.retrieveAsString at hc
  split_ifs at hc
  cases hr : b.retrieve len with
  | error e => simp [hr, bind, Except.bind] at hc
  | ok d =>
    simp only [hr, bind, Except.bind, Except.ok.injEq, Prod.mk.injEq] at hc
    rw [hc.2]

theorem exactStep_refines (b : Buffer) (q : Fifo Byte) (h : Refines b q) (op : Op)
    (ha : Allowed b op) :
    ∃ c, exactStep b op = .ok (answer q op, c) ∧ Refines c (queueStep q op) := by
  have hwf := h.bounded.wf
  have hq := h.readable
  cases op with
  | append data =>
    obtain ⟨c, hc, _, hr⟩ := Buffer.append_ok b hwf data
    have hb := (BufferWords.append_eq b h.bounded data data.length (le_refl _) ha).2
    rw [List.take_length] at hb
    refine ⟨c, by simp only [exactStep, hc, bind, Except.bind, answer], hb c hc, ?_⟩
    rw [hr, hq, queueStep, Fifo.contents_push]
  | readFd data =>
    obtain ⟨c, hc, _, hr⟩ := Buffer.readFd_ok b hwf data
    have hb := (BufferWords.readFd_eq b h.bounded data ha.1 ha.2).2
    refine ⟨c, by simp only [exactStep, hc, bind, Except.bind, answer], hb c hc, ?_⟩
    rw [hr, hq, queueStep, Fifo.contents_push]
  | retrieve len =>
    have hlen : len ≤ b.readable.length := by
      rw [Buffer.readable_length b hwf]
      exact ha
    obtain ⟨c, hc, hcwf, hr⟩ := Buffer.retrieve_ok b hwf len hlen
    refine ⟨c, by simp only [exactStep, hc, bind, Except.bind, answer],
      retrieve_bounded b h.bounded len c hc hcwf, ?_⟩
    rw [hr, hq, queueStep, Fifo.contents_pop]
  | retrieveAsString len =>
    have hlen : len ≤ b.readable.length := by
      rw [Buffer.readable_length b hwf]
      exact ha
    obtain ⟨c, hc, hcwf, hr⟩ := Buffer.retrieveAsString_ok b hwf len hlen
    have hret := retrieveAsString_retrieve b len _ c hc
    refine ⟨c, by rw [exactStep, hc, hq]; rfl,
      retrieve_bounded b h.bounded len c hret hcwf, ?_⟩
    rw [hr, hq, queueStep, Fifo.contents_pop]
  | retrieveAll =>
    refine ⟨b.retrieveAll, rfl, ⟨Buffer.retrieveAll_wf b hwf, h.bounded.size⟩, ?_⟩
    rw [Buffer.retrieveAll_readable, queueStep, Fifo.contents_pop, List.drop_length]

theorem step_refines (b : Buffer) (q : Fifo Byte) (h : Refines b q) (op : Op)
    (ha : Allowed b op) :
    ∃ c, step b op = .ok (answer q op, c) ∧ Refines c (queueStep q op) := by
  rw [step_exact b h.bounded op ha]
  exact exactStep_refines b q h op ha

theorem run_refines (b : Buffer) (q : Fifo Byte) (h : Refines b q) (ops : List Op)
    (ha : AllowedRun b ops) :
    ∃ c, run b ops = .ok ((queueRun q ops).1, c) ∧ Refines c (queueRun q ops).2 := by
  induction ops generalizing b q with
  | nil => exact ⟨b, rfl, h⟩
  | cons op ops ih =>
    obtain ⟨c, hc, hr⟩ := step_refines b q h op ha.1
    obtain ⟨d, hd, hdr⟩ := ih c (queueStep q op) hr (ha.2 _ hc)
    refine ⟨d, ?_, hdr⟩
    simp only [run, hc, hd, bind, Except.bind, queueRun]

theorem queueRun_supplied (q : Fifo Byte) (ops : List Op) :
    (queueRun q ops).2.supplied = q.supplied ++ ops.flatMap Op.input := by
  induction ops generalizing q with
  | nil => exact (List.append_nil _).symm
  | cons op ops ih =>
    have hop : (queueStep q op).supplied = q.supplied ++ op.input := by
      cases op <;> simp [queueStep, Op.input, Fifo.push, Fifo.pop]
    simp only [queueRun, ih, hop, List.flatMap_cons, List.append_assoc]

/-- In every run of a buffer the index invariant holds, the words hold exact
numbers, and the readable bytes are what came in but for a prefix. -/
theorem buffer_refines_queue (n : ℕ) (hn : kCheapPrepend+n ≤ BufferWords.maxSize) (ops : List Op)
    (ha : AllowedRun (Buffer.create n) ops) :
    ∃ b, run (Buffer.create n) ops = .ok ((queueRun Fifo.empty ops).1, b) ∧ b.WF ∧
      b.buffer_.length ≤ BufferWords.maxSize ∧
      b.readable = (queueRun Fifo.empty ops).2.contents ∧
      (∃ gone, ops.flatMap Op.input = gone ++ b.readable) ∧
      ∀ op, Allowed b op → step b op = exactStep b op := by
  obtain ⟨b, hb, hr⟩ := run_refines _ _ (create_refines n hn) ops ha
  refine ⟨b, hb, hr.bounded.wf, hr.bounded.size, hr.readable, ?_, ?_⟩
  · obtain ⟨gone, _, hs⟩ := (queueRun Fifo.empty ops).2.supplied_split
    rw [queueRun_supplied, ← hr.readable] at hs
    exact ⟨gone, hs⟩
  · exact fun op hop => step_exact b hr.bounded op hop

/-- Five bytes read into a tail of two, three of them taken out again. -/
theorem buffer_refines_queue_run :
    ∃ b, run (Buffer.create 2) [.readFd [1, 2, 3, 4, 5], .retrieveAsString 2, .retrieve 1,
        .append [6]] = .ok ([[], [1, 2], [], []], b) ∧ b.WF ∧ b.readable = [4, 5, 6] := by
  have hall : AllowedRun (Buffer.create 2) [.readFd [1, 2, 3, 4, 5], .retrieveAsString 2,
      .retrieve 1, .append [6]] := by
    have hread : step (Buffer.create 2) (.readFd [1, 2, 3, 4, 5]) =
        .ok ([], ⟨List.replicate 8 0 ++ [1, 2, 3, 4, 5], 8, 13⟩) := by
      rw [step_exact _ ⟨Buffer.create_wf 2, by decide⟩ _ (by decide)]
      decide
    refine ⟨by decide, fun r hr => ?_⟩
    obtain rfl := Except.ok.inj (hread.symm.trans hr)
    refine ⟨by decide, fun r hr => ?_⟩
    have htake : step ⟨List.replicate 8 0 ++ [1, 2, 3, 4, 5], 8, 13⟩ (.retrieveAsString 2) =
        .ok ([1, 2], ⟨List.replicate 8 0 ++ [1, 2, 3, 4, 5], 10, 13⟩) := by decide
    obtain rfl := Except.ok.inj (htake.symm.trans hr)
    refine ⟨by decide, fun r hr => ?_⟩
    have hdrop : step ⟨List.replicate 8 0 ++ [1, 2, 3, 4, 5], 10, 13⟩ (.retrieve 1) =
        .ok ([], ⟨List.replicate 8 0 ++ [1, 2, 3, 4, 5], 11, 13⟩) := by decide
    obtain rfl := Except.ok.inj (hdrop.symm.trans hr)
    exact ⟨by decide, fun _ _ => trivial⟩
  obtain ⟨b, hrun, hwf, _, hr, _⟩ := buffer_refines_queue 2 (by decide) _ hall
  exact ⟨b, hrun, hwf, hr⟩

end BufferQueue
end MuServer
