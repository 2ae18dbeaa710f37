import Mathlib.Algebra.Order.BigOperators.Group.List
import MuServer.ConnectionCalls

/-!
# What a connection writes

`Writes` relates the queue with the bytes on the wire until a hard error: the
contexts that left the queue were written whole, the front one as far as its
position, the others not at all.
-/

set_option autoImplicit false

namespace MuServer
open Lib.Machine Lib.Tickets

variable {T : Type}

def payloads (calls : List (Call T × Bytes)) : Bytes := (calls.map Prod.snd).flatten

def remainingBytes (queue : List (Call T × Context)) : ℕ := (queue.map (fun x => x.2.remaining)).sum

def frontSent : List (Call T × Context) → Bytes
  | [] => []
  | x::_ => x.2.sent

structure Writes (queue : List (Call T × Context)) (total : UInt64)
    (queued written : List (Call T × Bytes)) (wire : Bytes) : Prop where
  queued_eq : queued = written ++ queue.map (fun x => (x.1, x.2.payload))
  wire_eq : wire = payloads written ++ frontSent queue
  behind : ∀ x ∈ queue.tail, x.2.sent = []
  total_eq : total = UInt64.ofNat (remainingBytes queue)

theorem payloads_append (xs ys : List (Call T × Bytes)) :
    payloads (xs ++ ys) = payloads xs ++ payloads ys := by
  simp [payloads]

theorem writes_nil : Writes ([] : List (Call T × Context)) 0 [] [] [] where
  queued_eq := rfl
  wire_eq := rfl
  behind := by simp
  total_eq := rfl

theorem writes_enqueue (queue : List (Call T × Context)) (total : UInt64)
    (queued written : List (Call T × Bytes)) (wire : Bytes)
    (h : Writes queue total queued written wire) (call : Call T) (ctx : Context)
    (hsent : ctx.sent = []) :
    Writes (queue ++ [(call, ctx)]) (total+UInt64.ofNat ctx.remaining)
      (queued ++ [(call, ctx.payload)]) written wire where
  queued_eq := by
    rw [h.queued_eq]
    simp
  wire_eq := by
    rw [h.wire_eq]
    cases queue with
    | nil => simp [frontSent, hsent]
    | cons x rest => rfl
  behind := by
    intro x hx
    cases queue with
    | nil => simp at hx
    | cons y rest =>
      rcases List.mem_append.mp hx with hx | hx
      · exact h.behind x hx
      · obtain rfl := List.mem_singleton.mp hx
        exact hsent
  total_eq := by
    have hr : remainingBytes (queue ++ [(call, ctx)]) = remainingBytes queue+ctx.remaining := by
      simp [remainingBytes]
    rw [hr, UInt64.ofNat_add, h.total_eq]

theorem frontSent_behind (queue : List (Call T × Context)) (h : ∀ x ∈ queue, x.2.sent = []) :
    frontSent queue = [] := by
  cases queue with
  | nil => rfl
  | cons x rest => exact h x (List.mem_cons_self ..)

theorem writes_progress (call : Call T) (ctx ctx' : Context) (rest : List (Call T × Context))
    (total : UInt64) (queued written : List (Call T × Bytes)) (wire out : Bytes) (n : ℕ)
    (h : Writes ((call, ctx)::rest) total queued written wire) (hw : ctx.Wrote n out ctx') :
    Writes ((call, ctx')::rest) (total-UInt64.ofNat out.length) queued written (wire ++ out) where
  queued_eq := by
    rw [h.queued_eq, List.map_cons, List.map_cons, hw.payload_eq]
  wire_eq := by
    rw [h.wire_eq]
    simp only [frontSent, hw.sent_eq, List.append_assoc]
  behind := h.behind
  total_eq := by
    have hle := hw.le_remaining
    have hr : remainingBytes ((call, ctx)::rest) = remainingBytes ((call, ctx')::rest)+n := by
      simp only [remainingBytes, List.map_cons, List.sum_cons, hw.remaining_eq]
      omega
    rw [h.total_eq, hr, hw.length_out, UInt64.ofNat_add, UInt64.add_sub_cancel]

theorem writes_pop (call : Call T) (ctx : Context) (rest : List (Call T × Context))
    (total : UInt64) (queued written : List (Call T × Bytes)) (wire : Bytes)
    (h : Writes ((call, ctx)::rest) total queued written wire) (hc : ctx.isComplete = true) :
    Writes rest total queued (written ++ [(call, ctx.payload)]) wire where
  queued_eq := by
    rw [h.queued_eq]
    simp
  wire_eq := by
    have hb : frontSent rest = [] := frontSent_behind rest h.behind
    rw [h.wire_eq, hb, payloads_append, List.append_nil]
    simp [frontSent, payloads, ctx.isComplete_sent hc]
  behind := fun x hx => h.behind x (List.mem_of_mem_tail hx)
  total_eq := by
    have hz := ctx.isComplete_iff.mp hc
    rw [h.total_eq]
    simp [remainingBytes, hz]

namespace TcpConnection

def WritesSound (c : TcpConnection T) : Prop :=
  c.hardErrors = 0 →
    Writes c.contextQueue_ c.totalPendingBytes_ c.queued c.written c.wire

theorem enqueue_writes (c : TcpConnection T) (h : c.WritesSound) (call : Call T) (ctx : Context)
    (len : ℕ) (payload : Bytes) (hsent : ctx.sent = []) (hlen : ctx.remaining = len)
    (hpayload : ctx.payload = payload) : (c.enqueue call ctx len payload).WritesSound := by
  subst hlen hpayload
  exact fun he => writes_enqueue _ _ _ _ _ (h he) call ctx hsent

theorem took_writes (c : TcpConnection T) (h : c.WritesSound) (call : Call T) (ctx ctx' : Context)
    (rest : List (Call T × Context)) (out : Bytes) (n : ℕ)
    (hq : c.contextQueue_ = (call, ctx)::rest) (hw : ctx.Wrote n out ctx') :
    (c.took call ctx' rest out).WritesSound := by
  intro he
  have hs := h he
  rw [hq] at hs
  have hp := writes_progress call ctx ctx' rest _ _ _ _ out n hs hw
  unfold took
  cases hc : ctx'.isComplete with
  | false => exact hp
  | true => exact writes_pop call ctx' rest _ _ _ _ hp hc

theorem drained_writes (c : TcpConnection T) (h : c.WritesSound) : c.drained.WritesSound := by
  obtain ⟨poller, channel, hd⟩ := c.drained_channel
  rw [hd]
  exact h

theorem blocked_writes (c : TcpConnection T) (h : c.WritesSound) : c.blocked.WritesSound := by
  obtain ⟨triggered, stack, hb, -⟩ := c.blocked_frames
  rw [hb]
  exact h

theorem doWriting_writes (c c' : TcpConnection T) (h : c.WritesSound) (result : SocketResult)
    (hs : c.doWriting result = some c') : c'.WritesSound := by
  have hi : c.issue.WritesSound := h
  cases doWriting_round c c' result hs with
  | empty _ hq => exact h
  | progress call ctx ctx' rest out n hq hw hmore =>
    exact took_writes c.issue hi call ctx ctx' rest out n hq hw
  | drains call ctx ctx' out n hq hw hc =>
    apply drained_writes
    exact took_writes c.issue hi call ctx ctx' [] out n hq hw
  | blocks call ctx rest hq hr => exact blocked_writes c.issue hi
  | nothing call ctx rest hq hr => exact hi
  | fails call ctx rest hq =>
    intro he
    exact absurd he (Nat.succ_ne_zero _)

theorem runFunctor_writes (c : TcpConnection T) (h : c.WritesSound) (f : Functor T) :
    (c.runFunctor f).WritesSound := by
  cases f with
  | sendInLoop call data =>
    simp only [runFunctor, sendInLoop]
    split
    · exact h
    · exact enqueue_writes c h call _ _ _ (Context.ofData_sent data) (Context.ofData_remaining data)
        (Context.ofData_payload data)
  | sendFileInLoop call file =>
    exact enqueue_writes c h call _ _ _ (Context.ofFile_sent file) (Context.ofFile_remaining file)
      (Context.ofFile_payload file)
  | shutdownInLoop caller after => exact h
  | connectEstablished => exact h
  | connectDestroyed => exact h

theorem runFrame_writes (c c' : TcpConnection T) (h : c.WritesSound) (stack : List Frame)
    (result : SocketResult) (frame : Frame) (hs : c.runFrame stack result frame = some c') :
    c'.WritesSound := by
  cases runFrame_framed c c' stack result frame hs with
  | handleRead | writes | writesNothing | handleError | handleClose | closeCallback
  | writingAlready | enableWriting | shutdownStore | destroyStore | removeChannel => exact h

theorem step_writes [DecidableEq T] (c : TcpConnection T) (a : Act T) (c' : TcpConnection T)
    (h : c.WritesSound) (hs : c.step a = some c') : c'.WritesSound := by
  cases step_stepped c a c' hs with
  | functor result f hcontrol => exact runFunctor_writes c h f
  | writing result _ hcontrol hw => exact doWriting_writes c c' h result hw
  | frame result frame stack _ hcontrol hstack hr =>
    exact runFrame_writes c c' h stack result frame hr
  | poll | handleEvent | pending | userCode | refused | sends | shutdowns | setHighWaterMark
  | userReturns | callRefused | calls | callShutdown | store | post | queueDestroyed => exact h

theorem remaining_le (queue : List (Call T × Context)) (x : Call T × Context) (hx : x ∈ queue) :
    x.2.remaining ≤ remainingBytes queue :=
  List.le_sum_of_mem (List.mem_map_of_mem hx)

theorem writes_initial (queue : List (Call T × Context)) (total : UInt64)
    (queued written : List (Call T × Bytes)) (wire : Bytes)
    (h : Writes queue total queued written wire) : wire <+: payloads queued := by
  rw [h.wire_eq, h.queued_eq, payloads_append, List.prefix_append_right_inj]
  cases queue with
  | nil => exact List.nil_prefix
  | cons x rest =>
    have hp : payloads ((x::rest).map (fun y => (y.1, y.2.payload))) =
        x.2.payload ++ payloads (rest.map (fun y => (y.1, y.2.payload))) := by
      simp [payloads]
    rw [hp]
    exact x.2.sent_initial.trans (List.prefix_append _ _)

theorem start_writes (fd owner : ℕ) : (start (T := T) fd owner).WritesSound := fun _ => writes_nil

/-- Until a hard error the wire holds the complete payloads and the sent part of
the front one, each caller's calls stand in its order, and `totalPendingBytes_` is
the sum of `remaining()` in `size_t`; it covers every context while the sum fits. -/
theorem reach_writes [DecidableEq T] (fd owner : ℕ) (c : TcpConnection T)
    (h : Reach step (fun _ _ => True) (start fd owner) c) (herr : c.hardErrors = 0) :
    c.wire <+: payloads c.queued ∧
      c.queued = c.written ++ c.contextQueue_.map (fun x => (x.1, x.2.payload)) ∧
      c.wire = payloads c.written ++ frontSent c.contextQueue_ ∧
      (∀ x ∈ c.contextQueue_.tail, x.2.sent = []) ∧
      c.queued.Pairwise (fun x y => Before x.1 y.1) ∧
      (∀ x ∈ c.queued, x.1.number < c.accepted x.1.caller) ∧
      c.totalPendingBytes_ = UInt64.ofNat (remainingBytes c.contextQueue_) ∧
      (remainingBytes c.contextQueue_ < 2^64 →
        c.totalPendingBytes_.toNat = remainingBytes c.contextQueue_ ∧
          ∀ x ∈ c.contextQueue_, x.2.remaining ≤ c.totalPendingBytes_.toNat) := by
  have hw := reach_invariant _ _ _ WritesSound (start_writes fd owner)
    (fun s a t hs _ ht => step_writes s a t hs ht) c h herr
  have hl := reach_invariant _ _ _ LinedSound (start_lined fd owner)
    (fun s a t hs _ ht => step_lined s a t hs ht) c h
  have hn := numbered_sublist _ c.done _ hl.numbered (List.sublist_append_left _ _)
  refine ⟨writes_initial _ _ _ _ _ hw, hw.queued_eq, hw.wire_eq, hw.behind,
    List.pairwise_map.mp hn.sorted, ?_, hw.total_eq, ?_⟩
  · intro x hx
    exact hn.lt_count x.1 (List.mem_map_of_mem hx)
  · intro hfits
    have ht : c.totalPendingBytes_.toNat = remainingBytes c.contextQueue_ := by
      rw [hw.total_eq, UInt64.toNat_ofNat', Nat.mod_eq_of_lt hfits]
    refine ⟨ht, ?_⟩
    intro x hx
    rw [ht]
    exact remaining_le _ x hx

/-- The loop thread sends a file between two calls of another thread; the
socket takes a part, blocks, and takes the rest behind `EPOLLOUT`. -/
def twoSenders : List (Act ℕ) :=
  [.doPendingFunctor, .exec .again, .userReturns, .call 1 (.send [1, 2]), .post 1,
    .userCode, .request (.sendFile ⟨[9, 3, 4, 9], 1, 2⟩), .exec .again, .exec (.bytes 1),
    .exec .again, .exec .again, .userReturns, .doPendingFunctor, .exec .again, .exec .again,
    .exec .again, .call 1 (.send [5]), .post 1, .poll { out := true }, .handleEvent, .exec .again,
    .exec (.bytes 1), .exec (.bytes 1)]

theorem reach_writes_twoSenders :
    ∃ c, run step (start (T := ℕ) 5 0) twoSenders = some c ∧ c.hardErrors = 0 ∧
      c.wire = [3, 4, 1] ∧ c.wire <+: payloads c.queued ∧ c.totalPendingBytes_ = 1 := by
  obtain ⟨c, hc⟩ : ∃ c, run step (start (T := ℕ) 5 0) twoSenders = some c := ⟨_, rfl⟩
  have hreach := run_reach step (fun _ _ => true) (start 5 0) c twoSenders hc rfl
  have herr : c.hardErrors = 0 := by
    obtain rfl := Option.some.inj hc
    rfl
  have hw := reach_writes 5 0 c (reach_mono _ _ _ _ (fun _ _ _ => trivial) c hreach) herr
  obtain rfl := Option.some.inj hc
  exact ⟨_, hc, herr, rfl, hw.1, rfl⟩

end TcpConnection
end MuServer
