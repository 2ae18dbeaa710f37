import MuServer.ConnectionWrites

/-!
# The callbacks of `doWriting`

Where the queue becomes empty and where it grows too long `doWriting` hands a
functor to `runInLoop`, which runs it at once. The one holds a copy of
`highWaterCallback_`, the other a pointer to the member `writeCompleteCallback_`:
for a pointer to a data member INVOKE gives the member and makes no call.
-/

set_option autoImplicit false

namespace MuServer
open Lib.Machine

inductive Callback where
  | writeComplete
  | highWater
  deriving DecidableEq, Repr

/-- The first argument of a `std::bind`, the second being the connection. -/
inductive Bound where
  /-- a callback by value -/
  | copy (callback : Callback)
  /-- the address of the member with the callback -/
  | member (callback : Callback)
  deriving DecidableEq, Repr

def Bound.invoke : Bound → Option Callback
  | .copy callback => some callback
  | .member _ => none

namespace TcpConnection

variable {T : Type}

def bindsIn (c : TcpConnection T) (result : SocketResult) : Option Bound :=
  match c.contextQueue_ with
  | [] => none
  | (_, ctx)::rest =>
    match result with
    | .bytes n =>
      match ctx.writeToSocket n with
      | some (_, ctx') =>
        if ctx'.isComplete && rest.isEmpty then some (.member .writeComplete) else none
      | none => none
    | .again =>
      if 0 < ctx.remaining && c.exceedsHighWater then some (.copy .highWater) else none
    | .fails => none

def binds (c : TcpConnection T) : Act T → Option Bound
  | .exec result =>
    match c.control with
    | .doWriting => c.bindsIn result
    | _ => none
  | _ => none

/-- The functor with the member goes to `runInLoop` when the queue becomes empty. -/
theorem bindsIn_bytes (c c' : TcpConnection T) (n : ℕ) (hs : c.doWriting (.bytes n) = some c') :
    c.bindsIn (.bytes n) =
      if c.contextQueue_ ≠ [] ∧ c'.contextQueue_ = [] then some (.member .writeComplete)
      else none := by
  unfold doWriting at hs
  unfold bindsIn
  split at hs
  · rename_i hq
    simp [hq]
  · rename_i call ctx rest hq
    simp only [afterWrite] at hs
    simp only [hq]
    split at hs
    · exact absurd hs (by simp)
    · rename_i out ctx' hw
      have htook : (c.issue.took call ctx' rest out).contextQueue_ =
          if ctx'.isComplete then rest else (call, ctx')::rest := rfl
      simp only [hw]
      split at hs
      · rename_i hc
        obtain rfl := Option.some.inj hs
        rw [if_pos hc, if_pos]
        simp only [Bool.and_eq_true, List.isEmpty_iff] at hc
        rw [drained_queue, htook, if_pos hc.1]
        exact ⟨by simp, hc.2⟩
      · rename_i hc
        obtain rfl := Option.some.inj hs
        rw [if_neg hc, if_neg]
        rintro ⟨-, hnil⟩
        rw [htook] at hnil
        split at hnil
        · rename_i hcomplete
          exact hc (by simp [hcomplete, hnil])
        · exact absurd hnil (by simp)

theorem bindsIn_again (c : TcpConnection T) (call : Call T) (ctx : Context)
    (rest : List (Call T × Context)) (hq : c.contextQueue_ = (call, ctx)::rest) :
    c.bindsIn .again =
      if 0 < ctx.remaining && c.exceedsHighWater then some (.copy .highWater) else none := by
  simp only [bindsIn, hq]

end TcpConnection

/-- A connection whose write-complete callback is set, and what the callbacks have
heard; the high-water callback is set by `setHighWaterMark`. -/
structure Notified (T : Type) where
  conn : TcpConnection T
  /-- the calls of the callbacks, each with the address of the connection it was given -/
  calls : List (Callback × ℕ) := []
  /-- how often `doWriting` has made a nonempty queue empty -/
  drains : ℕ := 0
  /-- the high-water calls since `totalPendingBytes_` was last at or below the mark -/
  reports : ℕ := 0
  /-- it has been there since `highWaterMarkTriggered_` was set -/
  fallen : Bool := false
  /-- `doWriting` has just returned from a blocked socket -/
  blocked : Bool := false

namespace TcpConnection

variable {T : Type}

def atDoWriting (c : TcpConnection T) : Bool :=
  match c.control with
  | .doWriting => true
  | _ => false

def empties (c c' : TcpConnection T) : Bool :=
  c.atDoWriting && !c.contextQueue_.isEmpty && c'.contextQueue_.isEmpty

def belowMark (c : TcpConnection T) : Bool := c.totalPendingBytes_.toNat ≤ c.highWaterMark_

def returnsBlocked (c : TcpConnection T) : Act T → Bool
  | .exec result =>
    match c.control, c.stack, c.contextQueue_ with
    | .doWriting, _, (_, ctx)::_ => result = .again && ctx.remaining = 0
    | .frames, .enableWriting::_, _ => true
    | _, _, _ => false
  | _ => false

end TcpConnection

namespace Notified

variable {T : Type} [DecidableEq T]

def start (fd owner : ℕ) : Notified T := { conn := .start fd owner }

def called (s : Notified T) (a : Act T) : Option Callback := (s.conn.binds a).bind Bound.invoke

def settle (s : Notified T) (a : Act T) (c : TcpConnection T) : Notified T where
  conn := c
  calls := s.calls ++ (s.called a).toList.map (fun callback => (callback, c.channel_.owner))
  drains := if s.conn.empties c then s.drains+1 else s.drains
  reports :=
    if c.belowMark then 0 else s.reports+(if s.called a = some .highWater then 1 else 0)
  fallen := s.fallen || (c.highWaterMarkTriggered_ && c.belowMark)
  blocked := s.conn.returnsBlocked a

def step (s : Notified T) (a : Act T) : Option (Notified T) :=
  (s.conn.step a).map (s.settle a)

def soft (s : Notified T) : Act T → Bool
  | .exec result => !(s.conn.atDoWriting && result = .fails)
  | _ => true

def keepsWaiting (s : Notified T) : Act T → Bool
  | .exec (.bytes n) =>
    match s.conn.control, s.conn.contextQueue_ with
    | .doWriting, [(_, ctx)] => n ≠ ctx.remaining
    | _, _ => true
  | _ => true

def completions (s : Notified T) : List ℕ :=
  (s.calls.filter (fun call => call.1 = .writeComplete)).map Prod.snd

theorem step_conn (s : Notified T) (a : Act T) (t : Notified T) (hs : s.step a = some t) :
    s.conn.step a = some t.conn ∧ t = s.settle a t.conn := by
  obtain ⟨c, hc, rfl⟩ := Option.map_eq_some_iff.mp hs
  exact ⟨hc, rfl⟩

omit [DecidableEq T] in
theorem called_ne (s : Notified T) (a : Act T) : s.called a ≠ some .writeComplete := by
  intro hcalled
  obtain ⟨bound, hbound, hinvoke⟩ := Option.bind_eq_some_iff.mp hcalled
  have hcopy : bound = .copy .writeComplete := by
    cases bound with
    | copy callback => rw [Option.some.inj hinvoke]
    | member callback => exact absurd hinvoke (by simp [Bound.invoke])
  rw [hcopy] at hbound
  cases a with
  | exec result =>
    simp only [TcpConnection.binds] at hbound
    split at hbound
    · unfold TcpConnection.bindsIn at hbound
      grind
    · exact absurd hbound (by simp)
  | _ => exact absurd hbound (by simp [TcpConnection.binds])

theorem step_completions (s : Notified T) (a : Act T) (t : Notified T) (hs : s.step a = some t) :
    t.completions = s.completions := by
  obtain ⟨-, ht⟩ := s.step_conn a t hs
  have hcalls : t.calls =
      s.calls ++ (s.called a).toList.map (fun callback => (callback, t.conn.channel_.owner)) := by
    rw [ht]
    rfl
  have hne := s.called_ne a
  cases hc : s.called a with
  | none => simp [completions, hcalls, hc]
  | some callback =>
    have hother : callback ≠ .writeComplete := fun he => hne (by rw [hc, he])
    simp [completions, hcalls, hc, hother]

theorem step_empties (s : Notified T) (a : Act T) (c : TcpConnection T) (hsoft : s.soft a = true)
    (hs : s.conn.step a = some c) : s.conn.empties c = !s.keepsWaiting a := by
  cases TcpConnection.step_stepped s.conn a c hs with
  | writing result _ hcontrol hw =>
    have hwriting : s.conn.atDoWriting = true := by simp [TcpConnection.atDoWriting, hcontrol]
    cases TcpConnection.doWriting_round s.conn c result hw with
    | empty _ hq =>
      cases result <;> simp [TcpConnection.empties, keepsWaiting, hcontrol, hq]
    | progress call ctx ctx' rest out n hq hwrote hmore =>
      have hleft : ¬ (n = ctx.remaining ∧ rest = []) := by
        rintro ⟨hn, hrest⟩
        apply hmore
        refine ⟨ctx'.isComplete_iff.mpr ?_, hrest⟩
        rw [hwrote.remaining_eq, hn, Nat.sub_self]
      have hqueue : (s.conn.issue.took call ctx' rest out).contextQueue_ ≠ [] := by
        change (if ctx'.isComplete then rest else (call, ctx')::rest) ≠ []
        split
        · rename_i hc
          exact fun hrest => hmore ⟨hc, hrest⟩
        · simp
      have hkeeps : s.keepsWaiting (.exec (.bytes n)) = true := by
        cases rest with
        | nil => simpa [keepsWaiting, hcontrol, hq] using hleft
        | cons x xs => simp [keepsWaiting, hcontrol, hq]
      simp [TcpConnection.empties, hkeeps, hqueue]
    | drains call ctx ctx' out n hq hwrote hcomplete =>
      have hle := hwrote.le_remaining
      have hzero := ctx'.isComplete_iff.mp hcomplete
      have hn : n = ctx.remaining := by
        rw [hwrote.remaining_eq] at hzero
        omega
      have htook := TcpConnection.drained_empty s.conn.issue call ctx' out hcomplete
      simp [TcpConnection.empties, keepsWaiting, hwriting, hcontrol, hq, hn, htook]
    | blocks call ctx rest hq hr =>
      obtain ⟨triggered, stack, hblocked, -⟩ := TcpConnection.blocked_frames s.conn.issue
      have hsame : s.conn.issue.blocked.contextQueue_ = s.conn.contextQueue_ := by
        rw [hblocked]
        rfl
      simp [TcpConnection.empties, keepsWaiting, hsame, hq]
    | nothing call ctx rest hq hr =>
      have hsame : (s.conn.issue.frames s.conn.stack).contextQueue_ = s.conn.contextQueue_ := rfl
      simp [TcpConnection.empties, keepsWaiting, hsame, hq]
    | fails => simp [soft, hwriting] at hsoft
  | functor result f hcontrol =>
    cases result <;> simp [TcpConnection.empties, keepsWaiting, TcpConnection.atDoWriting, hcontrol]
  | frame result frame stack _ hcontrol =>
    cases result <;> simp [TcpConnection.empties, keepsWaiting, TcpConnection.atDoWriting, hcontrol]
  | sends r f hcontrol =>
    simp [TcpConnection.empties, keepsWaiting, TcpConnection.atDoWriting, hcontrol]
  | poll | handleEvent | pending | userCode | refused | shutdowns | setHighWaterMark | userReturns
  | callRefused | calls | callShutdown | store | post | queueDestroyed =>
    simp [TcpConnection.empties, keepsWaiting, TcpConnection.accept, TcpConnection.store,
      TcpConnection.setStates, TcpConnection.queueInLoop]

theorem step_drains (s : Notified T) (a : Act T) (t : Notified T) (hsoft : s.soft a = true)
    (hs : s.step a = some t) : t.drains = if s.keepsWaiting a then s.drains else s.drains+1 := by
  obtain ⟨hc, ht⟩ := s.step_conn a t hs
  have hempties := s.step_empties a t.conn hsoft hc
  have hdrains : t.drains = if s.conn.empties t.conn then s.drains+1 else s.drains := by
    rw [ht]
    rfl
  rw [hdrains, hempties]
  cases s.keepsWaiting a <;> simp

theorem run_drains (s : Notified T) (as : List (Act T)) (t : Notified T)
    (hrun : run step s as = some t) (hsoft : runMeets step soft s as = true) :
    s.drains ≤ t.drains ∧ (t.drains = s.drains ↔ runMeets step keepsWaiting s as = true) := by
  induction as generalizing s with
  | nil =>
    obtain rfl := Option.some.inj hrun
    simp [runMeets]
  | cons a as ih =>
    obtain ⟨u, hu, hrest⟩ := Option.bind_eq_some_iff.mp hrun
    simp only [runMeets, hu, Bool.and_eq_true] at hsoft ⊢
    have hdrains := s.step_drains a u hsoft.1 hu
    obtain ⟨hle, hiff⟩ := ih u hrest hsoft.2
    cases hkeeps : s.keepsWaiting a with
    | true =>
      rw [hkeeps, if_pos rfl] at hdrains
      rw [← hdrains]
      exact ⟨hle, by simpa using hiff⟩
    | false =>
      rw [hkeeps, if_neg (by simp)] at hdrains
      refine ⟨by omega, ?_⟩
      constructor
      · intro heq
        omega
      · rintro ⟨hfalse, -⟩
        exact absurd hfalse (by simp)

theorem run_completions (s : Notified T) (as : List (Act T)) (t : Notified T)
    (hrun : run step s as = some t) : t.completions = s.completions := by
  induction as generalizing s with
  | nil =>
    obtain rfl := Option.some.inj hrun
    rfl
  | cons a as ih =>
    obtain ⟨u, hu, hrest⟩ := Option.bind_eq_some_iff.mp hrun
    exact (ih u hrest).trans (s.step_completions a u hu)

/-- Every emptied queue is reported, with this connection: so it is in the runs
that empty none. -/
theorem run_completed_iff (fd owner : ℕ) (as : List (Act T)) (s : Notified T)
    (hrun : run step (start fd owner) as = some s)
    (hsoft : runMeets step soft (start fd owner) as = true) :
    s.completions = List.replicate s.drains owner ↔
      runMeets step keepsWaiting (start fd owner) as = true := by
  obtain ⟨-, hiff⟩ := run_drains _ as s hrun hsoft
  have hnone : s.completions = [] := run_completions _ as s hrun
  rw [← hiff, hnone]
  change [] = List.replicate s.drains owner ↔ s.drains = 0
  cases s.drains <;> simp [List.replicate_succ]

def sendPart : List (Act ℕ) :=
  [.doPendingFunctor, .exec .again, .request (.send [1, 2]), .exec .again, .exec (.bytes 1),
    .exec .again, .exec .again]

theorem run_completed_iff_sendPart :
    ∃ s, run step (start (T := ℕ) 5 0) sendPart = some s ∧
      s.completions = List.replicate s.drains 0 := by
  obtain ⟨s, hs⟩ : ∃ s, run step (start (T := ℕ) 5 0) sendPart = some s := ⟨_, rfl⟩
  exact ⟨s, hs, (run_completed_iff 5 0 sendPart s hs rfl).mpr rfl⟩

def sendWhole : List (Act ℕ) :=
  sendPart ++ [.userReturns, .poll { out := true }, .handleEvent, .exec .again, .exec (.bytes 1),
    .exec .again]

theorem sendWhole_unreported :
    ¬ ∀ (as : List (Act ℕ)) (s : Notified ℕ), run step (start 5 0) as = some s →
      runMeets step soft (start 5 0) as = true → s.completions = List.replicate s.drains 0 := by
  intro hall
  obtain ⟨s, hs⟩ : ∃ s, run step (start (T := ℕ) 5 0) sendWhole = some s := ⟨_, rfl⟩
  have hcompletions := hall sendWhole s hs rfl
  obtain rfl := Option.some.inj hs
  exact absurd hcompletions (by decide)

end Notified
end MuServer
