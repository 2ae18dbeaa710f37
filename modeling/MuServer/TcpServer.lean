import MuServer.ConnectionLife

/-!
# The server and its loops

The base loop accepts connections and takes them out of `connections_`, each I/O
loop runs the code of its own connections against its own poller. Connections of
one loop interleave step by step, which allows more runs than its thread has. A
connection goes when nothing holds it: `connections_`, a pending functor with a
copy of the `shared_ptr`, the loop thread or a caller. Its destructor closes the
descriptor, which the kernel may then give to the next connection.
-/

set_option autoImplicit false

namespace MuServer
open Lib

structure Held (T L : Type) where
  conn : TcpConnection T
  loop : L
  /-- the threads in one of its calls -/
  callers : List T := []
  alive : Bool := true

/-- A failed assert aborts the process; a functor or an event of a connection that
is gone reads freed memory. -/
structure TcpServer (T L : Type) where
  nextConnId_ : ℕ := 1
  connections_ : List ℕ := []
  conns : ℕ → Option (Held T L) := fun _ => none
  pollers : L → EpollPoller := fun _ => {}
  openFds : List ℕ := []
  /-- `removeConnectionInLoop` pending in the base loop -/
  baseFunctors : List ℕ := []
  removed : List ℕ := []
  aborted : Bool := false
  freedUse : Bool := false

inductive ServerAct (T L : Type) where
  /-- `accept` returns a descriptor; the pool gives it a loop -/
  | newConnection (fd : ℕ) (loop : L)
  | conn (i : ℕ) (a : Act T)
  | removeConnectionInLoop (i : ℕ)
  /-- the last `shared_ptr` goes -/
  | destruct (i : ℕ)
  /-- the loop comes to a functor or an event of a connection that is gone -/
  | useFreed (i : ℕ)

def Functor.holds {T : Type} : Functor T → Bool
  | .connectEstablished => true
  | .connectDestroyed => true
  | _ => false

namespace TcpServer

variable {T L : Type} [DecidableEq T] [DecidableEq L]

def setConn (s : TcpServer T L) (i : ℕ) (h : Held T L) : TcpServer T L :=
  { s with conns := Function.update s.conns i (some h) }

def setPoller (s : TcpServer T L) (loop : L) (p : EpollPoller) : TcpServer T L :=
  { s with pollers := Function.update s.pollers loop p }

def newConnection (s : TcpServer T L) (fd : ℕ) (loop : L) : TcpServer T L :=
  { s.setConn s.nextConnId_ { conn := .start fd s.nextConnId_, loop := loop } with
    nextConnId_ := s.nextConnId_+1
    connections_ := s.connections_ ++ [s.nextConnId_]
    openFds := s.openFds ++ [fd] }

def attached (s : TcpServer T L) (h : Held T L) : TcpConnection T :=
  { h.conn with poller := s.pollers h.loop }

def callersAfter (callers : List T) (c : TcpConnection T) : Act T → List T
  | .call t _ => if c.threads t = .idle then callers else t::callers
  | .post t => callers.erase t
  | _ => callers

/-- A step of a connection; the call of `closeCallback_` is `removeConnection`. -/
def settle (s : TcpServer T L) (i : ℕ) (h : Held T L) (a : Act T) (c : TcpConnection T) :
    TcpServer T L :=
  { (s.setConn i { h with conn := c, callers := callersAfter h.callers c a }).setPoller h.loop
      c.poller with
    baseFunctors := if h.conn.firesClose a then s.baseFunctors ++ [i] else s.baseFunctors
    aborted := c.poller.failed }

def removeConnectionInLoop (s : TcpServer T L) (i : ℕ) (h : Held T L) : TcpServer T L :=
  { s.setConn i { h with conn := h.conn.queueInLoop .connectDestroyed } with
    baseFunctors := s.baseFunctors.erase i
    connections_ := s.connections_.erase i
    removed := s.removed ++ [i] }

def released (s : TcpServer T L) (i : ℕ) (h : Held T L) : Bool :=
  i ∉ s.connections_ && i ∉ s.baseFunctors && h.conn.atRest && h.callers.isEmpty &&
    h.conn.pendingFunctors_.all (fun f => !f.holds)

def destruct (s : TcpServer T L) (i : ℕ) (h : Held T L) : TcpServer T L :=
  { (s.setConn i { h with alive := false }).setPoller h.loop
      ((s.pollers h.loop).closed h.conn.channel_.fd_) with
    openFds := s.openFds.erase h.conn.channel_.fd_ }

def leftover (h : Held T L) : Bool := !h.conn.pendingFunctors_.isEmpty || h.conn.active.isSome

def step (s : TcpServer T L) (a : ServerAct T L) : Option (TcpServer T L) :=
  if s.aborted || s.freedUse then none
  else
    match a with
    | .newConnection fd loop => if fd ∈ s.openFds then none else some (s.newConnection fd loop)
    | .conn i a =>
      match s.conns i with
      | some h =>
        if h.alive && a ≠ .queueDestroyed then ((s.attached h).step a).map (s.settle i h a)
        else none
      | none => none
    | .removeConnectionInLoop i =>
      match s.conns i with
      | some h => if i ∈ s.baseFunctors then some (s.removeConnectionInLoop i h) else none
      | none => none
    | .destruct i =>
      match s.conns i with
      | some h => if h.alive && s.released i h then some (s.destruct i h) else none
      | none => none
    | .useFreed i =>
      match s.conns i with
      | some h => if !h.alive && leftover h then some { s with freedUse := true } else none
      | none => none

/-- A run in which no loop comes to a functor or an event of a connection that is gone.
What the code does behind that is undefined. -/
structure Ran (as : List (ServerAct T L)) (s : TcpServer T L) : Prop where
  run : Machine.run step {} as = some s
  defined : s.freedUse = false

inductive Stepped (s : TcpServer T L) : ServerAct T L → TcpServer T L → Prop
  | newConnection (fd : ℕ) (loop : L) (hfd : fd ∉ s.openFds) :
      Stepped s (.newConnection fd loop) (s.newConnection fd loop)
  | conn (i : ℕ) (h : Held T L) (a : Act T) (c : TcpConnection T) (hi : s.conns i = some h)
      (halive : h.alive = true) (ha : a ≠ .queueDestroyed) (hc : (s.attached h).step a = some c) :
      Stepped s (.conn i a) (s.settle i h a c)
  | removeConnectionInLoop (i : ℕ) (h : Held T L) (hi : s.conns i = some h)
      (hb : i ∈ s.baseFunctors) :
      Stepped s (.removeConnectionInLoop i) (s.removeConnectionInLoop i h)
  | destruct (i : ℕ) (h : Held T L) (hi : s.conns i = some h) (halive : h.alive = true)
      (hr : s.released i h = true) : Stepped s (.destruct i) (s.destruct i h)
  | useFreed (i : ℕ) (h : Held T L) (hi : s.conns i = some h) (halive : h.alive = false)
      (hl : leftover h = true) : Stepped s (.useFreed i) { s with freedUse := true }

theorem step_stepped (s : TcpServer T L) (a : ServerAct T L) (s' : TcpServer T L)
    (hs : s.step a = some s') : s.aborted = false ∧ s.freedUse = false ∧ Stepped s a s' := by
  unfold step at hs
  split at hs
  · exact absurd hs (by simp)
  · rename_i hrun
    simp only [Bool.or_eq_true, not_or, Bool.not_eq_true] at hrun
    refine ⟨hrun.1, hrun.2, ?_⟩
    cases a with
    | newConnection fd loop =>
      obtain ⟨hfd, hs⟩ := Option.ite_none_left_eq_some.mp hs
      obtain rfl := Option.some.inj hs
      exact .newConnection fd loop hfd
    | conn i a =>
      simp only at hs
      split at hs
      · rename_i h hi
        obtain ⟨hok, hs⟩ := Option.ite_none_right_eq_some.mp hs
        simp only [Bool.and_eq_true, decide_eq_true_eq] at hok
        obtain ⟨c, hc, rfl⟩ := Option.map_eq_some_iff.mp hs
        exact .conn i h a c hi hok.1 hok.2 hc
      · exact absurd hs (by simp)
    | removeConnectionInLoop i =>
      simp only at hs
      split at hs
      · rename_i h hi
        obtain ⟨hb, hs⟩ := Option.ite_none_right_eq_some.mp hs
        obtain rfl := Option.some.inj hs
        exact .removeConnectionInLoop i h hi hb
      · exact absurd hs (by simp)
    | destruct i =>
      simp only at hs
      split at hs
      · rename_i h hi
        obtain ⟨hok, hs⟩ := Option.ite_none_right_eq_some.mp hs
        simp only [Bool.and_eq_true] at hok
        obtain rfl := Option.some.inj hs
        exact .destruct i h hi hok.1 hok.2
      · exact absurd hs (by simp)
    | useFreed i =>
      simp only at hs
      split at hs
      · rename_i h hi
        obtain ⟨hok, hs⟩ := Option.ite_none_right_eq_some.mp hs
        simp only [Bool.and_eq_true, Bool.not_eq_true'] at hok
        obtain rfl := Option.some.inj hs
        exact .useFreed i h hi hok.1 hok.2
      · exact absurd hs (by simp)

end TcpServer
end MuServer
