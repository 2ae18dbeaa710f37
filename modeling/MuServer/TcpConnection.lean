import MuServer.ConnectionContext
import MuServer.EpollPoller
import MuServer.Lib.Machine
import MuServer.Lib.Tickets

/-!
# One connection among its threads

The loop thread takes one step of the connection's code at a time, at most one
access of `state_` in each. It is at a call (`control`) or returns to the frames
of `stack`, and takes pending functors one by one, of which the loop makes batches.
A thread `t` other than it is `some t` as a caller, the loop thread is `none`. The
calls that pass the test of `state_` are numbered caller by caller.
-/

set_option autoImplicit false

namespace MuServer
open Lib.Tickets

inductive StateE where
  | kDisconnected
  | kDisconnecting
  | kConnecting
  | kConnected
  deriving DecidableEq, Repr

abbrev Call (T : Type) := Ticket (Option T)

/-- Calls that wait in `pendingFunctors_`, or that the loop thread makes. -/
inductive Functor (T : Type) where
  | sendInLoop (call : Call T) (data : Bytes)
  | sendFileInLoop (call : Call T) (file : StaticFile)
  /-- with the number of calls its caller had made before -/
  | shutdownInLoop (caller : Option T) (after : ℕ)
  | connectEstablished
  | connectDestroyed
  deriving DecidableEq

inductive Request where
  | send (data : Bytes)
  | sendFile (file : StaticFile)
  | shutdown
  deriving DecidableEq

structure Revents where
  hup : Bool := false
  err : Bool := false
  rd : Bool := false
  pri : Bool := false
  out : Bool := false
  deriving DecidableEq

inductive Frame where
  | user
  | handleRead
  | handleWrite
  | handleError
  | handleClose
  /-- behind `connectionCallback_` in `handleClose` -/
  | closeCallback
  /-- behind the high-water callback in `doWriting` -/
  | enableWriting
  /-- behind the test of `shutdown` -/
  | shutdownStore
  /-- behind the test of `connectDestroyed` -/
  | destroyStore
  | removeChannel
  deriving DecidableEq

inductive Control (T : Type) where
  | frames
  | functor (f : Functor T)
  /-- at the head of the loop of `doWriting` -/
  | doWriting
  deriving DecidableEq

inductive Phase (T : Type) where
  | idle
  /-- behind the test of `shutdown` -/
  | storing
  /-- in `runInLoop` -/
  | posting (f : Functor T)
  deriving DecidableEq

inductive SocketResult where
  | bytes (n : ℕ)
  /-- -1 with `EAGAIN` -/
  | again
  /-- -1 with another `errno` -/
  | fails
  deriving DecidableEq

inductive Act (T : Type) where
  /-- `epoll_wait` reports the channel -/
  | poll (revents : Revents)
  | handleEvent
  | doPendingFunctor
  /-- the loop thread comes to user code from elsewhere -/
  | userCode
  | request (r : Request)
  | setHighWaterMark (mark : ℕ)
  | userReturns
  | exec (result : SocketResult)
  | call (t : T) (r : Request)
  | store (t : T)
  | post (t : T)
  /-- `removeConnectionInLoop` queues `connectDestroyed` -/
  | queueDestroyed
  deriving DecidableEq

structure TcpConnection (T : Type) where
  state_ : StateE := .kConnecting
  channel_ : Channel
  poller : EpollPoller := {}
  contextQueue_ : List (Call T × Context) := []
  totalPendingBytes_ : UInt64 := 0
  highWaterMark_ : ℕ := 64*1024*1024
  highWaterCallback_ : Bool := false
  highWaterMarkTriggered_ : Bool := false
  control : Control T := .frames
  stack : List Frame := []
  active : Option Revents := none
  pendingFunctors_ : List (Functor T) := [.connectEstablished]
  threads : T → Phase T := fun _ => .idle
  /-- how many calls of a caller have passed the test of `state_` -/
  accepted : Option T → ℕ := fun _ => 0
  /-- payloads in the order they entered `contextQueue_` -/
  queued : List (Call T × Bytes) := []
  /-- those that left it complete -/
  written : List (Call T × Bytes) := []
  /-- what the socket has taken -/
  wire : Bytes := []
  hardErrors : ℕ := 0
  /-- runs of `handleClose` -/
  closes : ℕ := 0
  closeCallbacks : ℕ := 0
  writesAfterClose : ℕ := 0
  enablesAfterClose : ℕ := 0
  shutdownRuns : ℕ := 0
  /-- the `SHUT_WR`s, each for a caller with the number of its earlier calls -/
  halfCloses : List (Option T × ℕ) := []
  established : ℕ := 0
  destroyed : ℕ := 0
  /-- removals of the channel -/
  removes : ℕ := 0

def Revents.handlers (r : Revents) : List Frame :=
  (if r.hup && !r.rd then [.handleClose] else []) ++ (if r.err then [.handleError] else []) ++
    (if r.rd || r.pri then [.handleRead] else []) ++ (if r.out then [.handleWrite] else [])

namespace TcpConnection

variable {T : Type}

def updateChannel (c : TcpConnection T) (channel : Channel) : TcpConnection T :=
  { c with
    poller := (c.poller.updateChannel channel).1
    channel_ := (c.poller.updateChannel channel).2 }

/-- For the history: `n` things of a kind that a closed connection must not do. -/
def afterClose (c : TcpConnection T) (n : ℕ) : ℕ := if c.closes = 0 then n else n+1

def enableReading (c : TcpConnection T) : TcpConnection T :=
  { c.updateChannel c.channel_.enableReading with
    enablesAfterClose := c.afterClose c.enablesAfterClose }

def enableWriting (c : TcpConnection T) : TcpConnection T :=
  { c.updateChannel c.channel_.enableWriting with
    enablesAfterClose := c.afterClose c.enablesAfterClose }

def disableWriting (c : TcpConnection T) : TcpConnection T :=
  c.updateChannel c.channel_.disableWriting

def disableAll (c : TcpConnection T) : TcpConnection T := c.updateChannel c.channel_.disableAll

def removeChannel (c : TcpConnection T) : TcpConnection T :=
  { c with
    poller := (c.poller.removeChannel c.channel_).1
    channel_ := (c.poller.removeChannel c.channel_).2
    removes := c.removes+1 }

def setStates (c : TcpConnection T) (s : StateE) : TcpConnection T := { c with state_ := s }

def frames (c : TcpConnection T) (stack : List Frame) : TcpConnection T :=
  { c with control := .frames, stack := stack }

def enqueue (c : TcpConnection T) (call : Call T) (ctx : Context) (len : ℕ) (payload : Bytes) :
    TcpConnection T :=
  { c with
    contextQueue_ := c.contextQueue_ ++ [(call, ctx)]
    totalPendingBytes_ := c.totalPendingBytes_+UInt64.ofNat len
    queued := c.queued ++ [(call, payload)]
    control := .doWriting }

def sendInLoop (c : TcpConnection T) (call : Call T) (data : Bytes) : TcpConnection T :=
  if c.state_ = .kDisconnected then c.frames c.stack
  else c.enqueue call (.data (.ofData data)) data.length data

def sendFileInLoop (c : TcpConnection T) (call : Call T) (file : StaticFile) : TcpConnection T :=
  c.enqueue call (.file (.ofFile file)) file.getFileSize file.payload

/-- The front context has taken `out`; `ctx` is what is left of it. -/
def took (c : TcpConnection T) (call : Call T) (ctx : Context)
    (rest : List (Call T × Context)) (out : Bytes) : TcpConnection T :=
  { c with
    contextQueue_ := if ctx.isComplete then rest else (call, ctx)::rest
    totalPendingBytes_ := c.totalPendingBytes_-UInt64.ofNat out.length
    written := if ctx.isComplete then c.written ++ [(call, ctx.payload)] else c.written
    wire := c.wire ++ out }

/-- The queue has become empty. Binding `&TcpConnection::writeCompleteCallback_`
makes a functor that reads the member and calls nothing. -/
def drained (c : TcpConnection T) : TcpConnection T :=
  if c.channel_.isWriting then c.disableWriting else c

def exceedsHighWater (c : TcpConnection T) : Bool :=
  c.highWaterMark_ < c.totalPendingBytes_.toNat && !c.highWaterMarkTriggered_ &&
    c.highWaterCallback_

def blocked (c : TcpConnection T) : TcpConnection T :=
  if c.exceedsHighWater then
    { c with highWaterMarkTriggered_ := true }.frames (.user::.enableWriting::c.stack)
  else c.frames (.enableWriting::c.stack)

def writeFails (c : TcpConnection T) (rest : List (Call T × Context)) : TcpConnection T :=
  { c with contextQueue_ := rest, hardErrors := c.hardErrors+1 }.frames (.handleClose::c.stack)

def issue (c : TcpConnection T) : TcpConnection T :=
  { c with writesAfterClose := c.afterClose c.writesAfterClose }

def afterWrite (c : TcpConnection T) (call : Call T) (ctx : Context)
    (rest : List (Call T × Context)) : SocketResult → Option (TcpConnection T)
  | .bytes n =>
    match ctx.writeToSocket n with
    | none => none
    | some (out, ctx') =>
      if ctx'.isComplete && rest.isEmpty then some (c.took call ctx' rest out).drained
      else some (c.took call ctx' rest out)
  | .again => if 0 < ctx.remaining then some c.blocked else some (c.frames c.stack)
  | .fails => some (c.writeFails rest)

def doWriting (c : TcpConnection T) (result : SocketResult) : Option (TcpConnection T) :=
  match c.contextQueue_ with
  | [] => some (c.frames c.stack)
  | (call, ctx)::rest => c.issue.afterWrite call ctx rest result

def shutdownInLoop (c : TcpConnection T) (caller : Option T) (after : ℕ) : TcpConnection T :=
  { c with
    shutdownRuns := c.shutdownRuns+1
    halfCloses := if c.channel_.isWriting then c.halfCloses else c.halfCloses ++ [(caller, after)] }

def connectEstablished (c : TcpConnection T) : TcpConnection T :=
  { (c.setStates .kConnected).enableReading with established := c.established+1 }

def connectDestroyed (c : TcpConnection T) : List Frame :=
  if c.state_ = .kConnected then [.destroyStore, .removeChannel] else [.removeChannel]

def runFunctor (c : TcpConnection T) : Functor T → TcpConnection T
  | .sendInLoop call data => c.sendInLoop call data
  | .sendFileInLoop call file => c.sendFileInLoop call file
  | .shutdownInLoop caller after => (c.shutdownInLoop caller after).frames c.stack
  | .connectEstablished => c.connectEstablished.frames (.user::c.stack)
  | .connectDestroyed =>
    { c with destroyed := c.destroyed+1 }.frames (c.connectDestroyed ++ c.stack)

def handleClose (c : TcpConnection T) : TcpConnection T :=
  { (c.setStates .kDisconnected).disableAll with closes := c.closes+1 }

/-- What follows the result of `readFd`, which is taken to return what it documents:
a `readv` that fails is an error here, and a fault in `BufferWords.handleRead`. -/
def afterRead : SocketResult → Frame
  | .bytes 0 => .handleClose
  | .bytes (_+1) => .user
  | .again => .handleError
  | .fails => .handleError

def runFrame (c : TcpConnection T) (stack : List Frame) (result : SocketResult) :
    Frame → Option (TcpConnection T)
  | .user => none
  | .handleRead => some (c.frames (afterRead result::stack))
  | .handleWrite =>
    if c.channel_.isWriting && !c.contextQueue_.isEmpty then
      some { c with control := .doWriting, stack := stack }
    else some (c.frames stack)
  | .handleError => some (c.frames stack)
  | .handleClose => some (c.handleClose.frames (.user::.closeCallback::stack))
  | .closeCallback => some ({ c with closeCallbacks := c.closeCallbacks+1 }.frames stack)
  | .enableWriting =>
    if c.channel_.isWriting then some (c.frames stack) else some (c.enableWriting.frames stack)
  | .shutdownStore =>
    some { c.setStates .kDisconnecting with
      control := .functor (.shutdownInLoop none (c.accepted none)), stack := stack }
  | .destroyStore => some ((c.setStates .kDisconnected).disableAll.frames (.user::stack))
  | .removeChannel => some (c.removeChannel.frames stack)

def exec (c : TcpConnection T) (result : SocketResult) : Option (TcpConnection T) :=
  match c.control with
  | .functor f => some (c.runFunctor f)
  | .doWriting => c.doWriting result
  | .frames =>
    match c.stack with
    | [] => none
    | frame::stack => c.runFrame stack result frame

variable [DecidableEq T]

def sendFunctor (c : TcpConnection T) (caller : Option T) : Request → Option (Functor T)
  | .send data => some (.sendInLoop ⟨caller, c.accepted caller⟩ data)
  | .sendFile file => some (.sendFileInLoop ⟨caller, c.accepted caller⟩ file)
  | .shutdown => none

def accept (c : TcpConnection T) (caller : Option T) : TcpConnection T :=
  { c with accepted := Function.update c.accepted caller (c.accepted caller+1) }

def request (c : TcpConnection T) (r : Request) : TcpConnection T :=
  if c.state_ = .kConnected then
    match c.sendFunctor none r with
    | some f => { c.accept none with control := .functor f }
    | none => { c with stack := .shutdownStore::c.stack }
  else c

def call (c : TcpConnection T) (t : T) (r : Request) : TcpConnection T :=
  if c.state_ = .kConnected then
    match c.sendFunctor (some t) r with
    | some f => { c.accept (some t) with threads := Function.update c.threads t (.posting f) }
    | none => { c with threads := Function.update c.threads t .storing }
  else c

def store (c : TcpConnection T) (t : T) : TcpConnection T :=
  { c.setStates .kDisconnecting with
    threads := Function.update c.threads t
      (.posting (.shutdownInLoop (some t) (c.accepted (some t)))) }

def queueInLoop (c : TcpConnection T) (f : Functor T) : TcpConnection T :=
  { c with pendingFunctors_ := c.pendingFunctors_ ++ [f] }

def atRest (c : TcpConnection T) : Bool := c.control = .frames ∧ c.stack = []

def inUser (c : TcpConnection T) : Bool := c.control = .frames ∧ c.stack.head? = some .user

def step (c : TcpConnection T) : Act T → Option (TcpConnection T)
  | .poll revents =>
    if c.atRest && c.active.isNone && c.channel_.index_ = .kAdded then
      some { c with active := some revents }
    else none
  | .handleEvent =>
    match c.active with
    | some revents =>
      if c.atRest then some { c with active := none, stack := revents.handlers } else none
    | none => none
  | .doPendingFunctor =>
    match c.pendingFunctors_ with
    | f::fs =>
      if c.atRest && c.active.isNone then
        some { c with control := .functor f, pendingFunctors_ := fs }
      else none
    | [] => none
  | .userCode => if c.atRest then some { c with stack := [.user] } else none
  | .request r => if c.inUser then some (c.request r) else none
  | .setHighWaterMark mark =>
    if c.inUser then some { c with highWaterCallback_ := true, highWaterMark_ := mark } else none
  | .userReturns => if c.inUser then some { c with stack := c.stack.tail } else none
  | .exec result => c.exec result
  | .call t r => if c.threads t = .idle then some (c.call t r) else none
  | .store t => if c.threads t = .storing then some (c.store t) else none
  | .post t =>
    match c.threads t with
    | .posting f => some { c.queueInLoop f with threads := Function.update c.threads t .idle }
    | _ => none
  | .queueDestroyed => some (c.queueInLoop .connectDestroyed)

def start (fd owner : ℕ) : TcpConnection T := { channel_ := { fd_ := fd, owner := owner } }

inductive Stepped (c : TcpConnection T) : Act T → TcpConnection T → Prop
  | poll (revents : Revents) (hcontrol : c.control = .frames) (hstack : c.stack = [])
      (hactive : c.active = none) (hindex : c.channel_.index_ = .kAdded) :
      Stepped c (.poll revents) { c with active := some revents }
  | handleEvent (revents : Revents) (hcontrol : c.control = .frames) (hstack : c.stack = [])
      (hactive : c.active = some revents) :
      Stepped c .handleEvent { c with active := none, stack := revents.handlers }
  | pending (f : Functor T) (fs : List (Functor T)) (hcontrol : c.control = .frames)
      (hstack : c.stack = []) (hactive : c.active = none) (hpending : c.pendingFunctors_ = f::fs) :
      Stepped c .doPendingFunctor { c with control := .functor f, pendingFunctors_ := fs }
  | userCode (hcontrol : c.control = .frames) (hstack : c.stack = []) :
      Stepped c .userCode { c with stack := [.user] }
  | refused (r : Request) (hstate : c.state_ ≠ .kConnected) : Stepped c (.request r) c
  | sends (r : Request) (f : Functor T) (hcontrol : c.control = .frames)
      (hstate : c.state_ = .kConnected) (hf : c.sendFunctor none r = some f) :
      Stepped c (.request r) { c.accept none with control := .functor f }
  | shutdowns (hcontrol : c.control = .frames) (hstate : c.state_ = .kConnected) :
      Stepped c (.request .shutdown) { c with stack := .shutdownStore::c.stack }
  | setHighWaterMark (mark : ℕ) : Stepped c (.setHighWaterMark mark)
      { c with highWaterCallback_ := true, highWaterMark_ := mark }
  | userReturns (stack : List Frame) (hcontrol : c.control = .frames)
      (hstack : c.stack = .user::stack) : Stepped c .userReturns { c with stack := stack }
  | functor (result : SocketResult) (f : Functor T) (hcontrol : c.control = .functor f) :
      Stepped c (.exec result) (c.runFunctor f)
  | writing (result : SocketResult) (c' : TcpConnection T) (hcontrol : c.control = .doWriting)
      (hw : c.doWriting result = some c') : Stepped c (.exec result) c'
  | frame (result : SocketResult) (frame : Frame) (stack : List Frame) (c' : TcpConnection T)
      (hcontrol : c.control = .frames) (hstack : c.stack = frame::stack)
      (hr : c.runFrame stack result frame = some c') : Stepped c (.exec result) c'
  | callRefused (t : T) (r : Request) (hstate : c.state_ ≠ .kConnected) : Stepped c (.call t r) c
  | calls (t : T) (r : Request) (f : Functor T) (hidle : c.threads t = .idle)
      (hstate : c.state_ = .kConnected) (hf : c.sendFunctor (some t) r = some f) :
      Stepped c (.call t r)
        { c.accept (some t) with threads := Function.update c.threads t (.posting f) }
  | callShutdown (t : T) (hidle : c.threads t = .idle) (hstate : c.state_ = .kConnected) :
      Stepped c (.call t .shutdown) { c with threads := Function.update c.threads t .storing }
  | store (t : T) (hstoring : c.threads t = .storing) : Stepped c (.store t) (c.store t)
  | post (t : T) (f : Functor T) (hposting : c.threads t = .posting f) :
      Stepped c (.post t)
        { c.queueInLoop f with threads := Function.update c.threads t .idle }
  | queueDestroyed : Stepped c .queueDestroyed (c.queueInLoop .connectDestroyed)

theorem atRest_iff (c : TcpConnection T) :
    c.atRest = true ↔ c.control = .frames ∧ c.stack = [] := by
  simp [atRest]

theorem inUser_iff (c : TcpConnection T) :
    c.inUser = true ↔ c.control = .frames ∧ ∃ stack, c.stack = .user::stack := by
  simp [inUser, List.head?_eq_some_iff]

theorem request_stepped (c : TcpConnection T) (r : Request) (hcontrol : c.control = .frames) :
    Stepped c (.request r) (c.request r) := by
  unfold request
  split
  · rename_i hstate
    cases r with
    | send data => exact .sends _ _ hcontrol hstate rfl
    | sendFile file => exact .sends _ _ hcontrol hstate rfl
    | shutdown => exact .shutdowns hcontrol hstate
  · rename_i hstate
    exact .refused r hstate

theorem call_stepped (c : TcpConnection T) (t : T) (r : Request) (hidle : c.threads t = .idle) :
    Stepped c (.call t r) (c.call t r) := by
  unfold call
  split
  · rename_i hstate
    cases r with
    | send data => exact .calls t _ _ hidle hstate rfl
    | sendFile file => exact .calls t _ _ hidle hstate rfl
    | shutdown => exact .callShutdown t hidle hstate
  · rename_i hstate
    exact .callRefused t r hstate

theorem exec_stepped (c c' : TcpConnection T) (result : SocketResult)
    (hs : c.exec result = some c') : Stepped c (.exec result) c' := by
  unfold exec at hs
  split at hs
  · rename_i f hcontrol
    obtain rfl := Option.some.inj hs
    exact .functor result f hcontrol
  · rename_i hcontrol
    exact .writing result c' hcontrol hs
  · rename_i hcontrol
    split at hs
    · exact absurd hs (by simp)
    · rename_i frame stack hstack
      exact .frame result frame stack c' hcontrol hstack hs

theorem step_stepped (c : TcpConnection T) (a : Act T) (c' : TcpConnection T)
    (hs : c.step a = some c') : Stepped c a c' := by
  cases a with
  | exec result => exact exec_stepped c c' result hs
  | queueDestroyed =>
    obtain rfl := Option.some.inj hs
    exact .queueDestroyed
  | poll revents =>
    obtain ⟨h, hc⟩ := Option.ite_none_right_eq_some.mp hs
    obtain rfl := Option.some.inj hc
    simp only [Bool.and_eq_true, atRest_iff, Option.isNone_iff_eq_none, decide_eq_true_eq] at h
    exact .poll revents h.1.1.1 h.1.1.2 h.1.2 h.2
  | userCode =>
    obtain ⟨h, hc⟩ := Option.ite_none_right_eq_some.mp hs
    obtain rfl := Option.some.inj hc
    obtain ⟨hcontrol, hstack⟩ := c.atRest_iff.mp h
    exact .userCode hcontrol hstack
  | request r =>
    obtain ⟨h, hc⟩ := Option.ite_none_right_eq_some.mp hs
    obtain rfl := Option.some.inj hc
    exact request_stepped c r (c.inUser_iff.mp h).1
  | setHighWaterMark mark =>
    obtain ⟨-, hc⟩ := Option.ite_none_right_eq_some.mp hs
    obtain rfl := Option.some.inj hc
    exact .setHighWaterMark mark
  | userReturns =>
    obtain ⟨h, hc⟩ := Option.ite_none_right_eq_some.mp hs
    obtain rfl := Option.some.inj hc
    obtain ⟨hcontrol, stack, hstack⟩ := c.inUser_iff.mp h
    rw [hstack]
    exact .userReturns stack hcontrol hstack
  | call t r =>
    obtain ⟨h, hc⟩ := Option.ite_none_right_eq_some.mp hs
    obtain rfl := Option.some.inj hc
    exact call_stepped c t r h
  | store t =>
    obtain ⟨h, hc⟩ := Option.ite_none_right_eq_some.mp hs
    obtain rfl := Option.some.inj hc
    exact .store t h
  | post t =>
    simp only [step] at hs
    split at hs
    · rename_i f hposting
      obtain rfl := Option.some.inj hs
      exact .post t f hposting
    · exact absurd hs (by simp)
  | handleEvent =>
    simp only [step] at hs
    split at hs
    · rename_i revents hactive
      obtain ⟨h, hc⟩ := Option.ite_none_right_eq_some.mp hs
      obtain rfl := Option.some.inj hc
      obtain ⟨hcontrol, hstack⟩ := c.atRest_iff.mp h
      exact .handleEvent revents hcontrol hstack hactive
    · exact absurd hs (by simp)
  | doPendingFunctor =>
    simp only [step] at hs
    split at hs
    · rename_i f fs hpending
      obtain ⟨h, hc⟩ := Option.ite_none_right_eq_some.mp hs
      obtain rfl := Option.some.inj hc
      simp only [Bool.and_eq_true, atRest_iff, Option.isNone_iff_eq_none] at h
      exact .pending f fs h.1.1 h.1.2 h.2 hpending
    · exact absurd hs (by simp)

inductive Round (c : TcpConnection T) : SocketResult → TcpConnection T → Prop
  | empty (result : SocketResult) (hq : c.contextQueue_ = []) : Round c result (c.frames c.stack)
  | progress (call : Call T) (ctx ctx' : Context) (rest : List (Call T × Context)) (out : Bytes)
      (n : ℕ) (hq : c.contextQueue_ = (call, ctx)::rest) (hw : ctx.Wrote n out ctx')
      (hmore : ¬ (ctx'.isComplete = true ∧ rest = [])) :
      Round c (.bytes n) (c.issue.took call ctx' rest out)
  | drains (call : Call T) (ctx ctx' : Context) (out : Bytes) (n : ℕ)
      (hq : c.contextQueue_ = [(call, ctx)]) (hw : ctx.Wrote n out ctx')
      (hc : ctx'.isComplete = true) :
      Round c (.bytes n) (c.issue.took call ctx' [] out).drained
  | blocks (call : Call T) (ctx : Context) (rest : List (Call T × Context))
      (hq : c.contextQueue_ = (call, ctx)::rest) (hr : 0 < ctx.remaining) :
      Round c .again c.issue.blocked
  | nothing (call : Call T) (ctx : Context) (rest : List (Call T × Context))
      (hq : c.contextQueue_ = (call, ctx)::rest) (hr : ctx.remaining = 0) :
      Round c .again (c.issue.frames c.stack)
  | fails (call : Call T) (ctx : Context) (rest : List (Call T × Context))
      (hq : c.contextQueue_ = (call, ctx)::rest) : Round c .fails (c.issue.writeFails rest)

omit [DecidableEq T] in
theorem doWriting_round (c c' : TcpConnection T) (result : SocketResult)
    (hs : c.doWriting result = some c') : Round c result c' := by
  unfold doWriting at hs
  split at hs
  · rename_i hq
    obtain rfl := Option.some.inj hs
    exact .empty result hq
  · rename_i call ctx rest hq
    cases result with
    | bytes n =>
      simp only [afterWrite] at hs
      split at hs
      · exact absurd hs (by simp)
      · rename_i out ctx' hw
        have hw' := ctx.writeToSocket_wrote n out ctx' hw
        split at hs
        · rename_i hc
          simp only [Bool.and_eq_true, List.isEmpty_iff] at hc
          obtain ⟨hc, rfl⟩ := hc
          obtain rfl := Option.some.inj hs
          exact .drains call ctx ctx' out n hq hw' hc
        · rename_i hc
          obtain rfl := Option.some.inj hs
          exact .progress call ctx ctx' rest out n hq hw' (by simpa using hc)
    | again =>
      simp only [afterWrite] at hs
      split at hs
      · rename_i hr
        obtain rfl := Option.some.inj hs
        exact .blocks call ctx rest hq hr
      · rename_i hr
        obtain rfl := Option.some.inj hs
        exact .nothing call ctx rest hq (Nat.eq_zero_of_not_pos hr)
    | fails =>
      obtain rfl := Option.some.inj hs
      exact .fails call ctx rest hq

omit [DecidableEq T] in
theorem sendFunctor_sends (c : TcpConnection T) (caller : Option T) (r : Request) (f : Functor T)
    (hf : c.sendFunctor caller r = some f) :
    (∃ data, f = .sendInLoop ⟨caller, c.accepted caller⟩ data) ∨
      ∃ file, f = .sendFileInLoop ⟨caller, c.accepted caller⟩ file := by
  cases r with
  | send data => exact Or.inl ⟨data, (Option.some.inj hf).symm⟩
  | sendFile file => exact Or.inr ⟨file, (Option.some.inj hf).symm⟩
  | shutdown => exact absurd hf (by simp [sendFunctor])

omit [DecidableEq T] in
theorem drained_channel (c : TcpConnection T) :
    ∃ poller channel, c.drained = { c with poller := poller, channel_ := channel } := by
  unfold drained
  split
  · exact ⟨_, _, rfl⟩
  · exact ⟨c.poller, c.channel_, rfl⟩

omit [DecidableEq T] in
theorem drained_queue (c : TcpConnection T) : c.drained.contextQueue_ = c.contextQueue_ := by
  obtain ⟨poller, channel, hd⟩ := c.drained_channel
  rw [hd]

omit [DecidableEq T] in
theorem drained_empty (c : TcpConnection T) (call : Call T) (ctx : Context) (out : Bytes)
    (hc : ctx.isComplete = true) : (c.took call ctx [] out).drained.contextQueue_ = [] := by
  rw [drained_queue]
  exact if_pos hc

omit [DecidableEq T] in
theorem blocked_frames (c : TcpConnection T) : ∃ triggered stack,
    c.blocked = { c with highWaterMarkTriggered_ := triggered }.frames stack ∧
      (stack = .enableWriting::c.stack ∨ stack = .user::.enableWriting::c.stack) := by
  unfold blocked
  split
  · exact ⟨true, _, rfl, Or.inr rfl⟩
  · exact ⟨c.highWaterMarkTriggered_, _, rfl, Or.inl rfl⟩

inductive Framed (c : TcpConnection T) (stack : List Frame) (result : SocketResult) :
    Frame → TcpConnection T → Prop
  | handleRead : Framed c stack result .handleRead (c.frames (afterRead result::stack))
  | writes (hw : c.channel_.isWriting = true) :
      Framed c stack result .handleWrite { c with control := .doWriting, stack := stack }
  | writesNothing : Framed c stack result .handleWrite (c.frames stack)
  | handleError : Framed c stack result .handleError (c.frames stack)
  | handleClose :
      Framed c stack result .handleClose (c.handleClose.frames (.user::.closeCallback::stack))
  | closeCallback : Framed c stack result .closeCallback
      ({ c with closeCallbacks := c.closeCallbacks+1 }.frames stack)
  | writingAlready (hw : c.channel_.isWriting = true) :
      Framed c stack result .enableWriting (c.frames stack)
  | enableWriting (hw : c.channel_.isWriting = false) :
      Framed c stack result .enableWriting (c.enableWriting.frames stack)
  | shutdownStore : Framed c stack result .shutdownStore { c.setStates .kDisconnecting with
      control := .functor (.shutdownInLoop none (c.accepted none)), stack := stack }
  | destroyStore : Framed c stack result .destroyStore
      ((c.setStates .kDisconnected).disableAll.frames (.user::stack))
  | removeChannel : Framed c stack result .removeChannel (c.removeChannel.frames stack)

omit [DecidableEq T] in
theorem runFrame_framed (c c' : TcpConnection T) (stack : List Frame) (result : SocketResult)
    (frame : Frame) (hs : c.runFrame stack result frame = some c') :
    Framed c stack result frame c' := by
  cases frame with
  | user => exact absurd hs (by simp [runFrame])
  | handleWrite =>
    simp only [runFrame] at hs
    split at hs
    · rename_i hw
      obtain rfl := Option.some.inj hs
      exact .writes (Bool.and_eq_true_iff.mp hw).1
    · obtain rfl := Option.some.inj hs
      exact .writesNothing
  | enableWriting =>
    simp only [runFrame] at hs
    split at hs
    · rename_i hw
      obtain rfl := Option.some.inj hs
      exact .writingAlready hw
    · rename_i hw
      obtain rfl := Option.some.inj hs
      exact .enableWriting (Bool.eq_false_of_not_eq_true hw)
  | handleRead =>
    obtain rfl := Option.some.inj hs
    exact .handleRead
  | handleError =>
    obtain rfl := Option.some.inj hs
    exact .handleError
  | handleClose =>
    obtain rfl := Option.some.inj hs
    exact .handleClose
  | closeCallback =>
    obtain rfl := Option.some.inj hs
    exact .closeCallback
  | shutdownStore =>
    obtain rfl := Option.some.inj hs
    exact .shutdownStore
  | destroyStore =>
    obtain rfl := Option.some.inj hs
    exact .destroyStore
  | removeChannel =>
    obtain rfl := Option.some.inj hs
    exact .removeChannel

/-- What no statement of the loop thread's code touches; of the functors it
calls only `shutdownInLoop` itself. -/
structure Kept (c c' : TcpConnection T) : Prop where
  pending : c'.pendingFunctors_ = c.pendingFunctors_
  threads : c'.threads = c.threads
  accepted : c'.accepted = c.accepted
  active : c'.active = c.active
  calls : ∀ f, c'.control = .functor f → ∃ after, f = .shutdownInLoop none after
  established : c.control ≠ .functor .connectEstablished → c'.established = c.established
  destroyed : c.control ≠ .functor .connectDestroyed → c'.destroyed = c.destroyed

omit [DecidableEq T] in
theorem kept_same (c c' : TcpConnection T) (hcontrol : ∀ f, c'.control ≠ .functor f)
    (hpending : c'.pendingFunctors_ = c.pendingFunctors_) (hthreads : c'.threads = c.threads)
    (haccepted : c'.accepted = c.accepted) (hactive : c'.active = c.active)
    (hestablished : c'.established = c.established) (hdestroyed : c'.destroyed = c.destroyed) :
    Kept c c' :=
  ⟨hpending, hthreads, haccepted, hactive, fun f hf => absurd hf (hcontrol f),
    fun _ => hestablished, fun _ => hdestroyed⟩

omit [DecidableEq T] in
theorem runFunctor_kept (c : TcpConnection T) (f : Functor T) (hcontrol : c.control = .functor f) :
    Kept c (c.runFunctor f) := by
  cases f with
  | sendInLoop call data =>
    simp only [runFunctor, sendInLoop]
    split
    · exact kept_same c _ (by simp [frames]) rfl rfl rfl rfl rfl rfl
    · exact kept_same c _ (by simp [enqueue]) rfl rfl rfl rfl rfl rfl
  | sendFileInLoop | shutdownInLoop =>
    exact kept_same c _ (by simp [runFunctor, sendFileInLoop, enqueue, frames]) rfl rfl rfl rfl
      rfl rfl
  | connectEstablished =>
    exact ⟨rfl, rfl, rfl, rfl, fun _ h => absurd h (by simp [runFunctor, frames]),
      fun h => absurd hcontrol h, fun _ => rfl⟩
  | connectDestroyed =>
    exact ⟨rfl, rfl, rfl, rfl, fun _ h => absurd h (by simp [runFunctor, frames]), fun _ => rfl,
      fun h => absurd hcontrol h⟩

omit [DecidableEq T] in
theorem doWriting_kept (c c' : TcpConnection T) (result : SocketResult)
    (hcontrol : c.control = .doWriting) (hs : c.doWriting result = some c') : Kept c c' := by
  have hc : ∀ f, c.control ≠ .functor f := by simp [hcontrol]
  cases doWriting_round c c' result hs with
  | empty | nothing | fails =>
    exact kept_same c _ (by simp [frames, writeFails]) rfl rfl rfl rfl rfl rfl
  | progress => exact kept_same c _ hc rfl rfl rfl rfl rfl rfl
  | drains call ctx ctx' out =>
    obtain ⟨poller, channel, hd⟩ := drained_channel (c.issue.took call ctx' [] out)
    rw [hd]
    exact kept_same c _ hc rfl rfl rfl rfl rfl rfl
  | blocks =>
    obtain ⟨triggered, stack, hb, -⟩ := blocked_frames c.issue
    rw [hb]
    exact kept_same c _ (by simp [frames]) rfl rfl rfl rfl rfl rfl

omit [DecidableEq T] in
theorem runFrame_kept (c c' : TcpConnection T) (stack : List Frame) (result : SocketResult)
    (frame : Frame) (hs : c.runFrame stack result frame = some c') : Kept c c' := by
  cases runFrame_framed c c' stack result frame hs with
  | shutdownStore =>
    exact ⟨rfl, rfl, rfl, rfl, fun _ h => ⟨_, (Control.functor.inj h).symm⟩, fun _ => rfl,
      fun _ => rfl⟩
  | handleRead | writes | writesNothing | handleError | handleClose | closeCallback
  | writingAlready | enableWriting | destroyStore | removeChannel =>
    exact kept_same c _ (by simp [frames]) rfl rfl rfl rfl rfl rfl

theorem exec_kept (c c' : TcpConnection T) (result : SocketResult)
    (hs : c.exec result = some c') : Kept c c' := by
  cases exec_stepped c c' result hs with
  | functor _ f hcontrol => exact runFunctor_kept c f hcontrol
  | writing _ _ hcontrol hw => exact doWriting_kept c c' result hcontrol hw
  | frame _ frame stack _ hcontrol hstack hr => exact runFrame_kept c c' stack result frame hr

end TcpConnection
end MuServer
