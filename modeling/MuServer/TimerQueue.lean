import MuServer.Lib.Machine
import MuServer.Lib.OrderedSet
import MuServer.TimeStamp
import Mathlib.Data.Prod.Lex
import Mathlib.Logic.Function.Basic

/-!
# The timer queue

Timers live on the heap, and `timers_` holds their addresses in the order of
their expiration. `handleRead` takes the expired entries out, runs their
callbacks and files them again one by one; its loops are steps of their own,
so that a callback can add timers in between. Every reading of the clock is an
argument. A history is kept beside the fields: the calls of `addTimer`, the
callbacks run, and what every pass over the expired timers found and ran.
-/

set_option autoImplicit false

namespace MuServer

open Lib

/-- A timer's callback is named by the call of `addTimer` that brought it. -/
structure Timer where
  callback_ : ℕ
  interval_ : ℚ
  expiration_ : TimeStamp
  repeated_ : Bool
  deriving DecidableEq

namespace Timer

def create (cb : ℕ) (when_ : TimeStamp) (interval : ℚ) : Timer where
  callback_ := cb
  interval_ := interval
  expiration_ := when_
  repeated_ := 0 < interval

def restart (timer : Timer) (now : TimeStamp) : Except Fault Timer :=
  if timer.repeated_ then do
    let next ← timer.expiration_.add timer.interval_
    return { timer with expiration_ := next }
  else
    .ok { timer with expiration_ := now }

end Timer

def UINTPTR_MAX : ℕ := 2^64-1

structure Entry where
  first : TimeStamp
  second : ℕ
  deriving DecidableEq

instance : LinearOrder Entry :=
  LinearOrder.lift' (fun e => toLex (e.first, e.second)) (by
    rintro ⟨t, p⟩ ⟨u, q⟩ h
    simpa using h)

theorem Entry.lt_iff (d e : Entry) :
    d < e ↔ d.first < e.first ∨ d.first = e.first ∧ d.second < e.second :=
  Prod.Lex.toLex_lt_toLex

/-- A whole pass over the expired timers: its reading of the clock, the timers
that lived when it began, and those whose callback it ran. -/
structure Pass where
  now : TimeStamp
  before : ℕ → Option Timer
  ran : List Timer

/-- Where the loop thread is: the loop of `handleRead` between two callbacks
or within one, with the expired entries split at its iterator, or the loop of
`reset` with those still to go. -/
inductive TimerQueue.Control where
  | idle
  | calling (pass : Pass) (done rest : List Entry)
  | inCallback (pass : Pass) (done rest : List Entry)
  | resetting (now : TimeStamp) (rest : List Entry)

structure Timespec where
  tv_sec : ℤ := 0
  tv_nsec : ℤ := 0
  deriving DecidableEq

structure TimerQueue where
  timers_ : OrderedSet Entry := .empty
  callingExpiredTimers : Bool := false
  heap : ℕ → Option Timer := fun _ => none
  /-- the time that `timer_fd_` is set to, zero when it is not armed -/
  it_value : Timespec := {}
  /-- the expirations that a read of `timer_fd_` returns -/
  expirations : ℕ := 0
  control : TimerQueue.Control := .idle
  fault : Option Fault := none
  added : List (TimeStamp × ℚ) := []
  called : List ℕ := []
  passes : List Pass := []

namespace TimerQueue

def deref (s : TimerQueue) (p : ℕ) : Except Fault Timer :=
  match s.heap p with
  | some timer => .ok timer
  | none => .error .outOfRange

def insert (s : TimerQueue) (p : ℕ) : Except Fault (Bool × TimerQueue) := do
  let timer ← s.deref p
  let when_ := timer.expiration_
  let earliestChanged := match s.timers_.least with
    | none => true
    | some e => decide (when_ < e.first)
  return (earliestChanged, { s with timers_ := s.timers_.emplace ⟨when_, p⟩ })

def resetTimerFd (s : TimerQueue) (expiration clock : TimeStamp) : Except Fault TimerQueue :=
  let delta := expiration.microsecondsSinceEpoch_-clock.microsecondsSinceEpoch_
  if -2^63 ≤ delta ∧ delta < 2^63 then
    let delta := if delta < 100 then 100 else delta
    .ok { s with
      it_value := ⟨delta / kMicroSecondsPerSecond, delta % kMicroSecondsPerSecond * 1000⟩
      expirations := 0 }
  else .error .overflow

def addTimerInLoop (s : TimerQueue) (p : ℕ) (clock : TimeStamp) : Except Fault TimerQueue := do
  let (earliestChanged, s) ← s.insert p
  if earliestChanged then
    let timer ← s.deref p
    s.resetTimerFd timer.expiration_ clock
  else
    return s

/-- `addTimer` on the loop thread. The new timer is placed at `p`. -/
def addTimer (s : TimerQueue) (p : ℕ) (when_ : TimeStamp) (interval : ℚ) (clock : TimeStamp) :
    Except Fault TimerQueue :=
  { s with
    heap := Function.update s.heap p (some (Timer.create s.added.length when_ interval))
    added := s.added ++ [(when_, interval)] }.addTimerInLoop p clock

def getExpired (s : TimerQueue) (now : TimeStamp) : List Entry × TimerQueue :=
  let entry : Entry := ⟨now, UINTPTR_MAX⟩
  (s.timers_.below entry, { s with timers_ := s.timers_.fromBound entry })

def handleRead (s : TimerQueue) (now : TimeStamp) : TimerQueue :=
  let (expired, s) := { s with expirations := 0 }.getExpired now
  { s with callingExpiredTimers := true, control := .calling ⟨now, s.heap, []⟩ [] expired }

/-- The loop of `handleRead` goes round, or gives way to `reset`. -/
def callNext (s : TimerQueue) (pass : Pass) (done : List Entry) :
    List Entry → Except Fault TimerQueue
  | [] => .ok { s with
      callingExpiredTimers := false
      control := .resetting pass.now done
      passes := s.passes ++ [pass] }
  | entry::rest => do
    let timer ← s.deref entry.second
    return { s with
      called := s.called ++ [timer.callback_]
      control := .inCallback { pass with ran := pass.ran ++ [timer] } (done ++ [entry]) rest }

def resetEntry (s : TimerQueue) (now : TimeStamp) (entry : Entry) : Except Fault TimerQueue := do
  let timer ← s.deref entry.second
  if timer.repeated_ then
    let timer ← timer.restart now
    let (_, s) ← { s with heap := Function.update s.heap entry.second (some timer) }.insert
      entry.second
    return s
  else
    return { s with heap := Function.update s.heap entry.second none }

def resetEarliest (s : TimerQueue) (clock : TimeStamp) : Except Fault TimerQueue :=
  match s.timers_.least with
  | none => .ok s
  | some e => do
    let timer ← s.deref e.second
    s.resetTimerFd timer.expiration_ clock

def resetNext (s : TimerQueue) (now clock : TimeStamp) : List Entry → Except Fault TimerQueue
  | [] => .ok { s with control := .idle }
  | entry::rest => do
    let s ← s.resetEntry now entry
    { s with control := .resetting now rest }.resetEarliest clock

/-- What happens next: the loop thread adds a timer or reads the timerfd, goes
on within `handleRead`, or is back from a callback; or the timerfd expires. -/
inductive Act where
  | addTimer (p : ℕ) (when_ : TimeStamp) (interval : ℚ) (clock : TimeStamp)
  | handleRead (now : TimeStamp)
  | exec (clock : TimeStamp)
  | returns
  | expires

def Control.outside : Control → Bool
  | .idle | .inCallback _ _ _ => true
  | .calling _ _ _ | .resetting _ _ => false

def attempt (s : TimerQueue) : Except Fault TimerQueue → TimerQueue
  | .ok t => t
  | .error f => { s with fault := some f }

def free (s : TimerQueue) (p : ℕ) : Bool := (s.heap p).isNone ∧ p < UINTPTR_MAX

def step (s : TimerQueue) (a : Act) : Option TimerQueue :=
  if s.fault.isSome then none
  else match a with
    | .addTimer p when_ interval clock =>
      if s.free p ∧ s.control.outside then some (s.attempt (s.addTimer p when_ interval clock))
      else none
    | .handleRead now =>
      match s.control with
      | .idle => some (s.handleRead now)
      | _ => none
    | .exec clock =>
      match s.control with
      | .calling pass done rest => some (s.attempt (s.callNext pass done rest))
      | .resetting now rest => some (s.attempt (s.resetNext now clock rest))
      | _ => none
    | .returns =>
      match s.control with
      | .inCallback pass done rest => some { s with control := .calling pass done rest }
      | _ => none
    | .expires =>
      if s.it_value = {} then none
      else some { s with it_value := {}, expirations := s.expirations+1 }

abbrev Reached (s : TimerQueue) : Prop := Machine.Reach step (fun _ _ => True) {} s

end TimerQueue

end MuServer
