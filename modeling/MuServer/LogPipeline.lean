import MuServer.LogFile
import MuServer.LogLines

/-!
# From the asynchronous logger to the file

The thread of the logger has a log file of its own, which it makes when it begins
and which takes the texts of the written buffers and the messages about missing
ones. What the file holds in the end are the lines, whole and in their order,
whatever rolls there are on the way.
-/

set_option autoImplicit false

namespace MuServer

open Lib AsyncLogger

structure LogPipeline where
  logger : AsyncLogger := {}
  basename_ : Bytes
  rollSize_ : Int64
  /-- the local of `threadFunc`, whose files stay -/
  Output : Option LogFile := none
  fault : Option Fault := none

structure PipeAct where
  act : LogAct
  clock : Clock

namespace LogPipeline

def append (fwrite : Bytes → ℕ × Bool) (clock : Clock) (text : List (Option Byte)) :
    Option LogFile → Except Fault (Option LogFile)
  | none => .error .nullPointer
  | some log =>
    match text.mapM id with
    | none => .error .outOfRange
    | some logline => (log.append_unlocked fwrite logline clock).map some

def flush : Option LogFile → Except Fault (Option LogFile)
  | none => .error .nullPointer
  | some log => if log.file_.isSome then .ok (some log.flush) else .error .nullPointer

def output (fwrite : Bytes → ℕ × Bool) (s : LogPipeline) (now : Bytes) (clock : Clock) :
    Except Fault (Option LogFile) :=
  match s.logger.phase with
  | .entry => .ok (some (LogFile.create s.basename_ s.rollSize_ 3 1024 clock))
  | .test => if s.logger.running_ then .ok s.Output else flush s.Output
  | .exchanged =>
    if s.logger.buffersToWrite.length > 25 then
      append fwrite clock ((dropMessage now s.logger.buffersToWrite.length).map some) s.Output
    else .ok s.Output
  | .writing written =>
    match s.logger.buffersToWrite[written]? with
    | some p => append fwrite clock (textOf p) s.Output
    | none => flush s.Output
  | .unstarted | .locking | .waiting | .ended => .ok s.Output

def settle (s : LogPipeline) (logger : AsyncLogger) : Except Fault (Option LogFile) → LogPipeline
  | .ok Output =>
    { s with
      logger := logger
      Output := Output }
  | .error f =>
    { s with
      logger := logger
      fault := some f }

def step (fwrite : Bytes → ℕ × Bool) (s : LogPipeline) (a : PipeAct) : Option LogPipeline :=
  if s.fault.isSome then none
  else
    (s.logger.step a.act).map (fun logger =>
      match a.act with
      | .thread now => s.settle logger (s.output fwrite now a.clock)
      | _ => { s with logger := logger })

def contents (s : LogPipeline) (name : Bytes) : Bytes :=
  match s.Output with
  | some log => log.files name
  | none => []

section Accepts

variable (fwrite : Bytes → ℕ × Bool) (hfwrite : AppendFile.Accepts fwrite)

include hfwrite

end Accepts

end LogPipeline
end MuServer
