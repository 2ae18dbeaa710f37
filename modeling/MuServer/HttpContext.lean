import MuServer.Buffer
import MuServer.RequestLine

/-!
# The resumable request parser

`parseStep` is one pass of the loop of `parseRequest` and `parseLoop` repeats
it while `hasMore` holds. A pass in `kGotAll` changes nothing, so the loop is
counted: a call has passes enough for every buffer and reports `spins` when
they do not end it. The content length is a local variable of the call.
-/

set_option autoImplicit false

namespace MuServer
open Lib.Search

inductive HttpRequestParseState where
  | kExpectRequestLine | kExpectRequestHeader | kExpectRequestBody | kGotAll
  deriving DecidableEq, Repr

structure HttpContext where
  state_ : HttpRequestParseState := .kExpectRequestLine
  request_ : HttpRequest := {}
  deriving DecidableEq

def kContentLength : Bytes := bytes "Content-Length"

namespace HttpContext

def reset (c : HttpContext) : HttpContext where
  state_ := .kExpectRequestLine
  request_ := (c.request_.swap {}).1

def gotAll (c : HttpContext) : Bool := c.state_ = .kGotAll

end HttpContext

structure ParseLoop where
  context : HttpContext
  buffer : Buffer
  done : Bool := true
  hasMore : Bool := true
  content_Length : ℕ := 0
  deriving DecidableEq

def ParseLoop.setState (l : ParseLoop) (state : HttpRequestParseState) : ParseLoop :=
  { l with context := { l.context with state_ := state } }

def ParseLoop.setRequest (l : ParseLoop) (request : HttpRequest) : ParseLoop :=
  { l with context := { l.context with request_ := request } }

/-- The arm for the request line, `crlf` being what `findCRLF` returned. -/
def requestLineStep (receivedTime : TimeStamp) (l : ParseLoop) (crlf : ℕ) :
    Except Fault ParseLoop := do
  let line := l.buffer.range l.buffer.peek (crlf+2)
  let past := crlf+2-l.buffer.buffer_.length
  let (done, request) ← parseRequestLine l.context.request_ line past
  if done then
    let buffer ← l.buffer.retrieve (crlf+2-l.buffer.peek)
    .ok ({ l with buffer := buffer, done := done }.setRequest
      (request.setReceivedTime receivedTime) |>.setState .kExpectRequestHeader)
  else .ok ({ l with done := done, hasMore := false }.setRequest request)

/-- The arm for a header line, `line` being `[peek, crlf)`. The `retrieve`
behind the three branches is reached from each of them, so a line with a colon
is retrieved twice. -/
def headerLine (l : ParseLoop) (crlf : ℕ) (line : Bytes) : Except Fault ParseLoop := do
  let colon := line.idxOf (byte ':')
  let request := l.context.request_
  let m : ParseLoop ←
    (if colon ≠ line.length then do
      let buffer ← l.buffer.retrieve (crlf+2-l.buffer.peek)
      .ok ({ l with buffer := buffer }.setRequest (request.addHeaders line colon))
    else if request.getHeader kContentLength ≠ [] then do
      let v ← stoi (request.getHeader kContentLength)
      .ok ({ l with content_Length := toSize v }.setState .kExpectRequestBody)
    else .ok ({ l with hasMore := false }.setState .kGotAll))
  let buffer ← m.buffer.retrieve (crlf+2-m.buffer.peek)
  .ok { m with buffer := buffer }

def headerStep (l : ParseLoop) (crlf : ℕ) : Except Fault ParseLoop :=
  headerLine l crlf (l.buffer.range l.buffer.peek crlf)

def bodyStep (l : ParseLoop) : Except Fault ParseLoop :=
  if l.content_Length ≤ l.buffer.readableBytes then do
    let (body, buffer) ← l.buffer.retrieveAsString l.content_Length
    .ok ({ l with buffer := buffer, hasMore := false }.setRequest
      (l.context.request_.setBody body) |>.setState .kGotAll)
  else .ok { l with hasMore := false }

def parseStep (receivedTime : TimeStamp) (l : ParseLoop) : Except Fault ParseLoop :=
  match l.context.state_ with
  | .kExpectRequestLine =>
    match l.buffer.findCRLF with
    | some crlf => requestLineStep receivedTime l crlf
    | none => .ok { l with hasMore := false }
  | .kExpectRequestHeader =>
    match l.buffer.findCRLF with
    | some crlf => headerStep l crlf
    | none => .ok { l with hasMore := false }
  | .kExpectRequestBody => bodyStep l
  | .kGotAll => .ok l

def parseLoop (receivedTime : TimeStamp) : ℕ → ParseLoop → Except Fault ParseLoop
  | 0, l => if l.hasMore then .error .spins else .ok l
  | n+1, l =>
    if l.hasMore then do
      let m ← parseStep receivedTime l
      parseLoop receivedTime n m
    else .ok l

def parseRequest (c : HttpContext) (b : Buffer) (receivedTime : TimeStamp) :
    Except Fault (Bool × HttpContext × Buffer) := do
  let l ← parseLoop receivedTime (b.readableBytes+3) { context := c, buffer := b }
  .ok (l.done, l.context, l.buffer)

end MuServer
