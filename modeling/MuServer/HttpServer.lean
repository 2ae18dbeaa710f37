import MuServer.HttpRoundTrip
import MuServer.HttpRuns

/-!
# Messages of a connection

`onMessage` runs the parser over the input buffer. A refused request is
answered and the connection goes on; a whole one is handed to `onRequest` and
the context is reset. `Accepts` is the reference for both: a fresh context
takes the bytes of the request, all of them, in one call.
-/

set_option autoImplicit false

namespace MuServer
open Lib.Search

inductive Answer where
  | send (text : Bytes)
  | onRequest (request : HttpRequest)
  deriving DecidableEq

def badRequest : Bytes := bytes "HTTP/1.1 400 Bad Request\r\n\r\n"

structure HttpConnection where
  context : HttpContext := {}
  inputBuffer_ : Buffer := Buffer.create kInitialSize
  deriving DecidableEq

def onMessage (c : HttpConnection) (receivedTime : TimeStamp) :
    Except Fault (List Answer × HttpConnection) := do
  let (done, context, buffer) ← parseRequest c.context c.inputBuffer_ receivedTime
  let refusal := if done then [] else [Answer.send badRequest]
  if context.gotAll then
    .ok (refusal ++ [.onRequest context.request_],
      { context := context.reset, inputBuffer_ := buffer })
  else .ok (refusal, { context := context, inputBuffer_ := buffer })

def received (c : HttpConnection) (data : Bytes) (receivedTime : TimeStamp) :
    Except Fault (List Answer × HttpConnection) := do
  let buffer ← c.inputBuffer_.append data
  onMessage { c with inputBuffer_ := buffer } receivedTime

def receivedAll (c : HttpConnection) :
    List (TimeStamp × Bytes) → Except Fault (List Answer × HttpConnection)
  | [] => .ok ([], c)
  | m::ms => do
    let (first, c') ← received c m.2 m.1
    let (later, c'') ← receivedAll c' ms
    .ok (first ++ later, c'')

def HttpRequest.content (r : HttpRequest) : HttpRequest := { r with receivedTime_ := {} }

def Accepts (r : Bytes) (q : HttpRequest) : Prop :=
  ∃ (b : Buffer) (t : TimeStamp) (c : HttpContext) (b' : Buffer), b.WF ∧ b.readable = r ∧
    parseRequest {} b t = .ok (true, c, b') ∧ c.gotAll = true ∧ c.request_ = q ∧
    b'.readable = []

/-- The context that `reset` leaves when the last body was `body`. -/
def leftWith (body : Bytes) : HttpContext where
  request_ := { body_ := body }

theorem reframe_content (r : HttpRequest) (body : Bytes) (t : TimeStamp) :
    (r.reframe body t).content = r.content ↔ body = r.body_ := by
  constructor
  · intro h
    exact congrArg HttpRequest.body_ h
  · rintro rfl
    rfl

theorem accepts_scan (r : Bytes) (q : HttpRequest) (h : Accepts r q) :
    ∃ stale t n f, scanLoop stale t n { context := {}, unread := r } = .ok f ∧ f.Took ∧
      f.unread = [] ∧ f.context.request_ = q := by
  obtain ⟨b, t, c, b', hb, rfl, hp, hgot, rfl, hall⟩ := h
  obtain ⟨f, hf, hd, rfl, -, hun⟩ := parseRequest_ok {} c b b' t hb true hp
  exact ⟨b.stale, t, _, f, hf, ⟨hd, by simpa [HttpContext.gotAll] using hgot⟩, hun ▸ hall, rfl⟩

/-- A context that an earlier request has left takes the same bytes, and what
it yields differs only in the body it may have kept. -/
theorem accepts_parse (r : Bytes) (q : HttpRequest) (h : Accepts r q) (body tail : Bytes)
    (b : Buffer) (hb : b.WF) (hr : b.readable = r ++ tail) (t : TimeStamp) :
    ∃ t0 b', parseRequest (leftWith body) b t =
        .ok (true, { state_ := .kGotAll, request_ := q.reframe (bodyAfter q body) t0 }, b') ∧
      b'.WF ∧ b'.readable = tail := by
  obtain ⟨stale, t1, n, f, hf, htook, hall, rfl⟩ := accepts_scan r q h
  obtain ⟨f', hf', ⟨hd, hst⟩, hun, t0, hq⟩ := scanLoop_extend stale b.stale t1 t body tail n
    { context := {}, unread := r } { context := leftWith body, unread := b.readable } f
    ⟨rfl, ⟨{}, rfl⟩, rfl, rfl, rfl⟩ hr rfl rfl (by simp) (by simp) hf htook
  obtain ⟨b', hp, hwf, hrest⟩ :=
    parseRequest_scan (leftWith body) b t hb (by simp [leftWith]) n f' hf'
  refine ⟨t0, b', ?_, hwf, ?_⟩
  · rw [hp, hd, ← hq, ← hst]
  · rw [hrest, hun, hall, List.nil_append]

theorem accepts_body (r : Bytes) (q : HttpRequest) (h : Accepts r q) : q.body_ = bodyAfter q [] := by
  obtain ⟨stale, t, n, f, hf, htook, -, rfl⟩ := accepts_scan r q h
  obtain ⟨f', hf', -, -, t0, hq⟩ := scanLoop_extend stale stale t t [] [] n
    { context := {}, unread := r } { context := {}, unread := r } f
    ⟨rfl, ⟨{}, rfl⟩, rfl, rfl, rfl⟩ (by simp) rfl rfl (by simp) (by simp) hf htook
  obtain rfl := Except.ok.inj (hf.symm.trans hf')
  exact congrArg HttpRequest.body_ hq

theorem encode_accepts (w : WireRequest) (t : TimeStamp) : Accepts w.encode (w.stored t) := by
  obtain ⟨b, hb, hwf, hr⟩ := (Buffer.create kInitialSize).append_ok (Buffer.create_wf _) w.encode
  rw [Buffer.create_readable, List.nil_append] at hr
  obtain ⟨n, s, hs, hdone, hctx, hun⟩ := scanLoop_encode b.stale t w []
  rw [List.append_nil, ← hr] at hs
  obtain ⟨b', hp, -, hrb⟩ := parseRequest_scan {} b t hwf (by simp) n s hs
  rw [hdone, hctx] at hp
  exact ⟨b, t, _, b', hwf, hr, hp, rfl, rfl, hrb.trans hun⟩

end MuServer
