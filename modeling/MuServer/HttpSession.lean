import MuServer.HttpServer

/-!
# Requests of one connection

`reset` swaps the request with an empty one and `swap` forgets the body, so a
request without a length header shows the body of an earlier one. After a
refusal nothing is reset and nothing is taken from the buffer: the next
request is read behind the bytes of the refused one.
-/

set_option autoImplicit false

namespace MuServer
open Lib.Search

structure Arrival where
  request : Bytes
  yields : HttpRequest
  accepted : Accepts request yields
  tail : Bytes
  buffer : Buffer
  buffer_wf : buffer.WF
  buffer_readable : buffer.readable = request ++ tail
  receivedTime : TimeStamp

def handled (c : HttpContext) : List Arrival → Except Fault (List Answer)
  | [] => .ok []
  | a::as => do
    let (answers, c') ← onMessage { context := c, inputBuffer_ := a.buffer } a.receivedTime
    let later ← handled c'.context as
    .ok (answers ++ later)

def leftOver (body : Bytes) : List HttpRequest → Bytes
  | [] => body
  | q::qs => leftOver (bodyAfter q body) qs

def hasLength (q : HttpRequest) : Bool := q.getHeader kContentLength ≠ []

/-- A request is written over what the earlier ones have left: it has a body
of its own, or the last body before it was empty. -/
def Refreshed (earlier : List HttpRequest) (q : HttpRequest) : Prop :=
  hasLength q = true ∨ ∀ p ∈ (earlier.filter hasLength).getLast?, p.body_ = []

theorem leftOver_filter (body : Bytes) (qs : List HttpRequest) :
    leftOver body qs = ((qs.filter hasLength).getLast?.map (·.body_)).getD body := by
  induction qs generalizing body with
  | nil => rfl
  | cons q qs ih =>
    rw [leftOver, ih, List.filter_cons]
    cases hq : hasLength q with
    | false =>
      have hnone : q.getHeader kContentLength = [] := by simpa [hasLength] using hq
      rw [bodyAfter, if_pos hnone]
      rfl
    | true =>
      have hsome : q.getHeader kContentLength ≠ [] := by simpa [hasLength] using hq
      rw [bodyAfter, if_neg hsome, if_pos rfl, List.getLast?_cons]
      cases (qs.filter hasLength).getLast? <;> rfl

theorem refreshed_leftOver (earlier : List HttpRequest) (q : HttpRequest)
    (hq : q.body_ = bodyAfter q []) :
    Refreshed earlier q ↔ bodyAfter q (leftOver [] earlier) = q.body_ := by
  rw [Refreshed, leftOver_filter]
  by_cases hl : q.getHeader kContentLength = []
  · have hb : q.body_ = [] := by rw [hq, bodyAfter, if_pos hl]
    rw [bodyAfter, if_pos hl, hb]
    have hf : hasLength q = false := by simpa [hasLength] using hl
    cases (earlier.filter hasLength).getLast? <;> simp [hf]
  · have ht : hasLength q = true := by simpa [hasLength] using hl
    simp [ht, bodyAfter, hl]

theorem onMessage_arrival (body : Bytes) (a : Arrival) :
    ∃ t0 b', onMessage { context := leftWith body, inputBuffer_ := a.buffer } a.receivedTime =
      .ok ([.onRequest (a.yields.reframe (bodyAfter a.yields body) t0)],
        { context := leftWith (bodyAfter a.yields body), inputBuffer_ := b' }) := by
  obtain ⟨t0, b', hp, -, -⟩ := accepts_parse a.request a.yields a.accepted body a.tail a.buffer
    a.buffer_wf a.buffer_readable a.receivedTime
  refine ⟨t0, b', ?_⟩
  simp only [onMessage, hp, bind, Except.bind]
  rfl

theorem handled_arrivals (body : Bytes) (as : List Arrival) :
    ∃ requests : List HttpRequest, handled (leftWith body) as = .ok (requests.map .onRequest) ∧
      requests.length = as.length ∧
      ∀ (k : ℕ) (a : Arrival) (q : HttpRequest), as[k]? = some a → requests[k]? = some q → ∃ t0,
        q = a.yields.reframe
          (bodyAfter a.yields (leftOver body ((as.take k).map Arrival.yields))) t0 := by
  induction as generalizing body with
  | nil => exact ⟨[], rfl, rfl, by simp⟩
  | cons a as ih =>
    obtain ⟨t0, b', hm⟩ := onMessage_arrival body a
    obtain ⟨requests, hr, hlen, hall⟩ := ih (bodyAfter a.yields body)
    refine ⟨a.yields.reframe (bodyAfter a.yields body) t0::requests, ?_, ?_, ?_⟩
    · simp only [handled, hm, hr, bind, Except.bind]
      rfl
    · rw [List.length_cons, List.length_cons, hlen]
    · intro k a' q ha hq
      cases k with
      | zero =>
        obtain rfl := Option.some.inj ha
        obtain rfl := Option.some.inj hq
        exact ⟨t0, rfl⟩
      | succ k => exact hall k a' q ha hq

def WireRequest.arrival (w : WireRequest) : Arrival where
  request := w.encode
  yields := w.stored {}
  accepted := encode_accepts w {}
  tail := []
  buffer := {
    buffer_ := List.replicate kCheapPrepend 0 ++ w.encode
    readerIndex_ := kCheapPrepend
    writerIndex_ := kCheapPrepend+w.encode.length }
  buffer_wf := ⟨le_refl _, Nat.le_add_right _ _, by simp⟩
  buffer_readable := by
    simp [Buffer.readable, Buffer.range, Buffer.peek, Buffer.beginWrite, List.take_of_length_le]
  receivedTime := {}

def postRequest : WireRequest where
  method := .kPost
  path := bytes "/"
  query := none
  version := .kHttp11
  headers := [(kContentLength, bytes "1")]
  body := bytes "x"
  method_valid := by decide
  path_bytes := root_path
  query_bytes := no_query
  version_known := http11_known
  distinct := by decide
  names := by decide +kernel
  values := by decide +kernel
  body_size := by decide
  length_header := by decide
  line_size := by decide

/-- Each request of a connection is handed over, and it is the one its bytes
describe exactly when it is `Refreshed`. -/
theorem handled_refreshed (as : List Arrival) :
    ∃ requests : List HttpRequest, handled {} as = .ok (requests.map .onRequest) ∧
      requests.length = as.length ∧
      ∀ (k : ℕ) (a : Arrival) (q : HttpRequest), as[k]? = some a → requests[k]? = some q →
        (q.content = a.yields.content ↔ Refreshed ((as.take k).map Arrival.yields) a.yields) := by
  obtain ⟨requests, hr, hlen, hall⟩ := handled_arrivals [] as
  refine ⟨requests, hr, hlen, ?_⟩
  intro k a q ha hq
  obtain ⟨t0, rfl⟩ := hall k a q ha hq
  rw [refreshed_leftOver _ _ (accepts_body a.request a.yields a.accepted)]
  exact reframe_content a.yields _ t0

/-- The body that was posted is handed over once more with the next request. -/
theorem post_then_get :
    ∃ q1 q2, handled {} [postRequest.arrival, indexRequest.arrival] =
        .ok [.onRequest q1, .onRequest q2] ∧
      indexRequest.arrival.yields.body_ = [] ∧ q2.body_ = bytes "x" ∧
      q2.content ≠ indexRequest.arrival.yields.content := by
  obtain ⟨requests, hr, hlen, hall⟩ := handled_arrivals []
    [postRequest.arrival, indexRequest.arrival]
  match requests, hlen with
  | [q1, q2], _ =>
    obtain ⟨t0, rfl⟩ := hall 1 _ q2 rfl rfl
    have hbody : bodyAfter indexRequest.arrival.yields
        (leftOver [] [postRequest.arrival.yields]) = bytes "x" := by decide
    refine ⟨q1, _, hr, by decide, hbody, ?_⟩
    rw [ne_eq, reframe_content]
    exact fun h => absurd (hbody.symm.trans h) (by decide)

end MuServer
