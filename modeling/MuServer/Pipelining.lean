import MuServer.HttpSession
import MuServer.OnRequest

/-!
# Several requests in one message

`onMessage` calls the parser once, and the parser stops behind the first
request. The requests behind it are left in the buffer until the next message
arrives, so a message is answered in full only when it holds one request.
-/

set_option autoImplicit false

namespace MuServer
open Lib.Search

structure WholeRequest where
  request : Bytes
  yields : HttpRequest
  accepted : Accepts request yields

def concatenated (rs : List WholeRequest) : Bytes := rs.flatMap WholeRequest.request

namespace HttpServer

variable (Hash : Bytes → ℕ)

def carryOut (s : HttpServer) (w : Surroundings) :
    List Answer → Except Fault (List (Answer × List Request) × HttpServer)
  | [] => .ok ([], s)
  | .send text::answers => do
    let (later, s) ← s.carryOut w answers
    .ok ((.send text, [.send text])::later, s)
  | .onRequest request::answers => do
    let (calls, s) ← s.onRequest Hash w request
    let (later, s) ← s.carryOut w answers
    .ok ((.onRequest request, calls)::later, s)

end HttpServer

def OneResponse (calls : List Request) : Prop :=
  ∃ text rest, calls = .send text::rest ∧ bytes "HTTP/1.1 " <+: text ∧
    ∀ text', .send text' ∉ rest

/-- Every request has been handed over in order and answered once, and no
complete request is left in the buffer. -/
structure Pipelined (Hash : Bytes → ℕ) (rs : List WholeRequest) (answers : List Answer)
    (c : HttpConnection) : Prop where
  passed : ∃ requests : List HttpRequest, answers = requests.map .onRequest ∧
    requests.map HttpRequest.content = rs.map (fun r => r.yields.content)
  answered : ∀ regs served s w pairs s', HttpServer.serve Hash regs served = .ok s →
    s.carryOut Hash w answers = .ok (pairs, s') → pairs.length = rs.length ∧
      ∀ pair ∈ pairs, OneResponse pair.2
  drained : ¬ ∃ r q tail, Accepts r q ∧ c.inputBuffer_.readable = r ++ tail

theorem accepts_ne_nil (q : HttpRequest) : ¬ Accepts [] q := by
  intro h
  obtain ⟨stale, t, n, f, hf, htook, -, -⟩ := accepts_scan [] q h
  cases n with
  | zero => exact absurd hf (by simp [scanLoop])
  | succ n =>
    have hstep : ∀ s', scanStep stale t { context := {}, unread := [] } = .ok s' →
        s'.hasMore = false ∧ s'.done = false := by
      intro s' hs
      obtain ⟨done, request, -, ⟨-, hskip, -⟩ | ⟨-, rfl⟩⟩ := scanRequestLine_ok stale t _ s' hs
      · exact absurd hskip (by simp)
      · exact ⟨rfl, rfl⟩
    cases hs : scanStep stale t { context := {}, unread := [] } with
    | error e => simp [scanLoop, hs, bind, Except.bind] at hf
    | ok s' =>
      obtain ⟨hm, hd⟩ := hstep s' hs
      rw [scanLoop_step stale t n _ s' rfl hs, scanLoop_stop _ _ _ _ hm] at hf
      obtain rfl := Except.ok.inj hf
      exact absurd (hd.symm.trans htook.1) (by simp)

/-- One message: its first request is handed over and the rest stays. -/
theorem received_first (body : Bytes) (c : HttpConnection) (hc : c.context = leftWith body)
    (hb : c.inputBuffer_.WF) (hr : c.inputBuffer_.readable = []) (r : WholeRequest)
    (tail : Bytes) (t : TimeStamp) :
    ∃ t0 c', received c (r.request ++ tail) t =
        .ok ([.onRequest (r.yields.reframe (bodyAfter r.yields body) t0)], c') ∧
      c'.inputBuffer_.readable = tail := by
  obtain ⟨b, ha, hwf, hread⟩ := c.inputBuffer_.append_ok hb (r.request ++ tail)
  rw [hr, List.nil_append] at hread
  obtain ⟨t0, b', hp, -, htail⟩ := accepts_parse r.request r.yields r.accepted body tail b hwf
    hread t
  refine ⟨t0, { context := leftWith (bodyAfter r.yields body), inputBuffer_ := b' }, ?_, htail⟩
  simp only [received, ha, bind, Except.bind, onMessage, hc, hp]
  rfl

theorem sent_oneResponse (Hash : Bytes → ℕ) (s : HttpServer) (w : Surroundings)
    (resp : HttpResponse) (sent : List Request) (hs : s.Sent Hash w resp sent) :
    OneResponse (sent ++ HttpServer.ending resp) := by
  have hhead : ∀ n tail, bytes "HTTP/1.1 " <+: resp.headText n w.order ++ tail := by
    intro n tail
    simp only [HttpResponse.headText, HttpResponse.statusText, List.append_assoc]
    exact List.prefix_append _ _
  have hend : ∀ text, .send text ∉ HttpServer.ending resp := by
    intro text
    unfold HttpServer.ending
    split <;> simp
  cases hs with
  | body hf => exact ⟨_, HttpServer.ending resp, rfl, hhead _ _, hend⟩
  | copy sf data hf hsmall hc => exact ⟨_, HttpServer.ending resp, rfl, hhead _ _, hend⟩
  | file sf content hf hd hmiss =>
    refine ⟨_, _::HttpServer.ending resp, rfl, ?_, fun text hm => ?_⟩
    · have := hhead sf.getFileSize []
      rwa [List.append_nil] at this
    · rcases List.mem_cons.mp hm with hm | hm
      · exact absurd hm (by simp)
      · exact hend text hm

theorem carryOut_single (Hash : Bytes → ℕ) (regs : List Registration)
    (served : List (HttpRequest × Surroundings)) (s s' : HttpServer)
    (hs : HttpServer.serve Hash regs served = .ok s) (w : Surroundings) (request : HttpRequest)
    (pairs : List (Answer × List Request))
    (h : s.carryOut Hash w [.onRequest request] = .ok (pairs, s')) :
    pairs.length = 1 ∧ ∀ pair ∈ pairs, OneResponse pair.2 := by
  obtain ⟨-, hholds⟩ := HttpServer.serve_holds Hash regs served (fun _ _ => True)
    (fun _ _ _ _ _ _ _ _ => trivial) s hs
  unfold HttpServer.carryOut at h
  cases hr : s.onRequest Hash w request with
  | error f => simp [hr, bind, Except.bind] at h
  | ok q =>
    obtain ⟨calls, u⟩ := q
    simp only [hr, bind, Except.bind, HttpServer.carryOut] at h
    obtain ⟨rfl, rfl⟩ := Prod.mk.inj (Except.ok.inj h)
    obtain ⟨-, -, sent, hsent, rfl⟩ := HttpServer.onRequest_spec Hash s u _ hholds w request
      (fun _ _ _ _ _ => trivial) calls hr
    refine ⟨rfl, fun pair hp => ?_⟩
    obtain rfl := List.mem_singleton.mp hp
    exact sent_oneResponse Hash s w _ sent hsent

/-- A message between two requests is answered in full if and only if it holds
one request and no older body shows through. -/
theorem received_pipelined_iff (Hash : Bytes → ℕ) (body : Bytes) (c : HttpConnection)
    (hc : c.context = leftWith body) (hb : c.inputBuffer_.WF)
    (hr : c.inputBuffer_.readable = []) (first : WholeRequest) (rest : List WholeRequest)
    (t : TimeStamp) :
    (∃ answers c', received c (concatenated (first::rest)) t = .ok (answers, c') ∧
        Pipelined Hash (first::rest) answers c') ↔
      rest = [] ∧ bodyAfter first.yields body = first.yields.body_ := by
  obtain ⟨t0, c', hrec, hleft⟩ := received_first body c hc hb hr first (concatenated rest) t
  have hcat : concatenated (first::rest) = first.request ++ concatenated rest := rfl
  rw [hcat, hrec]
  constructor
  · rintro ⟨answers, c'', hok, hp⟩
    obtain ⟨rfl, rfl⟩ := Prod.mk.inj (Except.ok.inj hok)
    have hrest : rest = [] := by
      cases rest with
      | nil => rfl
      | cons r rs =>
        exact absurd ⟨r.request, r.yields, concatenated rs, r.accepted, hleft⟩ hp.drained
    subst hrest
    refine ⟨rfl, ?_⟩
    obtain ⟨requests, hreq, hcontent⟩ := hp.passed
    obtain ⟨request, rfl⟩ : ∃ request, requests = [request] := by
      cases requests with
      | nil => simp at hcontent
      | cons q qs => cases qs with
        | nil => exact ⟨q, rfl⟩
        | cons q' qs => simp at hcontent
    obtain rfl := Answer.onRequest.inj (List.cons.inj hreq).1
    exact (reframe_content _ _ _).mp (List.cons.inj hcontent).1
  · rintro ⟨rfl, hbody⟩
    refine ⟨_, c', rfl, ⟨⟨[_], rfl, ?_⟩, ?_, ?_⟩⟩
    · rw [List.map_singleton, List.map_singleton, (reframe_content _ _ _).mpr hbody]
    · intro regs served s w pairs s' hs hp
      exact carryOut_single Hash regs served s s' hs w _ pairs hp
    · rintro ⟨r, q, tail, hq, hread⟩
      obtain ⟨rfl, -⟩ := List.append_eq_nil_iff.mp (hread.symm.trans hleft)
      exact accepts_ne_nil q hq

def wholeIndex : WholeRequest where
  request := indexRequest.encode
  yields := indexRequest.stored {}
  accepted := encode_accepts indexRequest {}

theorem received_pipelined_iff_index : ∃ answers c',
    received {} (concatenated [wholeIndex]) {} = .ok (answers, c') ∧
      Pipelined List.length [wholeIndex] answers c' :=
  (received_pipelined_iff List.length [] {} rfl (Buffer.create_wf _) (Buffer.create_readable _)
    wholeIndex [] {}).mpr ⟨rfl, by decide⟩

/-- Two requests in one message: the second one is left in the buffer. -/
theorem two_requests_unanswered :
    (∃ q c', received {} (concatenated [wholeIndex, wholeIndex]) {} = .ok ([.onRequest q], c') ∧
      c'.inputBuffer_.readable = wholeIndex.request) ∧
    ¬ ∃ answers c', received {} (concatenated [wholeIndex, wholeIndex]) {} = .ok (answers, c') ∧
      Pipelined List.length [wholeIndex, wholeIndex] answers c' := by
  obtain ⟨t0, c', hrec, hleft⟩ := received_first [] {} rfl (Buffer.create_wf _)
    (Buffer.create_readable _) wholeIndex (concatenated [wholeIndex]) {}
  refine ⟨⟨_, c', hrec, hleft.trans (List.append_nil _)⟩, ?_⟩
  rintro ⟨answers, c'', hok, hp⟩
  obtain ⟨rfl, rfl⟩ := Prod.mk.inj (Except.ok.inj (hrec.symm.trans hok))
  exact hp.drained ⟨wholeIndex.request, wholeIndex.yields, [], wholeIndex.accepted, hleft⟩

end MuServer
