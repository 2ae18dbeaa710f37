import MuServer.CallbackShutdown
import MuServer.ResponseStream

/-!
# A client and the server

The message callback of `HttpServer` answers a connection whose client reads
responses as they arrive. Other connections change the shared cache between two
messages: the server that a message meets is part of what it meets.
-/

set_option autoImplicit false

namespace MuServer
open Lib.Machine Lib.Fallible Lib.Stream

structure Visit where
  server : HttpServer
  surroundings : Surroundings

structure Exchange where
  visit : Visit
  answer : Answer
  calls : List Request

def Exchange.text (e : Exchange) : Bytes := (handedOver e.calls).flatten

structure HttpService where
  context : HttpContext := {}
  answered : List Exchange := []

namespace HttpServer

variable (Hash : Bytes → ℕ)

def messageCallback : MessageCallback Visit HttpService := fun visit receivedTime service buffer => do
  let (answers, c) ←
    onMessage { context := service.context, inputBuffer_ := buffer } receivedTime
  let (pairs, _) ← visit.server.carryOut Hash visit.surroundings answers
  .ok (pairs.flatMap Prod.snd, {
    context := c.context
    answered := service.answered ++ pairs.map (fun p => ⟨visit, p.1, p.2⟩) }, c.inputBuffer_)

def copyOf (s : HttpServer) (sf : NamedFile) : Option Bytes :=
  if sf.getFileSize ≤ MAX_CHACHE_FILE_SIZE then s.cached Hash sf.path else none

def bodyOf (s : HttpServer) (w : Surroundings) (resp : HttpResponse) : Bytes :=
  match resp.file_ with
  | none => resp.body_
  | some sf =>
    match copyOf Hash s sf with
    | some data => data
    | none => StaticFile.payload {
        content := (w.disk sf.path).getD []
        offset_ := sf.offset_
        fileSize_ := sf.getFileSize }

def lengthOf (s : HttpServer) (resp : HttpResponse) : ℕ :=
  match resp.file_ with
  | none => resp.body_.length
  | some sf =>
    match copyOf Hash s sf with
    | some data => data.length
    | none => sf.getFileSize

def said (e : Exchange) : Bytes :=
  match e.answer with
  | .send _ => badRequest
  | .onRequest request =>
    let resp := e.visit.server.answer request
    resp.headText (lengthOf Hash e.visit.server resp) e.visit.surroundings.order ++
      bodyOf Hash e.visit.server e.visit.surroundings resp

/-- The response to a request as a message with a status code and a length. That of a
file's route has no code, and one that closes the connection no length. -/
def responseTo (v : Visit) (request : HttpRequest) : Option Message :=
  let resp := v.server.answer request
  if resp.stateCode_ = .kUnknown ∨ resp.closeConnection_ = true then none
  else some (resp.setBody (bodyOf Hash v.server v.surroundings resp)).message

def delimited (e : Exchange) : Option Message :=
  match e.answer with
  | .send _ => none
  | .onRequest request => responseTo Hash e.visit request

def Readable (handler : HttpRequest → HttpResponse → HttpResponse) : Prop :=
  Decent handler ∧ ∀ request close,
    ∀ h ∈ (handler request { closeConnection_ := close }).headers_.entries, ∀ c ∈ h.1, c ≠ byte ':'

structure Visited (regs : List Registration) (v : Visit) : Prop where
  router : v.server.router_ = Router.build regs
  holds : v.server.Holds Hash (fun _ _ => True)

structure Intact (regs : List Registration) (v : Visit) : Prop extends Visited Hash regs v where
  whole : ∀ request sf content, ¬ FileRoute v.server.router_ request →
    (v.server.answer request).file_ = some sf → v.surroundings.disk sf.path = some content →
      sf.offset_+sf.getFileSize ≤ content.length

/-- Handlers that attach no files leave nothing to be said of them. -/
theorem visited_intact (regs : List Registration)
    (hplain : ∀ handler, Registered regs handler → ∀ request close,
      (handler request { closeConnection_ := close }).file_ = none)
    (v : Visit) (hv : Visited Hash regs v) : Intact Hash regs v where
  toVisited := hv
  whole := by
    intro request sf content hno hf
    have hnone : (v.server.answer request).file_ = none := by
      unfold answer Router.handleRequest
      cases hm : v.server.router_.matchRoute request.method_ request.path_ with
      | none => rfl
      | some found =>
        cases found with
        | file file => exact absurd ⟨file, hm⟩ hno
        | user handler =>
          exact hplain handler (build_honest regs request.method_ request.path_ handler
            (hv.router ▸ hm)) request (newResponse request).closeConnection_
    exact absurd (hnone.symm.trans hf) (by simp)

inductive Exchanged : Exchange → Prop
  | refusal (visit : Visit) : Exchanged ⟨visit, .send badRequest, [.send badRequest]⟩
  | request (visit : Visit) (request : HttpRequest) (calls : List Request) (s : HttpServer)
      (h : visit.server.onRequest Hash visit.surroundings request = .ok (calls, s)) :
      Exchanged ⟨visit, .onRequest request, calls⟩

omit Hash in
/-- A message is refused or not, and then there is a request or not. -/
theorem onMessage_answers (c : HttpConnection) (t : TimeStamp) (answers : List Answer)
    (c' : HttpConnection) (h : onMessage c t = .ok (answers, c')) :
    ∃ refusals requests, answers = refusals ++ requests ∧
      (refusals = [] ∨ refusals = [.send badRequest]) ∧
      (requests = [] ∨ ∃ request, requests = [.onRequest request]) := by
  obtain ⟨⟨done, context, buffer⟩, -, h⟩ := bind_eq_ok h
  have hrefusals : ∀ done : Bool, (if done then [] else [Answer.send badRequest]) = [] ∨
      (if done then [] else [Answer.send badRequest]) = [.send badRequest] := by
    intro done
    cases done
    · exact Or.inr rfl
    · exact Or.inl rfl
  simp only at h
  split at h
  · obtain ⟨rfl, -⟩ := Prod.mk.inj (Except.ok.inj h)
    exact ⟨_, _, rfl, hrefusals done, Or.inr ⟨_, rfl⟩⟩
  · obtain ⟨rfl, -⟩ := Prod.mk.inj (Except.ok.inj h)
    exact ⟨_, [], (List.append_nil _).symm, hrefusals done, Or.inl rfl⟩

theorem carryOut_exchanged (v : Visit) (refusals requests : List Answer)
    (pairs : List (Answer × List Request)) (s : HttpServer)
    (hrefusals : refusals = [] ∨ refusals = [.send badRequest])
    (hrequests : requests = [] ∨ ∃ request, requests = [.onRequest request])
    (h : v.server.carryOut Hash v.surroundings (refusals ++ requests) = .ok (pairs, s)) :
    pairs.map Prod.fst = refusals ++ requests ∧
      ∀ p ∈ pairs, Exchanged Hash ⟨v, p.1, p.2⟩ := by
  have hone : ∀ pairs s, v.server.carryOut Hash v.surroundings requests = .ok (pairs, s) →
      pairs.map Prod.fst = requests ∧ ∀ p ∈ pairs, Exchanged Hash ⟨v, p.1, p.2⟩ := by
    intro pairs s h
    rcases hrequests with rfl | ⟨request, rfl⟩
    · obtain ⟨rfl, -⟩ := Prod.mk.inj (Except.ok.inj h)
      exact ⟨rfl, by simp⟩
    · obtain ⟨⟨calls, u⟩, hcalls, h⟩ := bind_eq_ok h
      obtain ⟨⟨later, u'⟩, hlater, h⟩ := bind_eq_ok h
      obtain ⟨rfl, -⟩ := Prod.mk.inj (Except.ok.inj hlater)
      obtain ⟨rfl, -⟩ := Prod.mk.inj (Except.ok.inj h)
      refine ⟨rfl, fun p hp => ?_⟩
      obtain rfl := List.mem_singleton.mp hp
      exact .request v request calls u hcalls
  rcases hrefusals with rfl | rfl
  · exact hone pairs s h
  · obtain ⟨⟨later, u⟩, hlater, h⟩ := bind_eq_ok h
    obtain ⟨rfl, -⟩ := Prod.mk.inj (Except.ok.inj h)
    obtain ⟨hmap, hall⟩ := hone later u hlater
    refine ⟨by rw [List.map_cons, hmap]; rfl, fun p hp => ?_⟩
    rcases List.mem_cons.mp hp with rfl | hp
    · exact .refusal v
    · exact hall p hp

theorem messageCallback_ok (v : Visit) (t : TimeStamp) (service service' : HttpService)
    (b b' : Buffer) (calls : List Request)
    (h : messageCallback Hash v t service b = .ok (calls, service', b')) :
    ∃ answers more, onMessage { context := service.context, inputBuffer_ := b } t =
        .ok (answers, ⟨service'.context, b'⟩) ∧
      service'.answered = service.answered ++ more ∧ calls = more.flatMap Exchange.calls ∧
      more.map Exchange.answer = answers ∧
      ∀ e ∈ more, e.visit = v ∧ Exchanged Hash e := by
  obtain ⟨⟨answers, c⟩, hm, h⟩ := bind_eq_ok h
  obtain ⟨⟨pairs, u⟩, hp, h⟩ := bind_eq_ok h
  obtain ⟨rfl, hrest⟩ := Prod.mk.inj (Except.ok.inj h)
  obtain ⟨rfl, rfl⟩ := Prod.mk.inj hrest
  obtain ⟨refusals, requests, rfl, hrefusals, hrequests⟩ := onMessage_answers _ _ _ _ hm
  obtain ⟨hmap, hall⟩ := carryOut_exchanged Hash v refusals requests pairs u hrefusals hrequests hp
  refine ⟨_, pairs.map (fun p => ⟨v, p.1, p.2⟩), hm, rfl, ?_, ?_, ?_⟩
  · rw [List.flatMap_map]
  · rw [List.map_map, ← hmap]
    rfl
  · intro e he
    obtain ⟨p, hp, rfl⟩ := List.mem_map.mp he
    exact ⟨rfl, hall p hp⟩

theorem replies_answered (ms : List (Incoming Visit)) (service service' : HttpService)
    (b b' : Buffer) (calls : List Request)
    (h : Served.replies (messageCallback Hash) service b ms = .ok (calls, service', b')) :
    ∃ more, service'.answered = service.answered ++ more ∧ calls = more.flatMap Exchange.calls ∧
      ∀ e ∈ more, (∃ m ∈ ms, e.visit = m.surroundings) ∧ Exchanged Hash e := by
  induction ms generalizing service b calls with
  | nil =>
    obtain ⟨rfl, hrest⟩ := Prod.mk.inj (Except.ok.inj h)
    obtain ⟨rfl, -⟩ := Prod.mk.inj hrest
    exact ⟨[], by simp, rfl, by simp⟩
  | cons m ms ih =>
    obtain ⟨b1, -, h⟩ := bind_eq_ok h
    obtain ⟨⟨first, service1, b2⟩, hfirst, h⟩ := bind_eq_ok h
    obtain ⟨⟨later, service2, b3⟩, hlater, h⟩ := bind_eq_ok h
    obtain ⟨rfl, hends⟩ := Prod.mk.inj (Except.ok.inj h)
    obtain ⟨rfl, rfl⟩ := Prod.mk.inj hends
    obtain ⟨answers, now, -, hnow, rfl, -, hall⟩ := messageCallback_ok Hash _ _ _ _ _ _ _ hfirst
    obtain ⟨more, hmore, rfl, hrest⟩ := ih service1 b2 later hlater
    refine ⟨now ++ more, by rw [hmore, hnow, List.append_assoc], by rw [List.flatMap_append], ?_⟩
    intro e he
    rcases List.mem_append.mp he with he | he
    · exact ⟨⟨m, by simp, (hall e he).1⟩, (hall e he).2⟩
    · obtain ⟨⟨n, hn, hv⟩, hex⟩ := hrest e he
      exact ⟨⟨n, by simp [hn], hv⟩, hex⟩

/-- Head and body of the response, whichever way the body is sent. -/
theorem sent_text (v : Visit) (resp : HttpResponse) (sent : List Request)
    (hs : v.server.Sent Hash v.surroundings resp sent) :
    (handedOver sent).flatten = resp.headText (lengthOf Hash v.server resp) v.surroundings.order ++
      bodyOf Hash v.server v.surroundings resp := by
  cases hs with
  | body hf =>
    simp only [lengthOf, bodyOf, hf]
    simp [handedOver, Request.payload?]
  | copy sf data hf hsmall hc =>
    have hcopy : copyOf Hash v.server sf = some data := (if_pos hsmall).trans hc
    simp only [lengthOf, bodyOf, hf, hcopy]
    simp [handedOver, Request.payload?]
  | file sf content hf hd hmiss =>
    have hcopy : copyOf Hash v.server sf = none := by
      unfold copyOf
      split
      · rename_i hsmall
        exact hmiss hsmall
      · rfl
    simp only [lengthOf, bodyOf, hf, hcopy, hd, Option.getD_some]
    simp [handedOver, Request.payload?]

/-- A file that is as long as its head says has that length as a body. -/
theorem sent_length (v : Visit) (resp : HttpResponse) (sent : List Request)
    (hs : v.server.Sent Hash v.surroundings resp sent)
    (hwhole : ∀ sf content, resp.file_ = some sf → v.surroundings.disk sf.path = some content →
      sf.offset_+sf.getFileSize ≤ content.length) :
    lengthOf Hash v.server resp = (bodyOf Hash v.server v.surroundings resp).length := by
  unfold lengthOf bodyOf
  cases hs with
  | body hf => simp only [hf]
  | copy sf data hf hsmall hc =>
    have hcopy : copyOf Hash v.server sf = some data := (if_pos hsmall).trans hc
    simp only [hf, hcopy]
  | file sf content hf hd hmiss =>
    have hle := hwhole sf content hf hd
    simp only [hf]
    cases hcopy : copyOf Hash v.server sf with
    | some data => rfl
    | none =>
      simp only [hd, Option.getD_some, StaticFile.payload, List.length_take, List.length_drop]
      omega

omit Hash in
theorem ending_handedOver (resp : HttpResponse) : handedOver (ending resp) = [] := by
  unfold ending
  split <;> rfl

omit Hash in
theorem request_text (v : Visit) (request : HttpRequest) (sent : List Request) :
    Exchange.text ⟨v, .onRequest request, sent ++ ending (v.server.answer request)⟩ =
      (handedOver sent).flatten := by
  rw [Exchange.text, handedOver, List.filterMap_append]
  change (handedOver sent ++ handedOver (ending _)).flatten = _
  rw [ending_handedOver, List.append_nil]

omit Hash in
/-- A route that is no file's answers with a head that can be read, headers included. -/
theorem answer_plainNames (s : HttpServer) (regs : List Registration)
    (hrouter : s.router_ = Router.build regs)
    (hregs : ∀ handler, Registered regs handler → Readable handler) (request : HttpRequest)
    (hno : ¬ FileRoute s.router_ request) : PlainNames (s.answer request) := by
  unfold answer Router.handleRequest
  cases hm : s.router_.matchRoute request.method_ request.path_ with
  | none => exact fun h hh => absurd hh List.not_mem_nil
  | some handler =>
    cases handler with
    | file file => exact absurd ⟨file, hm⟩ hno
    | user handler =>
      obtain ⟨hdecent, hcolons⟩ :=
        hregs handler (build_honest regs request.method_ request.path_ handler (hrouter ▸ hm))
      obtain ⟨-, hlength, hconnection⟩ := hdecent request (newResponse request).closeConnection_
      intro h hh
      have hkey : h.1 ∈ (handler request (newResponse request)).headers_ :=
        AList.mem_keys.mpr (List.mem_map_of_mem hh)
      refine ⟨hcolons request _ h hh, ?_, ?_⟩
      · intro he
        exact hlength (he ▸ hkey)
      · intro he
        exact hconnection (he ▸ hkey)

theorem exchanged_text (regs : List Registration) (e : Exchange) (hv : Visited Hash regs e.visit)
    (he : Exchanged Hash e) : e.text = said Hash e := by
  cases he with
  | refusal visit => exact List.append_nil _
  | request v request calls s h =>
    obtain ⟨-, -, sent, hsent, rfl⟩ := onRequest_spec Hash v.server s _ hv.holds v.surroundings
      request (fun _ _ _ _ _ => trivial) calls h
    rw [request_text, sent_text Hash v _ sent hsent]
    rfl

theorem exchanged_reads (regs : List Registration)
    (hregs : ∀ handler, Registered regs handler → Readable handler) (e : Exchange)
    (hv : Intact Hash regs e.visit) (he : Exchanged Hash e) :
    Reads readMessage (said Hash e) (delimited Hash e) := by
  cases he with
  | refusal visit => exact badRequest_reads
  | request v request calls s h =>
    obtain ⟨-, -, sent, hsent, -⟩ := onRequest_spec Hash v.server s _ hv.holds v.surroundings
      request (fun _ _ _ _ _ => trivial) calls h
    simp only [said, delimited, responseTo]
    by_cases hfile : FileRoute v.server.router_ request
    · obtain ⟨file, hm⟩ := hfile
      obtain ⟨hcode, hmsg, -⟩ := answer_file v.server request file hm
      rw [if_pos (Or.inl hcode)]
      refine unknown_reads _ hcode ?_ _ _ _
      rw [hmsg]
      exact fun c hc => absurd hc List.not_mem_nil
    · have hlegible := answer_legible v.server regs hv.router (fun handler hr => (hregs handler hr).1)
        request hfile
      have hnames := answer_plainNames v.server regs hv.router hregs request hfile
      split
      · rename_i hor
        rcases hor with hcode | hclose
        · exact absurd hcode hlegible.code
        · exact closing_reads _ hlegible hnames hclose _ _ _
      · rename_i hor
        rw [not_or, Bool.not_eq_true] at hor
        have hwhole : ((v.server.answer request).setBody
            (bodyOf Hash v.server v.surroundings (v.server.answer request))).Legible :=
          ⟨hlegible.code, hlegible.message, hlegible.fields⟩
        rw [sent_length Hash v _ sent hsent (fun sf content => hv.whole request sf content hfile)]
        exact open_reads _ hwhole hnames hor.2 v.surroundings.order

variable {T : Type} [DecidableEq T]

def Visits (meets : Visit → Prop) (_s : Served T Visit HttpService) (a : ServeAct T Visit) : Prop :=
  ∀ m, a = .message m → meets m.surroundings

theorem reach_exchanges (meets : Visit → Prop) (fd owner : ℕ) (s : Served T Visit HttpService)
    (h : Reach (Served.step (messageCallback Hash)) (Visits meets) (Served.start fd owner {}) s) :
    s.made ++ s.calls = s.service.answered.flatMap Exchange.calls ∧
      ∀ e ∈ s.service.answered, meets e.visit ∧ Exchanged Hash e := by
  have hreplied := Served.reach_replied (messageCallback Hash) fd owner {} _ s h
  obtain ⟨more, hmore, hcalls, hall⟩ := replies_answered Hash _ _ _ _ _ _ hreplied
  have hvisited := Served.reach_incoming (messageCallback Hash) fd owner {} _
    (fun m => meets m.surroundings) (fun _ m hok => hok m rfl) s h
  rw [hmore, List.nil_append]
  refine ⟨hcalls, fun e he => ?_⟩
  obtain ⟨⟨m, hm, hv⟩, hex⟩ := hall e he
  exact ⟨hv ▸ (hvisited m hm).2, hex⟩

omit [DecidableEq T] in
theorem exchanges_text (es : List Exchange) :
    (handedOver (es.flatMap Exchange.calls)).flatten = (es.map Exchange.text).flatten := by
  induction es with
  | nil => rfl
  | cons e es ih =>
    rw [List.flatMap_cons, handedOver, List.filterMap_append, List.flatten_append, List.map_cons,
      List.flatten_cons, ← ih]
    rfl

/-- On the wire are the texts of the exchanges, up to some point; with nothing queued
on a connection that is up they are all there. -/
theorem reach_wire_texts (fd owner : ℕ)
    (ok : Served T Visit HttpService → ServeAct T Visit → Prop) (s : Served T Visit HttpService)
    (h : Reach (Served.step (messageCallback Hash)) ok (Served.start fd owner {}) s)
    (hcalls : s.made ++ s.calls = s.service.answered.flatMap Exchange.calls)
    (herr : s.conn.hardErrors = 0) :
    s.conn.wire <+: (s.service.answered.map Exchange.text).flatten ∧
      (s.conn.state_ = .kConnected → s.conn.control = .frames → s.conn.contextQueue_ = [] →
        s.calls = [] → s.conn.wire = (s.service.answered.map Exchange.text).flatten) := by
  have htext := exchanges_text s.service.answered
  rw [← hcalls] at htext
  constructor
  · rw [← htext]
    refine (Served.reach_wire_before (messageCallback Hash) fd owner {} _ s h herr).trans ?_
    obtain ⟨later, hl⟩ := handedOver_grows _ _
      ((List.takeWhile_prefix _).trans (List.prefix_append s.made s.calls))
    rw [← hl, List.flatten_append]
    exact List.prefix_append _ _
  · intro hstate hcontrol hqueue hnone
    rw [hnone, List.append_nil] at htext
    rw [← htext]
    exact Served.reach_wire_whole (messageCallback Hash) fd owner {} _ s h herr hstate hcontrol hqueue

/-- The wire holds what the answers say, up to some point; with nothing queued on a
connection that is up, all of it. -/
theorem reach_said (regs : List Registration) (meets : Visit → Prop)
    (hmeets : ∀ v, meets v → Visited Hash regs v) (fd owner : ℕ) (s : Served T Visit HttpService)
    (h : Reach (Served.step (messageCallback Hash)) (Visits meets) (Served.start fd owner {}) s)
    (herr : s.conn.hardErrors = 0) :
    s.conn.wire <+: (s.service.answered.map (said Hash)).flatten ∧
      (s.conn.state_ = .kConnected → s.conn.control = .frames → s.conn.contextQueue_ = [] →
        s.calls = [] → s.conn.wire = (s.service.answered.map (said Hash)).flatten) := by
  obtain ⟨hcalls, hall⟩ := reach_exchanges Hash meets fd owner s h
  have hsaid : s.service.answered.map Exchange.text = s.service.answered.map (said Hash) :=
    List.map_congr_left (fun e he =>
      exchanged_text Hash regs e (hmeets e.visit (hall e he).1) (hall e he).2)
  rw [← hsaid]
  exact reach_wire_texts Hash fd owner _ s h hcalls herr

theorem reach_items (regs : List Registration)
    (hregs : ∀ handler, Registered regs handler → Readable handler) (fd owner : ℕ)
    (s : Served T Visit HttpService)
    (h : Reach (Served.step (messageCallback Hash)) (Visits (Intact Hash regs))
      (Served.start fd owner {}) s) :
    ∀ i ∈ s.service.answered.map (fun e => (said Hash e, delimited Hash e)),
      Reads readMessage i.1 i.2 := by
  intro i hi
  obtain ⟨e, he, rfl⟩ := List.mem_map.mp hi
  obtain ⟨hv, hex⟩ := (reach_exchanges Hash _ fd owner s h).2 e he
  exact exchanged_reads Hash regs hregs e hv hex

theorem reach_read_begins (regs : List Registration)
    (hregs : ∀ handler, Registered regs handler → Readable handler) (fd owner : ℕ)
    (s : Served T Visit HttpService)
    (h : Reach (Served.step (messageCallback Hash)) (Visits (Intact Hash regs))
      (Served.start fd owner {}) s)
    (herr : s.conn.hardErrors = 0) (n : ℕ) :
    (readMany readMessage n s.conn.wire).map some <+:
      s.service.answered.map (delimited Hash) := by
  have hpre := (reach_said Hash regs _ (fun _ hv => hv.toVisited) fd owner s h herr).1
  have hread := readMany_prefix readMessage readMessage_stable _
    (reach_items Hash regs hregs fd owner s h) n s.conn.wire
    (by rw [List.map_map]; exact hpre)
  rwa [List.map_map] at hread

/-- On the wire of a connection without a hard error are, at any moment, the first of
the bytes that the answers say, and all of them with nothing queued on a connection
that is up. A client that takes messages off the wire has read the first of those that
come before an answer that is none; in the end it has read all of these. -/
theorem reach_read (regs : List Registration)
    (hregs : ∀ handler, Registered regs handler → Readable handler) (fd owner : ℕ)
    (s : Served T Visit HttpService)
    (h : Reach (Served.step (messageCallback Hash)) (Visits (Intact Hash regs))
      (Served.start fd owner {}) s)
    (herr : s.conn.hardErrors = 0) (n : ℕ) :
    s.conn.wire <+: (s.service.answered.map (said Hash)).flatten ∧
      (readMany readMessage n s.conn.wire).map some <+: s.service.answered.map (delimited Hash) ∧
      (s.conn.state_ = .kConnected → s.conn.control = .frames → s.conn.contextQueue_ = [] →
        s.calls = [] →
        s.conn.wire = (s.service.answered.map (said Hash)).flatten ∧
        (s.service.answered.length ≤ n → (readMany readMessage n s.conn.wire).map some =
          (s.service.answered.map (delimited Hash)).takeWhile Option.isSome)) := by
  obtain ⟨hpre, hidle⟩ := reach_said Hash regs _ (fun _ hv => hv.toVisited) fd owner s h herr
  refine ⟨hpre, reach_read_begins Hash regs hregs fd owner s h herr n, ?_⟩
  intro hstate hcontrol hqueue hnone
  have hwire := hidle hstate hcontrol hqueue hnone
  refine ⟨hwire, fun hn => ?_⟩
  have hread := readMany_whole readMessage _ (reach_items Hash regs hregs fd owner s h) n
    (by rwa [List.length_map]) rfl
  rw [List.map_map, List.map_map] at hread
  rw [hwire]
  exact hread

def frontPage : Visit where
  server := {
    router_ := Router.build [.get (bytes "/") greet]
    fileCache_ := freshCache }
  surroundings := oneFile []

omit [DecidableEq T] in
theorem greet_readable : ∀ handler, Registered [.get (bytes "/") greet] handler →
    Readable handler := by
  rintro handler ⟨uri, hm | hm⟩
  · obtain ⟨-, rfl⟩ := Registration.get.inj (List.mem_singleton.mp hm)
    refine ⟨greet_decent, fun request close h hh => ?_⟩
    have hentries : (greet request { closeConnection_ := close }).headers_.entries =
        [⟨bytes "Content-Type", bytes "text/plain"⟩] := rfl
    rw [hentries] at hh
    obtain rfl := List.mem_singleton.mp hh
    decide +kernel
  · exact absurd (List.mem_singleton.mp hm) (by simp)

omit [DecidableEq T] in
theorem frontPage_intact : Intact Hash [.get (bytes "/") greet] frontPage := by
  refine visited_intact Hash _ ?_ frontPage ⟨rfl, create_holds Hash _ _⟩
  rintro handler ⟨uri, hm | hm⟩ request close
  · obtain ⟨-, rfl⟩ := Registration.get.inj (List.mem_singleton.mp hm)
    rfl
  · exact absurd (List.mem_singleton.mp hm) (by simp)

def visitFrontPage : List (ServeAct ℕ Visit) :=
  [.conn .doPendingFunctor, .conn (.exec .again), .conn .userReturns,
    .conn (.poll { rd := true }), .conn .handleEvent,
    .message { surroundings := frontPage, receiveTime := {}, data := indexRequest.encode },
    .call, .conn (.exec .again), .conn (.exec (.bytes 60)), .conn (.exec .again),
    .conn (.exec .again), .conn .userReturns, .conn (.poll { out := true }), .conn .handleEvent,
    .conn (.exec .again), .conn (.exec (.bytes 33)), .conn (.exec .again)]

theorem visitFrontPage_visits : ∀ a ∈ visitFrontPage, ∀ m, a = .message m →
    Intact Hash [.get (bytes "/") greet] m.surroundings := by
  intro a ha m hm
  subst hm
  simp only [visitFrontPage, List.mem_cons, List.not_mem_nil, reduceCtorEq, or_false, false_or,
    ServeAct.message.injEq] at ha
  rw [ha]
  exact frontPage_intact Hash

theorem reach_read_frontPage :
    ∃ s, run (Served.step (messageCallback List.length)) (Served.start (T := ℕ) 5 0 {})
        visitFrontPage = some s ∧ s.service.answered.length = 1 ∧
      (readMany readMessage 1 s.conn.wire).map some =
        (s.service.answered.map (delimited List.length)).takeWhile Option.isSome ∧
      (readMany readMessage 1 s.conn.wire).length = 1 := by
  have hrun : (run (Served.step (messageCallback List.length)) (Served.start (T := ℕ) 5 0 {})
      visitFrontPage).map (fun s => (s.conn.hardErrors, s.service.answered.length,
        decide (s.conn.state_ = .kConnected ∧ s.conn.control = .frames),
        s.conn.contextQueue_.isEmpty && s.calls.isEmpty,
        (readMany readMessage 1 s.conn.wire).length)) =
      some (0, 1, true, true, 1) := by
    decide +kernel
  obtain ⟨s, hs, hends⟩ := Option.map_eq_some_iff.mp hrun
  simp only [Prod.mk.injEq, decide_eq_true_eq, Bool.and_eq_true, List.isEmpty_iff] at hends
  obtain ⟨herr, hlength, ⟨hstate, hcontrol⟩, ⟨hqueue, hcalls⟩, hread⟩ := hends
  have hreach := run_reach_actions (Served.step (messageCallback List.length)) _ _ _ s
    visitFrontPage .refl (visitFrontPage_visits List.length) hs
  obtain ⟨-, -, hidle⟩ := reach_read List.length _ greet_readable 5 0 s hreach herr 1
  exact ⟨s, hs, hlength, (hidle hstate hcontrol hqueue hcalls).2 hlength.le, hread⟩

omit [DecidableEq T] in
/-- The context that a request has left meets the next one, alone in the buffer. -/
theorem onMessage_encoded (w : WireRequest) (body : Bytes) (b : Buffer) (hb : b.WF)
    (hr : b.readable = w.encode) (t : TimeStamp) :
    ∃ t0 b', onMessage { context := leftWith body, inputBuffer_ := b } t =
        .ok ([.onRequest ((w.stored {}).reframe (bodyAfter (w.stored {}) body) t0)],
          { context := leftWith (bodyAfter (w.stored {}) body), inputBuffer_ := b' }) ∧
      b'.WF ∧ b'.readable = [] := by
  obtain ⟨t0, b', hp, hwf, hrest⟩ := accepts_parse w.encode _ (encode_accepts w {}) body [] b hb
    (by rwa [List.append_nil]) t
  refine ⟨t0, b', ?_, hwf, hrest⟩
  simp only [onMessage, hp, bind, Except.bind]
  rfl

omit [DecidableEq T] in
/-- Reads of one encoded request each are handed over one after the other, with
the bodies that are left behind. -/
theorem replies_encoded (ms : List (Incoming Visit)) (ws : List WireRequest) (body : Bytes)
    (service service' : HttpService) (b b' : Buffer) (calls : List Request)
    (hdata : ms.map Incoming.data = ws.map WireRequest.encode) (hb : b.WF) (hr : b.readable = [])
    (hc : service.context = leftWith body)
    (h : Served.replies (messageCallback Hash) service b ms = .ok (calls, service', b')) :
    ∃ qs more, service'.answered = service.answered ++ more ∧ qs.length = ws.length ∧
      more.map (fun e => (e.visit, e.answer)) =
        List.zipWith (fun m q => (m.surroundings, .onRequest q)) ms qs ∧
      ∀ (k : ℕ) (w : WireRequest) (q : HttpRequest), ws[k]? = some w → qs[k]? = some q → ∃ t0,
        q = (w.stored {}).reframe (bodyAfter (w.stored {})
          (leftOver body ((ws.take k).map (fun w => w.stored {})))) t0 := by
  induction ms generalizing ws body service b calls with
  | nil =>
    obtain rfl := List.map_eq_nil_iff.mp hdata.symm
    obtain ⟨-, hrest⟩ := Prod.mk.inj (Except.ok.inj h)
    obtain ⟨rfl, -⟩ := Prod.mk.inj hrest
    exact ⟨[], [], (List.append_nil _).symm, rfl, rfl, by simp⟩
  | cons m ms ih =>
    obtain ⟨w, ws, rfl⟩ := List.exists_cons_of_ne_nil (l := ws) (by
      rintro rfl
      exact absurd hdata (by simp))
    obtain ⟨hm, hms⟩ := List.cons.inj hdata
    obtain ⟨b1, hread, h⟩ := bind_eq_ok h
    obtain ⟨⟨first, service1, b2⟩, hfirst, h⟩ := bind_eq_ok h
    obtain ⟨⟨later, service2, b3⟩, hlater, h⟩ := bind_eq_ok h
    obtain ⟨-, hends⟩ := Prod.mk.inj (Except.ok.inj h)
    obtain ⟨rfl, rfl⟩ := Prod.mk.inj hends
    obtain ⟨b1', hread', hwf1, hr1⟩ := b.readFd_ok hb m.data
    obtain rfl := Except.ok.inj (hread'.symm.trans hread)
    rw [hr, List.nil_append] at hr1
    obtain ⟨answers, now, hnow, hanswered, -, hmap, hall⟩ :=
      messageCallback_ok Hash _ _ _ _ _ _ _ hfirst
    obtain ⟨t0, b2', honce, hwf2, hr2⟩ :=
      onMessage_encoded w body b1' hwf1 (hr1.trans hm) m.receiveTime
    rw [hc] at hnow
    obtain ⟨hans, hconn⟩ := Prod.mk.inj (Except.ok.inj (honce.symm.trans hnow))
    obtain ⟨hcontext, rfl⟩ := HttpConnection.mk.inj hconn
    obtain ⟨qs, more, hmore, hlength, hzip, heach⟩ :=
      ih ws _ service1 b2' later hms hwf2 hr2 hcontext.symm hlater
    obtain ⟨e, rfl⟩ : ∃ e, now = [e] := by
      rw [← hmap] at hans
      exact List.length_eq_one_iff.mp (by simpa using (congrArg List.length hans).symm)
    have he : e.answer = .onRequest ((w.stored {}).reframe (bodyAfter (w.stored {}) body) t0) := by
      rw [← hmap] at hans
      exact (List.cons.inj hans).1.symm
    refine ⟨(w.stored {}).reframe (bodyAfter (w.stored {}) body) t0::qs, e::more, ?_, ?_, ?_, ?_⟩
    · rw [hmore, hanswered, List.append_assoc, List.singleton_append]
    · rw [List.length_cons, List.length_cons, hlength]
    · rw [List.map_cons, List.zipWith_cons_cons, hzip, (hall e (by simp)).1, he]
    · intro k w' q hw hq
      cases k with
      | zero =>
        obtain rfl := Option.some.inj hw
        obtain rfl := Option.some.inj hq
        exact ⟨t0, rfl⟩
      | succ k => exact heach k w' q hw hq

/-- Requests that a client sends one at a time, none that an older body shows through,
are answered as the requests that were encoded. -/
theorem reach_answered (fd owner : ℕ)
    (ok : Served T Visit HttpService → ServeAct T Visit → Prop) (s : Served T Visit HttpService)
    (h : Reach (Served.step (messageCallback Hash)) ok (Served.start fd owner {}) s)
    (ws : List WireRequest) (hdata : s.incoming.map Incoming.data = ws.map WireRequest.encode)
    (hfresh : ∀ (k : ℕ) (w : WireRequest), ws[k]? = some w →
      Refreshed ((ws.take k).map (fun w => w.stored {})) (w.stored {})) :
    ∃ qs : List HttpRequest,
      qs.map HttpRequest.content = ws.map (fun w => (w.stored {}).content) ∧
      s.service.answered.map (delimited Hash) =
        List.zipWith (fun m q => responseTo Hash m.surroundings q) s.incoming qs := by
  have hreplied := Served.reach_replied (messageCallback Hash) fd owner {} _ s h
  obtain ⟨qs, more, hmore, hlength, hzip, heach⟩ := replies_encoded Hash s.incoming ws [] {} s.service
    _ _ _ hdata (Buffer.create_wf _) (Buffer.create_readable _) rfl hreplied
  refine ⟨qs, ?_, ?_⟩
  · refine List.ext_getElem? (fun k => ?_)
    rw [List.getElem?_map, List.getElem?_map]
    cases hw : ws[k]? with
    | none =>
      have hk : qs[k]? = none := by
        rw [List.getElem?_eq_none_iff] at hw ⊢
        omega
      rw [hk]
      rfl
    | some w =>
      obtain ⟨hlt, -⟩ := List.getElem?_eq_some_iff.mp hw
      have hq : qs[k]? = some qs[k] := List.getElem?_eq_getElem (by omega)
      obtain ⟨t0, ht⟩ := heach k w _ hw hq
      rw [hq, ht]
      have hbody := (refreshed_leftOver _ _ (accepts_body w.encode _ (encode_accepts w {}))).mp
        (hfresh k w hw)
      exact congrArg some ((reframe_content _ _ t0).mpr hbody)
  · have hpairs := congrArg (List.map (fun p : Visit × Answer =>
      delimited Hash ⟨p.1, p.2, []⟩)) hzip
    rw [List.map_map, List.map_zipWith] at hpairs
    rw [hmore, List.nil_append]
    exact hpairs

/-- A client sends a request at a time, each in its own encoding and none that an
older body shows through. What it has read are the answers of the routes to the
first of the requests that it sent. -/
theorem reach_conversation (regs : List Registration)
    (hregs : ∀ handler, Registered regs handler → Readable handler) (fd owner : ℕ)
    (s : Served T Visit HttpService)
    (h : Reach (Served.step (messageCallback Hash)) (Visits (Intact Hash regs))
      (Served.start fd owner {}) s)
    (herr : s.conn.hardErrors = 0) (n : ℕ) (ws : List WireRequest)
    (hdata : s.incoming.map Incoming.data = ws.map WireRequest.encode)
    (hfresh : ∀ (k : ℕ) (w : WireRequest), ws[k]? = some w →
      Refreshed ((ws.take k).map (fun w => w.stored {})) (w.stored {})) :
    ∃ qs : List HttpRequest,
      qs.map HttpRequest.content = ws.map (fun w => (w.stored {}).content) ∧
      (readMany readMessage n s.conn.wire).map some <+:
        List.zipWith (fun m q => responseTo Hash m.surroundings q) s.incoming qs := by
  obtain ⟨qs, hqs, hdelimited⟩ := reach_answered Hash fd owner _ s h ws hdata hfresh
  have hread := reach_read_begins Hash regs hregs fd owner s h herr n
  rw [hdelimited] at hread
  exact ⟨qs, hqs, hread⟩

theorem reach_conversation_frontPage :
    ∃ s, run (Served.step (messageCallback List.length)) (Served.start (T := ℕ) 5 0 {})
        visitFrontPage = some s ∧ s.conn.wire ≠ [] ∧ ∃ qs : List HttpRequest,
      qs.map HttpRequest.content = [(indexRequest.stored {}).content] ∧
      (readMany readMessage 1 s.conn.wire).map some <+:
        List.zipWith (fun m q => responseTo List.length m.surroundings q) s.incoming qs := by
  have hrun : (run (Served.step (messageCallback List.length)) (Served.start (T := ℕ) 5 0 {})
      visitFrontPage).map (fun s => (s.conn.hardErrors, s.conn.wire.length,
        s.incoming.map Incoming.data)) = some (0, 93, [indexRequest.encode]) := by
    decide +kernel
  obtain ⟨s, hs, hends⟩ := Option.map_eq_some_iff.mp hrun
  simp only [Prod.mk.injEq] at hends
  obtain ⟨herr, hlength, hdata⟩ := hends
  have hreach := run_reach_actions (Served.step (messageCallback List.length)) _ _ _ s
    visitFrontPage .refl (visitFrontPage_visits List.length) hs
  refine ⟨s, hs, List.ne_nil_of_length_pos (by omega), reach_conversation List.length _
    greet_readable 5 0 s hreach herr 1 [indexRequest] hdata (fun k w hw => ?_)⟩
  cases k with
  | zero =>
    obtain rfl := Option.some.inj hw
    exact Or.inr (by simp)
  | succ k => exact absurd hw (by simp)

end HttpServer
end MuServer
