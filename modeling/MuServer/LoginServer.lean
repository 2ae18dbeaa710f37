import MuServer.HttpConversation
import MuServer.LoginForm

/-!
# The login of the example server

A client posts forms to `/login`. What it reads back is a redirection to `/index`
when the last password of its form is the stored one of the last user name.
-/

set_option autoImplicit false

namespace MuServer
open Lib.Machine Lib.Stream

def utf8 (s : String) : Bytes := s.toUTF8.data.toList

namespace LoginServer
open LoginForm HttpServer

abbrev Database := Bytes → Except String (Option Bytes)

def field (form : Form) (key : Bytes) : Bytes := (form.lookup key).getD []

def respond (database : Database) (form : Form) (resp : HttpResponse) : HttpResponse :=
  let username := field form (bytes "username")
  let password := field form (bytes "password")
  match database username with
  | .error _ =>
    (((resp.setStatusCode .k500InternalServerError).setStatusMessage
      (bytes "Internal Server Error")).setContentType (bytes "text/plain")).setBody (utf8 "服务器错误")
  | .ok none =>
    (((resp.setStatusCode .k400BadRequest).setStatusMessage
      (bytes "Bad Request")).setContentType (bytes "text/plain")).setBody (utf8 "用户不存在")
  | .ok (some db_hash) =>
    if password = db_hash then
      ((resp.setStatusCode .k302Found).setStatusMessage
        (bytes "Found")).addHeader (bytes "Location") (bytes "/index")
    else
      (((resp.setStatusCode .k200Ok).setStatusMessage
        (bytes "OK")).setContentType (bytes "text/plain")).setBody (utf8 "密码错误")

def login (database : Database) (req : HttpRequest) (resp : HttpResponse) :
    Except Fault HttpResponse := do
  let form ← parseForm req.body_
  .ok (respond database form resp)

def handler (database : Database) (req : HttpRequest) (resp : HttpResponse) : HttpResponse :=
  respond database ((parseForm req.body_).toOption.getD ∅) resp

theorem login_handler (database : Database) (req : HttpRequest) (resp : HttpResponse)
    (h : req.body_.length < 2^63) : login database req resp = .ok (handler database req resp) := by
  rw [login, handler, parseForm_total req.body_ h]
  rfl

structure Pages where
  index : NamedFile
  logo : NamedFile
  Login : NamedFile
  video : NamedFile
  file : NamedFile

def routes (database : Database) (pages : Pages) : List Registration :=
  [.file (bytes "/index") pages.index, .file (bytes "/login") pages.Login,
    .file (bytes "/image") pages.logo, .file (bytes "/video") pages.video,
    .file (bytes "/file") pages.file, .post (bytes "/login") (handler database)]

def textMessage (code : ℤ) (message body : Bytes) : Message where
  code := code
  message := message
  headers := Finmap.singleton (bytes "Content-Type") (bytes "text/plain")
  body := body

def verdict (database : Database) (username password : Bytes) : Message :=
  match database username with
  | .error _ => textMessage 500 (bytes "Internal Server Error") (utf8 "服务器错误")
  | .ok none => textMessage 400 (bytes "Bad Request") (utf8 "用户不存在")
  | .ok (some db_hash) =>
    if password = db_hash then {
      code := 302
      message := bytes "Found"
      headers := Finmap.singleton (bytes "Location") (bytes "/index")
      body := [] }
    else textMessage 200 (bytes "OK") (utf8 "密码错误")

structure Verdict (close : Bool) (resp : HttpResponse) (message : Message) : Prop where
  known : resp.stateCode_ ≠ .kUnknown
  line : TextBytes resp.statusMessage_
  header : ∃ h : Bytes × Bytes, resp.headers_.entries = [⟨h.1, h.2⟩] ∧ FieldBytes h ∧
    (∀ c ∈ h.1, c ≠ byte ':') ∧ kContentLength ≠ h.1 ∧ kConnection ≠ h.1
  plain : resp.file_ = none
  closes : resp.closeConnection_ = close
  read : resp.message = message

theorem text_verdict (code : HttpStateCode) (message body : Bytes) (close : Bool)
    (hknown : code ≠ .kUnknown) (hline : TextBytes message) :
    Verdict close (((((({ closeConnection_ := close } : HttpResponse).setStatusCode
      code).setStatusMessage message).setContentType (bytes "text/plain")).setBody body))
      (textMessage code.value message body) where
  known := hknown
  line := hline
  header := ⟨(bytes "Content-Type", bytes "text/plain"), rfl, by decide +kernel⟩
  plain := rfl
  closes := rfl
  read := rfl

theorem respond_verdict (database : Database) (form : Form) (close : Bool) :
    Verdict close (respond database form { closeConnection_ := close })
      (verdict database (field form (bytes "username")) (field form (bytes "password"))) := by
  dsimp only [respond, verdict]
  cases database (field form (bytes "username")) with
  | error what => exact text_verdict _ _ _ close (by decide) (by decide +kernel)
  | ok row =>
    cases row with
    | none => exact text_verdict _ _ _ close (by decide) (by decide +kernel)
    | some db_hash =>
      dsimp only
      split
      · exact {
          known := show HttpStateCode.k302Found ≠ .kUnknown by decide
          line := show TextBytes (bytes "Found") by decide +kernel
          header := ⟨(bytes "Location", bytes "/index"), rfl, by decide +kernel⟩
          plain := rfl
          closes := rfl
          read := rfl }
      · exact text_verdict _ _ _ close (by decide) (by decide +kernel)

theorem handler_verdict (database : Database) (request : HttpRequest) (close : Bool) :
    Verdict close (handler database request { closeConnection_ := close })
      (verdict database
        (field ((parseForm request.body_).toOption.getD ∅) (bytes "username"))
        (field ((parseForm request.body_).toOption.getD ∅) (bytes "password"))) :=
  respond_verdict database _ close

theorem handler_readable (database : Database) : Readable (handler database) := by
  constructor
  · intro request close
    have hv := handler_verdict database request close
    obtain ⟨⟨name, value⟩, hentries, hfield, -, hlength, hconnection⟩ := hv.header
    refine ⟨⟨hv.known, hv.line, fun h hh => ?_⟩, ?_, ?_⟩
    · rw [hentries] at hh
      obtain rfl := List.mem_singleton.mp hh
      exact hfield
    · change kContentLength ∉ List.keys _
      rw [hentries]
      simpa [List.keys] using hlength
    · change kConnection ∉ List.keys _
      rw [hentries]
      simpa [List.keys] using hconnection
  · intro request close h hh
    obtain ⟨⟨name, value⟩, hentries, -, hcolon, -⟩ :=
      (handler_verdict database request close).header
    rw [hentries] at hh
    obtain rfl := List.mem_singleton.mp hh
    exact hcolon

theorem routes_handler (database : Database) (pages : Pages)
    (added : HttpRequest → HttpResponse → HttpResponse)
    (h : Registered (routes database pages) added) : added = handler database := by
  obtain ⟨uri, hm | hm⟩ := h
  · exact absurd hm (by simp [routes])
  · simp only [routes, List.mem_cons, reduceCtorEq, List.not_mem_nil, or_false, false_or,
      Registration.post.injEq] at hm
    exact hm.2

theorem routes_readable (database : Database) (pages : Pages) :
    ∀ added, Registered (routes database pages) added → Readable added := by
  intro added h
  rw [routes_handler database pages added h]
  exact handler_readable database

structure LoginRequest where
  wire : WireRequest
  fields : List (Bytes × Bytes)
  is_post : wire.method = .kPost
  path_login : wire.path = bytes "/login"
  body_form : wire.body = formText fields
  plain : ∀ f ∈ fields, Plain f
  some_field : fields ≠ []
  stays : (newResponse (wire.stored {})).closeConnection_ = false

def LoginRequest.value (q : LoginRequest) (key : Bytes) : Bytes :=
  (q.fields.reverse.lookup key).getD []

theorem formText_ne_nil (fields : List (Bytes × Bytes)) (h : fields ≠ []) :
    formText fields ≠ [] := by
  cases fields with
  | nil => exact absurd rfl h
  | cons f fs =>
    cases fs with
    | nil => simp [formText, pairText]
    | cons g fs => simp [formText, pairText]

theorem wire_refreshed (q : LoginRequest) (earlier : List HttpRequest) :
    Refreshed earlier (q.wire.stored {}) := by
  left
  have hbody : q.wire.body ≠ [] := by
    rw [q.body_form]
    exact formText_ne_nil q.fields q.some_field
  have hlength := getHeader_length q.wire {}
  rw [if_neg hbody] at hlength
  have hheader : (q.wire.stored {}).getHeader kContentLength = decimal q.wire.body.length := hlength
  rw [hasLength, hheader]
  simpa using decimal_ne_nil q.wire.body.length

theorem form_value (q : LoginRequest) (key : Bytes) :
    field ((parseForm (q.wire.stored {}).body_).toOption.getD ∅) key = q.value key := by
  have hbody : (q.wire.stored {}).body_ = formText q.fields := q.body_form
  have hlt : (formText q.fields).length < 2^63 := by
    rw [← q.body_form]
    have hsize := q.wire.body_size
    omega
  rw [hbody, parseForm_total _ hlt, entries_formText q.fields [] q.plain]
  change (Finmap.lookup key (store ∅ q.fields)).getD [] = _
  rw [store_lookup]
  rfl

theorem stored_route (w : WireRequest) :
    (w.stored {}).method_ = w.method ∧ (w.stored {}).path_ = w.path := by
  rw [WireRequest.stored, storeHeaders_frame]
  exact ⟨rfl, rfl⟩

theorem matchRoute_login (database : Database) (pages : Pages) :
    (Router.build (routes database pages)).matchRoute .kPost (bytes "/login") =
      some (.user (handler database)) := by
  change (emplace ∅ (bytes "/login") (.user (handler database))).lookup (bytes "/login") = _
  rw [emplace, if_neg (by simp), AList.lookup_insert]

variable (Hash : Bytes → ℕ)

theorem login_intact (database : Database) (pages : Pages) (v : Visit)
    (hv : Visited Hash (routes database pages) v) : Intact Hash (routes database pages) v := by
  refine visited_intact Hash _ (fun added h request close => ?_) v hv
  rw [routes_handler database pages added h]
  exact (handler_verdict database request close).plain

theorem login_answered (database : Database) (pages : Pages) (v : Visit)
    (hv : Visited Hash (routes database pages) v) (q : LoginRequest) (request : HttpRequest)
    (hq : request.content = (q.wire.stored {}).content) :
    responseTo Hash v request =
      some (verdict database (q.value (bytes "username")) (q.value (bytes "password"))) := by
  obtain ⟨hm, hp⟩ := stored_route q.wire
  have hmethod : request.method_ = .kPost := by
    change request.content.method_ = _
    rw [hq]
    exact hm.trans q.is_post
  have hpath : request.path_ = bytes "/login" := by
    change request.content.path_ = _
    rw [hq]
    exact hp.trans q.path_login
  have hbody : request.body_ = (q.wire.stored {}).body_ := by
    change request.content.body_ = _
    rw [hq]
    rfl
  have hclose : (newResponse request).closeConnection_ = false := by
    change (newResponse request.content).closeConnection_ = _
    rw [hq]
    exact q.stays
  have hnew : newResponse request =
      { closeConnection_ := (newResponse request).closeConnection_ } := rfl
  rw [hclose] at hnew
  have hanswer : v.server.answer request =
      handler database request { closeConnection_ := false } := by
    rw [answer, hv.router, Router.handleRequest, hmethod, hpath, matchRoute_login, hnew]
    rfl
  have hverdict := handler_verdict database request false
  rw [hbody, form_value, form_value, ← hanswer] at hverdict
  have hopen : ¬ ((v.server.answer request).stateCode_ = .kUnknown ∨
      (v.server.answer request).closeConnection_ = true) := by
    rw [hverdict.closes]
    simpa using hverdict.known
  have hplain : bodyOf Hash v.server v.surroundings (v.server.answer request) =
      (v.server.answer request).body_ := by
    rw [bodyOf, hverdict.plain]
  rw [responseTo, if_neg hopen, hplain]
  exact congrArg some hverdict.read

variable {T : Type} [DecidableEq T]

/-- The client reads a verdict for each form, in the order in which it has posted
them, as far as it has read. -/
theorem reach_login (database : Database) (pages : Pages) (fd owner : ℕ)
    (s : Served T Visit HttpService)
    (h : Reach (Served.step (messageCallback Hash)) (Visits (Visited Hash (routes database pages)))
      (Served.start fd owner {}) s)
    (herr : s.conn.hardErrors = 0) (n : ℕ) (posts : List LoginRequest)
    (hdata : s.incoming.map Incoming.data = posts.map (fun q => q.wire.encode)) :
    readMany readMessage n s.conn.wire <+: posts.map (fun q =>
      verdict database (q.value (bytes "username")) (q.value (bytes "password"))) := by
  have hfresh : ∀ (k : ℕ) (w : WireRequest), (posts.map LoginRequest.wire)[k]? = some w →
      Refreshed (((posts.map LoginRequest.wire).take k).map (fun w => w.stored {}))
        (w.stored {}) := by
    intro k w hw
    rw [List.getElem?_map] at hw
    obtain ⟨q, -, rfl⟩ := Option.map_eq_some_iff.mp hw
    exact wire_refreshed q _
  obtain ⟨qs, hqs, hdelimited⟩ := reach_answered Hash fd owner _ s h (posts.map LoginRequest.wire)
    (by rw [hdata, List.map_map]; rfl) hfresh
  have hvisited := Served.reach_incoming (messageCallback Hash) fd owner {} _
    (fun m => Visited Hash (routes database pages) m.surroundings) (fun _ m hok => hok m rfl) s h
  have hintact := reach_mono _ _ (Visits (Intact Hash (routes database pages))) _
    (fun _ _ hok m hm => login_intact Hash database pages _ (hok m hm)) s h
  have hread := reach_read_begins Hash _ (routes_readable database pages) fd owner s hintact herr n
  have hlength : s.incoming.length = posts.length := by
    simpa using congrArg List.length hdata
  have hverdicts : List.zipWith (fun m q => responseTo Hash m.surroundings q) s.incoming qs =
      (posts.map (fun q => verdict database (q.value (bytes "username"))
        (q.value (bytes "password")))).map some := by
    refine List.ext_getElem? (fun k => ?_)
    have hk := congrArg (fun l => l[k]?) hqs
    simp only [List.getElem?_map] at hk
    rw [List.getElem?_zipWith, List.getElem?_map, List.getElem?_map]
    cases hq : posts[k]? with
    | none =>
      rw [List.getElem?_eq_none_iff] at hq
      rw [List.getElem?_eq_none (by omega)]
      rfl
    | some q =>
      rw [hq] at hk
      obtain ⟨request, hrequest, hcontent⟩ := Option.map_eq_some_iff.mp hk
      obtain ⟨hlt, -⟩ := List.getElem?_eq_some_iff.mp hq
      have hm : s.incoming[k]? = some s.incoming[k] := List.getElem?_eq_getElem (by omega)
      rw [hm, hrequest]
      exact congrArg some (login_answered Hash database pages _
        (hvisited _ (List.getElem_mem (by omega))).2 q request hcontent)
  rw [hdelimited, hverdicts] at hread
  obtain ⟨first, hfirst, hmap⟩ := List.prefix_map_iff.mp hread
  rwa [List.map_injective_iff.mpr (Option.some_injective _) hmap]

def annsForm : List (Bytes × Bytes) :=
  [(bytes "username", bytes "ann"), (bytes "password", bytes "x")]

theorem post_valid : Method.kPost ≠ .kInvalid := by decide

theorem login_path : PathBytes (bytes "/login") := by decide +kernel

theorem annsForm_plain : ∀ f ∈ annsForm, Plain f := by
  intro f hf
  simp only [annsForm, List.mem_cons, List.not_mem_nil, or_false] at hf
  rcases hf with rfl | rfl
  · exact ⟨by decide +kernel, by decide +kernel, by decide +kernel⟩
  · exact ⟨by decide +kernel, by decide +kernel, by decide +kernel⟩

def postForm : LoginRequest where
  wire := {
    method := .kPost
    path := bytes "/login"
    query := none
    version := .kHttp11
    headers := [(kContentLength, bytes "23")]
    body := formText annsForm
    method_valid := post_valid
    path_bytes := login_path
    query_bytes := no_query
    version_known := http11_known
    distinct := by decide
    names := by decide +kernel
    values := by decide +kernel
    body_size := by decide
    length_header := by decide +kernel
    line_size := by decide +kernel }
  fields := annsForm
  is_post := rfl
  path_login := rfl
  body_form := rfl
  plain := annsForm_plain
  some_field := List.cons_ne_nil _ _
  stays := by decide +kernel

def onlyAnn : Database := fun username =>
  .ok (if username = bytes "ann" then some (bytes "x") else none)

def annsPages : Pages := ⟨rootFile, rootFile, rootFile, rootFile, rootFile⟩

def annsVisit : Visit where
  server := {
    router_ := Router.build (routes onlyAnn annsPages)
    fileCache_ := freshCache }
  surroundings := { oneFile [] with disk := fun _ => none }

theorem annsVisit_visited : Visited Hash (routes onlyAnn annsPages) annsVisit where
  router := rfl
  holds := create_holds Hash _ _

def logsIn : List (ServeAct ℕ Visit) :=
  [.conn .doPendingFunctor, .conn (.exec .again), .conn .userReturns,
    .conn (.poll { rd := true }), .conn .handleEvent,
    .message { surroundings := annsVisit, receiveTime := {}, data := postForm.wire.encode },
    .call, .conn (.exec .again), .conn (.exec (.bytes 60)), .conn (.exec .again),
    .conn (.exec .again), .conn .userReturns, .conn (.poll { out := true }), .conn .handleEvent,
    .conn (.exec .again), .conn (.exec (.bytes 23)), .conn (.exec .again)]

theorem logsIn_visits : ∀ a ∈ logsIn, ∀ m, a = .message m →
    Visited Hash (routes onlyAnn annsPages) m.surroundings := by
  intro a ha m hm
  subst hm
  simp only [logsIn, List.mem_cons, List.not_mem_nil, reduceCtorEq, or_false, false_or,
    ServeAct.message.injEq] at ha
  rw [ha]
  exact annsVisit_visited Hash

theorem reach_login_postsForm :
    ∃ s, run (Served.step (messageCallback List.length)) (Served.start (T := ℕ) 5 0 {})
        logsIn = some s ∧ (readMany readMessage 1 s.conn.wire).length = 1 ∧
      readMany readMessage 1 s.conn.wire <+: [verdict onlyAnn (bytes "ann") (bytes "x")] := by
  have hrun : (run (Served.step (messageCallback List.length)) (Served.start (T := ℕ) 5 0 {})
      logsIn).map (fun s => (s.conn.hardErrors, s.incoming.map Incoming.data,
        (readMany readMessage 1 s.conn.wire).length)) =
      some (0, [postForm.wire.encode], 1) := by
    decide +kernel
  obtain ⟨s, hs, hends⟩ := Option.map_eq_some_iff.mp hrun
  simp only [Prod.mk.injEq] at hends
  obtain ⟨herr, hdata, hread⟩ := hends
  have hreach := run_reach_actions (Served.step (messageCallback List.length)) _ _ _ s
    logsIn .refl (logsIn_visits List.length) hs
  have hvalues : postForm.value (bytes "username") = bytes "ann" ∧
      postForm.value (bytes "password") = bytes "x" := by
    decide +kernel
  have hverdicts := reach_login List.length onlyAnn annsPages 5 0 s hreach herr 1 [postForm] hdata
  rw [List.map_singleton, hvalues.1, hvalues.2] at hverdicts
  exact ⟨s, hs, hread, hverdicts⟩

end LoginServer
end MuServer
