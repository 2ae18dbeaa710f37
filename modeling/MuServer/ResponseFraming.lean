import MuServer.OnRequest
import MuServer.ResponseReader

/-!
# The end of a response

A response is framed when its head can be read and the peer can tell where its
body ends: by a length that counts the bytes behind the head, or by the end of
the connection. `handleFile` sets no status code, so the answer of a file route
has none of three digits; every other answer that is sent is framed.
-/

set_option autoImplicit false

namespace MuServer

def Request.size : Request → ℕ
  | .send data => Context.remaining (.data (.ofData data))
  | .sendFile file => Context.remaining (.file (.ofFile file))
  | .shutdown => 0

def bodySize (calls : List Request) : ℕ := (calls.map Request.size).sum

/-- The calls send the response `resp` so that its end can be found. -/
def Framed (resp : HttpResponse) (calls : List Request) : Prop :=
  ∃ data rest head body, calls = .send data::rest ∧ readHead data = some (head, body) ∧
    (head.code : ℤ) = resp.stateCode_.value ∧ head.message = resp.statusMessage_ ∧
    ((.shutdown ∉ rest ∧ head.contentLength = some (body.length+bodySize rest)) ∨
      ∃ bodyCalls, rest = bodyCalls ++ [.shutdown] ∧ .shutdown ∉ bodyCalls ∧
        head.fields.lookup kConnection = some (bytes "close"))

/-- A handler sets a status code and texts that fit in a line, and leaves the
framing to the renderer. -/
def Decent (handler : HttpRequest → HttpResponse → HttpResponse) : Prop :=
  ∀ request close, (handler request { closeConnection_ := close }).Legible ∧
    kContentLength ∉ (handler request { closeConnection_ := close }).headers_ ∧
    kConnection ∉ (handler request { closeConnection_ := close }).headers_

namespace HttpServer

def FileRoute (router : Router) (request : HttpRequest) : Prop :=
  ∃ file, router.matchRoute request.method_ request.path_ = some (.file file)

theorem closing_framing (resp : HttpResponse) (h : resp.closeConnection_ = true) (n : ℕ)
    (more : List (Bytes × Bytes)) :
    (resp.framing n ++ more).lookup kConnection = some (bytes "close") := by
  rw [HttpResponse.framing, h]
  rfl

/-- A head with the length of what is behind it, and the end of the connection
where the head announces it. -/
theorem head_framed (resp : HttpResponse) (h : resp.Legible) (n : ℕ) (order : HeaderOrder)
    (body : Bytes) (rest : List Request) (hn : n = body.length+bodySize rest)
    (hrest : .shutdown ∉ rest) :
    Framed resp (.send (resp.headText n order ++ body)::rest ++ ending resp) := by
  obtain ⟨code, hcode, hread⟩ := readHead_text resp h n order body
  refine ⟨_, rest ++ ending resp, _, body, rfl, hread, hcode, rfl, ?_⟩
  unfold ending HttpResponse.closeConnection
  cases hclose : resp.closeConnection_ with
  | false =>
    refine Or.inl ⟨?_, ?_⟩
    · rwa [if_neg Bool.false_ne_true, List.append_nil]
    · rw [contentLength_framing resp hclose, if_neg Bool.false_ne_true, List.append_nil, hn]
  | true =>
    refine Or.inr ⟨rest, by rw [if_pos rfl], hrest, ?_⟩
    exact closing_framing resp hclose n _

variable (Hash : Bytes → ℕ)

theorem sent_framed (s : HttpServer) (w : Surroundings) (resp : HttpResponse) (h : resp.Legible)
    (sent : List Request) (hs : s.Sent Hash w resp sent) : Framed resp (sent ++ ending resp) := by
  cases hs with
  | body hf => exact head_framed resp h _ w.order resp.body_ [] rfl (by simp)
  | copy sf data hf hsmall hc => exact head_framed resp h _ w.order data [] rfl (by simp)
  | file sf content hf hd hmiss =>
    have hframed := head_framed resp h sf.getFileSize w.order []
      [.sendFile ⟨content, sf.offset_, sf.getFileSize⟩]
      (by simp [bodySize, Request.size, Context.ofFile_remaining, StaticFile.getFileSize])
      (by simp)
    rwa [List.append_nil] at hframed

omit Hash in
theorem readHead_unknown (resp : HttpResponse) (hcode : resp.stateCode_ = .kUnknown)
    (hmsg : TextBytes resp.statusMessage_) (n : ℕ) (order : HeaderOrder) (rest : Bytes) :
    readHead (resp.headText n order ++ rest) = none := by
  have htext : resp.statusText = bytes "HTTP/1.1 -1 " ++ resp.statusMessage_ := by
    rw [HttpResponse.statusText, hcode]
    rfl
  have hversion : ∀ c ∈ bytes "HTTP/1.1 -1 ", c ≠ CR := by decide +kernel
  have hline : ∀ c ∈ resp.statusText, c ≠ CR := by
    intro c hc
    rw [htext] at hc
    rcases List.mem_append.mp hc with hc | hc
    · exact hversion c hc
    · exact (hmsg c hc).1
  have hdigits : ((resp.statusText.drop 9).take 3).all isdigit = false := by
    rw [htext]
    rfl
  rw [HttpResponse.headText, List.append_assoc, List.append_assoc, readHead,
    readLine_text _ _ hline]
  change (readStatus resp.statusText).bind _ = _
  rw [readStatus, if_neg (fun h => by simp [hdigits] at h)]
  rfl

theorem sent_unframed (s : HttpServer) (w : Surroundings) (resp : HttpResponse)
    (hcode : resp.stateCode_ = .kUnknown) (hmsg : TextBytes resp.statusMessage_)
    (sent later : List Request) (hs : s.Sent Hash w resp sent) : ¬ Framed resp (sent ++ later) := by
  have hfirst : ∃ n tail rest, sent = .send (resp.headText n w.order ++ tail)::rest := by
    cases hs with
    | body hf => exact ⟨_, _, [], rfl⟩
    | copy sf data hf hsmall hc => exact ⟨_, _, [], rfl⟩
    | file sf content hf hd hmiss => exact ⟨sf.getFileSize, [], [_], by rw [List.append_nil]⟩
  obtain ⟨n, tail, rest, rfl⟩ := hfirst
  rintro ⟨data, rest', head, body, hcalls, hread, -⟩
  obtain ⟨hdata, -⟩ := List.cons.inj hcalls
  rw [← Request.send.inj hdata, readHead_unknown resp hcode hmsg] at hread
  exact absurd hread (by simp)

omit Hash in
theorem answer_file (s : HttpServer) (request : HttpRequest) (file : NamedFile)
    (h : s.router_.matchRoute request.method_ request.path_ = some (.file file)) :
    (s.answer request).stateCode_ = .kUnknown ∧ (s.answer request).statusMessage_ = [] ∧
      (s.answer request).file_ = some file := by
  have ha : s.answer request = handleFile file request (newResponse request) := by
    rw [answer, Router.handleRequest, h]
    rfl
  rw [ha]
  exact ⟨rfl, rfl, rfl⟩

omit Hash in
theorem answer_legible (s : HttpServer) (regs : List Registration)
    (hrouter : s.router_ = Router.build regs)
    (hregs : ∀ handler, Registered regs handler → Decent handler) (request : HttpRequest)
    (hno : ¬ FileRoute s.router_ request) : (s.answer request).Legible := by
  unfold answer Router.handleRequest
  cases hm : s.router_.matchRoute request.method_ request.path_ with
  | none => exact ⟨show HttpStateCode.k404NotFound ≠ .kUnknown by decide,
      show TextBytes (bytes "Not Found") by decide +kernel, fun h hh => absurd hh List.not_mem_nil⟩
  | some handler =>
    cases handler with
    | file file => exact absurd ⟨file, hm⟩ hno
    | user handler =>
      have hreg := build_honest regs request.method_ request.path_ handler (hrouter ▸ hm)
      exact (hregs handler hreg request _).1

/-- What is queued for a request is one framed response if and only if the
route is not that of a file and the file of the response can be had. -/
theorem onRequest_framed_iff (regs : List Registration)
    (hregs : ∀ handler, Registered regs handler → Decent handler)
    (served : List (HttpRequest × Surroundings)) (s : HttpServer)
    (hs : serve Hash regs served = .ok s) (w : Surroundings) (request : HttpRequest) :
    (∃ calls s', s.onRequest Hash w request = .ok (calls, s') ∧
        Framed (s.answer request) calls) ↔
      ¬ FileRoute (Router.build regs) request ∧
        ∀ sf, (s.answer request).file_ = some sf → s.Available Hash w sf := by
  obtain ⟨hrouter, hholds⟩ := serve_holds Hash regs served (fun _ _ => True)
    (fun _ _ _ _ _ _ _ _ => trivial) s hs
  have hloads : s.Loads (fun _ _ => True) w request := fun _ _ _ _ _ => trivial
  rw [← hrouter, ← onRequest_returns_iff Hash s _ hholds w request hloads]
  constructor
  · rintro ⟨calls, s', hok, hframed⟩
    obtain ⟨-, -, sent, hsent, rfl⟩ := onRequest_spec Hash s s' _ hholds w request hloads calls hok
    refine ⟨?_, _, s', hok⟩
    rintro ⟨file, hm⟩
    obtain ⟨hcode, hmsg, -⟩ := answer_file s request file hm
    refine sent_unframed Hash s w _ hcode ?_ sent _ hsent hframed
    rw [hmsg]
    exact fun c hc => absurd hc List.not_mem_nil
  · rintro ⟨hno, calls, s', hok⟩
    obtain ⟨-, -, sent, hsent, rfl⟩ := onRequest_spec Hash s s' _ hholds w request hloads calls hok
    exact ⟨_, s', hok, sent_framed Hash s w _ (answer_legible s regs hrouter hregs request hno)
      sent hsent⟩

def greet (_request : HttpRequest) (rep : HttpResponse) : HttpResponse :=
  (((rep.setStatusCode .k200Ok).setStatusMessage (bytes "OK")).setContentType
    (bytes "text/plain")).setBody (bytes "hello")

theorem greet_decent : Decent greet := by
  intro request close
  have hentries : (greet request { closeConnection_ := close }).headers_.entries =
      [⟨bytes "Content-Type", bytes "text/plain"⟩] := rfl
  refine ⟨⟨show HttpStateCode.k200Ok ≠ .kUnknown by decide,
    show TextBytes (bytes "OK") by decide +kernel, ?_⟩, ?_, ?_⟩
  · intro h hh
    rw [hentries] at hh
    obtain rfl := List.mem_singleton.mp hh
    decide +kernel
  · change kContentLength ∉ List.keys _
    rw [hentries]
    decide +kernel
  · change kConnection ∉ List.keys _
    rw [hentries]
    decide +kernel

def getRoot : HttpRequest where
  method_ := .kGet
  path_ := bytes "/"
  version_ := .kHttp11

def rootFile : NamedFile where
  path_ := bytes "index.html"
  offset_ := 0
  fileSize_ := 5

def oneFile (content : Bytes) : Surroundings where
  disk := fun _ => some content
  order := .stored
  onGet := .forward
  onPut := .forward

theorem onRequest_framed_iff_greet : ∃ s, serve List.length [.get (bytes "/") greet] [] = .ok s ∧
    ∃ calls s', s.onRequest List.length (oneFile []) getRoot = .ok (calls, s') ∧
      Framed (s.answer getRoot) calls := by
  have hregs : ∀ handler, Registered [.get (bytes "/") greet] handler → Decent handler := by
    rintro handler ⟨uri, hm | hm⟩
    · obtain ⟨-, rfl⟩ := Registration.get.inj (List.mem_singleton.mp hm)
      exact greet_decent
    · exact absurd (List.mem_singleton.mp hm) (by simp)
  have hs : serve List.length [.get (bytes "/") greet] [] = .ok {
      router_ := Router.build [.get (bytes "/") greet]
      fileCache_ := freshCache } := by
    rw [serve, create_ok]
    rfl
  have hroute : (Router.build [.get (bytes "/") greet]).matchRoute getRoot.method_ getRoot.path_ =
      some (.user greet) := rfl
  refine ⟨_, hs, (onRequest_framed_iff List.length _ hregs [] _ hs (oneFile []) getRoot).mpr
    ⟨?_, ?_⟩⟩
  · rintro ⟨file, hm⟩
    exact absurd (hroute.symm.trans hm) (by simp)
  · intro sf hsf
    rw [answer, Router.handleRequest, hroute] at hsf
    exact absurd hsf (by simp [RouterHandler.call, greet, HttpResponse.setBody,
      HttpResponse.setContentType, HttpResponse.addHeader, HttpResponse.setStatusMessage,
      HttpResponse.setStatusCode, newResponse])

theorem fileRoute_available (regs : List Registration) (request : HttpRequest) (file : NamedFile)
    (hm : (Router.build regs).matchRoute request.method_ request.path_ = some (.file file))
    (content : Bytes) (w : Surroundings) (hd : w.disk file.path = some content) :
    ∀ sf, (answer ⟨Router.build regs, freshCache⟩ request).file_ = some sf →
      HttpServer.Available Hash ⟨Router.build regs, freshCache⟩ w sf := by
  intro sf hsf
  obtain ⟨-, -, hfile⟩ := answer_file ⟨Router.build regs, freshCache⟩ request file hm
  obtain rfl := Option.some.inj (hfile.symm.trans hsf)
  unfold Available
  split
  · obtain ⟨cache, hput, -, -⟩ := freshCache_put Hash file.path (loaded content file.getFileSize)
      w.onPut
    rw [if_pos (freshCache_cached Hash regs file.path)]
    exact ⟨content, hd, by rw [hput]; simp⟩
  · rw [hd]
    simp

/-- The front page as a file: the answer has no status code. -/
theorem onRequest_unframed_file : ∃ s calls s',
    serve List.length [.file (bytes "/") rootFile] [] = .ok s ∧
      s.onRequest List.length (oneFile (bytes "hello")) getRoot = .ok (calls, s') ∧
      ¬ Framed (s.answer getRoot) calls := by
  have hroute : (Router.build [.file (bytes "/") rootFile]).matchRoute getRoot.method_
      getRoot.path_ = some (.file rootFile) := rfl
  have hs : serve List.length [.file (bytes "/") rootFile] [] = .ok {
      router_ := Router.build [.file (bytes "/") rootFile]
      fileCache_ := freshCache } := by
    rw [serve, create_ok]
    rfl
  have hholds := create_holds List.length [.file (bytes "/") rootFile] (fun _ _ => True)
  obtain ⟨calls, s', hok⟩ := (onRequest_returns_iff List.length _ _ hholds
    (oneFile (bytes "hello")) getRoot (fun _ _ _ _ _ => trivial)).mpr
    (fileRoute_available List.length _ getRoot rootFile hroute (bytes "hello") _ rfl)
  obtain ⟨-, -, sent, hsent, rfl⟩ := onRequest_spec List.length _ s' _ hholds _ getRoot
    (fun _ _ _ _ _ => trivial) calls hok
  obtain ⟨hcode, hmsg, -⟩ :=
    answer_file ⟨Router.build _, freshCache⟩ getRoot rootFile hroute
  refine ⟨_, _, s', hs, hok, sent_unframed List.length _ _ _ hcode ?_ sent _ hsent⟩
  rw [hmsg]
  exact fun c hc => absurd hc List.not_mem_nil

end HttpServer
end MuServer
