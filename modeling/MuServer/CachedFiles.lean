import MuServer.ResponseFraming

/-!
# Files from the cache

A hit answers with the bytes that the cache holds under the path, a miss with
the bytes that the route names. The cache holds the begin of the file, as long
as the route that loaded it says, so the two agree exactly when that is also
the part of the file that the route asks for.
-/

set_option autoImplicit false

namespace MuServer

def Request.payload : Request → Bytes
  | .send data => Context.payload (.data (.ofData data))
  | .sendFile file => Context.payload (.file (.ofFile file))
  | .shutdown => []

def queuedBytes (calls : List Request) : Bytes := calls.flatMap Request.payload

namespace HttpServer

def Offers (router : Router) (f : NamedFile) : Prop :=
  ∃ request, (router.handleRequest request (newResponse request)).file_ = some f

variable (Hash : Bytes → ℕ)

/-- Whatever has been served before, `request` queues the same bytes with the
path of `file` in the cache as without it. -/
def HitsMatch (regs : List Registration) (disk : Bytes → Option Bytes) (request : HttpRequest)
    (file : NamedFile) : Prop :=
  ∀ (served served' : List (HttpRequest × Surroundings)) (s s' : HttpServer)
    (w w' : Surroundings),
    (∀ r ∈ served, r.2.disk = disk) → (∀ r ∈ served', r.2.disk = disk) →
    w.disk = disk → w'.disk = disk →
    serve Hash regs served = .ok s → serve Hash regs served' = .ok s' →
    s.cached Hash file.path ≠ none → s'.cached Hash file.path = none →
    ∀ calls calls' t t', s.onRequest Hash w request = .ok (calls, t) →
      s'.onRequest Hash w' request = .ok (calls', t') → queuedBytes calls = queuedBytes calls'

def Copies (regs : List Registration) (disk : Bytes → Option Bytes) (path data : Bytes) : Prop :=
  ∃ f content, Offers (Router.build regs) f ∧ f.path = path ∧
    f.getFileSize ≤ MAX_CHACHE_FILE_SIZE ∧ disk path = some content ∧
    data = loaded content f.getFileSize

theorem serve_copies (regs : List Registration) (disk : Bytes → Option Bytes)
    (served : List (HttpRequest × Surroundings)) (hd : ∀ r ∈ served, r.2.disk = disk)
    (s : HttpServer) (hs : serve Hash regs served = .ok s) :
    s.router_ = Router.build regs ∧ s.Holds Hash (Copies regs disk) := by
  refine serve_holds Hash regs served _ (fun r hr cache sf content hf hsmall hopen => ?_) s hs
  rw [hd r hr] at hopen
  exact ⟨sf, content, ⟨r.1, hf⟩, rfl, hsmall, hopen, rfl⟩

omit Hash in
theorem loads_copies (regs : List Registration) (s : HttpServer)
    (hs : s.router_ = Router.build regs) (w : Surroundings) (request : HttpRequest) :
    s.Loads (Copies regs w.disk) w request := by
  intro sf content hf hsmall hopen
  rw [answer, hs] at hf
  exact ⟨sf, content, ⟨request, hf⟩, rfl, hsmall, hopen, rfl⟩

omit Hash in
theorem queuedBytes_ending (resp : HttpResponse) (sent : List Request) :
    queuedBytes (sent ++ ending resp) = queuedBytes sent := by
  unfold ending
  split <;> simp [queuedBytes, Request.payload]

theorem fileRoute_fields (s : HttpServer) (request : HttpRequest) (file : NamedFile)
    (h : s.router_.matchRoute request.method_ request.path_ = some (.file file))
    (order : HeaderOrder) :
    (s.answer request).fields order = [(bytes "Content-Type", file.getTypeString)] := by
  have ha : s.answer request = handleFile file request (newResponse request) := by
    rw [answer, Router.handleRequest, h]
    rfl
  have hentries : (s.answer request).headers_.entries =
      [⟨bytes "Content-Type", file.getTypeString⟩] := by
    rw [ha]
    rfl
  have hperm := order.perm (s.answer request).headers_.entries
  rw [hentries] at hperm
  rw [HttpResponse.fields, hentries, List.perm_singleton.mp hperm]
  rfl

theorem headText_split (resp : HttpResponse) (order order' : HeaderOrder) (m n : ℕ)
    (hfields : resp.fields order = resp.fields order') (body body' : Bytes)
    (h : resp.headText m order ++ body = resp.headText n order' ++ body') : body = body' := by
  have hlength : resp.framing m = resp.framing n → body = body' := by
    intro hf
    unfold HttpResponse.headText at h
    rw [hf, hfields] at h
    exact List.append_cancel_left h
  cases hclose : resp.closeConnection_ with
  | true =>
    refine hlength ?_
    rw [HttpResponse.framing, HttpResponse.framing, hclose, if_pos rfl, if_pos rfl]
  | false =>
    refine hlength ?_
    have hopen : ∀ k, resp.framing k =
        [(kContentLength, decimal k), (kConnection, bytes "Keep-Alive")] := by
      intro k
      rw [HttpResponse.framing, hclose, if_neg Bool.false_ne_true]
    simp only [HttpResponse.headText, hopen, List.cons_append, List.flatMap_cons, headerText,
      List.append_assoc] at h
    have h' := List.append_cancel_left (List.append_cancel_left (List.append_cancel_left h))
    have hdec : decimal m ++ (kCRLF ++ _) = decimal n ++ (kCRLF ++ _) :=
      (List.append_right_inj [byte ':', byte ' ']).mp h'
    have hline := congrArg readLine hdec
    rw [readLine_text _ _ (fun c hc => (decimal_text m c hc).1),
      readLine_text _ _ (fun c hc => (decimal_text n c hc).1)] at hline
    have he := (Prod.mk.inj (Option.some.inj hline)).1
    rw [hopen, hopen, he]

theorem hit_bytes (s t : HttpServer) (P : Bytes → Bytes → Prop) (h : s.Holds Hash P)
    (w : Surroundings) (request : HttpRequest) (hP : s.Loads P w request) (file : NamedFile)
    (hroute : s.router_.matchRoute request.method_ request.path_ = some (.file file))
    (hsmall : file.getFileSize ≤ MAX_CHACHE_FILE_SIZE) (data : Bytes)
    (hc : s.cached Hash file.path = some data) (calls : List Request)
    (hok : s.onRequest Hash w request = .ok (calls, t)) :
    queuedBytes calls = (s.answer request).headText data.length w.order ++ data := by
  obtain ⟨-, -, sent, hsent, rfl⟩ := onRequest_spec Hash s t P h w request hP calls hok
  obtain ⟨-, -, hfile⟩ := answer_file s request file hroute
  rw [queuedBytes_ending]
  cases hsent with
  | body hf => exact absurd (hfile.symm.trans hf) (by simp)
  | copy sf data' hf _ hc' =>
    obtain rfl := Option.some.inj (hfile.symm.trans hf)
    obtain rfl := Option.some.inj (hc.symm.trans hc')
    simp [queuedBytes, Request.payload, Context.ofData_payload]
  | file sf content hf hd hmiss =>
    obtain rfl := Option.some.inj (hfile.symm.trans hf)
    exact absurd (hc.symm.trans (hmiss hsmall)) (by simp)

/-- Without a copy in the cache the part of the file that the route names is queued. -/
theorem miss_bytes (s t : HttpServer) (P : Bytes → Bytes → Prop) (h : s.Holds Hash P)
    (w : Surroundings) (request : HttpRequest) (hP : s.Loads P w request) (file : NamedFile)
    (hroute : s.router_.matchRoute request.method_ request.path_ = some (.file file))
    (content : Bytes) (hd : w.disk file.path = some content)
    (hc : s.cached Hash file.path = none) (calls : List Request)
    (hok : s.onRequest Hash w request = .ok (calls, t)) :
    queuedBytes calls = (s.answer request).headText file.getFileSize w.order ++
      (content.drop file.offset_).take file.getFileSize := by
  obtain ⟨-, -, sent, hsent, rfl⟩ := onRequest_spec Hash s t P h w request hP calls hok
  obtain ⟨-, -, hfile⟩ := answer_file s request file hroute
  rw [queuedBytes_ending]
  cases hsent with
  | body hf => exact absurd (hfile.symm.trans hf) (by simp)
  | copy sf data hf _ hc' =>
    obtain rfl := Option.some.inj (hfile.symm.trans hf)
    exact absurd (hc.symm.trans hc') (by simp)
  | file sf content' hf hd' _ =>
    obtain rfl := Option.some.inj (hfile.symm.trans hf)
    obtain rfl := Option.some.inj (hd.symm.trans hd')
    simp [queuedBytes, Request.payload, Context.ofData_payload, Context.ofFile_payload,
      StaticFile.payload]

def onDisk (disk : Bytes → Option Bytes) : Surroundings where
  disk := disk
  order := .stored
  onGet := .forward
  onPut := .forward

/-- One request brings the file of its response into a fresh cache. -/
theorem serve_loads (regs : List Registration) (disk : Bytes → Option Bytes)
    (request : HttpRequest) (f : NamedFile)
    (hf : ((Router.build regs).handleRequest request (newResponse request)).file_ = some f)
    (hsmall : f.getFileSize ≤ MAX_CHACHE_FILE_SIZE) (content : Bytes)
    (hd : disk f.path = some content) :
    ∃ s, serve Hash regs [(request, onDisk disk)] = .ok s ∧
      s.cached Hash f.path = some (loaded content f.getFileSize) ∧
      ∀ it, s.fileCache_.get Hash f.path it ≠ .error .overflow := by
  obtain ⟨cache, hput, hvalue, hget⟩ := freshCache_put Hash f.path
    (loaded content f.getFileSize) (onDisk disk).onPut
  have hresp : (answer ⟨Router.build regs, freshCache⟩ request).file_ = some f := hf
  have hstatic : (answer ⟨Router.build regs, freshCache⟩ request).isStaticFile = true := by
    rw [HttpResponse.isStaticFile, HttpResponse.isStaticFile_eq, hresp]
    rfl
  have hsend := sendStaticFile_reload Hash ⟨Router.build regs, freshCache⟩ _
    (create_holds Hash regs (fun _ _ => True)) (onDisk disk) _ f hresp hsmall
    (freshCache_cached Hash regs f.path) content hd
  rw [hput] at hsend
  have hdeliver : deliver Hash ⟨Router.build regs, freshCache⟩ (onDisk disk)
      (answer ⟨Router.build regs, freshCache⟩ request) =
        sendStaticFile Hash ⟨Router.build regs, freshCache⟩ (onDisk disk)
          (answer ⟨Router.build regs, freshCache⟩ request) f := by
    rw [deliver, if_pos hstatic, hresp]
  have hok := (onRequest_ok_iff Hash ⟨Router.build regs, freshCache⟩ ⟨Router.build regs, cache⟩
    (onDisk disk) request _).mpr ⟨_, hdeliver.trans hsend, rfl⟩
  refine ⟨⟨Router.build regs, cache⟩, ?_, ?_, hget⟩
  · rw [serve, create_ok]
    simp only [bind, Except.bind, serveAll, hok]
  · rw [cached, hvalue]
    rfl

/-- When hits match, every copy that may be loaded is what the route names. -/
theorem hitsMatch_loaded (regs : List Registration) (disk : Bytes → Option Bytes)
    (request : HttpRequest) (file : NamedFile)
    (hroute : (Router.build regs).matchRoute request.method_ request.path_ = some (.file file))
    (hsmall : file.getFileSize ≤ MAX_CHACHE_FILE_SIZE) (content : Bytes)
    (hd : disk file.path = some content) (h : HitsMatch Hash regs disk request file)
    (f : NamedFile) (hf : Offers (Router.build regs) f) (hpath : f.path = file.path)
    (hfs : f.getFileSize ≤ MAX_CHACHE_FILE_SIZE) :
    loaded content f.getFileSize = (content.drop file.offset_).take file.getFileSize := by
  obtain ⟨first, hfirst⟩ := hf
  obtain ⟨s, hs, hc, hget⟩ := serve_loads Hash regs disk first f hfirst hfs content
    (by rw [hpath, hd])
  rw [hpath] at hc hget
  have hfresh : serve Hash regs [] = .ok ⟨Router.build regs, freshCache⟩ := by
    rw [serve, create_ok]
    rfl
  obtain ⟨hrouter, hholds⟩ := serve_copies Hash regs disk [(first, onDisk disk)] (by simp [onDisk])
    s hs
  have hholds' := create_holds Hash regs (Copies regs disk)
  have hroute' : s.router_.matchRoute request.method_ request.path_ = some (.file file) := by
    rw [hrouter, hroute]
  have hloads := loads_copies regs s hrouter (onDisk disk) request
  have hloads' := loads_copies regs ⟨Router.build regs, freshCache⟩ rfl (onDisk disk) request
  obtain ⟨calls, t, hok⟩ := (onRequest_returns_iff Hash s _ hholds (onDisk disk) request
    hloads).mpr (fun sf hsf => by
      obtain ⟨-, -, hfile⟩ := answer_file s request file hroute'
      obtain rfl := Option.some.inj (hfile.symm.trans hsf)
      rw [Available, if_pos hsmall, if_neg (by simp [hc])]
      exact hget _)
  obtain ⟨calls', t', hok'⟩ := (onRequest_returns_iff Hash ⟨Router.build regs, freshCache⟩ _
    hholds' (onDisk disk) request hloads').mpr
    (fileRoute_available Hash regs request file hroute content (onDisk disk) hd)
  have heq := h [(first, onDisk disk)] [] s ⟨Router.build regs, freshCache⟩ (onDisk disk)
    (onDisk disk) (by simp [onDisk]) (by simp) rfl rfl hs hfresh (by simp [hc])
    (freshCache_cached Hash regs file.path) calls calls' t t' hok hok'
  rw [hit_bytes Hash s t _ hholds (onDisk disk) request hloads file hroute' hsmall _ hc calls hok,
    miss_bytes Hash _ t' _ hholds' (onDisk disk) request hloads' file hroute content hd
      (freshCache_cached Hash regs file.path) calls' hok'] at heq
  have hsame : s.answer request = answer ⟨Router.build regs, freshCache⟩ request := by
    rw [answer, answer, hrouter]
  rw [hsame] at heq
  exact headText_split _ _ _ _ _ rfl _ _ heq

/-- Hits and misses of a file route agree if and only if what any route of the
same path loads is what the route names. -/
theorem hitsMatch_iff (regs : List Registration) (disk : Bytes → Option Bytes)
    (request : HttpRequest) (file : NamedFile)
    (hroute : (Router.build regs).matchRoute request.method_ request.path_ = some (.file file))
    (hsmall : file.getFileSize ≤ MAX_CHACHE_FILE_SIZE) (content : Bytes)
    (hd : disk file.path = some content)
    (hlong : file.offset_+file.getFileSize ≤ content.length) :
    HitsMatch Hash regs disk request file ↔
      ∀ f, Offers (Router.build regs) f → f.path = file.path →
        f.getFileSize ≤ MAX_CHACHE_FILE_SIZE →
        loaded content f.getFileSize = (content.drop file.offset_).take file.getFileSize := by
  refine ⟨fun h f hf hpath hfs => hitsMatch_loaded Hash regs disk request file hroute hsmall
    content hd h f hf hpath hfs, fun h => ?_⟩
  intro served served' s s' w w' hdisk hdisk' hw hw' hs hs' hhit hmiss calls calls' t t' hok hok'
  obtain ⟨hrouter, hholds⟩ := serve_copies Hash regs disk served hdisk s hs
  obtain ⟨hrouter', hholds'⟩ := serve_copies Hash regs disk served' hdisk' s' hs'
  obtain ⟨data, hc⟩ := Option.ne_none_iff_exists'.mp hhit
  obtain ⟨f, content', hf, hpath, hfs, hd', rfl⟩ := cached_holds Hash s _ hholds file.path data hc
  obtain rfl := Option.some.inj (hd.symm.trans hd')
  have hroute1 : s.router_.matchRoute request.method_ request.path_ = some (.file file) := by
    rw [hrouter, hroute]
  have hroute2 : s'.router_.matchRoute request.method_ request.path_ = some (.file file) := by
    rw [hrouter', hroute]
  have hdata := h f hf hpath hfs
  have hlen : ((content.drop file.offset_).take file.getFileSize).length = file.getFileSize := by
    rw [List.length_take, List.length_drop]
    omega
  have hsame : s.answer request = s'.answer request := by
    rw [answer, answer, hrouter, hrouter']
  have hfields : (s'.answer request).fields w.order = (s'.answer request).fields w'.order := by
    rw [fileRoute_fields s' request file hroute2, fileRoute_fields s' request file hroute2]
  rw [hit_bytes Hash s t _ hholds w request (hw ▸ loads_copies regs s hrouter w request) file
      hroute1 hsmall _ hc calls hok,
    miss_bytes Hash s' t' _ hholds' w' request (hw' ▸ loads_copies regs s' hrouter' w' request) file
      hroute2
      content (by rw [hw', hd]) hmiss calls' hok', hdata, hlen, hsame]
  unfold HttpResponse.headText
  rw [hfields]

omit Hash in
theorem offers_single (uri : Bytes) (file f : NamedFile)
    (h : Offers (Router.build [.file uri file]) f) : f = file := by
  obtain ⟨request, hf⟩ := h
  have hroute : ∀ handler, (Router.build [.file uri file]).matchRoute request.method_
      request.path_ = some handler → handler = .file file := by
    intro handler hm
    cases hmethod : request.method_ with
    | kGet =>
      rw [hmethod] at hm
      exact (emplace_lookup ∅ uri _ _ handler hm).resolve_left (by simp)
    | _ =>
      rw [hmethod] at hm
      exact absurd hm (by simp [Router.matchRoute, Router.build, Router.register, Router.file])
  unfold Router.handleRequest at hf
  cases hm : (Router.build [.file uri file]).matchRoute request.method_ request.path_ with
  | none =>
    rw [hm] at hf
    exact absurd hf (by simp [HttpResponse.setCloseConnection, HttpResponse.setStatusMessage,
      HttpResponse.setStatusCode, newResponse])
  | some handler =>
    rw [hm, hroute handler hm] at hf
    exact (Option.some.inj hf).symm

theorem hitsMatch_iff_root : HitsMatch List.length [.file (bytes "/") rootFile]
    (fun _ => some (bytes "hello")) getRoot rootFile := by
  refine (hitsMatch_iff List.length _ _ getRoot rootFile rfl (by decide) (bytes "hello") rfl
    (by decide)).mpr (fun f hf _ _ => ?_)
  obtain rfl := offers_single _ _ _ hf
  decide +kernel

def tailFile : NamedFile where
  path_ := bytes "data.bin"
  offset_ := 1
  fileSize_ := 2

/-- A hit answers with the begin of the file. -/
theorem hits_differ_tail : tailFile.offset_+tailFile.getFileSize ≤ (bytes "abc").length ∧
    tailFile.getFileSize ≤ MAX_CHACHE_FILE_SIZE ∧
    ¬ HitsMatch List.length [.file (bytes "/") tailFile] (fun _ => some (bytes "abc")) getRoot
      tailFile := by
  refine ⟨by decide, by decide, fun h => ?_⟩
  have hload := hitsMatch_loaded List.length [.file (bytes "/") tailFile]
    (fun _ => some (bytes "abc")) getRoot tailFile rfl (by decide) (bytes "abc") rfl h tailFile
    ⟨getRoot, rfl⟩ rfl (by decide)
  exact absurd hload (by decide +kernel)

end HttpServer
end MuServer
