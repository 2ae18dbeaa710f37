import MuServer.HashLFUCache
import MuServer.Router
import MuServer.TcpConnection

/-!
# Answering a request

`onRequest` routes the request and makes its calls of the connection: `send`,
`sendFile` and `shutdown`. A small file comes from the cache when its path is
there; otherwise the file is sent and its first bytes go into the cache. What
the paths name and the orders of the tables are parameters of each call.
-/

set_option autoImplicit false

namespace MuServer

def MAX_CHACHE_FILE_SIZE : ℕ := 1024*1024

abbrev FileCache := HashLFUCache Bytes (Option Bytes)

structure HttpServer where
  router_ : Router
  fileCache_ : FileCache

structure Surroundings where
  /-- what a path names, if it can be opened -/
  disk : Bytes → Option Bytes
  order : HeaderOrder
  onGet : Iteration Bytes
  onPut : Iteration Bytes

namespace Surroundings

def openFile (w : Surroundings) (file : NamedFile) : Except Fault StaticFile :=
  match w.disk file.path with
  | some content => .ok {
      content := content
      offset_ := file.offset_
      fileSize_ := file.getFileSize }
  | none => .error .fatal

end Surroundings

/-- A vector of `size` zeros with the begin of the file read into it. -/
def loaded (content : Bytes) (size : ℕ) : Bytes :=
  content.take size ++ List.replicate (size-content.length) 0

namespace HttpServer

def create (regs : List Registration) : Except Fault HttpServer := do
  let cache ← HashLFUCache.create 6 3 10 0
  .ok { router_ := Router.build regs, fileCache_ := cache }

def newResponse (request : HttpRequest) : HttpResponse :=
  let connection := request.getHeader kConnection
  { closeConnection_ := connection = bytes "close" ∨
      (request.version_ = .kHttp10 ∧ connection ≠ bytes "Keep-Alive") }

def answer (s : HttpServer) (request : HttpRequest) : HttpResponse :=
  s.router_.handleRequest request (newResponse request)

def sendBuffer (w : Surroundings) (resp : HttpResponse) : Except Fault (List Request) := do
  let buffer ← resp.appendToBuffer w.order (Buffer.create kInitialSize)
  .ok [.send buffer.readable]

def sendHeaderAndFile (w : Surroundings) (resp : HttpResponse) (sf : NamedFile) :
    Except Fault (List Request) := do
  let header ← resp.appendHeaderToBuffer w.order (Buffer.create kInitialSize)
  let file ← w.openFile sf
  .ok [.send header.readable, .sendFile file]

variable (Hash : Bytes → ℕ)

def reloadCache (w : Surroundings) (cache : FileCache) (sf : NamedFile) : Except Fault FileCache :=
  match w.disk sf.path with
  | some content => cache.put Hash sf.path (some (loaded content sf.getFileSize)) w.onPut
  | none => .ok cache

def sendStaticFile (s : HttpServer) (w : Surroundings) (resp : HttpResponse) (sf : NamedFile) :
    Except Fault (List Request × HttpServer) :=
  if sf.getFileSize ≤ MAX_CHACHE_FILE_SIZE then do
    let (content, cache) ← s.fileCache_.get Hash sf.path w.onGet
    match content with
    | some data =>
      let calls ← sendBuffer w (resp.setBody data)
      .ok (calls, { s with fileCache_ := cache })
    | none =>
      let calls ← sendHeaderAndFile w resp sf
      let cache ← reloadCache Hash w cache sf
      .ok (calls, { s with fileCache_ := cache })
  else do
    let calls ← sendHeaderAndFile w resp sf
    .ok (calls, s)

def deliver (s : HttpServer) (w : Surroundings) (resp : HttpResponse) :
    Except Fault (List Request × HttpServer) :=
  if resp.isStaticFile then
    match resp.file_ with
    | some sf => s.sendStaticFile Hash w resp sf
    | none => .error .nullPointer
  else do
    let calls ← sendBuffer w resp
    .ok (calls, s)

def onRequest (s : HttpServer) (w : Surroundings) (request : HttpRequest) :
    Except Fault (List Request × HttpServer) := do
  let resp := s.answer request
  let (calls, s) ← s.deliver Hash w resp
  .ok (calls ++ if resp.closeConnection then [.shutdown] else [], s)

def serveAll (s : HttpServer) : List (HttpRequest × Surroundings) → Except Fault HttpServer
  | [] => .ok s
  | r::rs => do
    let (_, s) ← s.onRequest Hash r.2 r.1
    s.serveAll rs

omit Hash in
theorem sendBuffer_ok (w : Surroundings) (resp : HttpResponse) :
    sendBuffer w resp = .ok [.send (resp.headText resp.body_.length w.order ++ resp.body_)] := by
  obtain ⟨b, hb, -, hr⟩ := HttpResponse.appendToBuffer_appends resp w.order _
    (Buffer.create_wf kInitialSize)
  rw [Buffer.create_readable, List.nil_append] at hr
  rw [sendBuffer, hb, ← hr]
  rfl

omit Hash in
theorem sendHeaderAndFile_ok (w : Surroundings) (resp : HttpResponse) (sf : NamedFile)
    (hf : resp.file_ = some sf) (content : Bytes) (hd : w.disk sf.path = some content) :
    sendHeaderAndFile w resp sf = .ok [.send (resp.headText sf.getFileSize w.order),
      .sendFile ⟨content, sf.offset_, sf.getFileSize⟩] := by
  obtain ⟨b, hb, -, hr⟩ := HttpResponse.appendHeaderToBuffer_appends resp sf hf w.order _
    (Buffer.create_wf kInitialSize)
  rw [Buffer.create_readable, List.nil_append] at hr
  rw [sendHeaderAndFile, hb, Surroundings.openFile, hd, ← hr]
  rfl

omit Hash in
theorem sendHeaderAndFile_fails (w : Surroundings) (resp : HttpResponse) (sf : NamedFile)
    (hf : resp.file_ = some sf) (hd : w.disk sf.path = none) :
    sendHeaderAndFile w resp sf = .error .fatal := by
  obtain ⟨b, hb, -, -⟩ := HttpResponse.appendHeaderToBuffer_appends resp sf hf w.order _
    (Buffer.create_wf kInitialSize)
  rw [sendHeaderAndFile, hb, Surroundings.openFile, hd]
  rfl

def Holds (s : HttpServer) (P : Bytes → Bytes → Prop) : Prop :=
  ∃ ops, s.fileCache_.Remembers Hash ops ∧
    ∀ key value, CacheOp.put key value ∈ ops → ∃ data, value = some data ∧ P key data

def cached (s : HttpServer) (path : Bytes) : Option Bytes :=
  (s.fileCache_.valueOf Hash path).getD none

theorem cached_eq (s : HttpServer) (P : Bytes → Bytes → Prop) (h : s.Holds Hash P) (path : Bytes) :
    s.fileCache_.valueOf Hash path = (s.cached Hash path).map some := by
  obtain ⟨ops, hr, hp⟩ := h
  unfold cached
  cases hv : s.fileCache_.valueOf Hash path with
  | none => rfl
  | some value =>
    obtain ⟨earlier, later, rfl, -, -⟩ := hr.values path value hv
    obtain ⟨data, rfl, -⟩ := hp path value (by simp)
    rfl

theorem cached_holds (s : HttpServer) (P : Bytes → Bytes → Prop) (h : s.Holds Hash P)
    (path data : Bytes) (hc : s.cached Hash path = some data) : P path data := by
  have hv := cached_eq Hash s P h path
  obtain ⟨ops, hr, hp⟩ := h
  rw [hc] at hv
  obtain ⟨earlier, later, rfl, -, -⟩ := hr.values path _ hv
  obtain ⟨data', he, hP⟩ := hp path (some data) (by simp)
  rwa [Option.some.inj he]

/-- A lookup that does not overflow finds the copy, if there is one. -/
theorem get_cached (s : HttpServer) (P : Bytes → Bytes → Prop) (h : s.Holds Hash P)
    (path : Bytes) (it : Iteration Bytes) :
    Lib.Fallible.Ends (fun f => f = .overflow) (s.fileCache_.get Hash path it) (fun r =>
      r.1 = s.cached Hash path ∧ HttpServer.Holds Hash ⟨s.router_, r.2⟩ P) := by
  obtain ⟨ops, hr, hp⟩ := h
  refine Lib.Fallible.ends_bind _ (HashLFUCache.get?_ends Hash _ ops hr path it) ?_
  rintro ⟨value, cache⟩ ⟨rfl, hr', -⟩
  refine Lib.Fallible.ends_ok _ _ _ ⟨rfl, ops ++ [.get path], hr', fun key value hm => ?_⟩
  rcases List.mem_append.mp hm with hm | hm
  · exact hp key value hm
  · exact absurd (List.mem_singleton.mp hm) (by simp)

theorem put_holds (s : HttpServer) (P : Bytes → Bytes → Prop) (h : s.Holds Hash P)
    (path data : Bytes) (hdata : P path data) (it : Iteration Bytes) :
    Lib.Fallible.Ends (fun f => f = .overflow) (s.fileCache_.put Hash path (some data) it)
      (fun cache => HttpServer.Holds Hash ⟨s.router_, cache⟩ P) := by
  obtain ⟨ops, hr, hp⟩ := h
  refine Lib.Fallible.ends_mono (HashLFUCache.put_ends Hash _ ops hr path (some data) it)
    (fun f hf => hf) ?_
  rintro cache ⟨hr', -⟩
  refine ⟨ops ++ [.put path (some data)], hr', fun key value hm => ?_⟩
  rcases List.mem_append.mp hm with hm | hm
  · exact hp key value hm
  · obtain ⟨rfl, rfl⟩ := CacheOp.put.inj (List.mem_singleton.mp hm)
    exact ⟨data, rfl, hdata⟩

theorem get_miss (s : HttpServer) (P : Bytes → Bytes → Prop) (h : s.Holds Hash P)
    (path : Bytes) (hc : s.cached Hash path = none) (it : Iteration Bytes) :
    s.fileCache_.get Hash path it = .ok (none, s.fileCache_) := by
  have hv := cached_eq Hash s P h path
  obtain ⟨ops, hr, -⟩ := h
  obtain ⟨c, hget, -, hslice, hvalue⟩ := HashLFUCache.slice_ok Hash _ ops hr path
  have hnone : c.nodeMap_.lookup path = none := by
    rw [hc, hvalue] at hv
    exact Option.map_eq_none_iff.mp hv
  have hsame : s.fileCache_.setSlice (s.fileCache_.sliceIndex Hash path) c = s.fileCache_ := by
    obtain ⟨hlt, rfl⟩ := List.getElem?_eq_some_iff.mp hget
    rw [HashLFUCache.setSlice, List.set_getElem_self hlt]
  rw [HashLFUCache.get, HashLFUCache.get?, hslice]
  change ((c.get? path it).bind _).bind _ = _
  rw [LFUCache.get?, hnone]
  change Except.ok (none, s.fileCache_.setSlice _ c) = _
  rw [hsame]

/-- The file can be had: it is in the cache or can be opened, and no counter of
the cache overflows. -/
def Available (s : HttpServer) (w : Surroundings) (sf : NamedFile) : Prop :=
  if sf.getFileSize ≤ MAX_CHACHE_FILE_SIZE then
    if s.cached Hash sf.path = none then
      ∃ content, w.disk sf.path = some content ∧ s.fileCache_.put Hash sf.path
        (some (loaded content sf.getFileSize)) w.onPut ≠ .error .overflow
    else s.fileCache_.get Hash sf.path w.onGet ≠ .error .overflow
  else w.disk sf.path ≠ none

inductive Sent (s : HttpServer) (w : Surroundings) (resp : HttpResponse) : List Request → Prop
  | body (hf : resp.file_ = none) :
      Sent s w resp [.send (resp.headText resp.body_.length w.order ++ resp.body_)]
  | copy (sf : NamedFile) (data : Bytes) (hf : resp.file_ = some sf)
      (hsmall : sf.getFileSize ≤ MAX_CHACHE_FILE_SIZE) (hc : s.cached Hash sf.path = some data) :
      Sent s w resp [.send (resp.headText data.length w.order ++ data)]
  | file (sf : NamedFile) (content : Bytes) (hf : resp.file_ = some sf)
      (hd : w.disk sf.path = some content)
      (hmiss : sf.getFileSize ≤ MAX_CHACHE_FILE_SIZE → s.cached Hash sf.path = none) :
      Sent s w resp [.send (resp.headText sf.getFileSize w.order),
        .sendFile ⟨content, sf.offset_, sf.getFileSize⟩]

inductive Delivery (s : HttpServer) (w : Surroundings) (resp : HttpResponse)
    (P : Bytes → Bytes → Prop) : Except Fault (List Request × HttpServer) → Prop
  | sent (calls : List Request) (cache : FileCache) (hs : s.Sent Hash w resp calls)
      (hh : HttpServer.Holds Hash ⟨s.router_, cache⟩ P)
      (ha : ∀ sf, resp.file_ = some sf → s.Available Hash w sf) :
      Delivery s w resp P (.ok (calls, ⟨s.router_, cache⟩))
  | failed (f : Fault) (sf : NamedFile) (hf : resp.file_ = some sf)
      (ha : ¬ s.Available Hash w sf) : Delivery s w resp P (.error f)

/-- A file that is not in the cache is sent and then brought into it. -/
theorem sendStaticFile_reload (s : HttpServer) (P : Bytes → Bytes → Prop) (h : s.Holds Hash P)
    (w : Surroundings) (resp : HttpResponse) (sf : NamedFile) (hf : resp.file_ = some sf)
    (hsmall : sf.getFileSize ≤ MAX_CHACHE_FILE_SIZE) (hc : s.cached Hash sf.path = none)
    (content : Bytes) (hd : w.disk sf.path = some content) :
    s.sendStaticFile Hash w resp sf = (s.fileCache_.put Hash sf.path
      (some (loaded content sf.getFileSize)) w.onPut).map (fun cache =>
        ([.send (resp.headText sf.getFileSize w.order),
          .sendFile ⟨content, sf.offset_, sf.getFileSize⟩], ⟨s.router_, cache⟩)) := by
  rw [sendStaticFile, if_pos hsmall, get_miss Hash s P h sf.path hc w.onGet]
  simp only [bind, Except.bind, sendHeaderAndFile_ok w resp sf hf content hd, reloadCache, hd]
  cases s.fileCache_.put Hash sf.path (some (loaded content sf.getFileSize)) w.onPut <;> rfl

theorem sendStaticFile_miss (s : HttpServer) (P : Bytes → Bytes → Prop) (h : s.Holds Hash P)
    (w : Surroundings) (resp : HttpResponse) (sf : NamedFile) (hf : resp.file_ = some sf)
    (hP : ∀ content, w.disk sf.path = some content → P sf.path (loaded content sf.getFileSize))
    (hsmall : sf.getFileSize ≤ MAX_CHACHE_FILE_SIZE) (hc : s.cached Hash sf.path = none) :
    s.Delivery Hash w resp P (s.sendStaticFile Hash w resp sf) := by
  have hav : s.Available Hash w sf ↔ ∃ content, w.disk sf.path = some content ∧
      s.fileCache_.put Hash sf.path (some (loaded content sf.getFileSize)) w.onPut ≠
        .error .overflow := by
    rw [Available, if_pos hsmall, if_pos hc]
  cases hd : w.disk sf.path with
  | none =>
    rw [sendStaticFile, if_pos hsmall, get_miss Hash s P h sf.path hc w.onGet]
    simp only [bind, Except.bind, sendHeaderAndFile_fails w resp sf hf hd]
    refine Delivery.failed _ sf hf (fun ha => ?_)
    obtain ⟨content, hd', -⟩ := hav.mp ha
    exact absurd (hd.symm.trans hd') (by simp)
  | some content =>
    rw [sendStaticFile_reload Hash s P h w resp sf hf hsmall hc content hd]
    have hput := put_holds Hash s P h sf.path _ (hP content hd) w.onPut
    cases hr : s.fileCache_.put Hash sf.path (some (loaded content sf.getFileSize)) w.onPut with
    | error f =>
      rw [hr] at hput
      obtain rfl : f = .overflow := hput
      refine Delivery.failed _ sf hf (fun ha => ?_)
      obtain ⟨content', hd', hne⟩ := hav.mp ha
      obtain rfl := Option.some.inj (hd.symm.trans hd')
      exact hne hr
    | ok cache =>
      rw [hr] at hput
      refine Delivery.sent _ cache (Sent.file sf content hf hd (fun _ => hc)) hput ?_
      intro sf' hf'
      obtain rfl := Option.some.inj (hf.symm.trans hf')
      exact hav.mpr ⟨content, hd, by rw [hr]; simp⟩

theorem sendStaticFile_hit (s : HttpServer) (P : Bytes → Bytes → Prop) (h : s.Holds Hash P)
    (w : Surroundings) (resp : HttpResponse) (sf : NamedFile) (hf : resp.file_ = some sf)
    (hsmall : sf.getFileSize ≤ MAX_CHACHE_FILE_SIZE) (data : Bytes)
    (hc : s.cached Hash sf.path = some data) :
    s.Delivery Hash w resp P (s.sendStaticFile Hash w resp sf) := by
  have hav : s.Available Hash w sf ↔
      s.fileCache_.get Hash sf.path w.onGet ≠ .error .overflow := by
    rw [Available, if_pos hsmall, if_neg (by simp [hc])]
  have hget := get_cached Hash s P h sf.path w.onGet
  rw [sendStaticFile, if_pos hsmall]
  cases hr : s.fileCache_.get Hash sf.path w.onGet with
  | error f =>
    rw [hr] at hget
    obtain rfl : f = .overflow := hget
    exact Delivery.failed _ sf hf (fun ha => hav.mp ha hr)
  | ok r =>
    obtain ⟨value, cache⟩ := r
    rw [hr] at hget
    obtain ⟨hvalue, hh⟩ := hget
    obtain rfl : value = some data := hvalue.trans hc
    simp only [bind, Except.bind, sendBuffer_ok]
    refine Delivery.sent _ cache (Sent.copy sf data hf hsmall hc) hh ?_
    intro sf' hf'
    obtain rfl := Option.some.inj (hf.symm.trans hf')
    exact hav.mpr (by rw [hr]; simp)

theorem deliver_spec (s : HttpServer) (P : Bytes → Bytes → Prop) (h : s.Holds Hash P)
    (w : Surroundings) (resp : HttpResponse)
    (hP : ∀ sf content, resp.file_ = some sf → sf.getFileSize ≤ MAX_CHACHE_FILE_SIZE →
      w.disk sf.path = some content → P sf.path (loaded content sf.getFileSize)) :
    s.Delivery Hash w resp P (s.deliver Hash w resp) := by
  unfold deliver HttpResponse.isStaticFile
  rw [resp.isStaticFile_eq]
  cases hf : resp.file_ with
  | none =>
    rw [if_neg (by simp), sendBuffer_ok]
    exact Delivery.sent _ s.fileCache_ (Sent.body hf) h (fun sf hsf =>
      absurd (hf.symm.trans hsf) (by simp))
  | some sf =>
    rw [if_pos (by simp)]
    change Delivery Hash s w resp P (s.sendStaticFile Hash w resp sf)
    by_cases hsmall : sf.getFileSize ≤ MAX_CHACHE_FILE_SIZE
    · cases hc : s.cached Hash sf.path with
      | none => exact sendStaticFile_miss Hash s P h w resp sf hf (fun content hd =>
          hP sf content hf hsmall hd) hsmall hc
      | some data => exact sendStaticFile_hit Hash s P h w resp sf hf hsmall data hc
    · have hav : s.Available Hash w sf ↔ w.disk sf.path ≠ none := by
        rw [Available, if_neg hsmall]
      rw [sendStaticFile, if_neg hsmall]
      cases hd : w.disk sf.path with
      | none =>
        rw [sendHeaderAndFile_fails w resp sf hf hd]
        exact Delivery.failed _ sf hf (fun ha => hav.mp ha hd)
      | some content =>
        rw [sendHeaderAndFile_ok w resp sf hf content hd]
        refine Delivery.sent _ s.fileCache_ (Sent.file sf content hf hd
          (fun hle => absurd hle hsmall)) h ?_
        intro sf' hf'
        obtain rfl := Option.some.inj (hf.symm.trans hf')
        exact hav.mpr (by rw [hd]; simp)

def ending (resp : HttpResponse) : List Request := if resp.closeConnection then [.shutdown] else []

theorem onRequest_ok_iff (s s' : HttpServer) (w : Surroundings) (request : HttpRequest)
    (calls : List Request) : s.onRequest Hash w request = .ok (calls, s') ↔
      ∃ sent, s.deliver Hash w (s.answer request) = .ok (sent, s') ∧
        calls = sent ++ ending (s.answer request) := by
  unfold onRequest
  cases hd : s.deliver Hash w (s.answer request) with
  | error f => simp [bind, Except.bind, hd]
  | ok r =>
    obtain ⟨sent, t⟩ := r
    simp only [bind, Except.bind, hd, Except.ok.injEq, Prod.mk.injEq]
    constructor
    · rintro ⟨rfl, rfl⟩
      exact ⟨sent, ⟨rfl, rfl⟩, rfl⟩
    · rintro ⟨sent', ⟨rfl, rfl⟩, rfl⟩
      exact ⟨rfl, rfl⟩

def Loads (s : HttpServer) (P : Bytes → Bytes → Prop) (w : Surroundings) (request : HttpRequest) :
    Prop :=
  ∀ sf content, (s.answer request).file_ = some sf → sf.getFileSize ≤ MAX_CHACHE_FILE_SIZE →
    w.disk sf.path = some content → P sf.path (loaded content sf.getFileSize)

theorem onRequest_spec (s s' : HttpServer) (P : Bytes → Bytes → Prop) (h : s.Holds Hash P)
    (w : Surroundings) (request : HttpRequest) (hP : s.Loads P w request) (calls : List Request)
    (hok : s.onRequest Hash w request = .ok (calls, s')) :
    s'.router_ = s.router_ ∧ s'.Holds Hash P ∧ ∃ sent, s.Sent Hash w (s.answer request) sent ∧
      calls = sent ++ ending (s.answer request) := by
  obtain ⟨sent, hd, rfl⟩ := (onRequest_ok_iff Hash s s' w request calls).mp hok
  have hspec := deliver_spec Hash s P h w (s.answer request) hP
  rw [hd] at hspec
  cases hspec with
  | sent _ cache hs hh ha => exact ⟨rfl, hh, sent, hs, rfl⟩

/-- A request is answered exactly when the file of its response can be had. -/
theorem onRequest_returns_iff (s : HttpServer) (P : Bytes → Bytes → Prop) (h : s.Holds Hash P)
    (w : Surroundings) (request : HttpRequest) (hP : s.Loads P w request) :
    (∃ calls s', s.onRequest Hash w request = .ok (calls, s')) ↔
      ∀ sf, (s.answer request).file_ = some sf → s.Available Hash w sf := by
  have hspec := deliver_spec Hash s P h w (s.answer request) hP
  generalize hd : s.deliver Hash w (s.answer request) = result at hspec
  cases hspec with
  | sent calls cache hs hh ha =>
    exact ⟨fun _ => ha, fun _ =>
      ⟨_, _, (onRequest_ok_iff Hash s _ w request _).mpr ⟨calls, hd, rfl⟩⟩⟩
  | failed f sf hf ha =>
    constructor
    · rintro ⟨calls, s', hok⟩
      obtain ⟨sent, hd', -⟩ := (onRequest_ok_iff Hash s s' w request calls).mp hok
      exact absurd (hd.symm.trans hd') (by simp)
    · exact fun hall => absurd (hall sf hf) ha

theorem serveAll_holds (s s' : HttpServer) (P : Bytes → Bytes → Prop) (h : s.Holds Hash P)
    (rs : List (HttpRequest × Surroundings)) (hP : ∀ r ∈ rs, s.Loads P r.2 r.1)
    (hs : s.serveAll Hash rs = .ok s') : s'.router_ = s.router_ ∧ s'.Holds Hash P := by
  induction rs generalizing s with
  | nil =>
    obtain rfl := Except.ok.inj hs
    exact ⟨rfl, h⟩
  | cons r rs ih =>
    unfold serveAll at hs
    cases hr : s.onRequest Hash r.2 r.1 with
    | error f => simp [bind, Except.bind, hr] at hs
    | ok q =>
      obtain ⟨calls, t⟩ := q
      obtain ⟨hrouter, ht, -⟩ := onRequest_spec Hash s t P h r.2 r.1 (hP r (by simp)) calls hr
      have hsame : ∀ request, t.answer request = s.answer request := by
        intro request
        rw [answer, answer, hrouter]
      simp only [bind, Except.bind, hr] at hs
      obtain ⟨hrouter', hs'⟩ := ih t ht (fun q hq sf content hf => by
        rw [hsame] at hf
        exact hP q (by simp [hq]) sf content hf) hs
      exact ⟨hrouter'.trans hrouter, hs'⟩

omit Hash in
def freshCache : FileCache where
  capacity_ := 6
  sliceNum_ := 3
  LFUSliceCaches_ := List.replicate 3 (LFUCache.create 2 10)

omit Hash in
theorem freshCache_created : HashLFUCache.create 6 3 10 0 = .ok freshCache := by
  have hsize : HashLFUCache.sliceSize 6 3 = .ok 2 :=
    HashLFUCache.sliceSize_even 2 3 (by decide) (by decide)
  rw [HashLFUCache.create]
  simp only [show (0 : ℤ) < 3 by decide, if_true, hsize]
  rfl

omit Hash in
theorem create_ok (regs : List Registration) :
    create regs = .ok { router_ := Router.build regs, fileCache_ := freshCache } := by
  rw [create, freshCache_created]
  rfl

theorem create_holds (regs : List Registration) (P : Bytes → Bytes → Prop) :
    HttpServer.Holds Hash { router_ := Router.build regs, fileCache_ := freshCache } P :=
  ⟨[], HashLFUCache.create_remembers Hash 6 3 10 0 (by decide) (by decide) _ freshCache_created,
    by simp⟩

def serve (regs : List Registration) (rs : List (HttpRequest × Surroundings)) :
    Except Fault HttpServer := do
  let s ← create regs
  s.serveAll Hash rs

theorem serve_holds (regs : List Registration) (rs : List (HttpRequest × Surroundings))
    (P : Bytes → Bytes → Prop)
    (hP : ∀ r ∈ rs, ∀ cache, HttpServer.Loads ⟨Router.build regs, cache⟩ P r.2 r.1) (s : HttpServer)
    (hs : serve Hash regs rs = .ok s) : s.router_ = Router.build regs ∧ s.Holds Hash P := by
  rw [serve, create_ok] at hs
  exact serveAll_holds Hash _ s P (create_holds Hash regs P) rs (fun r hr => hP r hr freshCache) hs

theorem freshCache_cached (regs : List Registration) (path : Bytes) :
    HttpServer.cached Hash { router_ := Router.build regs, fileCache_ := freshCache } path =
      none := by
  have hh := create_holds Hash regs (fun _ _ => False)
  cases hc : HttpServer.cached Hash ⟨Router.build regs, freshCache⟩ path with
  | none => rfl
  | some data => exact (cached_holds Hash _ _ hh path data hc).elim

theorem freshCache_put (path data : Bytes) (it : Iteration Bytes) :
    ∃ cache, freshCache.put Hash path (some data) it = .ok cache ∧
      cache.valueOf Hash path = some (some data) ∧
      ∀ it', cache.get Hash path it' ≠ .error .overflow := by
  have hsound : (LFUCache.create 2 10 : LFUCache Bytes (Option Bytes)).Sound :=
    LFUCache.create_sound 2 (by decide) 10 (by decide) (by decide)
  have hl : (LFUCache.create 2 10 : LFUCache Bytes (Option Bytes)).nodeMap_.lookup path = none :=
    rfl
  have hlt : freshCache.sliceIndex Hash path < 3 := Nat.mod_lt _ (by decide)
  have hget : freshCache.LFUSliceCaches_[freshCache.sliceIndex Hash path]? =
      some (LFUCache.create 2 10) := by
    exact (List.getElem?_replicate).trans (if_pos hlt)
  have hslice : freshCache.slice (freshCache.sliceIndex Hash path) =
      .ok (LFUCache.create 2 10) := by
    rw [HashLFUCache.slice, hget]
  have hcalm : (LFUCache.create 2 10 : LFUCache Bytes (Option Bytes)).curTotalFreq_ ≠ INT_MAX :=
    show (0 : ℤ) ≠ INT_MAX by decide
  obtain ⟨c, hput, hstored⟩ := LFUCache.put_roomy _ hsound (show 0 < 2 by decide) path (some data)
    hl hcalm it
  refine ⟨freshCache.setSlice (freshCache.sliceIndex Hash path) c, ?_, ?_, fun it' he => ?_⟩
  · rw [HashLFUCache.put, hslice]
    simp only [bind, Except.bind, hput]
  · rw [HashLFUCache.setSlice_valueOf Hash freshCache path path _ c hget, if_pos rfl,
      hstored.valueOf, if_pos rfl]
  · have htotal : c.curTotalFreq_ = 0+1 := hstored.total
    have hlive : (freshCache.setSlice (freshCache.sliceIndex Hash path) c).slice
        (freshCache.sliceIndex Hash path) = .ok c := by
      rw [HashLFUCache.slice, HashLFUCache.setSlice, List.getElem?_set_self hlt]
    have hfine := LFUCache.get_calm c hstored.sound path (by rw [htotal]; decide) it'
    rw [HashLFUCache.get, HashLFUCache.get?] at he
    change ((((freshCache.setSlice (freshCache.sliceIndex Hash path) c).slice
      (freshCache.sliceIndex Hash path)).bind _).bind _) = _ at he
    rw [hlive] at he
    change ((c.get? path it').bind _).bind _ = _ at he
    cases hg : c.get? path it' with
    | error f =>
      rw [hg] at he
      obtain rfl : f = .overflow := Except.error.inj he
      exact hfine hg
    | ok r =>
      rw [hg] at he
      exact absurd he (by simp [Except.bind])

end HttpServer
end MuServer
