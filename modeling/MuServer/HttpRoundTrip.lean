import MuServer.HeaderFields
import MuServer.RequestLineGrammar

/-!
# Requests on the wire

`WireRequest.encode` is a request as a client sends it. The parser reads it
back: the automaton takes the request line, the header loop stores each field
with the blank behind its colon removed, the length header announces the body,
and what follows the request stays in the buffer.
-/

set_option autoImplicit false

namespace MuServer
open Lib.Search

def methodText : Method → Bytes
  | .kGet => bytes "GET"
  | .kPost => bytes "POST"
  | .kDelete => bytes "DELETE"
  | .kPut => bytes "PUT"
  | .kHead => bytes "HEAD"
  | .kInvalid => []

def NameBytes (name : Bytes) : Prop := ∀ c ∈ name, c ≠ byte ':' ∧ c ≠ CR ∧ c ≠ LF

def ValueBytes (value : Bytes) : Prop :=
  (∀ c ∈ value, c ≠ CR ∧ c ≠ LF) ∧ (∀ c ∈ value.head?, isspace c = false) ∧
    ∀ c ∈ value.getLast?, isspace c = false

def LengthHeader (headers : List (Bytes × Bytes)) (body : Bytes) : Prop :=
  if body = [] then kContentLength ∉ headers.map Prod.fst
  else (kContentLength, decimal body.length) ∈ headers

instance (name : Bytes) : Decidable (NameBytes name) :=
  inferInstanceAs (Decidable (∀ c ∈ name, _))

instance (value : Bytes) : Decidable (ValueBytes value) := inferInstanceAs (Decidable (_ ∧ _))

instance (headers : List (Bytes × Bytes)) (body : Bytes) : Decidable (LengthHeader headers body) :=
  inferInstanceAs (Decidable (if body = [] then _ else _))

structure WireRequest where
  method : Method
  path : Bytes
  query : Option Bytes
  version : Version
  headers : List (Bytes × Bytes)
  body : Bytes
  method_valid : method ≠ .kInvalid
  path_bytes : PathBytes path
  query_bytes : ∀ q ∈ query, QueryBytes q
  version_known : version ≠ .kUnkown
  distinct : (headers.map Prod.fst).Nodup
  names : ∀ h ∈ headers, NameBytes h.1
  values : ∀ h ∈ headers, ValueBytes h.2
  body_size : body.length ≤ 2^31-1
  length_header : LengthHeader headers body
  line_size :
    (requestLine (methodText method) 0 path query 0 (versionText version) ++ kCRLF).length ≤ 8193

def indexRequest : WireRequest where
  method := .kGet
  path := bytes "/"
  query := none
  version := .kHttp11
  headers := [(bytes "Host", bytes "localhost")]
  body := []
  method_valid := by decide
  path_bytes := root_path
  query_bytes := no_query
  version_known := http11_known
  distinct := by decide
  names := by decide +kernel
  values := by decide +kernel
  body_size := by decide
  length_header := by decide
  line_size := by decide

def headerText (h : Bytes × Bytes) : Bytes := h.1 ++ byte ':'::byte ' '::h.2 ++ kCRLF

def WireRequest.lineText (w : WireRequest) : Bytes :=
  requestLine (methodText w.method) 0 w.path w.query 0 (versionText w.version)

def WireRequest.encode (w : WireRequest) : Bytes :=
  w.lineText ++ kCRLF ++ (w.headers.flatMap headerText ++ (kCRLF ++ w.body))

theorem methodOf_methodText (m : Method) (h : m ≠ .kInvalid) : methodOf (methodText m) = m := by
  cases m with
  | kInvalid => exact absurd rfl h
  | kGet => decide
  | kPost => decide
  | kDelete => decide
  | kPut => decide
  | kHead => decide

theorem trim_value (value : Bytes) (h : ValueBytes value) :
    HttpRequest.trim (byte ' '::value) = value := by
  obtain ⟨-, hhead, hlast⟩ := h
  have hlead : (byte ' '::value).dropWhile isspace = value := by
    rw [List.dropWhile_cons, if_pos (by decide)]
    cases value with
    | nil => rfl
    | cons c cs => rw [List.dropWhile_cons, if_neg (by simp [hhead c rfl])]
  rw [HttpRequest.trim, hlead, List.rdropWhile_eq_self_iff]
  intro hne
  simp [hlast _ (List.getLast?_eq_some_getLast hne)]

def storeHeaders (r : HttpRequest) (hs : List (Bytes × Bytes)) : HttpRequest :=
  hs.foldl (fun r h => r.insertHeader h.1 h.2) r

theorem storeHeaders_frame (hs : List (Bytes × Bytes)) (r : HttpRequest) :
    storeHeaders r hs = { r with headers_ := (storeHeaders r hs).headers_ } := by
  induction hs generalizing r with
  | nil => rfl
  | cons h hs ih =>
    have hh := ih (r.insertHeader h.1 h.2)
    simp only [storeHeaders, List.foldl_cons] at hh ⊢
    rw [hh]
    rfl

theorem storeHeaders_absent (hs : List (Bytes × Bytes)) (r : HttpRequest) (name : Bytes)
    (h : name ∉ hs.map Prod.fst) :
    (storeHeaders r hs).headers_.lookup name = r.headers_.lookup name := by
  induction hs generalizing r with
  | nil => rfl
  | cons f hs ih =>
    simp only [List.map_cons, List.mem_cons, not_or] at h
    exact (ih _ h.2).trans (Finmap.lookup_insert_of_ne _ h.1)

theorem storeHeaders_lookup (hs : List (Bytes × Bytes)) (hn : (hs.map Prod.fst).Nodup)
    (r : HttpRequest) (name value : Bytes) (h : (name, value) ∈ hs) :
    (storeHeaders r hs).headers_.lookup name = some value := by
  induction hs generalizing r with
  | nil => simp at h
  | cons f hs ih =>
    obtain ⟨hf, hr⟩ := List.nodup_cons.mp hn
    rcases List.mem_cons.mp h with rfl | h
    · exact (storeHeaders_absent hs _ name hf).trans (Finmap.lookup_insert _)
    · exact ih hr _ h

/-- On an empty table the fields are the ones of the list and no others. -/
theorem storeHeaders_iff (hs : List (Bytes × Bytes)) (hn : (hs.map Prod.fst).Nodup)
    (r : HttpRequest) (hr : r.headers_ = ∅) (name value : Bytes) :
    (storeHeaders r hs).headers_.lookup name = some value ↔ (name, value) ∈ hs := by
  refine ⟨fun h => ?_, storeHeaders_lookup hs hn r name value⟩
  by_cases hm : name ∈ hs.map Prod.fst
  · obtain ⟨⟨name', value'⟩, hmem, rfl⟩ := List.mem_map.mp hm
    rw [storeHeaders_lookup hs hn r _ value' hmem, Option.some.injEq] at h
    rwa [← h]
  · rw [storeHeaders_absent hs r name hm, hr, Finmap.lookup_empty] at h
    exact absurd h (by simp)

def lineField (h : Bytes × Bytes) (hn : NameBytes h.1) (hv : ValueBytes h.2) : Field where
  name := h.1
  raw := byte ' '::h.2
  name_free := fun hc => (hn _ hc).1 rfl
  line_free := by
    apply free_of_cr
    intro c hc
    simp only [List.mem_append, List.mem_cons] at hc
    rcases hc with hc | rfl | rfl | hc
    · exact (hn c hc).2.1
    · decide
    · decide
    · exact (hv.1 c hc).1

theorem scanHeader_text (s : Scan) (h : Bytes × Bytes) (hn : NameBytes h.1)
    (hv : ValueBytes h.2) (rest : Bytes) (hrest : rest ≠ [])
    (hu : s.unread = headerText h ++ rest) :
    scanHeader s = .ok ({ s with unread := rest }.setRequest
      (s.context.request_.insertHeader h.1 h.2)) := by
  have hentry : (lineField h hn hv).entry.2 = h.2 := trim_value h.2 hv
  rw [scanHeader_field s (lineField h hn hv) rest hrest hu, hentry]
  rfl

theorem scanLoop_headers (stale : Bytes) (t : TimeStamp) (hs : List (Bytes × Bytes))
    (hn : ∀ h ∈ hs, NameBytes h.1) (hv : ∀ h ∈ hs, ValueBytes h.2) (rest : Bytes)
    (hrest : rest ≠ []) (n : ℕ) (s : Scan) (hm : s.hasMore = true)
    (hst : s.context.state_ = .kExpectRequestHeader)
    (hu : s.unread = hs.flatMap headerText ++ rest) :
    scanLoop stale t (hs.length+n) s = scanLoop stale t n
      ({ s with unread := rest }.setRequest (storeHeaders s.context.request_ hs)) := by
  induction hs generalizing s with
  | nil =>
    obtain ⟨⟨state, request⟩, unread, done, more, len⟩ := s
    simp only [List.flatMap_nil, List.nil_append] at hu
    subst hu
    simp [storeHeaders, Scan.setRequest]
  | cons h hs ih =>
    rw [List.flatMap_cons, List.append_assoc] at hu
    have hne : hs.flatMap headerText ++ rest ≠ [] := by simp [hrest]
    have hstep := scanHeader_text s h (hn h (by simp)) (hv h (by simp)) _ hne hu
    rw [List.length_cons, Nat.add_right_comm,
      scanLoop_step stale t _ s _ hm (by rw [scanStep, hst]; exact hstep),
      ih (fun f hf => hn f (by simp [hf])) (fun f hf => hv f (by simp [hf])) _
        (by simpa [Scan.setRequest] using hm) (by simpa [Scan.setRequest] using hst)
        (by simp [Scan.setRequest])]
    rfl

theorem scanHeader_empty (s : Scan) (rest : Bytes) (hu : s.unread = kCRLF ++ rest) :
    scanHeader s =
      if s.context.request_.getHeader kContentLength = [] then
        .ok ({ s with unread := rest, hasMore := false }.setState .kGotAll)
      else (stoi (s.context.request_.getHeader kContentLength)).bind (fun v =>
        .ok ({ s with unread := rest, content_Length := toSize v }.setState
          .kExpectRequestBody)) :=
  scanHeader_last s [] rest (by simp) (by decide) hu

def WireRequest.lineStored (w : WireRequest) (t : TimeStamp) : HttpRequest where
  method_ := w.method
  path_ := w.path
  version_ := w.version
  query_ := w.query.getD []
  receivedTime_ := t

def WireRequest.stored (w : WireRequest) (t : TimeStamp) : HttpRequest :=
  (storeHeaders (w.lineStored t) w.headers).setBody w.body

def WireRequest.parts (w : WireRequest) : LineParts where
  method := methodText w.method
  before := 0
  path := w.path
  query := w.query
  behind := 0
  version := w.version
  method_mem := by
    rw [methods_iff, methodOf_methodText _ w.method_valid]
    exact w.method_valid
  path_bytes := w.path_bytes
  query_bytes := w.query_bytes
  version_known := w.version_known

/-- The request line is taken off the front and its fields are stored. -/
theorem scanRequestLine_encode (stale : Bytes) (t : TimeStamp) (w : WireRequest) (rest : Bytes) :
    scanRequestLine stale t { context := {}, unread := w.lineText ++ kCRLF ++ rest } =
      .ok {
        context := {
          state_ := .kExpectRequestHeader
          request_ := w.lineStored t }
        unread := rest } := by
  have hparse := parseRequestLine_accepts {} rfl (methodText w.method)
    (by rw [methodOf_methodText _ w.method_valid]; exact w.method_valid) 0 w.path w.path_bytes
    w.query w.query_bytes 0 w.version w.version_known w.line_size
  rw [methodOf_methodText _ w.method_valid] at hparse
  exact scanStep_line stale t w.lineText rest (parts_free w.parts) true _ hparse

/-- The length header of the stored fields is the one of the wire request. -/
theorem getHeader_length (w : WireRequest) (t : TimeStamp) :
    (storeHeaders (w.lineStored t) w.headers).getHeader kContentLength =
      if w.body = [] then [] else decimal w.body.length := by
  have hlh := w.length_header
  unfold LengthHeader at hlh
  by_cases hbody : w.body = []
  · rw [if_pos hbody] at hlh ⊢
    rw [HttpRequest.getHeader, storeHeaders_absent _ _ _ hlh]
    rfl
  · rw [if_neg hbody] at hlh ⊢
    rw [HttpRequest.getHeader, storeHeaders_lookup _ w.distinct _ _ _ hlh]
    rfl

/-- From the empty line on: the request is complete with its body. -/
theorem scanLoop_ending (stale : Bytes) (t : TimeStamp) (w : WireRequest) (tail : Bytes) :
    ∃ s, scanLoop stale t 2 {
        context := {
          state_ := .kExpectRequestHeader
          request_ := storeHeaders (w.lineStored t) w.headers }
        unread := kCRLF ++ (w.body ++ tail) } = .ok s ∧
      s.done = true ∧ s.context = { state_ := .kGotAll, request_ := w.stored t } ∧
      s.unread = tail := by
  have hempty := scanHeader_empty {
      context := {
        state_ := .kExpectRequestHeader
        request_ := storeHeaders (w.lineStored t) w.headers }
      unread := kCRLF ++ (w.body ++ tail) } (w.body ++ tail) rfl
  have hcl := getHeader_length w t
  by_cases hbody : w.body = []
  · rw [if_pos hbody] at hcl
    rw [if_pos hcl] at hempty
    have hb0 : (storeHeaders (w.lineStored t) w.headers).body_ = [] := by
      rw [storeHeaders_frame]
      rfl
    have hstored : w.stored t = storeHeaders (w.lineStored t) w.headers := by
      rw [WireRequest.stored, hbody]
      exact congrArg (HttpRequest.setBody _) hb0.symm
    rw [scanLoop_step stale t 1 _ _ rfl (by rw [scanStep]; exact hempty),
      scanLoop_stop stale t 1 _ rfl]
    exact ⟨_, rfl, rfl, by rw [hstored]; rfl, by simp [hbody, Scan.setState]⟩
  · rw [if_neg hbody] at hcl
    have hn : toSize w.body.length = w.body.length := toSize_natCast _ w.body_size
    rw [hcl, if_neg (decimal_ne_nil _), stoi_decimal _ w.body_size, Except.bind, hn] at hempty
    have hle : w.body.length ≤ (w.body ++ tail).length := by
      rw [List.length_append]
      exact Nat.le_add_right _ _
    rw [scanLoop_step stale t 1 _ _ rfl (by rw [scanStep]; exact hempty),
      scanLoop_step stale t 0 _ _ rfl (by rw [scanStep, Scan.setState, scanBody]; exact if_pos hle),
      scanLoop_stop stale t 0 _ rfl]
    refine ⟨_, rfl, rfl, ?_, ?_⟩
    · simp only [Scan.setRequest, Scan.setState, List.take_left]
      rfl
    · simp only [Scan.setRequest, Scan.setState, List.drop_left]

theorem scanLoop_encode (stale : Bytes) (t : TimeStamp) (w : WireRequest) (tail : Bytes) :
    ∃ n s, scanLoop stale t n { context := {}, unread := w.encode ++ tail } = .ok s ∧
      s.done = true ∧ s.context = { state_ := .kGotAll, request_ := w.stored t } ∧
      s.unread = tail := by
  have hline := scanRequestLine_encode stale t w
    (w.headers.flatMap headerText ++ (kCRLF ++ (w.body ++ tail)))
  have henc : w.encode ++ tail =
      w.lineText ++ kCRLF ++ (w.headers.flatMap headerText ++ (kCRLF ++ (w.body ++ tail))) := by
    simp only [WireRequest.encode, List.append_assoc]
  have hloop := scanLoop_headers stale t w.headers w.names w.values (kCRLF ++ (w.body ++ tail))
    (by simp [kCRLF]) 2 {
      context := { state_ := .kExpectRequestHeader, request_ := w.lineStored t }
      unread := w.headers.flatMap headerText ++ (kCRLF ++ (w.body ++ tail)) } rfl rfl rfl
  obtain ⟨s, hs, hrest⟩ := scanLoop_ending stale t w tail
  refine ⟨w.headers.length+2+1, s, ?_, hrest⟩
  rw [henc, scanLoop_step stale t _ _ _ rfl (by rw [scanStep]; exact hline)]
  exact hloop.trans hs

/-- The parser reads back what a client has written and leaves the rest. -/
theorem parseRequest_encode (w : WireRequest) (tail : Bytes) (b : Buffer) (hb : b.WF)
    (hr : b.readable = w.encode ++ tail) (t : TimeStamp) :
    ∃ c b', parseRequest {} b t = .ok (true, c, b') ∧ c.gotAll = true ∧
      c.request_.method_ = w.method ∧ c.request_.path_ = w.path ∧
      c.request_.query_ = w.query.getD [] ∧ c.request_.version_ = w.version ∧
      (∀ name value, c.request_.headers_.lookup name = some value ↔ (name, value) ∈ w.headers) ∧
      c.request_.body_ = w.body ∧ b'.readable = tail := by
  obtain ⟨n, s, hs, hdone, hctx, hun⟩ := scanLoop_encode b.stale t w tail
  rw [← hr] at hs
  obtain ⟨b', hp, -, hrb⟩ := parseRequest_scan {} b t hb (by simp) n s hs
  rw [hdone, hctx] at hp
  have hf := storeHeaders_frame w.headers (w.lineStored t)
  refine ⟨_, b', hp, rfl, ?_, ?_, ?_, ?_, ?_, rfl, hrb.trans hun⟩
  · exact congrArg HttpRequest.method_ hf
  · exact congrArg HttpRequest.path_ hf
  · exact congrArg HttpRequest.query_ hf
  · exact congrArg HttpRequest.version_ hf
  · exact storeHeaders_iff w.headers w.distinct _ rfl

theorem parseRequest_encode_index :
    ∃ b c b', (Buffer.create kInitialSize).append (indexRequest.encode ++ bytes "GET") = .ok b ∧
      parseRequest {} b {} = .ok (true, c, b') ∧ c.gotAll = true ∧ c.request_.method_ = .kGet ∧
      c.request_.path_ = bytes "/" ∧ c.request_.query_ = [] ∧ c.request_.version_ = .kHttp11 ∧
      c.request_.headers_.lookup (bytes "Host") = some (bytes "localhost") ∧
      c.request_.body_ = [] ∧ b'.readable = bytes "GET" := by
  obtain ⟨b, ha, hb, hr⟩ := (Buffer.create kInitialSize).append_ok (Buffer.create_wf _)
    (indexRequest.encode ++ bytes "GET")
  rw [Buffer.create_readable, List.nil_append] at hr
  obtain ⟨c, b', hp, hgot, hm, hpath, hq, hv, hh, hbody, hrest⟩ :=
    parseRequest_encode indexRequest (bytes "GET") b hb hr {}
  exact ⟨b, c, b', ha, hp, hgot, hm, hpath, hq, hv, (hh _ _).mpr (by decide), hbody, hrest⟩

end MuServer
