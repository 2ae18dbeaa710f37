import MuServer.Lib.Fallible
import MuServer.RequestLine

/-!
# The grammar of request lines

The automaton accepts the lines of the grammar and no others. `Reading` is the
invariant of its loop: what has been read is a prefix of such a line, of the
kind that belongs to the state, and the pointers and the request hold the parts
read so far.
-/

set_option autoImplicit false

namespace MuServer
open Lib.Search Lib.Fallible

def methods : List Bytes :=
  [bytes "GET", bytes "POST", bytes "DELETE", bytes "PUT", bytes "HEAD"]

theorem get_mem : bytes "GET" ∈ methods := by decide +kernel

theorem methods_iff (method : Bytes) : method ∈ methods ↔ methodOf method ≠ .kInvalid := by
  constructor
  · have hall : ∀ m ∈ methods, methodOf m ≠ .kInvalid := by decide +kernel
    exact hall method
  · exact HttpRequest.methodOf_valid method

structure LineParts where
  method : Bytes
  /-- the blanks behind the first one, before the path -/
  before : ℕ
  path : Bytes
  query : Option Bytes
  /-- the blanks behind the first one, before the version -/
  behind : ℕ
  version : Version
  method_mem : method ∈ methods
  path_bytes : PathBytes path
  query_bytes : ∀ q ∈ query, QueryBytes q
  version_known : version ≠ .kUnkown

def LineParts.text (parts : LineParts) : Bytes :=
  requestLine parts.method parts.before parts.path parts.query parts.behind
    (versionText parts.version) ++ kCRLF

def LineParts.store (parts : LineParts) (request : HttpRequest) : HttpRequest :=
  { request with
    method_ := methodOf parts.method
    path_ := parts.path
    query_ := parts.query.getD request.query_
    version_ := parts.version }

def target (path : Bytes) (query : Option Bytes) : Bytes :=
  match query with
  | some q => path ++ byte '?'::q
  | none => path

theorem requestLine_target (method : Bytes) (i : ℕ) (path : Bytes) (query : Option Bytes) (j : ℕ)
    (version : Bytes) : requestLine method i path query j version =
      method ++ byte ' '::(blanks i ++
        (target path query ++ byte ' '::(blanks j ++ version))) := rfl

def LineParts.line (parts : LineParts) : Bytes :=
  requestLine parts.method parts.before parts.path parts.query parts.behind
    (versionText parts.version)

theorem parts_line (parts : LineParts) : parts.text = parts.line ++ kCRLF := rfl

theorem parts_bytes (parts : LineParts) : ∀ c ∈ requestLine parts.method parts.before parts.path
    parts.query parts.behind (versionText parts.version), c ≠ CR := by
  have hm : ∀ m ∈ methods, ∀ c ∈ m, c ≠ CR := by decide +kernel
  have hv : ∀ c ∈ versionText parts.version, c ≠ CR := by
    generalize parts.version = v
    cases v <;> decide +kernel
  have hsp : byte ' ' ≠ CR := by decide
  have hblanks : ∀ n, ∀ c ∈ blanks n, c ≠ CR := by
    intro n c hc
    rw [List.eq_of_mem_replicate hc]
    exact hsp
  intro c hc
  rw [requestLine_target] at hc
  simp only [List.mem_append, List.mem_cons] at hc
  rcases hc with hc | rfl | hc | hc | rfl | hc | hc
  · exact hm _ parts.method_mem c hc
  · exact hsp
  · exact hblanks _ c hc
  · revert hc
    unfold target
    cases hq : parts.query with
    | none => exact fun hc => (parts.path_bytes.2 c hc).2.2.1
    | some q =>
      intro hc
      rcases List.mem_append.mp hc with hc | hc
      · exact (parts.path_bytes.2 c hc).2.2.1
      · rcases List.mem_cons.mp hc with rfl | hc
        · decide
        · exact (parts.query_bytes q hq c hc).2.1
  · exact hsp
  · exact hblanks _ c hc
  · exact hv c hc

theorem free_of_cr (line : Bytes) (h : ∀ c ∈ line, c ≠ CR) : ¬ kCRLF <:+: line := by
  rintro ⟨front, behind, hin⟩
  have hmem : CR ∈ line := by
    rw [← hin]
    simp [kCRLF]
  exact h CR hmem rfl

theorem parts_free (parts : LineParts) : ¬ kCRLF <:+: parts.line :=
  free_of_cr parts.line (parts_bytes parts)

/-- The automaton in the midst of a line, `pre` being what it has read. -/
inductive Reading (request : HttpRequest) : Bytes → LineScan → Prop
  | start : Reading request [] { request := request }
  | method (token : Bytes) (hne : token ≠ []) (hsp : ∀ c ∈ token, c ≠ byte ' ') :
      Reading request token { method_start := some 0, request := request }
  | beforePath (method : Bytes) (i : ℕ) (hm : method ∈ methods) :
      Reading request (method ++ byte ' '::blanks i) {
        state := .kSpacesBeforePath
        method_start := some 0
        request := { request with method_ := methodOf method } }
  | path (method : Bytes) (i : ℕ) (path : Bytes) (hm : method ∈ methods) (hp : PathBytes path) :
      Reading request (method ++ byte ' '::(blanks i ++ path)) {
        state := .kPath
        method_start := some 0
        path_start := some (method ++ byte ' '::blanks i).length
        request := { request with method_ := methodOf method } }
  | query (method : Bytes) (i : ℕ) (path query : Bytes) (hm : method ∈ methods)
      (hp : PathBytes path) (hq : QueryBytes query) (start : Option ℕ) :
      Reading request (method ++ byte ' '::(blanks i ++ (path ++ byte '?'::query))) {
        state := .kQuery
        method_start := some 0
        path_start := start
        query_start := some (method ++ byte ' '::(blanks i ++ (path ++ [byte '?']))).length
        request := { request with method_ := methodOf method, path_ := path } }
  | beforeVersion (method : Bytes) (i : ℕ) (path : Bytes) (query : Option Bytes) (j : ℕ)
      (hm : method ∈ methods) (hp : PathBytes path) (hq : ∀ q ∈ query, QueryBytes q)
      (start start' : Option ℕ) :
      Reading request
        (method ++ byte ' '::(blanks i ++ (target path query ++ byte ' '::blanks j))) {
          state := .kSpacesBeforeVersion
          method_start := some 0
          path_start := start
          query_start := start'
          request := { request with
            method_ := methodOf method
            path_ := path
            query_ := query.getD request.query_ } }
  | version (method : Bytes) (i : ℕ) (path : Bytes) (query : Option Bytes) (j : ℕ) (text : Bytes)
      (hm : method ∈ methods) (hp : PathBytes path) (hq : ∀ q ∈ query, QueryBytes q)
      (start start' : Option ℕ) :
      Reading request (requestLine method i path query j text) {
        state := .kVersion
        method_start := some 0
        path_start := start
        query_start := start'
        version_start := some (requestLine method i path query j []).length
        request := { request with
          method_ := methodOf method
          path_ := path
          query_ := query.getD request.query_ } }
  | cr (parts : LineParts) (line : Bytes) (hline : line ++ [LF] = parts.text) (s : LineScan)
      (hs : s.state = .kCR) (hr : s.request = parts.store request) : Reading request line s

def Advances (request : HttpRequest) (read : Bytes) : LineStep → Prop
  | .next t => Reading request read t
  | .ret true r => ∃ parts : LineParts, read = parts.text ∧ r = parts.store request
  | .ret false _ => True

variable (request : HttpRequest) (post : Bytes) (ch : Byte)

theorem blanks_snoc (n : ℕ) : blanks n ++ [byte ' '] = blanks (n+1) := List.replicate_succ'.symm

theorem start_step : Ends (fun _ => False) (lineStep (ch::post) 0 ch { request := request })
    (Advances request [ch]) := by
  by_cases hc : ch = byte ' '
  · simp [lineStep, hc, Ends, Advances]
  · simp only [lineStep, if_neg hc]
    exact Reading.method [ch] (by simp) (by simpa using hc)

theorem method_step (hr : request.method_ = .kInvalid) (token : Bytes) (hne : token ≠ [])
    (hsp : ∀ c ∈ token, c ≠ byte ' ') :
    Ends (fun _ => False) (lineStep (token ++ ch::post) token.length ch
      { method_start := some 0, request := request }) (Advances request (token ++ [ch])) := by
  obtain ⟨c, tail, rfl⟩ := List.exists_cons_of_ne_nil hne
  by_cases hc : ch = byte ' '
  · subst hc
    have hstep := lineStep_method c tail (byte ' '::post) request
    rw [if_pos hr] at hstep
    rw [List.length_cons, hstep]
    by_cases hm : methodOf (c::tail) = .kInvalid
    · rw [if_pos hm]
      trivial
    · rw [if_neg hm]
      exact Reading.beforePath (c::tail) 0 ((methods_iff _).mpr hm)
  · have hstay := methodToken_stay ((c::tail) ++ ch::post)
      { method_start := some 0, request := request } rfl 0 rfl ch hc (c::tail).length
    rw [hstay]
    apply Reading.method _ (by simp)
    intro x hx
    rcases List.mem_append.mp hx with hx | hx
    · exact hsp x hx
    · rw [List.mem_singleton.mp hx]
      exact hc

theorem beforePath_step (method : Bytes) (i : ℕ) (hm : method ∈ methods) (line : Bytes) (p : ℕ)
    (hp : p = (method ++ byte ' '::blanks i).length) :
    Ends (fun _ => False) (lineStep line p ch {
        state := .kSpacesBeforePath
        method_start := some 0
        request := { request with method_ := methodOf method } })
      (Advances request (method ++ byte ' '::blanks i ++ [ch])) := by
  simp only [lineStep]
  by_cases hc : ch = byte ' '
  · rw [if_pos hc, hc]
    have hread := @Reading.beforePath request method (i+1) hm
    rwa [← blanks_snoc, ← List.cons_append, ← List.append_assoc] at hread
  · rw [if_neg hc]
    by_cases hslash : ch = byte '/'
    · have hbytes : PathBytes [ch] := by
        rw [hslash]
        decide +kernel
      rw [if_neg (not_not.mpr hslash), hp]
      have hread := @Reading.path request method i [ch] hm hbytes
      rwa [← List.cons_append, ← List.append_assoc] at hread
    · rw [if_pos hslash]
      trivial

theorem pathBytes_snoc (path : Bytes) (hp : PathBytes path)
    (hc : ch ≠ byte ' ' ∧ ch ≠ byte '?' ∧ ch ≠ CR ∧ ch ≠ LF) : PathBytes (path ++ [ch]) := by
  obtain ⟨hhead, hbytes⟩ := hp
  constructor
  · obtain ⟨tail, rfl⟩ := List.head?_eq_some_iff.mp hhead
    rfl
  · intro x hx
    rcases List.mem_append.mp hx with hx | hx
    · exact hbytes x hx
    · rw [List.mem_singleton.mp hx]
      exact hc

theorem path_step (method : Bytes) (i : ℕ) (path : Bytes) (hm : method ∈ methods)
    (hp : PathBytes path) :
    Ends (fun _ => False) (lineStep (method ++ byte ' '::(blanks i ++ path) ++ ch::post)
        (method ++ byte ' '::(blanks i ++ path)).length ch {
          state := .kPath
          method_start := some 0
          path_start := some (method ++ byte ' '::blanks i).length
          request := { request with method_ := methodOf method } })
      (Advances request (method ++ byte ' '::(blanks i ++ path) ++ [ch])) := by
  have hbetween : between (method ++ byte ' '::(blanks i ++ path) ++ ch::post)
      (some (method ++ byte ' '::blanks i).length)
      (method ++ byte ' '::(blanks i ++ path)).length = .ok path :=
    between_at _ (method ++ byte ' '::blanks i) path (ch::post) _ _ (by simp) rfl (by simp; omega)
  simp only [lineStep, hbetween, bind, Except.bind]
  by_cases hmark : ch = byte '?'
  · rw [if_pos hmark, hmark]
    have hread := @Reading.query request method i path [] hm hp (by simp [QueryBytes])
      (some (method ++ byte ' '::blanks i).length)
    simpa [Ends, Advances, HttpRequest.setPath, Nat.add_assoc] using hread
  rw [if_neg hmark]
  by_cases hblank : ch = byte ' '
  · rw [if_pos hblank, hblank]
    have hread := @Reading.beforeVersion request method i path none 0 hm hp (by simp)
      (some (method ++ byte ' '::blanks i).length) none
    simpa [Ends, Advances, HttpRequest.setPath, target, blanks] using hread
  rw [if_neg hblank]
  by_cases hend : ch = CR ∨ ch = LF
  · rw [if_pos hend]
    trivial
  · rw [not_or] at hend
    rw [if_neg (by tauto)]
    have hread := @Reading.path request method i (path ++ [ch]) hm
      (pathBytes_snoc ch path hp ⟨hblank, hmark, hend⟩)
    simpa [Ends, Advances] using hread

theorem queryBytes_snoc (query : Bytes) (hq : QueryBytes query)
    (hc : ch ≠ byte ' ' ∧ ch ≠ CR ∧ ch ≠ LF) : QueryBytes (query ++ [ch]) := by
  intro x hx
  rcases List.mem_append.mp hx with hx | hx
  · exact hq x hx
  · rw [List.mem_singleton.mp hx]
    exact hc

theorem query_step (method : Bytes) (i : ℕ) (path query : Bytes) (hm : method ∈ methods)
    (hp : PathBytes path) (hq : QueryBytes query) (start : Option ℕ) :
    Ends (fun _ => False)
      (lineStep (method ++ byte ' '::(blanks i ++ (path ++ byte '?'::query)) ++ ch::post)
        (method ++ byte ' '::(blanks i ++ (path ++ byte '?'::query))).length ch {
          state := .kQuery
          method_start := some 0
          path_start := start
          query_start := some (method ++ byte ' '::(blanks i ++ (path ++ [byte '?']))).length
          request := { request with method_ := methodOf method, path_ := path } })
      (Advances request
        (method ++ byte ' '::(blanks i ++ (path ++ byte '?'::query)) ++ [ch])) := by
  have hbetween : between (method ++ byte ' '::(blanks i ++ (path ++ byte '?'::query)) ++ ch::post)
      (some (method ++ byte ' '::(blanks i ++ (path ++ [byte '?']))).length)
      (method ++ byte ' '::(blanks i ++ (path ++ byte '?'::query))).length = .ok query :=
    between_at _ (method ++ byte ' '::(blanks i ++ (path ++ [byte '?']))) query (ch::post) _ _
      (by simp) rfl (by simp; omega)
  simp only [lineStep, hbetween, bind, Except.bind]
  by_cases hblank : ch = byte ' '
  · rw [if_pos hblank, hblank]
    have hread := @Reading.beforeVersion request method i path (some query) 0 hm hp
      (by simpa using hq) start
      (some (method ++ byte ' '::(blanks i ++ (path ++ [byte '?']))).length)
    simpa [Ends, Advances, HttpRequest.setQuery, target, blanks] using hread
  rw [if_neg hblank]
  by_cases hend : ch = CR ∨ ch = LF
  · rw [if_pos hend]
    trivial
  · rw [not_or] at hend
    rw [if_neg (by tauto)]
    have hread := @Reading.query request method i path (query ++ [ch]) hm hp
      (queryBytes_snoc ch query hq ⟨hblank, hend⟩) start
    simpa [Ends, Advances] using hread

theorem beforeVersion_step (method : Bytes) (i : ℕ) (path : Bytes) (query : Option Bytes) (j : ℕ)
    (hm : method ∈ methods) (hp : PathBytes path) (hq : ∀ q ∈ query, QueryBytes q)
    (start start' : Option ℕ) (line : Bytes) (p : ℕ)
    (hpos : p = (requestLine method i path query j []).length) :
    Ends (fun _ => False) (lineStep line p ch {
        state := .kSpacesBeforeVersion
        method_start := some 0
        path_start := start
        query_start := start'
        request := { request with
          method_ := methodOf method
          path_ := path
          query_ := query.getD request.query_ } })
      (Advances request
        (method ++ byte ' '::(blanks i ++ (target path query ++ byte ' '::blanks j)) ++ [ch])) := by
  simp only [lineStep]
  by_cases hblank : ch = byte ' '
  · rw [if_pos hblank, hblank]
    have hread := @Reading.beforeVersion request method i path query (j+1) hm hp hq
      start start'
    simpa [Ends, Advances, ← blanks_snoc] using hread
  rw [if_neg hblank]
  by_cases hhead : ch = byte 'H'
  · rw [if_neg (not_not.mpr hhead), hpos]
    have hread := @Reading.version request method i path query j [ch] hm hp hq start
      start'
    simpa [Ends, Advances, requestLine_target] using hread
  · rw [if_pos hhead]
    trivial

theorem requestLine_append (method : Bytes) (i : ℕ) (path : Bytes) (query : Option Bytes) (j : ℕ)
    (text more : Bytes) : requestLine method i path query j text ++ more =
      requestLine method i path query j (text ++ more) := by
  simp [requestLine_target]

theorem version_step (method : Bytes) (i : ℕ) (path : Bytes) (query : Option Bytes) (j : ℕ)
    (text : Bytes) (hm : method ∈ methods) (hp : PathBytes path)
    (hq : ∀ q ∈ query, QueryBytes q) (start start' : Option ℕ) :
    Ends (fun _ => False) (lineStep (requestLine method i path query j text ++ ch::post)
        (requestLine method i path query j text).length ch {
          state := .kVersion
          method_start := some 0
          path_start := start
          query_start := start'
          version_start := some (requestLine method i path query j []).length
          request := { request with
            method_ := methodOf method
            path_ := path
            query_ := query.getD request.query_ } })
      (Advances request (requestLine method i path query j text ++ [ch])) := by
  have hsplit := requestLine_append method i path query j [] text
  rw [List.nil_append] at hsplit
  have hbetween : between (requestLine method i path query j text ++ ch::post)
      (some (requestLine method i path query j []).length)
      (requestLine method i path query j text).length = .ok text :=
    between_at _ (requestLine method i path query j []) text (ch::post) _ _ (by rw [hsplit]) rfl
      (by rw [← hsplit, List.length_append])
  simp only [lineStep, hbetween, bind, Except.bind]
  by_cases hend : ch = CR
  · rw [if_pos hend, hend]
    by_cases h11 : text = bytes "HTTP/1.1"
    · rw [if_pos h11, h11]
      exact Reading.cr ⟨method, i, path, query, j, .kHttp11, hm, hp, hq, by simp⟩ _
        (by simp [LineParts.text, versionText, kCRLF]) _ rfl rfl
    rw [if_neg h11]
    by_cases h10 : text = bytes "HTTP/1.0"
    · rw [if_pos h10, h10]
      exact Reading.cr ⟨method, i, path, query, j, .kHttp10, hm, hp, hq, by simp⟩ _
        (by simp [LineParts.text, versionText, kCRLF]) _ rfl rfl
    · rw [if_neg h10]
      trivial
  · rw [if_neg hend, requestLine_append]
    exact Reading.version method i path query j (text ++ [ch]) hm hp hq start start'

theorem cr_step (parts : LineParts) (read line : Bytes) (hline : read ++ [LF] = parts.text)
    (p : ℕ) (s : LineScan) (hs : s.state = .kCR) (hr : s.request = parts.store request) :
    Ends (fun _ => False) (lineStep line p ch s) (Advances request (read ++ [ch])) := by
  simp only [lineStep, hs]
  by_cases hend : ch = LF
  · rw [if_pos hend, hend]
    exact ⟨parts, hline, hr⟩
  · rw [if_neg hend]
    trivial

theorem reading_step (hr : request.method_ = .kInvalid) (read : Bytes) (s : LineScan)
    (h : Reading request read s) :
    Ends (fun _ => False) (lineStep (read ++ ch::post) read.length ch s)
      (Advances request (read ++ [ch])) := by
  cases h with
  | start => exact start_step request post ch
  | method _ hne hsp => exact method_step request post ch hr read hne hsp
  | beforePath method i hm => exact beforePath_step request ch method i hm _ _ rfl
  | path method i path hm hp => exact path_step request post ch method i path hm hp
  | query method i path query hm hp hq start =>
    exact query_step request post ch method i path query hm hp hq start
  | beforeVersion method i path query j hm hp hq start start' =>
    exact beforeVersion_step request ch method i path query j hm hp hq start start' _ _
      (by simp [requestLine_target])
  | version method i path query j text hm hp hq start start' =>
    exact version_step request post ch method i path query j text hm hp hq start start'
  | cr parts _ hline _ hs hstored => exact cr_step request ch parts read _ hline _ s hs hstored

theorem lineLoop_reading (hr : request.method_ = .kInvalid) (read rest : Bytes) (s : LineScan)
    (h : Reading request read s) (r : HttpRequest)
    (hloop : lineLoop (read ++ rest) 0 rest read.length s = .ok (true, r)) :
    ∃ (parts : LineParts) (behind : Bytes), read ++ rest = parts.text ++ behind
      ∧ parts.text.length ≤ 8193 ∧ r = parts.store request := by
  induction rest generalizing read s with
  | nil => simp [lineLoop] at hloop
  | cons ch rest ih =>
    by_cases hp : kMaxRequestLine < read.length
    · simp [lineLoop, hp] at hloop
    · have hstep := reading_step request rest ch hr read s h
      cases hline : lineStep (read ++ ch::rest) read.length ch s with
      | error f =>
        rw [hline] at hstep
        exact hstep.elim
      | ok step =>
        rw [hline] at hstep
        cases step with
        | next t =>
          rw [lineLoop_next _ 0 ch rest _ s t (by omega) hline] at hloop
          have happend : read ++ ch::rest = read ++ [ch] ++ rest := by simp
          rw [happend] at hloop ⊢
          exact ih (read ++ [ch]) t hstep (by simpa using hloop)
        | ret accepted request' =>
          rw [lineLoop_ret _ 0 ch rest _ s accepted request' (by omega) hline] at hloop
          obtain ⟨rfl, rfl⟩ := Prod.mk.inj (Except.ok.inj hloop)
          obtain ⟨parts, hparts, hstored⟩ := hstep
          have hlength := congrArg List.length hparts
          rw [List.length_append, List.length_singleton] at hlength
          have hmax : kMaxRequestLine = 8192 := rfl
          exact ⟨parts, rest, by simp [← hparts], by omega, hstored⟩

/-- The automaton accepts exactly the lines of the grammar, and stores their parts. -/
theorem parseRequestLine_iff (line : Bytes) (hline : search kCRLF line+2 = line.length)
    (r : HttpRequest) : parseRequestLine {} line 0 = .ok (true, r) ↔
      line.length ≤ 8193 ∧ ∃ parts : LineParts, line = parts.text ∧ r = parts.store {} := by
  constructor
  · intro haccepted
    obtain ⟨parts, behind, hsplit, hlength, hstored⟩ :=
      lineLoop_reading {} rfl [] line { request := {} } .start r haccepted
    rw [List.nil_append] at hsplit
    -- the line ends at its first CRLF, so nothing follows the one that was accepted
    have hfirst : search kCRLF line ≤ parts.text.length-2 := by
      rw [hsplit, LineParts.text, List.length_append]
      exact search_le_occurrence kCRLF _ behind (by decide)
    have htext : 2 ≤ parts.text.length := by
      rw [LineParts.text, List.length_append]
      exact Nat.le_add_left _ _
    have hends := congrArg List.length hsplit
    rw [List.length_append] at hends
    obtain rfl : behind = [] := List.length_eq_zero_iff.mp (by omega)
    rw [List.append_nil] at hsplit
    exact ⟨by rwa [hsplit], parts, hsplit, hstored⟩
  · rintro ⟨hlength, parts, rfl, rfl⟩
    exact parseRequestLine_accepts {} rfl parts.method ((methods_iff _).mp parts.method_mem)
      parts.before parts.path parts.path_bytes parts.query parts.query_bytes parts.behind
      parts.version parts.version_known hlength

def queryLine : LineParts where
  method := bytes "GET"
  before := 1
  path := bytes "/a"
  query := some (bytes "b")
  behind := 0
  version := .kHttp11
  method_mem := get_mem
  path_bytes := by decide +kernel
  query_bytes := by
    rintro q ⟨⟩
    decide +kernel
  version_known := http11_known

theorem parseRequestLine_iff_query :
    parseRequestLine {} (bytes "GET  /a?b HTTP/1.1" ++ kCRLF) 0 = .ok (true, {
      method_ := .kGet
      path_ := bytes "/a"
      query_ := bytes "b"
      version_ := .kHttp11 }) :=
  (parseRequestLine_iff _ (by decide +kernel) _).mpr
    ⟨by decide +kernel, queryLine, by decide +kernel, by decide +kernel⟩

end MuServer
