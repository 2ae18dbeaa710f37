import MuServer.HttpRequest
import MuServer.Lib.Fallible

/-!
# The request-line automaton

`parseRequestLine` reads a range of the input buffer's memory byte by byte.
`line` is that range and its pointers are offsets from its start; when the
range reaches beyond the vector, `past` counts the bytes that have no memory
behind them and `line` holds the ones before. The request is written while
the line is read, so a rejected line leaves the fields stored so far.
-/

set_option autoImplicit false

namespace MuServer
open Lib.Fallible

def kMaxRequestLine : ℕ := 8192

inductive LineState where
  | kMethod | kSpacesBeforePath | kPath | kQuery | kSpacesBeforeVersion | kVersion | kCR | kDone
  deriving DecidableEq, Repr

structure LineScan where
  state : LineState := .kMethod
  method_start : Option ℕ := none
  path_start : Option ℕ := none
  query_start : Option ℕ := none
  version_start : Option ℕ := none
  request : HttpRequest
  deriving DecidableEq

inductive LineStep where
  | next (s : LineScan)
  | ret (accepted : Bool) (request : HttpRequest)
  deriving DecidableEq

def between (line : Bytes) (start : Option ℕ) (p : ℕ) : Except Fault Bytes :=
  match start with
  | some first => .ok ((line.take p).drop first)
  | none => .error .nullPointer

def lineStep (line : Bytes) (p : ℕ) (ch : Byte) (s : LineScan) : Except Fault LineStep :=
  match s.state with
  | .kMethod =>
    let first := s.method_start.getD p
    if ch = byte ' ' then
      if p = first then .ok (.ret false s.request)
      else do
        let method ← between line (some first) p
        let request ← s.request.setMethod method
        if request.isValidMethod then
          .ok (.next { s with
            state := .kSpacesBeforePath, method_start := some first, request := request })
        else .ok (.ret false request)
    else .ok (.next { s with method_start := some first })
  | .kSpacesBeforePath =>
    if ch = byte ' ' then .ok (.next s)
    else if ch ≠ byte '/' then .ok (.ret false s.request)
    else .ok (.next { s with state := .kPath, path_start := some p })
  | .kPath =>
    if ch = byte '?' then do
      let path ← between line s.path_start p
      .ok (.next { s with
        state := .kQuery, query_start := some (p+1), request := s.request.setPath path })
    else if ch = byte ' ' then do
      let path ← between line s.path_start p
      .ok (.next { s with state := .kSpacesBeforeVersion, request := s.request.setPath path })
    else if ch = CR ∨ ch = LF then .ok (.ret false s.request)
    else .ok (.next s)
  | .kQuery =>
    if ch = byte ' ' then do
      let query ← between line s.query_start p
      .ok (.next { s with state := .kSpacesBeforeVersion, request := s.request.setQuery query })
    else if ch = CR ∨ ch = LF then .ok (.ret false s.request)
    else .ok (.next s)
  | .kSpacesBeforeVersion =>
    if ch = byte ' ' then .ok (.next s)
    else if ch ≠ byte 'H' then .ok (.ret false s.request)
    else .ok (.next { s with state := .kVersion, version_start := some p })
  | .kVersion =>
    if ch = CR then do
      let v ← between line s.version_start p
      if v = bytes "HTTP/1.1" then
        .ok (.next { s with state := .kCR, request := s.request.setVersion .kHttp11 })
      else if v = bytes "HTTP/1.0" then
        .ok (.next { s with state := .kCR, request := s.request.setVersion .kHttp10 })
      else .ok (.ret false s.request)
    else .ok (.next s)
  | .kCR =>
    if ch = LF then .ok (.ret true s.request) else .ok (.ret false s.request)
  | .kDone => .ok (.ret true s.request)

/-- The loop from position `p` on, `rest` being the bytes not read yet. -/
def lineLoop (line : Bytes) (past : ℕ) : Bytes → ℕ → LineScan → Except Fault (Bool × HttpRequest)
  | [], p, s =>
    if past = 0 then .ok (false, s.request)
    else if kMaxRequestLine < p then .ok (false, s.request)
    else .error .outOfRange
  | ch::rest, p, s =>
    if kMaxRequestLine < p then .ok (false, s.request)
    else do
      match ← lineStep line p ch s with
      | .next t => lineLoop line past rest (p+1) t
      | .ret accepted request => .ok (accepted, request)

def parseRequestLine (request : HttpRequest) (line : Bytes) (past : ℕ) :
    Except Fault (Bool × HttpRequest) :=
  lineLoop line past line 0 { request := request }

/-- How a line can fail: an assert, a pointer that is not set, or a read of one
of the `past` bytes. -/
def LineFault (past : ℕ) (f : Fault) : Prop :=
  f = .assertion ∨ f = .nullPointer ∨ (f = .outOfRange ∧ past ≠ 0)

theorem between_faults (past : ℕ) (line : Bytes) (start : Option ℕ) (p : ℕ) :
    Ends (LineFault past) (between line start p) (fun _ => True) := by
  cases start with
  | none => exact ends_error _ _ _ (Or.inr (Or.inl rfl))
  | some first => exact ends_ok _ _ _ trivial

theorem setMethod_faults (past : ℕ) (request : HttpRequest) (method : Bytes) :
    Ends (LineFault past) (request.setMethod method) (fun _ => True) := by
  unfold HttpRequest.setMethod
  split
  · exact ends_ok _ _ _ trivial
  · exact ends_error _ _ _ (Or.inl rfl)

/-- Behind the method token the stored method is kept, and a line that is
refused or accepted leaves the request as it is. -/
def LineStep.Keeps (s : LineScan) : LineStep → Prop
  | .next t => s.state ≠ .kMethod →
      t.state ≠ .kMethod ∧ t.request.method_ = s.request.method_
  | .ret _ request => s.state ≠ .kMethod → request = s.request

theorem lineStep_spec (past : ℕ) (line : Bytes) (p : ℕ) (ch : Byte) (s : LineScan) :
    Ends (LineFault past) (lineStep line p ch s) (LineStep.Keeps s) := by
  unfold lineStep
  cases hs : s.state with
  | kMethod =>
    have hfree : ∀ r, LineStep.Keeps s r := by
      intro r
      cases r <;> exact fun h => absurd hs h
    dsimp only
    split
    · split
      · exact ends_ok _ _ _ (hfree _)
      · apply ends_bind _ (between_faults past _ _ _)
        intro method _
        apply ends_bind _ (setMethod_faults past _ _)
        intro request _
        split <;> exact ends_ok _ _ _ (hfree _)
    · exact ends_ok _ _ _ (hfree _)
  | kSpacesBeforePath | kSpacesBeforeVersion =>
    dsimp only
    split
    · exact ends_ok _ _ _ (fun h => ⟨h, rfl⟩)
    · split
      · exact ends_ok _ _ _ (fun _ => rfl)
      · exact ends_ok _ _ _ (fun _ => ⟨by simp, rfl⟩)
  | kPath =>
    dsimp only
    split
    · apply ends_bind _ (between_faults past _ _ _)
      intro path _
      exact ends_ok _ _ _ (fun _ => ⟨by simp, rfl⟩)
    · split
      · apply ends_bind _ (between_faults past _ _ _)
        intro path _
        exact ends_ok _ _ _ (fun _ => ⟨by simp, rfl⟩)
      · split
        · exact ends_ok _ _ _ (fun _ => rfl)
        · exact ends_ok _ _ _ (fun h => ⟨h, rfl⟩)
  | kQuery =>
    dsimp only
    split
    · apply ends_bind _ (between_faults past _ _ _)
      intro query _
      exact ends_ok _ _ _ (fun _ => ⟨by simp, rfl⟩)
    · split
      · exact ends_ok _ _ _ (fun _ => rfl)
      · exact ends_ok _ _ _ (fun h => ⟨h, rfl⟩)
  | kVersion =>
    dsimp only
    split
    · apply ends_bind _ (between_faults past _ _ _)
      intro v _
      split
      · exact ends_ok _ _ _ (fun _ => ⟨by simp, rfl⟩)
      · split
        · exact ends_ok _ _ _ (fun _ => ⟨by simp, rfl⟩)
        · exact ends_ok _ _ _ (fun _ => rfl)
    · exact ends_ok _ _ _ (fun h => ⟨h, rfl⟩)
  | kCR =>
    dsimp only
    split <;> exact ends_ok _ _ _ (fun _ => rfl)
  | kDone => exact ends_ok _ _ _ (fun _ => rfl)

theorem lineLoop_faults (line : Bytes) (past : ℕ) (rest : Bytes) (p : ℕ) (s : LineScan) :
    Ends (LineFault past) (lineLoop line past rest p s) (fun _ => True) := by
  induction rest generalizing p s with
  | nil =>
    rw [lineLoop]
    split
    · exact ends_ok _ _ _ trivial
    · split
      · exact ends_ok _ _ _ trivial
      · exact ends_error _ _ _ (Or.inr (Or.inr ⟨rfl, ‹_›⟩))
  | cons ch rest ih =>
    rw [lineLoop]
    split
    · exact ends_ok _ _ _ trivial
    · apply ends_bind _ (lineStep_spec past line p ch s)
      intro r _
      cases r with
      | next u => exact ih (p+1) u
      | ret accepted request => exact ends_ok _ _ _ trivial

theorem lineLoop_next (line : Bytes) (past : ℕ) (ch : Byte) (rest : Bytes) (p : ℕ)
    (s t : LineScan) (hp : p ≤ kMaxRequestLine) (h : lineStep line p ch s = .ok (.next t)) :
    lineLoop line past (ch::rest) p s = lineLoop line past rest (p+1) t := by
  rw [lineLoop, if_neg (by omega), h]
  rfl

theorem lineLoop_ret (line : Bytes) (past : ℕ) (ch : Byte) (rest : Bytes) (p : ℕ)
    (s : LineScan) (b : Bool) (r : HttpRequest) (hp : p ≤ kMaxRequestLine)
    (h : lineStep line p ch s = .ok (.ret b r)) :
    lineLoop line past (ch::rest) p s = .ok (b, r) := by
  rw [lineLoop, if_neg (by omega), h]
  rfl

theorem lineLoop_stay (line : Bytes) (past : ℕ) (chunk rest : Bytes) (p : ℕ) (s : LineScan)
    (hp : p+chunk.length ≤ kMaxRequestLine+1)
    (h : ∀ ch ∈ chunk, ∀ q, lineStep line q ch s = .ok (.next s)) :
    lineLoop line past (chunk ++ rest) p s = lineLoop line past rest (p+chunk.length) s := by
  induction chunk generalizing p with
  | nil => rfl
  | cons ch chunk ih =>
    simp only [List.length_cons] at hp ⊢
    rw [List.cons_append, lineLoop_next line past ch _ p s s (by omega) (h ch (by simp) p),
      ih (p+1) (by omega) (fun c hc => h c (by simp [hc]))]
    congr 1
    omega

theorem between_split (pre mid post : Bytes) :
    between (pre ++ mid ++ post) (some pre.length) (pre ++ mid).length = .ok mid := by
  simp only [between]
  rw [List.take_left, List.drop_left]

/-- `between_split` for positions and lines given up to an equation. -/
theorem between_at (line pre mid post : Bytes) (p q : ℕ) (hl : line = pre ++ mid ++ post)
    (hp : p = pre.length) (hq : q = pre.length+mid.length) :
    between line (some p) q = .ok mid := by
  subst hl hp hq
  rw [← List.length_append]
  exact between_split pre mid post

theorem methodToken_stay (line : Bytes) (s : LineScan) (hs : s.state = .kMethod) (k : ℕ)
    (hk : s.method_start = some k) (ch : Byte) (hc : ch ≠ byte ' ') (p : ℕ) :
    lineStep line p ch s = .ok (.next s) := by
  obtain ⟨state, ms, ps, qs, vs, r⟩ := s
  subst hs hk
  simp [lineStep, hc]

theorem lineLoop_token (line : Bytes) (past : ℕ) (c : Byte) (token rest : Bytes)
    (request : HttpRequest) (hlen : token.length < kMaxRequestLine)
    (ht : ∀ ch ∈ c::token, ch ≠ byte ' ') :
    lineLoop line past ((c::token) ++ rest) 0 { request := request } =
      lineLoop line past rest (token.length+1)
        { method_start := some 0, request := request } := by
  have hc : c ≠ byte ' ' := ht c (by simp)
  rw [List.cons_append, lineLoop_next line past c _ 0 _
    { method_start := some 0, request := request } (by omega) (by simp [lineStep, hc]),
    lineLoop_stay line past token rest 1 _ (by omega)
      (fun ch hch q => methodToken_stay line _ rfl 0 rfl ch (ht ch (by simp [hch])) q)]
  congr 1
  omega

theorem lineStep_method (c : Byte) (token rest : Bytes) (request : HttpRequest) :
    lineStep ((c::token) ++ rest) (token.length+1) (byte ' ')
        { method_start := some 0, request := request } =
      if request.method_ = .kInvalid then
        if methodOf (c::token) = .kInvalid then .ok (.ret false request)
        else .ok (.next {
          state := .kSpacesBeforePath
          method_start := some 0
          request := { request with method_ := methodOf (c::token) } })
      else .error .assertion := by
  have hb : between ((c::token) ++ rest) (some 0) (token.length+1) = .ok (c::token) :=
    between_at _ [] (c::token) rest 0 _ rfl rfl (by simp)
  have hv := HttpRequest.isValidMethod_iff { request with method_ := methodOf (c::token) }
  simp only [lineStep, Option.getD_some, hb, HttpRequest.setMethod]
  by_cases hr : request.method_ = .kInvalid
  · by_cases hm : methodOf (c::token) = .kInvalid
    · have hf : ({ request with method_ := methodOf (c::token) } : HttpRequest) = request := by
        rw [hm, ← hr]
      simp_all [bind, Except.bind]
    · simp [hr, hm, hv, bind, Except.bind]
  · simp [hr, bind, Except.bind]

def blanks (n : ℕ) : Bytes := List.replicate n (byte ' ')

/-- The text of a request line: a method, blanks, a path with an optional
query, blanks and a version. -/
def requestLine (method : Bytes) (i : ℕ) (path : Bytes) (query : Option Bytes) (j : ℕ)
    (version : Bytes) : Bytes :=
  let target := match query with
    | some q => path ++ byte '?'::q
    | none => path
  method ++ byte ' '::(blanks i ++ (target ++ byte ' '::(blanks j ++ version)))

def versionText : Version → Bytes
  | .kHttp10 => bytes "HTTP/1.0"
  | _ => bytes "HTTP/1.1"

def PathBytes (path : Bytes) : Prop :=
  path.head? = some (byte '/') ∧ ∀ c ∈ path, c ≠ byte ' ' ∧ c ≠ byte '?' ∧ c ≠ CR ∧ c ≠ LF

def QueryBytes (query : Bytes) : Prop := ∀ c ∈ query, c ≠ byte ' ' ∧ c ≠ CR ∧ c ≠ LF

instance (path : Bytes) : Decidable (PathBytes path) := inferInstanceAs (Decidable (_ ∧ _))

instance (query : Bytes) : Decidable (QueryBytes query) :=
  inferInstanceAs (Decidable (∀ c ∈ query, _))

theorem root_path : PathBytes (bytes "/") := by decide +kernel

theorem no_query : ∀ q ∈ (none : Option Bytes), QueryBytes q := by simp

theorem http11_known : Version.kHttp11 ≠ .kUnkown := by decide

theorem blanks_stay (line : Bytes) (s : LineScan)
    (hs : s.state = .kSpacesBeforePath ∨ s.state = .kSpacesBeforeVersion) (n : ℕ) :
    ∀ ch ∈ blanks n, ∀ p, lineStep line p ch s = .ok (.next s) := by
  intro ch hch p
  have hb := List.eq_of_mem_replicate hch
  rcases hs with hs | hs <;> simp [lineStep, hs, hb]

theorem path_phase (line : Bytes) (past : ℕ) (pre path post rest : Bytes) (d : Byte) (p : ℕ)
    (s : LineScan) (hs : s.state = .kSpacesBeforePath) (hpath : PathBytes path)
    (hline : line = pre ++ path ++ post) (hp : p = pre.length)
    (hd : d = byte '?' ∨ d = byte ' ') (hlen : p+path.length ≤ kMaxRequestLine) :
    lineLoop line past (path ++ d::rest) p s = lineLoop line past rest (p+path.length+1)
      { s with
        state := if d = byte '?' then .kQuery else .kSpacesBeforeVersion
        path_start := some p
        query_start := if d = byte '?' then some (p+path.length+1) else s.query_start
        request := s.request.setPath path } := by
  obtain ⟨hhead, hbytes⟩ := hpath
  have hb : between line (some p) (p+path.length) = .ok path :=
    between_at line pre path post p _ hline hp (by rw [hp])
  obtain ⟨c, tail, rfl⟩ := List.exists_cons_of_ne_nil
    (l := path) (by rintro rfl; simp at hhead)
  obtain rfl : c = byte '/' := by simpa using hhead
  simp only [List.length_cons] at hlen hb ⊢
  rw [List.cons_append, lineLoop_next line past _ _ p s
      { s with state := .kPath, path_start := some p } (by omega)
      (by simp [lineStep, hs, show byte '/' ≠ byte ' ' by decide]),
    lineLoop_stay line past tail _ (p+1) _ (by omega) ?_,
    lineLoop_next line past d rest _ _ _ (by omega) ?_]
  · congr 1
    omega
  · have he : p+1+tail.length = p+(tail.length+1) := by omega
    rcases hd with rfl | rfl <;>
      simp [lineStep, he, hb, bind, Except.bind, show byte ' ' ≠ byte '?' by decide]
  · intro ch hch q
    have := hbytes ch (by simp [hch])
    simp [lineStep, this]

theorem query_phase (line : Bytes) (past : ℕ) (pre query post rest : Bytes) (p : ℕ)
    (s : LineScan) (hs : s.state = .kQuery) (hq : s.query_start = some p)
    (hquery : QueryBytes query) (hline : line = pre ++ query ++ post) (hp : p = pre.length)
    (hlen : p+query.length ≤ kMaxRequestLine) :
    lineLoop line past (query ++ byte ' '::rest) p s =
      lineLoop line past rest (p+query.length+1)
        { s with state := .kSpacesBeforeVersion, request := s.request.setQuery query } := by
  have hb : between line (some p) (p+query.length) = .ok query :=
    between_at line pre query post p _ hline hp (by rw [hp])
  rw [lineLoop_stay line past query _ p s (by omega) ?_,
    lineLoop_next line past _ rest _ s _ (by omega) ?_]
  · simp [lineStep, hs, hq, hb, bind, Except.bind]
  · intro ch hch q
    have := hquery ch hch
    simp [lineStep, hs, this]

theorem versionText_cases (v : Version) (hv : v ≠ .kUnkown) :
    (v = .kHttp10 ∧ versionText v = bytes "HTTP/1.0") ∨
      (v = .kHttp11 ∧ versionText v = bytes "HTTP/1.1") := by
  cases v with
  | kUnkown => exact absurd rfl hv
  | kHttp10 => exact Or.inl ⟨rfl, rfl⟩
  | kHttp11 => exact Or.inr ⟨rfl, rfl⟩

theorem version_phase (line : Bytes) (past : ℕ) (pre post rest : Bytes) (v : Version) (p : ℕ)
    (s : LineScan) (hs : s.state = .kSpacesBeforeVersion) (hv : v ≠ .kUnkown)
    (hline : line = pre ++ versionText v ++ post) (hp : p = pre.length)
    (hlen : p+9 ≤ kMaxRequestLine) :
    lineLoop line past (versionText v ++ CR::LF::rest) p s =
      .ok (true, s.request.setVersion v) := by
  have hl : (versionText v).length = 8 := by cases v <;> rfl
  have hb : between line (some p) (p+8) = .ok (versionText v) :=
    between_at line pre (versionText v) post p _ hline hp (by rw [hp, hl])
  have hcr : ∀ c ∈ versionText v, c ≠ CR := by cases v <;> decide +kernel
  have hh : (versionText v).head? = some (byte 'H') := by cases v <;> rfl
  obtain ⟨c, tail, ht⟩ := List.exists_cons_of_ne_nil
    (l := versionText v) (by intro h; rw [h] at hl; simp at hl)
  rw [ht] at hh hl hcr
  obtain rfl : c = byte 'H' := by simpa using hh
  have hl' : tail.length = 7 := by simpa using hl
  rw [ht, List.cons_append, lineLoop_next line past _ _ p s
      { s with state := .kVersion, version_start := some p } (by omega)
      (by simp [lineStep, hs, show byte 'H' ≠ byte ' ' by decide]),
    lineLoop_stay line past tail _ (p+1) _ (by omega) ?_, hl',
    lineLoop_next line past CR _ _ _
      { s with state := .kCR, version_start := some p, request := s.request.setVersion v }
      (by omega) ?_,
    lineLoop_ret line past LF rest _ _ true (s.request.setVersion v) (by omega)
      (by simp [lineStep])]
  · rcases versionText_cases v hv with ⟨rfl, h⟩ | ⟨rfl, h⟩ <;>
      simp [lineStep, hb, h, bind, Except.bind, show bytes "HTTP/1.0" ≠ bytes "HTTP/1.1" by decide]
  · intro ch hch q
    have := hcr ch (by simp [hch])
    simp [lineStep, this]

theorem line_end (line pre : Bytes) (j : ℕ) (v : Version) (p : ℕ) (s : LineScan)
    (hs : s.state = .kSpacesBeforeVersion) (hv : v ≠ .kUnkown)
    (hline : line = pre ++ (blanks j ++ (versionText v ++ kCRLF))) (hp : p = pre.length)
    (hlen : line.length ≤ 8193) :
    lineLoop line 0 (blanks j ++ (versionText v ++ kCRLF)) p s =
      .ok (true, s.request.setVersion v) := by
  have hk : kMaxRequestLine = 8192 := rfl
  have hb : (blanks j).length = j := List.length_replicate
  have hvl : (versionText v).length = 8 := by cases v <;> rfl
  have hll := congrArg List.length hline
  simp only [List.length_append, hb, hvl, kCRLF, List.length_cons, List.length_nil] at hll
  rw [lineLoop_stay line 0 (blanks j) _ p s (by omega) (blanks_stay line s (Or.inr hs) j)]
  exact version_phase line 0 (pre ++ blanks j) kCRLF [] v _ s hs hv (by simp [hline])
    (by simp [hp]) (by omega)

theorem methodOf_token (method : Bytes) (hm : methodOf method ≠ .kInvalid) :
    (∃ c token, method = c::token) ∧ (∀ ch ∈ method, ch ≠ byte ' ') ∧ method.length ≤ 6 := by
  have key : ∀ m ∈ [bytes "GET", bytes "POST", bytes "DELETE", bytes "PUT", bytes "HEAD"],
      m ≠ [] ∧ (∀ ch ∈ m, ch ≠ byte ' ') ∧ m.length ≤ 6 := by decide +kernel
  obtain ⟨hne, hsp, hlen⟩ := key method (HttpRequest.methodOf_valid method hm)
  exact ⟨List.exists_cons_of_ne_nil hne, hsp, hlen⟩

theorem method_phase (line : Bytes) (past : ℕ) (method : Bytes) (i : ℕ) (rest : Bytes)
    (request : HttpRequest) (hr : request.method_ = .kInvalid) (hm : methodOf method ≠ .kInvalid)
    (hline : line = method ++ byte ' '::(blanks i ++ rest))
    (hlen : method.length+1+i ≤ kMaxRequestLine) :
    lineLoop line past line 0 { request := request } =
      lineLoop line past rest (method.length+1+i) {
        state := .kSpacesBeforePath
        method_start := some 0
        request := { request with method_ := methodOf method } } := by
  obtain ⟨⟨c, token, rfl⟩, hsp, -⟩ := methodOf_token method hm
  have hb : (blanks i).length = i := List.length_replicate
  have hstep : lineStep line (token.length+1) (byte ' ')
      { method_start := some 0, request := request } = .ok (.next {
        state := .kSpacesBeforePath
        method_start := some 0
        request := { request with method_ := methodOf (c::token) } }) := by
    rw [hline, lineStep_method, if_pos hr, if_neg hm]
  have hl : lineLoop line past line 0 { request := request } =
      lineLoop line past ((c::token) ++ byte ' '::(blanks i ++ rest)) 0 { request := request } := by
    rw [← hline]
  simp only [List.length_cons] at hlen
  rw [hl, lineLoop_token line past c token _ request (by omega) hsp,
    lineLoop_next line past _ _ _ _ _ (by omega) hstep,
    lineLoop_stay line past (blanks i) _ _ _ (by omega) (blanks_stay line _ (Or.inl rfl) i), hb,
    List.length_cons]

theorem parseRequestLine_accepts (request : HttpRequest) (hr : request.method_ = .kInvalid)
    (method : Bytes) (hm : methodOf method ≠ .kInvalid) (i : ℕ) (path : Bytes)
    (hpath : PathBytes path) (query : Option Bytes) (hquery : ∀ q ∈ query, QueryBytes q) (j : ℕ)
    (v : Version) (hv : v ≠ .kUnkown)
    (hlen : (requestLine method i path query j (versionText v) ++ kCRLF).length ≤ 8193) :
    parseRequestLine request (requestLine method i path query j (versionText v) ++ kCRLF) 0 =
      .ok (true, { request with
        method_ := methodOf method
        path_ := path
        query_ := query.getD request.query_
        version_ := v }) := by
  have hk : kMaxRequestLine = 8192 := rfl
  have hb : ∀ n, (blanks n).length = n := fun n => List.length_replicate
  obtain ⟨line, hl⟩ : ∃ line,
      line = requestLine method i path query j (versionText v) ++ kCRLF := ⟨_, rfl⟩
  -- the bytes behind the path's delimiter, up to the version
  obtain ⟨tail, htail⟩ : ∃ tail, tail = blanks j ++ (versionText v ++ kCRLF) := ⟨_, rfl⟩
  rw [← hl] at hlen ⊢
  cases query with
  | none =>
    have hline : line = method ++ byte ' '::(blanks i ++ (path ++ byte ' '::tail)) := by
      simp [hl, htail, requestLine]
    have hll := congrArg List.length hline
    simp only [List.length_append, List.length_cons, hb] at hll
    have hend := line_end line (method ++ byte ' '::(blanks i ++ (path ++ [byte ' ']))) j v
    rw [← htail] at hend
    rw [parseRequestLine, method_phase line 0 method i _ request hr hm hline (by omega),
      path_phase line 0 (method ++ byte ' '::blanks i) path (byte ' '::tail) tail (byte ' ') _ _
        rfl hpath (by simp [hline]) (by simp [hb]; omega) (Or.inr rfl) (by omega),
      hend _ _ (by simp [show byte ' ' ≠ byte '?' by decide]) hv (by simp [hline])
        (by simp [hb]; omega) hlen]
    rfl
  | some q =>
    have hline : line =
        method ++ byte ' '::(blanks i ++ (path ++ byte '?'::(q ++ byte ' '::tail))) := by
      simp [hl, htail, requestLine]
    have hll := congrArg List.length hline
    simp only [List.length_append, List.length_cons, hb] at hll
    have hend := line_end line
      (method ++ byte ' '::(blanks i ++ (path ++ byte '?'::(q ++ [byte ' '])))) j v
    rw [← htail] at hend
    rw [parseRequestLine, method_phase line 0 method i _ request hr hm hline (by omega),
      path_phase line 0 (method ++ byte ' '::blanks i) path (byte '?'::(q ++ byte ' '::tail)) _
        (byte '?') _ _ rfl hpath (by simp [hline]) (by simp [hb]; omega) (Or.inl rfl) (by omega),
      query_phase line 0 (method ++ byte ' '::(blanks i ++ (path ++ [byte '?']))) q
        (byte ' '::tail) tail _ _ (by simp) (by simp) (hquery q rfl) (by simp [hline])
        (by simp [hb]; omega) (by omega),
      hend _ _ rfl hv (by simp [hline]) (by simp [hb]; omega) hlen]
    rfl

theorem lineStep_keeps (line : Bytes) (p : ℕ) (ch : Byte) (s : LineScan) (r : LineStep)
    (h : lineStep line p ch s = .ok r) : r.Keeps s := by
  have hspec := lineStep_spec 0 line p ch s
  rw [h] at hspec
  exact hspec

theorem lineLoop_keeps_method (line : Bytes) (past : ℕ) (rest : Bytes) (p : ℕ) (s : LineScan)
    (hs : s.state ≠ .kMethod) (b : Bool) (r : HttpRequest)
    (h : lineLoop line past rest p s = .ok (b, r)) : r.method_ = s.request.method_ := by
  induction rest generalizing p s with
  | nil =>
    simp only [lineLoop] at h
    split_ifs at h <;> simp_all
  | cons ch rest ih =>
    by_cases hp : kMaxRequestLine < p
    · simp only [lineLoop, if_pos hp, Except.ok.injEq, Prod.mk.injEq] at h
      rw [← h.2]
    · cases hstep : lineStep line p ch s with
      | error f => simp [lineLoop, hp, hstep, bind, Except.bind] at h
      | ok step =>
        cases step with
        | next t =>
          rw [lineLoop_next line past ch rest p s t (by omega) hstep] at h
          obtain ⟨ht, hm⟩ := lineStep_keeps line p ch s _ hstep hs
          exact (ih (p+1) t ht h).trans hm
        | ret b' r' =>
          rw [lineLoop_ret line past ch rest p s b' r' (by omega) hstep] at h
          simp only [Except.ok.injEq, Prod.mk.injEq] at h
          rw [← h.2, lineStep_keeps line p ch s _ hstep hs]

/-- A line that names a method stores it, and needs a request without one. -/
theorem parseRequestLine_method (request : HttpRequest) (token rest : Bytes) (past : ℕ)
    (ht : ∀ ch ∈ token, ch ≠ byte ' ') (hm : methodOf token ≠ .kInvalid) (b : Bool)
    (r : HttpRequest)
    (h : parseRequestLine request (token ++ byte ' '::rest) past = .ok (b, r)) :
    request.method_ = .kInvalid ∧ r.method_ = methodOf token := by
  obtain ⟨⟨c, tail, rfl⟩, -, hlen⟩ := methodOf_token token hm
  have hk : kMaxRequestLine = 8192 := rfl
  simp only [List.length_cons] at hlen
  rw [parseRequestLine, lineLoop_token _ past c tail _ request (by omega) ht] at h
  have hstep := lineStep_method c tail (byte ' '::rest) request
  by_cases hr : request.method_ = .kInvalid
  · rw [if_pos hr, if_neg hm] at hstep
    rw [lineLoop_next _ past _ rest _ _ _ (by omega) hstep] at h
    exact ⟨hr, lineLoop_keeps_method _ past rest _ _ (by simp) b r h⟩
  · rw [if_neg hr] at hstep
    rw [lineLoop, if_neg (by omega), hstep] at h
    simp [bind, Except.bind] at h

/-- An accepted line names a method, and the request had none before. -/
theorem lineLoop_true (line : Bytes) (past : ℕ) (rest : Bytes) (p first : ℕ) (s : LineScan)
    (hs : s.state = .kMethod) (hf : s.method_start.getD p = first) (r : HttpRequest)
    (h : lineLoop line past rest p s = .ok (true, r)) :
    s.request.method_ = .kInvalid ∧ ∃ token post, rest = token ++ byte ' '::post ∧
      (∀ ch ∈ token, ch ≠ byte ' ') ∧
      methodOf ((line.take (p+token.length)).drop first) ≠ .kInvalid := by
  induction rest generalizing p s with
  | nil =>
    simp only [lineLoop] at h
    split_ifs at h <;> simp_all
  | cons ch rest ih =>
    by_cases hp : kMaxRequestLine < p
    · simp [lineLoop, hp] at h
    · by_cases hc : ch = byte ' '
      · subst ch
        by_cases hpf : p = first
        · have hstep : lineStep line p (byte ' ') s = .ok (.ret false s.request) := by
            simp only [lineStep, hs]
            rw [hf, if_pos trivial, if_pos hpf]
          rw [lineLoop_ret line past _ rest p s _ _ (by omega) hstep] at h
          simp at h
        · by_cases hr : s.request.method_ = .kInvalid
          · refine ⟨hr, [], rest, rfl, by simp, fun hm => ?_⟩
            have hv := HttpRequest.isValidMethod_iff
              { s.request with method_ := methodOf ((line.take p).drop first) }
            have hstep : lineStep line p (byte ' ') s =
                .ok (.ret false { s.request with
                  method_ := methodOf ((line.take p).drop first) }) := by
              simp_all [lineStep, between, HttpRequest.setMethod, bind, Except.bind]
            rw [lineLoop_ret line past _ rest p s _ _ (by omega) hstep] at h
            simp at h
          · have hstep : lineStep line p (byte ' ') s = .error .assertion := by
              simp [lineStep, hs, hf, hpf, between, HttpRequest.setMethod, hr, bind, Except.bind]
            rw [lineLoop, if_neg (by omega), hstep] at h
            simp [bind, Except.bind] at h
      · have hstep : lineStep line p ch s = .ok (.next { s with method_start := some first }) := by
          simp [lineStep, hs, hf, hc]
        rw [lineLoop_next line past ch rest p s _ (by omega) hstep] at h
        obtain ⟨hr, token, post, hrest, ht, hm⟩ :=
          ih (p+1) { s with method_start := some first } hs rfl h
        refine ⟨hr, ch::token, post, by simp [hrest], ?_, ?_⟩
        · intro x hx
          rcases List.mem_cons.mp hx with rfl | hx
          · exact hc
          · exact ht x hx
        · rwa [List.length_cons, Nat.add_comm token.length 1, ← Nat.add_assoc]

theorem parseRequestLine_true (request : HttpRequest) (line : Bytes) (past : ℕ) (r : HttpRequest)
    (h : parseRequestLine request line past = .ok (true, r)) :
    request.method_ = .kInvalid ∧ ∃ token rest, line = token ++ byte ' '::rest ∧
      (∀ ch ∈ token, ch ≠ byte ' ') ∧ methodOf token ≠ .kInvalid := by
  obtain ⟨hr, token, rest, hline, ht, hm⟩ :=
    lineLoop_true line past line 0 0 { request := request } rfl rfl r h
  refine ⟨hr, token, rest, hline, ht, ?_⟩
  rwa [hline, Nat.zero_add, List.take_left, List.drop_zero] at hm

def LineScan.reframe (s : LineScan) (body : Bytes) (t : TimeStamp) : LineScan :=
  { s with request := s.request.reframe body t }

def LineStep.reframe (body : Bytes) (t : TimeStamp) : LineStep → LineStep
  | .next s => .next (s.reframe body t)
  | .ret b r => .ret b (r.reframe body t)

theorem isValidMethod_reframe (r : HttpRequest) (body : Bytes) (t : TimeStamp) :
    (r.reframe body t).isValidMethod = r.isValidMethod := rfl

theorem setMethod_reframe (r : HttpRequest) (body method : Bytes) (t : TimeStamp) :
    (r.reframe body t).setMethod method = (r.setMethod method).map (·.reframe body t) := by
  unfold HttpRequest.setMethod HttpRequest.reframe
  by_cases h : r.method_ = .kInvalid <;> simp [h, Except.map]

theorem lineStep_reframe (line : Bytes) (p : ℕ) (ch : Byte) (s : LineScan) (body : Bytes)
    (t : TimeStamp) :
    lineStep line p ch (s.reframe body t) =
      (lineStep line p ch s).map (LineStep.reframe body t) := by
  obtain ⟨state, ms, ps, qs, vs, r⟩ := s
  cases state with
  | kMethod =>
    simp only [lineStep, LineScan.reframe, setMethod_reframe]
    by_cases hc : ch = byte ' '
    · by_cases hp : p = ms.getD p
      · simp only [if_pos hc, if_pos hp, Except.map, LineStep.reframe]
      · simp only [if_pos hc, if_neg hp, between, bind, Except.bind]
        cases hm : r.setMethod ((line.take p).drop (ms.getD p)) with
        | error f => simp [Except.map]
        | ok r' =>
          by_cases hv : r'.isValidMethod = true <;>
            simp [Except.map, isValidMethod_reframe, hv, LineStep.reframe, LineScan.reframe]
    · simp only [if_neg hc, Except.map, LineStep.reframe, LineScan.reframe]
  | kPath =>
    cases ps <;> simp only [lineStep, LineScan.reframe, between, bind, Except.bind] <;>
      split_ifs <;> rfl
  | kQuery =>
    cases qs <;> simp only [lineStep, LineScan.reframe, between, bind, Except.bind] <;>
      split_ifs <;> rfl
  | kVersion =>
    cases vs <;> simp only [lineStep, LineScan.reframe, between, bind, Except.bind] <;>
      split_ifs <;> rfl
  | kSpacesBeforePath => simp only [lineStep, LineScan.reframe]; split_ifs <;> rfl
  | kSpacesBeforeVersion => simp only [lineStep, LineScan.reframe]; split_ifs <;> rfl
  | kCR => simp only [lineStep, LineScan.reframe]; split_ifs <;> rfl
  | kDone => rfl

theorem lineLoop_reframe (line : Bytes) (past : ℕ) (rest : Bytes) (p : ℕ) (s : LineScan)
    (body : Bytes) (t : TimeStamp) :
    lineLoop line past rest p (s.reframe body t) =
      (lineLoop line past rest p s).map (fun r => (r.1, r.2.reframe body t)) := by
  induction rest generalizing p s with
  | nil =>
    simp only [lineLoop, LineScan.reframe]
    split_ifs <;> rfl
  | cons ch rest ih =>
    simp only [lineLoop, lineStep_reframe]
    by_cases hp : kMaxRequestLine < p
    · simp only [if_pos hp, Except.map, LineScan.reframe]
    · simp only [if_neg hp]
      cases h : lineStep line p ch s with
      | error f => rfl
      | ok u =>
        cases u with
        | next u => exact ih (p+1) u
        | ret b r => rfl

theorem parseRequestLine_reframe (request : HttpRequest) (line : Bytes) (past : ℕ) (body : Bytes)
    (t : TimeStamp) :
    parseRequestLine (request.reframe body t) line past =
      (parseRequestLine request line past).map (fun r => (r.1, r.2.reframe body t)) :=
  lineLoop_reframe line past line 0 { request := request } body t

end MuServer
