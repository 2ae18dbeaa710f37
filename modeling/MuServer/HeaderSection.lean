import MuServer.HttpRoundTrip
import MuServer.RequestLineGrammar
import MuServer.StaleBytes

/-!
# The header section

The parser takes the first line without a colon for the end of the header
section, be it empty or not. `scanLoop_section` splits what a call has passed
on its way from the request line, and `outcome_section` says what it makes of
a section of any fields with any last line.
-/

set_option autoImplicit false

namespace MuServer
open Lib.Search Lib.Fallible

def fieldsText (fields : List Field) : Bytes := fields.flatMap (fun f => f.text ++ kCRLF)

def lastValue (fields : List Field) (name : Bytes) : Option Bytes :=
  (fields.map Field.entry).reverse.lookup name

def storeFields (r : HttpRequest) (fields : List Field) : HttpRequest :=
  storeHeaders r (fields.map Field.entry)

theorem storeHeaders_last (hs : List (Bytes × Bytes)) (r : HttpRequest) (hr : r.headers_ = ∅)
    (name : Bytes) : (storeHeaders r hs).headers_.lookup name = hs.reverse.lookup name := by
  induction hs using List.reverseRecOn with
  | nil =>
    simp only [storeHeaders, List.foldl_nil, hr, Finmap.lookup_empty]
    rfl
  | append_singleton hs h ih =>
    obtain ⟨field, value⟩ := h
    have hstored : (storeHeaders r (hs ++ [(field, value)])).headers_ =
        (storeHeaders r hs).headers_.insert field value := by
      simp [storeHeaders, HttpRequest.insertHeader]
    rw [hstored, List.reverse_append, List.reverse_singleton, List.singleton_append]
    by_cases hname : name = field
    · rw [hname, Finmap.lookup_insert]
      simp
    · have hbeq : (name == field) = false := by simpa using hname
      rw [Finmap.lookup_insert_of_ne _ hname, ih, List.lookup_cons, hbeq]

theorem unread_line (unread : Bytes) (h : search kCRLF unread+2 ≤ unread.length) :
    unread = unread.take (search kCRLF unread) ++ kCRLF ++ unread.drop (search kCRLF unread+2)
      ∧ ¬ kCRLF <:+: unread.take (search kCRLF unread) := by
  have hlt : search kCRLF unread < unread.length := by omega
  refine ⟨?_, search_front kCRLF unread (by decide) hlt⟩
  obtain ⟨rest, hrest⟩ := search_hit kCRLF unread hlt
  have hlength : (unread.take (search kCRLF unread) ++ kCRLF).length =
      search kCRLF unread+2 := by
    rw [List.length_append, List.length_take, Nat.min_eq_left hlt.le]
    rfl
  have hdrop := congrArg (List.drop (search kCRLF unread+2)) hrest
  rw [← hlength, List.drop_left, hlength] at hdrop
  rw [hdrop]
  exact hrest

theorem line_field (line : Bytes) (hcolon : byte ':' ∈ line) (hfree : ¬ kCRLF <:+: line) :
    ∃ f : Field, f.text = line := by
  obtain ⟨name, raw, rfl, hname⟩ := List.eq_append_cons_of_mem hcolon
  exact ⟨⟨name, raw, hname, hfree⟩, rfl⟩

theorem scanLoop_fields (stale : Bytes) (t : TimeStamp) (fields : List Field) (rest : Bytes)
    (hrest : rest ≠ []) (n : ℕ) (s : Scan) (hm : s.hasMore = true)
    (hst : s.context.state_ = .kExpectRequestHeader) (hu : s.unread = fieldsText fields ++ rest) :
    scanLoop stale t (fields.length+n) s = scanLoop stale t n
      ({ s with unread := rest }.setRequest (storeFields s.context.request_ fields)) := by
  induction fields generalizing s with
  | nil =>
    obtain ⟨⟨state, request⟩, unread, done, more, len⟩ := s
    simp only [fieldsText, List.flatMap_nil, List.nil_append] at hu
    subst hu
    simp [storeFields, storeHeaders, Scan.setRequest]
  | cons f fields ih =>
    rw [fieldsText, List.flatMap_cons, List.append_assoc] at hu
    have hne : fieldsText fields ++ rest ≠ [] := by simp [hrest]
    have hstep := scanHeader_field s f _ hne hu
    rw [List.length_cons, Nat.add_right_comm,
      scanLoop_step stale t _ s _ hm (by rw [scanStep, hst]; exact hstep),
      ih _ (by simpa [Scan.setRequest] using hm) (by simpa [Scan.setRequest] using hst)
        (by simp [Scan.setRequest])]
    rfl

theorem scanLoop_section (stale : Bytes) (t : TimeStamp) (n : ℕ) (s f : Scan)
    (hm : s.hasMore = true) (hst : s.context.state_ = .kExpectRequestHeader)
    (h : scanLoop stale t n s = .ok f) : ∃ (fields : List Field) (line rest : Bytes),
      byte ':' ∉ line ∧ ¬ kCRLF <:+: line
      ∧ s.unread = fieldsText fields ++ (line ++ kCRLF ++ rest) := by
  induction n generalizing s with
  | zero => simp [scanLoop, hm] at h
  | succ n ih =>
    cases hstep : scanStep stale t s with
    | error e =>
      rw [scanLoop, if_pos hm, hstep] at h
      cases h
    | ok s' =>
      rw [scanLoop_step stale t n s s' hm hstep] at h
      rw [scanStep, hst] at hstep
      obtain ⟨hle, hcases⟩ := scanHeader_ok s s' hstep
      obtain ⟨hsplit, hfree⟩ := unread_line s.unread hle
      rcases hcases with ⟨hcolon, -, hs'⟩ | ⟨hcolon, -⟩ | ⟨hcolon, -⟩
      · have hm' : s'.hasMore = true := by rw [hs']; exact hm
        have hst' : s'.context.state_ = .kExpectRequestHeader := by rw [hs']; exact hst
        have hunread : s'.unread = s.unread.drop (search kCRLF s.unread+2) := by rw [hs']; rfl
        obtain ⟨field, hfield⟩ := line_field _ (List.idxOf_lt_length_iff.mp
          (lt_of_le_of_ne List.idxOf_le_length hcolon)) hfree
        obtain ⟨fields, line, rest, hc, hf, hu⟩ := ih s' hm' hst' h
        refine ⟨field::fields, line, rest, hc, hf, ?_⟩
        rw [fieldsText, List.flatMap_cons, List.append_assoc, hfield, ← fieldsText, ← hu, hunread]
        exact hsplit
      · exact ⟨[], _, _, List.idxOf_eq_length_iff.mp hcolon, hfree, hsplit⟩
      · exact ⟨[], _, _, List.idxOf_eq_length_iff.mp hcolon, hfree, hsplit⟩

theorem lineLoop_ends (read rest : Bytes) (s : LineScan) (h : Reading {} read s) :
    Ends (fun _ => False) (lineLoop (read ++ rest) 0 rest read.length s) (fun _ => True) := by
  induction rest generalizing read s with
  | nil => trivial
  | cons ch rest ih =>
    rw [lineLoop]
    split
    · trivial
    · have hstep := reading_step {} rest ch rfl read s h
      apply ends_bind _ hstep
      intro r hr
      cases r with
      | next u =>
        have happend : read ++ ch::rest = read ++ [ch] ++ rest := by simp
        have hnext := ih (read ++ [ch]) u hr
        rw [← happend, List.length_append, List.length_singleton] at hnext
        exact hnext
      | ret accepted request => trivial

theorem search_whole (line : Bytes) (h : ¬ kCRLF <:+: line) :
    search kCRLF (line ++ kCRLF)+2 = (line ++ kCRLF).length := by
  have hsearch := search_text line [] h
  rw [List.append_nil] at hsearch
  rw [hsearch, List.length_append]
  rfl

theorem outcome_refused (line rest : Bytes) (hfree : ¬ kCRLF <:+: line)
    (hline : ∀ parts : LineParts, parts.text.length ≤ 8193 → line ≠ parts.line)
    (b : Buffer) (hb : b.WF) (hr : b.readable = line ++ kCRLF ++ rest) (t : TimeStamp) :
    ∃ request, outcome {} b t =
      .ok (false, { request_ := request }, line ++ kCRLF ++ rest) := by
  obtain ⟨⟨done, request⟩, hparse, -⟩ := ends_exists
    (lineLoop_ends [] (line ++ kCRLF) { request := {} } .start) (fun e he => he.elim)
  have hrefused : done = false := by
    rw [← Bool.not_eq_true]
    rintro rfl
    obtain ⟨hlength, parts, hparts, -⟩ :=
      (parseRequestLine_iff (line ++ kCRLF) (search_whole line hfree) request).mp hparse
    rw [hparts] at hlength
    exact hline parts hlength (List.append_cancel_right hparts)
  subst hrefused
  have hscan := scanStep_line b.stale t line rest hfree false request hparse
  refine ⟨request, ?_⟩
  rw [outcome_scan {} b t hb, hr, scanLoop_step b.stale t _ _ _ rfl hscan,
    scanLoop_stop _ _ _ _ rfl]
  rfl

def LineParts.headed (parts : LineParts) (t : TimeStamp) (fields : List Field) : HttpRequest :=
  storeFields ((parts.store {}).setReceivedTime t) fields

def afterSection (r : HttpRequest) (rest : Bytes) : Except Fault (Bool × HttpContext × Bytes) :=
  if r.getHeader kContentLength = [] then
    .ok (true, { state_ := .kGotAll, request_ := r }, rest)
  else (stoi (r.getHeader kContentLength)).map (fun v =>
    if toSize v ≤ rest.length then
      (true, { state_ := .kGotAll, request_ := r.setBody (rest.take (toSize v)) },
        rest.drop (toSize v))
    else (true, { state_ := .kExpectRequestBody, request_ := r }, rest))

theorem fields_length (fields : List Field) : fields.length ≤ (fieldsText fields).length := by
  induction fields with
  | nil => exact le_rfl
  | cons f fields ih =>
    have hpos : 0 < (f.text ++ kCRLF).length := by simp [kCRLF]
    rw [fieldsText, List.flatMap_cons, List.length_append, List.length_cons, ← fieldsText]
    omega

theorem scanLoop_last (stale : Bytes) (t : TimeStamp) (n : ℕ) (r : HttpRequest)
    (line rest : Bytes) (hcolon : byte ':' ∉ line) (hfree : ¬ kCRLF <:+: line) :
    (scanLoop stale t (n+2) {
        context := { state_ := .kExpectRequestHeader, request_ := r }
        unread := line ++ kCRLF ++ rest }).map Scan.outcome = afterSection r rest := by
  have hlast : scanStep stale t {
      context := { state_ := .kExpectRequestHeader, request_ := r }
      unread := line ++ kCRLF ++ rest } = _ := scanHeader_last {
    context := { state_ := .kExpectRequestHeader, request_ := r }
    unread := line ++ kCRLF ++ rest } line rest hcolon hfree rfl
  dsimp only at hlast
  unfold afterSection
  by_cases hcl : r.getHeader kContentLength = []
  · rw [if_pos hcl] at hlast ⊢
    rw [scanLoop_step stale t (n+1) _ _ rfl hlast, scanLoop_stop _ _ _ _ rfl]
    rfl
  · rw [if_neg hcl] at hlast ⊢
    cases hv : stoi (r.getHeader kContentLength) with
    | error e =>
      rw [hv] at hlast
      rw [scanLoop, if_pos rfl, hlast]
      rfl
    | ok v =>
      rw [hv] at hlast
      rw [scanLoop_step stale t (n+1) _ _ rfl hlast]
      by_cases hle : toSize v ≤ rest.length
      · rw [scanLoop_step stale t n _ _ rfl (by
            rw [scanStep, Scan.setState, scanBody]
            exact if_pos hle), scanLoop_stop _ _ _ _ rfl]
        simp [Except.map, hle, Scan.outcome, Scan.setState, Scan.setRequest]
      · rw [scanLoop_step stale t n _ _ rfl (by
            rw [scanStep, Scan.setState, scanBody]
            exact if_neg hle), scanLoop_stop _ _ _ _ rfl]
        simp [Except.map, hle, Scan.outcome]

/-- What a call makes of a request line, any fields and any last line. -/
theorem outcome_section (parts : LineParts) (hsize : parts.text.length ≤ 8193)
    (fields : List Field) (line rest : Bytes) (hcolon : byte ':' ∉ line)
    (hfree : ¬ kCRLF <:+: line) (b : Buffer) (hb : b.WF)
    (hr : b.readable = parts.text ++ (fieldsText fields ++ (line ++ kCRLF ++ rest)))
    (t : TimeStamp) : outcome {} b t = afterSection (parts.headed t fields) rest := by
  have hparse := (parseRequestLine_iff parts.text (search_whole parts.line (parts_free parts))
    (parts.store {})).mpr ⟨hsize, parts, rfl, rfl⟩
  have hscan := scanStep_line b.stale t parts.line
    (fieldsText fields ++ (line ++ kCRLF ++ rest)) (parts_free parts) true (parts.store {}) hparse
  have hcount := fields_length fields
  obtain ⟨k, hk⟩ : ∃ k, b.readable.length+3 = fields.length+(k+2)+1 := by
    refine ⟨b.readable.length-fields.length, ?_⟩
    have hlength := congrArg List.length hr
    simp only [List.length_append] at hlength
    omega
  rw [outcome_scan {} b t hb, hk, hr, parts_line, scanLoop_step b.stale t _ _ _ rfl hscan,
    scanLoop_fields b.stale t fields (line ++ kCRLF ++ rest) (by simp [kCRLF]) (k+2) _ rfl rfl rfl]
  exact scanLoop_last b.stale t k (parts.headed t fields) line rest hcolon hfree

theorem afterSection_ok (r : HttpRequest) (rest : Bytes) (done : Bool) (c : HttpContext)
    (left : Bytes) (h : afterSection r rest = .ok (done, c, left)) :
    done = true ∧ c.request_.headers_ = r.headers_ ∧ ∃ body, rest = body ++ left := by
  unfold afterSection at h
  split at h
  · obtain ⟨rfl, rfl, rfl⟩ : true = done ∧ _ = c ∧ rest = left := by simpa using h
    exact ⟨rfl, rfl, [], rfl⟩
  · cases hv : stoi (r.getHeader kContentLength) with
    | error e => simp [hv, Except.map] at h
    | ok v =>
      simp only [hv, Except.map, Except.ok.injEq] at h
      split at h
      · obtain ⟨rfl, rfl, rfl⟩ : true = done ∧ _ = c ∧ _ = left := by simpa using h
        exact ⟨rfl, rfl, rest.take (toSize v), (List.take_append_drop _ _).symm⟩
      · obtain ⟨rfl, rfl, rfl⟩ : true = done ∧ _ = c ∧ _ = left := by simpa using h
        exact ⟨rfl, rfl, [], rfl⟩

theorem headed_lookup (parts : LineParts) (t : TimeStamp) (fields : List Field) (name : Bytes) :
    (parts.headed t fields).headers_.lookup name = lastValue fields name :=
  storeHeaders_last _ _ rfl name

/-- A call that comes to the end of a request has passed a line of the grammar,
fields and a line without a colon. -/
theorem outcome_gotAll (b : Buffer) (hb : b.WF) (t : TimeStamp) (done : Bool) (c : HttpContext)
    (left : Bytes) (h : outcome {} b t = .ok (done, c, left)) (hc : c.gotAll = true) :
    ∃ (parts : LineParts) (fields : List Field) (line rest : Bytes),
      parts.text.length ≤ 8193 ∧ byte ':' ∉ line ∧ ¬ kCRLF <:+: line
      ∧ b.readable = parts.text ++ (fieldsText fields ++ (line ++ kCRLF ++ rest)) := by
  rw [outcome_scan {} b t hb] at h
  cases hloop : scanLoop b.stale t (b.readable.length+3) { context := {}, unread := b.readable } with
  | error e => simp [hloop, Except.map] at h
  | ok f =>
    rw [hloop] at h
    obtain ⟨-, hcontext, -⟩ : f.done = done ∧ f.context = c ∧ f.unread = left := by
      simpa [Except.map, Scan.outcome] using h
    cases hstep : scanStep b.stale t { context := {}, unread := b.readable } with
    | error e =>
      rw [scanLoop, if_pos rfl, hstep] at hloop
      cases hloop
    | ok s =>
      rw [scanLoop_step b.stale t _ _ s rfl hstep] at hloop
      obtain ⟨accepted, request, hparse, ⟨rfl, hle, hs⟩ | ⟨rfl, hs⟩⟩ :=
        scanRequestLine_ok b.stale t _ s hstep
      · dsimp only at hparse hle hs
        obtain ⟨hsplit, hfree⟩ := unread_line b.readable hle
        obtain ⟨fields, line, rest, hcolon, hline, hu⟩ := scanLoop_section b.stale t _ s f
          (by rw [hs]; rfl) (by rw [hs]; rfl) hloop
        have hunread : s.unread = b.readable.drop (search kCRLF b.readable+2) := by
          rw [hs]
          rfl
        generalize b.readable.take (search kCRLF b.readable) = first at hsplit hfree
        have hfound := search_text first (b.readable.drop (search kCRLF b.readable+2)) hfree
        rw [← hsplit] at hfound
        have hlength : (first ++ kCRLF).length = search kCRLF b.readable+2 := by
          rw [List.length_append, hfound]
          rfl
        have htake : (b.readable ++ b.stale).take (search kCRLF b.readable+2) =
            first ++ kCRLF := by
          rw [List.take_append_of_le_length hle, ← hlength]
          conv_lhs => rw [hsplit]
          rw [List.take_left]
        have hpast : search kCRLF b.readable+2-(b.readable ++ b.stale).length = 0 := by
          rw [List.length_append]
          omega
        rw [htake, hpast] at hparse
        obtain ⟨hsize, parts, hparts, -⟩ :=
          (parseRequestLine_iff _ (search_whole first hfree) request).mp hparse
        refine ⟨parts, fields, line, rest, hparts ▸ hsize, hcolon, hline, ?_⟩
        rw [← hu, hunread, ← hparts]
        exact hsplit
      · have hstop : s.hasMore = false := by
          rw [hs]
          rfl
        rw [scanLoop_stop _ _ _ _ hstop] at hloop
        obtain rfl := Except.ok.inj hloop
        rw [← hcontext, hs] at hc
        exact absurd hc (by simp [HttpContext.gotAll, Scan.setRequest])

/-- A request that is taken ends its fields with an empty line and has the last
value of each name; a nonempty line without a colon among them is refused. -/
structure HeaderSound (b : Buffer) (t : TimeStamp) : Prop where
  taken : ∀ done c left, outcome {} b t = .ok (done, c, left) → c.gotAll = true →
    ∃ (line body : Bytes) (fields : List Field), ¬ kCRLF <:+: line
      ∧ b.readable = line ++ kCRLF ++ (fieldsText fields ++ (kCRLF ++ (body ++ left)))
      ∧ ∀ name, c.request_.headers_.lookup name = lastValue fields name
  refused : ∀ (line last rest : Bytes) (fields : List Field), ¬ kCRLF <:+: line →
    byte ':' ∉ last → ¬ kCRLF <:+: last → last ≠ [] →
    b.readable = line ++ kCRLF ++ (fieldsText fields ++ (last ++ kCRLF ++ rest)) →
    ∃ c left, outcome {} b t = .ok (false, c, left)

def EndsEmpty (unread : Bytes) : Prop :=
  ∀ (parts : LineParts) (fields : List Field) (last rest : Bytes), parts.text.length ≤ 8193 →
    byte ':' ∉ last → ¬ kCRLF <:+: last →
    unread = parts.text ++ (fieldsText fields ++ (last ++ kCRLF ++ rest)) → last = []

theorem headerSound_iff (b : Buffer) (hb : b.WF) (t : TimeStamp) :
    HeaderSound b t ↔ EndsEmpty b.readable := by
  constructor
  · intro hsound parts fields last rest hsize hcolon hfree hr
    by_contra hne
    obtain ⟨c, left, hfalse⟩ := hsound.refused parts.line last rest fields (parts_free parts)
      hcolon hfree hne hr
    rw [outcome_section parts hsize fields last rest hcolon hfree b hb hr t] at hfalse
    obtain ⟨hdone, -, -⟩ := afterSection_ok _ _ _ _ _ hfalse
    cases hdone
  · intro hends
    refine ⟨fun done c left h hc => ?_, fun line last rest fields hline hcolon hfree hne hr => ?_⟩
    · obtain ⟨parts, fields, last, rest, hsize, hcolon, hfree, hr⟩ :=
        outcome_gotAll b hb t done c left h hc
      obtain rfl := hends parts fields last rest hsize hcolon hfree hr
      rw [outcome_section parts hsize fields [] rest hcolon hfree b hb hr t] at h
      obtain ⟨-, hheaders, body, rfl⟩ := afterSection_ok _ _ _ _ _ h
      refine ⟨parts.line, body, fields, parts_free parts, hr, fun name => ?_⟩
      rw [hheaders]
      exact headed_lookup parts t fields name
    · have hunknown : ∀ parts : LineParts, parts.text.length ≤ 8193 → line ≠ parts.line := by
        rintro parts hsize rfl
        exact hne (hends parts fields last rest hsize hcolon hfree hr)
      obtain ⟨request, hrefused⟩ := outcome_refused line _ hline hunknown b hb hr t
      exact ⟨_, _, hrefused⟩

def indexLine : LineParts where
  method := bytes "GET"
  before := 0
  path := bytes "/"
  query := none
  behind := 0
  version := .kHttp11
  method_mem := get_mem
  path_bytes := root_path
  query_bytes := no_query
  version_known := http11_known

def hostField : Field where
  name := bytes "Host"
  raw := bytes " a"
  name_free := by decide
  line_free := by decide

def foldedLine : Bytes := bytes "GET / HTTP/1.1\r\nHost: a\r\n folded\r\n\r\n"

theorem headerSound_iff_folded :
    ¬ EndsEmpty foldedLine ∧ ¬ HeaderSound (holding foldedLine []) {} := by
  have hends : ¬ EndsEmpty foldedLine := by
    intro h
    have hlast := h indexLine [hostField] (bytes " folded") kCRLF (by decide) (by decide)
      (by decide) (by decide)
    exact absurd hlast (by decide)
  refine ⟨hends, fun hsound => hends ?_⟩
  have hiff := (headerSound_iff _ (holding_wf _ _) {}).mp hsound
  rwa [holding_readable] at hiff

def brokenLine : Bytes := bytes "GET / HTTP/1.1\r\nHost: a\r\nbroken\r\nX: y\r\n\r\n"

/-- The call says that it has the whole request, and leaves the rest of the
section for the next one. -/
theorem brokenLine_taken :
    outcome {} (holding brokenLine []) {} = .ok (true, {
        state_ := .kGotAll
        request_ := {
          method_ := .kGet
          path_ := bytes "/"
          version_ := .kHttp11
          headers_ := (∅ : Headers).insert (bytes "Host") (bytes "a") } }, bytes "X: y\r\n\r\n")
    ∧ ¬ HeaderSound (holding brokenLine []) {} := by
  constructor
  · decide +kernel
  · intro hsound
    obtain ⟨c, left, hrefused⟩ := hsound.refused indexLine.line (bytes "broken")
      (bytes "X: y\r\n\r\n") [hostField] (by decide) (by decide) (by decide) (by decide)
      (by rw [holding_readable]; decide)
    have hdone : (outcome {} (holding brokenLine []) {}).map Prod.fst = .ok true := by
      decide +kernel
    rw [hrefused] at hdone
    cases hdone

end MuServer
