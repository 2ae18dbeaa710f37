import MuServer.HttpContext

/-!
# The parser over the unread bytes

`Scan` is a call of the parser with the buffer reduced to its readable bytes.
The indices of the vector are gone; the bytes behind the readable ones remain
as the parameter `stale`, which only the arm for an unfinished request line
reads. `parseRequest_scan` says that the parser over the buffer is this one.
-/

set_option autoImplicit false

namespace MuServer
open Lib.Search

structure Scan where
  context : HttpContext
  unread : Bytes
  done : Bool := true
  hasMore : Bool := true
  content_Length : ℕ := 0
  deriving DecidableEq

def Scan.setState (s : Scan) (state : HttpRequestParseState) : Scan :=
  { s with context := { s.context with state_ := state } }

def Scan.setRequest (s : Scan) (request : HttpRequest) : Scan :=
  { s with context := { s.context with request_ := request } }

def skip (unread : Bytes) (n : ℕ) : Except Fault Bytes :=
  if n ≤ unread.length then .ok (unread.drop n) else .error .assertion

def scanRequestLine (stale : Bytes) (receivedTime : TimeStamp) (s : Scan) :
    Except Fault Scan := do
  let i := search kCRLF s.unread
  let (done, request) ← parseRequestLine s.context.request_ ((s.unread ++ stale).take (i+2))
    (i+2-(s.unread ++ stale).length)
  if done then
    let unread ← skip s.unread (i+2)
    .ok ({ s with unread := unread, done := done }.setRequest
      (request.setReceivedTime receivedTime) |>.setState .kExpectRequestHeader)
  else .ok ({ s with done := done, hasMore := false }.setRequest request)

/-- A header line that is the last of the unread bytes fails the second
`retrieve`: the first one has moved the indices to the front. -/
def scanHeaderLine (s : Scan) (i : ℕ) (line : Bytes) : Except Fault Scan :=
  let colon := line.idxOf (byte ':')
  let request := s.context.request_
  if colon ≠ line.length then do
    let unread ← skip s.unread (i+2)
    if unread = [] then .error .assertion
    else .ok ({ s with unread := unread }.setRequest (request.addHeaders line colon))
  else if request.getHeader kContentLength ≠ [] then do
    let v ← stoi (request.getHeader kContentLength)
    let unread ← skip s.unread (i+2)
    .ok ({ s with unread := unread, content_Length := toSize v }.setState .kExpectRequestBody)
  else do
    let unread ← skip s.unread (i+2)
    .ok ({ s with unread := unread, hasMore := false }.setState .kGotAll)

def scanHeader (s : Scan) : Except Fault Scan :=
  scanHeaderLine s (search kCRLF s.unread) (s.unread.take (search kCRLF s.unread))

theorem scanHeaderLine_field (s : Scan) (i : ℕ) (line : Bytes)
    (h : line.idxOf (byte ':') ≠ line.length) :
    scanHeaderLine s i line = (skip s.unread (i+2)).bind (fun unread =>
      if unread = [] then .error .assertion
      else .ok ({ s with unread := unread }.setRequest
        (s.context.request_.addHeaders line (line.idxOf (byte ':'))))) := by
  simp only [scanHeaderLine, if_pos h]
  rfl

theorem scanHeaderLine_length (s : Scan) (i : ℕ) (line : Bytes)
    (h : ¬ line.idxOf (byte ':') ≠ line.length)
    (hcl : s.context.request_.getHeader kContentLength ≠ []) :
    scanHeaderLine s i line = (stoi (s.context.request_.getHeader kContentLength)).bind (fun v =>
      (skip s.unread (i+2)).bind (fun unread =>
        .ok ({ s with unread := unread, content_Length := toSize v }.setState
          .kExpectRequestBody))) := by
  simp only [scanHeaderLine, if_neg h, if_pos hcl]
  rfl

theorem scanHeaderLine_end (s : Scan) (i : ℕ) (line : Bytes)
    (h : ¬ line.idxOf (byte ':') ≠ line.length)
    (hcl : ¬ s.context.request_.getHeader kContentLength ≠ []) :
    scanHeaderLine s i line = (skip s.unread (i+2)).bind (fun unread =>
      .ok ({ s with unread := unread, hasMore := false }.setState .kGotAll)) := by
  simp only [scanHeaderLine, if_neg h, if_neg hcl]
  rfl

def scanBody (s : Scan) : Except Fault Scan :=
  if s.content_Length ≤ s.unread.length then
    .ok ({ s with unread := s.unread.drop s.content_Length, hasMore := false }.setRequest
      (s.context.request_.setBody (s.unread.take s.content_Length)) |>.setState .kGotAll)
  else .ok { s with hasMore := false }

def scanStep (stale : Bytes) (receivedTime : TimeStamp) (s : Scan) : Except Fault Scan :=
  match s.context.state_ with
  | .kExpectRequestLine => scanRequestLine stale receivedTime s
  | .kExpectRequestHeader => scanHeader s
  | .kExpectRequestBody => scanBody s
  | .kGotAll => .ok s

def scanLoop (stale : Bytes) (receivedTime : TimeStamp) : ℕ → Scan → Except Fault Scan
  | 0, s => if s.hasMore then .error .spins else .ok s
  | n+1, s =>
    if s.hasMore then do
      let t ← scanStep stale receivedTime s
      scanLoop stale receivedTime n t
    else .ok s

def ParseLoop.scan (l : ParseLoop) : Scan where
  context := l.context
  unread := l.buffer.readable
  done := l.done
  hasMore := l.hasMore
  content_Length := l.content_Length

/-- What a pass does to the buffer itself: it keeps the index invariant and a
pass that stays on the request line leaves it alone. -/
def Kept (l m : ParseLoop) : Prop :=
  m.buffer.WF ∧ (m.context.state_ = .kExpectRequestLine → m.buffer = l.buffer)

def Agree (l : ParseLoop) (r : Except Fault ParseLoop) (q : Except Fault Scan) : Prop :=
  match r with
  | .error f => q = .error f
  | .ok m => q = .ok m.scan ∧ Kept l m

theorem readable_stale (b : Buffer) (h : b.WF) :
    b.readable ++ b.stale = b.buffer_.drop b.readerIndex_ := by
  have ho := h.order
  have hs := h.size
  simp only [Buffer.readable, Buffer.range, Buffer.stale, Buffer.peek, Buffer.beginWrite]
  conv_rhs => rw [← List.take_append_drop b.writerIndex_ b.buffer_]
  rw [List.drop_append_of_le_length (by simp only [List.length_take]; omega)]

theorem range_peek (b : Buffer) (h : b.WF) (i : ℕ) :
    b.range b.peek (b.peek+i) = (b.readable ++ b.stale).take i := by
  rw [readable_stale b h, Buffer.range, List.drop_take, Nat.add_sub_cancel_left]
  rfl

theorem skip_retrieve (b c : Buffer) (h : b.WF) (n : ℕ) (hc : b.retrieve n = .ok c) :
    skip b.readable n = .ok c.readable ∧ c.WF := by
  by_cases hn : n ≤ b.readable.length
  · obtain ⟨d, hd, hwf, hr⟩ := b.retrieve_ok h n hn
    obtain rfl : d = c := Except.ok.inj (hd.symm.trans hc)
    exact ⟨by rw [skip, if_pos hn, hr], hwf⟩
  · rw [b.retrieve_fails h n (by omega)] at hc
    exact absurd hc (by simp)

theorem skip_retrieve_error (b : Buffer) (h : b.WF) (n : ℕ) (f : Fault)
    (hf : b.retrieve n = .error f) : skip b.readable n = .error f := by
  by_cases hn : n ≤ b.readable.length
  · obtain ⟨d, hd, -⟩ := b.retrieve_ok h n hn
    rw [hd] at hf
    exact absurd hf (by simp)
  · rw [b.retrieve_fails h n (by omega)] at hf
    rw [skip, if_neg hn, ← Except.error.inj hf]

/-- The second `retrieve` of a header line asks for the distance from the
start of the readable bytes to the end of the line: nothing while bytes are
left, too much when the first one has emptied the buffer. -/
theorem retrieve_twice (b c : Buffer) (h : b.WF) (n : ℕ) (hn : 0 < n)
    (hc : b.retrieve n = .ok c) :
    c.retrieve (b.peek+n-c.peek) = if c.readable = [] then .error .assertion else .ok c := by
  have hp := h.prepend
  have ho := h.order
  have hs := h.size
  unfold Buffer.retrieve at hc
  by_cases hle : n ≤ b.readableBytes
  · rw [if_pos hle] at hc
    by_cases hlt : n < b.readableBytes
    · rw [if_pos hlt] at hc
      obtain rfl := Except.ok.inj hc
      simp only [Buffer.readableBytes] at hlt
      have hpos : 0 < ({ b with readerIndex_ := b.readerIndex_+n } : Buffer).readableBytes := by
        simp only [Buffer.readableBytes]
        omega
      have hne : ({ b with readerIndex_ := b.readerIndex_+n } : Buffer).readable ≠ [] := by
        intro he
        have hl := congrArg List.length he
        simp only [Buffer.readable, Buffer.range, Buffer.peek, Buffer.beginWrite,
          List.length_drop, List.length_take, List.length_nil] at hl
        omega
      have h0 : b.peek+n-({ b with readerIndex_ := b.readerIndex_+n } : Buffer).peek = 0 := by
        simp [Buffer.peek]
      rw [if_neg hne, h0, Buffer.retrieve, if_pos (Nat.zero_le _), if_pos hpos]
      rfl
    · rw [if_neg hlt] at hc
      obtain rfl := Except.ok.inj hc
      rw [if_pos b.retrieveAll_readable, Buffer.retrieve_fails]
      · exact b.retrieveAll_wf h
      · rw [b.retrieveAll_readable]
        simp only [Buffer.readableBytes] at hle hlt
        simp only [Buffer.peek, Buffer.retrieveAll, List.length_nil]
        omega
  · rw [if_neg hle] at hc
    exact absurd hc (by simp)

theorem requestLineStep_scan (t : TimeStamp) (l : ParseLoop) (h : l.buffer.WF) :
    Agree l (requestLineStep t l (l.buffer.peek+search kCRLF l.buffer.readable))
      (scanRequestLine l.buffer.stale t l.scan) := by
  have hlen : (l.buffer.readable ++ l.buffer.stale).length =
      l.buffer.buffer_.length-l.buffer.readerIndex_ := by
    rw [readable_stale _ h, List.length_drop]
  have hrange := range_peek l.buffer h (search kCRLF l.buffer.readable+2)
  have hpast : l.buffer.peek+search kCRLF l.buffer.readable+2-l.buffer.buffer_.length =
      search kCRLF l.buffer.readable+2-(l.buffer.readable ++ l.buffer.stale).length := by
    have ho := h.order
    have hs := h.size
    simp only [hlen, Buffer.peek]
    omega
  rw [← Nat.add_assoc] at hrange
  simp only [requestLineStep, scanRequestLine, ParseLoop.scan, hrange, hpast]
  cases hp : parseRequestLine l.context.request_ _ _ with
  | error f => rfl
  | ok r =>
    obtain ⟨done, request⟩ := r
    simp only [bind, Except.bind]
    have hsub : l.buffer.peek+search kCRLF l.buffer.readable+2-l.buffer.peek =
        search kCRLF l.buffer.readable+2 := by omega
    cases done with
    | false => exact ⟨rfl, h, fun _ => rfl⟩
    | true =>
      simp only [if_true, hsub]
      cases hr : l.buffer.retrieve (search kCRLF l.buffer.readable+2) with
      | error f => simp only [Agree, skip_retrieve_error _ h _ f hr]
      | ok c =>
        obtain ⟨hk, hwf⟩ := skip_retrieve _ c h _ hr
        simp only [hk]
        exact ⟨rfl, hwf, fun hs => by simp [ParseLoop.setState] at hs⟩

theorem headerStep_scan (l : ParseLoop) (h : l.buffer.WF)
    (hstate : l.context.state_ = .kExpectRequestHeader) :
    Agree l (headerStep l (l.buffer.peek+search kCRLF l.buffer.readable)) (scanHeader l.scan) := by
  have hline : l.buffer.range l.buffer.peek (l.buffer.peek+search kCRLF l.buffer.readable) =
      l.buffer.readable.take (search kCRLF l.buffer.readable) := by
    rw [range_peek _ h, List.take_append_of_le_length (search_le _ _)]
  have hsub : l.buffer.peek+search kCRLF l.buffer.readable+2-l.buffer.peek =
      search kCRLF l.buffer.readable+2 := by omega
  have hscan : scanHeader l.scan = scanHeaderLine l.scan (search kCRLF l.buffer.readable)
    (l.buffer.readable.take (search kCRLF l.buffer.readable)) := rfl
  rw [headerStep, hline, hscan]
  generalize l.buffer.readable.take (search kCRLF l.buffer.readable) = line
  by_cases hcolon : line.idxOf (byte ':') ≠ line.length
  · rw [scanHeaderLine_field l.scan _ line hcolon]
    simp only [headerLine, if_pos hcolon, hsub]
    cases hr : l.buffer.retrieve (search kCRLF l.buffer.readable+2) with
    | error f => simp only [Agree, bind, Except.bind, ParseLoop.scan,
        skip_retrieve_error _ h _ f hr]
    | ok c =>
      obtain ⟨hk, hwf⟩ := skip_retrieve _ c h _ hr
      have htwice := retrieve_twice _ c h _ (by omega) hr
      rw [← Nat.add_assoc] at htwice
      simp only [bind, Except.bind, ParseLoop.scan, hk, ParseLoop.setRequest, htwice]
      by_cases he : c.readable = []
      · simp only [if_pos he]
        rfl
      · simp only [if_neg he]
        exact ⟨rfl, hwf, fun hs => by simp [hstate] at hs⟩
  by_cases hcl : l.context.request_.getHeader kContentLength ≠ []
  · rw [scanHeaderLine_length l.scan _ line hcolon hcl]
    simp only [headerLine, if_neg hcolon, if_pos hcl, ParseLoop.scan]
    cases hv : stoi (l.context.request_.getHeader kContentLength) with
    | error f => rfl
    | ok v =>
      simp only [bind, Except.bind, ParseLoop.setState, hsub]
      cases hr : l.buffer.retrieve (search kCRLF l.buffer.readable+2) with
      | error f => simp only [Agree, skip_retrieve_error _ h _ f hr]
      | ok c =>
        obtain ⟨hk, hwf⟩ := skip_retrieve _ c h _ hr
        simp only [hk]
        exact ⟨rfl, hwf, fun hs => by simp at hs⟩
  · rw [scanHeaderLine_end l.scan _ line hcolon hcl]
    simp only [headerLine, if_neg hcolon, if_neg hcl, bind, Except.bind, ParseLoop.setState, hsub,
      ParseLoop.scan]
    cases hr : l.buffer.retrieve (search kCRLF l.buffer.readable+2) with
    | error f => simp only [Agree, skip_retrieve_error _ h _ f hr]
    | ok c =>
      obtain ⟨hk, hwf⟩ := skip_retrieve _ c h _ hr
      simp only [hk]
      exact ⟨rfl, hwf, fun hs => by simp at hs⟩

theorem bodyStep_scan (l : ParseLoop) (h : l.buffer.WF)
    (hstate : l.context.state_ = .kExpectRequestBody) :
    Agree l (bodyStep l) (scanBody l.scan) := by
  have hlen := l.buffer.readable_length h
  by_cases hn : l.content_Length ≤ l.buffer.readableBytes
  · have hn' : l.scan.content_Length ≤ l.scan.unread.length := by
      simpa [ParseLoop.scan, hlen] using hn
    obtain ⟨c, hc, hwf, hr⟩ := l.buffer.retrieveAsString_ok h l.content_Length (by omega)
    rw [bodyStep, if_pos hn, scanBody, if_pos hn', hc]
    refine ⟨?_, hwf, fun hs => by simp [ParseLoop.setState] at hs⟩
    simp [ParseLoop.scan, ParseLoop.setRequest, ParseLoop.setState, Scan.setRequest,
      Scan.setState, hr]
  · have hn' : ¬ l.scan.content_Length ≤ l.scan.unread.length := by
      simpa [ParseLoop.scan, hlen] using hn
    rw [bodyStep, if_neg hn, scanBody, if_neg hn']
    exact ⟨rfl, h, fun hs => by simp [hstate] at hs⟩

theorem parseStep_scan (t : TimeStamp) (l : ParseLoop) (h : l.buffer.WF) :
    Agree l (parseStep t l) (scanStep l.buffer.stale t l.scan) := by
  have hscan : l.scan.context = l.context := rfl
  unfold parseStep scanStep
  rw [hscan]
  cases hs : l.context.state_ with
  | kExpectRequestLine => exact requestLineStep_scan t l h
  | kExpectRequestHeader => exact headerStep_scan l h hs
  | kExpectRequestBody => exact bodyStep_scan l h hs
  | kGotAll => exact ⟨rfl, h, fun _ => rfl⟩

theorem scanStep_stale (stale stale' : Bytes) (t : TimeStamp) (s : Scan)
    (h : s.context.state_ ≠ .kExpectRequestLine) :
    scanStep stale t s = scanStep stale' t s := by
  unfold scanStep
  cases hs : s.context.state_ with
  | kExpectRequestLine => exact absurd hs h
  | kExpectRequestHeader => rfl
  | kExpectRequestBody => rfl
  | kGotAll => rfl

theorem skip_ok (unread rest : Bytes) (n : ℕ) (h : skip unread n = .ok rest) :
    n ≤ unread.length ∧ rest = unread.drop n := by
  unfold skip at h
  split at h
  · exact ⟨‹_›, (Except.ok.inj h).symm⟩
  · exact absurd h (by simp)

/-- The arm for the request line accepts the line it has found, or gives up. -/
theorem scanRequestLine_ok (stale : Bytes) (t : TimeStamp) (s s' : Scan)
    (h : scanRequestLine stale t s = .ok s') :
    ∃ done request,
      parseRequestLine s.context.request_ ((s.unread ++ stale).take (search kCRLF s.unread+2))
        (search kCRLF s.unread+2-(s.unread ++ stale).length) = .ok (done, request) ∧
      ((done = true ∧ search kCRLF s.unread+2 ≤ s.unread.length ∧
        s' = ({ s with unread := s.unread.drop (search kCRLF s.unread+2), done := true }.setRequest
          (request.setReceivedTime t)).setState .kExpectRequestHeader) ∨
      (done = false ∧ s' = { s with done := false, hasMore := false }.setRequest request)) := by
  unfold scanRequestLine at h
  cases hp : parseRequestLine s.context.request_
      ((s.unread ++ stale).take (search kCRLF s.unread+2))
      (search kCRLF s.unread+2-(s.unread ++ stale).length) with
  | error f =>
    simp only [hp, bind, Except.bind] at h
    exact absurd h (by simp)
  | ok r =>
    obtain ⟨done, request⟩ := r
    refine ⟨done, request, rfl, ?_⟩
    simp only [hp, bind, Except.bind] at h
    cases done with
    | false => exact Or.inr ⟨rfl, (Except.ok.inj h).symm⟩
    | true =>
      cases hk : skip s.unread (search kCRLF s.unread+2) with
      | error f => simp [hk] at h
      | ok rest =>
        obtain ⟨hle, rfl⟩ := skip_ok _ _ _ hk
        simp only [hk, if_true] at h
        exact Or.inl ⟨rfl, hle, (Except.ok.inj h).symm⟩

/-- The three ways a header line is taken. Each finds the line's CRLF. -/
theorem scanHeader_ok (s s' : Scan) (h : scanHeader s = .ok s') :
    search kCRLF s.unread+2 ≤ s.unread.length ∧
    let line := s.unread.take (search kCRLF s.unread)
    let rest := s.unread.drop (search kCRLF s.unread+2)
    (line.idxOf (byte ':') ≠ line.length ∧ rest ≠ [] ∧
      s' = { s with unread := rest }.setRequest
        (s.context.request_.addHeaders line (line.idxOf (byte ':')))) ∨
    (line.idxOf (byte ':') = line.length ∧ s.context.request_.getHeader kContentLength ≠ [] ∧
      ∃ v, stoi (s.context.request_.getHeader kContentLength) = .ok v ∧
        s' = { s with unread := rest, content_Length := toSize v }.setState .kExpectRequestBody) ∨
    (line.idxOf (byte ':') = line.length ∧ s.context.request_.getHeader kContentLength = [] ∧
      s' = { s with unread := rest, hasMore := false }.setState .kGotAll) := by
  unfold scanHeader at h
  generalize s.unread.take (search kCRLF s.unread) = line at h ⊢
  by_cases hcolon : line.idxOf (byte ':') ≠ line.length
  · rw [scanHeaderLine_field s _ line hcolon] at h
    cases hk : skip s.unread (search kCRLF s.unread+2) with
    | error f => simp [hk, Except.bind] at h
    | ok rest =>
      obtain ⟨hle, rfl⟩ := skip_ok _ _ _ hk
      simp only [hk, Except.bind] at h
      by_cases he : s.unread.drop (search kCRLF s.unread+2) = []
      · rw [if_pos he] at h
        exact absurd h (by simp)
      · rw [if_neg he] at h
        exact ⟨hle, Or.inl ⟨hcolon, he, (Except.ok.inj h).symm⟩⟩
  by_cases hcl : s.context.request_.getHeader kContentLength ≠ []
  · rw [scanHeaderLine_length s _ line hcolon hcl] at h
    cases hv : stoi (s.context.request_.getHeader kContentLength) with
    | error f => simp [hv, Except.bind] at h
    | ok v =>
      cases hk : skip s.unread (search kCRLF s.unread+2) with
      | error f => simp [hv, hk, Except.bind] at h
      | ok rest =>
        obtain ⟨hle, rfl⟩ := skip_ok _ _ _ hk
        simp only [hv, hk, Except.bind] at h
        exact ⟨hle, Or.inr (Or.inl ⟨not_not.mp hcolon, hcl, v, rfl, (Except.ok.inj h).symm⟩)⟩
  · rw [scanHeaderLine_end s _ line hcolon hcl] at h
    cases hk : skip s.unread (search kCRLF s.unread+2) with
    | error f => simp [hk, Except.bind] at h
    | ok rest =>
      obtain ⟨hle, rfl⟩ := skip_ok _ _ _ hk
      simp only [hk, Except.bind] at h
      exact ⟨hle, Or.inr (Or.inr ⟨not_not.mp hcolon, not_not.mp hcl, (Except.ok.inj h).symm⟩)⟩

/-- A pass goes forward through the states and never comes back to the line. -/
theorem scanStep_leaves_line (stale : Bytes) (t : TimeStamp) (s s' : Scan)
    (hs : s.context.state_ ≠ .kExpectRequestLine) (h : scanStep stale t s = .ok s') :
    s'.context.state_ ≠ .kExpectRequestLine := by
  unfold scanStep at h
  cases hst : s.context.state_ with
  | kExpectRequestLine => exact absurd hst hs
  | kExpectRequestHeader =>
    rw [hst] at h
    obtain ⟨-, ⟨-, -, rfl⟩ | ⟨-, -, v, -, rfl⟩ | ⟨-, -, rfl⟩⟩ := scanHeader_ok s s' h
    · simp [Scan.setRequest, hst]
    · simp [Scan.setState]
    · simp [Scan.setState]
  | kExpectRequestBody =>
    simp only [hst, scanBody] at h
    split at h <;> obtain rfl := Except.ok.inj h <;>
      simp [Scan.setRequest, Scan.setState, hst]
  | kGotAll =>
    simp only [hst] at h
    obtain rfl := Except.ok.inj h
    simp [hst]

theorem scanLoop_stale (stale stale' : Bytes) (t : TimeStamp) (n : ℕ) (s : Scan)
    (hs : s.context.state_ ≠ .kExpectRequestLine) :
    scanLoop stale t n s = scanLoop stale' t n s := by
  induction n generalizing s with
  | zero => rfl
  | succ n ih =>
    unfold scanLoop
    split
    · rw [scanStep_stale stale stale' t s hs]
      cases h : scanStep stale' t s with
      | error f => rfl
      | ok s' => exact ih s' (scanStep_leaves_line stale' t s s' hs h)
    · rfl

theorem scanLoop_stop (stale : Bytes) (t : TimeStamp) (n : ℕ) (s : Scan)
    (h : s.hasMore = false) : scanLoop stale t n s = .ok s := by
  cases n <;> simp [scanLoop, h]

theorem scanLoop_step (stale : Bytes) (t : TimeStamp) (n : ℕ) (s s' : Scan)
    (hm : s.hasMore = true) (h : scanStep stale t s = .ok s') :
    scanLoop stale t (n+1) s = scanLoop stale t n s' := by
  rw [scanLoop, if_pos hm, h]
  rfl

theorem scanStep_line_stops (stale : Bytes) (t : TimeStamp) (s s' : Scan)
    (h : scanStep stale t s = .ok s') (hs : s'.context.state_ = .kExpectRequestLine) :
    s'.hasMore = false := by
  have hl : s.context.state_ = .kExpectRequestLine := by
    by_contra hne
    exact scanStep_leaves_line stale t s s' hne h hs
  unfold scanStep at h
  rw [hl] at h
  obtain ⟨done, request, -, ⟨-, -, rfl⟩ | ⟨-, rfl⟩⟩ := scanRequestLine_ok stale t s s' h
  · simp [Scan.setState] at hs
  · rfl

theorem parseLoop_scan (t : TimeStamp) (n : ℕ) (l : ParseLoop) (h : l.buffer.WF) :
    match parseLoop t n l with
    | .error f => scanLoop l.buffer.stale t n l.scan = .error f
    | .ok m => scanLoop l.buffer.stale t n l.scan = .ok m.scan ∧ m.buffer.WF := by
  induction n generalizing l with
  | zero =>
    have hm : l.scan.hasMore = l.hasMore := rfl
    unfold parseLoop scanLoop
    cases hh : l.hasMore <;> simp [hm, hh, h]
  | succ n ih =>
    have hm : l.scan.hasMore = l.hasMore := rfl
    have hstep := parseStep_scan t l h
    unfold parseLoop scanLoop
    cases hh : l.hasMore with
    | false => simp [hm, hh, h]
    | true =>
      simp only [hm, hh, if_true]
      cases hp : parseStep t l with
      | error f =>
        rw [hp] at hstep
        simp only [Agree] at hstep
        simp [hstep, bind, Except.bind]
      | ok m =>
        rw [hp] at hstep
        obtain ⟨hs, hwf, hkeep⟩ := hstep
        have hi := ih m hwf
        have hst : scanLoop l.buffer.stale t n m.scan = scanLoop m.buffer.stale t n m.scan := by
          by_cases hl : m.context.state_ = .kExpectRequestLine
          · have hstop := scanStep_line_stops _ t l.scan m.scan hs hl
            rw [scanLoop_stop _ _ _ _ hstop, scanLoop_stop _ _ _ _ hstop]
          · exact scanLoop_stale _ _ t n m.scan hl
        simp only [hs, bind, Except.bind, hst]
        exact hi

def passes (s : Scan) : ℕ :=
  if s.hasMore then
    match s.context.state_ with
    | .kExpectRequestLine => s.unread.length+3
    | .kExpectRequestHeader => s.unread.length+2
    | _ => 1
  else 0

theorem scanStep_passes (stale : Bytes) (t : TimeStamp) (s s' : Scan) (hm : s.hasMore = true)
    (hs : s.context.state_ ≠ .kGotAll) (h : scanStep stale t s = .ok s') :
    passes s' < passes s ∧ (s'.hasMore = true → s'.context.state_ ≠ .kGotAll) := by
  unfold scanStep at h
  cases hst : s.context.state_ with
  | kExpectRequestLine =>
    rw [hst] at h
    obtain ⟨done, request, -, ⟨-, hle, rfl⟩ | ⟨-, rfl⟩⟩ := scanRequestLine_ok stale t s s' h
    · simp only [passes, Scan.setState, Scan.setRequest, hm, hst, if_true, List.length_drop]
      exact ⟨by omega, by simp⟩
    · simp [passes, Scan.setRequest, hm, hst]
  | kExpectRequestHeader =>
    rw [hst] at h
    obtain ⟨hle, ⟨-, -, rfl⟩ | ⟨-, -, v, -, rfl⟩ | ⟨-, -, rfl⟩⟩ := scanHeader_ok s s' h
    · simp only [passes, Scan.setRequest, hm, hst, if_true, List.length_drop]
      exact ⟨by omega, by simp⟩
    · simp [passes, Scan.setState, hm, hst]
    · simp [passes, Scan.setState, hm, hst]
  | kExpectRequestBody =>
    simp only [hst, scanBody] at h
    split at h <;> obtain rfl := Except.ok.inj h <;>
      simp [passes, Scan.setRequest, Scan.setState, hm, hst]
  | kGotAll => exact absurd hst hs

theorem passes_start (c : HttpContext) (b : Buffer) (h : b.WF) :
    passes { context := c, unread := b.readable } ≤ b.readableBytes+3 := by
  have hlen := b.readable_length h
  simp only [passes, if_true]
  split <;> omega

theorem passes_zero (s : Scan) (h : passes s = 0) : s.hasMore = false := by
  unfold passes at h
  cases hm : s.hasMore with
  | false => rfl
  | true =>
    rw [hm, if_pos rfl] at h
    split at h <;> omega

theorem scanLoop_enough (stale : Bytes) (t : TimeStamp) (n k : ℕ) (s : Scan)
    (hs : s.hasMore = true → s.context.state_ ≠ .kGotAll) (hn : passes s ≤ n) :
    scanLoop stale t (n+k) s = scanLoop stale t n s := by
  induction n generalizing s with
  | zero =>
    have hm := passes_zero s (by omega)
    rw [scanLoop_stop _ _ _ _ hm, scanLoop_stop _ _ _ _ hm]
  | succ n ih =>
    rw [Nat.add_right_comm]
    unfold scanLoop
    cases hm : s.hasMore with
    | false => rfl
    | true =>
      simp only [if_true]
      cases h : scanStep stale t s with
      | error f => rfl
      | ok s' =>
        obtain ⟨hlt, hnext⟩ := scanStep_passes stale t s s' hm (hs hm) h
        exact ih s' hnext (by omega)

theorem scanLoop_more (stale : Bytes) (t : TimeStamp) (n k : ℕ) (s s' : Scan)
    (h : scanLoop stale t n s = .ok s') : scanLoop stale t (n+k) s = .ok s' := by
  induction n generalizing s with
  | zero =>
    unfold scanLoop at h
    cases hm : s.hasMore with
    | false =>
      rw [hm] at h
      rw [scanLoop_stop _ _ _ _ hm]
      exact h
    | true => simp [hm] at h
  | succ n ih =>
    rw [Nat.add_right_comm]
    unfold scanLoop at h ⊢
    cases hm : s.hasMore with
    | false => simpa [hm] using h
    | true =>
      simp only [hm, if_true] at h ⊢
      cases hstep : scanStep stale t s with
      | error f => simp [hstep, bind, Except.bind] at h
      | ok u =>
        rw [hstep] at h
        exact ih u h

theorem parseRequest_scan (c : HttpContext) (b : Buffer) (t : TimeStamp) (h : b.WF)
    (hc : c.state_ ≠ .kGotAll) (n : ℕ) (s : Scan)
    (hs : scanLoop b.stale t n { context := c, unread := b.readable } = .ok s) :
    ∃ b', parseRequest c b t = .ok (s.done, s.context, b') ∧ b'.WF ∧ b'.readable = s.unread := by
  have hp := passes_start c b h
  have hloop : scanLoop b.stale t (b.readableBytes+3) { context := c, unread := b.readable } =
      .ok s := by
    rw [← scanLoop_enough b.stale t (b.readableBytes+3) n _ (fun _ => hc) hp, Nat.add_comm _ n]
    exact scanLoop_more b.stale t n _ _ s hs
  have hl := parseLoop_scan t (b.readableBytes+3) { context := c, buffer := b } h
  cases hr : parseLoop t (b.readableBytes+3) { context := c, buffer := b } with
  | error f =>
    rw [hr] at hl
    exact absurd (hloop.symm.trans hl) (by simp)
  | ok m =>
    rw [hr] at hl
    obtain ⟨hm, hwf⟩ := hl
    obtain rfl := Except.ok.inj (hloop.symm.trans hm)
    exact ⟨m.buffer, by rw [parseRequest, hr]; rfl, hwf, rfl⟩

theorem parseRequest_ok (c c' : HttpContext) (b b' : Buffer) (t : TimeStamp) (h : b.WF)
    (done : Bool) (hp : parseRequest c b t = .ok (done, c', b')) :
    ∃ s, scanLoop b.stale t (b.readableBytes+3) { context := c, unread := b.readable } = .ok s ∧
      s.done = done ∧ s.context = c' ∧ b'.WF ∧ b'.readable = s.unread := by
  have hl := parseLoop_scan t (b.readableBytes+3) { context := c, buffer := b } h
  unfold parseRequest at hp
  cases hr : parseLoop t (b.readableBytes+3) { context := c, buffer := b } with
  | error f => simp [hr, bind, Except.bind] at hp
  | ok m =>
    rw [hr] at hl hp
    simp only [bind, Except.bind, Except.ok.injEq, Prod.mk.injEq] at hp
    obtain ⟨rfl, rfl, rfl⟩ := hp
    exact ⟨m.scan, hl.1, rfl, rfl, hl.2, rfl⟩

end MuServer
