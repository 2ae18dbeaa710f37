import MuServer.HttpSession

/-!
# After a refusal

A call that returns false has refused a request line: it leaves the line in
the buffer and what it has stored in the context. The bytes that arrive later
stand behind the refused ones. Either the refused bytes hold the token of a
method, and then `setMethod` finds `method_` set, or the token grows into a
word that is no method.
-/

set_option autoImplicit false

namespace MuServer
open Lib.Search

theorem scanStep_done (stale : Bytes) (t : TimeStamp) (s s' : Scan)
    (hst : s.context.state_ ≠ .kExpectRequestLine) (h : scanStep stale t s = .ok s') :
    s'.done = s.done := by
  unfold scanStep at h
  cases hs : s.context.state_ with
  | kExpectRequestLine => exact absurd hs hst
  | kExpectRequestHeader =>
    rw [hs] at h
    obtain ⟨-, ⟨-, -, rfl⟩ | ⟨-, -, v, -, rfl⟩ | ⟨-, -, rfl⟩⟩ := scanHeader_ok s s' h <;> rfl
  | kExpectRequestBody =>
    simp only [hs, scanBody] at h
    split at h <;> obtain rfl := Except.ok.inj h <;> rfl
  | kGotAll =>
    simp only [hs] at h
    exact congrArg Scan.done (Except.ok.inj h).symm

theorem scanLoop_done (stale : Bytes) (t : TimeStamp) (n : ℕ) (s f : Scan)
    (hst : s.context.state_ ≠ .kExpectRequestLine) (h : scanLoop stale t n s = .ok f) :
    f.done = s.done := by
  induction n generalizing s with
  | zero =>
    unfold scanLoop at h
    split at h
    · exact absurd h (by simp)
    · exact congrArg Scan.done (Except.ok.inj h).symm
  | succ n ih =>
    by_cases hm : s.hasMore = true
    · cases hs : scanStep stale t s with
      | error e => simp [scanLoop, hm, hs, bind, Except.bind] at h
      | ok s' =>
        rw [scanLoop_step stale t n s s' hm hs] at h
        rw [ih s' (scanStep_leaves_line stale t s s' hst hs) h]
        exact scanStep_done stale t s s' hst hs
    · rw [scanLoop_stop stale t _ s (by simpa using hm)] at h
      exact congrArg Scan.done (Except.ok.inj h).symm

/-- The result of a call that begins on the request line is that of its first
pass; a refusal changes nothing but the request. -/
theorem parseRequest_line (c c' : HttpContext) (b b' : Buffer) (hb : b.WF) (t : TimeStamp)
    (hc : c.state_ = .kExpectRequestLine) (done : Bool)
    (h : parseRequest c b t = .ok (done, c', b')) :
    b'.WF ∧ ∃ request,
      parseRequestLine c.request_ ((b.readable ++ b.stale).take (search kCRLF b.readable+2))
        (search kCRLF b.readable+2-(b.readable ++ b.stale).length) = .ok (done, request) ∧
      (done = false → c' = { c with request_ := request } ∧ b'.readable = b.readable) := by
  obtain ⟨f, hf, hd, rfl, hwf, hr⟩ := parseRequest_ok c c' b b' t hb done h
  refine ⟨hwf, ?_⟩
  cases hs : scanStep b.stale t { context := c, unread := b.readable } with
  | error e => simp [scanLoop, hs, bind, Except.bind] at hf
  | ok s' =>
    rw [scanLoop_step _ t _ _ s' rfl hs] at hf
    rw [scanStep, hc] at hs
    obtain ⟨done', request, hp, ⟨rfl, -, rfl⟩ | ⟨rfl, rfl⟩⟩ := scanRequestLine_ok _ t _ s' hs
    · obtain rfl : done = true := by
        rw [← hd, scanLoop_done _ t _ _ f (by simp [Scan.setState]) hf]
        rfl
      exact ⟨request, hp, by simp⟩
    · rw [scanLoop_stop _ t _ _ rfl] at hf
      obtain rfl := Except.ok.inj hf
      obtain rfl : done = false := hd.symm
      exact ⟨request, hp, fun _ => ⟨rfl, hr⟩⟩

theorem parseRequest_refused (c c' : HttpContext) (b b' : Buffer) (hb : b.WF) (t : TimeStamp)
    (h : parseRequest c b t = .ok (false, c', b')) : c.state_ = .kExpectRequestLine := by
  by_contra hc
  obtain ⟨f, hf, hd, -, -, -⟩ := parseRequest_ok c c' b b' t hb false h
  exact absurd (hd.symm.trans (scanLoop_done _ t _ _ f hc hf)) (by simp)

theorem token_unique (a b s t : Bytes) (ha : ∀ ch ∈ a, ch ≠ byte ' ')
    (hb : ∀ ch ∈ b, ch ≠ byte ' ') (h : a ++ byte ' '::s = b ++ byte ' '::t) : a = b := by
  have key : ∀ (word rest : Bytes), (∀ ch ∈ word, ch ≠ byte ' ') →
      (word ++ byte ' '::rest).takeWhile (fun ch => ch ≠ byte ' ') = word := by
    intro word rest hw
    rw [List.takeWhile_append_of_pos (by simpa using hw)]
    simp
  rw [← key a s ha, h, key b t hb]

theorem blank_split (x : Bytes) (h : byte ' ' ∈ x) :
    ∃ word rest, x = word ++ byte ' '::rest ∧ ∀ ch ∈ word, ch ≠ byte ' ' := by
  obtain ⟨word, rest, hx, hw⟩ := List.eq_append_cons_of_mem h
  exact ⟨word, rest, hx, fun ch hc he => hw (he ▸ hc)⟩

/-- The line found in a longer buffer starts like the one found in a shorter. -/
theorem line_starts (word rest more stale stale' line : Bytes)
    (h : ((word ++ byte ' '::rest ++ more) ++ stale').take
      (search kCRLF (word ++ byte ' '::rest ++ more)+2) = word ++ byte ' '::line) :
    ∃ line', ((word ++ byte ' '::rest) ++ stale).take
      (search kCRLF (word ++ byte ' '::rest)+2) = word ++ byte ' '::line' := by
  generalize hx : word ++ byte ' '::rest = x at h ⊢
  have hlen : word.length+1 ≤ search kCRLF x+2 := by
    by_cases hhit : search kCRLF x < x.length
    · rw [search_append kCRLF x more hhit] at h
      have hl := congrArg List.length h
      simp only [List.length_take, List.length_append, List.length_cons] at hl
      omega
    · have hl := congrArg List.length hx
      simp only [List.length_append, List.length_cons] at hl
      omega
  have hsplit : x ++ stale = (word ++ [byte ' ']) ++ (rest ++ stale) := by
    rw [← hx]
    simp
  rw [hsplit, List.take_append, List.take_of_length_le (by simpa using hlen)]
  exact ⟨_, by rw [List.append_assoc]; rfl⟩

theorem methodText_bytes (m : Method) : ∀ ch ∈ methodText m, ch ≠ byte ' ' := by
  cases m <;> decide +kernel

theorem encode_method (w : WireRequest) :
    ∃ rest, w.encode = methodText w.method ++ byte ' '::rest := by
  simp only [WireRequest.encode, WireRequest.lineText, requestLine, List.append_assoc,
    List.cons_append]
  exact ⟨_, rfl⟩

theorem refused_line (x : Bytes) (hx : x ≠ []) (w : WireRequest) (r1 r2 r3 : HttpRequest)
    (stale stale' : Bytes) (past past' : ℕ) (done : Bool)
    (h1 : parseRequestLine r1 ((x ++ stale).take (search kCRLF x+2)) past = .ok (done, r2)) :
    parseRequestLine r2 (((x ++ w.encode) ++ stale').take (search kCRLF (x ++ w.encode)+2)) past' ≠
      .ok (true, r3) := by
  intro h2
  obtain ⟨hfree, token, line, hline, ht, hm⟩ := parseRequestLine_true _ _ _ _ h2
  by_cases hblank : byte ' ' ∈ x
  · obtain ⟨word, rest, rfl, hw⟩ := blank_split x hblank
    have htake := List.take_append_drop (search kCRLF (word ++ byte ' '::rest ++ w.encode)+2)
      ((word ++ byte ' '::rest ++ w.encode) ++ stale')
    rw [hline] at htake
    obtain rfl : token = word := by
      simp only [List.append_assoc, List.cons_append] at htake
      exact token_unique _ _ _ _ ht hw htake
    obtain ⟨line', hline'⟩ := line_starts token rest w.encode stale stale' line hline
    rw [hline'] at h1
    obtain ⟨-, hset⟩ := parseRequestLine_method r1 token line' past ht hm done r2 h1
    exact hm (hset.symm.trans hfree)
  · have htake := List.take_append_drop (search kCRLF (x ++ w.encode)+2) ((x ++ w.encode) ++ stale')
    obtain ⟨rest, hrest⟩ := encode_method w
    have hall : (x ++ w.encode) ++ stale' =
        (x ++ methodText w.method) ++ byte ' '::(rest ++ stale') := by
      rw [hrest]
      simp
    rw [hline, hall, List.append_assoc] at htake
    have hword : ∀ ch ∈ x ++ methodText w.method, ch ≠ byte ' ' := by
      intro ch hc
      rcases List.mem_append.mp hc with hc | hc
      · exact fun he => hblank (he ▸ hc)
      · exact methodText_bytes _ ch hc
    obtain rfl := token_unique _ _ _ _ ht hword htake
    refine hm (HttpRequest.methodOf_append x _ hx ?_)
    rw [methodOf_methodText _ w.method_valid]
    exact w.method_valid

/-- After a refusal no request of a client is taken behind the refused bytes. -/
theorem refused_next (c c' : HttpContext) (b b' : Buffer) (hb : b.WF) (t : TimeStamp)
    (hx : b.readable ≠ []) (h : parseRequest c b t = .ok (false, c', b')) (w : WireRequest)
    (d : Buffer) (hd : d.WF) (hr : d.readable = b'.readable ++ w.encode) (t' : TimeStamp)
    (done : Bool) (c'' : HttpContext) (d' : Buffer)
    (h' : parseRequest c' d t' = .ok (done, c'', d')) :
    done = false ∧ c''.gotAll = false := by
  have hc := parseRequest_refused c c' b b' hb t h
  obtain ⟨-, r1, h1, hkeep⟩ := parseRequest_line c c' b b' hb t hc false h
  obtain ⟨rfl, hsame⟩ := hkeep rfl
  obtain ⟨-, r2, h2, hkeep'⟩ := parseRequest_line { c with request_ := r1 } c'' d d' hd t' hc done h'
  rw [hsame] at hr
  rw [hr] at h2
  cases done with
  | false =>
    obtain ⟨rfl, -⟩ := hkeep' rfl
    exact ⟨rfl, by simp [HttpContext.gotAll, hc]⟩
  | true => exact absurd h2 (refused_line b.readable hx w _ r1 r2 _ _ _ _ _ h1)

structure ReadyForNext (c : HttpConnection) : Prop where
  parsedAsFresh : ∀ (w : WireRequest) (t : TimeStamp) (answers : List Answer) (d : HttpConnection),
    received {} w.encode t = .ok (answers, d) → ∃ c', received c w.encode t = .ok (answers, c')
  notAnsweredAgain : ∀ (w : WireRequest) (t : TimeStamp) (answers : List Answer)
    (c' : HttpConnection), received c w.encode t = .ok (answers, c') →
      .send badRequest ∉ answers
  noAssert : ∀ ms : List (TimeStamp × WireRequest),
    receivedAll c (ms.map (fun m => (m.1, m.2.encode))) ≠ .error .assertion

theorem received_request (body : Bytes) (b : Buffer) (hb : b.WF) (he : b.readable = [])
    (w : WireRequest) (t : TimeStamp) :
    ∃ q body' b', received { context := leftWith body, inputBuffer_ := b } w.encode t =
        .ok ([.onRequest q], { context := leftWith body', inputBuffer_ := b' }) ∧
      b'.WF ∧ b'.readable = [] := by
  obtain ⟨b1, ha, hwf, hr⟩ := b.append_ok hb w.encode
  obtain ⟨t0, b', hp, hwf', hrest⟩ := accepts_parse w.encode _ (encode_accepts w {}) body [] b1 hwf
    (by rw [hr, he, List.append_nil, List.nil_append]) t
  refine ⟨(w.stored {}).reframe (bodyAfter (w.stored {}) body) t0,
    bodyAfter (w.stored {}) body, b', ?_, hwf', hrest⟩
  simp only [received, ha, onMessage, hp, bind, Except.bind]
  rfl

theorem receivedAll_requests (body : Bytes) (b : Buffer) (hb : b.WF) (he : b.readable = [])
    (ms : List (TimeStamp × WireRequest)) :
    ∃ out, receivedAll { context := leftWith body, inputBuffer_ := b }
      (ms.map (fun m => (m.1, m.2.encode))) = .ok out := by
  induction ms generalizing body b with
  | nil => exact ⟨_, rfl⟩
  | cons m ms ih =>
    obtain ⟨q, body', b', hm, hwf, hrest⟩ := received_request body b hb he m.2 m.1
    obtain ⟨out, hout⟩ := ih body' b' hwf hrest
    refine ⟨([.onRequest q] ++ out.1, out.2), ?_⟩
    simp only [List.map_cons, receivedAll, hm, hout, bind, Except.bind]

theorem fresh_ready : ReadyForNext {} where
  parsedAsFresh := fun w t answers d h => ⟨d, h⟩
  notAnsweredAgain := by
    intro w t answers c' h
    obtain ⟨q, body', b', hm, -, -⟩ := received_request [] (Buffer.create kInitialSize)
      (Buffer.create_wf _) (Buffer.create_readable _) w t
    have hm' : received {} w.encode t = .ok ([.onRequest q], _) := hm
    obtain ⟨rfl, -⟩ := Prod.mk.inj (Except.ok.inj (hm'.symm.trans h))
    simp
  noAssert := by
    intro ms
    obtain ⟨out, hout⟩ := receivedAll_requests [] (Buffer.create kInitialSize)
      (Buffer.create_wf _) (Buffer.create_readable _) ms
    have hout' : receivedAll {} (ms.map (fun m => (m.1, m.2.encode))) = .ok out := hout
    simp [hout']

theorem onMessage_send (c c' : HttpConnection) (t : TimeStamp) (answers : List Answer)
    (h : onMessage c t = .ok (answers, c')) (hbad : .send badRequest ∈ answers) :
    ∃ context, parseRequest c.context c.inputBuffer_ t = .ok (false, context, c'.inputBuffer_) ∧
      (context.gotAll = false → c'.context = context) := by
  simp only [onMessage, bind, Except.bind] at h
  cases hp : parseRequest c.context c.inputBuffer_ t with
  | error f => simp [hp] at h
  | ok out =>
    obtain ⟨done, context, buffer⟩ := out
    simp only [hp] at h
    split at h
    · rename_i hgot
      obtain ⟨rfl, rfl⟩ := Prod.mk.inj (Except.ok.inj h)
      obtain rfl : done = false := by
        cases done <;> simp_all
      exact ⟨context, rfl, by simp [hgot]⟩
    · obtain ⟨rfl, rfl⟩ := Prod.mk.inj (Except.ok.inj h)
      obtain rfl : done = false := by
        cases done <;> simp_all
      exact ⟨context, rfl, fun _ => rfl⟩

theorem onMessage_handed (c c' : HttpConnection) (t : TimeStamp) (q : HttpRequest)
    (h : onMessage c t = .ok ([.onRequest q], c')) :
    ∃ done context buffer, parseRequest c.context c.inputBuffer_ t = .ok (done, context, buffer) ∧
      context.gotAll = true := by
  simp only [onMessage, bind, Except.bind] at h
  cases hp : parseRequest c.context c.inputBuffer_ t with
  | error f => simp [hp] at h
  | ok out =>
    obtain ⟨done, context, buffer⟩ := out
    refine ⟨done, context, buffer, rfl, ?_⟩
    by_contra hgot
    simp only [hp, if_neg hgot] at h
    have ha := congrArg Prod.fst (Except.ok.inj h)
    cases done <;> simp at ha

/-- No refusal leaves the connection ready for the next request. -/
theorem received_refused (c : HttpConnection) (hc : c.inputBuffer_.WF) (data : Bytes)
    (hdata : data ≠ []) (t : TimeStamp) (answers : List Answer) (c' : HttpConnection)
    (h : received c data t = .ok (answers, c')) (hbad : .send badRequest ∈ answers) :
    ¬ ReadyForNext c' := by
  intro hready
  obtain ⟨b, ha, hwf, hr⟩ := c.inputBuffer_.append_ok hc data
  simp only [received, ha, bind, Except.bind] at h
  obtain ⟨context, hp, hctx⟩ := onMessage_send _ c' t answers h hbad
  have hne : b.readable ≠ [] := by
    rw [hr]
    simp [hdata]
  have hline := parseRequest_refused _ _ b _ hwf t hp
  obtain ⟨hwf', request, -, hkeep⟩ := parseRequest_line _ _ b _ hwf t hline false hp
  have hcontext : c'.context = context := by
    apply hctx
    have hstate : c.context.state_ = .kExpectRequestLine := hline
    simp [(hkeep rfl).1, HttpContext.gotAll, hstate]
  obtain ⟨q, body', b', hfresh, -, -⟩ := received_request [] (Buffer.create kInitialSize)
    (Buffer.create_wf _) (Buffer.create_readable _) indexRequest {}
  obtain ⟨c'', hnext⟩ := hready.parsedAsFresh indexRequest {} [.onRequest q] _ hfresh
  obtain ⟨d, hd, hdwf, hdr⟩ := c'.inputBuffer_.append_ok hwf' indexRequest.encode
  simp only [received, hd, bind, Except.bind] at hnext
  obtain ⟨done, context', buffer, hp', hgot⟩ := onMessage_handed _ c'' {} q hnext
  simp only [hcontext] at hp'
  have hstuck := refused_next _ context b _ hwf t hne hp indexRequest d hdwf hdr {} done context'
    buffer hp'
  exact absurd (hgot.symm.trans hstuck.2) (by simp)

def shortLine : Bytes := bytes "GET /\r\n"

theorem received_ok_of (c : HttpConnection) (data : Bytes) (t : TimeStamp) (answers : List Answer)
    (h : (received c data t).map Prod.fst = .ok answers) :
    ∃ c', received c data t = .ok (answers, c') := by
  cases hr : received c data t with
  | error f => simp [hr, Except.map] at h
  | ok out =>
    rw [hr] at h
    obtain rfl := Except.ok.inj h
    exact ⟨out.2, rfl⟩

theorem shortLine_refused :
    ∃ c', received {} shortLine {} = .ok ([.send badRequest], c') ∧ ¬ ReadyForNext c' := by
  obtain ⟨c', h⟩ := received_ok_of {} shortLine {} [.send badRequest] (by decide +kernel)
  exact ⟨c', h, received_refused {} (Buffer.create_wf _) shortLine (by decide) {} _ c' h (by simp)⟩

/-- The request behind it stops the server in `setMethod`. -/
theorem shortLine_assertion :
    ∃ c', received {} shortLine {} = .ok ([.send badRequest], c') ∧
      received c' indexRequest.encode {} = .error .assertion ∧ ¬ ReadyForNext c' := by
  obtain ⟨c', h⟩ := received_ok_of {} shortLine {} [.send badRequest] (by decide +kernel)
  have hall : receivedAll {} [({}, shortLine), ({}, indexRequest.encode)] = .error .assertion := by
    decide +kernel
  have hnext : received c' indexRequest.encode {} = .error .assertion := by
    simp only [receivedAll, h, bind, Except.bind] at hall
    cases hr : received c' indexRequest.encode {} with
    | error f =>
      rw [hr] at hall
      exact hall
    | ok out => simp [hr] at hall
  refine ⟨c', h, hnext, fun hready => hready.noAssert [({}, indexRequest)] ?_⟩
  simp only [List.map_cons, List.map_nil, receivedAll, hnext, bind, Except.bind]

end MuServer
