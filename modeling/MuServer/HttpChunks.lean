import MuServer.HttpServer

/-!
# Requests in pieces

The parser keeps its state between calls so that a request may arrive in
several messages. It takes the end of the readable bytes for the end of a
line, and the content length does not outlive the call that has read it: only
a request that arrives in one piece is parsed as such.
-/

set_option autoImplicit false

namespace MuServer
open Lib.Search

structure ParseCall where
  result : Bool
  context : HttpContext
  buffer : Buffer
  deriving DecidableEq

def feed (c : HttpContext) (b : Buffer) :
    List (TimeStamp × Bytes) → Except Fault (List ParseCall)
  | [] => .ok []
  | chunk::chunks => do
    let appended ← b.append chunk.2
    let (result, c', b') ← parseRequest c appended chunk.1
    let calls ← feed c' b' chunks
    .ok ({ result := result, context := c', buffer := b' }::calls)

/-- The calls fail nowhere, all return true, the request is there with the
last of them and not before, and it is `q` with nothing left unread. -/
def ParsedAsWhole (q : HttpRequest) (b : Buffer) (chunks : List (TimeStamp × Bytes)) : Prop :=
  ∃ calls, feed {} b chunks = .ok calls ∧ (∀ call ∈ calls, call.result = true) ∧
    (∀ i call, calls[i]? = some call → (call.context.gotAll = true ↔ i+1 = calls.length)) ∧
    ∃ last, calls.getLast? = some last ∧ last.context.request_.content = q.content ∧
      last.buffer.readable = []

theorem feed_cons (c : HttpContext) (b : Buffer) (hb : b.WF) (chunk : TimeStamp × Bytes)
    (chunks : List (TimeStamp × Bytes)) (calls : List ParseCall)
    (h : feed c b (chunk::chunks) = .ok calls) :
    ∃ appended call calls', appended.WF ∧ appended.readable = b.readable ++ chunk.2 ∧
      parseRequest c appended chunk.1 = .ok (call.result, call.context, call.buffer) ∧
      feed call.context call.buffer chunks = .ok calls' ∧ calls = call::calls' := by
  obtain ⟨appended, ha, hwf, hr⟩ := b.append_ok hb chunk.2
  simp only [feed, ha, bind, Except.bind] at h
  cases hp : parseRequest c appended chunk.1 with
  | error f => simp [hp] at h
  | ok out =>
    obtain ⟨result, c', b'⟩ := out
    simp only [hp] at h
    cases hf : feed c' b' chunks with
    | error f => simp [hf] at h
    | ok calls' =>
      simp only [hf] at h
      exact ⟨appended, ⟨result, c', b'⟩, calls', hwf, hr, hp, hf, (Except.ok.inj h).symm⟩

/-- A call that begins in the body has no content length and ends at once. -/
theorem parseRequest_body (c : HttpContext) (b : Buffer) (hb : b.WF) (t : TimeStamp)
    (hc : c.state_ = .kExpectRequestBody) :
    ∃ c' b', parseRequest c b t = .ok (true, c', b') ∧ c'.gotAll = true ∧
      b'.readable = b.readable := by
  have hs : scanStep b.stale t { context := c, unread := b.readable } =
      .ok (({ context := c, unread := b.readable, hasMore := false : Scan }.setRequest
        (c.request_.setBody [])).setState .kGotAll) := by
    rw [scanStep, hc]
    rfl
  obtain ⟨b', hp, -, hr⟩ := parseRequest_scan c b t hb (by simp [hc]) 1 _
    ((scanLoop_step b.stale t 0 _ _ rfl hs).trans (scanLoop_stop b.stale t 0 _ rfl))
  exact ⟨_, b', hp, rfl, hr⟩

/-- A call over a proper prefix of a request that returns true has stopped
before the body. -/
theorem parseRequest_cut (r rest : Bytes) (q : HttpRequest) (hq : Accepts (r ++ rest) q)
    (hrest : rest ≠ []) (b : Buffer) (hb : b.WF) (hr : b.readable = r) (t : TimeStamp)
    (c : HttpContext) (b' : Buffer) (h : parseRequest {} b t = .ok (true, c, b')) :
    c.state_ = .kExpectRequestBody ∧ b'.WF := by
  obtain ⟨stale, t1, n, f', hf', htook, hall, -⟩ := accepts_scan _ q hq
  obtain ⟨f, hf, hd, rfl, hwf, -⟩ := parseRequest_ok {} c b b' t hb true h
  rw [hr] at hf
  have hcut := scanLoop_cut b.stale stale t t1 [] rest hrest _ n
    { context := {}, unread := r } { context := {}, unread := r ++ rest } f f'
    ⟨rfl, ⟨{}, rfl⟩, rfl, rfl, rfl⟩ rfl rfl rfl (by simp) hf hf' htook hall
  exact ⟨hcut.resolve_left (by simp [hd]), hwf⟩

theorem parsedAsWhole_one (r : Bytes) (q : HttpRequest) (hq : Accepts r q) (b : Buffer)
    (hb : b.WF) (he : b.readable = []) (t : TimeStamp) : ParsedAsWhole q b [(t, r)] := by
  obtain ⟨appended, ha, hwf, hr⟩ := b.append_ok hb r
  obtain ⟨t0, b', hp, -, hrest⟩ := accepts_parse r q hq [] [] appended hwf
    (by rw [hr, he, List.append_nil, List.nil_append]) t
  rw [← accepts_body r q hq] at hp
  generalize hctx : ({ state_ := .kGotAll, request_ := q.reframe q.body_ t0 } : HttpContext) = c
    at hp
  have hfeed : feed {} b [(t, r)] = .ok [⟨true, c, b'⟩] := by
    have hp' : parseRequest {} appended t = .ok (true, c, b') := hp
    simp only [feed, ha, hp', bind, Except.bind]
  subst hctx
  refine ⟨_, hfeed, by simp, ?_, _, rfl, ?_, hrest⟩
  · intro i call hi
    cases i with
    | zero =>
      obtain rfl := Option.some.inj hi
      simp [HttpContext.gotAll]
    | succ i => simp at hi
  · exact (reframe_content q q.body_ t0).mpr rfl

theorem parsedAsWhole_two (r : Bytes) (q : HttpRequest) (hq : Accepts r q)
    (first second : TimeStamp × Bytes) (chunks : List (TimeStamp × Bytes))
    (hsecond : second.2 ≠ []) (hflat : ((first::second::chunks).map Prod.snd).flatten = r)
    (b : Buffer) (hb : b.WF) (he : b.readable = []) :
    ¬ ParsedAsWhole q b (first::second::chunks) := by
  rintro ⟨calls, hcalls, htrue, hgot, last, hlast, -, hunread⟩
  obtain ⟨b1, call1, calls1, hwf1, hr1, hp1, hfeed1, rfl⟩ := feed_cons _ _ hb _ _ _ hcalls
  rw [he, List.nil_append] at hr1
  have hcut := parseRequest_cut first.2 ((second::chunks).map Prod.snd).flatten q
    (by rw [← List.flatten_cons, ← List.map_cons, hflat]; exact hq) (by simp [hsecond]) b1 hwf1 hr1
    first.1 call1.context call1.buffer (by rw [hp1, htrue call1 (by simp)])
  obtain ⟨b2, call2, calls2, hwf2, hr2, hp2, hfeed2, rfl⟩ := feed_cons _ _ hcut.2 _ _ _ hfeed1
  obtain ⟨c', b', hp', hgot', hr'⟩ := parseRequest_body call1.context b2 hwf2 second.1 hcut.1
  obtain ⟨-, rfl, rfl⟩ : call2.result = true ∧ call2.context = c' ∧ call2.buffer = b' := by
    simpa using hp2.symm.trans hp'
  have hlen := (hgot 1 call2 rfl).mp hgot'
  obtain rfl : calls2 = [] := by
    rw [← List.length_eq_zero_iff]
    simpa using hlen
  obtain rfl : call2 = last := Option.some.inj hlast
  rw [hunread, hr2] at hr'
  exact hsecond (List.append_eq_nil_iff.mp hr'.symm).2

/-- A request is parsed as a whole exactly when it arrives as one. -/
theorem parsedAsWhole_iff (r : Bytes) (q : HttpRequest) (hq : Accepts r q)
    (chunks : List (TimeStamp × Bytes)) (hne : ∀ chunk ∈ chunks, chunk.2 ≠ [])
    (hflat : (chunks.map Prod.snd).flatten = r) (b : Buffer) (hb : b.WF) (he : b.readable = []) :
    ParsedAsWhole q b chunks ↔ chunks.length = 1 := by
  match chunks with
  | [] =>
    refine ⟨?_, by simp⟩
    rintro ⟨calls, hcalls, -, -, last, hlast, -⟩
    obtain rfl := Except.ok.inj hcalls
    exact absurd hlast (by simp)
  | [chunk] =>
    obtain rfl : chunk.2 = r := by simpa using hflat
    exact ⟨fun _ => rfl, fun _ => parsedAsWhole_one chunk.2 q hq b hb he chunk.1⟩
  | first::second::chunks =>
    refine ⟨fun h => ?_, by simp⟩
    exact absurd h (parsedAsWhole_two r q hq first second chunks (hne second (by simp)) hflat b
      hb he)

theorem parsedAsWhole_index :
    ParsedAsWhole (indexRequest.stored {}) (Buffer.create kInitialSize)
      [({}, indexRequest.encode)] :=
  (parsedAsWhole_iff indexRequest.encode _ (encode_accepts indexRequest {})
    [({}, indexRequest.encode)] (by decide) (by decide) _ (Buffer.create_wf _)
    (Buffer.create_readable _)).mpr rfl

def indexChunks : List (TimeStamp × Bytes) :=
  [({}, indexRequest.encode.take 1), ({}, indexRequest.encode.drop 1)]

set_option maxRecDepth 4000 in
theorem index_cut :
    Accepts indexRequest.encode (indexRequest.stored {}) ∧
      (indexChunks.map Prod.snd).flatten = indexRequest.encode ∧
      (feed {} (Buffer.create kInitialSize) (indexChunks.take 1)).map (·.map (·.result)) =
        .ok [false] ∧
      ¬ ParsedAsWhole (indexRequest.stored {}) (Buffer.create kInitialSize) indexChunks :=
  ⟨encode_accepts indexRequest {}, by decide, by decide +kernel,
    parsedAsWhole_two indexRequest.encode _ (encode_accepts indexRequest {}) _ _ [] (by decide)
      (by decide) _ (Buffer.create_wf _) (Buffer.create_readable _)⟩

end MuServer
