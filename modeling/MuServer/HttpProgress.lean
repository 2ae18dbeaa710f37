import Mathlib.Logic.Relation
import MuServer.HttpServer
import MuServer.Lib.Machine
import MuServer.StaleBytes

/-!
# Every call of the parser ends

The loop would spin in `kGotAll` and nowhere else: a pass that goes on has
taken a line from the buffer. `onMessage` resets the context whenever the
parser has left it in that state, so no call begins there.
-/

set_option autoImplicit false

namespace MuServer
open Lib.Search Lib.Fallible Lib.Machine

structure Delivery where
  buffer : Buffer
  receivedTime : TimeStamp

/-- The buffer holds what the last call has left and the bytes that arrived
since; what the vector has behind them is left open. -/
def Delivers (c : HttpConnection) (a : Delivery) : Prop :=
  a.buffer.WF ∧ ∃ data, a.buffer.readable = c.inputBuffer_.readable ++ data

def messageStep (c : HttpConnection) (a : Delivery) : Option HttpConnection :=
  match onMessage { c with inputBuffer_ := a.buffer } a.receivedTime with
  | .ok (_, next) => some next
  | .error _ => none

def ParsePass (t : TimeStamp) (l m : ParseLoop) : Prop := l.hasMore = true ∧ parseStep t l = .ok m

theorem stoi_ends (s : Bytes) : Ends (· ≠ Fault.spins) (stoi s) (fun _ => True) := by
  cases h : stoi s with
  | ok v => exact ends_ok _ _ _ trivial
  | error f =>
    -- no digit, or a value outside `int`
    have hf : f = .exception := by
      unfold stoi at h
      dsimp only at h
      split_ifs at h <;> exact (Except.error.inj h).symm
    exact ends_error _ _ _ (by simp [hf])

theorem skip_ends (unread : Bytes) (n : ℕ) :
    Ends (· ≠ Fault.spins) (skip unread n) (fun _ => True) := by
  unfold skip
  split
  · exact ends_ok _ _ _ trivial
  · exact ends_error _ _ _ (by simp)

theorem parseRequestLine_ends (request : HttpRequest) (line : Bytes) (past : ℕ) :
    Ends (· ≠ Fault.spins) (parseRequestLine request line past) (fun _ => True) := by
  apply ends_mono (lineLoop_faults line past line 0 _) _ (fun _ h => h)
  rintro f (rfl | rfl | ⟨rfl, -⟩) <;> simp

theorem scanHeaderLine_ends (s : Scan) (i : ℕ) (line : Bytes) :
    Ends (· ≠ Fault.spins) (scanHeaderLine s i line) (fun _ => True) := by
  unfold scanHeaderLine
  dsimp only
  split
  · apply ends_bind _ (skip_ends _ _)
    intro unread _
    split
    · exact ends_error _ _ _ (by simp)
    · exact ends_ok _ _ _ trivial
  · split
    · apply ends_bind _ (stoi_ends _)
      intro v _
      apply ends_bind _ (skip_ends _ _)
      intro unread _
      exact ends_ok _ _ _ trivial
    · apply ends_bind _ (skip_ends _ _)
      intro unread _
      exact ends_ok _ _ _ trivial

theorem scanStep_ends (stale : Bytes) (t : TimeStamp) (s : Scan) :
    Ends (· ≠ Fault.spins) (scanStep stale t s) (fun _ => True) := by
  unfold scanStep
  cases s.context.state_ with
  | kExpectRequestLine =>
    apply ends_bind _ (parseRequestLine_ends _ _ _)
    rintro ⟨done, request⟩ -
    cases done with
    | false => exact ends_ok _ _ _ trivial
    | true =>
      apply ends_bind _ (skip_ends _ _)
      intro unread _
      exact ends_ok _ _ _ trivial
  | kExpectRequestHeader => exact scanHeaderLine_ends s _ _
  | kExpectRequestBody =>
    simp only [scanBody]
    split <;> exact ends_ok _ _ _ trivial
  | kGotAll => exact ends_ok _ _ _ trivial

theorem scanStep_takes (stale : Bytes) (t : TimeStamp) (s s' : Scan)
    (hs : s.context.state_ ≠ .kGotAll) (h : scanStep stale t s = .ok s')
    (hmore : s'.hasMore = true) : s'.unread.length < s.unread.length := by
  unfold scanStep at h
  cases hst : s.context.state_ with
  | kExpectRequestLine =>
    rw [hst] at h
    obtain ⟨done, request, -, ⟨-, hle, rfl⟩ | ⟨-, rfl⟩⟩ := scanRequestLine_ok stale t s s' h
    · simp only [Scan.setState, Scan.setRequest, List.length_drop]
      omega
    · simp [Scan.setRequest] at hmore
  | kExpectRequestHeader =>
    rw [hst] at h
    obtain ⟨hle, ⟨-, -, rfl⟩ | ⟨-, -, v, -, rfl⟩ | ⟨-, -, rfl⟩⟩ := scanHeader_ok s s' h
    · simp only [Scan.setRequest, List.length_drop]
      omega
    · simp only [Scan.setState, List.length_drop]
      omega
    · simp [Scan.setState] at hmore
  | kExpectRequestBody =>
    simp only [hst, scanBody] at h
    split at h <;> obtain rfl := Except.ok.inj h <;>
      simp [Scan.setRequest, Scan.setState] at hmore
  | kGotAll => exact absurd hst hs

theorem scanLoop_ends (stale : Bytes) (t : TimeStamp) (n : ℕ) (s : Scan)
    (hs : s.hasMore = true → s.context.state_ ≠ .kGotAll) (hn : passes s ≤ n) :
    Ends (· ≠ Fault.spins) (scanLoop stale t n s) (fun _ => True) := by
  induction n generalizing s with
  | zero =>
    rw [scanLoop_stop _ _ _ _ (passes_zero s (by omega))]
    exact ends_ok _ _ _ trivial
  | succ n ih =>
    cases hm : s.hasMore with
    | false =>
      rw [scanLoop_stop _ _ _ _ hm]
      exact ends_ok _ _ _ trivial
    | true =>
      have hstep := scanStep_ends stale t s
      rw [scanLoop, if_pos hm]
      cases h : scanStep stale t s with
      | error f =>
        rw [h] at hstep
        exact hstep
      | ok s' =>
        obtain ⟨hlt, hnext⟩ := scanStep_passes stale t s s' hm (hs hm) h
        exact ih s' hnext (by omega)

theorem parseRequest_ends (c : HttpContext) (b : Buffer) (t : TimeStamp) (h : b.WF)
    (hc : c.state_ ≠ .kGotAll) : parseRequest c b t ≠ .error .spins := by
  have hends := scanLoop_ends b.stale t (b.readableBytes+3) { context := c, unread := b.readable }
    (fun _ => hc) (passes_start c b h)
  have hloop := parseLoop_scan t (b.readableBytes+3) { context := c, buffer := b } h
  unfold parseRequest
  cases hp : parseLoop t (b.readableBytes+3) { context := c, buffer := b } with
  | ok m => simp [bind, Except.bind]
  | error f =>
    rw [hp] at hloop
    simp only [ParseLoop.scan] at hloop
    rw [hloop] at hends
    intro heq
    cases heq
    exact hends rfl

structure Running (l : ParseLoop) : Prop where
  wf : l.buffer.WF
  state : l.hasMore = true → l.context.state_ ≠ .kGotAll

theorem pass_scan (t : TimeStamp) (l m : ParseLoop) (h : l.buffer.WF) (hp : ParsePass t l m) :
    scanStep l.buffer.stale t l.scan = .ok m.scan ∧ m.buffer.WF := by
  have hagree := parseStep_scan t l h
  rw [hp.2] at hagree
  exact ⟨hagree.1, hagree.2.1⟩

theorem pass_running (t : TimeStamp) (l m : ParseLoop) (h : Running l) (hp : ParsePass t l m) :
    Running m := by
  obtain ⟨hscan, hwf⟩ := pass_scan t l m h.wf hp
  exact ⟨hwf, (scanStep_passes _ t l.scan m.scan hp.1 (h.state hp.1) hscan).2⟩

theorem passes_running (t : TimeStamp) (l m : ParseLoop) (h : Running l)
    (hp : Relation.ReflTransGen (ParsePass t) l m) : Running m := by
  induction hp with
  | refl => exact h
  | tail _ hlast ih => exact pass_running t _ _ ih hlast

structure Resettled (c : HttpConnection) : Prop where
  wf : c.inputBuffer_.WF
  state : c.context.state_ ≠ .kGotAll

theorem onMessage_resettled (c next : HttpConnection) (t : TimeStamp) (answers : List Answer)
    (h : c.inputBuffer_.WF) (hm : onMessage c t = .ok (answers, next)) : Resettled next := by
  unfold onMessage at hm
  cases hp : parseRequest c.context c.inputBuffer_ t with
  | error f => simp [hp, bind, Except.bind] at hm
  | ok r =>
    obtain ⟨done, context, buffer⟩ := r
    obtain ⟨-, -, -, -, hwf, -⟩ := parseRequest_ok _ _ _ _ t h done hp
    simp only [hp, bind, Except.bind] at hm
    by_cases hgot : context.gotAll = true
    · simp only [if_pos hgot, Except.ok.injEq, Prod.mk.injEq] at hm
      obtain ⟨-, rfl⟩ := hm
      exact ⟨hwf, by simp [HttpContext.reset]⟩
    · simp only [if_neg hgot, Except.ok.injEq, Prod.mk.injEq] at hm
      obtain ⟨-, rfl⟩ := hm
      exact ⟨hwf, by simpa [HttpContext.gotAll] using hgot⟩

theorem messageStep_resettled (c : HttpConnection) (a : Delivery) (next : HttpConnection)
    (ha : Delivers c a) (hm : messageStep c a = some next) : Resettled next := by
  unfold messageStep at hm
  cases hon : onMessage { c with inputBuffer_ := a.buffer } a.receivedTime with
  | error f => simp [hon] at hm
  | ok r =>
    obtain ⟨answers, c'⟩ := r
    simp only [hon, Option.some.injEq] at hm
    subst hm
    exact onMessage_resettled _ _ _ _ ha.1 hon

theorem reach_resettled (c : HttpConnection) (h : Reach messageStep Delivers {} c) :
    Resettled c := by
  apply reach_invariant messageStep Delivers {} Resettled _ _ c h
  · exact ⟨Buffer.create_wf _, by decide⟩
  · intro c a next _ ha hm
    exact messageStep_resettled c a next ha hm

/-- Whatever arrives on a connection, a call of the parser begins outside
`kGotAll` and ends, and every pass it makes begins outside it too; one that
goes on has taken bytes or changed the state. -/
theorem parseRequest_progress (c : HttpConnection) (h : Reach messageStep Delivers {} c)
    (a : Delivery) (ha : Delivers c a) :
    c.context.state_ ≠ .kGotAll ∧
      parseRequest c.context a.buffer a.receivedTime ≠ .error .spins ∧
      ∀ l m, Relation.ReflTransGen (ParsePass a.receivedTime)
          { context := c.context, buffer := a.buffer } l → ParsePass a.receivedTime l m →
        l.context.state_ ≠ .kGotAll ∧
          ¬ (m.buffer.readable = l.buffer.readable ∧ m.context.state_ = l.context.state_ ∧
            m.hasMore = true) := by
  have hstate := (reach_resettled c h).state
  refine ⟨hstate, parseRequest_ends _ _ _ ha.1 hstate, ?_⟩
  intro l m hl hp
  have hrun := passes_running _ _ l ⟨ha.1, fun _ => hstate⟩ hl
  have hgot := hrun.state hp.1
  refine ⟨hgot, ?_⟩
  rintro ⟨hsame, -, hmore⟩
  have htakes := scanStep_takes _ _ l.scan m.scan hgot (pass_scan _ l m hrun.wf hp).1 hmore
  simp [ParseLoop.scan, hsame] at htakes

def shortRequest : Delivery where
  buffer := holding (bytes "GET / HTTP/1.1\r\n\r\n") []
  receivedTime := {}

/-- The second of two such requests on one connection. -/
theorem parseRequest_progress_second :
    parseRequest {} shortRequest.buffer {} ≠ .error .spins := by
  have hwf : shortRequest.buffer.WF := holding_wf _ _
  have hfirst : messageStep {} shortRequest =
      some { inputBuffer_ := shortRequest.buffer.retrieveAll } := by decide +kernel
  have hreach : Reach messageStep Delivers {}
      { inputBuffer_ := shortRequest.buffer.retrieveAll } :=
    .next _ shortRequest _ .refl ⟨hwf, _, rfl⟩ hfirst
  have hdelivers : Delivers { inputBuffer_ := shortRequest.buffer.retrieveAll } shortRequest :=
    ⟨hwf, shortRequest.buffer.readable, by rw [Buffer.retrieveAll_readable, List.nil_append]⟩
  exact (parseRequest_progress _ hreach shortRequest hdelivers).2.1

end MuServer
