import MuServer.HttpStream
import MuServer.Lib.Fallible

/-!
# What older messages leave behind the readable bytes

A call of the parser sees the vector through the range it forms for a request
line: where there is no CRLF the range goes on for two bytes behind the
readable ones. So the call depends on nothing but the readable bytes if it is
past the request line, if the line is complete, or if the automaton has made
up its mind before it gets there; and in no other case.
-/

set_option autoImplicit false

namespace MuServer
open Lib.Search Lib.Fallible

def outcome (c : HttpContext) (b : Buffer) (t : TimeStamp) :
    Except Fault (Bool × HttpContext × Bytes) :=
  (parseRequest c b t).map (fun r => (r.1, r.2.1, r.2.2.readable))

def Independent (c : HttpContext) (t : TimeStamp) (readable : Bytes) : Prop :=
  ∀ b b' : Buffer, b.WF → b'.WF → b.readable = readable → b'.readable = readable →
    outcome c b t = outcome c b' t

def Settles (request : HttpRequest) (line : Bytes) : Prop :=
  parseRequestLine request line 2 ≠ .error .outOfRange

instance (request : HttpRequest) (line : Bytes) : Decidable (Settles request line) :=
  inferInstanceAs (Decidable (_ ≠ _))

def Scan.outcome (s : Scan) : Bool × HttpContext × Bytes := (s.done, s.context, s.unread)

theorem outcome_scan (c : HttpContext) (b : Buffer) (t : TimeStamp) (h : b.WF) :
    outcome c b t = (scanLoop b.stale t (b.readable.length+3)
      { context := c, unread := b.readable }).map Scan.outcome := by
  have hloop := parseLoop_scan t (b.readableBytes+3) { context := c, buffer := b } h
  rw [b.readable_length h, outcome, parseRequest]
  cases hr : parseLoop t (b.readableBytes+3) { context := c, buffer := b } with
  | error f =>
    rw [hr] at hloop
    have hs : scanLoop b.stale t (b.readableBytes+3) { context := c, unread := b.readable } =
        .error f := hloop
    rw [hs]
    rfl
  | ok m =>
    rw [hr] at hloop
    have hs : scanLoop b.stale t (b.readableBytes+3) { context := c, unread := b.readable } =
        .ok m.scan := hloop.1
    rw [hs]
    rfl

theorem between_append (line more : Bytes) (start : Option ℕ) (p : ℕ) (hp : p ≤ line.length) :
    between (line ++ more) start p = between line start p := by
  cases start with
  | none => rfl
  | some first => simp only [between, List.take_append_of_le_length hp]

theorem lineStep_append (line more : Bytes) (p : ℕ) (ch : Byte) (s : LineScan)
    (hp : p ≤ line.length) : lineStep (line ++ more) p ch s = lineStep line p ch s := by
  unfold lineStep
  simp only [between_append line more _ p hp]

/-- A decision that is made on the line stands whatever is behind it. -/
theorem lineLoop_append (line more rest : Bytes) (past p : ℕ) (s : LineScan)
    (hp : p+rest.length = line.length)
    (hsettled : lineLoop line 2 rest p s ≠ .error .outOfRange) :
    lineLoop (line ++ more) past (rest ++ more) p s = lineLoop line 2 rest p s := by
  induction rest generalizing p s with
  | nil =>
    -- a line of two bytes more that is decided already is too long
    have hlong : kMaxRequestLine < p := by
      by_contra hshort
      simp [lineLoop, hshort] at hsettled
    cases more with
    | nil => simp [lineLoop, hlong]
    | cons x more => simp [lineLoop, hlong]
  | cons ch rest ih =>
    simp only [List.length_cons] at hp
    rw [List.cons_append, lineLoop, lineLoop, lineStep_append line more p ch s (by omega)]
    rw [lineLoop] at hsettled
    by_cases hlong : kMaxRequestLine < p
    · rw [if_pos hlong, if_pos hlong]
    · rw [if_neg hlong, if_neg hlong]
      rw [if_neg hlong] at hsettled
      cases hstep : lineStep line p ch s with
      | error f => rfl
      | ok r =>
        simp only [hstep, bind, Except.bind] at hsettled ⊢
        cases r with
        | next u => exact ih (p+1) u (by omega) hsettled
        | ret accepted request => rfl

theorem lineLoop_inside (line rest : Bytes) (p : ℕ) (s : LineScan) :
    Ends (· ≠ Fault.outOfRange) (lineLoop line 0 rest p s) (fun _ => True) := by
  apply ends_mono (lineLoop_faults line 0 rest p s) _ (fun _ h => h)
  rintro f (rfl | rfl | ⟨-, hpast⟩)
  · simp
  · simp
  · exact absurd rfl hpast

theorem take_behind (readable stale : Bytes) :
    (readable ++ stale).take (readable.length+2) = readable ++ stale.take 2 := by
  rw [List.take_length_add_append]

theorem scanRequestLine_settled (stale : Bytes) (t : TimeStamp) (s : Scan)
    (hmiss : search kCRLF s.unread = s.unread.length)
    (hsettles : Settles s.context.request_ s.unread) :
    scanRequestLine stale t s = scanRequestLine [] t s := by
  have hline : ∀ past, parseRequestLine s.context.request_ (s.unread ++ stale.take 2) past =
      parseRequestLine s.context.request_ s.unread 2 := by
    intro past
    exact lineLoop_append s.unread _ s.unread past 0 _ (Nat.zero_add _) hsettles
  have hplain : ∀ past, parseRequestLine s.context.request_ (s.unread ++ []) past =
      parseRequestLine s.context.request_ s.unread 2 := by
    intro past
    exact lineLoop_append s.unread _ s.unread past 0 _ (Nat.zero_add _) hsettles
  simp only [scanRequestLine, hmiss, take_behind, hline, List.take_nil, hplain]

theorem scanRequestLine_complete (stale : Bytes) (t : TimeStamp) (s : Scan)
    (hhit : search kCRLF s.unread+2 ≤ s.unread.length) :
    scanRequestLine stale t s = scanRequestLine [] t s := by
  have hline : (s.unread ++ stale).take (search kCRLF s.unread+2) =
      s.unread.take (search kCRLF s.unread+2) := List.take_append_of_le_length hhit
  have hpast : search kCRLF s.unread+2-(s.unread ++ stale).length = 0 := by
    rw [List.length_append]
    omega
  have hplain : search kCRLF s.unread+2-s.unread.length = 0 := by omega
  simp only [scanRequestLine, hline, hpast, List.append_nil, hplain]

theorem search_miss (line : Bytes) (h : ¬ search kCRLF line+2 ≤ line.length) :
    search kCRLF line = line.length := by
  by_contra hne
  have hle := search_le kCRLF line
  exact h (search_hit_length kCRLF line (by omega))

theorem scanStep_settled (stale : Bytes) (t : TimeStamp) (s : Scan)
    (h : s.context.state_ ≠ .kExpectRequestLine ∨ search kCRLF s.unread+2 ≤ s.unread.length
      ∨ Settles s.context.request_ s.unread) : scanStep stale t s = scanStep [] t s := by
  by_cases hs : s.context.state_ = .kExpectRequestLine
  · have hline : scanRequestLine stale t s = scanRequestLine [] t s := by
      by_cases hhit : search kCRLF s.unread+2 ≤ s.unread.length
      · exact scanRequestLine_complete stale t s hhit
      · rcases h with hne | hhit' | hsettles
        · exact absurd hs hne
        · exact absurd hhit' hhit
        · exact scanRequestLine_settled stale t s (search_miss s.unread hhit) hsettles
    unfold scanStep
    rw [hs]
    exact hline
  · exact scanStep_stale stale [] t s hs

theorem scanLoop_settled (stale : Bytes) (t : TimeStamp) (n : ℕ) (s : Scan)
    (h : s.context.state_ ≠ .kExpectRequestLine ∨ search kCRLF s.unread+2 ≤ s.unread.length
      ∨ Settles s.context.request_ s.unread) :
    scanLoop stale t n s = scanLoop [] t n s := by
  cases n with
  | zero => rfl
  | succ n =>
    unfold scanLoop
    split
    · rw [scanStep_settled stale t s h]
      cases hstep : scanStep [] t s with
      | error f => rfl
      | ok s' =>
        -- the line is never met again
        by_cases hs' : s'.context.state_ = .kExpectRequestLine
        · have hstop := scanStep_line_stops [] t s s' hstep hs'
          simp only [bind, Except.bind, scanLoop_stop _ t n s' hstop]
        · exact scanLoop_stale stale [] t n s' hs'
    · rfl

def holding (readable stale : Bytes) : Buffer where
  buffer_ := List.replicate kCheapPrepend 0 ++ (readable ++ stale)
  readerIndex_ := kCheapPrepend
  writerIndex_ := kCheapPrepend+readable.length

theorem holding_wf (readable stale : Bytes) : (holding readable stale).WF where
  prepend := le_refl _
  order := Nat.le_add_right _ _
  size := by
    simp only [holding, List.length_append, List.length_replicate]
    omega

theorem holding_stale (readable stale : Bytes) : (holding readable stale).stale = stale := by
  simp [holding, Buffer.stale, ← List.append_assoc, List.drop_left']

theorem holding_readable (readable stale : Bytes) :
    (holding readable stale).readable = readable := by
  have happend := readable_stale _ (holding_wf readable stale)
  rw [holding_stale] at happend
  exact List.append_cancel_right (happend.trans (by simp [holding]))

theorem scanRequestLine_beyond (t : TimeStamp) (s : Scan)
    (hmiss : search kCRLF s.unread = s.unread.length)
    (hsettles : ¬ Settles s.context.request_ s.unread) :
    scanRequestLine [] t s = .error .outOfRange := by
  have hline : parseRequestLine s.context.request_ s.unread 2 = .error .outOfRange :=
    not_not.mp hsettles
  have htake : s.unread.take (s.unread.length+2) = s.unread := List.take_of_length_le (by omega)
  simp [scanRequestLine, hmiss, htake, hline, bind, Except.bind]

theorem scanRequestLine_within (t : TimeStamp) (s : Scan) (x y : Byte)
    (hmiss : search kCRLF s.unread = s.unread.length) :
    Ends (· ≠ Fault.outOfRange) (scanRequestLine [x, y] t s) (fun s' => s'.hasMore = false) := by
  have hpast : s.unread.length+2-(s.unread ++ [x, y]).length = 0 := by simp
  unfold scanRequestLine
  simp only [hmiss, hpast]
  apply ends_bind _ (lineLoop_inside _ _ _ _)
  rintro ⟨done, request⟩ -
  cases done with
  | false => exact ends_ok _ _ _ rfl
  | true =>
    have hskip : skip s.unread (s.unread.length+2) = .error .assertion := if_neg (by omega)
    simp only [hskip]
    exact ends_error _ _ _ (by simp)

/-- A call on an undecided line, with nothing and with two bytes behind it. -/
theorem outcome_undecided (c : HttpContext) (t : TimeStamp) (readable : Bytes)
    (hstate : c.state_ = .kExpectRequestLine)
    (hmiss : search kCRLF readable = readable.length)
    (hsettles : ¬ Settles c.request_ readable) :
    outcome c (holding readable []) t = .error .outOfRange
      ∧ outcome c (holding readable [0, 0]) t ≠ .error .outOfRange := by
  have hstep : ∀ stale, scanStep stale t { context := c, unread := readable } =
      scanRequestLine stale t { context := c, unread := readable } := by
    intro stale
    simp only [scanStep, hstate]
  rw [outcome_scan _ _ _ (holding_wf _ _), outcome_scan _ _ _ (holding_wf _ _), holding_stale,
    holding_stale, holding_readable, holding_readable, scanLoop, scanLoop, hstep, hstep]
  constructor
  · rw [scanRequestLine_beyond t _ hmiss hsettles]
    rfl
  · have hwithin := scanRequestLine_within t { context := c, unread := readable } 0 0 hmiss
    cases hline : scanRequestLine [0, 0] t { context := c, unread := readable } with
    | error f =>
      rw [hline] at hwithin
      intro heq
      cases heq
      exact hwithin rfl
    | ok s' =>
      rw [hline] at hwithin
      simp only [if_true, bind, Except.bind, scanLoop_stop _ t _ s' hwithin]
      simp [Except.map]

/-- When the bytes behind the readable ones have no influence. -/
theorem independent_iff (c : HttpContext) (t : TimeStamp) (readable : Bytes) :
    Independent c t readable ↔ c.state_ ≠ .kExpectRequestLine
      ∨ search kCRLF readable+2 ≤ readable.length ∨ Settles c.request_ readable := by
  constructor
  · intro hind
    by_contra hnot
    simp only [ne_eq, not_or, not_not] at hnot
    obtain ⟨hstate, hhit, hsettles⟩ := hnot
    obtain ⟨hbeyond, hwithin⟩ := outcome_undecided c t readable hstate
      (search_miss readable hhit) hsettles
    apply hwithin
    rw [← hbeyond]
    exact hind _ _ (holding_wf _ _) (holding_wf _ _) (holding_readable _ _)
      (holding_readable _ _)
  · intro h b b' hb hb' hr hr'
    have hscan : ∀ b : Buffer, b.WF → b.readable = readable → outcome c b t =
        (scanLoop [] t (readable.length+3) { context := c, unread := readable }).map
          Scan.outcome := by
      intro b hb hr
      rw [outcome_scan c b t hb, hr, scanLoop_settled b.stale t _ _ h]
    rw [hscan b hb hr, hscan b' hb' hr']

/-- The end of an older line behind an unfinished one is taken for its own. -/
theorem outcome_stale : ¬ ∀ (c : HttpContext) (b b' : Buffer) (t : TimeStamp), b.WF → b'.WF →
    b.readable = b'.readable → outcome c b t = outcome c b' t := by
  intro h
  have heq := h {} (holding (bytes "GET / HTTP/1.1") kCRLF)
    (holding (bytes "GET / HTTP/1.1") [0, 0]) ⟨0⟩ (holding_wf _ _) (holding_wf _ _)
    (by rw [holding_readable, holding_readable])
  have hstale : outcome {} (holding (bytes "GET / HTTP/1.1") kCRLF) ⟨0⟩ = .error .assertion := by
    decide +kernel
  rw [hstale] at heq
  exact absurd heq (by decide +kernel)

end MuServer
