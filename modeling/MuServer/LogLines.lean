import Mathlib.Data.List.Flatten
import Mathlib.Data.List.Forall2
import MuServer.AsyncLogger

/-!
# The lines in the buffers

A buffer holds lines from end to end, so when the thread gives buffers up it gives
up whole lines. In each turn it writes the lines of the buffers it has found, in the
order they were appended; of too many buffers it writes the lines of the first two,
and in front of them how many others there were.
-/

set_option autoImplicit false

namespace MuServer.AsyncLogger

open Lib

inductive Entry where
  | line (text : Bytes)
  /-- of so many buffers all but two are given up -/
  | dropped (now : Bytes) (size : ℕ)

def Entry.text : Entry → Bytes
  | .line text => text
  | .dropped now size => dropMessage now size

/-- A round of the thread: the lines of each buffer it has found, and the time that it
would put into the message. -/
structure Turn where
  now : Bytes
  found : List (List Bytes)

def Turn.lines (t : Turn) : List Bytes := t.found.flatten

def Turn.entries (t : Turn) : List Entry :=
  if t.found.length > 25 then
    .dropped t.now t.found.length::(t.found.take 2).flatten.map Entry.line
  else t.found.flatten.map Entry.line

def fitting (lines : List Bytes) : List Bytes :=
  lines.filter (fun line => line.length < kLargeBuffer)

theorem fitting_short (lines : List Bytes) (line : Bytes) (h : line.length < kLargeBuffer) :
    fitting (lines ++ [line]) = fitting lines ++ [line] := by
  simp [fitting, h]

theorem fitting_long (lines : List Bytes) (line : Bytes) (h : ¬line.length < kLargeBuffer) :
    fitting (lines ++ [line]) = fitting lines := by
  simp [fitting, h]

def Holds (p : BufferPtr) (lines : List Bytes) : Prop := textOf p = lines.flatten.map some

def uncounted (s : AsyncLogger) (back : List (List Bytes)) : List Bytes :=
  if s.phase = .exchanged then back.flatten else []

def unwritten (s : AsyncLogger) (back : List (List Bytes)) : List Entry :=
  if s.phase = .exchanged then [] else back.flatten.map Entry.line

/-- The turns so far and what was written in them, and the lines that the thread has,
that fill buffers of the front end, and that are in the current one. -/
structure Filed (s : AsyncLogger) (turns : List Turn) (written : List Entry)
    (back full : List (List Bytes)) (current : List Bytes) : Prop where
  output : s.output = (written.flatMap Entry.text).map some
  pending : List.Forall₂ Holds s.pending back
  buffers_ : List.Forall₂ Holds s.buffers_ full
  currentBuffer_ : Holds s.currentBuffer_ current
  told : turns.flatMap Turn.entries = written ++ s.unwritten back
  order : turns.flatMap Turn.lines ++ s.uncounted back ++ full.flatten ++ current =
    fitting s.appended

def Lined (s : AsyncLogger) : Prop :=
  ∃ turns written back full current, Filed s turns written back full current

theorem holds_snoc (b : Buffer) (p : BufferPtr) (lines : List Bytes) (line : Bytes)
    (h : Holds p lines) (hb : b.fixed.text = textOf p ++ line.map some) :
    Holds (some b) (lines ++ [line]) := by
  unfold Holds at h ⊢
  show b.fixed.text = _
  rw [hb, h]
  simp

theorem holds_nil (b : Buffer) (h : b.fixed.cur_ = 0) : Holds (some b) [] :=
  FixedBuffer.text_of_empty _ h

/-- A buffer that was empty holds the line, or nothing where the line is too long. -/
theorem holds_first (b : Buffer) (line : Bytes) (appended : List Bytes)
    (hb : b.fixed.text = if line.length < kLargeBuffer then line.map some else []) :
    ∃ lines, Holds (some b) lines ∧ fitting (appended ++ [line]) = fitting appended ++ lines := by
  by_cases hshort : line.length < kLargeBuffer
  · rw [if_pos hshort] at hb
    exact ⟨[line], by simpa [Holds, textOf] using hb, fitting_short appended line hshort⟩
  · rw [if_neg hshort] at hb
    refine ⟨[], by simpa [Holds, textOf] using hb, ?_⟩
    rw [fitting_long appended line hshort, List.append_nil]

/-- The line goes behind those of the current buffer, or this one is full and another
takes the line. -/
theorem append_buffers (s : AsyncLogger) (line : Bytes) (hs : Sound s) :
    ∃ (b : Buffer) (next : BufferPtr) (full : BufferVector) (made : ℕ),
      s.append line = .ok { s with
        currentBuffer_ := some b, nextBuffer_ := next, buffers_ := full, made := made }
      ∧ (full = s.buffers_ ∧ line.length < kLargeBuffer ∧
          b.fixed.text = textOf s.currentBuffer_ ++ line.map some
        ∨ full = s.buffers_ ++ [s.currentBuffer_] ∧
          b.fixed.text = if line.length < kLargeBuffer then line.map some else []) := by
  obtain ⟨b, hb, hinside⟩ := hs.current
  by_cases hroom : b.fixed.avail > line.length
  · have hlt : b.fixed.cur_+line.length < kLargeBuffer := by
      unfold FixedBuffer.avail at hroom
      omega
    obtain ⟨fixed, happend, -, htext⟩ := b.fixed.append_fits line kLargeBuffer_lt hlt
    refine ⟨{ b with fixed := fixed }, s.nextBuffer_, s.buffers_, s.made, ?_,
      Or.inl ⟨rfl, by omega, ?_⟩⟩
    · simp only [append, appendCurrent, hb, if_pos hroom, happend]
      rfl
    · rw [hb]
      exact htext
  · cases hnext : s.nextBuffer_ with
    | some next =>
      obtain ⟨fixed, happend, -, htext⟩ :=
        next.fixed.append_empty line kLargeBuffer_lt (hs.next next hnext)
      refine ⟨{ next with fixed := fixed }, none, s.buffers_ ++ [s.currentBuffer_], s.made,
        ?_, Or.inr ⟨rfl, htext⟩⟩
      simp only [append, rotate, appendCurrent, hb, if_neg hroom, hnext, happend]
      rfl
    | none =>
      obtain ⟨fixed, happend, -, htext⟩ :=
        (FixedBuffer.create : FixedBuffer kLargeBuffer).append_empty line kLargeBuffer_lt rfl
      refine ⟨⟨s.made, fixed⟩, none, s.buffers_ ++ [s.currentBuffer_], s.made+1,
        ?_, Or.inr ⟨rfl, htext⟩⟩
      simp only [append, rotate, appendCurrent, newBuffer, hb, if_neg hroom, hnext, happend]
      rfl

theorem append_filed (s t : AsyncLogger) (line : Bytes) (hs : Sound s) (h : Lined s)
    (ht : s.act (.append line) = some t) : Lined t := by
  obtain ⟨turns, written, back, full, current, hout, hback, hfull, hcurrent, hturns, horder⟩ := h
  obtain ⟨b, next, buffers, made, heq, hcases⟩ := append_buffers s line hs
  rw [act, heq] at ht
  obtain rfl := Option.some.inj ht
  rcases hcases with ⟨rfl, hshort, htext⟩ | ⟨rfl, htext⟩
  · refine ⟨turns, written, back, full, current ++ [line], hout, hback, hfull,
      holds_snoc b _ current line hcurrent htext, hturns, ?_⟩
    rw [← List.append_assoc]
    exact (congrArg (· ++ [line]) horder).trans (fitting_short s.appended line hshort).symm
  · obtain ⟨lines, hlines, hfit⟩ := holds_first b line s.appended htext
    refine ⟨turns, written, back, full ++ [current], lines, hout, hback,
      List.rel_append hfull (.cons hcurrent .nil), hlines, hturns, ?_⟩
    simp only [List.flatten_append, List.flatten_singleton, ← List.append_assoc]
    exact (congrArg (· ++ lines) horder).trans hfit.symm

theorem lined_kept (s t : AsyncLogger) (h : Lined s) (hout : t.output = s.output)
    (hpending : t.pending = s.pending) (hbuffers : t.buffers_ = s.buffers_)
    (hcurrent : t.currentBuffer_ = s.currentBuffer_) (happended : t.appended = s.appended)
    (hphase : t.phase = .exchanged ↔ s.phase = .exchanged) : Lined t := by
  obtain ⟨turns, written, back, full, current, hfiled⟩ := h
  refine ⟨turns, written, back, full, current, ?_, ?_, ?_, ?_, ?_, ?_⟩
  · rw [hout]
    exact hfiled.output
  · rw [hpending]
    exact hfiled.pending
  · rw [hbuffers]
    exact hfiled.buffers_
  · rw [hcurrent]
    exact hfiled.currentBuffer_
  · simp only [unwritten, hphase]
    exact hfiled.told
  · simp only [uncounted, hphase]
    rw [happended]
    exact hfiled.order

theorem exchange_lined (s : AsyncLogger) (hs : Sound s) (h : Lined s)
    (hphase : s.between = true) : Lined s.exchange := by
  obtain ⟨turns, written, back, full, current, hout, hback, hfull, hcurrent, hturns, horder⟩ := h
  have hnot : s.phase ≠ .exchanged := by
    intro hp
    simp [between, hp] at hphase
  have hlocals : isEmpty s.newBuffer1 = true ∧ s.buffersToWrite = [] ∧ s.pending = [] := by
    have hlocals := hs.locals
    simp only [between, decide_eq_true_eq] at hphase
    unfold Locals at hlocals
    unfold pending
    rcases hphase with hp | hp <;> simp only [hp] at hlocals ⊢ <;>
      exact ⟨hlocals.1, hlocals.2.2, trivial⟩
  obtain ⟨h1, hw, hpending⟩ := hlocals
  obtain ⟨b1, hb1, hempty1⟩ := (isEmpty_iff _).mp h1
  rw [hpending] at hback
  obtain rfl := List.forall₂_nil_left_iff.mp hback
  have hfields : s.exchange.output = s.output ∧ s.exchange.pending = s.buffers_ ++ [s.currentBuffer_]
      ∧ s.exchange.buffers_ = [] ∧ s.exchange.currentBuffer_ = some b1
      ∧ s.exchange.appended = s.appended ∧ s.exchange.phase = .exchanged := by
    cases hnext : s.nextBuffer_ with
    | some next =>
      rw [exchange_some s next hnext]
      exact ⟨rfl, rfl, hw, hb1, rfl, rfl⟩
    | none =>
      rw [exchange_none s hnext]
      exact ⟨rfl, rfl, hw, hb1, rfl, rfl⟩
  obtain ⟨houtput, hpend, hbuffers, hcur, happended, hexchanged⟩ := hfields
  refine ⟨turns, written, full ++ [current], [], [], ?_, ?_, ?_, ?_, ?_, ?_⟩
  · rw [houtput]
    exact hout
  · rw [hpend]
    exact List.rel_append hfull (.cons hcurrent .nil)
  · rw [hbuffers]
    exact .nil
  · rw [hcur]
    exact holds_nil b1 hempty1
  · rw [hturns, unwritten, unwritten, if_neg hnot, if_pos hexchanged]
    rfl
  · rw [happended, ← horder, uncounted, uncounted, if_neg hnot, if_pos hexchanged]
    simp

theorem checkSize_lined (s t : AsyncLogger) (now : Bytes) (h : Lined s)
    (hphase : s.phase = .exchanged) (ht : s.checkSize now = .ok t) : Lined t := by
  obtain ⟨turns, written, back, full, current, hout, hback, hfull, hcurrent, hturns, horder⟩ := h
  simp only [pending, hphase] at hback
  rw [unwritten, if_pos hphase, List.append_nil] at hturns
  rw [uncounted, if_pos hphase] at horder
  have hsize : s.buffersToWrite.length = back.length := hback.length_eq
  have hall : (turns ++ [(⟨now, back⟩ : Turn)]).flatMap Turn.lines
      = turns.flatMap Turn.lines ++ back.flatten := by
    rw [List.flatMap_append, List.flatMap_singleton]
    rfl
  unfold checkSize at ht
  split at ht
  · cases ht
  split at ht
  · rename_i hmany
    obtain rfl := Except.ok.inj ht
    rw [hsize] at hmany
    refine ⟨turns ++ [⟨now, back⟩], written ++ [.dropped now back.length], back.take 2, full, current,
      ?_, ?_, hfull, hcurrent, ?_, ?_⟩
    · show s.output ++ (dropMessage now s.buffersToWrite.length).map some = _
      rw [hout, hsize]
      simp [Entry.text]
    · exact List.forall₂_take 2 hback
    · rw [List.flatMap_append, List.flatMap_singleton, hturns, Turn.entries, if_pos hmany]
      simp [unwritten, giveUp]
    · rw [hall]
      refine Eq.trans ?_ horder
      simp [uncounted, giveUp]
  · rename_i hfew
    obtain rfl := Except.ok.inj ht
    rw [hsize] at hfew
    refine ⟨turns ++ [⟨now, back⟩], written, back, full, current, hout, hback, hfull, hcurrent, ?_, ?_⟩
    · rw [List.flatMap_append, List.flatMap_singleton, hturns, Turn.entries, if_neg hfew]
      simp [unwritten]
    · rw [hall]
      refine Eq.trans ?_ horder
      simp [uncounted]

theorem writeNext_lined (s t : AsyncLogger) (hs : Sound s) (h : Lined s) (written : ℕ)
    (hphase : s.phase = .writing written) (ht : s.writeNext written = .ok t) : Lined t := by
  have hlocals := hs.locals
  simp only [Locals, hphase] at hlocals
  obtain ⟨-, hfull, -, -⟩ := hlocals
  by_cases hlt : written < s.buffersToWrite.length
  · obtain ⟨b, hb⟩ := exists_buffer s.buffersToWrite hfull written hlt
    simp only [writeNext, hb] at ht
    obtain rfl := Except.ok.inj ht
    obtain ⟨turns, entries, back, full, current, hout, hback, hfulls, hcurrent, hturns, horder⟩ := h
    have hdrop : s.pending = some b::s.buffersToWrite.drop (written+1) := by
      rw [List.getElem?_eq_getElem hlt, Option.some.injEq] at hb
      simp only [pending, hphase]
      rw [List.drop_eq_getElem_cons hlt, hb]
    rw [hdrop] at hback
    obtain ⟨lines, rest, hlines, hrest, rfl⟩ := List.forall₂_cons_left_iff.mp hback
    refine ⟨turns, entries ++ lines.map Entry.line, rest, full, current, ?_, hrest, hfulls, hcurrent,
      ?_, ?_⟩
    · show s.output ++ b.fixed.text = _
      have htext : b.fixed.text = lines.flatten.map some := hlines
      have hflat : (lines.map Entry.line).flatMap Entry.text = lines.flatten := by
        rw [List.flatMap_map]
        exact List.flatMap_id
      rw [List.flatMap_append, List.map_append, hflat, ← hout, htext]
    · rw [hturns]
      simp [unwritten, hphase]
    · refine Eq.trans ?_ horder
      simp [uncounted, hphase]
  · obtain ⟨buffer1, buffer2, destroyed, heq, -⟩ := recycle_sound s hs written hphase
    have hend : s.buffersToWrite[written]? = none := List.getElem?_eq_none (by omega)
    simp only [writeNext, hend, heq] at ht
    obtain rfl := Except.ok.inj ht
    refine lined_kept s _ h rfl ?_ rfl rfl rfl (by simp [hphase])
    simp only [pending, hphase]
    rw [List.drop_eq_nil_of_le (by omega)]

theorem threadFunc_lined (s t : AsyncLogger) (now : Bytes) (hs : Sound s) (h : Lined s)
    (ht : s.threadFunc now = .ok t) : Lined t := by
  unfold threadFunc at ht
  cases hphase : s.phase with
  | unstarted | ended =>
    rw [hphase] at ht
    obtain rfl := Except.ok.inj ht
    exact h
  | entry =>
    rw [hphase] at ht
    obtain rfl := Except.ok.inj ht
    exact lined_kept s _ h rfl (by simp [pending, hphase, enter, newBuffer]) rfl rfl rfl
      (by simp [hphase, enter])
  | test =>
    rw [hphase] at ht
    have hturn : s.beginTurn = .ok t := ht
    rw [beginTurn_spec s hs hphase] at hturn
    obtain rfl := Except.ok.inj hturn
    split
    · exact lined_kept s _ h rfl (by simp [pending, hphase]) rfl rfl rfl (by simp [hphase])
    · exact lined_kept s _ h rfl (by simp [pending, hphase, leave, destroy]) rfl rfl rfl
        (by simp [hphase, leave])
  | locking =>
    rw [hphase] at ht
    simp only at ht
    split at ht
    · obtain rfl := Except.ok.inj ht
      exact lined_kept s _ h rfl (by simp [pending, hphase]) rfl rfl rfl (by simp [hphase])
    · obtain rfl := Except.ok.inj ht
      exact exchange_lined s hs h (by simp [between, hphase])
  | waiting =>
    rw [hphase] at ht
    obtain rfl := Except.ok.inj ht
    exact exchange_lined s hs h (by simp [between, hphase])
  | exchanged =>
    rw [hphase] at ht
    exact checkSize_lined s t now h hphase ht
  | writing written =>
    rw [hphase] at ht
    exact writeNext_lined s t hs h written hphase ht

theorem step_lined (s t : AsyncLogger) (a : LogAct) (hs : Sound s) (h : Lined s)
    (ht : s.step a = some t) : Lined t := by
  obtain ⟨-, ht⟩ := Option.ite_none_left_eq_some.mp ht
  cases a with
  | append line => exact append_filed s t line hs h ht
  | start =>
    obtain ⟨hphase, ht⟩ := Option.ite_none_right_eq_some.mp ht
    obtain rfl := Option.some.inj ht
    exact lined_kept s _ h rfl (by simp [pending, hphase, start]) rfl rfl rfl
      (by simp [hphase, start])
  | stop =>
    obtain ⟨-, ht⟩ := Option.ite_none_left_eq_some.mp ht
    obtain rfl := Option.some.inj ht
    exact lined_kept s _ h rfl rfl rfl rfl rfl Iff.rfl
  | join =>
    obtain ⟨-, ht⟩ := Option.ite_none_right_eq_some.mp ht
    obtain rfl := Option.some.inj ht
    exact lined_kept s _ h rfl rfl rfl rfl rfl Iff.rfl
  | thread now =>
    obtain ⟨-, ht⟩ := Option.ite_none_left_eq_some.mp ht
    obtain ⟨u, heq, -⟩ := threadFunc_statement s now hs
    rw [heq] at ht
    obtain rfl := Option.some.inj ht
    exact threadFunc_lined s u now hs h heq

theorem start_lined : Lined {} := by
  refine ⟨[], [], [], [], [], rfl, .nil, .nil, ?_, rfl, rfl⟩
  exact holds_nil _ rfl

end MuServer.AsyncLogger
