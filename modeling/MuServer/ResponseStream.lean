import MuServer.Lib.Stream
import MuServer.Pipelining
import MuServer.ResponseFraming

/-!
# A client that reads responses as they arrive

What the reader has taken from the bytes so far does not change when more of
them come. A refusal, a response without a status code and one that closes the
connection carry no length: the reader never gets behind them.
-/

set_option autoImplicit false

namespace MuServer
open Lib.Search Lib.Stream

theorem readLine_more (bs line rest more : Bytes) (h : readLine bs = some (line, rest)) :
    readLine (bs ++ more) = some (line, rest ++ more) := by
  obtain ⟨hlt, he⟩ := Option.ite_none_right_eq_some.mp h
  obtain ⟨rfl, rfl⟩ := Prod.mk.inj (Option.some.inj he)
  have hlength : search kCRLF bs+2 ≤ bs.length := search_hit_length kCRLF bs hlt
  rw [readLine, search_append kCRLF bs more hlt, if_pos (by rw [List.length_append]; omega),
    List.take_append_of_le_length (by omega), List.drop_append_of_le_length hlength]

theorem readFields_more (n m : ℕ) (bs rest more : Bytes) (fields : List (Bytes × Bytes))
    (hm : n ≤ m) (h : readFields n bs = some (fields, rest)) :
    readFields m (bs ++ more) = some (fields, rest ++ more) := by
  induction n generalizing m bs fields with
  | zero => exact absurd h (by simp [readFields])
  | succ n ih =>
    obtain ⟨m, rfl⟩ := Nat.exists_eq_succ_of_ne_zero (n := m) (by omega)
    obtain ⟨⟨line, behind⟩, hl, h⟩ := Option.bind_eq_some_iff.mp h
    rw [readFields, readLine_more bs line behind more hl]
    change (if line = [] then _ else _) = _
    split
    · rename_i hempty
      simp only [hempty, if_true] at h
      obtain ⟨rfl, rfl⟩ := Prod.mk.inj (Option.some.inj h)
      rfl
    · rename_i hline
      simp only [hline, if_false] at h
      obtain ⟨field, hf, h⟩ := Option.bind_eq_some_iff.mp h
      obtain ⟨⟨fields', rest'⟩, hrest, h⟩ := Option.bind_eq_some_iff.mp h
      obtain ⟨rfl, rfl⟩ := Prod.mk.inj (Option.some.inj h)
      rw [hf]
      change (readFields m (behind ++ more)).bind _ = _
      rw [ih m behind fields' (by omega) hrest]
      rfl

theorem readHead_more (bs rest more : Bytes) (head : Head) (h : readHead bs = some (head, rest)) :
    readHead (bs ++ more) = some (head, rest ++ more) := by
  obtain ⟨⟨line, behind⟩, hl, h⟩ := Option.bind_eq_some_iff.mp h
  obtain ⟨⟨code, message⟩, hs, h⟩ := Option.bind_eq_some_iff.mp h
  obtain ⟨⟨fields, rest'⟩, hf, h⟩ := Option.bind_eq_some_iff.mp h
  obtain ⟨rfl, rfl⟩ := Prod.mk.inj (Option.some.inj h)
  rw [readHead, readLine_more bs line behind more hl]
  change (readStatus line).bind _ = _
  rw [hs]
  change (readFields _ (behind ++ more)).bind _ = _
  rw [readFields_more _ _ behind rest' more fields
    (by rw [List.length_append]; omega) hf]
  rfl

theorem readMessage_stable : Stable readMessage where
  waits := rfl
  more := by
    intro bs message rest more h
    obtain ⟨⟨head, behind⟩, hh, h⟩ := Option.bind_eq_some_iff.mp h
    obtain ⟨n, hn, h⟩ := Option.bind_eq_some_iff.mp h
    obtain ⟨hle, he⟩ := Option.ite_none_right_eq_some.mp h
    obtain ⟨rfl, rfl⟩ := Prod.mk.inj (Option.some.inj he)
    rw [readMessage, readHead_more bs behind more head hh]
    change (Head.contentLength head).bind _ = _
    rw [hn, Option.bind_some, if_pos (by rw [List.length_append]; omega),
      List.take_append_of_le_length hle, List.drop_append_of_le_length hle]

theorem badRequest_reads : Reads readMessage badRequest none := by
  intro rest
  have hline : ∀ c ∈ bytes "HTTP/1.1 400 Bad Request", c ≠ CR := by decide +kernel
  have htext : badRequest = bytes "HTTP/1.1 400 Bad Request" ++ (kCRLF ++ kCRLF) := by
    decide +kernel
  have hstatus : readStatus (bytes "HTTP/1.1 400 Bad Request") = some (400, bytes "Bad Request") := by
    decide +kernel
  generalize bytes "HTTP/1.1 400 Bad Request" = line at hline htext hstatus
  have hempty : readLine (kCRLF ++ rest) = some ([], rest) := readLine_text [] rest (by simp)
  have hfields : readFields (kCRLF ++ rest).length (kCRLF ++ rest) = some ([], rest) := by
    rw [show (kCRLF ++ rest).length = rest.length+1+1 by simp [kCRLF], readFields, hempty]
    rfl
  have hhead : readHead (badRequest ++ rest) =
      some ({ code := 400, message := bytes "Bad Request", fields := [] }, rest) := by
    rw [htext, List.append_assoc, List.append_assoc, readHead, readLine_text _ _ hline]
    change (readStatus line).bind _ = _
    rw [hstatus, Option.bind_some]
    simp only [hfields, Option.bind_eq_bind, Option.bind_some]
  rw [readMessage, hhead]
  rfl

theorem unknown_reads (resp : HttpResponse) (hcode : resp.stateCode_ = .kUnknown)
    (hmsg : TextBytes resp.statusMessage_) (n : ℕ) (order : HeaderOrder) (body : Bytes) :
    Reads readMessage (resp.headText n order ++ body) none := by
  intro rest
  rw [List.append_assoc, readMessage, HttpServer.readHead_unknown resp hcode hmsg]
  rfl

def PlainNames (resp : HttpResponse) : Prop :=
  ∀ h ∈ resp.headers_.entries, (∀ c ∈ h.1, c ≠ byte ':') ∧ h.1 ≠ kContentLength ∧ h.1 ≠ kConnection

theorem closing_reads (resp : HttpResponse) (h : resp.Legible) (hn : PlainNames resp)
    (hclose : resp.closeConnection_ = true) (n : ℕ) (order : HeaderOrder) (body : Bytes) :
    Reads readMessage (resp.headText n order ++ body) none := by
  intro rest
  obtain ⟨code, -, hhead⟩ := readHead_text resp h n order (body ++ rest)
  have hnone : ∀ f ∈ resp.framing n ++ (resp.fields order).map fieldOf, f.1 ≠ kContentLength := by
    intro f hf
    rcases List.mem_append.mp hf with hf | hf
    · rw [HttpResponse.framing, hclose] at hf
      obtain rfl := List.mem_singleton.mp hf
      decide +kernel
    · obtain ⟨g, hg, rfl⟩ := List.mem_map.mp hf
      obtain ⟨e, he, rfl⟩ := fields_mem resp order g hg
      rw [fieldOf_eq _ (hn e he).1]
      exact (hn e he).2.1
  rw [List.append_assoc, readMessage, hhead]
  change (Head.contentLength _).bind _ = _
  have hlookup : (resp.framing n ++ (resp.fields order).map fieldOf).lookup kContentLength = none :=
    List.lookup_eq_none_iff.mpr (fun f hf => by simpa using (hnone f hf).symm)
  rw [Head.contentLength, hlookup]
  rfl

theorem open_reads (resp : HttpResponse) (h : resp.Legible) (hn : PlainNames resp)
    (hopen : resp.closeConnection_ = false) (order : HeaderOrder) :
    Reads readMessage (resp.headText resp.body_.length order ++ resp.body_) (some resp.message) :=
  fun rest => readMessage_text resp
    ⟨h, hopen, fun e he => (hn e he).1, fun e he => (hn e he).2⟩ order rest

end MuServer
