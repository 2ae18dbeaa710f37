import MuServer.HttpStream

/-!
# Lines of a request

A line ends at the first CRLF. A line with a colon is a `Field`, and a pass of
the header loop stores it; a line without one ends the section.
-/

set_option autoImplicit false

namespace MuServer
open Lib.Search

theorem search_text (line rest : Bytes) (h : ¬ kCRLF <:+: line) :
    search kCRLF (line ++ kCRLF ++ rest) = line.length :=
  search_line CR LF (by decide) line rest h

theorem skip_line (line rest : Bytes) :
    skip (line ++ kCRLF ++ rest) (line.length+2) = .ok rest := by
  have hlength : (line ++ kCRLF).length = line.length+2 := List.length_append
  rw [← hlength, skip, if_pos (by simp), List.drop_left]

theorem scanStep_line (stale : Bytes) (t : TimeStamp) (line rest : Bytes)
    (hfree : ¬ kCRLF <:+: line) (done : Bool) (request : HttpRequest)
    (hline : parseRequestLine {} (line ++ kCRLF) 0 = .ok (done, request)) :
    scanStep stale t { context := {}, unread := line ++ kCRLF ++ rest } = .ok (
      if done then {
        context := {
          state_ := .kExpectRequestHeader
          request_ := request.setReceivedTime t }
        unread := rest }
      else {
        context := { request_ := request }
        unread := line ++ kCRLF ++ rest
        done := false
        hasMore := false }) := by
  have hsearch := search_text line rest hfree
  have hlength : (line ++ kCRLF).length = line.length+2 := List.length_append
  have htake : (line ++ kCRLF ++ rest ++ stale).take (line.length+2) = line ++ kCRLF := by
    rw [← hlength, List.append_assoc, List.take_left]
  have hpast : line.length+2-(line ++ kCRLF ++ rest ++ stale).length = 0 := by
    simp only [List.length_append] at hlength ⊢
    omega
  simp only [scanStep, scanRequestLine, hsearch, htake, hpast, hline]
  cases done with
  | false => rfl
  | true =>
    simp only [bind, Except.bind, if_true, skip_line]
    rfl

structure Field where
  name : Bytes
  raw : Bytes
  name_free : byte ':' ∉ name
  line_free : ¬ kCRLF <:+: name ++ byte ':'::raw

namespace Field

def text (f : Field) : Bytes := f.name ++ byte ':'::f.raw

def entry (f : Field) : Bytes × Bytes := (f.name, HttpRequest.trim f.raw)

end Field

theorem field_colon (f : Field) : f.text.idxOf (byte ':') = f.name.length := by
  rw [Field.text, List.idxOf_append_of_notMem f.name_free, List.idxOf_cons_self, Nat.add_zero]

theorem addHeaders_field (r : HttpRequest) (f : Field) :
    r.addHeaders f.text f.name.length = r.insertHeader f.entry.1 f.entry.2 := by
  have hdrop : f.text.drop (f.name.length+1) = f.raw := by
    rw [Field.text, ← List.drop_drop, List.drop_left]
    rfl
  rw [HttpRequest.addHeaders, hdrop, Field.text, List.take_left]
  rfl

theorem scanHeader_field (s : Scan) (f : Field) (rest : Bytes) (hrest : rest ≠ [])
    (hu : s.unread = f.text ++ kCRLF ++ rest) :
    scanHeader s = .ok ({ s with unread := rest }.setRequest
      (s.context.request_.insertHeader f.entry.1 f.entry.2)) := by
  have hsearch := search_text f.text rest f.line_free
  have hcolon : f.text.idxOf (byte ':') ≠ f.text.length := by
    rw [field_colon, Field.text, List.length_append, List.length_cons]
    omega
  have htake : (f.text ++ kCRLF ++ rest).take f.text.length = f.text := by
    rw [List.append_assoc, List.take_left]
  rw [scanHeader, hu, hsearch, htake, scanHeaderLine_field _ _ _ hcolon, hu, skip_line,
    field_colon, addHeaders_field]
  exact if_neg hrest

theorem scanHeader_last (s : Scan) (line rest : Bytes) (hcolon : byte ':' ∉ line)
    (hfree : ¬ kCRLF <:+: line) (hu : s.unread = line ++ kCRLF ++ rest) :
    scanHeader s =
      if s.context.request_.getHeader kContentLength = [] then
        .ok ({ s with unread := rest, hasMore := false }.setState .kGotAll)
      else (stoi (s.context.request_.getHeader kContentLength)).bind (fun v =>
        .ok ({ s with unread := rest, content_Length := toSize v }.setState
          .kExpectRequestBody)) := by
  have hsearch := search_text line rest hfree
  have htake : (line ++ kCRLF ++ rest).take line.length = line := by
    rw [List.append_assoc, List.take_left]
  have hidx : ¬ line.idxOf (byte ':') ≠ line.length := by
    rw [not_not]
    exact List.idxOf_eq_length_iff.mpr hcolon
  rw [scanHeader, hu, hsearch, htake]
  by_cases hcl : s.context.request_.getHeader kContentLength = []
  · rw [scanHeaderLine_end s _ line hidx (by simp [hcl]), hu, skip_line, if_pos hcl]
    rfl
  · rw [scanHeaderLine_length s _ line hidx hcl, hu, skip_line, if_neg hcl]
    rfl

end MuServer
