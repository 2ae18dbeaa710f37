import MuServer.HeaderSection

/-!
# The length header

The value of the length header goes through `std::stoi` into a `size_t`. A call
never refuses it: what is no numeral throws, or announces some other length.
-/

set_option autoImplicit false

namespace MuServer

def IsLength (v : Bytes) : Prop := v ≠ [] ∧ (∀ c ∈ v, isdigit c = true) ∧ digitsValue v ≤ 2^31-1

instance (v : Bytes) : Decidable (IsLength v) := inferInstanceAs (Decidable (_ ∧ _))

theorem stoi_length (v : Bytes) (h : IsLength v) : stoi v = .ok (digitsValue v) :=
  stoi_digits v h.1 h.2.1 h.2.2

structure LengthRequest where
  parts : LineParts
  fields : List Field
  value : Bytes
  rest : Bytes
  line_size : parts.text.length ≤ 8193
  value_last : lastValue fields kContentLength = some value
  value_ne : value ≠ []

def LengthRequest.text (q : LengthRequest) : Bytes :=
  q.parts.text ++ (fieldsText q.fields ++ (kCRLF ++ q.rest))

structure HandlesLength (q : LengthRequest) (b : Buffer) (t : TimeStamp) : Prop where
  caught : outcome {} b t ≠ .error .exception
  stored : IsLength q.value → digitsValue q.value ≤ q.rest.length →
    ∃ c, outcome {} b t = .ok (true, c, q.rest.drop (digitsValue q.value)) ∧ c.gotAll = true
      ∧ c.request_.body_ = q.rest.take (digitsValue q.value)
  refused : ¬ IsLength q.value → ∃ c left, outcome {} b t = .ok (false, c, left)

theorem outcome_length (q : LengthRequest) (b : Buffer) (hb : b.WF) (hr : b.readable = q.text)
    (t : TimeStamp) : outcome {} b t = (stoi q.value).map (fun v =>
      if toSize v ≤ q.rest.length then
        (true, {
          state_ := .kGotAll
          request_ := (q.parts.headed t q.fields).setBody (q.rest.take (toSize v)) },
          q.rest.drop (toSize v))
      else (true, { state_ := .kExpectRequestBody, request_ := q.parts.headed t q.fields },
        q.rest)) := by
  have hvalue : (q.parts.headed t q.fields).getHeader kContentLength = q.value := by
    rw [HttpRequest.getHeader, headed_lookup, q.value_last]
    rfl
  rw [outcome_section q.parts q.line_size q.fields [] q.rest (by simp) (by decide) b hb hr t,
    afterSection, hvalue, if_neg q.value_ne]

/-- Exactly the numerals are handled. -/
theorem handlesLength_iff (q : LengthRequest) (b : Buffer) (hb : b.WF) (hr : b.readable = q.text)
    (t : TimeStamp) : HandlesLength q b t ↔ IsLength q.value := by
  have houtcome := outcome_length q b hb hr t
  constructor
  · intro hhandles
    by_contra hnot
    obtain ⟨c, left, hrefused⟩ := hhandles.refused hnot
    rw [houtcome] at hrefused
    cases hv : stoi q.value with
    | error e => simp [hv, Except.map] at hrefused
    | ok v =>
      simp only [hv, Except.map, Except.ok.injEq] at hrefused
      split at hrefused <;> cases hrefused
  · intro hlength
    have hsize : toSize (digitsValue q.value : ℕ) = digitsValue q.value :=
      toSize_natCast _ hlength.2.2
    rw [stoi_length q.value hlength, Except.map, hsize] at houtcome
    refine ⟨?_, fun _ hrest => ?_, fun hnot => absurd hlength hnot⟩
    · rw [houtcome]
      simp
    · rw [if_pos hrest] at houtcome
      exact ⟨_, houtcome, rfl, rfl⟩

def postLine : LineParts where
  method := bytes "POST"
  before := 0
  path := bytes "/"
  query := none
  behind := 0
  version := .kHttp11
  method_mem := by decide +kernel
  path_bytes := root_path
  query_bytes := no_query
  version_known := http11_known

def lengthField (raw : Bytes) (h : ¬ kCRLF <:+: kContentLength ++ byte ':'::raw) : Field where
  name := kContentLength
  raw := raw
  name_free := by decide
  line_free := h

def threeBytes : LengthRequest where
  parts := postLine
  fields := [lengthField (bytes " 7") (by decide +kernel), hostField,
    lengthField (bytes " 03 ") (by decide +kernel)]
  value := bytes "03"
  rest := bytes "abcd"
  line_size := by decide
  value_last := by decide +kernel
  value_ne := by decide

theorem handlesLength_threeBytes :
    HandlesLength threeBytes (holding threeBytes.text []) {} :=
  (handlesLength_iff threeBytes _ (holding_wf _ _) (holding_readable _ _) {}).mpr
    (by decide +kernel)

def noNumeral : LengthRequest where
  parts := postLine
  fields := [lengthField (bytes " abc") (by decide +kernel)]
  value := bytes "abc"
  rest := bytes "xyz"
  line_size := by decide
  value_last := by decide +kernel
  value_ne := by decide

/-- The exception of `std::stoi` leaves the call. -/
theorem noNumeral_thrown : outcome {} (holding noNumeral.text []) {} = .error .exception
    ∧ ¬ HandlesLength noNumeral (holding noNumeral.text []) {} := by
  have hthrown : outcome {} (holding noNumeral.text []) {} = .error .exception := by
    decide +kernel
  exact ⟨hthrown, fun hhandles => hhandles.caught hthrown⟩

end MuServer
