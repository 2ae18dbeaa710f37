import Mathlib.Data.Finmap
import Mathlib.Data.List.DropRight
import MuServer.BufferWords

/-!
# The form of a request

`parseForm` looks for the next '=' and the next '&' of the whole body, in words that
wrap around. A pair without '=' takes the first '=' of a later pair for its own, and
without a later one its value is the body from the start.
-/

set_option autoImplicit false

namespace MuServer

abbrev Form := Finmap (fun _ : Bytes => Bytes)

namespace LoginForm
open BufferWords

def npos : ℕ := 2^64-1

def find (s : Bytes) (c : Byte) (pos : ℕ) : ℕ :=
  if c ∈ s.drop pos then pos+(s.drop pos).idxOf c else npos

def substr (s : Bytes) (pos n : ℕ) : Except Fault Bytes :=
  if s.length < pos then .error .exception else .ok ((s.drop pos).take n)

/-- One pass of the loop: the next position, or none behind the `break`. -/
def formPass (body : Bytes) (pos : ℕ) (result : Form) : Except Fault (Option ℕ × Form) := do
  let eq := find body (byte '=') pos
  let amp := find body (byte '&') pos
  let key ← substr body pos (sub eq pos)
  let val ← substr body (add eq 1) (sub (sub amp eq) 1)
  .ok (if amp = npos then none else some (add amp 1), result.insert key val)

def formLoop (body : Bytes) : ℕ → ℕ → Form → Except Fault Form
  | 0, _, _ => .error .spins
  | fuel+1, pos, result =>
    if pos < body.length then do
      let (next, result) ← formPass body pos result
      match next with
      | none => .ok result
      | some pos => formLoop body fuel pos result
    else .ok result

def parseForm (body : Bytes) : Except Fault Form := formLoop body (body.length+1) 0 ∅

def upTo (c : Byte) (text : Bytes) : Bytes := text.take (text.idxOf c)

def behind (c : Byte) (text : Bytes) : Bytes := text.drop (text.idxOf c+1)

def entry (front rest : Bytes) : Bytes × Bytes :=
  if byte '=' ∈ rest then (upTo (byte '=') rest,
    if byte '&' ∈ upTo (byte '=') rest then behind (byte '=') rest
    else upTo (byte '&') (behind (byte '=') rest))
  else (rest, front ++ upTo (byte '&') rest)

theorem behind_length (c : Byte) (text : Bytes) (h : c ∈ text) :
    (behind c text).length < text.length := by
  have hi := List.idxOf_lt_length_of_mem h
  rw [behind, List.length_drop]
  omega

theorem upTo_length (c : Byte) (text : Bytes) : (upTo c text).length = text.idxOf c := by
  rw [upTo, List.length_take]
  exact Nat.min_eq_left List.idxOf_le_length

theorem upTo_free (c : Byte) (text : Bytes) (h : c ∉ text) : upTo c text = text := by
  rw [upTo, List.idxOf_eq_length h, List.take_length]

theorem upTo_behind (c : Byte) (text : Bytes) (h : c ∈ text) :
    upTo c text ++ c::behind c text = text := by
  have hi := List.idxOf_lt_length_of_mem h
  have hc : text[text.idxOf c] = c := List.getElem_idxOf hi
  rw [upTo, behind]
  conv_rhs => rw [← List.take_append_drop (text.idxOf c) text, List.drop_eq_getElem_cons hi, hc]

def entries (front rest : Bytes) : List (Bytes × Bytes) :=
  if rest = [] then []
  else entry front rest::(
    if byte '&' ∈ rest then
      entries (front ++ (upTo (byte '&') rest ++ [byte '&'])) (behind (byte '&') rest)
    else [])
termination_by rest.length
decreasing_by
  rename_i h
  exact behind_length _ rest h

def store (form : Form) (es : List (Bytes × Bytes)) : Form :=
  es.foldl (fun form e => form.insert e.1 e.2) form

theorem store_lookup (es : List (Bytes × Bytes)) (key : Bytes) :
    (store ∅ es).lookup key = es.reverse.lookup key := by
  induction es using List.reverseRecOn with
  | nil => rfl
  | append_singleton es e ih =>
    obtain ⟨name, value⟩ := e
    have hlast : store ∅ (es ++ [(name, value)]) = (store ∅ es).insert name value := by
      rw [store, List.foldl_append, List.foldl_cons, List.foldl_nil, store]
    rw [hlast, List.reverse_append, List.reverse_singleton, List.singleton_append]
    by_cases hname : key = name
    · rw [hname, Finmap.lookup_insert, List.lookup_cons_self]
    · have hbeq : (key == name) = false := beq_false_of_ne hname
      rw [Finmap.lookup_insert_of_ne _ hname, ih, List.lookup_cons, hbeq]

section Pass

variable (front rest : Bytes)

theorem find_behind (c : Byte) :
    find (front ++ rest) c front.length =
      if c ∈ rest then front.length+rest.idxOf c else npos := by
  rw [find, List.drop_left]

theorem substr_behind (n : ℕ) :
    substr (front ++ rest) front.length n = .ok (rest.take n) := by
  rw [substr, if_neg (by simp), List.drop_left]

variable (hlt : (front ++ rest).length < 2^63)
include hlt

theorem formPass_key :
    substr (front ++ rest) front.length
        (sub (find (front ++ rest) (byte '=') front.length) front.length) =
      .ok (entry front rest).1 := by
  rw [List.length_append] at hlt
  rw [substr_behind, find_behind, entry]
  split
  · rename_i heq
    have hi := List.idxOf_lt_length_of_mem heq
    have hcount : sub (front.length+rest.idxOf (byte '=')) front.length =
        rest.idxOf (byte '=') := by
      unfold sub
      omega
    rw [hcount, upTo]
  · have hcount : rest.length ≤ sub npos front.length := by
      unfold sub npos
      omega
    rw [List.take_of_length_le hcount]

/-- A pair with a '=' of its own or of a later pair. The length of the value wraps
around when the '&' is in front of the '='. -/
theorem formPass_count (heq : byte '=' ∈ rest) :
    (behind (byte '=') rest).take (sub (sub (find (front ++ rest) (byte '&') front.length)
        (front.length+rest.idxOf (byte '='))) 1) = (entry front rest).2 := by
  rw [List.length_append] at hlt
  have hi := List.idxOf_lt_length_of_mem heq
  have hfront := upTo_length (byte '=') rest
  have hrest := behind_length (byte '=') rest heq
  have hsplit := upTo_behind (byte '=') rest heq
  rw [entry, if_pos heq, find_behind]
  by_cases hamp : byte '&' ∈ upTo (byte '=') rest
  · -- the pair has no '=', so that the first one is behind its '&'
    have hidx : rest.idxOf (byte '&') < rest.idxOf (byte '=') := by
      rw [← hsplit, List.idxOf_append_of_mem hamp, hsplit, ← hfront]
      exact List.idxOf_lt_length_of_mem hamp
    have hmem : byte '&' ∈ rest := by
      rw [← hsplit]
      exact List.mem_append_left _ hamp
    rw [if_pos hmem, if_pos hamp]
    refine List.take_of_length_le ?_
    unfold sub
    omega
  · have hne : byte '=' ≠ byte '&' := by decide
    rw [if_neg hamp]
    split
    · have hidx : rest.idxOf (byte '&') =
          rest.idxOf (byte '=')+((behind (byte '=') rest).idxOf (byte '&')+1) := by
        conv_lhs => rw [← hsplit]
        rw [List.idxOf_append_of_notMem hamp, hfront, List.idxOf_cons_ne _ hne]
      have hcount : sub (sub (front.length+rest.idxOf (byte '&'))
          (front.length+rest.idxOf (byte '='))) 1 =
            (behind (byte '=') rest).idxOf (byte '&') := by
        have hlast := List.idxOf_le_length (a := byte '&') (l := rest)
        unfold sub
        omega
      rw [hcount]
      rfl
    · rename_i hnone
      have hfree : byte '&' ∉ behind (byte '=') rest := by
        intro hin
        apply hnone
        rw [← hsplit]
        exact List.mem_append_right _ (List.mem_cons_of_mem _ hin)
      rw [upTo_free _ _ hfree]
      refine List.take_of_length_le ?_
      unfold sub npos
      omega

/-- Without any '=' both words wrap around, and the value comes from the start. -/
theorem formPass_val :
    substr (front ++ rest) (add (find (front ++ rest) (byte '=') front.length) 1)
        (sub (sub (find (front ++ rest) (byte '&') front.length)
          (find (front ++ rest) (byte '=') front.length)) 1) =
      .ok (entry front rest).2 := by
  have hlt' := hlt
  rw [List.length_append] at hlt'
  by_cases heq : byte '=' ∈ rest
  · have hi := List.idxOf_lt_length_of_mem heq
    have hfound : find (front ++ rest) (byte '=') front.length =
        front.length+rest.idxOf (byte '=') := by
      rw [find_behind, if_pos heq]
    have hstart : add (front.length+rest.idxOf (byte '=')) 1 =
        front.length+(rest.idxOf (byte '=')+1) := by
      unfold add
      omega
    have hdrop : (front ++ rest).drop (front.length+(rest.idxOf (byte '=')+1)) =
        behind (byte '=') rest :=
      List.drop_length_add_append (rest.idxOf (byte '=')+1)
    rw [hfound, ← formPass_count front rest hlt heq, hstart, substr,
      if_neg (by rw [List.length_append]; omega), hdrop]
  · have hfound : find (front ++ rest) (byte '=') front.length = npos := by
      rw [find_behind, if_neg heq]
    have hstart : add npos 1 = 0 := by decide
    rw [hfound, hstart, entry, if_neg heq, substr, if_neg (by omega), List.drop_zero, find_behind]
    split
    · have hlast := List.idxOf_le_length (a := byte '&') (l := rest)
      have hcount : sub (sub (front.length+rest.idxOf (byte '&')) npos) 1 =
          front.length+rest.idxOf (byte '&') := by
        unfold sub npos
        omega
      rw [hcount, List.take_length_add_append]
      rfl
    · rename_i hnone
      have hcount : sub (sub npos npos) 1 = npos := by decide
      rw [hcount, upTo_free _ _ hnone, List.take_of_length_le]
      rw [List.length_append]
      unfold npos
      omega

theorem formPass_entry (result : Form) :
    formPass (front ++ rest) front.length result =
      .ok (if byte '&' ∈ rest then some (front.length+rest.idxOf (byte '&')+1) else none,
        result.insert (entry front rest).1 (entry front rest).2) := by
  rw [formPass, formPass_key front rest hlt, formPass_val front rest hlt]
  simp only [bind, Except.bind]
  rw [List.length_append] at hlt
  rw [find_behind]
  split
  · rename_i hamp
    have hi := List.idxOf_lt_length_of_mem hamp
    have hnext : add (front.length+rest.idxOf (byte '&')) 1 =
        front.length+rest.idxOf (byte '&')+1 := by
      unfold add
      omega
    rw [if_neg (by unfold npos; omega), hnext]
  · rw [if_pos rfl]

end Pass

/-- The loop from a position on stores the pairs from there on, and ends. -/
theorem formLoop_entries (body : Bytes) (fuel : ℕ) (front rest : Bytes) (form : Form)
    (hbody : body = front ++ rest) (hlt : body.length < 2^63) (hfuel : rest.length < fuel) :
    formLoop body fuel front.length form = .ok (store form (entries front rest)) := by
  induction fuel generalizing front rest form with
  | zero => exact absurd hfuel (Nat.not_lt_zero _)
  | succ fuel ih =>
    subst hbody
    rw [formLoop, entries]
    by_cases hrest : rest = []
    · subst hrest
      rw [if_neg (by simp), if_pos rfl]
      rfl
    · have hpos := List.length_pos_iff.mpr hrest
      rw [if_pos (by rw [List.length_append]; omega), if_neg hrest,
        formPass_entry front rest hlt]
      simp only [bind, Except.bind]
      by_cases hamp : byte '&' ∈ rest
      · have hsplit := upTo_behind (byte '&') rest hamp
        have hnext : (front ++ (upTo (byte '&') rest ++ [byte '&'])).length =
            front.length+rest.idxOf (byte '&')+1 := by
          rw [List.length_append, List.length_append, upTo_length, List.length_singleton,
            Nat.add_assoc]
        have hbehind := behind_length (byte '&') rest hamp
        have hlater := ih (front ++ (upTo (byte '&') rest ++ [byte '&'])) (behind (byte '&') rest)
          (form.insert (entry front rest).1 (entry front rest).2)
          (by rw [List.append_assoc, List.append_assoc, List.singleton_append, hsplit])
          (by omega)
        rw [hnext] at hlater
        rw [if_pos hamp, if_pos hamp]
        exact hlater
      · rw [if_neg hamp, if_neg hamp]
        rfl

theorem parseForm_total (body : Bytes) (h : body.length < 2^63) :
    parseForm body = .ok (store ∅ (entries [] body)) :=
  formLoop_entries body (body.length+1) [] body ∅ rfl h (Nat.lt_succ_self _)

theorem upTo_at (c : Byte) (text rest : Bytes) (h : c ∉ text) :
    upTo c (text ++ c::rest) = text := by
  rw [upTo, List.idxOf_append_of_notMem h, List.idxOf_cons_self, Nat.add_zero, List.take_left]

theorem behind_at (c : Byte) (text rest : Bytes) (h : c ∉ text) :
    behind c (text ++ c::rest) = rest := by
  rw [behind, List.idxOf_append_of_notMem h, List.idxOf_cons_self, Nat.add_zero]
  exact List.drop_length_add_append 1

structure Plain (f : Bytes × Bytes) : Prop where
  key_eq : byte '=' ∉ f.1
  key_amp : byte '&' ∉ f.1
  value_amp : byte '&' ∉ f.2

def pairText (f : Bytes × Bytes) : Bytes := f.1 ++ byte '='::f.2

def formText : List (Bytes × Bytes) → Bytes
  | [] => []
  | [f] => pairText f
  | f::g::fs => pairText f ++ byte '&'::formText (g::fs)

theorem pairText_amp (f : Bytes × Bytes) (h : Plain f) : byte '&' ∉ pairText f := by
  rw [pairText, List.mem_append, List.mem_cons]
  rintro (hk | hc | hv)
  · exact h.key_amp hk
  · exact absurd hc (by decide)
  · exact h.value_amp hv

/-- A pair is read as it was written, whether or not another one follows. -/
theorem entry_pair (front tail : Bytes) (f : Bytes × Bytes) (h : Plain f)
    (htail : tail = [] ∨ ∃ more, tail = byte '&'::more) : entry front (pairText f ++ tail) = f := by
  have htext : pairText f ++ tail = f.1 ++ byte '='::(f.2 ++ tail) := by simp [pairText]
  have heq : byte '=' ∈ f.1 ++ byte '='::(f.2 ++ tail) := by simp
  have hvalue : upTo (byte '&') (f.2 ++ tail) = f.2 := by
    rcases htail with rfl | ⟨more, rfl⟩
    · rw [List.append_nil, upTo_free _ _ h.value_amp]
    · exact upTo_at _ _ _ h.value_amp
  rw [htext, entry, if_pos heq, upTo_at _ _ _ h.key_eq, behind_at _ _ _ h.key_eq,
    if_neg h.key_amp, hvalue]

theorem entries_formText (fields : List (Bytes × Bytes)) (front : Bytes)
    (h : ∀ f ∈ fields, Plain f) : entries front (formText fields) = fields := by
  induction fields generalizing front with
  | nil =>
    rw [formText, entries, if_pos rfl]
  | cons f fs ih =>
    have hf := h f List.mem_cons_self
    have hfs : ∀ g ∈ fs, Plain g := fun g hg => h g (List.mem_cons_of_mem _ hg)
    have hne : ∀ tail, pairText f ++ tail ≠ [] := by simp [pairText]
    cases fs with
    | nil =>
      have hentry := entry_pair front [] f hf (Or.inl rfl)
      rw [List.append_nil] at hentry
      rw [formText, entries, if_neg (by simpa using hne []), hentry,
        if_neg (pairText_amp f hf)]
    | cons g fs =>
      have hentry := entry_pair front (byte '&'::formText (g::fs)) f hf (Or.inr ⟨_, rfl⟩)
      rw [formText, entries, if_neg (hne _), hentry, if_pos (by simp),
        behind_at _ _ _ (pairText_amp f hf), ih _ hfs]

/-- A key has the value of its last pair, in every body. The pairs of a body in the
encoding are those that were encoded. -/
theorem parseForm_reads (body : Bytes) (h : body.length < 2^63) :
    ∃ form, parseForm body = .ok form ∧
      (∀ key, form.lookup key = (entries [] body).reverse.lookup key) ∧
      ∀ fields, (∀ f ∈ fields, Plain f) → body = formText fields →
        ∀ key, form.lookup key = fields.reverse.lookup key := by
  refine ⟨store ∅ (entries [] body), parseForm_total body h, store_lookup _, ?_⟩
  rintro fields hfields rfl key
  rw [store_lookup, entries_formText fields [] hfields]

theorem parseForm_reads_twoKeys : ∃ form, parseForm (bytes "a=1&b=2=3&a=4") = .ok form ∧
    form.lookup (bytes "a") = some (bytes "4") ∧ form.lookup (bytes "b") = some (bytes "2=3") := by
  obtain ⟨form, hform, -, hfields⟩ := parseForm_reads (bytes "a=1&b=2=3&a=4") (by decide)
  have hlookup := hfields [(bytes "a", bytes "1"), (bytes "b", bytes "2=3"), (bytes "a", bytes "4")]
    (by
      intro f hf
      simp only [List.mem_cons, List.not_mem_nil, or_false] at hf
      rcases hf with rfl | rfl | rfl
      all_goals exact ⟨by decide +kernel, by decide +kernel, by decide +kernel⟩)
    (by decide +kernel)
  exact ⟨form, hform, (hlookup _).trans (by decide +kernel), (hlookup _).trans (by decide +kernel)⟩

/-- The first pair has no '=' of its own. -/
example : parseForm (bytes "a&b=1") = .ok (store ∅ [(bytes "a&b", bytes "1"),
    (bytes "b", bytes "1")]) := by
  decide +kernel

end LoginForm
end MuServer
