import MuServer.HttpResponse

/-!
# A reader for responses

The reference: a status line with three digits, field lines up to the first
empty one, then as many bytes as `Content-Length` says, and again. A field is
split at its first colon and loses one blank behind it. The reader gives back
every sequence of responses that was written to one buffer.
-/

set_option autoImplicit false

namespace MuServer
open Lib.Search

structure Head where
  code : ℕ
  message : Bytes
  fields : List (Bytes × Bytes)
  deriving DecidableEq

structure Message where
  code : ℤ
  message : Bytes
  headers : Headers
  body : Bytes
  deriving DecidableEq

def readLine (bs : Bytes) : Option (Bytes × Bytes) :=
  if search kCRLF bs < bs.length then
    some (bs.take (search kCRLF bs), bs.drop (search kCRLF bs+2))
  else none

def readStatus (text : Bytes) : Option (ℕ × Bytes) :=
  let code := (text.drop 9).take 3
  if text.take 9 = bytes "HTTP/1.1 " ∧ code.length = 3 ∧ code.all isdigit ∧
      text[12]? = some (byte ' ') then
    some (digitsValue code, text.drop 13)
  else none

def dropBlank : Bytes → Bytes
  | [] => []
  | c::cs => if c = byte ' ' then cs else c::cs

def readField (line : Bytes) : Option (Bytes × Bytes) :=
  let colon := line.idxOf (byte ':')
  if colon < line.length then some (line.take colon, dropBlank (line.drop (colon+1))) else none

def readFields : ℕ → Bytes → Option (List (Bytes × Bytes) × Bytes)
  | 0, _ => none
  | n+1, bs => do
    let (line, rest) ← readLine bs
    if line = [] then some ([], rest)
    else
      let field ← readField line
      let (fields, rest) ← readFields n rest
      some (field::fields, rest)

def readHead (bs : Bytes) : Option (Head × Bytes) := do
  let (line, rest) ← readLine bs
  let (code, message) ← readStatus line
  let (fields, rest) ← readFields rest.length rest
  some ({ code := code, message := message, fields := fields }, rest)

namespace Head

def contentLength (h : Head) : Option ℕ := do
  let text ← h.fields.lookup kContentLength
  if text ≠ [] ∧ text.all isdigit then some (digitsValue text) else none

def table (h : Head) : Headers :=
  ((h.fields.filter (fun f => f.1 ≠ kContentLength ∧ f.1 ≠ kConnection)).map
    (fun f => (⟨f.1, f.2⟩ : Sigma (fun _ : Bytes => Bytes)))).toFinmap

end Head

def readMessage (bs : Bytes) : Option (Message × Bytes) := do
  let (head, rest) ← readHead bs
  let n ← head.contentLength
  if n ≤ rest.length then
    some ({
      code := head.code
      message := head.message
      headers := head.table
      body := rest.take n }, rest.drop n)
  else none

def readMessages : ℕ → Bytes → Option (List Message)
  | _, [] => some []
  | 0, _::_ => none
  | n+1, bs => do
    let (message, rest) ← readMessage bs
    let messages ← readMessages n rest
    some (message::messages)

def readAll (bs : Bytes) : Option (List Message) := readMessages bs.length bs

def TextBytes (text : Bytes) : Prop := ∀ c ∈ text, c ≠ CR ∧ c ≠ LF

instance (text : Bytes) : Decidable (TextBytes text) :=
  inferInstanceAs (Decidable (∀ c ∈ text, _))

theorem readLine_text (line rest : Bytes) (h : ∀ c ∈ line, c ≠ CR) :
    readLine (line ++ (kCRLF ++ rest)) = some (line, rest) := by
  have hs : search kCRLF (line ++ (kCRLF ++ rest)) = line.length := by
    rw [← List.append_assoc]
    exact search_skip CR [LF] line rest h
  have hd : (line ++ (kCRLF ++ rest)).drop (line.length+2) = rest := by
    rw [← List.drop_drop, List.drop_left]
    rfl
  have hlt : line.length < (line ++ (kCRLF ++ rest)).length := by
    simp [kCRLF]
  rw [readLine, hs, if_pos hlt, List.take_left, hd]

theorem decimal_isdigit (n : ℕ) : (decimal n).all isdigit = true := by
  rw [List.all_eq_true]
  intro c hc
  obtain ⟨d, hd, rfl⟩ := decimal_digits n c hc
  exact isdigit_digit d hd

theorem decimal_text (n : ℕ) : TextBytes (decimal n) := by
  intro c hc
  obtain ⟨d, hd, rfl⟩ := decimal_digits n c hc
  interval_cases d <;> decide

theorem value_digits (code : HttpStateCode) (h : code ≠ .kUnknown) :
    ∃ n : ℕ, (n : ℤ) = code.value ∧ decimalInt code.value = decimal n ∧
      (decimal n).length = 3 := by
  cases code with
  | kUnknown => exact absurd rfl h
  | k200Ok => exact ⟨200, rfl, rfl, by simp [decimal]⟩
  | k301MovePermanently => exact ⟨301, rfl, rfl, by simp [decimal]⟩
  | k302Found => exact ⟨302, rfl, rfl, by simp [decimal]⟩
  | k400BadRequest => exact ⟨400, rfl, rfl, by simp [decimal]⟩
  | k404NotFound => exact ⟨404, rfl, rfl, by simp [decimal]⟩
  | k500InternalServerError => exact ⟨500, rfl, rfl, by simp [decimal]⟩

theorem readStatus_text (r : HttpResponse) (h : r.stateCode_ ≠ .kUnknown) :
    ∃ n : ℕ, (n : ℤ) = r.stateCode_.value ∧
      readStatus r.statusText = some (n, r.statusMessage_) := by
  obtain ⟨n, hn, htext, hlen⟩ := value_digits r.stateCode_ h
  have hversion : (bytes "HTTP/1.1 ").length = 9 := by decide
  have hblank : bytes " " = [byte ' '] := by decide
  have hd : (r.statusText).drop 9 = decimal n ++ (byte ' '::r.statusMessage_) := by
    simp only [HttpResponse.statusText, htext, hblank, List.append_assoc]
    rw [← hversion, List.drop_left]
    rfl
  have hd12 : r.statusText.drop 12 = byte ' '::r.statusMessage_ := by
    rw [show 12 = 9+3 by rfl, ← List.drop_drop, hd, ← hlen, List.drop_left]
  have hcode : (r.statusText.drop 9).take 3 = decimal n := by
    rw [hd, ← hlen, List.take_left]
  have htake : r.statusText.take 9 = bytes "HTTP/1.1 " := by
    simp only [HttpResponse.statusText, List.append_assoc]
    rw [← hversion, List.take_left]
  have hsep : r.statusText[12]? = some (byte ' ') := by
    rw [← List.head?_drop, hd12]
    rfl
  have hmsg : r.statusText.drop 13 = r.statusMessage_ := by
    rw [show 13 = 12+1 by rfl, ← List.drop_drop, hd12]
    rfl
  refine ⟨n, hn, ?_⟩
  rw [readStatus]
  simp only [hcode]
  rw [if_pos ⟨htake, hlen, decimal_isdigit n, hsep⟩, digitsValue_decimal, hmsg]

def fieldOf (h : Bytes × Bytes) : Bytes × Bytes :=
  let line := h.1 ++ byte ':'::byte ' '::h.2
  (line.take (line.idxOf (byte ':')), dropBlank (line.drop (line.idxOf (byte ':')+1)))

theorem readField_text (h : Bytes × Bytes) :
    readField (h.1 ++ byte ':'::byte ' '::h.2) = some (fieldOf h) := by
  have hidx : (h.1 ++ byte ':'::byte ' '::h.2).idxOf (byte ':') <
      (h.1 ++ byte ':'::byte ' '::h.2).length :=
    List.idxOf_lt_length_iff.mpr (by simp)
  rw [readField, if_pos hidx]
  rfl

theorem fieldOf_eq (h : Bytes × Bytes) (hn : ∀ c ∈ h.1, c ≠ byte ':') : fieldOf h = h := by
  have hidx : (h.1 ++ byte ':'::byte ' '::h.2).idxOf (byte ':') = h.1.length := by
    rw [List.idxOf_append_of_notMem (fun hc => hn _ hc rfl), List.idxOf_cons_self, Nat.add_zero]
  have hd : (h.1 ++ byte ':'::byte ' '::h.2).drop (h.1.length+1) = byte ' '::h.2 := by
    rw [← List.drop_drop, List.drop_left]
    rfl
  rw [fieldOf]
  simp only [hidx]
  rw [List.take_left, hd, dropBlank, if_pos rfl]

def FieldBytes (h : Bytes × Bytes) : Prop := TextBytes h.1 ∧ TextBytes h.2

instance (h : Bytes × Bytes) : Decidable (FieldBytes h) := inferInstanceAs (Decidable (_ ∧ _))

theorem fieldLine_bytes (h : Bytes × Bytes) (hf : FieldBytes h) :
    ∀ c ∈ h.1 ++ byte ':'::byte ' '::h.2, c ≠ CR := by
  intro c hc
  rcases List.mem_append.mp hc with hc | hc
  · exact (hf.1 c hc).1
  · simp only [List.mem_cons] at hc
    rcases hc with rfl | rfl | hc
    · decide
    · decide
    · exact (hf.2 c hc).1

theorem readFields_text (hs : List (Bytes × Bytes)) (hf : ∀ h ∈ hs, FieldBytes h) (rest : Bytes)
    (n : ℕ) (hn : hs.length < n) :
    readFields n (hs.flatMap headerText ++ (kCRLF ++ rest)) = some (hs.map fieldOf, rest) := by
  induction hs generalizing n with
  | nil =>
    obtain ⟨m, rfl⟩ := Nat.exists_eq_succ_of_ne_zero (Nat.ne_of_gt hn)
    have hline := readLine_text [] rest (by simp)
    rw [List.nil_append] at hline
    rw [List.flatMap_nil, List.nil_append, readFields, hline]
    rfl
  | cons h hs ih =>
    obtain ⟨m, rfl⟩ := Nat.exists_eq_succ_of_ne_zero (Nat.ne_of_gt (Nat.zero_lt_of_lt hn))
    have hlt : hs.length < m := by simpa using hn
    have hne : h.1 ++ byte ':'::byte ' '::h.2 ≠ [] := by simp
    rw [List.flatMap_cons, headerText, List.append_assoc, List.append_assoc,
      readFields, readLine_text _ _ (fieldLine_bytes h (hf h (by simp)))]
    change (if h.1 ++ byte ':'::byte ' '::h.2 = [] then _ else _) = _
    rw [if_neg hne, readField_text, ih (fun f hm => hf f (by simp [hm])) m hlt]
    rfl

/-- What may be set on a response so that its head can be read: a status code
and texts that fit in a line. -/
structure HttpResponse.Legible (r : HttpResponse) : Prop where
  code : r.stateCode_ ≠ .kUnknown
  message : TextBytes r.statusMessage_
  fields : ∀ h ∈ r.headers_.entries, FieldBytes (h.1, h.2)

theorem fields_mem (r : HttpResponse) (order : HeaderOrder) (f : Bytes × Bytes)
    (hf : f ∈ r.fields order) : ∃ h ∈ r.headers_.entries, f = (h.1, h.2) := by
  obtain ⟨h, hm, rfl⟩ := List.mem_map.mp hf
  exact ⟨h, (order.perm _).mem_iff.mp hm, rfl⟩

theorem framing_fieldBytes (r : HttpResponse) (n : ℕ) : ∀ f ∈ r.framing n, FieldBytes f := by
  intro f hf
  unfold HttpResponse.framing at hf
  split at hf
  · obtain rfl := List.mem_singleton.mp hf
    exact ⟨by decide +kernel, by decide +kernel⟩
  · simp only [List.mem_cons, List.not_mem_nil, or_false] at hf
    rcases hf with rfl | rfl
    · exact ⟨(by decide +kernel : TextBytes kContentLength), decimal_text n⟩
    · exact ⟨by decide +kernel, by decide +kernel⟩

theorem framing_named (r : HttpResponse) (n : ℕ) : (r.framing n).map fieldOf = r.framing n := by
  have hl : ∀ c ∈ kContentLength, c ≠ byte ':' := by decide +kernel
  have hk : ∀ c ∈ kConnection, c ≠ byte ':' := by decide +kernel
  unfold HttpResponse.framing
  split
  · rw [List.map_singleton, fieldOf_eq _ hk]
  · rw [List.map_cons, List.map_singleton, fieldOf_eq _ hl, fieldOf_eq _ hk]

theorem statusText_bytes (r : HttpResponse) (h : r.Legible) : ∀ c ∈ r.statusText, c ≠ CR := by
  obtain ⟨n, -, htext, -⟩ := value_digits r.stateCode_ h.code
  have hv : ∀ c ∈ bytes "HTTP/1.1 ", c ≠ CR := by decide +kernel
  have hb : ∀ c ∈ bytes " ", c ≠ CR := by decide +kernel
  intro c hc
  simp only [HttpResponse.statusText, htext, List.mem_append] at hc
  rcases hc with ((hc | hc) | hc) | hc
  · exact hv c hc
  · exact (decimal_text n c hc).1
  · exact hb c hc
  · exact (h.message c hc).1

theorem fields_fuel (hs : List (Bytes × Bytes)) (rest : Bytes) :
    hs.length < (hs.flatMap headerText ++ (kCRLF ++ rest)).length := by
  induction hs with
  | nil => simp [kCRLF]
  | cons h hs ih =>
    have hpos : 0 < (headerText h).length := by simp [headerText]
    rw [List.flatMap_cons, List.append_assoc, List.length_append, List.length_cons]
    omega

theorem readHead_text (r : HttpResponse) (h : r.Legible) (n : ℕ) (order : HeaderOrder)
    (rest : Bytes) : ∃ code : ℕ, (code : ℤ) = r.stateCode_.value ∧
      readHead (r.headText n order ++ rest) = some ({
        code := code
        message := r.statusMessage_
        fields := r.framing n ++ (r.fields order).map fieldOf }, rest) := by
  obtain ⟨code, hcode, hstatus⟩ := readStatus_text r h.code
  have hall : ∀ f ∈ r.framing n ++ r.fields order, FieldBytes f := by
    intro f hf
    rcases List.mem_append.mp hf with hf | hf
    · exact framing_fieldBytes r n f hf
    · obtain ⟨e, he, rfl⟩ := fields_mem r order f hf
      exact h.fields e he
  have hfields := readFields_text _ hall rest _ (fields_fuel (r.framing n ++ r.fields order) rest)
  refine ⟨code, hcode, ?_⟩
  rw [HttpResponse.headText, List.append_assoc, List.append_assoc, List.append_assoc, readHead,
    readLine_text _ _ (statusText_bytes r h)]
  change (readStatus r.statusText).bind _ = _
  rw [hstatus]
  change (readFields _ ((r.framing n ++ r.fields order).flatMap headerText ++
    (kCRLF ++ rest))).bind _ = _
  rw [hfields, List.map_append, framing_named]
  rfl

def HttpResponse.message (r : HttpResponse) : Message where
  code := r.stateCode_.value
  message := r.statusMessage_
  headers := r.headers_.toFinmap
  body := r.body_

structure HttpResponse.Delimited (r : HttpResponse) : Prop extends r.Legible where
  stays : r.closeConnection_ = false
  colons : ∀ h ∈ r.headers_.entries, ∀ c ∈ h.1, c ≠ byte ':'
  names : ∀ h ∈ r.headers_.entries, h.1 ≠ kContentLength ∧ h.1 ≠ kConnection

def HttpResponse.appendAll : List (HttpResponse × HeaderOrder) → Buffer → Except Fault Buffer
  | [], output => .ok output
  | r::rs, output => do
    let output ← r.1.appendToBuffer r.2 output
    appendAll rs output

def responsesText (rs : List (HttpResponse × HeaderOrder)) : Bytes :=
  rs.flatMap (fun r => r.1.headText r.1.body_.length r.2 ++ r.1.body_)

theorem appendAll_appends (rs : List (HttpResponse × HeaderOrder)) :
    HttpResponse.Appends (HttpResponse.appendAll rs) (responsesText rs) := by
  induction rs with
  | nil => exact HttpResponse.appends_nil
  | cons r rs ih =>
    exact HttpResponse.appends_bind (HttpResponse.appendToBuffer_appends r.1 r.2) ih

theorem order_table (headers : HeaderMap) (order : HeaderOrder) :
    (order.order headers.entries).toFinmap = headers.toFinmap := by
  refine Finmap.ext_lookup (fun name => ?_)
  have hp := order.perm headers.entries
  have hn := (List.perm_nodupKeys hp).mpr headers.nodupKeys
  rw [Finmap.dlookup_list_toFinmap]
  exact List.perm_dlookup name hn hp

theorem table_fields (r : HttpResponse) (h : r.Delimited) (n code : ℕ) (order : HeaderOrder) :
    ({ code := code
       message := r.statusMessage_
       fields := r.framing n ++ (r.fields order).map fieldOf } : Head).table =
      r.headers_.toFinmap := by
  have hframing : (r.framing n).filter (fun f => f.1 ≠ kContentLength ∧ f.1 ≠ kConnection) =
      [] := by
    rw [HttpResponse.framing, h.stays]
    rfl
  have hnamed : (r.fields order).map fieldOf = r.fields order := by
    rw [List.map_congr_left (fun f hf => ?_), List.map_id]
    obtain ⟨e, he, rfl⟩ := fields_mem r order f hf
    exact fieldOf_eq _ (h.colons e he)
  have hkept : (r.fields order).filter (fun f => f.1 ≠ kContentLength ∧ f.1 ≠ kConnection) =
      r.fields order := by
    rw [List.filter_eq_self]
    intro f hf
    obtain ⟨e, he, rfl⟩ := fields_mem r order f hf
    exact decide_eq_true (h.names e he)
  rw [Head.table, hnamed, List.filter_append, hframing, hkept, List.nil_append,
    HttpResponse.fields, List.map_map]
  have hid : (order.order r.headers_.entries).map
      ((fun f : Bytes × Bytes => (⟨f.1, f.2⟩ : Sigma (fun _ : Bytes => Bytes))) ∘
        (fun header => (header.1, header.2))) = order.order r.headers_.entries :=
    List.map_id _
  rw [hid, order_table]

theorem contentLength_framing (r : HttpResponse) (h : r.closeConnection_ = false) (n code : ℕ)
    (message : Bytes) (more : List (Bytes × Bytes)) :
    ({ code := code, message := message, fields := r.framing n ++ more } : Head).contentLength =
      some n := by
  rw [HttpResponse.framing, h, Head.contentLength]
  change (some (decimal n)).bind _ = _
  rw [Option.bind_some, if_pos ⟨decimal_ne_nil n, decimal_isdigit n⟩, digitsValue_decimal]

theorem readMessage_text (r : HttpResponse) (h : r.Delimited) (order : HeaderOrder)
    (rest : Bytes) :
    readMessage (r.headText r.body_.length order ++ r.body_ ++ rest) = some (r.message, rest) := by
  obtain ⟨code, hcode, hhead⟩ := readHead_text r h.toLegible r.body_.length order (r.body_ ++ rest)
  rw [List.append_assoc, readMessage, hhead]
  change (Head.contentLength _).bind _ = _
  rw [contentLength_framing r h.stays, Option.bind_some, if_pos (by simp), List.take_left,
    List.drop_left, table_fields r h, hcode]
  rfl

theorem headText_ne_nil (r : HttpResponse) (n : ℕ) (order : HeaderOrder) :
    r.headText n order ≠ [] := by
  simp [HttpResponse.headText, kCRLF]

theorem readMessages_text (rs : List (HttpResponse × HeaderOrder))
    (h : ∀ r ∈ rs, r.1.Delimited) (n : ℕ) (hn : (responsesText rs).length ≤ n) :
    readMessages n (responsesText rs) = some (rs.map (fun r => r.1.message)) := by
  induction rs generalizing n with
  | nil => cases n <;> rfl
  | cons r rs ih =>
    have hcons : responsesText (r::rs) =
        r.1.headText r.1.body_.length r.2 ++ r.1.body_ ++ responsesText rs := rfl
    have hpos := List.length_pos_of_ne_nil (headText_ne_nil r.1 r.1.body_.length r.2)
    have hmsg := readMessage_text r.1 (h r (by simp)) r.2 (responsesText rs)
    rw [hcons] at hn ⊢
    rw [List.length_append, List.length_append] at hn
    obtain ⟨m, rfl⟩ := Nat.exists_eq_succ_of_ne_zero (n := n) (by omega)
    obtain ⟨c, cs, hc⟩ := List.exists_cons_of_ne_nil
      (l := r.1.headText r.1.body_.length r.2 ++ r.1.body_ ++ responsesText rs)
      (by simp [headText_ne_nil])
    rw [hc] at hmsg ⊢
    change (readMessage (c::cs)).bind _ = _
    rw [hmsg]
    change (readMessages m (responsesText rs)).bind _ = _
    rw [ih (fun q hq => h q (by simp [hq])) m (by omega)]
    rfl

/-- The sequence of responses that a buffer holds is read back from it,
whatever their bodies and the order of their headers. -/
theorem readAll_appendAll (rs : List (HttpResponse × HeaderOrder)) (h : ∀ r ∈ rs, r.1.Delimited)
    (initialSize : ℕ) : ∃ b, HttpResponse.appendAll rs (Buffer.create initialSize) = .ok b ∧
      readAll b.readable = some (rs.map (fun r => r.1.message)) := by
  obtain ⟨b, hb, -, hr⟩ := appendAll_appends rs _ (Buffer.create_wf initialSize)
  rw [Buffer.create_readable, List.nil_append] at hr
  refine ⟨b, hb, ?_⟩
  rw [hr]
  exact readMessages_text rs h _ (le_refl _)

def pageResponse : HttpResponse where
  headers_ := (∅ : HeaderMap).insert (bytes "Content-Type") (bytes "text/html")
  stateCode_ := .k200Ok
  statusMessage_ := bytes "OK"
  closeConnection_ := false
  body_ := kCRLF ++ kCRLF ++ bytes "HTTP/1.1 200 OK"

def movedResponse : HttpResponse where
  stateCode_ := .k301MovePermanently
  statusMessage_ := bytes "Moved: for good"
  closeConnection_ := false

theorem readAll_appendAll_page :
    ∃ b, HttpResponse.appendAll [(pageResponse, .stored), (movedResponse, .stored),
        (pageResponse, .stored)] (Buffer.create 16) = .ok b ∧
      readAll b.readable = some [pageResponse.message, movedResponse.message,
        pageResponse.message] := by
  have hpage : pageResponse.Delimited := by
    refine ⟨⟨by decide, by decide +kernel, ?_⟩, rfl, ?_, ?_⟩ <;> decide +kernel
  have hmoved : movedResponse.Delimited := by
    refine ⟨⟨by decide, by decide +kernel, ?_⟩, rfl, ?_, ?_⟩ <;> decide +kernel
  refine readAll_appendAll [(pageResponse, .stored), (movedResponse, .stored),
    (pageResponse, .stored)] (fun r hr => ?_) 16
  simp only [List.mem_cons, List.not_mem_nil, or_false] at hr
  rcases hr with rfl | rfl | rfl
  · exact hpage
  · exact hmoved
  · exact hpage

end MuServer
