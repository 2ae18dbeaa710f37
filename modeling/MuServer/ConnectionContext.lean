import MuServer.Basic

/-!
# What a connection has to send

`contextQueue_` holds copied bytes or a file with an offset in it. `write` and
`sendfile` report how many bytes they took: at most the requested count, and
for a file at most what it holds behind the offset.
-/

set_option autoImplicit false

namespace MuServer

structure StaticFile where
  content : Bytes
  offset_ : ℕ
  fileSize_ : ℕ
  deriving DecidableEq, Repr

namespace StaticFile

def getOffset (file : StaticFile) : ℕ := file.offset_

def getFileSize (file : StaticFile) : ℕ := file.fileSize_

def payload (file : StaticFile) : Bytes := (file.content.drop file.offset_).take file.fileSize_

end StaticFile

structure DataContext where
  data_ : Bytes
  pos_ : ℕ
  pos_le : pos_ ≤ data_.length
  deriving DecidableEq, Repr

namespace DataContext

def ofData (data : Bytes) : DataContext := ⟨data, 0, Nat.zero_le _⟩

def isComplete (c : DataContext) : Bool := c.pos_ = c.data_.length

def remaining (c : DataContext) : ℕ := c.data_.length-c.pos_

def writeToSocket (c : DataContext) (n : ℕ) : Option (Bytes × DataContext) :=
  if h : n ≤ c.remaining then
    some ((c.data_.drop c.pos_).take n,
      ⟨c.data_, c.pos_+n, by have hp := c.pos_le; unfold remaining at h; omega⟩)
  else none

end DataContext

structure FileContext where
  content : Bytes
  offset_ : ℕ
  initialOffset_ : ℕ
  len_ : ℕ
  initial_le : initialOffset_ ≤ offset_
  offset_le : offset_ ≤ initialOffset_+len_
  deriving DecidableEq, Repr

namespace FileContext

def ofFile (file : StaticFile) : FileContext :=
  ⟨file.content, file.getOffset, file.getOffset, file.getFileSize, le_refl _, Nat.le_add_right _ _⟩

def isComplete (c : FileContext) : Bool := c.offset_-c.initialOffset_ = c.len_

def remaining (c : FileContext) : ℕ := c.len_-(c.offset_-c.initialOffset_)

def writeToSocket (c : FileContext) (n : ℕ) : Option (Bytes × FileContext) :=
  if h : n ≤ c.remaining ∧ n ≤ c.content.length-c.offset_ then
    some ((c.content.drop c.offset_).take n,
      ⟨c.content, c.offset_+n, c.initialOffset_, c.len_, Nat.le_add_right_of_le c.initial_le,
        by have hi := c.initial_le; have ho := c.offset_le; have hn := h.1
           unfold remaining at hn; omega⟩)
  else none

end FileContext

inductive Context where
  | data (c : DataContext)
  | file (c : FileContext)
  deriving DecidableEq, Repr

namespace Context

def isComplete : Context → Bool
  | .data c => c.isComplete
  | .file c => c.isComplete

def remaining : Context → ℕ
  | .data c => c.remaining
  | .file c => c.remaining

def writeToSocket (ctx : Context) (n : ℕ) : Option (Bytes × Context) :=
  match ctx with
  | .data c => (c.writeToSocket n).map (fun r => (r.1, .data r.2))
  | .file c => (c.writeToSocket n).map (fun r => (r.1, .file r.2))

def payload : Context → Bytes
  | .data c => c.data_
  | .file c => (c.content.drop c.initialOffset_).take c.len_

def sent : Context → Bytes
  | .data c => c.data_.take c.pos_
  | .file c => (c.content.drop c.initialOffset_).take (c.offset_-c.initialOffset_)

theorem sent_initial (ctx : Context) : ctx.sent <+: ctx.payload := by
  cases ctx with
  | data c => exact List.take_prefix _ _
  | file c =>
    have ho := c.offset_le
    exact List.take_prefix_take_left (by omega)

theorem isComplete_iff (ctx : Context) : ctx.isComplete = true ↔ ctx.remaining = 0 := by
  cases ctx with
  | data c =>
    have hp := c.pos_le
    simp only [isComplete, DataContext.isComplete, remaining, DataContext.remaining,
      decide_eq_true_eq]
    omega
  | file c =>
    have hi := c.initial_le
    have ho := c.offset_le
    simp only [isComplete, FileContext.isComplete, remaining, FileContext.remaining,
      decide_eq_true_eq]
    omega

theorem isComplete_sent (ctx : Context) (h : ctx.isComplete = true) : ctx.sent = ctx.payload := by
  cases ctx with
  | data c =>
    have hc : c.pos_ = c.data_.length := by simpa [isComplete, DataContext.isComplete] using h
    simp only [sent, payload, hc, List.take_length]
  | file c =>
    have hc : c.offset_-c.initialOffset_ = c.len_ := by
      simpa [isComplete, FileContext.isComplete] using h
    simp only [sent, payload, hc]

theorem ofData_payload (data : Bytes) : payload (.data (.ofData data)) = data := rfl

theorem ofData_sent (data : Bytes) : sent (.data (.ofData data)) = [] := rfl

theorem ofData_remaining (data : Bytes) : remaining (.data (.ofData data)) = data.length := rfl

theorem ofFile_payload (file : StaticFile) : payload (.file (.ofFile file)) = file.payload := rfl

theorem ofFile_sent (file : StaticFile) : sent (.file (.ofFile file)) = [] := by
  simp [sent, FileContext.ofFile]

theorem ofFile_remaining (file : StaticFile) :
    remaining (.file (.ofFile file)) = file.getFileSize := by
  simp [remaining, FileContext.remaining, FileContext.ofFile]

structure Wrote (ctx : Context) (n : ℕ) (out : Bytes) (ctx' : Context) : Prop where
  le_remaining : n ≤ ctx.remaining
  length_out : out.length = n
  remaining_eq : ctx'.remaining = ctx.remaining-n
  payload_eq : ctx'.payload = ctx.payload
  sent_eq : ctx'.sent = ctx.sent ++ out

theorem data_wrote (c : DataContext) (n : ℕ) (out : Bytes) (c' : DataContext)
    (h : c.writeToSocket n = some (out, c')) : Wrote (.data c) n out (.data c') := by
  unfold DataContext.writeToSocket at h
  split at h
  · rename_i hn
    obtain ⟨rfl, rfl⟩ := Prod.mk.inj (Option.some.inj h)
    have hlen : n ≤ (c.data_.drop c.pos_).length := by rwa [List.length_drop]
    constructor
    · exact hn
    · exact List.length_take_of_le hlen
    · exact Nat.sub_add_eq _ _ _
    · rfl
    · exact List.take_add
  · exact absurd h (by simp)

theorem file_wrote (c : FileContext) (n : ℕ) (out : Bytes) (c' : FileContext)
    (h : c.writeToSocket n = some (out, c')) : Wrote (.file c) n out (.file c') := by
  unfold FileContext.writeToSocket at h
  split at h
  · rename_i hn
    obtain ⟨rfl, rfl⟩ := Prod.mk.inj (Option.some.inj h)
    have hi := c.initial_le
    have hlen : n ≤ (c.content.drop c.offset_).length := by
      rw [List.length_drop]
      exact hn.2
    have hoff : c.offset_+n-c.initialOffset_ = c.offset_-c.initialOffset_+n := by omega
    have hdrop : (c.content.drop c.initialOffset_).drop (c.offset_-c.initialOffset_) =
        c.content.drop c.offset_ := by
      rw [List.drop_drop, Nat.add_sub_cancel' hi]
    constructor
    · exact hn.1
    · exact List.length_take_of_le hlen
    · change c.len_-(c.offset_+n-c.initialOffset_) = c.len_-(c.offset_-c.initialOffset_)-n
      omega
    · rfl
    · change (c.content.drop c.initialOffset_).take (c.offset_+n-c.initialOffset_) = _
      rw [hoff, List.take_add, hdrop]
      rfl
  · exact absurd h (by simp)

theorem writeToSocket_wrote (ctx : Context) (n : ℕ) (out : Bytes) (ctx' : Context)
    (h : ctx.writeToSocket n = some (out, ctx')) : Wrote ctx n out ctx' := by
  cases ctx with
  | data c =>
    obtain ⟨⟨out', c'⟩, hc, he⟩ := Option.map_eq_some_iff.mp h
    obtain ⟨rfl, rfl⟩ := Prod.mk.inj he
    exact data_wrote c n out' c' hc
  | file c =>
    obtain ⟨⟨out', c'⟩, hc, he⟩ := Option.map_eq_some_iff.mp h
    obtain ⟨rfl, rfl⟩ := Prod.mk.inj he
    exact file_wrote c n out' c' hc

end Context
end MuServer
