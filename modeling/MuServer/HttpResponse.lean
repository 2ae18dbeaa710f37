import Mathlib.Data.List.AList
import Mathlib.Data.Finmap
import MuServer.HttpRoundTrip

/-!
# Responses and how they are written out

Both renderers append the same pieces to a buffer, one with the length of the
body, the other with the size of the file. `headers_` is an unordered map: the
order in which it is iterated is a parameter of each call. A file is held by
its path, and what the path names is read when the file is sent.
-/

set_option autoImplicit false

namespace MuServer

inductive HttpStateCode where
  | kUnknown
  | k200Ok
  | k301MovePermanently
  | k302Found
  | k400BadRequest
  | k404NotFound
  | k500InternalServerError
  deriving DecidableEq, Repr

def HttpStateCode.value : HttpStateCode → ℤ
  | .kUnknown => -1
  | .k200Ok => 200
  | .k301MovePermanently => 301
  | .k302Found => 302
  | .k400BadRequest => 400
  | .k404NotFound => 404
  | .k500InternalServerError => 500

def decimalInt (v : ℤ) : Bytes := if v < 0 then byte '-'::decimal v.natAbs else decimal v.natAbs

inductive FileType where
  | ktext_html
  | ktext_css
  | kapplication_javascript
  | kapplication_json
  | ktext_plain
  | kapplication_xml
  | kimage_jpeg
  | kimage_png
  | kimage_gif
  | kimage_webp
  | kimage_svg_xml
  | kimage_x_icon
  | kvideo_mp4
  | kvideo_webm
  | kaudio_mpeg
  | kapplication_pdf
  | kapplication_zip
  | kapplication_octet_stream
  deriving DecidableEq, Repr

def fileTypeMap_ : List (FileType × Bytes) :=
  [(.ktext_html, bytes "text/html"),
    (.ktext_css, bytes "text/css"),
    (.kapplication_javascript, bytes "application/javascript"),
    (.kapplication_json, bytes "application/json"),
    (.ktext_plain, bytes "text/plain"),
    (.kapplication_xml, bytes "application/xml"),
    (.kimage_jpeg, bytes "image/jpeg"),
    (.kimage_png, bytes "image/png"),
    (.kimage_gif, bytes "image/gif"),
    (.kimage_webp, bytes "image/webp"),
    (.kimage_svg_xml, bytes "image/svg+xml"),
    (.kimage_x_icon, bytes "image/x-icon"),
    (.kvideo_mp4, bytes "video/mp4"),
    (.kvideo_webm, bytes "video/webm"),
    (.kaudio_mpeg, bytes "audio/mpeg"),
    (.kapplication_pdf, bytes "application/pdf"),
    (.kapplication_zip, bytes "application/zip"),
    (.kapplication_octet_stream, bytes "application/octet-stream")]

/-- A `StaticFile` as routes and responses hold it, before its path is opened. -/
structure NamedFile where
  path_ : Bytes
  offset_ : ℕ
  fileSize_ : ℕ
  type_ : FileType := .ktext_html
  deriving DecidableEq, Repr

namespace NamedFile

def path (file : NamedFile) : Bytes := file.path_

def getFileSize (file : NamedFile) : ℕ := file.fileSize_

def getTypeString (file : NamedFile) : Bytes :=
  (fileTypeMap_.lookup file.type_).getD (bytes "application/octet-stream")

end NamedFile

abbrev HeaderMap := AList (fun _ : Bytes => Bytes)

structure HeaderOrder where
  order : List (Sigma (fun _ : Bytes => Bytes)) → List (Sigma (fun _ : Bytes => Bytes))
  perm : ∀ entries, (order entries).Perm entries

def HeaderOrder.stored : HeaderOrder where
  order := id
  perm := fun _ => List.Perm.refl _

structure HttpResponse where
  headers_ : HeaderMap := ∅
  stateCode_ : HttpStateCode := .kUnknown
  statusMessage_ : Bytes := []
  closeConnection_ : Bool
  body_ : Bytes := []
  isStaticFile_ : Bool := false
  file_ : Option NamedFile := none
  isStaticFile_eq : isStaticFile_ = file_.isSome := by rfl
  deriving DecidableEq

def kConnection : Bytes := bytes "Connection"

namespace HttpResponse

def setStatusCode (r : HttpResponse) (code : HttpStateCode) : HttpResponse :=
  { r with stateCode_ := code }

def setStatusMessage (r : HttpResponse) (msg : Bytes) : HttpResponse :=
  { r with statusMessage_ := msg }

def setBody (r : HttpResponse) (msg : Bytes) : HttpResponse := { r with body_ := msg }

def closeConnection (r : HttpResponse) : Bool := r.closeConnection_

def setCloseConnection (r : HttpResponse) (close : Bool) : HttpResponse :=
  { r with closeConnection_ := close }

def addHeader (r : HttpResponse) (key value : Bytes) : HttpResponse :=
  { r with headers_ := r.headers_.insert key value }

def setContentType (r : HttpResponse) (contentType : Bytes) : HttpResponse :=
  r.addHeader (bytes "Content-Type") contentType

def enableStaticFile (r : HttpResponse) (file : NamedFile) : HttpResponse :=
  { r with isStaticFile_ := true, file_ := some file, isStaticFile_eq := rfl }

def disableStaticFile (r : HttpResponse) : HttpResponse :=
  { r with isStaticFile_ := false, file_ := none, isStaticFile_eq := rfl }

def isStaticFile (r : HttpResponse) : Bool := r.isStaticFile_

def fileSize (r : HttpResponse) : Except Fault ℕ :=
  match r.file_ with
  | some file => .ok file.getFileSize
  | none => .error .nullPointer

def appendHeaders : List (Sigma (fun _ : Bytes => Bytes)) → Buffer → Except Fault Buffer
  | [], output => .ok output
  | header::headers, output => do
    let output ← output.append header.1
    let output ← output.append (bytes ": ")
    let output ← output.append header.2
    let output ← output.append kCRLF
    appendHeaders headers output

def appendFraming (r : HttpResponse) (length : Except Fault ℕ) (output : Buffer) :
    Except Fault Buffer :=
  if r.closeConnection_ then do
    let output ← output.append (bytes "Connection: close")
    output.append kCRLF
  else do
    let n ← length
    let output ← output.append (bytes "Content-Length: " ++ decimal n ++ kCRLF)
    let output ← output.append (bytes "Connection: Keep-Alive")
    output.append kCRLF

def appendHead (r : HttpResponse) (length : Except Fault ℕ) (order : HeaderOrder)
    (output : Buffer) : Except Fault Buffer := do
  let output ← output.append (bytes "HTTP/1.1 " ++ decimalInt r.stateCode_.value ++ bytes " ")
  let output ← output.append r.statusMessage_
  let output ← output.append kCRLF
  let output ← r.appendFraming length output
  let output ← appendHeaders (order.order r.headers_.entries) output
  output.append kCRLF

def appendToBuffer (r : HttpResponse) (order : HeaderOrder) (output : Buffer) :
    Except Fault Buffer := do
  let output ← r.appendHead (.ok r.body_.length) order output
  output.append r.body_

def appendHeaderToBuffer (r : HttpResponse) (order : HeaderOrder) (output : Buffer) :
    Except Fault Buffer :=
  r.appendHead r.fileSize order output

def framing (r : HttpResponse) (n : ℕ) : List (Bytes × Bytes) :=
  if r.closeConnection_ then [(kConnection, bytes "close")]
  else [(kContentLength, decimal n), (kConnection, bytes "Keep-Alive")]

def fields (r : HttpResponse) (order : HeaderOrder) : List (Bytes × Bytes) :=
  (order.order r.headers_.entries).map (fun header => (header.1, header.2))

def statusText (r : HttpResponse) : Bytes :=
  bytes "HTTP/1.1 " ++ decimalInt r.stateCode_.value ++ bytes " " ++ r.statusMessage_

def headText (r : HttpResponse) (n : ℕ) (order : HeaderOrder) : Bytes :=
  r.statusText ++ kCRLF ++ ((r.framing n ++ r.fields order).flatMap headerText ++ kCRLF)

def Appends (f : Buffer → Except Fault Buffer) (text : Bytes) : Prop :=
  ∀ b : Buffer, b.WF → ∃ c, f b = .ok c ∧ c.WF ∧ c.readable = b.readable ++ text

theorem appends_append (text : Bytes) : Appends (fun b => b.append text) text :=
  fun b hb => b.append_ok hb text

theorem appends_nil : Appends .ok [] := fun b hb => ⟨b, rfl, hb, by simp⟩

theorem appends_bind {f g : Buffer → Except Fault Buffer} {first second : Bytes}
    (hf : Appends f first) (hg : Appends g second) :
    Appends (fun b => f b >>= g) (first ++ second) := by
  intro b hb
  obtain ⟨c, hc, hwf, hr⟩ := hf b hb
  obtain ⟨d, hd, hwf', hr'⟩ := hg c hwf
  refine ⟨d, ?_, hwf', ?_⟩
  · change f b >>= g = .ok d
    rw [hc]
    exact hd
  · rw [hr', hr, List.append_assoc]

theorem appends_eq {f : Buffer → Except Fault Buffer} {text text' : Bytes}
    (h : Appends f text) (he : text = text') : Appends f text' := he ▸ h

theorem appendHeaders_appends (headers : List (Sigma (fun _ : Bytes => Bytes))) :
    Appends (appendHeaders headers)
      ((headers.map (fun header => (header.1, header.2))).flatMap headerText) := by
  induction headers with
  | nil => exact appends_nil
  | cons header headers ih =>
    have hline := appends_bind (appends_append header.1) (appends_bind (appends_append (bytes ": "))
      (appends_bind (appends_append header.2) (appends_bind (appends_append kCRLF) ih)))
    have hsep : bytes ": " = [byte ':', byte ' '] := by decide
    refine appends_eq hline ?_
    rw [List.map_cons, List.flatMap_cons, headerText, hsep]
    simp

theorem appendFraming_appends (r : HttpResponse) (n : ℕ) :
    Appends (r.appendFraming (.ok n)) ((r.framing n).flatMap headerText) := by
  unfold framing appendFraming
  cases r.closeConnection_ with
  | true =>
    have hc : bytes "Connection: close" = kConnection ++ byte ':'::byte ' '::bytes "close" := by
      decide
    refine appends_eq (appends_bind (appends_append (bytes "Connection: close"))
      (appends_append kCRLF)) ?_
    rw [hc, if_pos rfl, List.flatMap_singleton, headerText]
  | false =>
    have hl : bytes "Content-Length: " = kContentLength ++ [byte ':', byte ' '] := by decide
    have hk : bytes "Connection: Keep-Alive" =
        kConnection ++ byte ':'::byte ' '::bytes "Keep-Alive" := by decide
    refine appends_eq (appends_bind
      (appends_append (bytes "Content-Length: " ++ decimal n ++ kCRLF))
      (appends_bind (appends_append (bytes "Connection: Keep-Alive")) (appends_append kCRLF))) ?_
    rw [hl, hk, if_neg Bool.false_ne_true, List.flatMap_cons, List.flatMap_singleton, headerText,
      headerText]
    simp

theorem appendHead_appends (r : HttpResponse) (n : ℕ) (order : HeaderOrder) :
    Appends (r.appendHead (.ok n) order) (r.headText n order) := by
  refine appends_eq (appends_bind
    (appends_append (bytes "HTTP/1.1 " ++ decimalInt r.stateCode_.value ++ bytes " "))
    (appends_bind (appends_append r.statusMessage_) (appends_bind (appends_append kCRLF)
      (appends_bind (appendFraming_appends r n) (appends_bind
        (appendHeaders_appends (order.order r.headers_.entries)) (appends_append kCRLF)))))) ?_
  simp only [headText, statusText, fields, List.flatMap_append, List.append_assoc]

theorem appendToBuffer_appends (r : HttpResponse) (order : HeaderOrder) :
    Appends (r.appendToBuffer order) (r.headText r.body_.length order ++ r.body_) :=
  appends_bind (appendHead_appends r r.body_.length order) (appends_append r.body_)

theorem appendHeaderToBuffer_appends (r : HttpResponse) (file : NamedFile)
    (hf : r.file_ = some file) (order : HeaderOrder) :
    Appends (r.appendHeaderToBuffer order) (r.headText file.getFileSize order) := by
  have hs : r.fileSize = .ok file.getFileSize := by rw [fileSize, hf]
  unfold appendHeaderToBuffer
  rw [hs]
  exact appendHead_appends r file.getFileSize order

end HttpResponse
end MuServer
