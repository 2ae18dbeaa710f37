import Mathlib.Data.Finmap
import Mathlib.Data.List.DropRight
import MuServer.Basic

/-!
# The request under construction

The header table is an unordered map with unique keys and no observable
order, so it is a `Finmap`: two tables are equal when they answer every
lookup alike. A range `[start, end)` of characters is passed as its bytes.
-/

set_option autoImplicit false

namespace MuServer

inductive Method where
  | kInvalid | kGet | kPost | kDelete | kPut | kHead
  deriving DecidableEq, Repr

inductive Version where
  | kUnkown | kHttp10 | kHttp11
  deriving DecidableEq, Repr

abbrev Headers := Finmap (fun _ : Bytes => Bytes)

structure HttpRequest where
  method_ : Method := .kInvalid
  path_ : Bytes := []
  version_ : Version := .kUnkown
  query_ : Bytes := []
  receivedTime_ : TimeStamp := {}
  headers_ : Headers := ∅
  body_ : Bytes := []
  deriving DecidableEq

def methodOf (method : Bytes) : Method :=
  if method = bytes "GET" then .kGet
  else if method = bytes "POST" then .kPost
  else if method = bytes "DELETE" then .kDelete
  else if method = bytes "PUT" then .kPut
  else if method = bytes "HEAD" then .kHead
  else .kInvalid

namespace HttpRequest

def setMethod (r : HttpRequest) (method : Bytes) : Except Fault HttpRequest :=
  if r.method_ = .kInvalid then .ok { r with method_ := methodOf method }
  else .error .assertion

def methodString (r : HttpRequest) : Bytes :=
  match r.method_ with
  | .kGet => bytes "GET"
  | .kPost => bytes "POST"
  | .kDelete => bytes "DELETE"
  | .kPut => bytes "PUT"
  | .kHead => bytes "HEAD"
  | .kInvalid => bytes "UNKNOWN"

def isValidMethod (r : HttpRequest) : Bool :=
  let method := r.methodString
  method = bytes "GET" ∨ method = bytes "POST" ∨ method = bytes "HEAD" ∨
    method = bytes "PUT" ∨ method = bytes "DELETE"

def setPath (r : HttpRequest) (path : Bytes) : HttpRequest := { r with path_ := path }
def setVersion (r : HttpRequest) (v : Version) : HttpRequest := { r with version_ := v }
def setQuery (r : HttpRequest) (query : Bytes) : HttpRequest := { r with query_ := query }
def setReceivedTime (r : HttpRequest) (t : TimeStamp) : HttpRequest := { r with receivedTime_ := t }
def setBody (r : HttpRequest) (body : Bytes) : HttpRequest := { r with body_ := body }

def reframe (r : HttpRequest) (body : Bytes) (t : TimeStamp) : HttpRequest :=
  { r with body_ := body, receivedTime_ := t }

def trim (text : Bytes) : Bytes := (text.dropWhile isspace).rdropWhile isspace

def insertHeader (r : HttpRequest) (field value : Bytes) : HttpRequest :=
  { r with headers_ := r.headers_.insert field value }

/-- `line` is `[start, end)` and `colon` the offset of the colon in it. -/
def addHeaders (r : HttpRequest) (line : Bytes) (colon : ℕ) : HttpRequest :=
  r.insertHeader (line.take colon) (trim (line.drop (colon+1)))

def getHeader (r : HttpRequest) (field : Bytes) : Bytes := (r.headers_.lookup field).getD []

/-- `swap` exchanges the fields it names; `body_` is not one of them. -/
def swap (r other : HttpRequest) : HttpRequest × HttpRequest :=
  ({ other with body_ := r.body_ }, { r with body_ := other.body_ })

theorem isValidMethod_iff (r : HttpRequest) : r.isValidMethod = true ↔ r.method_ ≠ .kInvalid := by
  cases h : r.method_ <;> simp only [isValidMethod, methodString, h] <;> decide

theorem methodOf_valid (method : Bytes) (h : methodOf method ≠ .kInvalid) :
    method ∈ [bytes "GET", bytes "POST", bytes "DELETE", bytes "PUT", bytes "HEAD"] := by
  unfold methodOf at h
  split_ifs at h <;> simp_all

theorem methodOf_append (pre method : Bytes) (hp : pre ≠ [])
    (hm : methodOf method ≠ .kInvalid) : methodOf (pre ++ method) = .kInvalid := by
  by_contra hc
  have h1 := methodOf_valid method hm
  have h2 := methodOf_valid (pre ++ method) hc
  obtain ⟨c, cs, rfl⟩ := List.exists_cons_of_ne_nil hp
  simp only [List.mem_cons, List.not_mem_nil, or_false] at h1 h2
  have key : ∀ a ∈ [bytes "GET", bytes "POST", bytes "DELETE", bytes "PUT", bytes "HEAD"],
      ∀ m ∈ [bytes "GET", bytes "POST", bytes "DELETE", bytes "PUT", bytes "HEAD"],
      m <:+ a → m = a := by decide
  have hs : method <:+ (c::cs) ++ method := List.suffix_append _ _
  have he := key _ (by simpa using h2) _ (by simpa using h1) hs
  have hl := congrArg List.length he
  simp only [List.length_append, List.length_cons] at hl
  omega

end HttpRequest
end MuServer
