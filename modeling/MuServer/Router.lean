import MuServer.HttpResponse

/-!
# Routes

Routes are kept by method and path, and the first registration of a path wins.
A file route binds `handleFile` to its file. A request without a route is
answered with 404 and the connection is closed.
-/

set_option autoImplicit false

namespace MuServer

/-- What a route holds: a function of the user or `handleFile` bound to a file. -/
inductive RouterHandler where
  | user (handler : HttpRequest → HttpResponse → HttpResponse)
  | file (file : NamedFile)

abbrev Routes := AList (fun _ : Bytes => RouterHandler)

structure Router where
  getRoutes_ : Routes := ∅
  postRoutes_ : Routes := ∅

/-- `emplace` of an unordered map: a key that is there keeps its value. -/
def emplace (routes : Routes) (uri : Bytes) (handler : RouterHandler) : Routes :=
  if uri ∈ routes then routes else routes.insert uri handler

def handleFile (file : NamedFile) (_request : HttpRequest) (rep : HttpResponse) : HttpResponse :=
  (rep.setContentType file.getTypeString).enableStaticFile file

def RouterHandler.call : RouterHandler → HttpRequest → HttpResponse → HttpResponse
  | .user handler => handler
  | .file sf => handleFile sf

namespace Router

def get (r : Router) (uri : Bytes) (handler : HttpRequest → HttpResponse → HttpResponse) :
    Router :=
  { r with getRoutes_ := emplace r.getRoutes_ uri (.user handler) }

def post (r : Router) (uri : Bytes) (handler : HttpRequest → HttpResponse → HttpResponse) :
    Router :=
  { r with postRoutes_ := emplace r.postRoutes_ uri (.user handler) }

def file (r : Router) (uri : Bytes) (file : NamedFile) : Router :=
  { r with getRoutes_ := emplace r.getRoutes_ uri (.file file) }

def matchRoute (r : Router) (method : Method) (path : Bytes) : Option RouterHandler :=
  match method with
  | .kGet => r.getRoutes_.lookup path
  | .kPost => r.postRoutes_.lookup path
  | .kDelete => none
  | .kPut => none
  | .kHead => none
  | .kInvalid => none

def handleRequest (r : Router) (req : HttpRequest) (rep : HttpResponse) : HttpResponse :=
  match r.matchRoute req.method_ req.path_ with
  | some handler => handler.call req rep
  | none =>
    ((rep.setStatusCode .k404NotFound).setStatusMessage (bytes "Not Found")).setCloseConnection true

end Router

inductive Registration where
  | get (uri : Bytes) (handler : HttpRequest → HttpResponse → HttpResponse)
  | post (uri : Bytes) (handler : HttpRequest → HttpResponse → HttpResponse)
  | file (uri : Bytes) (file : NamedFile)

def Router.register (r : Router) : Registration → Router
  | .get uri handler => r.get uri handler
  | .post uri handler => r.post uri handler
  | .file uri file => r.file uri file

def Router.build (regs : List Registration) : Router := regs.foldl Router.register {}

def Registered (regs : List Registration)
    (handler : HttpRequest → HttpResponse → HttpResponse) : Prop :=
  ∃ uri, .get uri handler ∈ regs ∨ .post uri handler ∈ regs

theorem emplace_lookup (routes : Routes) (uri path : Bytes) (handler found : RouterHandler)
    (h : (emplace routes uri handler).lookup path = some found) :
    routes.lookup path = some found ∨ found = handler := by
  unfold emplace at h
  split at h
  · exact Or.inl h
  · by_cases hp : path = uri
    · rw [hp, AList.lookup_insert] at h
      exact Or.inr (Option.some.inj h).symm
    · rw [AList.lookup_insert_ne hp] at h
      exact Or.inl h

def Router.Honest (r : Router) (regs : List Registration) : Prop :=
  ∀ method path handler, r.matchRoute method path = some (.user handler) → Registered regs handler

theorem register_honest (r : Router) (regs : List Registration) (h : r.Honest regs)
    (reg : Registration) : (r.register reg).Honest (regs ++ [reg]) := by
  have hold : ∀ handler, Registered regs handler → Registered (regs ++ [reg]) handler := by
    rintro handler ⟨uri, hm | hm⟩
    · exact ⟨uri, Or.inl (List.mem_append_left _ hm)⟩
    · exact ⟨uri, Or.inr (List.mem_append_left _ hm)⟩
  have hget : ∀ path handler, r.getRoutes_.lookup path = some (.user handler) →
      Registered (regs ++ [reg]) handler := fun path handler hl => hold _ (h .kGet path handler hl)
  have hpost : ∀ path handler, r.postRoutes_.lookup path = some (.user handler) →
      Registered (regs ++ [reg]) handler := fun path handler hl => hold _ (h .kPost path handler hl)
  intro method path handler hm
  cases reg with
  | get uri added =>
    cases method with
    | kGet =>
      rcases emplace_lookup _ _ _ _ _ hm with hl | hl
      · exact hget path handler hl
      · obtain rfl := RouterHandler.user.inj hl
        exact ⟨uri, Or.inl (by simp)⟩
    | kPost => exact hpost path handler hm
    | _ => exact absurd hm (by simp [Router.matchRoute])
  | post uri added =>
    cases method with
    | kGet => exact hget path handler hm
    | kPost =>
      rcases emplace_lookup _ _ _ _ _ hm with hl | hl
      · exact hpost path handler hl
      · obtain rfl := RouterHandler.user.inj hl
        exact ⟨uri, Or.inr (by simp)⟩
    | _ => exact absurd hm (by simp [Router.matchRoute])
  | file uri added =>
    cases method with
    | kGet =>
      rcases emplace_lookup _ _ _ _ _ hm with hl | hl
      · exact hget path handler hl
      · exact absurd hl (by simp)
    | kPost => exact hpost path handler hm
    | _ => exact absurd hm (by simp [Router.matchRoute])

theorem build_honest (regs : List Registration) : (Router.build regs).Honest regs := by
  have hall : ∀ (later earlier : List Registration) (r : Router), r.Honest earlier →
      (later.foldl Router.register r).Honest (earlier ++ later) := by
    intro later
    induction later with
    | nil =>
      intro earlier r h
      rwa [List.append_nil]
    | cons reg later ih =>
      intro earlier r h
      have := ih (earlier ++ [reg]) (r.register reg) (register_honest r earlier h reg)
      rwa [List.append_assoc] at this
  refine hall regs [] {} ?_
  intro method path handler hm
  cases method <;> exact absurd hm (by simp [Router.matchRoute])

end MuServer
