import MuServer.ConnectionStart
import MuServer.ConnectionWrites

/-!
# The half-close

`shutdownInLoop` leaves the half-close to the write path when `EPOLLOUT` is
watched, and the write path never takes it up. `shutdownGuard` asks that it is
not needed, that behind an `EAGAIN` no bytes of the caller are left in the queue
and that one call of `shutdown` only gets as far as its store.
-/

set_option autoImplicit false

namespace MuServer
open Lib.Machine Lib.Tickets

variable {T : Type}

def Functor.isShutdown : Functor T → Bool
  | .shutdownInLoop _ _ => true
  | _ => false

def Control.isShutdown : Control T → Bool
  | .functor f => f.isShutdown
  | _ => false

namespace TcpConnection

def staysOpen (c : TcpConnection T) (a : Act T) : Bool :=
  match a with
  | .exec result =>
    match c.control, c.stack with
    | .frames, .handleClose::_ => false
    | .doWriting, _ => result ≠ .fails
    | _, _ => true
  | _ => true

def noneQueued [DecidableEq T] (c : TcpConnection T) (caller : Option T) (after : ℕ) : Bool :=
  c.contextQueue_.all (fun x => !(x.1.caller = caller && x.1.number < after))

def emptyFront (c : TcpConnection T) : Bool :=
  match c.contextQueue_ with
  | (_, ctx)::_ => ctx.remaining = 0
  | [] => false

/-- `EAGAIN` has ended `doWriting` and `EPOLLOUT` is not watched yet, or will not
be since the front context is empty. -/
def unwatched (c : TcpConnection T) : Bool := .enableWriting ∈ c.stack || c.emptyFront

def shutdownGuard [DecidableEq T] (c : TcpConnection T) (a : Act T) : Bool :=
  match a with
  | .exec _ =>
    match c.control, c.stack with
    | .functor (.shutdownInLoop caller after), _ =>
      !c.channel_.isWriting && (!c.unwatched || c.noneQueued caller after)
    | .frames, .shutdownStore::_ => c.state_ = .kConnected
    | .frames, .destroyStore::_ => c.state_ = .kConnected
    | _, _ => true
  | .store _ => c.state_ = .kConnected
  | _ => true

/-- The loop thread's next statement stores `state_` or is `shutdownInLoop`. -/
def marked (c : TcpConnection T) : Bool :=
  match c.control, c.stack with
  | .functor (.shutdownInLoop _ _), _ => true
  | .functor .connectEstablished, _ => true
  | .frames, .handleClose::_ => true
  | .frames, .shutdownStore::_ => true
  | .frames, .destroyStore::_ => true
  | _, _ => false

structure Plain (c c' : TcpConnection T) : Prop where
  state : c'.state_ = c.state_
  runs : c'.shutdownRuns = c.shutdownRuns
  halfCloses : c'.halfCloses = c.halfCloses
  control : ∀ f, c'.control ≠ .functor f

theorem runFunctor_plain (c : TcpConnection T) (f : Functor T) (hcontrol : c.control = .functor f)
    (hm : c.marked = false) : Plain c (c.runFunctor f) := by
  cases f with
  | sendInLoop call data =>
    simp only [runFunctor, sendInLoop]
    split
    · exact ⟨rfl, rfl, rfl, by simp [frames]⟩
    · exact ⟨rfl, rfl, rfl, by simp [enqueue]⟩
  | sendFileInLoop call file => exact ⟨rfl, rfl, rfl, by simp [runFunctor, sendFileInLoop, enqueue]⟩
  | connectDestroyed => exact ⟨rfl, rfl, rfl, by simp [runFunctor, frames]⟩
  | shutdownInLoop | connectEstablished => simp [marked, hcontrol] at hm

theorem doWriting_plain (c c' : TcpConnection T) (result : SocketResult)
    (hcontrol : c.control = .doWriting) (hs : c.doWriting result = some c') : Plain c c' := by
  have hc : ∀ f, c.control ≠ .functor f := by simp [hcontrol]
  cases doWriting_round c c' result hs with
  | empty | nothing | fails => exact ⟨rfl, rfl, rfl, by simp [frames, writeFails]⟩
  | progress => exact ⟨rfl, rfl, rfl, hc⟩
  | drains call ctx ctx' out =>
    obtain ⟨poller, channel, hd⟩ := drained_channel (c.issue.took call ctx' [] out)
    rw [hd]
    exact ⟨rfl, rfl, rfl, hc⟩
  | blocks =>
    obtain ⟨triggered, stack, hb, -⟩ := blocked_frames c.issue
    rw [hb]
    exact ⟨rfl, rfl, rfl, by simp [frames]⟩

theorem runFrame_plain (c c' : TcpConnection T) (stack : List Frame) (result : SocketResult)
    (frame : Frame) (hcontrol : c.control = .frames) (hstack : c.stack = frame::stack)
    (hs : c.runFrame stack result frame = some c') (hm : c.marked = false) : Plain c c' := by
  cases runFrame_framed c c' stack result frame hs with
  | handleRead | writes | writesNothing | handleError | closeCallback | writingAlready
  | enableWriting | removeChannel => exact ⟨rfl, rfl, rfl, by simp [frames]⟩
  | handleClose | shutdownStore | destroyStore => simp [marked, hcontrol, hstack] at hm

def asked (control : Control T) (pending : List (Functor T)) (runs : ℕ) : ℕ :=
  (if control.isShutdown then 1 else 0)+pending.countP Functor.isShutdown+runs

def NonePosting (threads : T → Phase T) : Prop :=
  ∀ t f, threads t = .posting f → f.isShutdown = false

def OnePosting (threads : T → Phase T) (calls : ℕ) : Prop :=
  calls = 0 ∧ ∃ t, ∀ u f, threads u = .posting f → f.isShutdown = true → u = t

structure Asked (state : StateE) (calls : ℕ) (threads : T → Phase T) : Prop where
  few : NonePosting threads ∧ calls ≤ 1 ∨ OnePosting threads calls
  unasked : state ≠ .kDisconnecting → calls = 0 ∧ NonePosting threads

def AskedSound (c : TcpConnection T) : Prop :=
  Asked c.state_ (asked c.control c.pendingFunctors_ c.shutdownRuns) c.threads

theorem asked_fresh (state state' : StateE) (calls : ℕ) (threads : T → Phase T)
    (h : Asked state calls threads) (hs : state ≠ .kDisconnecting) : Asked state' calls threads :=
  have hu := h.unasked hs
  ⟨Or.inl ⟨hu.2, by omega⟩, fun _ => hu⟩

theorem asked_thread [DecidableEq T] (state : StateE) (calls : ℕ) (threads : T → Phase T) (t : T)
    (phase : Phase T) (h : Asked state calls threads)
    (hp : ∀ f, phase = .posting f → f.isShutdown = false) :
    Asked state calls (Function.update threads t phase) := by
  have hnone : NonePosting threads → NonePosting (Function.update threads t phase) := by
    intro hn u f hu
    by_cases he : u = t
    · subst he
      rw [Function.update_self] at hu
      exact hp f hu
    · rw [Function.update_of_ne he] at hu
      exact hn u f hu
  constructor
  · rcases h.few with ⟨hn, hc⟩ | ⟨hc, v, hv⟩
    · exact Or.inl ⟨hnone hn, hc⟩
    · right
      refine ⟨hc, v, ?_⟩
      intro u f hu hf
      by_cases he : u = t
      · subst he
        rw [Function.update_self] at hu
        exact absurd ((hp f hu).symm.trans hf) (by simp)
      · rw [Function.update_of_ne he] at hu
        exact hv u f hu hf
  · intro hs
    exact ⟨(h.unasked hs).1, hnone (h.unasked hs).2⟩

theorem asked_frames (pending : List (Functor T)) (runs : ℕ) :
    asked .frames pending runs = pending.countP Functor.isShutdown+runs := by
  simp [asked, Control.isShutdown]

theorem plain_asked (c c' : TcpConnection T) (h : c.AskedSound) (hk : Kept c c') (hp : Plain c c')
    (hm : c.marked = false) : c'.AskedSound := by
  have hc : c.control.isShutdown = false := by
    cases hcontrol : c.control with
    | functor f => cases f <;> simp_all [marked, Control.isShutdown, Functor.isShutdown]
    | frames | doWriting => rfl
  have hc' : c'.control.isShutdown = false := by
    cases hcontrol : c'.control with
    | functor f => exact absurd hcontrol (hp.control f)
    | frames | doWriting => rfl
  unfold AskedSound at h ⊢
  rw [hp.state, hk.pending, hk.threads, hp.runs]
  have he : asked c'.control c.pendingFunctors_ c.shutdownRuns =
      asked c.control c.pendingFunctors_ c.shutdownRuns := by
    simp [asked, hc, hc']
  rwa [he]

theorem young_state (c : TcpConnection T) (ha : c.Aged)
    (hcontrol : c.control = .functor .connectEstablished) : c.Young := by
  rcases ha with hy | hg
  · exact hy
  · exact absurd hcontrol hg.control

theorem sendFunctor_isShutdown (c : TcpConnection T) (caller : Option T) (r : Request)
    (f : Functor T) (hf : c.sendFunctor caller r = some f) : f.isShutdown = false := by
  obtain ⟨data, rfl⟩ | ⟨file, rfl⟩ := c.sendFunctor_sends caller r f hf <;> rfl

variable [DecidableEq T]

theorem exec_asked (c c' : TcpConnection T) (result : SocketResult) (h : c.AskedSound)
    (ha : c.Aged) (ho : c.staysOpen (.exec result) = true)
    (hg : c.shutdownGuard (.exec result) = true) (hs : c.exec result = some c') :
    c'.AskedSound := by
  have hk := exec_kept c c' result hs
  cases exec_stepped c c' result hs with
  | writing _ _ hcontrol hw =>
    exact plain_asked c c' h hk (doWriting_plain c c' result hcontrol hw)
      (by simp [marked, hcontrol])
  | functor _ f hcontrol =>
    unfold AskedSound at h
    cases f with
    | shutdownInLoop caller after =>
      have hr : asked Control.frames c.pendingFunctors_ (c.shutdownRuns+1) =
          asked c.control c.pendingFunctors_ c.shutdownRuns := by
        simp only [asked, hcontrol, Control.isShutdown, Functor.isShutdown]
        simp
        omega
      rw [← hr] at h
      exact h
    | connectEstablished =>
      have hy := young_state c ha hcontrol
      have hr : asked Control.frames c.pendingFunctors_ c.shutdownRuns =
          asked c.control c.pendingFunctors_ c.shutdownRuns := by
        simp [asked, hcontrol, Control.isShutdown, Functor.isShutdown]
      rw [← hr] at h
      exact asked_fresh _ _ _ _ h (by simp [hy.state])
    | sendInLoop | sendFileInLoop | connectDestroyed =>
      have hm : c.marked = false := by simp [marked, hcontrol]
      exact plain_asked c _ h hk (runFunctor_plain c _ hcontrol hm) hm
  | frame _ frame stack _ hcontrol hstack hr =>
    unfold AskedSound at h
    cases frame with
    | handleClose => simp [staysOpen, hcontrol, hstack] at ho
    | shutdownStore =>
      have hstate : c.state_ = .kConnected := by simpa [shutdownGuard, hcontrol, hstack] using hg
      obtain ⟨hn, hthreads⟩ := h.unasked (by simp [hstate])
      rw [hcontrol, asked_frames] at hn
      obtain rfl := Option.some.inj hr
      refine ⟨Or.inl ⟨hthreads, ?_⟩, fun hne => absurd rfl hne⟩
      simp only [asked, Control.isShutdown, Functor.isShutdown, setStates, if_true]
      omega
    | destroyStore =>
      have hstate : c.state_ = .kConnected := by simpa [shutdownGuard, hcontrol, hstack] using hg
      rw [hcontrol] at h
      obtain rfl := Option.some.inj hr
      exact asked_fresh _ _ _ _ h (by simp [hstate])
    | user | handleRead | handleWrite | handleError | closeCallback | enableWriting
    | removeChannel =>
      have hm : c.marked = false := by simp [marked, hcontrol, hstack]
      exact plain_asked c c' h hk (runFrame_plain c c' stack result _ hcontrol hstack hr hm) hm

theorem store_asked (c : TcpConnection T) (t : T) (h : c.AskedSound)
    (hstate : c.state_ = .kConnected) : (c.store t).AskedSound := by
  obtain ⟨hn, hthreads⟩ := Asked.unasked h (by simp [hstate])
  refine ⟨Or.inr ⟨hn, t, ?_⟩, fun hne => absurd rfl hne⟩
  intro u f hu hf
  by_contra hne
  change Function.update c.threads t _ u = _ at hu
  rw [Function.update_of_ne hne] at hu
  exact absurd ((hthreads u f hu).symm.trans hf) (by simp)

theorem post_asked (c : TcpConnection T) (t : T) (f : Functor T) (h : c.AskedSound)
    (hposting : c.threads t = .posting f) :
    AskedSound { c.queueInLoop f with threads := Function.update c.threads t .idle } := by
  have hcount : asked c.control (c.pendingFunctors_ ++ [f]) c.shutdownRuns =
      asked c.control c.pendingFunctors_ c.shutdownRuns+(if f.isShutdown then 1 else 0) := by
    cases hf : f.isShutdown with
    | true =>
      simp [asked, hf]
      omega
    | false => simp [asked, hf]
  unfold AskedSound at h ⊢
  change Asked c.state_ (asked c.control (c.pendingFunctors_ ++ [f]) c.shutdownRuns)
    (Function.update c.threads t .idle)
  rw [hcount]
  cases hf : f.isShutdown with
  | false => exact asked_thread _ _ _ t .idle h (by simp)
  | true =>
    have hstate : c.state_ = .kDisconnecting := by
      by_contra hne
      exact absurd (((h.unasked hne).2 t f hposting).symm.trans hf) (by simp)
    rcases h.few with ⟨hn, -⟩ | ⟨hc, v, hv⟩
    · exact absurd ((hn t f hposting).symm.trans hf) (by simp)
    · refine ⟨Or.inl ⟨?_, by simp [hc]⟩, fun hne => absurd hstate hne⟩
      intro u g hu
      by_cases he : u = t
      · subst he
        rw [Function.update_self] at hu
        exact absurd hu (by simp)
      · rw [Function.update_of_ne he] at hu
        by_contra hg
        have h1 := hv u g hu (by simpa using hg)
        have h2 := hv t f hposting hf
        exact he (h1.trans h2.symm)

theorem step_asked (c : TcpConnection T) (a : Act T) (c' : TcpConnection T) (h : c.AskedSound)
    (ha : c.Aged) (ho : c.staysOpen a = true) (hg : c.shutdownGuard a = true)
    (hs : c.step a = some c') : c'.AskedSound := by
  cases step_stepped c a c' hs with
  | functor result | writing result | frame result => exact exec_asked c _ result h ha ho hg hs
  | pending f fs hcontrol hstack hactive hpending =>
    unfold AskedSound at h
    have hr : asked (.functor f) fs c.shutdownRuns =
        asked c.control c.pendingFunctors_ c.shutdownRuns := by
      rw [hcontrol, hpending]
      cases hf : f.isShutdown with
      | true =>
        simp [asked, Control.isShutdown, hf]
        omega
      | false => simp [asked, Control.isShutdown, hf]
    rw [← hr] at h
    exact h
  | sends r f hcontrol hstate hf =>
    unfold AskedSound at h
    have hr : asked (.functor f) c.pendingFunctors_ c.shutdownRuns =
        asked c.control c.pendingFunctors_ c.shutdownRuns := by
      simp [asked, hcontrol, Control.isShutdown, c.sendFunctor_isShutdown none r f hf]
    rw [← hr] at h
    exact h
  | calls t r f hidle hstate hf =>
    apply asked_thread _ _ _ t _ h
    intro g hg
    obtain rfl := Phase.posting.inj hg
    exact c.sendFunctor_isShutdown (some t) r f hf
  | callShutdown t => exact asked_thread _ _ _ t .storing h (by simp)
  | store t => exact store_asked c t h (by simpa [shutdownGuard] using hg)
  | post t f hposting => exact post_asked c t f h hposting
  | queueDestroyed =>
    unfold AskedSound at h
    have hr : asked c.control (c.pendingFunctors_ ++ [.connectDestroyed]) c.shutdownRuns =
        asked c.control c.pendingFunctors_ c.shutdownRuns := by
      simp [asked, Functor.isShutdown]
    rw [← hr] at h
    exact h
  | poll | handleEvent | userCode | refused | shutdowns | setHighWaterMark | userReturns
  | callRefused => exact h

end TcpConnection
end MuServer
