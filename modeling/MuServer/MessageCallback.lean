import MuServer.BufferWords
import MuServer.ConnectionShutdown
import MuServer.Lib.Fallible

/-!
# A connection and its message callback

`handleRead` hands what it has read to `messageCallback_`, which makes its calls
of the connection one after the other, in the loop thread. No other code calls
the connection here. What the callback meets besides, `W`, may be different at
each read; what it keeps of its own is an `S`.
-/

set_option autoImplicit false

namespace MuServer
open Lib.Machine Lib.Fallible

/-- The calls that `messageCallback_` makes, what it keeps and the buffer. -/
abbrev MessageCallback (W S : Type) :=
  W → TimeStamp → S → Buffer → Except Fault (List Request × S × Buffer)

structure Incoming (W : Type) where
  surroundings : W
  receiveTime : TimeStamp
  data : Bytes
  deriving DecidableEq

structure Served (T W S : Type) where
  conn : TcpConnection T
  inputBuffer_ : Buffer := Buffer.create kInitialSize
  service : S
  /-- the calls that the callback has still to make -/
  calls : List Request := []
  /-- the height of the stack where the callback runs -/
  depth : ℕ := 0
  incoming : List (Incoming W) := []
  made : List Request := []

inductive ServeAct (T W : Type) where
  | conn (a : Act T)
  /-- `handleRead` reads some bytes -/
  | message (m : Incoming W)
  /-- the callback makes its next call -/
  | call

namespace Served

variable {T W S : Type}

def atRead [DecidableEq T] (s : Served T W S) : Bool :=
  s.conn.control = .frames ∧ s.conn.stack.head? = some .handleRead

def inCallback [DecidableEq T] (s : Served T W S) : Bool :=
  s.conn.inUser && s.conn.stack.length = s.depth

/-- A step that is neither a read of bytes nor a call by user code, and in which
the callback does not return too early. -/
def own [DecidableEq T] (s : Served T W S) : Act T → Bool
  | .request _ => false
  | .call _ _ => false
  | .setHighWaterMark _ => false
  | .userReturns => s.calls.isEmpty || !s.inCallback
  | .exec (.bytes (_+1)) => !s.atRead
  | _ => true

variable (callback : MessageCallback W S)

def handleRead (s : Served T W S) (m : Incoming W) (c : TcpConnection T) :
    Except Fault (Served T W S) := do
  let buffer ← s.inputBuffer_.readFd m.data
  let (calls, service, buffer) ← callback m.surroundings m.receiveTime s.service buffer
  .ok { s with
    conn := c
    inputBuffer_ := buffer
    service := service
    calls := calls
    depth := c.stack.length
    incoming := s.incoming ++ [m] }

variable [DecidableEq T]

def step (s : Served T W S) : ServeAct T W → Option (Served T W S)
  | .conn a =>
    if s.own a then (s.conn.step a).map (fun c => { s with conn := c }) else none
  | .message m =>
    if s.atRead && s.calls.isEmpty && m.data ≠ [] && m.data.length ≤ s.inputBuffer_.iovecLength then
      (s.conn.step (.exec (.bytes m.data.length))).bind (fun c =>
        (s.handleRead callback m c).toOption)
    else none
  | .call =>
    match s.calls with
    | r::calls =>
      if s.inCallback then
        (s.conn.step (.request r)).map (fun c =>
          { s with conn := c, calls := calls, made := s.made ++ [r] })
      else none
    | [] => none

def start (fd owner : ℕ) (service : S) : Served T W S :=
  { conn := .start fd owner, service := service }

inductive Stepped (s : Served T W S) : ServeAct T W → Served T W S → Prop
  | conn (a : Act T) (c : TcpConnection T) (ho : s.own a = true) (hc : s.conn.step a = some c) :
      Stepped s (.conn a) { s with conn := c }
  | message (m : Incoming W) (c : TcpConnection T) (s' : Served T W S) (hr : s.atRead = true)
      (hcalls : s.calls = []) (hdata : m.data ≠ [])
      (hc : s.conn.step (.exec (.bytes m.data.length)) = some c)
      (hs : s.handleRead callback m c = .ok s') : Stepped s (.message m) s'
  | call (r : Request) (calls : List Request) (c : TcpConnection T) (hcalls : s.calls = r::calls)
      (hin : s.inCallback = true) (hc : s.conn.step (.request r) = some c) :
      Stepped s .call { s with conn := c, calls := calls, made := s.made ++ [r] }

theorem step_stepped (s : Served T W S) (a : ServeAct T W) (s' : Served T W S)
    (hs : s.step callback a = some s') : s.Stepped callback a s' := by
  cases a with
  | conn a =>
    obtain ⟨ho, hs⟩ := Option.ite_none_right_eq_some.mp hs
    obtain ⟨c, hc, rfl⟩ := Option.map_eq_some_iff.mp hs
    exact .conn a c ho hc
  | message m =>
    obtain ⟨hok, hs⟩ := Option.ite_none_right_eq_some.mp hs
    simp only [Bool.and_eq_true, List.isEmpty_iff, decide_eq_true_eq] at hok
    obtain ⟨c, hc, hs⟩ := Option.bind_eq_some_iff.mp hs
    refine .message m c s' hok.1.1.1 hok.1.1.2 (by simpa using hok.1.2) hc ?_
    cases hr : s.handleRead callback m c with
    | error f => simp [hr, Except.toOption] at hs
    | ok t =>
      rw [hr] at hs
      rw [Option.some.inj hs]
  | call =>
    simp only [step] at hs
    split at hs
    · rename_i r calls hcalls
      obtain ⟨hin, hs⟩ := Option.ite_none_right_eq_some.mp hs
      obtain ⟨c, hc, rfl⟩ := Option.map_eq_some_iff.mp hs
      exact .call r calls c hcalls hin hc
    · exact absurd hs (by simp)

omit [DecidableEq T] in
theorem handleRead_ok (s : Served T W S) (m : Incoming W) (c : TcpConnection T) (s' : Served T W S)
    (hs : s.handleRead callback m c = .ok s') : ∃ buffer, s.inputBuffer_.readFd m.data = .ok buffer ∧
      ∃ calls service buffer', callback m.surroundings m.receiveTime s.service buffer =
          .ok (calls, service, buffer') ∧
        s' = { s with
          conn := c
          inputBuffer_ := buffer'
          service := service
          calls := calls
          depth := c.stack.length
          incoming := s.incoming ++ [m] } := by
  obtain ⟨buffer, hread, hs⟩ := bind_eq_ok hs
  obtain ⟨⟨calls, service, buffer'⟩, hcb, hs⟩ := bind_eq_ok hs
  exact ⟨buffer, hread, calls, service, buffer', hcb, (Except.ok.inj hs).symm⟩

theorem step_conn (s : Served T W S) (a : ServeAct T W) (s' : Served T W S)
    (hs : s.step callback a = some s') : ∃ b, s.conn.step b = some s'.conn := by
  cases step_stepped callback s a s' hs with
  | conn b c ho hc => exact ⟨b, hc⟩
  | message m c _ hr hcalls hdata hc hok =>
    obtain ⟨buffer, -, calls, service, buffer', -, rfl⟩ := handleRead_ok callback s m c s' hok
    exact ⟨_, hc⟩
  | call r calls c hcalls hin hc => exact ⟨_, hc⟩

theorem reach_conn (fd owner : ℕ) (service : S) (ok : Served T W S → ServeAct T W → Prop)
    (s : Served T W S) (h : Reach (step callback) ok (start fd owner service) s) :
    Reach TcpConnection.step (fun _ _ => True) (TcpConnection.start fd owner) s.conn := by
  induction h with
  | refl => exact .refl
  | next s a t _ _ ht ih =>
    obtain ⟨b, hb⟩ := step_conn callback s a t ht
    exact .next s.conn b t.conn ih trivial hb

def replies (service : S) (buffer : Buffer) :
    List (Incoming W) → Except Fault (List Request × S × Buffer)
  | [] => .ok ([], service, buffer)
  | m::ms => do
    let buffer ← buffer.readFd m.data
    let (calls, service, buffer) ← callback m.surroundings m.receiveTime service buffer
    let (later, service, buffer) ← replies service buffer ms
    .ok (calls ++ later, service, buffer)

theorem replies_snoc (ms : List (Incoming W)) (m : Incoming W) (service service' service'' : S)
    (b b' b'' c : Buffer) (calls later : List Request)
    (hms : replies callback service b ms = .ok (calls, service', b'))
    (hread : b'.readFd m.data = .ok b'')
    (hm : callback m.surroundings m.receiveTime service' b'' = .ok (later, service'', c)) :
    replies callback service b (ms ++ [m]) = .ok (calls ++ later, service'', c) := by
  induction ms generalizing service b calls with
  | nil =>
    obtain ⟨rfl, rfl, rfl⟩ : calls = [] ∧ service' = service ∧ b' = b := by
      simpa [replies, eq_comm] using hms
    simp [replies, hread, hm, bind, Except.bind]
  | cons n ms ih =>
    obtain ⟨bn, hn, hms⟩ := bind_eq_ok hms
    obtain ⟨⟨first, service1, b1⟩, hfirst, hms⟩ := bind_eq_ok hms
    obtain ⟨⟨more, service2, b2⟩, hmore, hms⟩ := bind_eq_ok hms
    obtain ⟨rfl, rfl, rfl⟩ : first ++ more = calls ∧ service2 = service' ∧ b2 = b' := by
      simpa using hms
    simp only [replies, List.cons_append, bind, Except.bind, hn, hfirst,
      ih service1 b1 more hmore, List.append_assoc]

def Replied (service : S) (s : Served T W S) : Prop :=
  replies callback service (Buffer.create kInitialSize) s.incoming =
    .ok (s.made ++ s.calls, s.service, s.inputBuffer_)

omit [DecidableEq T] in
theorem start_replied (fd owner : ℕ) (service : S) :
    Replied callback service (start (T := T) fd owner service) := rfl

theorem step_replied (service : S) (s : Served T W S) (a : ServeAct T W) (s' : Served T W S)
    (h : Replied callback service s) (hs : s.step callback a = some s') :
    Replied callback service s' := by
  unfold Replied at h ⊢
  cases step_stepped callback s a s' hs with
  | conn b c ho hc => exact h
  | message m c _ hr hcalls hdata hc hok =>
    obtain ⟨buffer, hread, calls, service', buffer', hcb, rfl⟩ := handleRead_ok callback s m c s' hok
    rw [hcalls, List.append_nil] at h
    exact replies_snoc callback _ m _ _ _ _ _ _ _ _ _ h hread hcb
  | call r calls c hcalls hin hc =>
    rw [hcalls] at h
    rwa [List.append_assoc]

end Served

def Request.payload? : Request → Option Bytes
  | .send data => some data
  | .sendFile file => some file.payload
  | .shutdown => none

def handedOver (calls : List Request) : List Bytes := calls.filterMap Request.payload?

variable {T W S : Type}

def Functor.payloads : Functor T → List Bytes
  | .sendInLoop _ data => [data]
  | .sendFileInLoop _ file => [file.payload]
  | _ => []

def Control.payloads : Control T → List Bytes
  | .functor f => f.payloads
  | _ => []

namespace TcpConnection

def handed (c : TcpConnection T) : List Bytes := c.queued.map Prod.snd ++ c.control.payloads

theorem sendFunctor_payloads (c : TcpConnection T) (caller : Option T) (r : Request)
    (f : Functor T) (hf : c.sendFunctor caller r = some f) : f.payloads = handedOver [r] := by
  cases r with
  | send data =>
    obtain rfl := Option.some.inj hf
    rfl
  | sendFile file =>
    obtain rfl := Option.some.inj hf
    rfl
  | shutdown => exact absurd hf (by simp [sendFunctor])

/-- Up to the loss of the connection everything has been handed over that was
called for, and behind it no more than that. -/
structure Passed (c : TcpConnection T) (made : List Bytes) : Prop where
  initial : c.handed <+: made
  all : c.state_ = .kConnected → c.handed = made

theorem passed_same (c c' : TcpConnection T) (made : List Bytes) (h : c.Passed made)
    (hh : c'.handed = c.handed) (hs : c'.state_ = .kConnected → c.state_ = .kConnected) :
    c'.Passed made where
  initial := by
    rw [hh]
    exact h.initial
  all := fun hc => hh.trans (h.all (hs hc))

theorem handed_nothing (c : TcpConnection T) (f : Functor T) (hcontrol : c.control = .functor f)
    (hf : f.payloads = []) : c.handed = c.queued.map Prod.snd := by
  rw [handed, hcontrol]
  exact (congrArg _ hf).trans (List.append_nil _)

theorem handed_frames (c : TcpConnection T) (hcontrol : c.control = .frames) :
    c.handed = c.queued.map Prod.snd := by
  rw [handed, hcontrol]
  exact List.append_nil _

theorem doWriting_handed (c c' : TcpConnection T) (result : SocketResult)
    (hcontrol : c.control = .doWriting) (hs : c.doWriting result = some c') :
    c'.handed = c.handed ∧ c'.state_ = c.state_ := by
  have hc : c.handed = c.queued.map Prod.snd := by
    rw [handed, hcontrol]
    exact List.append_nil _
  cases doWriting_round c c' result hs with
  | empty | nothing | fails => exact ⟨(handed_frames _ rfl).trans hc.symm, rfl⟩
  | progress => exact ⟨rfl, rfl⟩
  | drains call ctx ctx' out =>
    obtain ⟨poller, channel, hd⟩ := drained_channel (c.issue.took call ctx' [] out)
    rw [hd]
    exact ⟨rfl, rfl⟩
  | blocks =>
    obtain ⟨triggered, stack, hb, -⟩ := blocked_frames c.issue
    rw [hb]
    exact ⟨(handed_frames _ rfl).trans hc.symm, rfl⟩

variable [DecidableEq T]

/-- A statement of the loop thread loses at most what it was about to queue, and
that only when the connection is lost. -/
theorem exec_passed (c c' : TcpConnection T) (result : SocketResult) (made : List Bytes)
    (h : c.Passed made) (hs : c.exec result = some c')
    (hestablish : c.control = .functor .connectEstablished → made = []) : c'.Passed made := by
  cases exec_stepped c c' result hs with
  | writing _ _ hcontrol hw =>
    obtain ⟨hh, hstate⟩ := doWriting_handed c c' result hcontrol hw
    exact passed_same c c' made h hh (by rw [hstate]; exact id)
  | functor _ f hcontrol =>
    cases f with
    | sendInLoop call data =>
      have hc : c.handed = c.queued.map Prod.snd ++ [data] := by
        rw [handed, hcontrol]
        rfl
      simp only [runFunctor, sendInLoop]
      split
      · rename_i hstate
        refine ⟨?_, fun hne => absurd (hstate.symm.trans hne) (by simp)⟩
        rw [handed_frames _ rfl]
        exact (List.prefix_append _ [data]).trans (hc ▸ h.initial)
      · refine passed_same c _ made h ?_ id
        rw [hc]
        simp [handed, enqueue, Control.payloads]
    | sendFileInLoop call file =>
      refine passed_same c _ made h ?_ id
      rw [handed, handed, hcontrol]
      simp [runFunctor, sendFileInLoop, enqueue, Control.payloads, Functor.payloads]
    | connectEstablished =>
      obtain rfl := hestablish hcontrol
      have hc := handed_nothing c _ hcontrol rfl
      have hnone : c.queued.map Prod.snd = [] := by
        rw [← hc]
        exact List.prefix_nil.mp h.initial
      refine ⟨?_, fun _ => ?_⟩
      · rw [handed_frames _ rfl]
        exact hnone ▸ List.prefix_refl _
      · rw [handed_frames _ rfl]
        exact hnone
    | shutdownInLoop | connectDestroyed =>
      refine passed_same c _ made h ?_ id
      rw [handed_frames _ rfl, handed_nothing c _ hcontrol rfl]
      rfl
  | frame _ frame stack _ hcontrol hstack hr =>
    have hc := handed_frames c hcontrol
    cases runFrame_framed c c' stack result frame hr with
    | handleRead | handleError | closeCallback | writingAlready | enableWriting | removeChannel
    | writesNothing | writes =>
      refine passed_same c _ made h ?_ id
      rw [hc]
      simp [handed, frames, Control.payloads, removeChannel, TcpConnection.enableWriting,
        updateChannel]
    | handleClose | shutdownStore | destroyStore =>
      refine passed_same c _ made h ?_ (fun hne => absurd hne (by
        simp [TcpConnection.handleClose, setStates, frames, disableAll, updateChannel]))
      rw [hc]
      simp [handed, frames, Control.payloads, Functor.payloads, setStates, disableAll,
        updateChannel, TcpConnection.handleClose]

theorem request_passed (c c' : TcpConnection T) (r : Request) (made : List Bytes)
    (h : c.Passed made) (hs : c.step (.request r) = some c') : c'.Passed (made ++ handedOver [r]) := by
  have hmore : c.state_ ≠ .kConnected → c.Passed (made ++ handedOver [r]) := fun hne =>
    ⟨h.initial.trans (List.prefix_append _ _), fun hc => absurd hc hne⟩
  cases step_stepped c _ c' hs with
  | refused _ hstate => exact hmore hstate
  | sends _ f hcontrol hstate hf =>
    have hall : c.handed ++ f.payloads = made ++ handedOver [r] := by
      rw [h.all hstate, c.sendFunctor_payloads none r f hf]
    have hc : handed { c.accept none with control := .functor f } = made ++ handedOver [r] := by
      rw [← hall, handed_frames c hcontrol]
      rfl
    exact ⟨hc ▸ List.prefix_refl _, fun _ => hc⟩
  | shutdowns hcontrol hstate =>
    refine ⟨?_, fun hc => ?_⟩
    · exact h.initial.trans (List.prefix_append _ _)
    · exact (h.all hc).trans (List.append_nil _).symm

end TcpConnection

namespace Served

/-- No other thread calls the connection, and the callback runs behind
`connectEstablished`. -/
structure Sole (s : Served T W S) : Prop where
  threads : ∀ t, s.conn.threads t = .idle
  pending : ∀ f ∈ s.conn.pendingFunctors_, f = .connectEstablished ∨ f = .connectDestroyed
  early : s.conn.established = 0 → s.made = [] ∧ s.calls = []

structure Sound (s : Served T W S) : Prop extends Sole s where
  aged : s.conn.Aged
  passed : s.conn.Passed (handedOver s.made)

theorem start_sound (fd owner : ℕ) (service : S) :
    (start (T := T) (W := W) fd owner service).Sound where
  threads := fun _ => rfl
  pending := by simp [start, TcpConnection.start]
  early := fun _ => ⟨rfl, rfl⟩
  aged := Or.inl (TcpConnection.start_young fd owner)
  passed := ⟨List.prefix_refl _, fun _ => rfl⟩

variable [DecidableEq T]

theorem exec_established (c c' : TcpConnection T) (result : SocketResult)
    (hs : c.exec result = some c') (he : c'.established = 0) : c.established = 0 := by
  by_cases hcontrol : c.control = .functor .connectEstablished
  · cases TcpConnection.exec_stepped c c' result hs with
    | functor _ f hf =>
      obtain rfl := Control.functor.inj (hf.symm.trans hcontrol)
      exact absurd he (Nat.succ_ne_zero _)
    | writing _ _ hw => exact absurd (hw.symm.trans hcontrol) (by simp)
    | frame _ frame stack _ hf => exact absurd (hf.symm.trans hcontrol) (by simp)
  · rwa [← (TcpConnection.exec_kept c c' result hs).established hcontrol]

theorem atRead_established (s : Served T W S) (ha : s.conn.Aged) (hr : s.atRead = true) :
    s.conn.established ≠ 0 := by
  rcases ha with hy | hg
  · simp only [atRead, decide_eq_true_eq] at hr
    obtain ⟨stack, hstack⟩ := List.head?_eq_some_iff.mp hr.2
    exact absurd (hy.stack .handleRead (by simp [hstack])) (by simp)
  · rw [hg.established]
    exact Nat.one_ne_zero

/-- A statement of the loop thread, with calls that are only early ones when
they were. -/
theorem exec_sound (s : Served T W S) (h : s.Sound) (result : SocketResult) (c : TcpConnection T)
    (hs : s.conn.exec result = some c) (s' : Served T W S) (hconn : s'.conn = c)
    (hmade : s'.made = s.made) (hcalls : s.conn.established = 0 → s'.calls = s.calls) :
    s'.Sound := by
  obtain rfl := hconn
  have hk := TcpConnection.exec_kept s.conn s'.conn result hs
  refine ⟨⟨?_, ?_, fun he => ?_⟩, TcpConnection.step_aged _ (.exec result) _ h.aged hs, ?_⟩
  · rw [hk.threads]
    exact h.threads
  · rw [hk.pending]
    exact h.pending
  · have he' := exec_established _ _ result hs he
    rw [hmade, hcalls he']
    exact h.early he'
  · rw [hmade]
    refine TcpConnection.exec_passed _ _ result _ h.passed hs (fun hcontrol => ?_)
    have hy := TcpConnection.young_state _ h.aged hcontrol
    rw [(h.early hy.established).1]
    rfl

theorem conn_sound (s : Served T W S) (h : s.Sound) (a : Act T) (c : TcpConnection T)
    (ho : s.own a = true) (hc : s.conn.step a = some c) : Sound { s with conn := c } := by
  have ha := TcpConnection.step_aged s.conn a c h.aged hc
  cases TcpConnection.step_stepped s.conn a c hc with
  | functor result | writing result | frame result =>
    exact exec_sound s h result _ hc _ rfl rfl (fun _ => rfl)
  | pending f fs hcontrol hstack hactive hpending =>
    have hf : f.payloads = [] := by
      rcases h.pending f (by simp [hpending]) with rfl | rfl <;> rfl
    refine ⟨⟨h.threads, fun g hg => h.pending g (by simp [hpending, hg]), h.early⟩, ha, ?_⟩
    refine TcpConnection.passed_same _ _ _ h.passed ?_ id
    rw [TcpConnection.handed_frames s.conn hcontrol, TcpConnection.handed_nothing _ f rfl hf]
  | queueDestroyed =>
    refine ⟨⟨h.threads, fun g hg => ?_, h.early⟩, ha,
      TcpConnection.passed_same _ _ _ h.passed rfl id⟩
    rcases List.mem_append.mp hg with hg | hg
    · exact h.pending g hg
    · exact Or.inr (List.mem_singleton.mp hg)
  | store t hstoring => exact absurd (hstoring.symm.trans (h.threads t)) (by simp)
  | post t f hposting => exact absurd (hposting.symm.trans (h.threads t)) (by simp)
  | refused | sends | shutdowns | setHighWaterMark | callRefused | calls | callShutdown =>
    exact absurd ho (by simp [own])
  | poll | handleEvent | userCode | userReturns =>
    exact ⟨⟨h.threads, h.pending, h.early⟩, ha, TcpConnection.passed_same _ _ _ h.passed rfl id⟩

variable (callback : MessageCallback W S)

theorem step_sound (s : Served T W S) (a : ServeAct T W) (s' : Served T W S) (h : s.Sound)
    (hs : s.step callback a = some s') : s'.Sound := by
  cases step_stepped callback s a s' hs with
  | conn a c ho hc => exact conn_sound s h a c ho hc
  | message m c _ hr hcalls hdata hc hok =>
    obtain ⟨buffer, -, calls, service, buffer', -, rfl⟩ := handleRead_ok callback s m c s' hok
    exact exec_sound s h _ c hc _ rfl rfl
      (fun he => absurd he (atRead_established s h.aged hr))
  | call r calls c hcalls hin hc =>
    have hnot : s.conn.established ≠ 0 := by
      intro he
      rw [(h.early he).2] at hcalls
      exact absurd hcalls (by simp)
    have hp := TcpConnection.request_passed s.conn c r _ h.passed hc
    have happend : handedOver (s.made ++ [r]) = handedOver s.made ++ handedOver [r] :=
      List.filterMap_append
    rw [← happend] at hp
    have ha := TcpConnection.step_aged s.conn _ c h.aged hc
    cases TcpConnection.step_stepped s.conn _ c hc with
    | refused | sends | shutdowns =>
      exact ⟨⟨h.threads, h.pending, fun he => absurd he hnot⟩, ha, hp⟩

theorem reach_sound (fd owner : ℕ) (service : S) (ok : Served T W S → ServeAct T W → Prop)
    (s : Served T W S) (h : Reach (step callback) ok (start fd owner service) s) : s.Sound :=
  reach_invariant _ _ _ Sound (start_sound fd owner service)
    (fun s a t hs _ ht => step_sound callback s a t hs ht) s h

theorem reach_replied (fd owner : ℕ) (service : S) (ok : Served T W S → ServeAct T W → Prop)
    (s : Served T W S) (h : Reach (step callback) ok (start fd owner service) s) :
    Replied callback service s :=
  reach_invariant _ _ _ (Replied callback service) (start_replied callback fd owner service)
    (fun s a t hs _ ht => step_replied callback service s a t hs ht) s h

/-- A read that is handed on has brought some bytes, and was allowed. -/
theorem reach_incoming (fd owner : ℕ) (service : S) (ok : Served T W S → ServeAct T W → Prop)
    (P : Incoming W → Prop) (hP : ∀ s m, ok s (.message m) → P m) (s : Served T W S)
    (h : Reach (step callback) ok (start fd owner service) s) :
    ∀ m ∈ s.incoming, m.data ≠ [] ∧ P m := by
  refine reach_invariant _ _ _ (fun s => ∀ m ∈ s.incoming, m.data ≠ [] ∧ P m) (by simp [start])
    ?_ s h
  rintro s a t hs hok ht
  cases step_stepped callback s a t ht with
  | conn | call => exact hs
  | message m c _ hr hcalls hdata hc hm =>
    obtain ⟨buffer, -, calls, service, buffer', -, rfl⟩ := handleRead_ok callback s m c t hm
    intro n hn
    rcases List.mem_append.mp hn with hn | hn
    · exact hs n hn
    · rw [List.mem_singleton.mp hn]
      exact ⟨hdata, hP s m hok⟩

theorem reach_writesSound (fd owner : ℕ) (service : S) (ok : Served T W S → ServeAct T W → Prop)
    (s : Served T W S) (h : Reach (step callback) ok (start fd owner service) s) :
    s.conn.WritesSound :=
  reach_invariant _ _ _ TcpConnection.WritesSound (TcpConnection.start_writes fd owner)
    (fun s a t hs _ ht => TcpConnection.step_writes s a t hs ht) s.conn
    (reach_conn callback fd owner service ok s h)

/-- While the connection is up and nothing is queued the wire has all that the
callback has handed over. -/
theorem reach_wire_whole (fd owner : ℕ) (service : S) (ok : Served T W S → ServeAct T W → Prop)
    (s : Served T W S) (h : Reach (step callback) ok (start fd owner service) s)
    (herr : s.conn.hardErrors = 0) (hstate : s.conn.state_ = .kConnected)
    (hcontrol : s.conn.control = .frames) (hqueue : s.conn.contextQueue_ = []) :
    s.conn.wire = (handedOver s.made).flatten := by
  have hs := reach_sound callback fd owner service ok s h
  have hw := reach_writesSound callback fd owner service ok s h herr
  rw [hqueue] at hw
  rw [← hs.passed.all hstate, TcpConnection.handed_frames s.conn hcontrol, hw.queued_eq, hw.wire_eq]
  simp [payloads, frontSent]

end Served
end MuServer
