import MuServer.EventLoop
import MuServer.TcpServer

/-!
# The server with the queues of its loops

Each loop has one queue of functors for all its connections and one thread, which
calls them in order, handles the channels of one iteration one after the other and
is never in the code of two connections, but for user code that has called another
connection. A functor that was called is kept until `doPendingFunctors` ends.
-/

set_option autoImplicit false

namespace MuServer

inductive LoopFunctor (T : Type) where
  | conn (i : ℕ) (f : Functor T)
  | removeConnectionInLoop (i : ℕ)
  /-- a functor of the user -/
  | user
  deriving DecidableEq

/-- The connections of `server` have no queue of their own, nor has its base loop. -/
structure LoopServer (T L : Type) where
  /-- `loop_`, the loop of the acceptor -/
  base : L
  server : TcpServer T L := {}
  /-- functors come from callers and from the threads of the loops -/
  loops : L → EventLoop (LoopFunctor T) (T ⊕ L) := fun _ => {}
  /-- called, and still in the vector of `doPendingFunctors` -/
  spent : L → List (LoopFunctor T) := fun _ => []

inductive LoopServerAct (T L : Type) where
  /-- the acceptor's channel is handled -/
  | newConnection (fd : ℕ) (loop : L)
  /-- a step of a loop that runs no code of a connection -/
  | loop (l : L) (a : LoopAct (LoopFunctor T) (T ⊕ L))
  | callFunctor (l : L)
  | conn (i : ℕ) (a : Act T)
  | destruct (i : ℕ)
  | useFreed (i : ℕ)

namespace LoopFunctor

variable {T : Type}

def holds (i : ℕ) : LoopFunctor T → Bool
  | .conn j f => j = i && f.holds
  | .removeConnectionInLoop j => j = i
  | .user => false

def functor? (i : ℕ) : LoopFunctor T → Option (Functor T)
  | .conn j f => if j = i then some f else none
  | _ => none

def removal? : LoopFunctor T → Option ℕ
  | .removeConnectionInLoop i => some i
  | _ => none

end LoopFunctor

namespace LoopServer

variable {T L : Type}

variable [DecidableEq T] [DecidableEq L]

def busy (c : TcpConnection T) : Bool := !c.atRest && !c.inUser

def setLoop (s : LoopServer T L) (l : L) (loop : EventLoop (LoopFunctor T) (T ⊕ L)) :
    LoopServer T L :=
  { s with loops := Function.update s.loops l loop }

def queueInLoop (s : LoopServer T L) (thread : T ⊕ L) (l : L) (cb : LoopFunctor T) :
    Option (LoopServer T L) :=
  ((s.loops l).step (if thread = .inr l then .loopPush cb else .push thread cb)).map (s.setLoop l)

def allOf (s : LoopServer T L) (l : L) (P : ℕ → TcpConnection T → Bool) : Bool :=
  (List.range s.server.nextConnId_).all (fun i =>
    match s.server.conns i with
    | some h => h.loop ≠ l || P i h.conn
    | none => true)

def quiet (s : LoopServer T L) (l : L) : Bool := s.allOf l (fun _ c => c.atRest)

def handled (s : LoopServer T L) (l : L) : Bool := s.allOf l (fun _ c => c.active.isNone)

def betweenChannels (s : LoopServer T L) (l : L) : Bool :=
  (s.loops l).phase = .handlers && !(s.loops l).queueing && s.quiet l

def runs (s : LoopServer T L) (l : L) (i : ℕ) : Bool :=
  (s.loops l).inCallback && !(s.loops l).queueing && s.allOf l (fun j c => j = i || !busy c)

def admits (s : LoopServer T L) (i : ℕ) (h : Held T L) : Act T → Bool
  | .poll _ => (s.loops h.loop).phase = .poll
  | .handleEvent => s.betweenChannels h.loop
  | .userCode => s.runs h.loop i
  | .request _ => s.runs h.loop i
  | .setHighWaterMark _ => s.runs h.loop i
  | .userReturns => s.runs h.loop i
  | .exec _ => s.runs h.loop i
  | .call _ _ => true
  | .store _ => true
  | _ => false

def settled (s : LoopServer T L) (i : ℕ) (h : Held T L) (a : Act T) (c : TcpConnection T) :
    LoopServer T L :=
  { s with server := { s.server.settle i h a c with baseFunctors := [] } }

def callConn (s : LoopServer T L) (i : ℕ) (h : Held T L) (f : Functor T) : LoopServer T L :=
  s.settled i h .doPendingFunctor { s.server.attached h with control := .functor f }

def created (s : LoopServer T L) (fd : ℕ) (loop : L) : Held T L where
  conn := {
    channel_ := { fd_ := fd, owner := s.server.nextConnId_ }
    pendingFunctors_ := [] }
  loop := loop

def accept (s : LoopServer T L) (fd : ℕ) (loop : L) : LoopServer T L :=
  { s with server :=
      (s.server.newConnection fd loop).setConn s.server.nextConnId_ (s.created fd loop) }

def newConnection (s : LoopServer T L) (fd : ℕ) (loop : L) : Option (LoopServer T L) :=
  if loop = s.base then
    some ((s.accept fd loop).callConn s.server.nextConnId_ (s.created fd loop) .connectEstablished)
  else (s.accept fd loop).queueInLoop (.inr s.base) loop
    (.conn s.server.nextConnId_ .connectEstablished)

def unlisted (s : LoopServer T L) (i : ℕ) : LoopServer T L :=
  { s with server := { s.server with
      connections_ := s.server.connections_.erase i
      removed := s.server.removed ++ [i] } }

def removeConnectionInLoop (s : LoopServer T L) (i : ℕ) (loop : L) : Option (LoopServer T L) :=
  (s.unlisted i).queueInLoop (.inr s.base) loop (.conn i .connectDestroyed)

def removeConnection (s : LoopServer T L) (i : ℕ) (loop : L) : Option (LoopServer T L) :=
  if loop = s.base then s.removeConnectionInLoop i loop
  else s.queueInLoop (.inr loop) s.base (.removeConnectionInLoop i)

def post (s : LoopServer T L) (i : ℕ) (h : Held T L) (t : T) : Option (LoopServer T L) :=
  match h.conn.threads t with
  | .posting f => (s.settled i h (.post t) { s.server.attached h with
      threads := Function.update h.conn.threads t .idle }).queueInLoop (.inl t) h.loop (.conn i f)
  | _ => none

def stepConn (s : LoopServer T L) (i : ℕ) (h : Held T L) (a : Act T) : Option (LoopServer T L) :=
  if s.admits i h a then
    ((s.server.attached h).step a).bind (fun c =>
      if h.conn.firesClose a then (s.settled i h a c).removeConnection i h.loop
      else some (s.settled i h a c))
  else none

def call (s : LoopServer T L) : LoopFunctor T → Option (LoopServer T L)
  | .conn i f =>
    match s.server.conns i with
    | some h => if h.alive then some (s.callConn i h f) else none
    | none => none
  | .removeConnectionInLoop i =>
    match s.server.conns i with
    | some h => s.removeConnectionInLoop i h.loop
    | none => none
  | .user => some s

def taken (s : LoopServer T L) (l : L) (loop : EventLoop (LoopFunctor T) (T ⊕ L))
    (cb : LoopFunctor T) : LoopServer T L :=
  { s.setLoop l loop with spent := Function.update s.spent l (s.spent l ++ [cb]) }

def callFunctor (s : LoopServer T L) (l : L) : Option (LoopServer T L) :=
  match (s.loops l).batch with
  | cb::_ => ((s.loops l).step .callFunctor).bind (fun loop => (s.taken l loop cb).call cb)
  | [] => none

def released (s : LoopServer T L) (i : ℕ) (h : Held T L) : Bool :=
  i ∉ s.server.connections_ && h.conn.atRest && h.callers.isEmpty &&
    [h.loop, s.base].all (fun l =>
      ((s.loops l).waiting ++ s.spent l).all (fun cb => !cb.holds i))

def passes (s : LoopServer T L) (l : L) : LoopAct (LoopFunctor T) (T ⊕ L) → Bool
  | .push thread cb => thread ≠ .inr l && cb = .user
  | .loopPush cb => cb = .user
  | .handleRead => s.quiet l
  | .handlersEnd => s.quiet l && s.handled l
  | .callFunctor => false
  | .functorsEnd => s.quiet l
  | _ => true

def spentAfter (spent : List (LoopFunctor T)) : LoopAct (LoopFunctor T) (T ⊕ L) →
    List (LoopFunctor T)
  | .functorsEnd => []
  | _ => spent

def passed (s : LoopServer T L) (l : L) (a : LoopAct (LoopFunctor T) (T ⊕ L))
    (loop : EventLoop (LoopFunctor T) (T ⊕ L)) : LoopServer T L :=
  { s.setLoop l loop with spent := Function.update s.spent l (spentAfter (s.spent l) a) }

def comes (s : LoopServer T L) (i : ℕ) (h : Held T L) : Bool :=
  s.quiet h.loop && (((s.loops h.loop).phase = .handlers && h.conn.active.isSome) ||
    ((s.loops h.loop).batch.head?.bind (fun cb => cb.functor? i)).isSome)

def step (s : LoopServer T L) (a : LoopServerAct T L) : Option (LoopServer T L) :=
  if s.server.aborted || s.server.freedUse then none
  else
    match a with
    | .newConnection fd loop =>
      if s.betweenChannels s.base && fd ∉ s.server.openFds then s.newConnection fd loop else none
    | .loop l a =>
      if s.passes l a then ((s.loops l).step a).map (s.passed l a) else none
    | .callFunctor l => if s.quiet l then s.callFunctor l else none
    | .conn i a =>
      match s.server.conns i with
      | some h =>
        if h.alive then
          match a with
          | .post t => s.post i h t
          | a => s.stepConn i h a
        else none
      | none => none
    | .destruct i =>
      match s.server.conns i with
      | some h =>
        if h.alive && s.released i h then some { s with server := s.server.destruct i h } else none
      | none => none
    | .useFreed i =>
      match s.server.conns i with
      | some h =>
        if !h.alive && s.comes i h then
          some { s with server := { s.server with freedUse := true } }
        else none
      | none => none

structure Pushed (loop : EventLoop (LoopFunctor T) (T ⊕ L)) (cb : LoopFunctor T)
    (loop' : EventLoop (LoopFunctor T) (T ⊕ L)) : Prop where
  step : ∃ a, loop.step a = some loop'
  waiting : loop'.waiting = loop.waiting ++ [cb]
  phase : loop'.phase = loop.phase

theorem queueInLoop_pushed (s s' : LoopServer T L) (thread : T ⊕ L) (l : L) (cb : LoopFunctor T)
    (h : s.queueInLoop thread l cb = some s') :
    ∃ loop, Pushed (s.loops l) cb loop ∧ s' = s.setLoop l loop := by
  obtain ⟨loop, hstep, rfl⟩ := Option.map_eq_some_iff.mp h
  refine ⟨loop, ⟨⟨_, hstep⟩, ?_, ?_⟩, rfl⟩
  · split at hstep
    · obtain ⟨-, hstep⟩ := Option.ite_none_right_eq_some.mp hstep
      obtain rfl := Option.some.inj hstep
      exact (List.append_assoc _ _ _).symm
    · obtain ⟨-, hstep⟩ := Option.ite_none_left_eq_some.mp hstep
      obtain rfl := Option.some.inj hstep
      exact (List.append_assoc _ _ _).symm
  · split at hstep
    · obtain ⟨-, hstep⟩ := Option.ite_none_right_eq_some.mp hstep
      obtain rfl := Option.some.inj hstep
      rfl
    · obtain ⟨-, hstep⟩ := Option.ite_none_left_eq_some.mp hstep
      obtain rfl := Option.some.inj hstep
      rfl

inductive Stepped (s : LoopServer T L) : LoopServerAct T L → LoopServer T L → Prop
  | establishes (fd : ℕ) (hb : s.betweenChannels s.base = true) (hfd : fd ∉ s.server.openFds) :
      Stepped s (.newConnection fd s.base)
        ((s.accept fd s.base).callConn s.server.nextConnId_ (s.created fd s.base)
          .connectEstablished)
  | accepts (fd : ℕ) (l : L) (loop : EventLoop (LoopFunctor T) (T ⊕ L)) (hl : l ≠ s.base)
      (hfd : fd ∉ s.server.openFds)
      (hp : Pushed (s.loops l) (.conn s.server.nextConnId_ .connectEstablished) loop) :
      Stepped s (.newConnection fd l) ((s.accept fd l).setLoop l loop)
  | passes (l : L) (a : LoopAct (LoopFunctor T) (T ⊕ L))
      (loop : EventLoop (LoopFunctor T) (T ⊕ L)) (hp : s.passes l a = true)
      (hs : (s.loops l).step a = some loop) : Stepped s (.loop l a) (s.passed l a loop)
  | runs (i : ℕ) (h : Held T L) (a : Act T) (c : TcpConnection T) (hi : s.server.conns i = some h)
      (halive : h.alive = true) (ha : s.admits i h a = true)
      (hc : (s.server.attached h).step a = some c) (hf : h.conn.firesClose a = false) :
      Stepped s (.conn i a) (s.settled i h a c)
  | closes (i : ℕ) (h : Held T L) (a : Act T) (c : TcpConnection T)
      (loop : EventLoop (LoopFunctor T) (T ⊕ L)) (hi : s.server.conns i = some h)
      (halive : h.alive = true) (ha : s.admits i h a = true)
      (hc : (s.server.attached h).step a = some c) (hf : h.conn.firesClose a = true)
      (hl : h.loop = s.base) (hp : Pushed (s.loops s.base) (.conn i .connectDestroyed) loop) :
      Stepped s (.conn i a) (((s.settled i h a c).unlisted i).setLoop s.base loop)
  | closesAway (i : ℕ) (h : Held T L) (a : Act T) (c : TcpConnection T)
      (loop : EventLoop (LoopFunctor T) (T ⊕ L)) (hi : s.server.conns i = some h)
      (halive : h.alive = true) (ha : s.admits i h a = true)
      (hc : (s.server.attached h).step a = some c) (hf : h.conn.firesClose a = true)
      (hl : h.loop ≠ s.base) (hp : Pushed (s.loops s.base) (.removeConnectionInLoop i) loop) :
      Stepped s (.conn i a) ((s.settled i h a c).setLoop s.base loop)
  | posts (i : ℕ) (h : Held T L) (t : T) (f : Functor T)
      (loop : EventLoop (LoopFunctor T) (T ⊕ L)) (hi : s.server.conns i = some h)
      (halive : h.alive = true) (ht : h.conn.threads t = .posting f)
      (hp : Pushed (s.loops h.loop) (.conn i f) loop) :
      Stepped s (.conn i (.post t)) ((s.settled i h (.post t) { s.server.attached h with
        threads := Function.update h.conn.threads t .idle }).setLoop h.loop loop)
  | calls (l : L) (i : ℕ) (h : Held T L) (f : Functor T)
      (loop : EventLoop (LoopFunctor T) (T ⊕ L)) (hquiet : s.quiet l = true)
      (hs : (s.loops l).step .callFunctor = some loop)
      (hw : (s.loops l).waiting = .conn i f::loop.waiting) (hi : s.server.conns i = some h)
      (halive : h.alive = true) :
      Stepped s (.callFunctor l) ((s.taken l loop (.conn i f)).callConn i h f)
  | callsRemoval (l : L) (i : ℕ) (h : Held T L)
      (loop loop' : EventLoop (LoopFunctor T) (T ⊕ L)) (hquiet : s.quiet l = true)
      (hs : (s.loops l).step .callFunctor = some loop)
      (hw : (s.loops l).waiting = .removeConnectionInLoop i::loop.waiting)
      (hi : s.server.conns i = some h)
      (hp : Pushed ((s.taken l loop (.removeConnectionInLoop i)).loops h.loop)
        (.conn i .connectDestroyed) loop') :
      Stepped s (.callFunctor l)
        (((s.taken l loop (.removeConnectionInLoop i)).unlisted i).setLoop h.loop loop')
  | callsUser (l : L) (loop : EventLoop (LoopFunctor T) (T ⊕ L)) (hquiet : s.quiet l = true)
      (hs : (s.loops l).step .callFunctor = some loop)
      (hw : (s.loops l).waiting = .user::loop.waiting) :
      Stepped s (.callFunctor l) (s.taken l loop .user)
  | destruct (i : ℕ) (h : Held T L) (hi : s.server.conns i = some h) (halive : h.alive = true)
      (hr : s.released i h = true) :
      Stepped s (.destruct i) { s with server := s.server.destruct i h }
  | useFreed (i : ℕ) (h : Held T L) (hi : s.server.conns i = some h) (halive : h.alive = false)
      (hc : s.comes i h = true) :
      Stepped s (.useFreed i) { s with server := { s.server with freedUse := true } }

theorem callFunctor_taken (loop loop' : EventLoop (LoopFunctor T) (T ⊕ L)) (cb : LoopFunctor T)
    (cbs : List (LoopFunctor T)) (hb : loop.batch = cb::cbs)
    (hs : loop.step .callFunctor = some loop') : loop.waiting = cb::loop'.waiting := by
  obtain ⟨-, hs⟩ := Option.ite_none_left_eq_some.mp hs
  unfold EventLoop.batch at hb
  split at hb
  · rename_i current functors hphase
    subst hb
    simp only [EventLoop.loopStep, hphase] at hs
    obtain rfl := Option.some.inj hs
    simp [EventLoop.waiting, EventLoop.batch, hphase]
  · exact absurd hb (by simp)

theorem stepConn_stepped (s s' : LoopServer T L) (i : ℕ) (h : Held T L) (a : Act T)
    (hi : s.server.conns i = some h) (halive : h.alive = true)
    (hs : s.stepConn i h a = some s') : Stepped s (.conn i a) s' := by
  obtain ⟨ha, hs⟩ := Option.ite_none_right_eq_some.mp hs
  obtain ⟨c, hc, hs⟩ := Option.bind_eq_some_iff.mp hs
  split at hs
  · rename_i hf
    unfold removeConnection at hs
    split at hs
    · rename_i hl
      obtain ⟨loop, hp, rfl⟩ := queueInLoop_pushed _ _ _ _ _ hs
      rw [hl] at hp ⊢
      exact .closes i h a c loop hi halive ha hc hf hl hp
    · rename_i hl
      obtain ⟨loop, hp, rfl⟩ := queueInLoop_pushed _ _ _ _ _ hs
      exact .closesAway i h a c loop hi halive ha hc hf hl hp
  · rename_i hf
    obtain rfl := Option.some.inj hs
    exact .runs i h a c hi halive ha hc (by simpa using hf)

theorem post_stepped (s s' : LoopServer T L) (i : ℕ) (h : Held T L) (t : T)
    (hi : s.server.conns i = some h) (halive : h.alive = true) (hs : s.post i h t = some s') :
    Stepped s (.conn i (.post t)) s' := by
  unfold post at hs
  cases ht : h.conn.threads t with
  | posting f =>
    rw [ht] at hs
    obtain ⟨loop, hp, rfl⟩ := queueInLoop_pushed _ _ _ _ _ hs
    exact .posts i h t f loop hi halive ht hp
  | idle | storing =>
    rw [ht] at hs
    exact absurd hs (by simp)

theorem callFunctor_stepped (s s' : LoopServer T L) (l : L) (hquiet : s.quiet l = true)
    (hs : s.callFunctor l = some s') : Stepped s (.callFunctor l) s' := by
  unfold callFunctor at hs
  split at hs
  · rename_i cb cbs hb
    obtain ⟨loop, hloop, hs⟩ := Option.bind_eq_some_iff.mp hs
    have hw := callFunctor_taken _ loop cb cbs hb hloop
    cases cb with
    | conn i f =>
      simp only [call] at hs
      split at hs
      · rename_i h hi
        obtain ⟨halive, hs⟩ := Option.ite_none_right_eq_some.mp hs
        obtain rfl := Option.some.inj hs
        exact .calls l i h f loop hquiet hloop hw hi halive
      · exact absurd hs (by simp)
    | removeConnectionInLoop i =>
      simp only [call] at hs
      split at hs
      · rename_i h hi
        obtain ⟨loop', hp, rfl⟩ := queueInLoop_pushed _ _ _ _ _ hs
        exact .callsRemoval l i h loop loop' hquiet hloop hw hi hp
      · exact absurd hs (by simp)
    | user =>
      obtain rfl := Option.some.inj hs
      exact .callsUser l loop hquiet hloop hw
  · exact absurd hs (by simp)

theorem step_stepped (s s' : LoopServer T L) (a : LoopServerAct T L) (hs : s.step a = some s') :
    s.server.aborted = false ∧ s.server.freedUse = false ∧ Stepped s a s' := by
  unfold step at hs
  obtain ⟨hrun, hs⟩ := Option.ite_none_left_eq_some.mp hs
  simp only [Bool.or_eq_true, not_or, Bool.not_eq_true] at hrun
  refine ⟨hrun.1, hrun.2, ?_⟩
  cases a with
  | newConnection fd l =>
    obtain ⟨hok, hs⟩ := Option.ite_none_right_eq_some.mp hs
    simp only [Bool.and_eq_true, decide_eq_true_eq] at hok
    unfold newConnection at hs
    split at hs
    · rename_i hl
      subst hl
      obtain rfl := Option.some.inj hs
      exact .establishes fd hok.1 hok.2
    · rename_i hl
      obtain ⟨loop, hp, rfl⟩ := queueInLoop_pushed _ _ _ _ _ hs
      exact .accepts fd l loop hl hok.2 hp
  | loop l a =>
    obtain ⟨hp, hs⟩ := Option.ite_none_right_eq_some.mp hs
    obtain ⟨loop, hloop, rfl⟩ := Option.map_eq_some_iff.mp hs
    exact .passes l a loop hp hloop
  | callFunctor l =>
    obtain ⟨hquiet, hs⟩ := Option.ite_none_right_eq_some.mp hs
    exact callFunctor_stepped s s' l hquiet hs
  | conn i a =>
    simp only at hs
    split at hs
    · rename_i h hi
      obtain ⟨halive, hs⟩ := Option.ite_none_right_eq_some.mp hs
      cases a with
      | post t => exact post_stepped s s' i h t hi halive hs
      | _ => exact stepConn_stepped s s' i h _ hi halive hs
    · exact absurd hs (by simp)
  | destruct i =>
    simp only at hs
    split at hs
    · rename_i h hi
      obtain ⟨hok, hs⟩ := Option.ite_none_right_eq_some.mp hs
      obtain rfl := Option.some.inj hs
      simp only [Bool.and_eq_true] at hok
      exact .destruct i h hi hok.1 hok.2
    · exact absurd hs (by simp)
  | useFreed i =>
    simp only at hs
    split at hs
    · rename_i h hi
      obtain ⟨hok, hs⟩ := Option.ite_none_right_eq_some.mp hs
      obtain rfl := Option.some.inj hs
      simp only [Bool.and_eq_true, Bool.not_eq_true'] at hok
      exact .useFreed i h hi hok.1 hok.2
    · exact absurd hs (by simp)

end LoopServer
end MuServer
