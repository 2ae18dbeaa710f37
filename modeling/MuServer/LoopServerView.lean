import MuServer.LoopServer

/-!
# The queue of a connection

The code of a connection does not look at its pending functors, so that it does not
matter where they are kept. Seen from a connection, the queue of its loop is the
functors of this connection in it.
-/

set_option autoImplicit false

namespace MuServer
open Lib.Machine

variable {T L : Type}

def Act.code : Act T → Bool
  | .doPendingFunctor => false
  | .post _ => false
  | .queueDestroyed => false
  | _ => true

namespace TcpConnection

def withFunctors (c : TcpConnection T) (fs : List (Functor T)) : TcpConnection T :=
  { c with pendingFunctors_ := fs }

theorem runFunctor_withFunctors (c : TcpConnection T) (fs : List (Functor T)) (f : Functor T) :
    (c.withFunctors fs).runFunctor f = (c.runFunctor f).withFunctors fs := by
  cases f with
  | sendInLoop call data =>
    simp only [runFunctor, sendInLoop]
    change (if c.state_ = .kDisconnected then _ else _) = _
    split <;> rfl
  | sendFileInLoop | shutdownInLoop | connectEstablished | connectDestroyed => rfl

theorem drained_withFunctors (c : TcpConnection T) (fs : List (Functor T)) :
    (c.withFunctors fs).drained = c.drained.withFunctors fs := by
  unfold drained
  change (if c.channel_.isWriting then _ else _) = _
  split <;> rfl

theorem blocked_withFunctors (c : TcpConnection T) (fs : List (Functor T)) :
    (c.withFunctors fs).blocked = c.blocked.withFunctors fs := by
  unfold blocked
  change (if c.exceedsHighWater then _ else _) = _
  split <;> rfl

theorem afterWrite_withFunctors (c : TcpConnection T) (fs : List (Functor T)) (call : Call T)
    (ctx : Context) (rest : List (Call T × Context)) (result : SocketResult) :
    (c.withFunctors fs).afterWrite call ctx rest result =
      (c.afterWrite call ctx rest result).map (·.withFunctors fs) := by
  cases result with
  | bytes n =>
    simp only [afterWrite]
    cases ctx.writeToSocket n with
    | none => rfl
    | some r =>
      dsimp only
      split
      · exact congrArg some (drained_withFunctors (c.took call r.2 rest r.1) fs)
      · rfl
  | again =>
    simp only [afterWrite]
    split
    · exact congrArg some (blocked_withFunctors c fs)
    · rfl
  | fails => rfl

theorem doWriting_withFunctors (c : TcpConnection T) (fs : List (Functor T))
    (result : SocketResult) :
    (c.withFunctors fs).doWriting result = (c.doWriting result).map (·.withFunctors fs) := by
  unfold doWriting
  rw [show (c.withFunctors fs).contextQueue_ = c.contextQueue_ from rfl]
  cases c.contextQueue_ with
  | nil => rfl
  | cons front rest => exact afterWrite_withFunctors c.issue fs front.1 front.2 rest result

theorem runFrame_withFunctors (c : TcpConnection T) (fs : List (Functor T)) (stack : List Frame)
    (result : SocketResult) (frame : Frame) :
    (c.withFunctors fs).runFrame stack result frame =
      (c.runFrame stack result frame).map (·.withFunctors fs) := by
  cases frame with
  | handleWrite =>
    simp only [runFrame]
    change (if c.channel_.isWriting && !c.contextQueue_.isEmpty then _ else _) = _
    split <;> rfl
  | enableWriting =>
    simp only [runFrame]
    change (if c.channel_.isWriting then _ else _) = _
    split <;> rfl
  | user | handleRead | handleError | handleClose | closeCallback | shutdownStore | destroyStore
  | removeChannel => rfl

theorem exec_withFunctors (c : TcpConnection T) (fs : List (Functor T)) (result : SocketResult) :
    (c.withFunctors fs).exec result = (c.exec result).map (·.withFunctors fs) := by
  unfold exec
  rw [show (c.withFunctors fs).control = c.control from rfl]
  cases c.control with
  | functor f => exact congrArg some (runFunctor_withFunctors c fs f)
  | doWriting => exact doWriting_withFunctors c fs result
  | frames =>
    dsimp only
    rw [show (c.withFunctors fs).stack = c.stack from rfl]
    cases c.stack with
    | nil => rfl
    | cons frame stack => exact runFrame_withFunctors c fs stack result frame

variable [DecidableEq T]

theorem request_withFunctors (c : TcpConnection T) (fs : List (Functor T)) (r : Request) :
    (c.withFunctors fs).request r = (c.request r).withFunctors fs := by
  unfold request
  change (if c.state_ = .kConnected then _ else _) = _
  split
  · cases r <;> rfl
  · rfl

theorem call_withFunctors (c : TcpConnection T) (fs : List (Functor T)) (t : T) (r : Request) :
    (c.withFunctors fs).call t r = (c.call t r).withFunctors fs := by
  unfold call
  change (if c.state_ = .kConnected then _ else _) = _
  split
  · cases r <;> rfl
  · rfl

theorem step_withFunctors (c : TcpConnection T) (fs : List (Functor T)) (a : Act T)
    (ha : a.code = true) :
    (c.withFunctors fs).step a = (c.step a).map (·.withFunctors fs) := by
  cases a with
  | exec result => exact exec_withFunctors c fs result
  | poll revents =>
    simp only [step]
    change (if c.atRest && c.active.isNone && decide (c.channel_.index_ = .kAdded) then _
      else _) = _
    split <;> rfl
  | handleEvent =>
    simp only [step]
    rw [show (c.withFunctors fs).active = c.active from rfl]
    cases c.active with
    | none => rfl
    | some revents =>
      change (if c.atRest then _ else _) = _
      split <;> rfl
  | userCode =>
    simp only [step]
    change (if c.atRest then _ else _) = _
    split <;> rfl
  | request r =>
    simp only [step]
    change (if c.inUser then _ else _) = _
    split
    · exact congrArg some (request_withFunctors c fs r)
    · rfl
  | setHighWaterMark mark =>
    simp only [step]
    change (if c.inUser then _ else _) = _
    split <;> rfl
  | userReturns =>
    simp only [step]
    change (if c.inUser then _ else _) = _
    split <;> rfl
  | call t r =>
    simp only [step]
    change (if c.threads t = .idle then _ else _) = _
    split
    · exact congrArg some (call_withFunctors c fs t r)
    · rfl
  | store t =>
    simp only [step]
    change (if c.threads t = .storing then _ else _) = _
    split <;> rfl
  | doPendingFunctor | post | queueDestroyed => exact absurd ha (by simp [Act.code])

end TcpConnection

namespace LoopServer

def functorsOf (i : ℕ) (cbs : List (LoopFunctor T)) : List (Functor T) :=
  cbs.filterMap (fun cb => cb.functor? i)

def removals (cbs : List (LoopFunctor T)) : List ℕ := cbs.filterMap LoopFunctor.removal?

def shown (s : LoopServer T L) (i : ℕ) (h : Held T L) : Held T L :=
  { h with conn := h.conn.withFunctors (functorsOf i (s.loops h.loop).waiting) }

def view (s : LoopServer T L) : TcpServer T L :=
  { s.server with
    conns := fun i => (s.server.conns i).map (s.shown i)
    baseFunctors := removals (s.loops s.base).waiting }

theorem view_eq (s : LoopServer T L) (t : TcpServer T L)
    (hdata : t = { s.server with
      conns := t.conns
      baseFunctors := t.baseFunctors })
    (hconns : ∀ i, t.conns i = (s.server.conns i).map (s.shown i))
    (hbase : t.baseFunctors = removals (s.loops s.base).waiting) : t = s.view := by
  rw [hdata, hbase, show t.conns = _ from funext hconns]
  rfl

theorem view_conns (s : LoopServer T L) (i : ℕ) (h : Held T L) (hi : s.server.conns i = some h) :
    s.view.conns i = some (s.shown i h) := by
  simp only [view, hi, Option.map_some]

theorem shown_congr (s s' : LoopServer T L) (i : ℕ) (h : Held T L)
    (hw : functorsOf i (s'.loops h.loop).waiting = functorsOf i (s.loops h.loop).waiting) :
    s'.shown i h = s.shown i h := by
  rw [shown, shown, hw]

/-- Where one connection changes and the functors of the others stay. -/
theorem update_shown (s s' : LoopServer T L) (i : ℕ) (h : Held T L)
    (hconns : s'.server.conns = Function.update s.server.conns i (some h))
    (hw : ∀ j l, j ≠ i →
      functorsOf j (s'.loops l).waiting = functorsOf j (s.loops l).waiting) (j : ℕ) :
    Function.update s.view.conns i (some (s'.shown i h)) j =
      (s'.server.conns j).map (s'.shown j) := by
  rw [hconns]
  by_cases hj : j = i
  · subst hj
    rw [Function.update_self, Function.update_self]
    rfl
  · rw [Function.update_of_ne hj, Function.update_of_ne hj]
    refine Option.map_congr (fun k _ => ?_)
    exact (shown_congr s s' j k (hw j k.loop hj)).symm

theorem same_shown (s s' : LoopServer T L) (hconns : s'.server.conns = s.server.conns)
    (hw : ∀ j l, functorsOf j (s'.loops l).waiting = functorsOf j (s.loops l).waiting) (j : ℕ) :
    s.view.conns j = (s'.server.conns j).map (s'.shown j) := by
  rw [hconns]
  refine Option.map_congr (fun k _ => ?_)
  exact (shown_congr s s' j k (hw j k.loop)).symm

variable [DecidableEq T] [DecidableEq L]

omit [DecidableEq T] in
theorem pushed_functors (s : LoopServer T L) (l : L) (cb : LoopFunctor T)
    (loop : EventLoop (LoopFunctor T) (T ⊕ L)) (hw : loop.waiting = (s.loops l).waiting ++ [cb])
    (k : L) (j : ℕ) :
    functorsOf j ((s.setLoop l loop).loops k).waiting =
      functorsOf j (s.loops k).waiting ++ if k = l then (cb.functor? j).toList else [] := by
  change functorsOf j (Function.update s.loops l loop k).waiting = _
  by_cases hk : k = l
  · subst hk
    rw [Function.update_self, if_pos rfl, hw]
    simp [functorsOf, List.filterMap_append, List.filterMap_cons]
    cases cb.functor? j <;> rfl
  · rw [Function.update_of_ne hk, if_neg hk, List.append_nil]

omit [DecidableEq T] in
theorem pushed_removals (s : LoopServer T L) (l : L) (cb : LoopFunctor T)
    (loop : EventLoop (LoopFunctor T) (T ⊕ L)) (hw : loop.waiting = (s.loops l).waiting ++ [cb])
    (k : L) :
    removals ((s.setLoop l loop).loops k).waiting =
      removals (s.loops k).waiting ++ if k = l then cb.removal?.toList else [] := by
  change removals (Function.update s.loops l loop k).waiting = _
  by_cases hk : k = l
  · subst hk
    rw [Function.update_self, if_pos rfl, hw]
    simp [removals, List.filterMap_append, List.filterMap_cons]
    cases cb.removal? <;> rfl
  · rw [Function.update_of_ne hk, if_neg hk, List.append_nil]

omit [DecidableEq T] in
theorem taken_functors (s : LoopServer T L) (l : L) (cb : LoopFunctor T)
    (loop : EventLoop (LoopFunctor T) (T ⊕ L)) (hw : (s.loops l).waiting = cb::loop.waiting)
    (k : L) (j : ℕ) : functorsOf j (s.loops k).waiting =
      (if k = l then (cb.functor? j).toList else []) ++
        functorsOf j ((s.taken l loop cb).loops k).waiting := by
  change _ = _ ++ functorsOf j (Function.update s.loops l loop k).waiting
  by_cases hk : k = l
  · subst hk
    rw [Function.update_self, if_pos rfl, hw]
    simp only [functorsOf, List.filterMap_cons]
    cases cb.functor? j <;> rfl
  · rw [Function.update_of_ne hk, if_neg hk, List.nil_append]

omit [DecidableEq T] in
theorem taken_removals (s : LoopServer T L) (l : L) (cb : LoopFunctor T)
    (loop : EventLoop (LoopFunctor T) (T ⊕ L)) (hw : (s.loops l).waiting = cb::loop.waiting)
    (k : L) : removals (s.loops k).waiting = (if k = l then cb.removal?.toList else []) ++
      removals ((s.taken l loop cb).loops k).waiting := by
  change _ = _ ++ removals (Function.update s.loops l loop k).waiting
  by_cases hk : k = l
  · subst hk
    rw [Function.update_self, if_pos rfl, hw]
    simp only [removals, List.filterMap_cons]
    cases cb.removal? <;> rfl
  · rw [Function.update_of_ne hk, if_neg hk, List.nil_append]

theorem passed_waiting (s : LoopServer T L) (l : L) (a : LoopAct (LoopFunctor T) (T ⊕ L))
    (loop : EventLoop (LoopFunctor T) (T ⊕ L)) (hp : s.passes l a = true)
    (hs : (s.loops l).step a = some loop) :
    loop.waiting = (s.loops l).waiting ∨ loop.waiting = (s.loops l).waiting ++ [.user] := by
  cases a with
  | push thread cb =>
    obtain ⟨-, hs⟩ := Option.ite_none_left_eq_some.mp hs
    obtain rfl := Option.some.inj hs
    obtain rfl : cb = .user := by simpa [passes] using (Bool.and_eq_true_iff.mp hp).2
    exact Or.inr (List.append_assoc _ _ _).symm
  | loopPush cb =>
    obtain ⟨-, hs⟩ := Option.ite_none_right_eq_some.mp hs
    obtain rfl := Option.some.inj hs
    obtain rfl : cb = .user := by simpa [passes] using hp
    exact Or.inr (List.append_assoc _ _ _).symm
  | pushEnd thread =>
    obtain ⟨-, hs⟩ := Option.ite_none_right_eq_some.mp hs
    obtain rfl := Option.some.inj hs
    exact Or.inl ((s.loops l).pushTail_waiting false)
  | loopPushEnd =>
    obtain ⟨-, hs⟩ := Option.ite_none_right_eq_some.mp hs
    obtain rfl := Option.some.inj hs
    exact Or.inl ((s.loops l).pushTail_waiting true)
  | wakeup | quit =>
    obtain rfl := Option.some.inj hs
    exact Or.inl rfl
  | callFunctor => exact absurd hp (by simp [passes])
  | enterLoop | testQuit | pollReturns | handleRead | handlersEnd | swapFunctors | functorsEnd =>
    obtain ⟨-, hs⟩ := Option.ite_none_left_eq_some.mp hs
    exact Or.inl ((s.loops l).loopStep_waiting loop _ (by simp) hs)

end LoopServer
end MuServer
