import MuServer.LoopServerPlaced

/-!
# Runs of the server with its loops

A run of the loops with their queues is, seen from the connections, a run of the
server whose connections have queues of their own: what is proved of that server
holds of this one.
-/

set_option autoImplicit false

namespace MuServer
open Lib.Machine

variable {T L : Type} [DecidableEq T] [DecidableEq L]

namespace LoopServer

abbrev queue (s : LoopServer T L) (i : ℕ) (h : Held T L) : List (Functor T) :=
  functorsOf i (s.loops h.loop).waiting

theorem admits_code (s : LoopServer T L) (i : ℕ) (h : Held T L) (a : Act T)
    (ha : s.admits i h a = true) : a.code = true := by
  cases a <;> simp [admits, Act.code] at ha ⊢

omit [DecidableEq T] [DecidableEq L] in
theorem view_running (s : LoopServer T L) (haborted : s.server.aborted = false)
    (hfreed : s.server.freedUse = false) : ¬ ((s.view.aborted || s.view.freedUse) = true) := by
  simp [view, haborted, hfreed]

theorem view_conn (s : LoopServer T L) (i : ℕ) (h : Held T L) (a : Act T) (c : TcpConnection T)
    (haborted : s.server.aborted = false) (hfreed : s.server.freedUse = false)
    (hi : s.server.conns i = some h) (halive : h.alive = true) (ha : a.code = true)
    (hc : (s.server.attached h).step a = some c) :
    s.view.step (.conn i a) =
      some (s.view.settle i (s.shown i h) a (c.withFunctors (s.queue i h))) := by
  have hne : a ≠ .queueDestroyed := by
    rintro rfl
    exact absurd ha (by simp [Act.code])
  have hstep : (s.view.attached (s.shown i h)).step a = some (c.withFunctors (s.queue i h)) := by
    have hw := (s.server.attached h).step_withFunctors (s.queue i h) a ha
    rw [hc] at hw
    exact hw
  have halive' : (s.shown i h).alive = true := halive
  simp only [TcpServer.step, if_neg (view_running s haborted hfreed), view_conns s i h hi, halive',
    Bool.true_and, decide_eq_true_eq, if_pos hne, hstep, Option.map_some]

/-- A connection has made a step, and only its own functors may have changed. -/
theorem settle_view (s s' : LoopServer T L) (i : ℕ) (h : Held T L) (a : Act T)
    (c c' : TcpConnection T) (hserver : s'.server = (s.settled i h a c).server)
    (hw : ∀ j l, j ≠ i →
      functorsOf j (s'.loops l).waiting = functorsOf j (s.loops l).waiting)
    (hc : c' = c.withFunctors (s'.queue i h))
    (hb : removals (s'.loops s'.base).waiting = if h.conn.firesClose a then
      removals (s.loops s.base).waiting ++ [i] else removals (s.loops s.base).waiting) :
    s.view.settle i (s.shown i h) a c' = s'.view := by
  subst hc
  have hshown := update_shown s s' i {
    h with
    conn := c
    callers := TcpServer.callersAfter h.callers c a } (by rw [hserver]; rfl) hw
  refine view_eq s' _ ?_ hshown hb.symm
  rw [hserver]
  rfl

theorem runs_view (s : LoopServer T L) (i : ℕ) (h : Held T L) (a : Act T) (c : TcpConnection T)
    (haborted : s.server.aborted = false) (hfreed : s.server.freedUse = false)
    (hi : s.server.conns i = some h) (halive : h.alive = true) (ha : s.admits i h a = true)
    (hc : (s.server.attached h).step a = some c) (hf : h.conn.firesClose a = false) :
    s.view.step (.conn i a) = some (s.settled i h a c).view := by
  rw [view_conn s i h a c haborted hfreed hi halive (admits_code s i h a ha) hc]
  refine congrArg some (settle_view s (s.settled i h a c) i h a c _ rfl (fun _ _ _ => rfl) rfl ?_)
  rw [hf]
  rfl

omit [DecidableEq T] in
/-- The queues that the functor of another connection or of the server does not touch. -/
theorem pushed_other (s : LoopServer T L) (l : L) (cb : LoopFunctor T)
    (loop : EventLoop (LoopFunctor T) (T ⊕ L)) (hw : loop.waiting = (s.loops l).waiting ++ [cb])
    (j : ℕ) (hj : cb.functor? j = none) (k : L) :
    functorsOf j ((s.setLoop l loop).loops k).waiting = functorsOf j (s.loops k).waiting := by
  rw [pushed_functors s l cb loop hw k j, hj]
  simp

omit [DecidableEq T] [DecidableEq L] in
theorem functor_other (i j : ℕ) (f : Functor T) (hj : j ≠ i) :
    (LoopFunctor.conn i f).functor? j = none := if_neg hj.symm

omit [DecidableEq T] [DecidableEq L] in
theorem functor_own (i : ℕ) (f : Functor T) : (LoopFunctor.conn i f).functor? i = some f :=
  if_pos rfl

theorem closesAway_view (s : LoopServer T L) (i : ℕ) (h : Held T L) (a : Act T)
    (c : TcpConnection T) (loop : EventLoop (LoopFunctor T) (T ⊕ L))
    (haborted : s.server.aborted = false) (hfreed : s.server.freedUse = false)
    (hi : s.server.conns i = some h) (halive : h.alive = true) (ha : s.admits i h a = true)
    (hc : (s.server.attached h).step a = some c) (hf : h.conn.firesClose a = true)
    (hp : Pushed (s.loops s.base) (.removeConnectionInLoop i) loop) :
    s.view.step (.conn i a) = some ((s.settled i h a c).setLoop s.base loop).view := by
  rw [view_conn s i h a c haborted hfreed hi halive (admits_code s i h a ha) hc]
  have hw : ∀ j l, functorsOf j (((s.settled i h a c).setLoop s.base loop).loops l).waiting =
      functorsOf j (s.loops l).waiting :=
    fun j l => pushed_other (s.settled i h a c) s.base _ loop hp.waiting j rfl l
  refine congrArg some (settle_view s _ i h a c _ rfl (fun j l _ => hw j l) ?_ ?_)
  · rw [queue, queue, hw]
  · have hb := pushed_removals (s.settled i h a c) s.base _ loop hp.waiting s.base
    rw [if_pos rfl] at hb
    rw [if_pos hf]
    exact hb

omit [DecidableEq L] in
/-- `closeCallback_` is called between two statements of the poller. -/
theorem fires_poller (c : TcpConnection T) (a : Act T) (c' : TcpConnection T)
    (hs : c.step a = some c') (hf : c.firesClose a = true) : c'.poller = c.poller := by
  cases a with
  | exec result =>
    obtain ⟨hcontrol, stack, hstack⟩ : c.control = .frames ∧
        ∃ stack, c.stack = .closeCallback::stack := by
      simpa [TcpConnection.firesClose, List.head?_eq_some_iff] using hf
    cases c.step_touch _ c' hs with
    | same hp => exact hp
    | updated events hu => exact absurd hu (by simp [TcpConnection.updates, hcontrol, hstack])
    | removed stack' _ hstack' => exact absurd (hstack.symm.trans hstack') (by simp)
  | _ => exact absurd hf (by simp [TcpConnection.firesClose])

omit [DecidableEq T] [DecidableEq L] in
/-- What the base loop has to remove are connections of other loops. -/
theorem removals_away (s : LoopServer T L) (hs : s.Placed) (i : ℕ) (h : Held T L)
    (hi : s.server.conns i = some h) (hl : h.loop = s.base) :
    i ∉ removals (s.loops s.base).waiting := by
  intro hm
  obtain ⟨cb, hcb, hr⟩ := List.mem_filterMap.mp hm
  cases cb with
  | removeConnectionInLoop j =>
    obtain rfl := Option.some.inj hr
    obtain ⟨-, k, hk, haway⟩ := hs.fits s.base _ hcb
    obtain rfl := Option.some.inj (hi.symm.trans hk)
    exact haway hl
  | conn | user => exact absurd hr (by simp [LoopFunctor.removal?])

theorem closes_view (s : LoopServer T L) (hs : s.Placed) (i : ℕ) (h : Held T L) (a : Act T)
    (c : TcpConnection T) (loop : EventLoop (LoopFunctor T) (T ⊕ L))
    (haborted : s.server.aborted = false) (hfreed : s.server.freedUse = false)
    (hi : s.server.conns i = some h) (halive : h.alive = true) (ha : s.admits i h a = true)
    (hc : (s.server.attached h).step a = some c) (hf : h.conn.firesClose a = true)
    (hl : h.loop = s.base) (hp : Pushed (s.loops s.base) (.conn i .connectDestroyed) loop) :
    run TcpServer.step s.view [.conn i a, .removeConnectionInLoop i] =
      some (((s.settled i h a c).unlisted i).setLoop s.base loop).view := by
  have hfirst := view_conn s i h a c haborted hfreed hi halive (admits_code s i h a ha) hc
  let k : Held T L := {
    s.shown i h with
    conn := c.withFunctors (s.queue i h)
    callers := TcpServer.callersAfter h.callers c a }
  let t := s.view.settle i (s.shown i h) a (c.withFunctors (s.queue i h))
  have hk : t.conns i = some k := Function.update_self ..
  have hbase : t.baseFunctors = removals (s.loops s.base).waiting ++ [i] := if_pos hf
  have hfailed : t.aborted = false := by
    change c.poller.failed = false
    rw [fires_poller _ a c hc hf]
    exact hs.failed haborted h.loop
  have hsecond : t.step (.removeConnectionInLoop i) = some (t.removeConnectionInLoop i k) := by
    have hfreed' : t.freedUse = false := hfreed
    have hmem : i ∈ t.baseFunctors := by simp [hbase]
    simp only [TcpServer.step, hfailed, hfreed', Bool.or_false, Bool.false_eq_true, if_false, hk,
      if_pos hmem]
  rw [run, hfirst, Option.bind_some, run, hsecond, Option.bind_some, run]
  have hqueue : functorsOf i ((((s.settled i h a c).unlisted i).setLoop s.base loop).loops
      h.loop).waiting = s.queue i h ++ [.connectDestroyed] := by
    rw [pushed_functors ((s.settled i h a c).unlisted i) s.base _ loop hp.waiting h.loop i, if_pos hl,
      functor_own]
    rfl
  refine congrArg some (view_eq _ _ rfl ?_ ?_)
  · intro j
    have hupdate := update_shown s (((s.settled i h a c).unlisted i).setLoop s.base loop) i {
      h with
      conn := c
      callers := TcpServer.callersAfter h.callers c a } rfl
      (fun j l hj => pushed_other ((s.settled i h a c).unlisted i) s.base _ loop hp.waiting j
        (functor_other i j _ hj) l) j
    rw [← hupdate]
    change Function.update (Function.update s.view.conns i (some k)) i _ j = _
    rw [Function.update_idem, shown, hqueue]
    rfl
  · change t.baseFunctors.erase i = _
    have hb := pushed_removals ((s.settled i h a c).unlisted i) s.base _ loop hp.waiting s.base
    rw [if_pos rfl] at hb
    rw [hbase, List.erase_append_right _ (removals_away s hs i h hi hl), List.erase_cons_head]
    exact hb.symm

theorem posts_view (s : LoopServer T L) (i : ℕ) (h : Held T L) (t : T) (f : Functor T)
    (loop : EventLoop (LoopFunctor T) (T ⊕ L)) (haborted : s.server.aborted = false)
    (hfreed : s.server.freedUse = false) (hi : s.server.conns i = some h)
    (halive : h.alive = true) (ht : h.conn.threads t = .posting f)
    (hp : Pushed (s.loops h.loop) (.conn i f) loop) :
    s.view.step (.conn i (.post t)) = some ((s.settled i h (.post t) { s.server.attached h with
      threads := Function.update h.conn.threads t .idle }).setLoop h.loop loop).view := by
  let c : TcpConnection T := { s.server.attached h with
    threads := Function.update h.conn.threads t .idle }
  have hstep : (s.view.attached (s.shown i h)).step (.post t) =
      some (c.withFunctors (s.queue i h ++ [f])) := by
    have hthread : (s.view.attached (s.shown i h)).threads t = .posting f := ht
    simp only [TcpConnection.step, hthread]
    rfl
  have halive' : (s.shown i h).alive = true := halive
  have hfirst : s.view.step (.conn i (.post t)) = some (s.view.settle i (s.shown i h) (.post t)
      (c.withFunctors (s.queue i h ++ [f]))) := by
    simp only [TcpServer.step, if_neg (view_running s haborted hfreed), view_conns s i h hi,
      halive', Bool.true_and, hstep, Option.map_some, ne_eq, reduceCtorEq, not_false_eq_true,
      decide_true, if_true]
  rw [hfirst]
  refine congrArg some (settle_view s _ i h (.post t) c _ rfl ?_ ?_ ?_)
  · exact fun j l hj => pushed_other (s.settled i h (.post t) c) h.loop _ loop hp.waiting j
      (functor_other i j f hj) l
  · have hqueue := pushed_functors (s.settled i h (.post t) c) h.loop _ loop hp.waiting h.loop i
    rw [if_pos rfl, functor_own] at hqueue
    exact congrArg c.withFunctors hqueue.symm
  · have hb := pushed_removals (s.settled i h (.post t) c) h.loop _ loop hp.waiting s.base
    rw [show LoopFunctor.removal? (.conn i f) = none from rfl, Option.toList_none, ite_self,
      List.append_nil] at hb
    exact hb

omit [DecidableEq T] in
theorem taken_other (s : LoopServer T L) (l : L) (cb : LoopFunctor T)
    (loop : EventLoop (LoopFunctor T) (T ⊕ L)) (hw : (s.loops l).waiting = cb::loop.waiting)
    (j : ℕ) (hj : cb.functor? j = none) (k : L) :
    functorsOf j ((s.taken l loop cb).loops k).waiting = functorsOf j (s.loops k).waiting := by
  rw [taken_functors s l cb loop hw k j, hj]
  simp

theorem pending_view (s s' : LoopServer T L) (i : ℕ) (h : Held T L) (f : Functor T)
    (haborted : s.server.aborted = false) (hfreed : s.server.freedUse = false)
    (hi : s.server.conns i = some h) (halive : h.alive = true) (hrest : h.conn.atRest = true)
    (hactive : h.conn.active = none) (hserver : s'.server = (s.callConn i h f).server)
    (hqueue : s.queue i h = f::s'.queue i h)
    (hw : ∀ j l, j ≠ i →
      functorsOf j (s'.loops l).waiting = functorsOf j (s.loops l).waiting)
    (hb : removals (s'.loops s'.base).waiting = removals (s.loops s.base).waiting) :
    s.view.step (.conn i .doPendingFunctor) = some s'.view := by
  let c : TcpConnection T := { s.server.attached h with control := .functor f }
  have hstep : (s.view.attached (s.shown i h)).step .doPendingFunctor =
      some (c.withFunctors (s'.queue i h)) := by
    have hpending : (s.view.attached (s.shown i h)).pendingFunctors_ = f::s'.queue i h := hqueue
    have hrest' : (s.view.attached (s.shown i h)).atRest = true := hrest
    have hactive' : (s.view.attached (s.shown i h)).active = none := hactive
    have hruns : ((s.view.attached (s.shown i h)).atRest &&
        (s.view.attached (s.shown i h)).active.isNone) = true := by
      simp [hrest', hactive']
    simp only [TcpConnection.step, hpending]
    rw [if_pos hruns]
    rfl
  have halive' : (s.shown i h).alive = true := halive
  have hfirst : s.view.step (.conn i .doPendingFunctor) = some (s.view.settle i (s.shown i h)
      .doPendingFunctor (c.withFunctors (s'.queue i h))) := by
    simp only [TcpServer.step, if_neg (view_running s haborted hfreed), view_conns s i h hi,
      halive', Bool.true_and, hstep, Option.map_some, ne_eq, reduceCtorEq, not_false_eq_true,
      decide_true, if_true]
  rw [hfirst]
  exact congrArg some (settle_view s s' i h .doPendingFunctor c _ hserver hw rfl hb)

theorem calls_view (s : LoopServer T L) (hs : s.Placed) (l : L) (i : ℕ) (h : Held T L)
    (f : Functor T) (loop : EventLoop (LoopFunctor T) (T ⊕ L))
    (haborted : s.server.aborted = false) (hfreed : s.server.freedUse = false)
    (hquiet : s.quiet l = true) (hstep : (s.loops l).step .callFunctor = some loop)
    (hw : (s.loops l).waiting = .conn i f::loop.waiting) (hi : s.server.conns i = some h)
    (halive : h.alive = true) :
    s.view.step (.conn i .doPendingFunctor) =
      some ((s.taken l loop (.conn i f)).callConn i h f).view := by
  have hl : h.loop = l := by
    obtain ⟨k, hk, hl⟩ := hs.fits l (.conn i f) (by simp [hw])
    obtain rfl := Option.some.inj (hi.symm.trans hk)
    exact hl
  refine pending_view s _ i h f haborted hfreed hi halive
    (allOf_held s hs l _ hquiet i h hi hl) (running_inactive s hs l loop hstep i h hi hl) rfl ?_ ?_ ?_
  · have hqueue := taken_functors s l (.conn i f) loop hw h.loop i
    rw [if_pos hl, functor_own] at hqueue
    exact hqueue
  · exact fun j k hj => taken_other s l _ loop hw j (functor_other i j f hj) k
  · have hb := taken_removals s l (.conn i f) loop hw s.base
    rw [show LoopFunctor.removal? (.conn i f) = none from rfl, Option.toList_none, ite_self,
      List.nil_append] at hb
    exact hb.symm

omit [DecidableEq T] in
theorem callsUser_view (s : LoopServer T L) (l : L) (loop : EventLoop (LoopFunctor T) (T ⊕ L))
    (hw : (s.loops l).waiting = .user::loop.waiting) : s.view = (s.taken l loop .user).view := by
  refine view_eq _ _ rfl (same_shown s _ rfl (fun j k => taken_other s l _ loop hw j rfl k)) ?_
  have hb := taken_removals s l .user loop hw s.base
  rw [show LoopFunctor.removal? (.user (T := T)) = none from rfl, Option.toList_none, ite_self,
    List.nil_append] at hb
  exact hb

theorem passed_view (s : LoopServer T L) (l : L) (a : LoopAct (LoopFunctor T) (T ⊕ L))
    (loop : EventLoop (LoopFunctor T) (T ⊕ L)) (hp : s.passes l a = true)
    (hstep : (s.loops l).step a = some loop) : s.view = (s.passed l a loop).view := by
  have hloop : ∀ k, ((s.passed l a loop).loops k).waiting = (s.loops k).waiting ∨
      ((s.passed l a loop).loops k).waiting = (s.loops k).waiting ++ [.user] := by
    intro k
    change (Function.update s.loops l loop k).waiting = _ ∨
      (Function.update s.loops l loop k).waiting = _
    by_cases hk : k = l
    · subst hk
      rw [Function.update_self]
      exact passed_waiting s k a loop hp hstep
    · rw [Function.update_of_ne hk]
      exact Or.inl rfl
  refine view_eq _ _ rfl (same_shown s _ rfl (fun j k => ?_)) ?_
  · rcases hloop k with hw | hw
    · rw [hw]
    · rw [hw, functorsOf, List.filterMap_append]
      exact List.append_nil _
  · change removals (s.loops s.base).waiting = _
    rcases hloop s.base with hw | hw
    · exact (congrArg removals hw).symm
    · change _ = removals ((s.passed l a loop).loops s.base).waiting
      rw [hw, removals, removals, List.filterMap_append]
      exact (List.append_nil _).symm

theorem callsRemoval_view (s : LoopServer T L) (hs : s.Placed) (l : L) (i : ℕ) (h : Held T L)
    (loop loop' : EventLoop (LoopFunctor T) (T ⊕ L)) (haborted : s.server.aborted = false)
    (hfreed : s.server.freedUse = false)
    (hw : (s.loops l).waiting = .removeConnectionInLoop i::loop.waiting)
    (hi : s.server.conns i = some h)
    (hp : Pushed ((s.taken l loop (.removeConnectionInLoop i)).loops h.loop)
      (.conn i .connectDestroyed) loop') :
    s.view.step (.removeConnectionInLoop i) =
      some (((s.taken l loop (.removeConnectionInLoop i)).unlisted i).setLoop h.loop loop').view := by
  obtain ⟨rfl, -⟩ := hs.fits l (.removeConnectionInLoop i) (by simp [hw])
  let u : LoopServer T L := (s.taken s.base loop (.removeConnectionInLoop i)).unlisted i
  have hbase : s.view.baseFunctors = i::removals (u.loops s.base).waiting := by
    have hb := taken_removals s s.base (.removeConnectionInLoop i) loop hw s.base
    rw [if_pos rfl] at hb
    exact hb
  have hfirst : s.view.step (.removeConnectionInLoop i) =
      some (s.view.removeConnectionInLoop i (s.shown i h)) := by
    have hmem : i ∈ s.view.baseFunctors := by simp [hbase]
    simp only [TcpServer.step, if_neg (view_running s haborted hfreed), view_conns s i h hi,
      if_pos hmem]
  have hother : ∀ j k, functorsOf j (u.loops k).waiting = functorsOf j (s.loops k).waiting :=
    fun j k => taken_other s s.base _ loop hw j rfl k
  have hqueue : functorsOf i ((u.setLoop h.loop loop').loops h.loop).waiting =
      s.queue i h ++ [.connectDestroyed] := by
    have hpushed := pushed_functors u h.loop _ loop' hp.waiting h.loop i
    rw [if_pos rfl, functor_own, hother] at hpushed
    exact hpushed
  have hshown : (u.setLoop h.loop loop').shown i h = {
      h with
      conn := h.conn.withFunctors (s.queue i h ++ [.connectDestroyed]) } := by
    rw [shown, hqueue]
  rw [hfirst]
  refine congrArg some (view_eq _ _ rfl ?_ ?_)
  · intro j
    have hupdate := update_shown s (u.setLoop h.loop loop') i h
      (Function.update_eq_self_iff.mpr hi.symm).symm (fun j k hj =>
        (pushed_other u h.loop _ loop' hp.waiting j (functor_other i j _ hj) k).trans (hother j k)) j
    rw [← hupdate, hshown]
    rfl
  · change s.view.baseFunctors.erase i = removals ((u.setLoop h.loop loop').loops s.base).waiting
    have hb := pushed_removals u h.loop _ loop' hp.waiting s.base
    rw [show LoopFunctor.removal? (.conn i (.connectDestroyed (T := T))) = none from rfl,
      Option.toList_none, ite_self, List.append_nil] at hb
    rw [hbase, List.erase_cons_head]
    exact hb.symm

omit [DecidableEq L] in
/-- What is kept of a connection in the queues is kept in those of the view. -/
theorem released_view (s : LoopServer T L) (i : ℕ) (h : Held T L) (hr : s.released i h = true) :
    s.view.released i (s.shown i h) = true := by
  simp only [released, Bool.and_eq_true, decide_eq_true_eq, List.all_cons, List.all_nil,
    List.all_eq_true, List.mem_append, Bool.not_eq_true'] at hr
  obtain ⟨⟨⟨hlisted, hrest⟩, hcallers⟩, hown, hbase, -⟩ := hr
  simp only [TcpServer.released, Bool.and_eq_true, decide_eq_true_eq, List.all_eq_true]
  refine ⟨⟨⟨⟨hlisted, ?_⟩, hrest⟩, hcallers⟩, ?_⟩
  · intro hm
    obtain ⟨cb, hcb, hremoval⟩ := List.mem_filterMap.mp hm
    have hholds := hbase cb (Or.inl hcb)
    cases cb with
    | removeConnectionInLoop j =>
      obtain rfl := Option.some.inj hremoval
      exact absurd hholds (by simp [LoopFunctor.holds])
    | conn | user => exact absurd hremoval (by simp [LoopFunctor.removal?])
  · intro f hf
    obtain ⟨cb, hcb, hfunctor⟩ := List.mem_filterMap.mp hf
    have hholds := hown cb (Or.inl hcb)
    cases cb with
    | conn j g =>
      obtain ⟨rfl, hg⟩ := Option.ite_none_right_eq_some.mp hfunctor
      obtain rfl := Option.some.inj hg
      simpa [LoopFunctor.holds] using hholds
    | removeConnectionInLoop | user => exact absurd hfunctor (by simp [LoopFunctor.functor?])

theorem destruct_view (s : LoopServer T L) (i : ℕ) (h : Held T L)
    (haborted : s.server.aborted = false) (hfreed : s.server.freedUse = false)
    (hi : s.server.conns i = some h) (halive : h.alive = true) (hr : s.released i h = true) :
    s.view.step (.destruct i) =
      some (view { s with server := s.server.destruct i h }) := by
  have halive' : (s.shown i h).alive = true := halive
  have hfirst : s.view.step (.destruct i) = some (s.view.destruct i (s.shown i h)) := by
    simp only [TcpServer.step, if_neg (view_running s haborted hfreed), view_conns s i h hi,
      halive', released_view s i h hr, Bool.and_self, if_true]
  rw [hfirst]
  exact congrArg some (view_eq _ _ rfl (update_shown s { s with server := s.server.destruct i h } i
    { h with alive := false } rfl (fun _ _ _ => rfl)) rfl)

theorem useFreed_view (s : LoopServer T L) (i : ℕ) (h : Held T L)
    (haborted : s.server.aborted = false) (hfreed : s.server.freedUse = false)
    (hi : s.server.conns i = some h) (halive : h.alive = false) (hc : s.comes i h = true) :
    s.view.step (.useFreed i) =
      some (view { s with server := { s.server with freedUse := true } }) := by
  have hleft : TcpServer.leftover (s.shown i h) = true := by
    simp only [comes, Bool.and_eq_true, Bool.or_eq_true] at hc
    obtain ⟨-, ⟨-, hactive⟩ | hhead⟩ := hc
    · exact Bool.or_eq_true_iff.mpr (Or.inr hactive)
    · obtain ⟨f, hf⟩ := Option.isSome_iff_exists.mp hhead
      obtain ⟨cb, hcb, hf⟩ := Option.bind_eq_some_iff.mp hf
      have hmem : f ∈ s.queue i h := by
        refine List.mem_filterMap.mpr ⟨cb, List.mem_append_left _ ?_, hf⟩
        exact List.mem_of_mem_head? hcb
      refine Bool.or_eq_true_iff.mpr (Or.inl ?_)
      change (!(s.queue i h).isEmpty) = true
      simpa using List.ne_nil_of_mem hmem
  have halive' : (s.shown i h).alive = false := halive
  simp only [TcpServer.step, if_neg (view_running s haborted hfreed), view_conns s i h hi, halive',
    hleft, Bool.not_false, Bool.and_self, if_true]
  rfl

omit [DecidableEq T] [DecidableEq L] in
theorem accept_queue (s : LoopServer T L) (hs : s.Placed) (l : L) :
    functorsOf s.server.nextConnId_ (s.loops l).waiting = [] := by
  refine List.filterMap_eq_nil_iff.mpr (fun cb hcb => ?_)
  cases cb with
  | conn i f =>
    obtain ⟨h, hi, -⟩ := hs.fits l _ hcb
    refine if_neg ?_
    rintro rfl
    exact absurd ((hs.fresh _ (le_refl _)).symm.trans hi) (by simp)
  | removeConnectionInLoop | user => rfl

/-- An accepted connection with `connectEstablished` in the queue of its loop. -/
theorem accept_view (s : LoopServer T L) (hs : s.Placed) (fd : ℕ) (l : L)
    (loop : EventLoop (LoopFunctor T) (T ⊕ L)) (haborted : s.server.aborted = false)
    (hfreed : s.server.freedUse = false) (hfd : fd ∉ s.server.openFds)
    (hw : loop.waiting =
      (s.loops l).waiting ++ [.conn s.server.nextConnId_ .connectEstablished]) :
    s.view.step (.newConnection fd l) = some ((s.accept fd l).setLoop l loop).view := by
  have hfd' : fd ∉ s.view.openFds := hfd
  have hfirst : s.view.step (.newConnection fd l) = some (s.view.newConnection fd l) := by
    simp only [TcpServer.step, if_neg (view_running s haborted hfreed), if_neg hfd']
  have hqueue : functorsOf s.server.nextConnId_ (((s.accept fd l).setLoop l loop).loops l).waiting =
      [.connectEstablished] := by
    rw [pushed_functors (s.accept fd l) l _ loop hw l, if_pos rfl, functor_own]
    change functorsOf _ (s.loops l).waiting ++ _ = _
    rw [accept_queue s hs l]
    rfl
  have hshown : ((s.accept fd l).setLoop l loop).shown s.server.nextConnId_ (s.created fd l) = {
      s.created fd l with
      conn := (s.created fd l).conn.withFunctors [.connectEstablished] } := by
    rw [← hqueue]
    rfl
  rw [hfirst]
  refine congrArg some (view_eq _ _ rfl ?_ ?_)
  · intro j
    have hupdate := update_shown s ((s.accept fd l).setLoop l loop) s.server.nextConnId_
      (s.created fd l) (Function.update_idem ..) (fun j k hj =>
        pushed_other (s.accept fd l) l _ loop hw j (functor_other _ j _ hj) k) j
    rw [← hupdate, hshown]
    rfl
  · have hb := pushed_removals (s.accept fd l) l _ loop hw s.base
    rw [show LoopFunctor.removal? (.conn s.server.nextConnId_ (.connectEstablished (T := T))) =
      none from rfl, Option.toList_none, ite_self, List.append_nil] at hb
    exact hb.symm

theorem establishes_view (s : LoopServer T L) (hs : s.Placed) (fd : ℕ)
    (haborted : s.server.aborted = false) (hfreed : s.server.freedUse = false)
    (hfd : fd ∉ s.server.openFds) :
    run TcpServer.step s.view
        [.newConnection fd s.base, .conn s.server.nextConnId_ .doPendingFunctor] =
      some ((s.accept fd s.base).callConn s.server.nextConnId_ (s.created fd s.base)
        .connectEstablished).view := by
  let loop : EventLoop (LoopFunctor T) (T ⊕ L) :=
    (s.loops s.base).pushFunctor (.conn s.server.nextConnId_ .connectEstablished)
  have hw : loop.waiting =
      (s.loops s.base).waiting ++ [.conn s.server.nextConnId_ .connectEstablished] :=
    (List.append_assoc _ _ _).symm
  let u : LoopServer T L := (s.accept fd s.base).setLoop s.base loop
  have hfirst := accept_view s hs fd s.base loop haborted hfreed hfd hw
  have hsecond : u.view.step (.conn s.server.nextConnId_ .doPendingFunctor) =
      some ((s.accept fd s.base).callConn s.server.nextConnId_ (s.created fd s.base)
        .connectEstablished).view := by
    refine pending_view u _ s.server.nextConnId_ (s.created fd s.base) .connectEstablished haborted
      hfreed (Function.update_self ..) rfl rfl rfl rfl ?_ ?_ ?_
    · have hqueue := pushed_functors (s.accept fd s.base) s.base _ loop hw s.base
        s.server.nextConnId_
      have hnone := accept_queue s hs s.base
      rw [if_pos rfl, functor_own] at hqueue
      change functorsOf _ (u.loops s.base).waiting = _::functorsOf _ (s.loops s.base).waiting
      rw [hqueue, hnone]
      change functorsOf _ (s.loops s.base).waiting ++ _ = _
      rw [hnone]
      rfl
    · exact fun j k hj => (pushed_other (s.accept fd s.base) s.base _ loop hw j
        (functor_other _ j _ hj) k).symm
    · have hb := pushed_removals (s.accept fd s.base) s.base _ loop hw s.base
      rw [show LoopFunctor.removal? (.conn s.server.nextConnId_ (.connectEstablished (T := T))) =
        none from rfl, Option.toList_none, ite_self, List.append_nil] at hb
      exact hb.symm
  rw [run, hfirst, Option.bind_some, run, hsecond, Option.bind_some, run]

end LoopServer

def LoopServerAct.Conns (ok : Act T → Prop) : LoopServerAct T L → Prop
  | .conn _ a => ok a
  | _ => True

def ServerAct.Conns (ok : Act T → Prop) : ServerAct T L → Prop
  | .conn _ a => ok a
  | _ => True

namespace LoopServer

theorem step_view (ok : Act T → Prop) (hpending : ok .doPendingFunctor) (s s' : LoopServer T L)
    (a : LoopServerAct T L) (hs : s.Placed) (ha : a.Conns ok) (hstep : s.step a = some s') :
    ∃ as, run TcpServer.step s.view as = some s'.view ∧ ∀ b ∈ as, b.Conns ok := by
  have hone : ∀ b : ServerAct T L, s.view.step b = some s'.view → b.Conns ok →
      ∃ as, run TcpServer.step s.view as = some s'.view ∧ ∀ b ∈ as, b.Conns ok := by
    intro b hb hok
    exact ⟨[b], by rw [run, hb]; rfl, by simpa using hok⟩
  obtain ⟨haborted, hfreed, hstep⟩ := step_stepped s s' a hstep
  cases hstep with
  | establishes fd hb hfd =>
    refine ⟨_, establishes_view s hs fd haborted hfreed hfd, ?_⟩
    simp [ServerAct.Conns, hpending]
  | accepts fd l loop hl hfd hp =>
    exact hone _ (accept_view s hs fd l loop haborted hfreed hfd hp.waiting) trivial
  | passes l a loop hp hloop =>
    exact ⟨[], congrArg some (passed_view s l a loop hp hloop), by simp⟩
  | runs i h a c hi halive hadmits hc hf =>
    exact hone _ (runs_view s i h a c haborted hfreed hi halive hadmits hc hf) ha
  | closes i h a c loop hi halive hadmits hc hf hl hp =>
    refine ⟨_, closes_view s hs i h a c loop haborted hfreed hi halive hadmits hc hf hl hp, ?_⟩
    have ha' : ok a := ha
    simp [ServerAct.Conns, ha']
  | closesAway i h a c loop hi halive hadmits hc hf hl hp =>
    exact hone _ (closesAway_view s i h a c loop haborted hfreed hi halive hadmits hc hf hp) ha
  | posts i h t f loop hi halive ht hp =>
    exact hone _ (posts_view s i h t f loop haborted hfreed hi halive ht hp) ha
  | calls l i h f loop hquiet hloop hw hi halive =>
    exact hone _ (calls_view s hs l i h f loop haborted hfreed hquiet hloop hw hi halive) hpending
  | callsRemoval l i h loop loop' hquiet hloop hw hi hp =>
    exact hone _ (callsRemoval_view s hs l i h loop loop' haborted hfreed hw hi hp) trivial
  | callsUser l loop hquiet hloop hw =>
    exact ⟨[], congrArg some (callsUser_view s l loop hw), by simp⟩
  | destruct i h hi halive hr =>
    exact hone _ (destruct_view s i h haborted hfreed hi halive hr) trivial
  | useFreed i h hi halive hc =>
    exact hone _ (useFreed_view s i h haborted hfreed hi halive hc) trivial

def Exclusive (s : LoopServer T L) : Prop :=
  ∀ i j h k, s.server.conns i = some h → s.server.conns j = some k → h.loop = k.loop →
    busy h.conn = true → busy k.conn = true → i = j

omit [DecidableEq L] in
theorem busy_frames (c c' : TcpConnection T) (hcontrol : c'.control = c.control)
    (hstack : c'.stack = c.stack) : busy c' = busy c := by
  simp only [busy, TcpConnection.atRest, TcpConnection.inUser, hcontrol, hstack]

omit [DecidableEq L] in
theorem rest_busy (c : TcpConnection T) (h : c.atRest = true) : busy c = false := by
  simp [busy, h]

omit [DecidableEq L] in
/-- A connection makes a step: it was busy before or no other one of its loop is. -/
theorem update_exclusive (s s' : LoopServer T L) (i : ℕ) (h' : Held T L)
    (hconns : s'.server.conns = Function.update s.server.conns i (some h')) (hs : s.Exclusive)
    (hbusy : busy h'.conn = true → ∀ j k, j ≠ i → s.server.conns j = some k →
      k.loop = h'.loop → busy k.conn = false) : s'.Exclusive := by
  intro j j' k k' hj hj' hl hb hb'
  rw [hconns] at hj hj'
  by_cases he : j = i
  · by_cases he' : j' = i
    · rw [he, he']
    · subst he
      rw [Function.update_self] at hj
      rw [Function.update_of_ne he'] at hj'
      obtain rfl := Option.some.inj hj
      exact absurd (hb'.symm.trans (hbusy hb j' k' he' hj' hl.symm)) (by simp)
  · rw [Function.update_of_ne he] at hj
    by_cases he' : j' = i
    · subst he'
      rw [Function.update_self] at hj'
      obtain rfl := Option.some.inj hj'
      exact absurd (hb.symm.trans (hbusy hb' j k he hj hl)) (by simp)
    · rw [Function.update_of_ne he'] at hj'
      exact hs j j' k k' hj hj' hl hb hb'

theorem admitted_busy (s : LoopServer T L) (hs : s.Placed) (hexclusive : s.Exclusive) (i : ℕ)
    (h : Held T L) (a : Act T) (c : TcpConnection T) (hi : s.server.conns i = some h)
    (ha : s.admits i h a = true) (hc : (s.server.attached h).step a = some c)
    (hb : busy c = true) (j : ℕ) (k : Held T L) (hj : j ≠ i) (hk : s.server.conns j = some k)
    (hl : k.loop = h.loop) : busy k.conn = false := by
  have hsame : busy c = busy h.conn → busy k.conn = false := by
    intro he
    by_contra hne
    exact hj (hexclusive j i k h hk hi hl (by simpa using hne) (he ▸ hb))
  have hruns : s.runs h.loop i = true → busy k.conn = false := by
    intro hr
    have hall := allOf_held s hs h.loop _ (Bool.and_eq_true_iff.mp hr).2 j k hk hl
    simpa [hj] using hall
  cases a with
  | poll revents =>
    cases (s.server.attached h).step_stepped _ c hc with
    | poll _ hcontrol hstack => exact hsame (busy_frames _ _ rfl rfl)
  | handleEvent =>
    have hbetween : s.betweenChannels h.loop = true := ha
    have hquiet := (Bool.and_eq_true_iff.mp hbetween).2
    exact rest_busy _ (allOf_held s hs h.loop _ hquiet j k hk hl)
  | userCode | request | setHighWaterMark | userReturns | exec => exact hruns ha
  | call t r =>
    cases (s.server.attached h).step_stepped _ c hc with
    | callRefused => exact hsame (busy_frames _ _ rfl rfl)
    | calls => exact hsame (busy_frames _ _ rfl rfl)
    | callShutdown => exact hsame (busy_frames _ _ rfl rfl)
  | store t =>
    cases (s.server.attached h).step_stepped _ c hc with
    | store => exact hsame (busy_frames _ _ rfl rfl)
  | doPendingFunctor | post | queueDestroyed => exact absurd ha (by simp [admits])

theorem quiet_busy (s : LoopServer T L) (hs : s.Placed) (l : L) (hquiet : s.quiet l = true)
    (j : ℕ) (k : Held T L) (hk : s.server.conns j = some k) (hl : k.loop = l) :
    busy k.conn = false := rest_busy _ (allOf_held s hs l _ hquiet j k hk hl)

theorem step_exclusive (s s' : LoopServer T L) (a : LoopServerAct T L) (hs : s.Placed)
    (h : s.Exclusive) (hstep : s.step a = some s') : s'.Exclusive := by
  obtain ⟨-, -, hstep⟩ := step_stepped s s' a hstep
  cases hstep with
  | establishes fd hb hfd =>
    have hquiet := (Bool.and_eq_true_iff.mp hb).2
    have hconns : ((s.accept fd s.base).callConn s.server.nextConnId_ (s.created fd s.base)
        .connectEstablished).server.conns = Function.update s.server.conns s.server.nextConnId_
        (some { s.created fd s.base with conn := { (s.accept fd s.base).server.attached
          (s.created fd s.base) with control := .functor .connectEstablished } }) := by
      change Function.update (Function.update (Function.update s.server.conns _ _) _ _) _ _ = _
      rw [Function.update_idem, Function.update_idem]
      rfl
    exact update_exclusive s _ _ _ hconns h (fun _ j k _ hk hl => quiet_busy s hs _ hquiet j k hk hl)
  | accepts fd l loop =>
    refine update_exclusive s _ s.server.nextConnId_ (s.created fd l) (Function.update_idem ..) h ?_
    exact fun hb => absurd hb (by simp [created, busy, TcpConnection.atRest])
  | passes => exact h
  | runs i k a c hi halive hadmits hc =>
    exact update_exclusive s _ i _ rfl h
      (fun hb j k' hj hk hl => admitted_busy s hs h i k a c hi hadmits hc hb j k' hj hk hl)
  | closes i k a c loop hi halive hadmits hc =>
    exact update_exclusive s _ i _ rfl h
      (fun hb j k' hj hk hl => admitted_busy s hs h i k a c hi hadmits hc hb j k' hj hk hl)
  | closesAway i k a c loop hi halive hadmits hc =>
    exact update_exclusive s _ i _ rfl h
      (fun hb j k' hj hk hl => admitted_busy s hs h i k a c hi hadmits hc hb j k' hj hk hl)
  | posts i k t f loop hi =>
    refine update_exclusive s _ i _ rfl h (fun hb j k' hj hk hl => ?_)
    by_contra hne
    exact hj (h j i k' k hk hi hl (by simpa using hne) hb)
  | calls l i k f loop hquiet hloop hw hi =>
    have hl : k.loop = l := by
      obtain ⟨k', hk, hl⟩ := hs.fits l (.conn i f) (by simp [hw])
      obtain rfl := Option.some.inj (hi.symm.trans hk)
      exact hl
    exact update_exclusive s _ i _ rfl h
      (fun _ j k' _ hk hl' => quiet_busy s hs l hquiet j k' hk (hl'.trans hl))
  | callsRemoval => exact h
  | callsUser => exact h
  | destruct i k hi =>
    refine update_exclusive s _ i { k with alive := false } rfl h (fun hb j k' hj hk hl => ?_)
    by_contra hne
    exact hj (h j i k' k hk hi hl (by simpa using hne) hb)
  | useFreed => exact h

theorem step_loops (s s' : LoopServer T L) (a : LoopServerAct T L)
    (h : ∀ l, Reach EventLoop.step (fun _ _ => True) {} (s.loops l))
    (hstep : s.step a = some s') (l : L) :
    Reach EventLoop.step (fun _ _ => True) {} (s'.loops l) := by
  have hset : ∀ (loops : L → EventLoop (LoopFunctor T) (T ⊕ L)) (k : L) loop,
      (∀ l, Reach EventLoop.step (fun _ _ => True) {} (loops l)) →
      (∃ a, (loops k).step a = some loop) →
      ∀ l, Reach EventLoop.step (fun _ _ => True) {} (Function.update loops k loop l) := by
    rintro loops k loop hall ⟨b, hb⟩ l
    by_cases hl : l = k
    · subst hl
      rw [Function.update_self]
      exact .next _ b _ (hall l) trivial hb
    · rw [Function.update_of_ne hl]
      exact hall l
  obtain ⟨-, -, hstep⟩ := step_stepped s s' a hstep
  cases hstep with
  | establishes | runs | destruct | useFreed => exact h l
  | accepts fd k loop hl hfd hp => exact hset s.loops k loop h hp.step l
  | passes k a loop hp hloop => exact hset s.loops k loop h ⟨a, hloop⟩ l
  | closes i k a c loop hi halive hadmits hc hf hl hp => exact hset s.loops s.base loop h hp.step l
  | closesAway i k a c loop hi halive hadmits hc hf hl hp =>
    exact hset s.loops s.base loop h hp.step l
  | posts i k t f loop hi halive ht hp => exact hset s.loops k.loop loop h hp.step l
  | calls k i h' f loop hquiet hloop => exact hset s.loops k loop h ⟨_, hloop⟩ l
  | callsRemoval k i h' loop loop' hquiet hloop hw hi hp =>
    exact hset _ h'.loop loop' (hset s.loops k loop h ⟨_, hloop⟩) hp.step l
  | callsUser k loop hquiet hloop => exact hset s.loops k loop h ⟨_, hloop⟩ l

/-- No loop waits in `epoll_wait` for a functor of a connection that nobody is going to
announce. -/
def Announced (s : LoopServer T L) : Prop :=
  ∀ i h, s.view.conns i = some h → h.conn.pendingFunctors_ ≠ [] →
    ¬ ((s.loops h.loop).phase = .poll ∧ (s.loops h.loop).wakeups = 0 ∧
      ∀ thread, (s.loops h.loop).between thread = false)

theorem loops_announced (s : LoopServer T L)
    (h : ∀ l, Reach EventLoop.step (fun _ _ => True) {} (s.loops l)) : s.Announced := by
  rintro i k hi hne ⟨hphase, hwakeups, hbetween⟩
  obtain ⟨k', -, rfl⟩ := Option.map_eq_some_iff.mp hi
  have hsound := (s.loops k'.loop).reach_sound (h k'.loop)
  have hpending : (s.loops k'.loop).pendingFunctors_ ≠ [] := by
    intro hnone
    have hwaiting : (s.loops k'.loop).waiting = [] := by
      simp [EventLoop.waiting, EventLoop.batch, hnone,
        show (s.loops k'.loop).phase = .poll from hphase]
    apply hne
    change functorsOf i (s.loops k'.loop).waiting = []
    rw [hwaiting]
    rfl
  rcases hsound.attended hpending with hw | hw | ⟨thread, ht⟩ | ⟨hq, -⟩
  · rcases hw with hw | hw <;> exact absurd (hphase.symm.trans hw) (by simp)
  · have hzero : (s.loops k'.loop).wakeups = 0 := hwakeups
    omega
  · exact absurd ((hbetween thread).symm.trans ht) (by simp)
  · have hin := hsound.queueing hq
    simp [EventLoop.inCallback, show (s.loops k'.loop).phase = .poll from hphase] at hin

/-- The server with its loops refines the one whose connections have queues of their
own, under any condition on the steps of connections, and each of its loops is a loop. -/
theorem reach_refines (base : L) (ok : Act T → Prop) (hpending : ok .doPendingFunctor)
    (s : LoopServer T L) (h : Reach step (fun _ a => a.Conns ok) { base := base } s) :
    Reach TcpServer.step (fun _ b => b.Conns ok) {} s.view ∧
      (∀ l, Reach EventLoop.step (fun _ _ => True) {} (s.loops l)) ∧ s.Exclusive ∧
      s.Announced := by
  have hstart : view ({ base := base } : LoopServer T L) = {} := by
    refine (view_eq _ _ rfl ?_ rfl).symm
    exact fun _ => rfl
  obtain ⟨-, hview⟩ := reach_view step _ TcpServer.step (ServerAct.Conns ok) view Placed
    { base := base } (start_placed base) (fun s a t hs _ ht => step_placed s t a hs ht)
    (fun s a t hs ha ht => step_view ok hpending s t a hs ha ht) s h
  rw [hstart] at hview
  have hloops : ∀ l, Reach EventLoop.step (fun _ _ => True) {} (s.loops l) :=
    reach_invariant step _ _ (fun s => ∀ l, Reach EventLoop.step (fun _ _ => True) {} (s.loops l))
      (fun _ => .refl) (fun s a t hs _ ht => step_loops s t a hs ht) s h
  obtain ⟨-, hexclusive⟩ := reach_invariant step _ _ (fun s => s.Placed ∧ s.Exclusive)
    ⟨start_placed base, fun _ _ _ _ hi => nomatch hi⟩
    (fun s a t hs _ ht => ⟨step_placed s t a hs.1 ht, step_exclusive s t a hs.1 hs.2 ht⟩) s h
  exact ⟨hview, hloops, hexclusive, loops_announced s hloops⟩

def polling : List (LoopServerAct ℕ ℕ) :=
  [.loop 0 .enterLoop, .loop 0 .testQuit, .loop 1 .enterLoop, .loop 1 .testQuit]

def answersAway : List (LoopServerAct ℕ ℕ) :=
  [.loop 0 .pollReturns, .newConnection 7 1, .loop 1 (.pushEnd (.inr 0)), .newConnection 8 0,
    .conn 2 (.exec .again), .conn 2 .userReturns, .loop 1 .pollReturns, .loop 1 .handleRead,
    .loop 1 .handlersEnd, .loop 1 .swapFunctors, .callFunctor 1, .conn 1 (.exec .again),
    .conn 1 (.request (.send [5])), .conn 1 (.exec .again), .conn 1 (.exec (.bytes 1)),
    .conn 1 (.exec .again), .conn 1 .userReturns, .loop 1 .functorsEnd, .loop 1 .testQuit,
    .conn 1 (.poll { rd := true }), .loop 1 .pollReturns, .conn 1 .handleEvent,
    .conn 1 (.exec (.bytes 0)), .conn 1 (.exec .again), .conn 1 .userReturns,
    .conn 1 (.exec .again)]

def removedAway : List (LoopServerAct ℕ ℕ) :=
  [.loop 0 .handlersEnd, .loop 0 (.pushEnd (.inr 1)), .loop 0 .swapFunctors, .callFunctor 0,
    .loop 1 (.pushEnd (.inr 0)), .loop 0 .functorsEnd, .loop 1 .handlersEnd,
    .loop 1 .swapFunctors, .callFunctor 1, .conn 1 (.exec .again), .conn 1 (.exec .again),
    .loop 1 .functorsEnd, .destruct 1]

def twoLoops : List (LoopServerAct ℕ ℕ) := polling ++ answersAway ++ removedAway

theorem reach_refines_twoLoops : ∃ s, run step { base := 0 } twoLoops = some s ∧
    s.server.connections_ = [2] ∧ s.server.openFds = [8] ∧
    Reach TcpServer.step (fun _ b => b.Conns (fun a => a.fromCallback = true)) {} s.view ∧
    s.Exclusive ∧ s.Announced := by
  have hrun : (run step { base := 0 } twoLoops).map (fun s =>
      (s.server.connections_, s.server.openFds)) = some ([2], [8]) := by
    decide +kernel
  obtain ⟨s, hs, hends⟩ := Option.map_eq_some_iff.mp hrun
  simp only [Prod.mk.injEq] at hends
  have hreach := run_reach_actions step (fun a => a.Conns (fun a => a.fromCallback = true)) _ _ s
    twoLoops .refl (by
      simp [twoLoops, polling, answersAway, removedAway, LoopServerAct.Conns, Act.fromCallback,
        Revents.plain]) hs
  obtain ⟨hview, -, hexclusive, hannounced⟩ :=
    reach_refines 0 (fun a => a.fromCallback = true) rfl s hreach
  exact ⟨s, hs, hends.1, hends.2, hview, hexclusive, hannounced⟩

end LoopServer
end MuServer
