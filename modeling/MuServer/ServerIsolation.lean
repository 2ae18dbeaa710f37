import MuServer.ConnectionWrites
import MuServer.MessageCallback
import MuServer.TcpServer

/-!
# The connections of a server apart

Connections share loops, pollers and, one after the other, descriptors. Yet the
code of a connection asks its poller for nothing but the new index of its own
channel, and that follows from the channel alone. So each connection of a server
runs as it would by itself, on what was done to it and to no other.
-/

set_option autoImplicit false

namespace MuServer
open Lib.Machine

theorem EpollPoller.updateChannel_apart (p q : EpollPoller) (channel : Channel) :
    (p.updateChannel channel).2 = (q.updateChannel channel).2 := by
  unfold EpollPoller.updateChannel
  split
  · rfl
  · rfl
  · split <;> rfl

namespace TcpConnection

variable {T : Type}

def on (c : TcpConnection T) (p : EpollPoller) : TcpConnection T := { c with poller := p }

theorem updateChannel_on (c : TcpConnection T) (p : EpollPoller) (channel : Channel) :
    ∃ q, (c.on p).updateChannel channel = (c.updateChannel channel).on q := by
  refine ⟨(p.updateChannel channel).1, ?_⟩
  have hchannel := EpollPoller.updateChannel_apart p c.poller channel
  simp only [updateChannel, on, hchannel]

theorem drained_on (c : TcpConnection T) (p : EpollPoller) : ∃ q, (c.on p).drained = c.drained.on q := by
  unfold drained
  change ∃ q, (if c.channel_.isWriting then _ else _) = _
  split
  · exact c.updateChannel_on p _
  · exact ⟨p, rfl⟩

theorem blocked_on (c : TcpConnection T) (p : EpollPoller) : (c.on p).blocked = c.blocked.on p := by
  unfold blocked
  change (if c.exceedsHighWater then _ else _) = _
  split <;> rfl

theorem runFunctor_on (c : TcpConnection T) (p : EpollPoller) (f : Functor T) :
    ∃ q, (c.on p).runFunctor f = (c.runFunctor f).on q := by
  cases f with
  | sendInLoop call data =>
    refine ⟨p, ?_⟩
    simp only [runFunctor, sendInLoop]
    change (if c.state_ = .kDisconnected then _ else _) = _
    split <;> rfl
  | sendFileInLoop | shutdownInLoop | connectDestroyed => exact ⟨p, rfl⟩
  | connectEstablished =>
    obtain ⟨q, hq⟩ := (c.setStates .kConnected).updateChannel_on p c.channel_.enableReading
    refine ⟨q, ?_⟩
    simp only [runFunctor, connectEstablished, enableReading]
    change frames { ((c.setStates .kConnected).on p).updateChannel c.channel_.enableReading with
      enablesAfterClose := c.afterClose c.enablesAfterClose, established := c.established+1 } _ = _
    rw [hq]
    rfl

theorem doWriting_on (c c' : TcpConnection T) (p : EpollPoller) (result : SocketResult)
    (hs : c.doWriting result = some c') : ∃ q, (c.on p).doWriting result = some (c'.on q) := by
  cases hqueue : c.contextQueue_ with
  | nil =>
    have hqueue' : (c.on p).contextQueue_ = [] := hqueue
    rw [doWriting, hqueue] at hs
    rw [doWriting, hqueue']
    obtain rfl := Option.some.inj hs
    exact ⟨p, rfl⟩
  | cons front rest =>
    obtain ⟨call, ctx⟩ := front
    have hqueue' : (c.on p).contextQueue_ = (call, ctx)::rest := hqueue
    rw [doWriting, hqueue] at hs
    rw [doWriting, hqueue']
    change ∃ q, (c.issue.on p).afterWrite call ctx rest result = _
    cases result with
    | bytes n =>
      simp only [afterWrite] at hs ⊢
      split at hs
      · exact absurd hs (by simp)
      · rename_i out ctx' hw
        split at hs
        · rename_i hc
          obtain rfl := Option.some.inj hs
          obtain ⟨q, hq⟩ := (c.issue.took call ctx' rest out).drained_on p
          refine ⟨q, ?_⟩
          rw [if_pos hc, ← hq]
          rfl
        · rename_i hc
          obtain rfl := Option.some.inj hs
          refine ⟨p, ?_⟩
          rw [if_neg hc]
          rfl
    | again =>
      simp only [afterWrite] at hs ⊢
      refine ⟨p, ?_⟩
      split at hs
      · rename_i hr
        obtain rfl := Option.some.inj hs
        rw [if_pos hr, blocked_on]
      · rename_i hr
        obtain rfl := Option.some.inj hs
        rw [if_neg hr]
        rfl
    | fails =>
      obtain rfl := Option.some.inj hs
      exact ⟨p, rfl⟩

theorem runFrame_on (c c' : TcpConnection T) (p : EpollPoller) (stack : List Frame)
    (result : SocketResult) (frame : Frame) (hs : c.runFrame stack result frame = some c') :
    ∃ q, (c.on p).runFrame stack result frame = some (c'.on q) := by
  cases frame with
  | user => exact absurd hs (by simp [runFrame])
  | handleRead | handleError | closeCallback | shutdownStore | removeChannel =>
    obtain rfl := Option.some.inj hs
    exact ⟨_, rfl⟩
  | handleWrite =>
    refine ⟨p, ?_⟩
    simp only [runFrame] at hs ⊢
    change (if c.channel_.isWriting && !c.contextQueue_.isEmpty then _ else _) = _
    split at hs
    · rename_i hw
      obtain rfl := Option.some.inj hs
      rw [if_pos hw]
      rfl
    · rename_i hw
      obtain rfl := Option.some.inj hs
      rw [if_neg hw]
      rfl
  | handleClose =>
    obtain rfl := Option.some.inj hs
    obtain ⟨q, hq⟩ := (c.setStates .kDisconnected).updateChannel_on p c.channel_.disableAll
    refine ⟨q, ?_⟩
    simp only [runFrame, handleClose, disableAll]
    change some (frames { ((c.setStates .kDisconnected).on p).updateChannel
      c.channel_.disableAll with closes := c.closes+1 } _) = _
    rw [hq]
    rfl
  | enableWriting =>
    simp only [runFrame] at hs ⊢
    change ∃ q, (if c.channel_.isWriting then _ else _) = _
    split at hs
    · rename_i hw
      obtain rfl := Option.some.inj hs
      rw [if_pos hw]
      exact ⟨p, rfl⟩
    · rename_i hw
      obtain rfl := Option.some.inj hs
      obtain ⟨q, hq⟩ := c.updateChannel_on p c.channel_.enableWriting
      refine ⟨q, ?_⟩
      rw [if_neg hw, enableWriting]
      change some (frames { (c.on p).updateChannel c.channel_.enableWriting with
        enablesAfterClose := c.afterClose c.enablesAfterClose } _) = _
      rw [hq]
      rfl
  | destroyStore =>
    obtain rfl := Option.some.inj hs
    obtain ⟨q, hq⟩ := (c.setStates .kDisconnected).updateChannel_on p c.channel_.disableAll
    refine ⟨q, ?_⟩
    simp only [runFrame, disableAll]
    change some (frames (((c.setStates .kDisconnected).on p).updateChannel
      c.channel_.disableAll) _) = _
    rw [hq]
    rfl

theorem exec_on (c c' : TcpConnection T) (p : EpollPoller) (result : SocketResult)
    (hs : c.exec result = some c') : ∃ q, (c.on p).exec result = some (c'.on q) := by
  cases hcontrol : c.control with
  | functor f =>
    have hcontrol' : (c.on p).control = .functor f := hcontrol
    rw [exec, hcontrol] at hs
    rw [exec, hcontrol']
    obtain rfl := Option.some.inj hs
    obtain ⟨q, hq⟩ := c.runFunctor_on p f
    exact ⟨q, congrArg some hq⟩
  | doWriting =>
    have hcontrol' : (c.on p).control = .doWriting := hcontrol
    rw [exec, hcontrol] at hs
    rw [exec, hcontrol']
    exact c.doWriting_on c' p result hs
  | frames =>
    have hcontrol' : (c.on p).control = .frames := hcontrol
    rw [exec, hcontrol] at hs
    rw [exec, hcontrol']
    cases hstack : c.stack with
    | nil =>
      rw [hstack] at hs
      exact absurd hs (by simp)
    | cons frame stack =>
      have hstack' : (c.on p).stack = frame::stack := hstack
      rw [hstack] at hs
      rw [hstack']
      exact c.runFrame_on c' p stack result frame hs

variable [DecidableEq T]

theorem request_on (c : TcpConnection T) (p : EpollPoller) (r : Request) :
    (c.on p).request r = (c.request r).on p := by
  unfold request
  change (if c.state_ = .kConnected then _ else _) = _
  split
  · cases r <;> rfl
  · rfl

theorem call_on (c : TcpConnection T) (p : EpollPoller) (t : T) (r : Request) :
    (c.on p).call t r = (c.call t r).on p := by
  unfold call
  change (if c.state_ = .kConnected then _ else _) = _
  split
  · cases r <;> rfl
  · rfl

theorem step_on (c c' : TcpConnection T) (p : EpollPoller) (a : Act T)
    (hs : c.step a = some c') : ∃ q, (c.on p).step a = some (c'.on q) := by
  cases a with
  | exec result => exact c.exec_on c' p result hs
  | poll revents | userCode | setHighWaterMark mark | userReturns =>
    obtain ⟨hok, hc⟩ := Option.ite_none_right_eq_some.mp hs
    obtain rfl := Option.some.inj hc
    exact ⟨p, if_pos hok⟩
  | request r =>
    obtain ⟨hok, hc⟩ := Option.ite_none_right_eq_some.mp hs
    obtain rfl := Option.some.inj hc
    exact ⟨p, (if_pos hok).trans (congrArg some (c.request_on p r))⟩
  | call t r =>
    obtain ⟨hok, hc⟩ := Option.ite_none_right_eq_some.mp hs
    obtain rfl := Option.some.inj hc
    exact ⟨p, (if_pos hok).trans (congrArg some (c.call_on p t r))⟩
  | store t =>
    obtain ⟨hok, hc⟩ := Option.ite_none_right_eq_some.mp hs
    obtain rfl := Option.some.inj hc
    exact ⟨p, if_pos hok⟩
  | queueDestroyed =>
    obtain rfl := Option.some.inj hs
    exact ⟨p, rfl⟩
  | handleEvent =>
    cases hactive : c.active with
    | none => simp [step, hactive] at hs
    | some revents =>
      have hactive' : (c.on p).active = some revents := hactive
      simp only [step, hactive] at hs
      simp only [step, hactive']
      obtain ⟨hok, hc⟩ := Option.ite_none_right_eq_some.mp hs
      obtain rfl := Option.some.inj hc
      exact ⟨p, if_pos hok⟩
  | doPendingFunctor =>
    cases hpending : c.pendingFunctors_ with
    | nil => simp [step, hpending] at hs
    | cons f fs =>
      have hpending' : (c.on p).pendingFunctors_ = f::fs := hpending
      simp only [step, hpending] at hs
      simp only [step, hpending']
      obtain ⟨hok, hc⟩ := Option.ite_none_right_eq_some.mp hs
      obtain rfl := Option.some.inj hc
      exact ⟨p, if_pos hok⟩
  | post t =>
    cases hthread : c.threads t with
    | idle | storing => simp [step, hthread] at hs
    | posting f =>
      have hthread' : (c.on p).threads t = .posting f := hthread
      simp only [step, hthread] at hs
      simp only [step, hthread']
      obtain rfl := Option.some.inj hs
      exact ⟨p, rfl⟩

end TcpConnection

section

variable {T : Type}

def Functor.handed : Functor T → List (Option T × Bytes)
  | .sendInLoop call data => [(call.caller, data)]
  | .sendFileInLoop call file => [(call.caller, file.payload)]
  | _ => []

def Control.handed : Control T → List (Option T × Bytes)
  | .functor f => f.handed
  | _ => []

end

namespace TcpConnection

variable {T : Type}

variable [DecidableEq T]

end TcpConnection

namespace TcpServer

variable {T L : Type} [DecidableEq T] [DecidableEq L]

def ownAct (i : ℕ) : ServerAct T L → Option (Act T)
  | .conn j a => if j = i then some a else none
  | .removeConnectionInLoop j => if j = i then some .queueDestroyed else none
  | _ => none

/-- The descriptor and the loop that connection `i` is given, with what is done to
it from then on; `next` is the number of the next connection. -/
def part (i : ℕ) : ℕ → List (ServerAct T L) → Option (ℕ × L × List (Act T))
  | _, [] => none
  | next, .newConnection fd loop::as =>
    if next = i then some (fd, loop, as.filterMap (ownAct i)) else part i (next+1) as
  | next, _::as => part i next as

structure Alone (i : ℕ) (loop : L) (s : TcpServer T L) (c : TcpConnection T) : Prop where
  fresh : ∀ j, s.nextConnId_ ≤ j → s.conns j = none
  own : ∃ h p, s.conns i = some h ∧ h.loop = loop ∧ c = h.conn.on p

theorem step_fresh (s s' : TcpServer T L) (a : ServerAct T L)
    (h : ∀ j, s.nextConnId_ ≤ j → s.conns j = none) (hs : s.step a = some s') :
    ∀ j, s'.nextConnId_ ≤ j → s'.conns j = none := by
  intro j hj
  obtain ⟨-, -, hstep⟩ := step_stepped s a s' hs
  have hset : ∀ i k k', s.conns i = some k → s.nextConnId_ ≤ j →
      Function.update s.conns i (some k') j = none := by
    intro i k k' hi hj
    have hne : j ≠ i := by
      rintro rfl
      exact absurd (hi.symm.trans (h j hj)) (by simp)
    rw [Function.update_of_ne hne]
    exact h j hj
  cases hstep with
  | newConnection fd loop hfd =>
    have hlt : s.nextConnId_+1 ≤ j := hj
    change Function.update s.conns s.nextConnId_ _ j = none
    rw [Function.update_of_ne (by omega)]
    exact h j (by omega)
  | conn i k a c hi => exact hset i k _ hi hj
  | removeConnectionInLoop i k hi => exact hset i k _ hi hj
  | destruct i k hi => exact hset i k _ hi hj
  | useFreed => exact h j hj

/-- A step of the server is a step of the connection it is about, and none of
another one. -/
theorem step_alone (i : ℕ) (loop : L) (s : TcpServer T L) (c : TcpConnection T)
    (a : ServerAct T L) (s' : TcpServer T L) (h : Alone i loop s c) (hs : s.step a = some s') :
    ∃ d, run TcpConnection.step c (ownAct i a).toList = some d ∧ Alone i loop s' d := by
  have hfresh := step_fresh s s' a h.fresh hs
  obtain ⟨k, p, hi, hloop, rfl⟩ := h.own
  obtain ⟨-, -, hstep⟩ := step_stepped s a s' hs
  have hset : ∀ (j : ℕ) (k' : Held T L), j ≠ i →
      Function.update s.conns j (some k') i = some k := by
    intro j k' hne
    rw [Function.update_of_ne (Ne.symm hne)]
    exact hi
  cases hstep with
  | newConnection fd l hfd =>
    refine ⟨_, rfl, hfresh, k, p, hset _ _ ?_, hloop, rfl⟩
    intro he
    exact absurd (hi.symm.trans (h.fresh i (le_of_eq he))) (by simp)
  | conn j k' b d hj halive hb hd =>
    by_cases he : j = i
    · subst he
      obtain rfl := Option.some.inj (hi.symm.trans hj)
      obtain ⟨q, hq⟩ := TcpConnection.step_on _ d p b hd
      refine ⟨d.on q, ?_, hfresh, _, q, Function.update_self _ _ _, hloop, rfl⟩
      rw [ownAct, if_pos rfl]
      change ((k.conn.on p).step b).bind some = _
      rw [show (k.conn.on p).step b = some (d.on q) from hq]
      rfl
    · refine ⟨_, ?_, hfresh, k, p, hset j _ he, hloop, rfl⟩
      rw [ownAct, if_neg he]
      rfl
  | removeConnectionInLoop j k' hj hb =>
    by_cases he : j = i
    · subst he
      obtain rfl := Option.some.inj (hi.symm.trans hj)
      refine ⟨_, ?_, hfresh, _, p, Function.update_self _ _ _, hloop, rfl⟩
      rw [ownAct, if_pos rfl]
      rfl
    · refine ⟨_, ?_, hfresh, k, p, hset j _ he, hloop, rfl⟩
      rw [ownAct, if_neg he]
      rfl
  | destruct j k' hj halive hr =>
    by_cases he : j = i
    · subst he
      obtain rfl := Option.some.inj (hi.symm.trans hj)
      exact ⟨_, rfl, hfresh, _, p, Function.update_self _ _ _, hloop, rfl⟩
    · exact ⟨_, rfl, hfresh, k, p, hset j _ he, hloop, rfl⟩
  | useFreed j k' hj halive hl => exact ⟨_, rfl, hfresh, k, p, hi, hloop, rfl⟩

theorem run_part_from (i : ℕ) (s s' : TcpServer T L) (as : List (ServerAct T L))
    (hfresh : ∀ j, s.nextConnId_ ≤ j → s.conns j = none) (hnone : s.conns i = none)
    (hrun : run step s as = some s') (h : Held T L) (hi : s'.conns i = some h) :
    ∃ fd own p, part i s.nextConnId_ as = some (fd, h.loop, own) ∧
      run TcpConnection.step (.start fd i) own = some (h.conn.on p) := by
  induction as generalizing s with
  | nil =>
    obtain rfl := Option.some.inj hrun
    exact absurd (hnone.symm.trans hi) (by simp)
  | cons a as ih =>
    obtain ⟨t, ht, hrest⟩ := Option.bind_eq_some_iff.mp hrun
    have hfresh' := step_fresh s t a hfresh ht
    obtain ⟨-, -, hstep⟩ := step_stepped s a t ht
    have hset : ∀ (j : ℕ) (k k' : Held T L), s.conns j = some k →
        Function.update s.conns j (some k') i = none := by
      intro j k k' hj
      have hne : i ≠ j := by
        rintro rfl
        exact absurd (hj.symm.trans hnone) (by simp)
      rw [Function.update_of_ne hne]
      exact hnone
    cases hstep with
    | newConnection fd loop hfd =>
      rw [part]
      by_cases he : s.nextConnId_ = i
      · have hown : Alone i loop (s.newConnection fd loop) (.start fd i) :=
          ⟨hfresh', ⟨.start fd s.nextConnId_, loop, [], true⟩, {},
            by rw [← he]; exact Function.update_self _ _ _, rfl, by rw [he]; rfl⟩
        obtain ⟨d, hd, hown'⟩ := run_component step TcpConnection.step (ownAct i)
          (Alone i loop) (step_alone i loop) _ s' _ as hown hrest
        obtain ⟨k, p, hk, hloop, rfl⟩ := hown'.own
        obtain rfl := Option.some.inj (hi.symm.trans hk)
        refine ⟨fd, as.filterMap (ownAct i), p, ?_, hd⟩
        rw [if_pos he, hloop]
      · rw [if_neg he]
        refine ih (s.newConnection fd loop) hfresh' ?_ hrest
        change Function.update s.conns s.nextConnId_ _ i = none
        rw [Function.update_of_ne (Ne.symm he)]
        exact hnone
    | conn j k b d hj => exact ih (s.settle j k b d) hfresh' (hset j k _ hj) hrest
    | removeConnectionInLoop j k hj =>
      exact ih (s.removeConnectionInLoop j k) hfresh' (hset j k _ hj) hrest
    | destruct j k hj => exact ih (s.destruct j k) hfresh' (hset j k _ hj) hrest
    | useFreed => exact ih { s with freedUse := true } hfresh' hnone hrest

theorem run_part (i : ℕ) (s : TcpServer T L) (as : List (ServerAct T L))
    (hrun : run step {} as = some s) (h : Held T L) (hi : s.conns i = some h) :
    ∃ fd own p, part i 1 as = some (fd, h.loop, own) ∧
      run TcpConnection.step (.start fd i) own = some (h.conn.on p) :=
  run_part_from i {} s as (fun _ _ => rfl) rfl hrun h hi

def sendsTwo : List (ServerAct ℕ ℕ) :=
  [.conn 2 .doPendingFunctor, .conn 2 (.exec .again), .conn 2 (.request (.send [2])),
    .conn 2 (.exec .again), .conn 2 (.exec (.bytes 1))]

def bothSend : List (ServerAct ℕ ℕ) :=
  [.newConnection 7 0, .conn 1 .doPendingFunctor, .conn 1 (.exec .again), .newConnection 8 0,
    .conn 1 (.request (.send [1])), .conn 1 (.exec .again)] ++ sendsTwo

/-- Two servers that have done the same to a connection have the same connection,
whatever else they have done, but for what its poller holds. -/
theorem run_isolated (s s' : TcpServer T L) (as as' : List (ServerAct T L))
    (hrun : Ran as s) (hrun' : Ran as' s') (i : ℕ) (h h' : Held T L) (hi : s.conns i = some h)
    (hi' : s'.conns i = some h')
    (hsame : part i 1 as = part i 1 as') :
    h'.loop = h.loop ∧ h'.conn = { h.conn with poller := h'.conn.poller } := by
  obtain ⟨fd, own, p, hpart, hown⟩ := run_part i s as hrun.run h hi
  obtain ⟨fd', own', p', hpart', hown'⟩ := run_part i s' as' hrun'.run h' hi'
  rw [hpart, hpart'] at hsame
  simp only [Option.some.injEq, Prod.mk.injEq] at hsame
  obtain ⟨rfl, hloop, rfl⟩ := hsame
  refine ⟨hloop.symm, ?_⟩
  have hconn := Option.some.inj (hown.symm.trans hown')
  change (h'.conn.on p').on h'.conn.poller = h.conn.on h'.conn.poller
  rw [← hconn]
  rfl

def oneSends : List (ServerAct ℕ ℕ) := [.newConnection 5 1, .newConnection 8 0] ++ sendsTwo

theorem run_isolated_oneSends : ∃ s s' h h', run step {} bothSend = some s ∧
    run step {} oneSends = some s' ∧ s.conns 2 = some h ∧ s'.conns 2 = some h' ∧
    h'.conn = { h.conn with poller := h'.conn.poller } := by
  obtain ⟨s, hs⟩ : ∃ s, run step ({} : TcpServer ℕ ℕ) bothSend = some s := ⟨_, rfl⟩
  obtain ⟨s', hs'⟩ : ∃ s, run step ({} : TcpServer ℕ ℕ) oneSends = some s := ⟨_, rfl⟩
  obtain ⟨h, hh⟩ : ∃ h, s.conns 2 = some h := by
    obtain rfl := Option.some.inj hs
    exact ⟨_, rfl⟩
  obtain ⟨h', hh'⟩ : ∃ h, s'.conns 2 = some h := by
    obtain rfl := Option.some.inj hs'
    exact ⟨_, rfl⟩
  have hdefined : s.freedUse = false := by
    obtain rfl := Option.some.inj hs
    rfl
  have hdefined' : s'.freedUse = false := by
    obtain rfl := Option.some.inj hs'
    rfl
  exact ⟨s, s', h, h', hs, hs', hh, hh', (run_isolated s s' bothSend oneSends ⟨hs, hdefined⟩
    ⟨hs', hdefined'⟩ 2 h h' hh hh' (by decide)).2⟩

end TcpServer
end MuServer
