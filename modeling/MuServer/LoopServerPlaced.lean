import MuServer.LoopServerView
import MuServer.ServerCallbacks

/-!
# Where things are in the server with its loops

A functor waits in the loop of its connection, and a channel is waiting to be
handled only while its loop polls or handles channels.
-/

set_option autoImplicit false

namespace MuServer
open Lib.Machine

variable {T L : Type}

namespace LoopServer

def Fits (base : L) (conns : ℕ → Option (Held T L)) (l : L) : LoopFunctor T → Prop
  | .conn i _ => ∃ h, conns i = some h ∧ h.loop = l
  | .removeConnectionInLoop i => l = base ∧ ∃ h, conns i = some h ∧ h.loop ≠ base
  | .user => True

structure Placed (s : LoopServer T L) : Prop where
  fresh : ∀ i, s.server.nextConnId_ ≤ i → s.server.conns i = none
  fits : ∀ l, ∀ cb ∈ (s.loops l).waiting, Fits s.base s.server.conns l cb
  active : ∀ i h, s.server.conns i = some h → h.conn.active ≠ none →
    (s.loops h.loop).phase = .poll ∨ (s.loops h.loop).phase = .handlers
  failed : s.server.aborted = false → ∀ l, (s.server.pollers l).failed = false

theorem start_placed (base : L) : Placed ({ base := base } : LoopServer T L) where
  fresh := fun _ _ => rfl
  fits := by simp [EventLoop.waiting, EventLoop.batch]
  active := by simp
  failed := fun _ _ => rfl

def Keeps (conns conns' : ℕ → Option (Held T L)) : Prop :=
  ∀ i h, conns i = some h → ∃ h', conns' i = some h' ∧ h'.loop = h.loop

theorem keeps_update (conns : ℕ → Option (Held T L)) (i : ℕ) (h h' : Held T L)
    (hi : conns i = some h) (hl : h'.loop = h.loop) :
    Keeps conns (Function.update conns i (some h')) := by
  intro j k hj
  by_cases he : j = i
  · subst he
    obtain rfl := Option.some.inj (hi.symm.trans hj)
    exact ⟨h', Function.update_self .., hl⟩
  · exact ⟨k, (Function.update_of_ne he _ _).trans hj, rfl⟩

theorem keeps_new (conns : ℕ → Option (Held T L)) (i : ℕ) (h' : Held T L) (hi : conns i = none) :
    Keeps conns (Function.update conns i (some h')) := by
  intro j k hj
  have he : j ≠ i := by
    rintro rfl
    exact absurd (hi.symm.trans hj) (by simp)
  exact ⟨k, (Function.update_of_ne he _ _).trans hj, rfl⟩

theorem fits_keeps (base : L) (conns conns' : ℕ → Option (Held T L)) (hk : Keeps conns conns')
    (l : L) (cb : LoopFunctor T) (h : Fits base conns l cb) : Fits base conns' l cb := by
  cases cb with
  | conn i f =>
    obtain ⟨k, hi, hl⟩ := h
    obtain ⟨k', hi', hl'⟩ := hk i k hi
    exact ⟨k', hi', hl'.trans hl⟩
  | removeConnectionInLoop i =>
    obtain ⟨hb, k, hi, hl⟩ := h
    obtain ⟨k', hi', hl'⟩ := hk i k hi
    exact ⟨hb, k', hi', by rwa [hl']⟩
  | user => trivial

variable [DecidableEq L]

theorem fits_pushed [DecidableEq T] (s : LoopServer T L) (base : L)
    (conns : ℕ → Option (Held T L))
    (h : ∀ l, ∀ cb ∈ (s.loops l).waiting, Fits base conns l cb) (l : L) (cb : LoopFunctor T)
    (loop : EventLoop (LoopFunctor T) (T ⊕ L)) (hp : Pushed (s.loops l) cb loop)
    (hcb : Fits base conns l cb) :
    ∀ k, ∀ g ∈ ((s.setLoop l loop).loops k).waiting, Fits base conns k g := by
  intro k g hg
  change g ∈ (Function.update s.loops l loop k).waiting at hg
  by_cases hk : k = l
  · subst hk
    rw [Function.update_self, hp.waiting] at hg
    rcases List.mem_append.mp hg with hg | hg
    · exact h k g hg
    · obtain rfl := List.mem_singleton.mp hg
      exact hcb
  · rw [Function.update_of_ne hk] at hg
    exact h k g hg

theorem fits_taken (s : LoopServer T L) (base : L) (conns : ℕ → Option (Held T L))
    (h : ∀ l, ∀ cb ∈ (s.loops l).waiting, Fits base conns l cb) (l : L) (cb : LoopFunctor T)
    (loop : EventLoop (LoopFunctor T) (T ⊕ L)) (hw : (s.loops l).waiting = cb::loop.waiting) :
    ∀ k, ∀ g ∈ ((s.taken l loop cb).loops k).waiting, Fits base conns k g := by
  intro k g hg
  change g ∈ (Function.update s.loops l loop k).waiting at hg
  by_cases hk : k = l
  · subst hk
    rw [Function.update_self] at hg
    exact h k g (by rw [hw]; exact List.mem_cons_of_mem _ hg)
  · rw [Function.update_of_ne hk] at hg
    exact h k g hg

theorem pushed_phase [DecidableEq T] (s : LoopServer T L) (l : L) (cb : LoopFunctor T)
    (loop : EventLoop (LoopFunctor T) (T ⊕ L)) (hp : Pushed (s.loops l) cb loop) (k : L) :
    ((s.setLoop l loop).loops k).phase = (s.loops k).phase := by
  change (Function.update s.loops l loop k).phase = _
  by_cases hk : k = l
  · subst hk
    rw [Function.update_self, hp.phase]
  · rw [Function.update_of_ne hk]

/-- Between the functors of a batch no channel is waiting to be handled. -/
theorem running_inactive [DecidableEq T] (s : LoopServer T L) (hs : s.Placed) (l : L)
    (loop : EventLoop (LoopFunctor T) (T ⊕ L)) (h : (s.loops l).step .callFunctor = some loop)
    (i : ℕ) (k : Held T L) (hi : s.server.conns i = some k) (hl : k.loop = l) :
    k.conn.active = none := by
  by_contra hne
  have hphase := hs.active i k hi hne
  rw [hl] at hphase
  obtain ⟨-, h⟩ := Option.ite_none_left_eq_some.mp h
  rcases hphase with hp | hp <;> simp [EventLoop.loopStep, hp] at h

end LoopServer

namespace TcpConnection

theorem step_active_some [DecidableEq T] (c : TcpConnection T) (a : Act T) (c' : TcpConnection T)
    (hs : c.step a = some c') (hne : c'.active ≠ none) :
    c.active ≠ none ∨ ∃ revents, a = .poll revents := by
  cases step_stepped c a c' hs with
  | poll revents => exact Or.inr ⟨revents, rfl⟩
  | handleEvent => exact absurd rfl hne
  | functor result | writing result | frame result =>
    left
    rwa [(exec_kept c _ result hs).active] at hne
  | pending | userCode | refused | sends | shutdowns | setHighWaterMark | userReturns
  | callRefused | calls | callShutdown | store | post | queueDestroyed => exact Or.inl hne

end TcpConnection

namespace EventLoop

variable {F : Type}

/-- A step of a loop that handles channels leaves it there, unless it is the end of
the handlers. -/
theorem step_handling [DecidableEq T] (l l' : EventLoop F T) (a : LoopAct F T)
    (hs : l.step a = some l') (ha : a ≠ .handlersEnd)
    (hp : l.phase = .poll ∨ l.phase = .handlers) : l'.phase = .poll ∨ l'.phase = .handlers := by
  have hloop : ∀ b, b ≠ .handlersEnd → (if l.queueing then none else l.loopStep b) = some l' →
      l'.phase = .poll ∨ l'.phase = .handlers := by
    intro b hb h
    obtain ⟨-, h⟩ := Option.ite_none_left_eq_some.mp h
    rcases hp with hp | hp
    · cases b <;> simp [loopStep, hp] at h
      obtain rfl := h
      exact Or.inr rfl
    · cases b <;> simp [loopStep, hp] at h hb
      obtain rfl := h
      exact Or.inr hp
  have htail : ∀ b, (l.pushTail b).phase = l.phase := by
    intro b
    unfold pushTail
    split <;> rfl
  cases a with
  | push thread cb =>
    obtain ⟨-, hs⟩ := Option.ite_none_left_eq_some.mp hs
    obtain rfl := Option.some.inj hs
    exact hp
  | loopPush cb =>
    obtain ⟨-, hs⟩ := Option.ite_none_right_eq_some.mp hs
    obtain rfl := Option.some.inj hs
    exact hp
  | pushEnd thread =>
    obtain ⟨-, hs⟩ := Option.ite_none_right_eq_some.mp hs
    obtain rfl := Option.some.inj hs
    rw [← htail false] at hp
    exact hp
  | loopPushEnd =>
    obtain ⟨-, hs⟩ := Option.ite_none_right_eq_some.mp hs
    obtain rfl := Option.some.inj hs
    rw [← htail true] at hp
    exact hp
  | wakeup | quit =>
    obtain rfl := Option.some.inj hs
    exact hp
  | enterLoop | testQuit | pollReturns | handleRead | handlersEnd | swapFunctors | callFunctor
  | functorsEnd => exact hloop _ ha hs

end EventLoop

namespace LoopServer

variable [DecidableEq T] [DecidableEq L]

omit [DecidableEq T] in
theorem allOf_held (s : LoopServer T L) (hs : s.Placed) (l : L)
    (P : ℕ → TcpConnection T → Bool) (h : s.allOf l P = true) (i : ℕ) (k : Held T L)
    (hi : s.server.conns i = some k) (hl : k.loop = l) : P i k.conn = true := by
  have hlt : i < s.server.nextConnId_ := by
    by_contra hge
    exact absurd ((hs.fresh i (by omega)).symm.trans hi) (by simp)
  have hall := List.all_eq_true.mp h i (List.mem_range.mpr hlt)
  simpa [hi, hl] using hall

theorem settled_placed (s : LoopServer T L) (hs : s.Placed) (i : ℕ) (h : Held T L) (a : Act T)
    (c : TcpConnection T) (hi : s.server.conns i = some h) (haborted : s.server.aborted = false)
    (hactive : c.active ≠ none →
      (s.loops h.loop).phase = .poll ∨ (s.loops h.loop).phase = .handlers) :
    (s.settled i h a c).Placed where
  fresh := fun j hj => (Function.update_of_ne (by
    rintro rfl
    exact absurd ((hs.fresh j hj).symm.trans hi) (by simp)) _ _).trans (hs.fresh j hj)
  fits := fun l cb hcb => fits_keeps s.base s.server.conns _ (keeps_update _ i h {
    h with
    conn := c
    callers := TcpServer.callersAfter h.callers c a } hi rfl) l cb (hs.fits l cb hcb)
  active := TcpServer.held_update _ i _ (fun _ k => k.conn.active ≠ none →
    (s.loops k.loop).phase = .poll ∨ (s.loops k.loop).phase = .handlers) hactive
    (fun j k _ hj => hs.active j k hj)
  failed := fun hfailed => TcpServer.failed_update s.server.pollers h.loop c.poller (hs.failed haborted)
    hfailed

theorem setLoop_placed (s : LoopServer T L) (hs : s.Placed) (l : L) (cb : LoopFunctor T)
    (loop : EventLoop (LoopFunctor T) (T ⊕ L)) (hp : Pushed (s.loops l) cb loop)
    (hcb : Fits s.base s.server.conns l cb) : (s.setLoop l loop).Placed where
  fresh := hs.fresh
  fits := fits_pushed s s.base s.server.conns hs.fits l cb loop hp hcb
  active := by
    intro i k hi hne
    rw [pushed_phase s l cb loop hp]
    exact hs.active i k hi hne
  failed := hs.failed

omit [DecidableEq T] [DecidableEq L] in
theorem unlisted_placed (s : LoopServer T L) (hs : s.Placed) (i : ℕ) : (s.unlisted i).Placed :=
  ⟨hs.fresh, hs.fits, hs.active, hs.failed⟩

theorem taken_placed (s : LoopServer T L) (hs : s.Placed) (l : L) (cb : LoopFunctor T)
    (loop : EventLoop (LoopFunctor T) (T ⊕ L)) (h : (s.loops l).step .callFunctor = some loop)
    (hw : (s.loops l).waiting = cb::loop.waiting) : (s.taken l loop cb).Placed where
  fresh := hs.fresh
  fits := fits_taken s s.base s.server.conns hs.fits l cb loop hw
  active := by
    intro i k hi hne
    have hl : k.loop ≠ l := fun hl => hne (running_inactive s hs l loop h i k hi hl)
    change (Function.update s.loops l loop k.loop).phase = _ ∨
      (Function.update s.loops l loop k.loop).phase = _
    rw [Function.update_of_ne hl]
    exact hs.active i k hi hne
  failed := hs.failed

theorem passed_placed (s : LoopServer T L) (hs : s.Placed) (l : L)
    (a : LoopAct (LoopFunctor T) (T ⊕ L)) (loop : EventLoop (LoopFunctor T) (T ⊕ L))
    (hp : s.passes l a = true) (h : (s.loops l).step a = some loop) :
    (s.passed l a loop).Placed where
  fresh := hs.fresh
  fits := by
    intro k g hg
    change g ∈ (Function.update s.loops l loop k).waiting at hg
    by_cases hk : k = l
    · subst hk
      rw [Function.update_self] at hg
      rcases passed_waiting s k a loop hp h with hw | hw
      · exact hs.fits k g (hw ▸ hg)
      · rw [hw] at hg
        rcases List.mem_append.mp hg with hg | hg
        · exact hs.fits k g hg
        · obtain rfl := List.mem_singleton.mp hg
          trivial
    · rw [Function.update_of_ne hk] at hg
      exact hs.fits k g hg
  active := by
    intro i k hi hne
    have hold := hs.active i k hi hne
    change (Function.update s.loops l loop k.loop).phase = _ ∨
      (Function.update s.loops l loop k.loop).phase = _
    by_cases hl : k.loop = l
    · rw [hl, Function.update_self]
      rw [hl] at hold
      refine (s.loops l).step_handling loop a h ?_ hold
      rintro rfl
      have hhandled := allOf_held s hs l _ (Bool.and_eq_true_iff.mp hp).2 i k hi hl
      exact hne (Option.isNone_iff_eq_none.mp hhandled)
    · rw [Function.update_of_ne hl]
      exact hold
  failed := hs.failed

omit [DecidableEq T] [DecidableEq L] in
theorem accept_placed (s : LoopServer T L) (hs : s.Placed) (fd : ℕ) (l : L) :
    (s.accept fd l).Placed := by
  have hnew : s.server.conns s.server.nextConnId_ = none := hs.fresh _ (le_refl _)
  have hconns : (s.accept fd l).server.conns =
      Function.update s.server.conns s.server.nextConnId_ (some (s.created fd l)) :=
    Function.update_idem ..
  constructor
  · intro i hi
    change s.server.nextConnId_+1 ≤ i at hi
    rw [hconns, Function.update_of_ne (by omega)]
    exact hs.fresh i (by omega)
  · intro k cb hcb
    rw [hconns]
    exact fits_keeps s.base s.server.conns _ (keeps_new _ _ _ hnew) k cb (hs.fits k cb hcb)
  · rw [hconns]
    exact TcpServer.held_update _ _ _ (fun _ k => k.conn.active ≠ none →
      (s.loops k.loop).phase = .poll ∨ (s.loops k.loop).phase = .handlers)
      (fun hne => absurd rfl hne) (fun j k _ hj => hs.active j k hj)
  · exact hs.failed

omit [DecidableEq T] in
theorem destruct_placed (s : LoopServer T L) (hs : s.Placed) (i : ℕ) (h : Held T L)
    (hi : s.server.conns i = some h) (haborted : s.server.aborted = false) :
    Placed { s with server := s.server.destruct i h } where
  fresh := fun j hj => (Function.update_of_ne (by
    rintro rfl
    exact absurd ((hs.fresh j hj).symm.trans hi) (by simp)) _ _).trans (hs.fresh j hj)
  fits := fun l cb hcb => fits_keeps s.base s.server.conns _
    (keeps_update _ i h { h with alive := false } hi rfl) l cb (hs.fits l cb hcb)
  active := TcpServer.held_update _ i _ (fun _ k => k.conn.active ≠ none →
    (s.loops k.loop).phase = .poll ∨ (s.loops k.loop).phase = .handlers) (hs.active i h hi)
    (fun j k _ hj => hs.active j k hj)
  failed := fun _ => TcpServer.failed_update s.server.pollers h.loop _ (hs.failed haborted)
    (hs.failed haborted h.loop)

theorem settled_fits (s : LoopServer T L) (i : ℕ) (h : Held T L) (a : Act T) (c : TcpConnection T)
    (f : Functor T) : Fits s.base (s.settled i h a c).server.conns h.loop (.conn i f) :=
  ⟨_, Function.update_self .., rfl⟩

theorem admitted_active (s : LoopServer T L) (hs : s.Placed) (i : ℕ) (h : Held T L) (a : Act T)
    (c : TcpConnection T) (hi : s.server.conns i = some h) (ha : s.admits i h a = true)
    (hc : (s.server.attached h).step a = some c) (hne : c.active ≠ none) :
    (s.loops h.loop).phase = .poll ∨ (s.loops h.loop).phase = .handlers := by
  rcases (s.server.attached h).step_active_some a c hc hne with hold | ⟨revents, rfl⟩
  · exact hs.active i h hi hold
  · exact Or.inl (by simpa [admits] using ha)

theorem step_placed (s s' : LoopServer T L) (a : LoopServerAct T L) (hs : s.Placed)
    (hstep : s.step a = some s') : s'.Placed := by
  obtain ⟨haborted, -, hstep⟩ := step_stepped s s' a hstep
  cases hstep with
  | establishes fd =>
    exact settled_placed _ (accept_placed s hs fd s.base) _ _ _ _ (Function.update_self ..)
      haborted (fun hne => absurd rfl hne)
  | accepts fd l loop hl hfd hp =>
    exact setLoop_placed _ (accept_placed s hs fd l) l _ loop hp ⟨_, Function.update_self .., rfl⟩
  | passes l a loop hp hloop => exact passed_placed s hs l a loop hp hloop
  | runs i h a c hi halive ha hc hf =>
    exact settled_placed s hs i h a c hi haborted (admitted_active s hs i h a c hi ha hc)
  | closes i h a c loop hi halive ha hc hf hl hp =>
    have hsettled := settled_placed s hs i h a c hi haborted (admitted_active s hs i h a c hi ha hc)
    exact setLoop_placed _ (unlisted_placed _ hsettled i) s.base _ loop hp
      (hl ▸ settled_fits s i h a c .connectDestroyed)
  | closesAway i h a c loop hi halive ha hc hf hl hp =>
    have hsettled := settled_placed s hs i h a c hi haborted (admitted_active s hs i h a c hi ha hc)
    exact setLoop_placed _ hsettled s.base _ loop hp ⟨rfl, _, Function.update_self .., hl⟩
  | posts i h t f loop hi halive ht hp =>
    have hsettled := settled_placed s hs i h (.post t) { s.server.attached h with
      threads := Function.update h.conn.threads t .idle } hi haborted (hs.active i h hi)
    exact setLoop_placed _ hsettled h.loop _ loop hp (settled_fits s i h _ _ f)
  | calls l i h f loop hquiet hloop hw hi halive =>
    have htaken := taken_placed s hs l _ loop hloop hw
    exact settled_placed _ htaken i h _ _ hi haborted (htaken.active i h hi)
  | callsRemoval l i h loop loop' hquiet hloop hw hi hp =>
    have htaken := taken_placed s hs l _ loop hloop hw
    exact setLoop_placed _ (unlisted_placed _ htaken i) h.loop _ loop' hp ⟨h, hi, rfl⟩
  | callsUser l loop hquiet hloop hw => exact taken_placed s hs l _ loop hloop hw
  | destruct i h hi => exact destruct_placed s hs i h hi haborted
  | useFreed => exact ⟨hs.fresh, hs.fits, hs.active, hs.failed⟩

end LoopServer
end MuServer
