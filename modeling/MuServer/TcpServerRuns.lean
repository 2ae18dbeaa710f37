import Mathlib.Data.List.Nodup
import MuServer.TcpServerInvariant

/-!
# The lifecycle of connections

`lifeGuard` is the condition of the lifecycle: no channel is updated behind its
removal, and no functor with a bare `this` outlives its connection.
-/

set_option autoImplicit false

namespace MuServer
open Lib.Machine

variable {T L : Type}

namespace TcpServer

/-- Where the connection `i` goes from `h` to `h'`, the others stay. -/
theorem held_update (conns : ℕ → Option (Held T L)) (i : ℕ) (h' : Held T L)
    (P : ℕ → Held T L → Prop) (hi : P i h')
    (hothers : ∀ j k, j ≠ i → conns j = some k → P j k) :
    ∀ j k, Function.update conns i (some h') j = some k → P j k := by
  intro j k hj
  by_cases he : j = i
  · subst he
    rw [Function.update_self] at hj
    obtain rfl := Option.some.inj hj
    exact hi
  · rw [Function.update_of_ne he] at hj
    exact hothers j k he hj

theorem distinct_update (conns : ℕ → Option (Held T L)) (i : ℕ) (h' : Held T L)
    (hothers : ∀ j k l m, conns j = some l → conns k = some m → l.alive = true → m.alive = true →
      l.conn.channel_.fd_ = m.conn.channel_.fd_ → j = k)
    (hi : h'.alive = true → ∀ j k, j ≠ i → conns j = some k → k.alive = true →
      k.conn.channel_.fd_ ≠ h'.conn.channel_.fd_) :
    ∀ j k l m, Function.update conns i (some h') j = some l →
      Function.update conns i (some h') k = some m → l.alive = true → m.alive = true →
      l.conn.channel_.fd_ = m.conn.channel_.fd_ → j = k := by
  intro j k l m hj hk hl hm hfd
  by_cases hji : j = i
  · by_cases hki : k = i
    · exact hji.trans hki.symm
    · subst hji
      rw [Function.update_self] at hj
      rw [Function.update_of_ne hki] at hk
      obtain rfl := Option.some.inj hj
      exact absurd hfd.symm (hi hl k m hki hk hm)
  · rw [Function.update_of_ne hji] at hj
    by_cases hki : k = i
    · subst hki
      rw [Function.update_self] at hk
      obtain rfl := Option.some.inj hk
      exact absurd hfd (hi hm j l hji hj hl)
    · rw [Function.update_of_ne hki] at hk
      exact hothers j k l m hj hk hl hm hfd

theorem update_none (conns : ℕ → Option (Held T L)) (i : ℕ) (h' : Held T L) (j : ℕ) :
    Function.update conns i (some h') j = none ↔ j ≠ i ∧ conns j = none := by
  by_cases he : j = i
  · subst he
    simp
  · simp [he]

theorem found_update [DecidableEq L] (pollers : L → EpollPoller) (loop : L) (p : EpollPoller)
    (hothers : ∀ l, (pollers l).failedFind = false) (hp : p.failedFind = false) :
    ∀ l, (Function.update pollers loop p l).failedFind = false := by
  intro l
  by_cases he : l = loop
  · subst he
    rwa [Function.update_self]
  · rw [Function.update_of_ne he]
    exact hothers l

theorem held_lt (s : TcpServer T L) (hs : s.ServerSound) (i : ℕ) (h : Held T L)
    (hi : s.conns i = some h) : i < s.nextConnId_ := by
  by_contra hle
  have hnone := hs.fresh i (by omega)
  exact absurd (hnone.symm.trans hi) (by simp)

theorem fresh_update (s : TcpServer T L) (hs : s.ServerSound) (i : ℕ) (h h' : Held T L)
    (hi : s.conns i = some h) :
    ∀ j, s.nextConnId_ ≤ j → Function.update s.conns i (some h') j = none := by
  intro j hj
  have hlt := held_lt s hs i h hi
  exact (update_none s.conns i h' j).mpr ⟨by omega, hs.fresh j hj⟩

theorem start_held (connections base removed : List ℕ) (i fd : ℕ) (loop : L)
    (hc : i ∈ connections) (hb : i ∉ base) (hr : i ∉ removed) :
    HeldSound connections base removed i ({ conn := .start fd i, loop := loop } : Held T L) where
  life := TcpConnection.start_life fd i
  owner := rfl
  callbacks := by
    rw [List.count_eq_zero.mpr hb, List.count_eq_zero.mpr hr]
    rfl
  once := Nat.zero_le 1
  destroys := by
    rw [List.count_eq_zero.mpr hr]
    rfl
  callers := fun _ h => absurd rfl h
  listed := by simp [hc, hr]
  gone := fun h => absurd h (by simp)

variable [DecidableEq T] [DecidableEq L]

def firesOnce (s : TcpServer T L) : ServerAct T L → Bool
  | .conn i a =>
    match s.conns i with
    | some h => !h.conn.firesClose a || h.conn.closeCallbacks = 0
    | none => true
  | _ => true

def lifeGuard (s : TcpServer T L) : ServerAct T L → Bool
  | .conn i a =>
    match s.conns i with
    | some h => h.conn.removes = 0 || !h.conn.updates a
    | none => true
  | .destruct i =>
    match s.conns i with
    | some h => h.conn.pendingFunctors_.isEmpty
    | none => true
  | _ => true

omit [DecidableEq T] [DecidableEq L] in
theorem newConnection_sound (s : TcpServer T L) (hs : s.ServerSound) (fd : ℕ) (loop : L)
    (hfd : fd ∉ s.openFds) : (s.newConnection fd loop).ServerSound := by
  have hnone := hs.fresh s.nextConnId_ (le_refl _)
  obtain ⟨hc, hb, hr⟩ := hs.absent s.nextConnId_ hnone
  have hmem : ∀ j, j ≠ s.nextConnId_ →
      (j ∈ s.connections_ ++ [s.nextConnId_] ↔ j ∈ s.connections_) := by
    intro j hj
    simp [hj]
  constructor
  · apply held_update
    · exact start_held (s.connections_ ++ [s.nextConnId_]) _ _ _ fd loop (by simp) hb hr
    · intro j k hj hk
      exact heldSound_lists _ _ _ _ _ _ j k (hs.held j k hk) (hmem j hj) rfl rfl
  · intro loop' fd' j
    by_cases hj : j = s.nextConnId_
    · subst hj
      have hno : (s.pollers loop').channels_ fd' ≠ some s.nextConnId_ := by
        rw [ne_eq, hs.mapped]
        rintro ⟨k, hk, -⟩
        exact absurd (hnone.symm.trans hk) (by simp)
      simp [newConnection, setConn, hno, TcpConnection.start]
    · have hu : (s.newConnection fd loop).conns j = s.conns j := Function.update_of_ne hj _ _
      rw [hu]
      exact hs.mapped loop' fd' j
  · exact hs.found
  · apply held_update
    · intro _
      simp [newConnection, TcpConnection.start]
    · intro j k _ hk halive
      exact List.mem_append_left _ (hs.openFds j k hk halive)
  · apply distinct_update _ _ _ hs.distinct
    intro _ j k _ hk halive he
    have hm := hs.openFds j k hk halive
    rw [he] at hm
    exact hfd hm
  · intro j hj
    obtain ⟨hne, hj'⟩ := (update_none _ _ _ j).mp hj
    obtain ⟨hc', hb', hr'⟩ := hs.absent j hj'
    exact ⟨fun hm => hc' ((hmem j hne).mp hm), hb', hr'⟩
  · intro j hj
    have hle : s.nextConnId_+1 ≤ j := hj
    exact (update_none _ _ _ j).mpr ⟨by omega, hs.fresh j (by omega)⟩
  · have hn := (List.nodup_concat s.connections_ s.nextConnId_).mpr ⟨hc, hs.nodup⟩
    rwa [List.concat_eq_append] at hn
  · exact hs.defined

theorem settle_held (s : TcpServer T L) (hs : s.ServerSound) (i : ℕ) (h : Held T L) (a : Act T)
    (c : TcpConnection T) (hi : s.conns i = some h) (halive : h.alive = true)
    (ha : a ≠ .queueDestroyed) (hc : (s.attached h).step a = some c)
    (hfires : s.firesOnce (.conn i a) = true) (hguard : s.lifeGuard (.conn i a) = true) :
    HeldSound s.connections_ (s.settle i h a c).baseFunctors s.removed i
      { h with conn := c, callers := callersAfter h.callers c a } := by
  have hheld := hs.held i h hi
  have hlife := h.conn.life_poller hheld.life (s.pollers h.loop)
  have hcallbacks := (s.attached h).step_callbacks a c hc
  have hremoves : h.conn.removes ≠ 0 → h.conn.updates a = false := by
    intro hne
    simpa [lifeGuard, hi, hne] using hguard
  have hbase : (s.settle i h a c).baseFunctors.count i =
      s.baseFunctors.count i+(h.conn.firesClose a).toNat := by
    simp only [settle]
    cases h.conn.firesClose a with
    | true => simp
    | false => simp
  constructor
  · exact (s.attached h).step_life a c hlife hremoves hc
  · exact ((s.attached h).step_identity a c hc).2.trans hheld.owner
  · have hold := hheld.callbacks
    change _ = c.closeCallbacks
    rw [hbase, hcallbacks]
    change _ = h.conn.closeCallbacks+(h.conn.firesClose a).toNat
    omega
  · have hold := hheld.once
    change c.closeCallbacks ≤ 1
    rw [hcallbacks]
    change h.conn.closeCallbacks+(h.conn.firesClose a).toNat ≤ 1
    cases hf : h.conn.firesClose a with
    | true =>
      have hz : h.conn.closeCallbacks = 0 := by simpa [firesOnce, hi, hf] using hfires
      simp [hz]
    | false => simpa using hold
  · have hd := (s.attached h).step_destroys a c hlife ha hc
    exact hd.trans hheld.destroys
  · exact (s.attached h).step_callers a c h.callers hheld.callers hc
  · exact hheld.listed
  · intro hdead
    exact absurd (halive.symm.trans hdead) (by simp)

theorem settle_sound (s : TcpServer T L) (hs : s.ServerSound) (i : ℕ) (h : Held T L) (a : Act T)
    (c : TcpConnection T) (hi : s.conns i = some h) (halive : h.alive = true)
    (ha : a ≠ .queueDestroyed) (hc : (s.attached h).step a = some c)
    (hfires : s.firesOnce (.conn i a) = true) (hguard : s.lifeGuard (.conn i a) = true) :
    (s.settle i h a c).ServerSound := by
  have hfiled := conn_filed s hs i h a c hi halive hc
  have hfd : c.channel_.fd_ = h.conn.channel_.fd_ := ((s.attached h).step_identity a c hc).1
  have hbase : ∀ j, j ≠ i → (s.settle i h a c).baseFunctors.count j = s.baseFunctors.count j := by
    intro j hj
    simp only [settle]
    split
    · simp [hj.symm]
    · rfl
  constructor
  · apply held_update
    · exact settle_held s hs i h a c hi halive ha hc hfires hguard
    · intro j k hj hk
      exact heldSound_lists _ _ _ _ _ _ j k (hs.held j k hk) Iff.rfl (hbase j hj) rfl
  · exact mapped_update s.conns s.pollers hs.mapped i h _ c.poller hi rfl hfd hfiled.own
      hfiled.others
  · exact found_update s.pollers h.loop c.poller hs.found hfiled.found
  · apply held_update
    · intro _
      change c.channel_.fd_ ∈ s.openFds
      rw [hfd]
      exact hs.openFds i h hi halive
    · intro j k _ hk hka
      exact hs.openFds j k hk hka
  · apply distinct_update _ _ _ hs.distinct
    intro _ j k hj hk hka he
    change k.conn.channel_.fd_ = c.channel_.fd_ at he
    exact hj (hs.distinct j i k h hk hi hka halive (he.trans hfd))
  · intro j hj
    obtain ⟨hne, hj'⟩ := (update_none _ _ _ j).mp hj
    obtain ⟨hc', hb', hr'⟩ := hs.absent j hj'
    refine ⟨hc', ?_, hr'⟩
    rw [← List.count_pos_iff, hbase j hne, List.count_pos_iff]
    exact hb'
  · exact fresh_update s hs i h _ hi
  · exact hs.nodup
  · exact hs.defined

omit [DecidableEq L] in
theorem remove_held (s : TcpServer T L) (hs : s.ServerSound) (i : ℕ) (h : Held T L)
    (hi : s.conns i = some h) (hb : i ∈ s.baseFunctors) :
    HeldSound (s.connections_.erase i) (s.baseFunctors.erase i) (s.removed ++ [i]) i
      { h with conn := h.conn.queueInLoop .connectDestroyed } := by
  have hheld := hs.held i h hi
  have hcount : 0 < s.baseFunctors.count i := List.count_pos_iff.mpr hb
  constructor
  · exact h.conn.step_life .queueDestroyed _ hheld.life (fun _ => rfl) rfl
  · exact hheld.owner
  · have hold := hheld.callbacks
    rw [List.count_erase_self, List.count_append, List.count_singleton_self]
    change _ = h.conn.closeCallbacks
    omega
  · exact hheld.once
  · rw [List.count_append, List.count_singleton_self, ← hheld.destroys]
    exact h.conn.queueDestroyed_destroys
  · exact hheld.callers
  · simp [hs.nodup.not_mem_erase]
  · intro hdead
    have hr := List.count_pos_iff.mpr (hheld.gone hdead).1
    have h1 := hheld.callbacks
    have h2 := hheld.once
    omega

omit [DecidableEq L] in
theorem removeConnectionInLoop_sound (s : TcpServer T L) (hs : s.ServerSound) (i : ℕ)
    (h : Held T L) (hi : s.conns i = some h) (hb : i ∈ s.baseFunctors) :
    (s.removeConnectionInLoop i h).ServerSound := by
  have hheld := hs.held i h hi
  constructor
  · apply held_update
    · exact remove_held s hs i h hi hb
    · intro j k hj hk
      exact heldSound_lists _ _ _ (s.connections_.erase i) (s.baseFunctors.erase i)
        (s.removed ++ [i]) j k (hs.held j k hk) (List.mem_erase_of_ne hj)
        (List.count_erase_of_ne hj) (by simp [hj.symm])
  · intro loop fd j
    rw [show (s.removeConnectionInLoop i h).pollers = s.pollers from rfl, hs.mapped loop fd j]
    by_cases hj : j = i
    · subst hj
      simp [removeConnectionInLoop, setConn, hi, TcpConnection.queueInLoop]
    · have hu : (s.removeConnectionInLoop i h).conns j = s.conns j := Function.update_of_ne hj _ _
      rw [hu]
  · exact hs.found
  · apply held_update
    · exact hs.openFds i h hi
    · intro j k _ hk
      exact hs.openFds j k hk
  · apply distinct_update _ _ _ hs.distinct
    intro ha j k hj hk hka he
    exact hj (hs.distinct j i k h hk hi hka ha he)
  · intro j hj
    obtain ⟨hne, hj'⟩ := (update_none _ _ _ j).mp hj
    obtain ⟨hc', hb', hr'⟩ := hs.absent j hj'
    refine ⟨fun hm => hc' (List.mem_of_mem_erase hm), fun hm => hb' (List.mem_of_mem_erase hm), ?_⟩
    simp [removeConnectionInLoop, hr', hne]
  · exact fresh_update s hs i h _ hi
  · exact hs.nodup.erase i
  · exact hs.defined

omit [DecidableEq L] in
theorem released_parts (s : TcpServer T L) (i : ℕ) (h : Held T L) (hr : s.released i h = true) :
    i ∉ s.connections_ ∧ i ∉ s.baseFunctors ∧ h.conn.control = .frames ∧ h.conn.stack = [] ∧
      ∀ f ∈ h.conn.pendingFunctors_, f.holds = false := by
  simp only [released, Bool.and_eq_true, decide_eq_true_eq, TcpConnection.atRest_iff,
    List.all_eq_true, Bool.not_eq_true'] at hr
  exact ⟨hr.1.1.1.1, hr.1.1.1.2, hr.1.1.2.1, hr.1.1.2.2, hr.2⟩

theorem destruct_sound (s : TcpServer T L) (hs : s.ServerSound) (i : ℕ) (h : Held T L)
    (hi : s.conns i = some h) (halive : h.alive = true) (hr : s.released i h = true)
    (hguard : s.lifeGuard (.destruct i) = true) : (s.destruct i h).ServerSound := by
  have hheld := hs.held i h hi
  obtain ⟨hlisted, -, hcontrol, hstack, hpending⟩ := released_parts s i h hr
  have hremoved : i ∈ s.removed := by
    by_contra hne
    exact hlisted (hheld.listed.mpr hne)
  obtain ⟨hindex, hactive⟩ := released_index _ _ _ i h hheld hremoved hcontrol hstack hpending
  have hempty : h.conn.pendingFunctors_.isEmpty = true := by simpa [lifeGuard, hi] using hguard
  constructor
  · apply held_update
    · refine ⟨hheld.life, hheld.owner, hheld.callbacks, hheld.once, hheld.destroys, hheld.callers,
        hheld.listed, fun _ => ⟨hremoved, hindex, ?_⟩⟩
      simp [leftover, hempty, hactive]
    · intro j k _ hk
      exact hs.held j k hk
  · apply mapped_update s.conns s.pollers hs.mapped i h { h with alive := false }
      ((s.pollers h.loop).closed h.conn.channel_.fd_) hi rfl rfl
    · change (s.pollers h.loop).channels_ _ = some i ↔ h.conn.channel_.index_ ≠ .kNew
      rw [hs.mapped]
      simp [hi]
    · exact fun _ _ _ => Iff.rfl
  · exact found_update s.pollers h.loop _ hs.found (hs.found h.loop)
  · apply held_update
    · exact fun hdead => absurd hdead (by simp)
    · intro j k hj hk hka
      have hne : k.conn.channel_.fd_ ≠ h.conn.channel_.fd_ :=
        fun he => hj (hs.distinct j i k h hk hi hka halive he)
      exact (List.mem_erase_of_ne hne).mpr (hs.openFds j k hk hka)
  · apply distinct_update _ _ _ hs.distinct
    exact fun hdead => absurd hdead (by simp)
  · intro j hj
    exact hs.absent j ((update_none _ _ _ j).mp hj).2
  · exact fresh_update s hs i h _ hi
  · exact hs.nodup
  · exact hs.defined

theorem step_sound (s : TcpServer T L) (a : ServerAct T L) (s' : TcpServer T L)
    (h : s.ServerSound) (hfires : s.firesOnce a = true) (hguard : s.lifeGuard a = true)
    (hs : s.step a = some s') : s'.ServerSound := by
  obtain ⟨-, -, hstep⟩ := step_stepped s a s' hs
  cases hstep with
  | newConnection fd loop hfd => exact newConnection_sound s h fd loop hfd
  | conn i k a c hi halive ha hc => exact settle_sound s h i k a c hi halive ha hc hfires hguard
  | removeConnectionInLoop i k hi hb => exact removeConnectionInLoop_sound s h i k hi hb
  | destruct i k hi halive hr => exact destruct_sound s h i k hi halive hr hguard
  | useFreed i k hi halive hl =>
    have hgone := ((h.held i k hi).gone halive).2.2
    exact absurd (hgone.symm.trans hl) (by simp)

structure Lifecycle (s : TcpServer T L) : Prop where
  /-- `connections_` are the accepted connections that were not removed -/
  listed : ∀ i, i ∈ s.connections_ ↔ (∃ h, s.conns i = some h) ∧ i ∉ s.removed
  established : ∀ i h, s.conns i = some h → h.conn.established ≤ 1
  destroyed : ∀ i h, s.conns i = some h → h.conn.destroyed ≤ 1 ∧
    (h.conn.destroyed ≠ 0 → h.conn.established = 1 ∧ h.conn.closes ≠ 0)
  /-- a descriptor is closed behind the removal of its channel -/
  unmapped : ∀ i h, s.conns i = some h → h.alive = false →
    ∀ loop fd, (s.pollers loop).channels_ fd ≠ some i
  found : ∀ loop, (s.pollers loop).failedFind = false
  defined : s.freedUse = false

omit [DecidableEq T] [DecidableEq L] in
theorem sound_lifecycle (s : TcpServer T L) (hs : s.ServerSound) : s.Lifecycle where
  listed := by
    intro i
    cases hi : s.conns i with
    | none =>
      have ha := hs.absent i hi
      simp [ha.1]
    | some h =>
      rw [(hs.held i h hi).listed]
      simp
  established := by
    intro i h hi
    rcases (hs.held i h hi).life.aged with hy | hg
    · rw [hy.established]
      exact Nat.zero_le 1
    · rw [hg.established]
  destroyed := by
    intro i h hi
    have hheld := hs.held i h hi
    have h1 := hheld.destroys
    have h2 := hheld.callbacks
    have h3 := hheld.once
    have h4 := hheld.life.ledger.closing
    unfold TcpConnection.destroys at h1
    refine ⟨by omega, ?_⟩
    intro hne
    rcases hheld.life.aged with hy | hg
    · exact absurd hy.destroyed hne
    · exact ⟨hg.established, by omega⟩
  unmapped := by
    intro i h hi hdead loop fd hm
    obtain ⟨k, hk, -, -, hindex⟩ := (hs.mapped loop fd i).mp hm
    obtain rfl := Option.some.inj (hk.symm.trans hi)
    exact hindex ((hs.held i k hi).gone hdead).2.1
  found := hs.found
  defined := hs.defined

/-- The promises of the lifecycle hold in every run whose steps meet the guard. -/
theorem reach_lifecycle (s : TcpServer T L)
    (h : Reach step (fun s a => (s.firesOnce a && s.lifeGuard a) = true) {} s) : s.Lifecycle := by
  apply sound_lifecycle
  exact reach_invariant _ _ _ ServerSound start_sound
    (fun s a t hs hok ht => step_sound s a t hs (Bool.and_eq_true_iff.mp hok).1
      (Bool.and_eq_true_iff.mp hok).2 ht) s h

def readToEnd : List (ServerAct ℕ ℕ) :=
  [.newConnection 7 0, .conn 1 .doPendingFunctor, .conn 1 (.exec .again), .conn 1 .userReturns,
    .conn 1 (.call 1 (.sendFile ⟨[5], 0, 1⟩)), .conn 1 (.poll { rd := true }),
    .conn 1 .handleEvent, .conn 1 (.exec (.bytes 0)), .conn 1 (.exec .again),
    .conn 1 .userReturns, .conn 1 (.exec .again), .removeConnectionInLoop 1]

def destroyed : List (ServerAct ℕ ℕ) :=
  [.conn 1 .doPendingFunctor, .conn 1 (.exec .again), .conn 1 (.exec .again)]

def reused : List (ServerAct ℕ ℕ) :=
  [.destruct 1, .newConnection 7 0, .conn 2 .doPendingFunctor, .conn 2 (.exec .again)]

/-- The file of another thread runs behind `connectDestroyed`; the socket takes it
at once. -/
def fileInTime : List (ServerAct ℕ ℕ) :=
  readToEnd ++ [.conn 1 (.post 1)] ++ destroyed ++ [.conn 1 .doPendingFunctor,
    .conn 1 (.exec .again), .conn 1 (.exec (.bytes 1)), .conn 1 (.exec .again)] ++ reused

theorem reach_lifecycle_fileInTime :
    ∃ s, run step {} fileInTime = some s ∧ s.connections_ = [2] ∧ s.removed = [1] ∧
      (∀ loop, (s.pollers loop).failedFind = false) := by
  obtain ⟨s, hs⟩ : ∃ s, run step ({} : TcpServer ℕ ℕ) fileInTime = some s := ⟨_, rfl⟩
  have hreach := run_reach step (fun s a => s.firesOnce a && s.lifeGuard a) {} s fileInTime hs rfl
  have hfound := (reach_lifecycle s hreach).found
  obtain rfl := Option.some.inj hs
  exact ⟨_, hs, rfl, rfl, hfound⟩

/-- The socket does not take it: `doWriting` watches the removed channel again. -/
def fileTooLate : List (ServerAct ℕ ℕ) :=
  readToEnd ++ destroyed ++ [.conn 1 (.post 1), .conn 1 .doPendingFunctor, .conn 1 (.exec .again),
    .conn 1 (.exec .again), .conn 1 (.exec .again)] ++ reused

theorem fileTooLate_assert :
    ¬ ∀ s, Reach step (fun s a => s.firesOnce a = true) ({} : TcpServer ℕ ℕ) s → s.Lifecycle := by
  intro hall
  obtain ⟨s, hs⟩ : ∃ s, run step ({} : TcpServer ℕ ℕ) fileTooLate = some s := ⟨_, rfl⟩
  have hreach := run_reach step firesOnce {} s fileTooLate hs rfl
  have h := hall s hreach
  obtain rfl := Option.some.inj hs
  exact absurd (h.found 0) (by decide)

end TcpServer
end MuServer
