import MuServer.TcpServer

/-!
# What holds of a server and its connections

`HeldSound` ties a connection to the lists of the server: its calls of
`closeCallback_` are in the base loop or done, and so are its `connectDestroyed`s.
`ServerSound` adds the agreement of the pollers' maps with the connections.
-/

set_option autoImplicit false

namespace MuServer

variable {T L : Type}

namespace TcpConnection

theorem life_poller (c : TcpConnection T) (h : c.Life) (p : EpollPoller) :
    Life { c with poller := p } where
  aged := by
    rcases h.aged with hy | hg
    · exact Or.inl ⟨hy.state, hy.stack, hy.active, hy.index, hy.threads, hy.closes, hy.established,
        hy.destroyed, hy.toEstablish⟩
    · exact Or.inr ⟨hg.established, hg.pending, hg.control, hg.threads⟩
  ledger := h.ledger
  threads := h.threads
  index := h.index
  active := h.active

variable [DecidableEq T]

theorem step_callbacks (c : TcpConnection T) (a : Act T) (c' : TcpConnection T)
    (hs : c.step a = some c') : c'.closeCallbacks = c.closeCallbacks+(c.firesClose a).toNat := by
  cases step_stepped c a c' hs with
  | functor result f hcontrol =>
    have hf : c.firesClose (.exec result) = false := by simp [firesClose, hcontrol]
    rw [hf]
    cases f with
    | sendInLoop call data =>
      simp only [runFunctor, sendInLoop]
      split <;> rfl
    | sendFileInLoop | shutdownInLoop | connectEstablished | connectDestroyed => rfl
  | writing result _ hcontrol hw =>
    have hf : c.firesClose (.exec result) = false := by simp [firesClose, hcontrol]
    rw [hf]
    cases doWriting_round c c' result hw with
    | empty | progress | nothing | fails => rfl
    | drains =>
      unfold drained
      split <;> rfl
    | blocks =>
      unfold blocked
      split <;> rfl
  | frame result frame stack _ hcontrol hstack hr =>
    have hf : c.firesClose (.exec result) = decide (frame = .closeCallback) := by
      simp [firesClose, hcontrol, hstack]
    rw [hf]
    cases runFrame_framed c c' stack result frame hr with
    | handleRead | writes | writesNothing | handleError | handleClose | closeCallback
    | writingAlready | enableWriting | shutdownStore | destroyStore | removeChannel => rfl
  | poll | handleEvent | pending | userCode | refused | sends | shutdowns | setHighWaterMark
  | userReturns | callRefused | calls | callShutdown | store | post | queueDestroyed => rfl

theorem step_identity (c : TcpConnection T) (a : Act T) (c' : TcpConnection T)
    (hs : c.step a = some c') :
    c'.channel_.fd_ = c.channel_.fd_ ∧ c'.channel_.owner = c.channel_.owner := by
  cases step_touch c a c' hs with
  | same hp hc =>
    rw [hc]
    exact ⟨rfl, rfl⟩
  | updated events hu hp hc =>
    obtain ⟨index, -, hi⟩ := c.poller.updateChannel_channel { c.channel_ with events_ := events }
    rw [hc, hi]
    exact ⟨rfl, rfl⟩
  | removed stack hcontrol hstack hstack' hp hc =>
    rw [hc]
    exact ⟨rfl, rfl⟩

theorem step_callers (c : TcpConnection T) (a : Act T) (c' : TcpConnection T) (callers : List T)
    (h : ∀ t, c.threads t ≠ .idle → t ∈ callers) (hs : c.step a = some c') :
    ∀ t, c'.threads t ≠ .idle → t ∈ TcpServer.callersAfter callers c' a := by
  cases step_stepped c a c' hs with
  | functor result | writing result | frame result =>
    rw [(exec_kept c _ result hs).threads]
    exact h
  | callRefused t r hstate =>
    intro u hu
    simp only [TcpServer.callersAfter]
    split
    · exact h u hu
    · exact List.mem_cons_of_mem _ (h u hu)
  | calls t r f hidle hstate hf =>
    intro u hu
    simp only [TcpServer.callersAfter, Function.update_self, reduceCtorEq, if_false]
    by_cases he : u = t
    · exact List.mem_cons.mpr (Or.inl he)
    · simp only [Function.update_of_ne he] at hu
      exact List.mem_cons_of_mem _ (h u hu)
  | callShutdown t hidle hstate =>
    intro u hu
    simp only [TcpServer.callersAfter, Function.update_self, reduceCtorEq, if_false]
    by_cases he : u = t
    · exact List.mem_cons.mpr (Or.inl he)
    · simp only [Function.update_of_ne he] at hu
      exact List.mem_cons_of_mem _ (h u hu)
  | store t hstoring =>
    intro u hu
    apply h
    by_cases he : u = t
    · subst he
      simp [hstoring]
    · change Function.update c.threads t _ u ≠ _ at hu
      rwa [Function.update_of_ne he] at hu
  | post t f hposting =>
    intro u hu
    by_cases he : u = t
    · subst he
      simp only [Function.update_self, ne_eq, not_true_eq_false] at hu
    · simp only [Function.update_of_ne he] at hu
      exact (List.mem_erase_of_ne he).mpr (h u hu)
  | poll | handleEvent | pending | userCode | refused | sends | shutdowns | setHighWaterMark
  | userReturns | queueDestroyed => exact h

end TcpConnection

structure HeldSound (connections base removed : List ℕ) (i : ℕ) (h : Held T L) : Prop where
  life : h.conn.Life
  owner : h.conn.channel_.owner = i
  callbacks : base.count i+removed.count i = h.conn.closeCallbacks
  once : h.conn.closeCallbacks ≤ 1
  destroys : h.conn.destroys = removed.count i
  callers : ∀ t, h.conn.threads t ≠ .idle → t ∈ h.callers
  listed : i ∈ connections ↔ i ∉ removed
  gone : h.alive = false →
    i ∈ removed ∧ h.conn.channel_.index_ = .kNew ∧ TcpServer.leftover h = false

theorem heldSound_lists (connections base removed connections' base' removed' : List ℕ) (i : ℕ)
    (h : Held T L) (hs : HeldSound connections base removed i h)
    (hc : i ∈ connections' ↔ i ∈ connections) (hb : base'.count i = base.count i)
    (hr : removed'.count i = removed.count i) : HeldSound connections' base' removed' i h := by
  have hm : i ∈ removed' ↔ i ∈ removed := by
    rw [← List.count_pos_iff, ← List.count_pos_iff, hr]
  constructor
  · exact hs.life
  · exact hs.owner
  · rw [hb, hr]
    exact hs.callbacks
  · exact hs.once
  · rw [hr]
    exact hs.destroys
  · exact hs.callers
  · rw [hc, hm]
    exact hs.listed
  · rw [hm]
    exact hs.gone

theorem released_index (connections base removed : List ℕ) (i : ℕ) (h : Held T L)
    (hs : HeldSound connections base removed i h) (hi : i ∈ removed)
    (hcontrol : h.conn.control = .frames) (hstack : h.conn.stack = [])
    (hp : ∀ f ∈ h.conn.pendingFunctors_, f.holds = false) :
    h.conn.channel_.index_ = .kNew ∧ h.conn.active = none := by
  have hcount : 0 < removed.count i := List.count_pos_iff.mpr hi
  have hpending : h.conn.pendingFunctors_.countP Functor.isDestroy = 0 := by
    apply List.countP_eq_zero.mpr
    intro f hf hd
    have hh := hp f hf
    cases f <;> simp [Functor.isDestroy, Functor.holds] at hd hh
  have hdestroyed : h.conn.destroyed ≠ 0 := by
    have hd := hs.destroys
    simp only [TcpConnection.destroys, hcontrol, Control.isDestroy, hpending, Bool.toNat_false] at hd
    omega
  have hremoves : h.conn.removes ≠ 0 := by
    have hl := hs.life.ledger.removing
    rw [hstack, List.count_nil] at hl
    omega
  exact ⟨hs.life.index.mpr (Or.inr hremoves), hs.life.active (Or.inr hdestroyed)⟩

namespace TcpServer

def Mapped (conns : ℕ → Option (Held T L)) (pollers : L → EpollPoller) : Prop :=
  ∀ loop fd i, (pollers loop).channels_ fd = some i ↔
    ∃ h, conns i = some h ∧ h.loop = loop ∧ h.conn.channel_.fd_ = fd ∧
      h.conn.channel_.index_ ≠ .kNew

structure ServerSound (s : TcpServer T L) : Prop where
  held : ∀ i h, s.conns i = some h → HeldSound s.connections_ s.baseFunctors s.removed i h
  mapped : Mapped s.conns s.pollers
  found : ∀ loop, (s.pollers loop).failedFind = false
  openFds : ∀ i h, s.conns i = some h → h.alive = true → h.conn.channel_.fd_ ∈ s.openFds
  distinct : ∀ i j h k, s.conns i = some h → s.conns j = some k → h.alive = true →
    k.alive = true → h.conn.channel_.fd_ = k.conn.channel_.fd_ → i = j
  absent : ∀ i, s.conns i = none → i ∉ s.connections_ ∧ i ∉ s.baseFunctors ∧ i ∉ s.removed
  fresh : ∀ i, s.nextConnId_ ≤ i → s.conns i = none
  nodup : s.connections_.Nodup
  defined : s.freedUse = false

theorem start_sound : ServerSound ({} : TcpServer T L) where
  held := by simp
  mapped := by simp [Mapped]
  found := by simp
  openFds := by simp
  distinct := by simp
  absent := by simp
  fresh := by simp
  nodup := List.nodup_nil
  defined := rfl

theorem mapped_alive (s : TcpServer T L) (hs : s.ServerSound) (i : ℕ) (h : Held T L)
    (hi : s.conns i = some h) (hindex : h.conn.channel_.index_ ≠ .kNew) : h.alive = true := by
  by_contra hne
  exact hindex ((hs.held i h hi).gone (by simpa using hne)).2.1

/-- The descriptor of a live connection with a new channel is in no map. -/
theorem new_unmapped (s : TcpServer T L) (hs : s.ServerSound) (i : ℕ) (h : Held T L)
    (hi : s.conns i = some h) (halive : h.alive = true) (hindex : h.conn.channel_.index_ = .kNew)
    (loop : L) : (s.pollers loop).channels_ h.conn.channel_.fd_ = none := by
  cases hm : (s.pollers loop).channels_ h.conn.channel_.fd_ with
  | none => rfl
  | some j =>
    obtain ⟨k, hj, -, hfd, hk⟩ := (hs.mapped loop _ j).mp hm
    have hkalive := mapped_alive s hs j k hj hk
    obtain rfl := hs.distinct j i k h hj hi hkalive halive hfd
    obtain rfl := Option.some.inj (hj.symm.trans hi)
    exact absurd hindex hk

theorem mapped_update [DecidableEq L] (conns : ℕ → Option (Held T L)) (pollers : L → EpollPoller)
    (h : Mapped conns pollers) (i : ℕ) (k k' : Held T L) (p : EpollPoller)
    (hi : conns i = some k) (hloop : k'.loop = k.loop)
    (hfd : k'.conn.channel_.fd_ = k.conn.channel_.fd_)
    (hown : p.channels_ k.conn.channel_.fd_ = some i ↔ k'.conn.channel_.index_ ≠ .kNew)
    (hothers : ∀ fd j, fd ≠ k.conn.channel_.fd_ ∨ j ≠ i →
      (p.channels_ fd = some j ↔ (pollers k.loop).channels_ fd = some j)) :
    Mapped (Function.update conns i (some k')) (Function.update pollers k.loop p) := by
  intro loop fd j
  by_cases hj : j = i
  · subst hj
    simp only [Function.update_self, Option.some.injEq, exists_eq_left']
    by_cases hl : loop = k.loop
    · subst hl
      rw [Function.update_self]
      by_cases hf : fd = k.conn.channel_.fd_
      · subst hf
        rw [hown]
        simp [hloop, hfd]
      · rw [hothers fd j (Or.inl hf), h k.loop fd j]
        have hf' : ¬ k.conn.channel_.fd_ = fd := fun he => hf he.symm
        simp [hi, hfd, hf']
    · rw [Function.update_of_ne hl, h loop fd j]
      have hl' : ¬ k.loop = loop := fun he => hl he.symm
      simp [hi, hloop, hl']
  · rw [Function.update_of_ne hj]
    by_cases hl : loop = k.loop
    · subst hl
      rw [Function.update_self, hothers fd j (Or.inr hj)]
      exact h k.loop fd j
    · rw [Function.update_of_ne hl]
      exact h loop fd j

structure Filed (p p' : EpollPoller) (i fd : ℕ) (index : Index) : Prop where
  own : p'.channels_ fd = some i ↔ index ≠ .kNew
  others : ∀ fd' j, fd' ≠ fd ∨ j ≠ i → (p'.channels_ fd' = some j ↔ p.channels_ fd' = some j)
  found : p'.failedFind = false

theorem filed_set (p p' : EpollPoller) (i fd : ℕ) (index : Index) (entry : Option ℕ)
    (hp : p'.channels_ = Function.update p.channels_ fd entry)
    (hentry : entry = some i ↔ index ≠ .kNew) (hnone : entry = none ∨ entry = some i)
    (hold : p.channels_ fd = none ∨ p.channels_ fd = some i) (hfound : p'.failedFind = false) :
    Filed p p' i fd index where
  own := by
    rw [hp, Function.update_self]
    exact hentry
  others := by
    intro fd' j hne
    rw [hp]
    by_cases he : fd' = fd
    · subst he
      have hj : i ≠ j := (hne.resolve_left (fun hn => hn rfl)).symm
      rw [Function.update_self]
      rcases hnone with hn | hn <;> rcases hold with ho | ho <;> simp [hn, ho, hj]
    · rw [Function.update_of_ne he]
  found := hfound

theorem own_mapped (s : TcpServer T L) (hs : s.ServerSound) (i : ℕ) (h : Held T L)
    (hi : s.conns i = some h) :
    (s.pollers h.loop).channels_ h.conn.channel_.fd_ = some i ↔
      h.conn.channel_.index_ ≠ .kNew := by
  rw [hs.mapped]
  simp [hi]

theorem own_holds (s : TcpServer T L) (hs : s.ServerSound) (i : ℕ) (h : Held T L)
    (hi : s.conns i = some h) (hindex : h.conn.channel_.index_ ≠ .kNew) (events : Events) :
    (s.pollers h.loop).holds { h.conn.channel_ with events_ := events } = true := by
  have hmem := (own_mapped s hs i h hi).mpr hindex
  simp [EpollPoller.holds, hmem, (hs.held i h hi).owner]

theorem updateChannel_filed (s : TcpServer T L) (hs : s.ServerSound) (i : ℕ) (h : Held T L)
    (hi : s.conns i = some h) (halive : h.alive = true) (channel : Channel) (events : Events)
    (hchannel : channel = { h.conn.channel_ with events_ := events }) :
    Filed (s.pollers h.loop) ((s.pollers h.loop).updateChannel channel).1 i h.conn.channel_.fd_
      ((s.pollers h.loop).updateChannel channel).2.index_ := by
  have howner : channel.owner = i := by
    rw [hchannel]
    exact (hs.held i h hi).owner
  have hfound := hs.found h.loop
  obtain ⟨index, hne, hindex'⟩ := (s.pollers h.loop).updateChannel_channel channel
  have hindex : ((s.pollers h.loop).updateChannel channel).2.index_ ≠ .kNew := by
    rw [hindex']
    exact hne
  by_cases hnew : h.conn.channel_.index_ = .kNew
  · have hnone := new_unmapped s hs i h hi halive hnew h.loop
    obtain ⟨hmap, hfail⟩ := (s.pollers h.loop).updateChannel_new channel (by rwa [hchannel])
    apply filed_set _ _ _ _ _ (some channel.owner)
    · rw [hmap, hchannel]
    · simp [howner, hindex]
    · exact Or.inr (by rw [howner])
    · exact Or.inl hnone
    · rw [hfail, hchannel]
      simp [hfound, hnone]
  · obtain ⟨hmap, hfail⟩ := (s.pollers h.loop).updateChannel_old channel (by rwa [hchannel])
    have hmem := (own_mapped s hs i h hi).mpr hnew
    constructor
    · rw [hmap]
      simp [hindex, hmem]
    · intro fd' j _
      rw [hmap]
    · rw [hfail, hfound, hchannel, own_holds s hs i h hi hnew events]
      rfl

/-- `removeChannel` of a connection that is destroyed for the first time. -/
theorem removeChannel_filed (s : TcpServer T L) (hs : s.ServerSound) (i : ℕ) (h : Held T L)
    (hi : s.conns i = some h) (hindex : h.conn.channel_.index_ ≠ .kNew) :
    Filed (s.pollers h.loop) ((s.pollers h.loop).removeChannel h.conn.channel_).1 i
      h.conn.channel_.fd_ .kNew := by
  obtain ⟨hmap, hfail, -⟩ := (s.pollers h.loop).removeChannel_map h.conn.channel_
  apply filed_set _ _ _ _ _ none hmap
  · simp
  · exact Or.inl rfl
  · exact Or.inr ((own_mapped s hs i h hi).mpr hindex)
  · have hh := own_holds s hs i h hi hindex h.conn.channel_.events_
    rw [hfail, hs.found h.loop, hh]
    rfl

theorem conn_filed [DecidableEq T] (s : TcpServer T L) (hs : s.ServerSound) (i : ℕ)
    (h : Held T L) (a : Act T) (c : TcpConnection T) (hi : s.conns i = some h)
    (halive : h.alive = true) (hc : (s.attached h).step a = some c) :
    Filed (s.pollers h.loop) c.poller i h.conn.channel_.fd_ c.channel_.index_ := by
  have hheld := hs.held i h hi
  cases (s.attached h).step_touch a c hc with
  | same hp hch =>
    rw [hp, hch]
    exact ⟨own_mapped s hs i h hi, fun _ _ _ => Iff.rfl, hs.found h.loop⟩
  | updated events hu hp hch =>
    rw [hp, hch]
    exact updateChannel_filed s hs i h hi halive _ events rfl
  | removed stack hcontrol hstack hstack' hp hch =>
    have hd : h.conn.destroys ≤ 1 := by
      have h1 := hheld.destroys
      have h2 := hheld.callbacks
      have h3 := hheld.once
      omega
    obtain ⟨-, hindex⟩ := h.conn.removing_index hheld.life hd stack hstack
    rw [hp, hch]
    exact removeChannel_filed s hs i h hi hindex

end TcpServer
end MuServer
