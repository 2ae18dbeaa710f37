import MuServer.WriteCallbacks

/-!
# Excursions above the high-water mark

`highWaterMarkTriggered_` is set with the report of an excursion and never
cleared. The first time that `totalPendingBytes_` comes back to the mark the
latch is stale, and no later excursion is reported.
-/

set_option autoImplicit false

namespace MuServer
open Lib.Machine

namespace Notified

variable {T : Type}

/-- A `doWriting` that has returned from a blocked socket with too much pending
has had its excursion reported once. -/
def Reported (s : Notified T) : Prop :=
  s.blocked = true → s.conn.highWaterCallback_ = true → s.conn.belowMark = false → s.reports = 1

def steadyMark (s : Notified T) : Act T → Bool
  | .setHighWaterMark _ => .enableWriting ∉ s.conn.stack
  | _ => true

/-- Above the mark `EAGAIN` finds the latch of this excursion, or finds it clear
and the front context with bytes left. -/
def latchGuard (s : Notified T) : Act T → Bool
  | .exec .again =>
    match s.conn.control, s.conn.contextQueue_ with
    | .doWriting, (_, ctx)::_ =>
      !s.conn.highWaterCallback_ || s.conn.belowMark ||
        (if s.conn.highWaterMarkTriggered_ then !s.fallen else 0 < ctx.remaining)
    | _, _ => true
  | _ => true

structure Latched (s : Notified T) : Prop where
  clear : s.conn.highWaterMarkTriggered_ = false → s.reports = 0 ∧ s.fallen = false
  set : s.conn.highWaterMarkTriggered_ = true → s.fallen = false →
    s.reports = 1 ∧ s.conn.belowMark = false
  stale : s.fallen = true → s.reports = 0 ∧ s.conn.highWaterMarkTriggered_ = true

structure HighWaterSound (s : Notified T) : Prop where
  errors : s.conn.hardErrors = 0
  writes : s.conn.WritesSound
  latch : s.Latched
  /-- within a `doWriting` that has met `EAGAIN`, unless another one runs -/
  inside : .enableWriting ∈ s.conn.stack → s.conn.atDoWriting = false →
    s.conn.highWaterCallback_ = true → s.conn.belowMark = false → s.reports = 1
  reported : s.Reported

theorem exceeds_eq (c : TcpConnection T) : c.exceedsHighWater =
    (!c.belowMark && !c.highWaterMarkTriggered_ && c.highWaterCallback_) := by
  have hbelow : decide (c.highWaterMark_ < c.totalPendingBytes_.toNat) = !c.belowMark := by
    rw [TcpConnection.belowMark, ← decide_not, decide_eq_decide]
    exact Nat.not_le.symm
  rw [TcpConnection.exceedsHighWater, hbelow]

theorem called_idle (s : Notified T) (a : Act T) (h : s.conn.atDoWriting = false) :
    s.called a = none := by
  cases a with
  | exec result =>
    cases hc : s.conn.control with
    | doWriting => simp [TcpConnection.atDoWriting, hc] at h
    | frames | functor => simp [called, TcpConnection.binds, hc]
  | _ => rfl

theorem settle_reports (s : Notified T) (a : Act T) (c : TcpConnection T)
    (hcalled : s.called a = none) :
    (s.settle a c).reports = if c.belowMark then 0 else s.reports := by
  simp [settle, hcalled]

theorem settle_latched (s : Notified T) (a : Act T) (c : TcpConnection T) (h : s.Latched)
    (htriggered : c.highWaterMarkTriggered_ = s.conn.highWaterMarkTriggered_)
    (hcalled : s.called a = none) : (s.settle a c).Latched := by
  have hreports := s.settle_reports a c hcalled
  have hfallen : (s.settle a c).fallen =
      (s.fallen || (c.highWaterMarkTriggered_ && c.belowMark)) := rfl
  constructor
  · intro hclear
    have hclear' : c.highWaterMarkTriggered_ = false := hclear
    obtain ⟨hr, hf⟩ := h.clear (htriggered ▸ hclear')
    constructor
    · rw [hreports, hr, ite_self]
    · rw [hfallen, hf, hclear']
      rfl
  · intro hset hnot
    have hset' : c.highWaterMarkTriggered_ = true := hset
    rw [hfallen, hset', Bool.true_and, Bool.or_eq_false_iff] at hnot
    obtain ⟨hr, -⟩ := h.set (htriggered ▸ hset') hnot.1
    rw [hreports, hnot.2, hr]
    exact ⟨rfl, hnot.2⟩
  · intro hstale
    rw [hfallen, Bool.or_eq_true, Bool.and_eq_true] at hstale
    rw [hreports]
    rcases hstale with hf | ⟨hset, hbelow⟩
    · obtain ⟨hr, hset⟩ := h.stale hf
      rw [hr, ite_self]
      exact ⟨rfl, htriggered.trans hset⟩
    · rw [hbelow]
      exact ⟨rfl, hset⟩

theorem settle_writing (s : Notified T) (a : Act T) (c : TcpConnection T) (h : s.HighWaterSound)
    (herrors : c.hardErrors = s.conn.hardErrors) (hwrites : c.WritesSound)
    (htriggered : c.highWaterMarkTriggered_ = s.conn.highWaterMarkTriggered_)
    (hcalled : s.called a = none) (hwriting : c.atDoWriting = true)
    (hreturns : s.conn.returnsBlocked a = false) : (s.settle a c).HighWaterSound where
  errors := herrors.trans h.errors
  writes := hwrites
  latch := s.settle_latched a c h.latch htriggered hcalled
  inside := fun _ hidle => absurd (hwriting.symm.trans hidle) (by simp)
  reported := fun hblocked => absurd (hreturns.symm.trans hblocked) (by simp)

theorem settle_quiet (s : Notified T) (a : Act T) (c : TcpConnection T) (h : s.HighWaterSound)
    (herrors : c.hardErrors = s.conn.hardErrors) (hwrites : c.WritesSound)
    (htriggered : c.highWaterMarkTriggered_ = s.conn.highWaterMarkTriggered_)
    (hmark : c.highWaterMark_ = s.conn.highWaterMark_)
    (htotal : c.totalPendingBytes_ = s.conn.totalPendingBytes_)
    (hcallback : c.highWaterCallback_ = s.conn.highWaterCallback_)
    (hcalled : s.called a = none)
    (hinside : .enableWriting ∈ c.stack → c.atDoWriting = false →
      .enableWriting ∈ s.conn.stack ∧ s.conn.atDoWriting = false)
    (hreturns : s.conn.returnsBlocked a = true →
      .enableWriting ∈ s.conn.stack ∧ s.conn.atDoWriting = false) :
    (s.settle a c).HighWaterSound := by
  have hbelow : c.belowMark = s.conn.belowMark := by
    simp [TcpConnection.belowMark, hmark, htotal]
  have habove : c.belowMark = false → (s.settle a c).reports = s.reports := by
    intro hb
    rw [s.settle_reports a c hcalled, hb]
    rfl
  have hone : .enableWriting ∈ s.conn.stack ∧ s.conn.atDoWriting = false →
      c.highWaterCallback_ = true → c.belowMark = false → (s.settle a c).reports = 1 := by
    rintro ⟨hstack, hidle⟩ hset hb
    rw [habove hb]
    exact h.inside hstack hidle (hcallback ▸ hset) (hbelow ▸ hb)
  exact
    { errors := herrors.trans h.errors
      writes := hwrites
      latch := s.settle_latched a c h.latch htriggered hcalled
      inside := fun hstack hidle => hone (hinside hstack hidle)
      reported := fun hblocked => hone (hreturns hblocked) }

theorem guard_latched (s : Notified T) (call : Call T) (ctx : Context)
    (rest : List (Call T × Context)) (h : s.HighWaterSound)
    (hcontrol : s.conn.control = .doWriting) (hq : s.conn.contextQueue_ = (call, ctx)::rest)
    (hguard : s.latchGuard (.exec .again) = true) (hset : s.conn.highWaterCallback_ = true)
    (habove : s.conn.belowMark = false) :
    (s.conn.highWaterMarkTriggered_ = true ∧ s.reports = 1) ∨
      (s.conn.highWaterMarkTriggered_ = false ∧ 0 < ctx.remaining) := by
  simp only [latchGuard, hcontrol, hq, hset, habove] at hguard
  cases htriggered : s.conn.highWaterMarkTriggered_ with
  | true =>
    left
    have hfallen : s.fallen = false := by simpa [htriggered] using hguard
    exact ⟨rfl, (h.latch.set htriggered hfallen).1⟩
  | false =>
    right
    exact ⟨rfl, by simpa [htriggered] using hguard⟩

def reporting (c : TcpConnection T) : TcpConnection T :=
  { c with highWaterMarkTriggered_ := true }.frames (.user::.enableWriting::c.stack)

theorem settle_reporting (s : Notified T) (a : Act T) (h : s.HighWaterSound)
    (hexceeds : s.conn.exceedsHighWater = true) (hcalled : s.called a = some .highWater)
    (hwrites : (reporting s.conn.issue).WritesSound) :
    (s.settle a (reporting s.conn.issue)).HighWaterSound := by
  rw [exceeds_eq] at hexceeds
  simp only [Bool.and_eq_true, Bool.not_eq_true'] at hexceeds
  obtain ⟨⟨habove, hclear⟩, -⟩ := hexceeds
  obtain ⟨hzero, hfallen⟩ := h.latch.clear hclear
  have habove' : (reporting s.conn.issue).belowMark = false := habove
  have hone : (s.settle a (reporting s.conn.issue)).reports = 1 := by
    simp [settle, hcalled, habove', hzero]
  exact
    { errors := h.errors
      writes := hwrites
      latch :=
        { clear := fun hnot => absurd hnot (by simp [settle, reporting, TcpConnection.frames])
          set := fun _ _ => ⟨hone, habove'⟩
          stale := fun hstale => absurd hstale (by simp [settle, hfallen, habove']) }
      inside := fun _ _ _ _ => hone
      reported := fun _ _ _ => hone }

theorem settle_blocks (s : Notified T) (call : Call T) (ctx : Context)
    (rest : List (Call T × Context)) (h : s.HighWaterSound)
    (hcontrol : s.conn.control = .doWriting) (hq : s.conn.contextQueue_ = (call, ctx)::rest)
    (hr : 0 < ctx.remaining) (hguard : s.latchGuard (.exec .again) = true)
    (hwrites : s.conn.issue.blocked.WritesSound) :
    (s.settle (.exec .again) s.conn.issue.blocked).HighWaterSound := by
  have hbinds : s.conn.binds (.exec .again) =
      if s.conn.exceedsHighWater then some (.copy .highWater) else none := by
    simp [TcpConnection.binds, hcontrol, TcpConnection.bindsIn_again s.conn call ctx rest hq, hr]
  cases hexceeds : s.conn.exceedsHighWater with
  | true =>
    have hcalled : s.called (.exec .again) = some .highWater := by
      simp [called, hbinds, hexceeds, Bound.invoke]
    have hblocked : s.conn.issue.blocked = reporting s.conn.issue := if_pos hexceeds
    rw [hblocked] at hwrites ⊢
    exact s.settle_reporting _ h hexceeds hcalled hwrites
  | false =>
    have hcalled : s.called (.exec .again) = none := by simp [called, hbinds, hexceeds]
    have hblocked : s.conn.issue.blocked = s.conn.issue.frames (.enableWriting::s.conn.stack) :=
      if_neg (by rw [Bool.not_eq_true]; exact hexceeds)
    have hreturns : s.conn.returnsBlocked (.exec .again) = false := by
      simp only [TcpConnection.returnsBlocked, hcontrol, hq]
      simp [Nat.ne_of_gt hr]
    rw [hblocked] at hwrites ⊢
    have hlatch := s.settle_latched (.exec .again)
      (s.conn.issue.frames (.enableWriting::s.conn.stack)) h.latch rfl hcalled
    refine ⟨h.errors, hwrites, hlatch, fun _ _ hset habove => ?_, ?_⟩
    · have habove' : s.conn.belowMark = false := habove
      have hset' : s.conn.highWaterCallback_ = true := hset
      rcases s.guard_latched call ctx rest h hcontrol hq hguard hset' habove' with
        ⟨-, hone⟩ | ⟨hclear, -⟩
      · rw [s.settle_reports _ _ hcalled]
        change (if s.conn.belowMark then 0 else s.reports) = 1
        rw [habove']
        exact hone
      · simp [exceeds_eq, habove', hclear, hset'] at hexceeds
    · exact fun hblocked => absurd (hreturns.symm.trans hblocked) (by simp)

theorem settle_nothing (s : Notified T) (call : Call T) (ctx : Context)
    (rest : List (Call T × Context)) (h : s.HighWaterSound)
    (hcontrol : s.conn.control = .doWriting) (hq : s.conn.contextQueue_ = (call, ctx)::rest)
    (hr : ctx.remaining = 0) (hguard : s.latchGuard (.exec .again) = true)
    (hwrites : (s.conn.issue.frames s.conn.stack).WritesSound) :
    (s.settle (.exec .again) (s.conn.issue.frames s.conn.stack)).HighWaterSound := by
  have hcalled : s.called (.exec .again) = none := by
    simp [called, TcpConnection.binds, hcontrol,
      TcpConnection.bindsIn_again s.conn call ctx rest hq, hr]
  have hlatch := s.settle_latched (.exec .again) (s.conn.issue.frames s.conn.stack) h.latch rfl
    hcalled
  have hone : s.conn.highWaterCallback_ = true → s.conn.belowMark = false →
      (s.settle (.exec .again) (s.conn.issue.frames s.conn.stack)).reports = 1 := by
    intro hset habove
    have habove' : (s.conn.issue.frames s.conn.stack).belowMark = false := habove
    rcases s.guard_latched call ctx rest h hcontrol hq hguard hset habove with
      ⟨-, hone⟩ | ⟨-, hpositive⟩
    · rw [s.settle_reports _ _ hcalled, habove']
      exact hone
    · omega
  exact ⟨h.errors, hwrites, hlatch, fun _ _ => hone, fun _ => hone⟩

theorem settle_empty (s : Notified T) (result : SocketResult) (h : s.HighWaterSound)
    (hcontrol : s.conn.control = .doWriting) (hq : s.conn.contextQueue_ = [])
    (hwrites : (s.conn.frames s.conn.stack).WritesSound) :
    (s.settle (.exec result) (s.conn.frames s.conn.stack)).HighWaterSound := by
  have hcalled : s.called (.exec result) = none := by
    simp [called, TcpConnection.binds, hcontrol, TcpConnection.bindsIn, hq]
  have hlatch := s.settle_latched (.exec result) (s.conn.frames s.conn.stack) h.latch rfl hcalled
  have hbelow : (s.conn.frames s.conn.stack).belowMark = true := by
    have htotal := (h.writes h.errors).total_eq
    rw [hq] at htotal
    change decide (s.conn.totalPendingBytes_.toNat ≤ s.conn.highWaterMark_) = true
    rw [htotal]
    simp [remainingBytes]
  have hno : (s.conn.frames s.conn.stack).belowMark = false → False :=
    fun habove => absurd (hbelow.symm.trans habove) (by simp)
  exact ⟨h.errors, hwrites, hlatch, fun _ _ _ habove => (hno habove).elim,
    fun _ _ habove => (hno habove).elim⟩

theorem drained_kept (c : TcpConnection T) : c.drained.hardErrors = c.hardErrors ∧
    c.drained.highWaterMarkTriggered_ = c.highWaterMarkTriggered_ ∧
    c.drained.control = c.control := by
  obtain ⟨poller, channel, hd⟩ := c.drained_channel
  rw [hd]
  exact ⟨rfl, rfl, rfl⟩

theorem doWriting_sound (s : Notified T) (result : SocketResult) (c : TcpConnection T)
    (h : s.HighWaterSound) (hcontrol : s.conn.control = .doWriting)
    (hw : s.conn.doWriting result = some c) (hsoft : s.soft (.exec result) = true)
    (hguard : s.latchGuard (.exec result) = true) :
    (s.settle (.exec result) c).HighWaterSound := by
  have hwrites := TcpConnection.doWriting_writes s.conn c h.writes result hw
  cases TcpConnection.doWriting_round s.conn c result hw with
  | empty _ hq => exact s.settle_empty result h hcontrol hq hwrites
  | blocks call ctx rest hq hr =>
    exact s.settle_blocks call ctx rest h hcontrol hq hr hguard hwrites
  | nothing call ctx rest hq hr =>
    exact s.settle_nothing call ctx rest h hcontrol hq hr hguard hwrites
  | fails => simp [soft, TcpConnection.atDoWriting, hcontrol] at hsoft
  | progress call ctx ctx' rest out n hq hwrote =>
    have hbinds := TcpConnection.bindsIn_bytes s.conn _ n hw
    have hcalled : s.called (.exec (.bytes n)) = none := by
      simp only [called, TcpConnection.binds, hcontrol, hbinds]
      split <;> rfl
    have hreturns : s.conn.returnsBlocked (.exec (.bytes n)) = false := by
      simp [TcpConnection.returnsBlocked, hcontrol, hq]
    have hloop : (s.conn.issue.took call ctx' rest out).atDoWriting = true := by
      simp [TcpConnection.atDoWriting, TcpConnection.took, TcpConnection.issue, hcontrol]
    exact s.settle_writing _ _ h rfl hwrites rfl hcalled hloop hreturns
  | drains call ctx ctx' out n hq hwrote hcomplete =>
    have hbinds := TcpConnection.bindsIn_bytes s.conn _ n hw
    have hcalled : s.called (.exec (.bytes n)) = none := by
      simp only [called, TcpConnection.binds, hcontrol, hbinds]
      split <;> rfl
    have hreturns : s.conn.returnsBlocked (.exec (.bytes n)) = false := by
      simp [TcpConnection.returnsBlocked, hcontrol, hq]
    obtain ⟨herrors, htriggered, hcontrol'⟩ := drained_kept (s.conn.issue.took call ctx' [] out)
    have hloop : (s.conn.issue.took call ctx' [] out).drained.atDoWriting = true := by
      rw [TcpConnection.atDoWriting, hcontrol']
      simp [TcpConnection.took, TcpConnection.issue, hcontrol]
    exact s.settle_writing _ _ h herrors hwrites htriggered hcalled hloop hreturns

theorem runFunctor_sound (s : Notified T) (result : SocketResult) (f : Functor T)
    (h : s.HighWaterSound) (hcontrol : s.conn.control = .functor f) :
    (s.settle (.exec result) (s.conn.runFunctor f)).HighWaterSound := by
  have hwrites := TcpConnection.runFunctor_writes s.conn h.writes f
  have hidle : s.conn.atDoWriting = false := by simp [TcpConnection.atDoWriting, hcontrol]
  have hcalled := s.called_idle (.exec result) hidle
  have hreturns : s.conn.returnsBlocked (.exec result) = false := by
    simp [TcpConnection.returnsBlocked, hcontrol]
  have hno : s.conn.returnsBlocked (.exec result) = true →
      .enableWriting ∈ s.conn.stack ∧ s.conn.atDoWriting = false :=
    fun hr => absurd (hreturns.symm.trans hr) (by simp)
  cases f with
  | sendInLoop call data =>
    simp only [TcpConnection.runFunctor, TcpConnection.sendInLoop] at hwrites ⊢
    by_cases hstate : s.conn.state_ = .kDisconnected
    · rw [if_pos hstate] at hwrites ⊢
      exact s.settle_quiet _ _ h rfl hwrites rfl rfl rfl rfl hcalled (fun hm _ => ⟨hm, hidle⟩) hno
    · rw [if_neg hstate] at hwrites ⊢
      exact s.settle_writing _ _ h rfl hwrites rfl hcalled rfl hreturns
  | sendFileInLoop call file => exact s.settle_writing _ _ h rfl hwrites rfl hcalled rfl hreturns
  | shutdownInLoop caller after =>
    exact s.settle_quiet _ _ h rfl hwrites rfl rfl rfl rfl hcalled (fun hm _ => ⟨hm, hidle⟩) hno
  | connectEstablished =>
    refine s.settle_quiet _ _ h rfl hwrites rfl rfl rfl rfl hcalled (fun hm _ => ?_) hno
    exact ⟨by simpa [TcpConnection.runFunctor, TcpConnection.frames] using hm, hidle⟩
  | connectDestroyed =>
    refine s.settle_quiet _ _ h rfl hwrites rfl rfl rfl rfl hcalled (fun hm _ => ⟨?_, hidle⟩) hno
    simp only [TcpConnection.runFunctor, TcpConnection.frames, List.mem_append] at hm
    refine hm.resolve_left ?_
    unfold TcpConnection.connectDestroyed
    split <;> simp

theorem runFrame_sound (s : Notified T) (result : SocketResult) (frame : Frame)
    (stack : List Frame) (c : TcpConnection T) (h : s.HighWaterSound)
    (hcontrol : s.conn.control = .frames) (hstack : s.conn.stack = frame::stack)
    (hr : s.conn.runFrame stack result frame = some c) :
    (s.settle (.exec result) c).HighWaterSound := by
  have hwrites := TcpConnection.runFrame_writes s.conn c h.writes stack result frame hr
  have hidle : s.conn.atDoWriting = false := by simp [TcpConnection.atDoWriting, hcontrol]
  have hcalled := s.called_idle (.exec result) hidle
  have htail : .enableWriting ∈ stack → .enableWriting ∈ s.conn.stack ∧
      s.conn.atDoWriting = false := by
    intro hm
    rw [hstack]
    exact ⟨List.mem_cons_of_mem _ hm, hidle⟩
  have hreturns : s.conn.returnsBlocked (.exec result) = true →
      .enableWriting ∈ s.conn.stack ∧ s.conn.atDoWriting = false := by
    intro hb
    simp only [TcpConnection.returnsBlocked, hcontrol, hstack] at hb
    split at hb
    · rename_i he _
      exact absurd he (by simp)
    · rename_i hf
      obtain ⟨rfl, -⟩ := List.cons.inj hf
      rw [hstack]
      exact ⟨List.mem_cons_self .., hidle⟩
    · exact absurd hb (by simp)
  cases TcpConnection.runFrame_framed s.conn c stack result frame hr with
  | handleRead =>
    refine s.settle_quiet _ _ h rfl hwrites rfl rfl rfl rfl hcalled (fun hm _ => htail ?_) hreturns
    refine (List.mem_cons.mp hm).resolve_left ?_
    unfold TcpConnection.afterRead
    split <;> simp
  | writes =>
    refine s.settle_quiet _ _ h rfl hwrites rfl rfl rfl rfl hcalled (fun _ hw => ?_) hreturns
    exact absurd hw (by simp [TcpConnection.atDoWriting])
  | handleClose =>
    refine s.settle_quiet _ _ h rfl hwrites rfl rfl rfl rfl hcalled (fun hm _ => htail ?_) hreturns
    simpa [TcpConnection.frames] using hm
  | destroyStore =>
    refine s.settle_quiet _ _ h rfl hwrites rfl rfl rfl rfl hcalled (fun hm _ => htail ?_) hreturns
    simpa [TcpConnection.frames] using hm
  | writesNothing | handleError | closeCallback | writingAlready | enableWriting | shutdownStore
  | removeChannel =>
    exact s.settle_quiet _ _ h rfl hwrites rfl rfl rfl rfl hcalled (fun hm _ => htail hm) hreturns

variable [DecidableEq T]

theorem step_sound (s : Notified T) (a : Act T) (t : Notified T) (h : s.HighWaterSound)
    (hsoft : s.soft a = true) (hsteady : s.steadyMark a = true) (hguard : s.latchGuard a = true)
    (hs : s.step a = some t) : t.HighWaterSound := by
  obtain ⟨hc, ht⟩ := s.step_conn a t hs
  have hwrites := TcpConnection.step_writes s.conn a t.conn h.writes hc
  rw [ht]
  have hidle : s.conn.control = .frames → s.conn.atDoWriting = false := by
    intro hcontrol
    simp [TcpConnection.atDoWriting, hcontrol]
  generalize hd : t.conn = d at hc hwrites
  cases TcpConnection.step_stepped s.conn a d hc with
  | functor result f hcontrol => exact s.runFunctor_sound result f h hcontrol
  | writing result _ hcontrol hw => exact s.doWriting_sound result d h hcontrol hw hsoft hguard
  | frame result frame stack _ hcontrol hstack hr =>
    exact s.runFrame_sound result frame stack d h hcontrol hstack hr
  | setHighWaterMark mark =>
    have hno : .enableWriting ∉ s.conn.stack := by simpa [steadyMark] using hsteady
    exact ⟨h.errors, hwrites, s.settle_latched _ _ h.latch rfl rfl, fun hm => absurd hm hno,
      fun hb => absurd hb (by simp [settle, TcpConnection.returnsBlocked])⟩
  | handleEvent revents hcontrol hstack =>
    refine s.settle_quiet _ _ h rfl hwrites rfl rfl rfl rfl rfl (fun hm _ => ?_) (by
      simp [TcpConnection.returnsBlocked])
    simp [Revents.handlers] at hm
  | pending f fs hcontrol =>
    exact s.settle_quiet _ _ h rfl hwrites rfl rfl rfl rfl rfl (fun hm _ => ⟨hm, hidle hcontrol⟩)
      (by simp [TcpConnection.returnsBlocked])
  | userCode hcontrol hstack =>
    exact s.settle_quiet _ _ h rfl hwrites rfl rfl rfl rfl rfl (fun hm _ => by simp at hm)
      (by simp [TcpConnection.returnsBlocked])
  | sends r f hcontrol =>
    exact s.settle_quiet _ _ h rfl hwrites rfl rfl rfl rfl rfl (fun hm _ => ⟨hm, hidle hcontrol⟩)
      (by simp [TcpConnection.returnsBlocked])
  | shutdowns hcontrol =>
    exact s.settle_quiet _ _ h rfl hwrites rfl rfl rfl rfl rfl
      (fun hm _ => ⟨by simpa using hm, hidle hcontrol⟩) (by simp [TcpConnection.returnsBlocked])
  | userReturns stack hcontrol hstack =>
    exact s.settle_quiet _ _ h rfl hwrites rfl rfl rfl rfl rfl
      (fun hm _ => ⟨hstack ▸ List.mem_cons_of_mem _ hm, hidle hcontrol⟩)
      (by simp [TcpConnection.returnsBlocked])
  | poll | refused | callRefused | calls | callShutdown | store | post | queueDestroyed =>
    exact s.settle_quiet _ _ h rfl hwrites rfl rfl rfl rfl rfl (fun hm hw => ⟨hm, hw⟩)
      (by simp [TcpConnection.returnsBlocked])

omit [DecidableEq T] in
theorem start_highWater (fd owner : ℕ) : (start (T := T) fd owner).HighWaterSound where
  errors := rfl
  writes := TcpConnection.start_writes fd owner
  latch := ⟨fun _ => ⟨rfl, rfl⟩, fun hset => absurd hset (by simp [start, TcpConnection.start]),
    fun hstale => absurd hstale (by simp [start])⟩
  inside := by simp [start, TcpConnection.start]
  reported := by simp [Reported, start]

omit [DecidableEq T] in
/-- Where the guard is not met the latch is that of an earlier excursion, or
clear with an empty context in front; either way this excursion has no report. -/
theorem unguarded (s : Notified T) (h : s.HighWaterSound)
    (hguard : s.latchGuard (.exec .again) = false) :
    ∃ call ctx rest, s.conn.control = .doWriting ∧ s.conn.contextQueue_ = (call, ctx)::rest ∧
      s.conn.highWaterCallback_ = true ∧ s.conn.belowMark = false ∧ s.reports = 0 ∧
      (s.conn.highWaterMarkTriggered_ = true ∨ ctx.remaining = 0) := by
  simp only [latchGuard] at hguard
  split at hguard
  · rename_i call ctx rest hcontrol hq
    simp only [Bool.or_eq_false_iff, Bool.not_eq_false'] at hguard
    obtain ⟨⟨hset, habove⟩, hlatch⟩ := hguard
    refine ⟨call, ctx, rest, hcontrol, hq, hset, habove, ?_⟩
    cases htriggered : s.conn.highWaterMarkTriggered_ with
    | true =>
      have hfallen : s.fallen = true := by simpa [htriggered] using hlatch
      exact ⟨(h.latch.stale hfallen).1, Or.inl rfl⟩
    | false =>
      have hempty : ctx.remaining = 0 := by simpa [htriggered] using hlatch
      exact ⟨(h.latch.clear htriggered).1, Or.inr hempty⟩
  · exact absurd hguard (by simp)

omit [DecidableEq T] in
theorem not_reported (s : Notified T) (hblocked : s.blocked = true)
    (hset : s.conn.highWaterCallback_ = true) (habove : s.conn.belowMark = false)
    (hzero : s.reports = 0) : ¬ s.Reported := by
  intro hreported
  have hone := hreported hblocked hset habove
  omega

theorem return_unreported (s : Notified T) (stack : List Frame)
    (hcontrol : s.conn.control = .frames) (hstack : s.conn.stack = .enableWriting::stack)
    (hset : s.conn.highWaterCallback_ = true) (habove : s.conn.belowMark = false)
    (hzero : s.reports = 0) : ∃ t, s.step (.exec .again) = some t ∧ ¬ t.Reported := by
  obtain ⟨d, hd, hdset, hdabove⟩ : ∃ d, s.conn.step (.exec .again) = some d ∧
      d.highWaterCallback_ = true ∧ d.belowMark = false := by
    simp only [TcpConnection.step, TcpConnection.exec, hcontrol, hstack]
    by_cases hw : s.conn.channel_.isWriting = true
    · exact ⟨s.conn.frames stack, if_pos hw, hset, habove⟩
    · exact ⟨s.conn.enableWriting.frames stack, if_neg hw, hset, habove⟩
  have hidle : s.conn.atDoWriting = false := by simp [TcpConnection.atDoWriting, hcontrol]
  have hreports := s.settle_reports (.exec .again) d (s.called_idle _ hidle)
  rw [hzero, ite_self] at hreports
  have hreturns : s.conn.returnsBlocked (.exec .again) = true := by
    simp [TcpConnection.returnsBlocked, hcontrol, hstack]
  refine ⟨s.settle (.exec .again) d, ?_, not_reported _ hreturns hdset hdabove hreports⟩
  rw [step, hd]
  rfl

/-- `doWriting` then returns unreported, at once or with its next statement. -/
theorem guard_exact (s : Notified T) (h : s.HighWaterSound)
    (hguard : s.latchGuard (.exec .again) = false) :
    ∃ t, (run step s [.exec .again] = some t ∨
      run step s [.exec .again, .exec .again] = some t) ∧ ¬ t.Reported := by
  obtain ⟨call, ctx, rest, hcontrol, hq, hset, habove, hzero, hlatch⟩ := s.unguarded h hguard
  have hexec : s.conn.step (.exec .again) = s.conn.issue.afterWrite call ctx rest .again := by
    simp [TcpConnection.step, TcpConnection.exec, hcontrol, TcpConnection.doWriting, hq]
  have hsilent : (decide (0 < ctx.remaining) && s.conn.exceedsHighWater) = false := by
    rw [exceeds_eq]
    rcases hlatch with htriggered | hempty
    · simp [htriggered]
    · simp [hempty]
  have hcalled : s.called (.exec .again) = none := by
    simp [called, TcpConnection.binds, hcontrol,
      TcpConnection.bindsIn_again s.conn call ctx rest hq, hsilent]
  by_cases hr : 0 < ctx.remaining
  · have hblocked : s.conn.issue.blocked = s.conn.issue.frames (.enableWriting::s.conn.stack) := by
      apply if_neg
      intro hexceeds
      have hexceeds' : s.conn.exceedsHighWater = true := hexceeds
      simp [hr, hexceeds'] at hsilent
    have hfirst : s.step (.exec .again) = some
        (s.settle (.exec .again) (s.conn.issue.frames (.enableWriting::s.conn.stack))) := by
      rw [step, hexec, TcpConnection.afterWrite, if_pos hr, hblocked]
      rfl
    have hreports := s.settle_reports (.exec .again)
      (s.conn.issue.frames (.enableWriting::s.conn.stack)) hcalled
    rw [hzero, ite_self] at hreports
    obtain ⟨t, ht, hunreported⟩ := return_unreported
      (s.settle (.exec .again) (s.conn.issue.frames (.enableWriting::s.conn.stack)))
      s.conn.stack rfl rfl hset habove hreports
    refine ⟨t, Or.inr ?_, hunreported⟩
    rw [run, hfirst, Option.bind_some, run, ht]
    rfl
  · have hreports := s.settle_reports (.exec .again) (s.conn.issue.frames s.conn.stack) hcalled
    rw [hzero, ite_self] at hreports
    have hreturns : s.conn.returnsBlocked (.exec .again) = true := by
      simp only [TcpConnection.returnsBlocked, hcontrol, hq]
      simp [Nat.eq_zero_of_not_pos hr]
    refine ⟨s.settle (.exec .again) (s.conn.issue.frames s.conn.stack), Or.inl ?_,
      not_reported _ hreturns hset habove hreports⟩
    rw [run, step, hexec, TcpConnection.afterWrite, if_neg hr]
    rfl

def guarded (s : Notified T) (a : Act T) : Bool := s.soft a && s.steadyMark a && s.latchGuard a

/-- Every run whose steps meet the guard reports each excursion once; where the
next `EAGAIN` does not meet it, its `doWriting` returns without a report. -/
theorem reach_reported (fd owner : ℕ) (s : Notified T)
    (h : Reach step (fun s a => s.guarded a = true) (start fd owner) s) :
    s.Reported ∧ (s.latchGuard (.exec .again) = false →
      ∃ t, (run step s [.exec .again] = some t ∨
        run step s [.exec .again, .exec .again] = some t) ∧ ¬ t.Reported) := by
  have hsound : s.HighWaterSound := by
    refine reach_invariant _ _ _ HighWaterSound (start_highWater fd owner) ?_ s h
    intro s a t hs hok ht
    simp only [guarded, Bool.and_eq_true] at hok
    exact step_sound s a t hs hok.1.1 hok.1.2 hok.2 ht
  exact ⟨hsound.reported, guard_exact s hsound⟩

def oneExcursion : List (Act ℕ) :=
  [.doPendingFunctor, .exec .again, .setHighWaterMark 1, .request (.send [1, 2]), .exec .again,
    .exec .again, .userReturns, .exec .again]

theorem reach_reported_oneExcursion :
    ∃ s, run step (start (T := ℕ) 5 0) oneExcursion = some s ∧ s.blocked = true ∧
      s.conn.totalPendingBytes_ = 2 ∧ s.Reported := by
  obtain ⟨s, hs⟩ : ∃ s, run step (start (T := ℕ) 5 0) oneExcursion = some s := ⟨_, rfl⟩
  have hreach := run_reach step guarded (start 5 0) s oneExcursion hs rfl
  have hreported := (reach_reported 5 0 s hreach).1
  obtain rfl := Option.some.inj hs
  exact ⟨_, hs, rfl, rfl, hreported⟩

def twoExcursions : List (Act ℕ) :=
  oneExcursion ++ [.userReturns, .poll { out := true }, .handleEvent, .exec .again,
    .exec (.bytes 2), .exec .again, .userCode, .request (.send [3, 4]), .exec .again, .exec .again,
    .exec .again]

theorem twoExcursions_unreported :
    ¬ ∀ s, Reach step (fun s a => (s.soft a && s.steadyMark a) = true) (start (T := ℕ) 5 0) s →
      s.Reported := by
  intro hall
  obtain ⟨s, hs⟩ : ∃ s, run step (start (T := ℕ) 5 0) twoExcursions = some s := ⟨_, rfl⟩
  have hreach := run_reach step (fun s a => s.soft a && s.steadyMark a) (start 5 0) s
    twoExcursions hs rfl
  have hreported := hall s hreach
  obtain rfl := Option.some.inj hs
  exact absurd (hreported rfl rfl rfl) (by decide)

end Notified
end MuServer
