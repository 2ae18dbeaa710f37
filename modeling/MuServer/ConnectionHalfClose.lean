import MuServer.ConnectionQueue

/-!
# What is written before the half-close

A call of `shutdown` is queued behind the earlier calls of its caller. `Heard`
says that every accepted call is on its way and that in front of a pending
`shutdownInLoop` stand the calls it counted.
-/

set_option autoImplicit false

namespace MuServer
open Lib.Machine Lib.Tickets

variable {T : Type}

/-- In front of each `shutdownInLoop` stand the calls it counted. -/
def Covered : List (Call T) → List (Functor T) → Prop
  | _, [] => True
  | front, f::fs =>
    (∀ caller after, f = .shutdownInLoop caller after → Covers front caller after) ∧
      Covered (front ++ f.calls) fs

theorem covered_subset (front front' : List (Call T)) (fs : List (Functor T))
    (h : Covered front fs) (hs : front ⊆ front') : Covered front' fs := by
  induction fs generalizing front front' with
  | nil => exact trivial
  | cons f fs ih =>
    constructor
    · intro caller after hf
      exact covers_subset _ _ _ _ (h.1 caller after hf) hs
    · apply ih _ _ h.2
      exact List.append_subset.mpr
        ⟨fun x hx => List.mem_append_left _ (hs hx), List.subset_append_right _ _⟩

theorem covered_snoc (front : List (Call T)) (fs : List (Functor T)) (f : Functor T)
    (h : Covered front fs)
    (hf : ∀ caller after, f = .shutdownInLoop caller after →
      Covers (front ++ fs.flatMap Functor.calls) caller after) : Covered front (fs ++ [f]) := by
  induction fs generalizing front with
  | nil =>
    refine ⟨?_, trivial⟩
    intro caller after he
    have hc := hf caller after he
    rwa [List.flatMap_nil, List.append_nil] at hc
  | cons g fs ih =>
    refine ⟨h.1, ih _ h.2 ?_⟩
    intro caller after he
    have hc := hf caller after he
    rwa [List.flatMap_cons, ← List.append_assoc] at hc

/-- `front` are the calls queued for writing or in the loop thread's hand. -/
structure Heard (front : List (Call T)) (pending : List (Functor T)) (accepted : Option T → ℕ)
    (threads : T → Phase T) : Prop where
  line : ∀ caller k, k < accepted caller → ⟨caller, k⟩ ∈ front ++ pending.flatMap Functor.calls ∨
    ∃ t f, caller = some t ∧ threads t = .posting f ∧ ⟨caller, k⟩ ∈ f.calls
  covered : Covered front pending
  posting : ∀ t caller after, threads t = .posting (.shutdownInLoop caller after) →
    Covers (front ++ pending.flatMap Functor.calls) caller after

theorem heard_none (front : List (Call T)) (pending : List (Functor T)) (accepted : Option T → ℕ)
    (threads : T → Phase T) (h : Heard front pending accepted threads)
    (hp : ∀ f ∈ pending, ∀ x ∈ f.calls, x.caller ≠ none) : Covers front none (accepted none) := by
  intro k hk
  rcases h.line none k hk with hm | ⟨t, f, ht, -⟩
  · rcases List.mem_append.mp hm with hm | hm
    · exact hm
    · obtain ⟨f, hf, hx⟩ := List.mem_flatMap.mp hm
      exact absurd rfl (hp f hf _ hx)
  · exact absurd ht (by simp)

theorem heard_thread_covers (front : List (Call T)) (pending : List (Functor T))
    (accepted : Option T → ℕ) (threads : T → Phase T) (h : Heard front pending accepted threads)
    (t : T) (ht : ∀ f, threads t ≠ .posting f) :
    Covers (front ++ pending.flatMap Functor.calls) (some t) (accepted (some t)) := by
  intro k hk
  rcases h.line (some t) k hk with hm | ⟨u, f, hu, hf, -⟩
  · exact hm
  · obtain rfl := Option.some.inj hu
    exact absurd hf (ht f)

theorem heard_pending (front : List (Call T)) (f : Functor T) (fs : List (Functor T))
    (accepted : Option T → ℕ) (threads : T → Phase T)
    (h : Heard front (f::fs) accepted threads) : Heard (front ++ f.calls) fs accepted threads := by
  have he : front ++ (f::fs).flatMap Functor.calls =
      front ++ f.calls ++ fs.flatMap Functor.calls := by
    rw [List.flatMap_cons, List.append_assoc]
  refine ⟨?_, h.covered.2, ?_⟩
  · rw [← he]
    exact h.line
  · rw [← he]
    exact h.posting

theorem heard_destroy (front : List (Call T)) (pending : List (Functor T))
    (accepted : Option T → ℕ) (threads : T → Phase T) (h : Heard front pending accepted threads) :
    Heard front (pending ++ [.connectDestroyed]) accepted threads := by
  have he : (pending ++ [Functor.connectDestroyed]).flatMap Functor.calls =
      pending.flatMap Functor.calls := by
    simp [Functor.calls]
  constructor
  · rw [he]
    exact h.line
  · exact covered_snoc _ _ _ h.covered (by simp)
  · rw [he]
    exact h.posting

variable [DecidableEq T]

theorem heard_accept (front : List (Call T)) (pending : List (Functor T)) (accepted : Option T → ℕ)
    (threads : T → Phase T) (h : Heard front pending accepted threads) (caller : Option T) :
    Heard (front ++ [⟨caller, accepted caller⟩]) pending
      (Function.update accepted caller (accepted caller+1)) threads := by
  have hsub : front ⊆ front ++ [⟨caller, accepted caller⟩] := List.subset_append_left _ _
  have hline : front ++ pending.flatMap Functor.calls ⊆
      front ++ [⟨caller, accepted caller⟩] ++ pending.flatMap Functor.calls :=
    List.append_subset.mpr ⟨fun x hx => List.mem_append_left _ (hsub hx),
      List.subset_append_right _ _⟩
  constructor
  · intro p k hk
    by_cases hp : p = caller ∧ k = accepted caller
    · left
      obtain ⟨rfl, rfl⟩ := hp
      simp
    · have hk' : k < accepted p := by
        by_cases he : p = caller
        · subst he
          rw [Function.update_self] at hk
          have hne : k ≠ accepted p := fun hk' => hp ⟨rfl, hk'⟩
          omega
        · rwa [Function.update_of_ne he] at hk
      rcases h.line p k hk' with hm | hm
      · exact Or.inl (hline hm)
      · exact Or.inr hm
  · exact covered_subset _ _ _ h.covered hsub
  · intro t p after ht
    exact covers_subset _ _ _ _ (h.posting t p after ht) hline

/-- A thread that had no functor in hand goes to another phase; what it has in
hand then it has accepted, or counted. -/
theorem heard_thread (front : List (Call T)) (pending : List (Functor T)) (accepted : Option T → ℕ)
    (threads : T → Phase T) (h : Heard front pending accepted threads) (t : T) (phase : Phase T)
    (accepted' : Option T → ℕ) (ht : ∀ f, threads t ≠ .posting f)
    (haccepted : ∀ p k, k < accepted' p → k < accepted p ∨
      p = some t ∧ ∃ f, phase = .posting f ∧ ⟨p, k⟩ ∈ f.calls)
    (hphase : ∀ p after, phase = .posting (.shutdownInLoop p after) →
      Covers (front ++ pending.flatMap Functor.calls) p after) :
    Heard front pending accepted' (Function.update threads t phase) where
  line := by
    intro p k hk
    rcases haccepted p k hk with hk | ⟨rfl, f, hf, hx⟩
    · rcases h.line p k hk with hm | ⟨u, f, rfl, hf, hx⟩
      · exact Or.inl hm
      · right
        have hu : u ≠ t := by
          rintro rfl
          exact ht f hf
        exact ⟨u, f, rfl, by rwa [Function.update_of_ne hu], hx⟩
    · right
      exact ⟨t, f, rfl, by rwa [Function.update_self], hx⟩
  covered := h.covered
  posting := by
    intro u p after hu
    by_cases he : u = t
    · subst he
      rw [Function.update_self] at hu
      exact hphase p after hu
    · rw [Function.update_of_ne he] at hu
      exact h.posting u p after hu

theorem heard_post (front : List (Call T)) (pending : List (Functor T)) (accepted : Option T → ℕ)
    (threads : T → Phase T) (h : Heard front pending accepted threads) (t : T) (f : Functor T)
    (hf : threads t = .posting f) :
    Heard front (pending ++ [f]) accepted (Function.update threads t .idle) := by
  have he : front ++ (pending ++ [f]).flatMap Functor.calls =
      front ++ pending.flatMap Functor.calls ++ f.calls := by
    simp
  constructor
  · rw [he]
    intro p k hk
    rcases h.line p k hk with hm | ⟨u, g, rfl, hg, hx⟩
    · exact Or.inl (List.mem_append_left _ hm)
    · by_cases hu : u = t
      · subst hu
        obtain rfl := Phase.posting.inj (hf.symm.trans hg)
        exact Or.inl (List.mem_append_right _ hx)
      · exact Or.inr ⟨u, g, rfl, by rwa [Function.update_of_ne hu], hx⟩
  · apply covered_snoc _ _ _ h.covered
    rintro p after rfl
    exact h.posting t p after hf
  · rw [he]
    intro u p after hu
    by_cases hut : u = t
    · subst hut
      rw [Function.update_self] at hu
      exact absurd hu (by simp)
    · rw [Function.update_of_ne hut] at hu
      exact covers_subset _ _ _ _ (h.posting u p after hu) (List.subset_append_left _ _)

namespace TcpConnection

def front (c : TcpConnection T) : List (Call T) := c.done ++ c.control.calls

structure HeardSound (c : TcpConnection T) : Prop where
  heard : c.state_ ≠ .kDisconnected →
    Heard c.front c.pendingFunctors_ c.accepted c.threads
  control : c.state_ ≠ .kDisconnected → ∀ caller after,
    c.control = .functor (.shutdownInLoop caller after) → Covers c.done caller after

omit [DecidableEq T] in
theorem front_frames (c : TcpConnection T) (hcontrol : c.control = .frames) : c.front = c.done := by
  simp [front, hcontrol, Control.calls]

omit [DecidableEq T] in
theorem exec_front (c c' : TcpConnection T) (result : SocketResult)
    (hstate : c.state_ ≠ .kDisconnected) (hs : c.exec result = some c') : c'.front = c.front := by
  cases hcontrol : c.control with
  | functor f =>
    simp only [exec, hcontrol] at hs
    obtain rfl := Option.some.inj hs
    cases f with
    | sendInLoop call data =>
      simp [runFunctor, sendInLoop, hstate, front, enqueue, done, Control.calls, hcontrol,
        Functor.calls]
    | sendFileInLoop call file =>
      simp [runFunctor, sendFileInLoop, front, enqueue, done, Control.calls, hcontrol,
        Functor.calls]
    | shutdownInLoop | connectEstablished | connectDestroyed =>
      simp [front, hcontrol, Control.calls, Functor.calls, runFunctor, frames, done,
        TcpConnection.shutdownInLoop, TcpConnection.connectEstablished, enableReading,
        updateChannel, setStates]
  | doWriting =>
    simp only [exec, hcontrol] at hs
    have hfront : c.front = c.done := by simp [front, hcontrol, Control.calls]
    rw [hfront]
    cases doWriting_round c c' result hs with
    | empty | nothing | fails => exact List.append_nil _
    | progress => exact hfront
    | drains call ctx ctx' out =>
      obtain ⟨poller, channel, hd⟩ := drained_channel (c.issue.took call ctx' [] out)
      rw [hd]
      exact hfront
    | blocks =>
      obtain ⟨triggered, stack, hb, -⟩ := blocked_frames c.issue
      rw [hb]
      exact List.append_nil _
  | frames =>
    simp only [exec, hcontrol] at hs
    rw [front_frames c hcontrol]
    split at hs
    · exact absurd hs (by simp)
    · rename_i frame stack hstack
      cases runFrame_framed c c' stack result frame hs with
      | handleRead | writes | writesNothing | handleError | handleClose | closeCallback
      | writingAlready | enableWriting | shutdownStore | destroyStore | removeChannel =>
        exact List.append_nil _

omit [DecidableEq T] in
theorem exec_heard (c c' : TcpConnection T) (result : SocketResult) (h : c.HeardSound)
    (hstate : c'.state_ ≠ .kDisconnected → c.state_ ≠ .kDisconnected) (hk : Kept c c')
    (hs : c.exec result = some c')
    (hcontrol : ∀ caller after, c'.control = .functor (.shutdownInLoop caller after) →
      c'.state_ ≠ .kDisconnected → Covers c'.done caller after) : c'.HeardSound where
  heard := by
    intro hne
    rw [exec_front c c' result (hstate hne) hs, hk.pending, hk.accepted, hk.threads]
    exact h.heard (hstate hne)
  control := fun hne caller after hc => hcontrol caller after hc hne

omit [DecidableEq T] in
theorem plain_heard (c c' : TcpConnection T) (result : SocketResult) (h : c.HeardSound)
    (hk : Kept c c') (hp : Plain c c') (hs : c.exec result = some c') : c'.HeardSound := by
  apply exec_heard c c' result h _ hk hs
  · intro caller after hc
    exact absurd hc (hp.control _)
  · intro hne
    rwa [← hp.state]

omit [DecidableEq T] in
theorem functor_heard (c : TcpConnection T) (f : Functor T) (result : SocketResult)
    (h : c.HeardSound) (ha : c.Aged) (hcontrol : c.control = .functor f)
    (hs : c.exec result = some (c.runFunctor f)) : (c.runFunctor f).HeardSound := by
  have hk := runFunctor_kept c f hcontrol
  cases f with
  | shutdownInLoop caller after =>
    apply exec_heard c (c.runFunctor (.shutdownInLoop caller after)) result h (fun hne => hne) hk hs
    intro _ _ hc
    exact absurd hc (by simp [runFunctor, frames])
  | connectEstablished =>
    have hy := young_state c ha hcontrol
    apply exec_heard c _ result h (fun _ => by simp [hy.state]) hk hs
    intro _ _ hc
    exact absurd hc (by simp [runFunctor, frames])
  | sendInLoop | sendFileInLoop | connectDestroyed =>
    exact plain_heard c _ result h hk (runFunctor_plain c _ hcontrol (by simp [marked, hcontrol])) hs

theorem frame_heard (c c' : TcpConnection T) (result : SocketResult) (frame : Frame)
    (stack : List Frame) (h : c.HeardSound) (hl : c.LinedSound)
    (ho : c.staysOpen (.exec result) = true) (hg : c.shutdownGuard (.exec result) = true)
    (hcontrol : c.control = .frames) (hstack : c.stack = frame::stack)
    (hr : c.runFrame stack result frame = some c') (hs : c.exec result = some c') :
    c'.HeardSound := by
  have hk := runFrame_kept c c' stack result frame hr
  cases frame with
  | handleClose => simp [staysOpen, hcontrol, hstack] at ho
  | shutdownStore =>
    have hstate : c.state_ = .kConnected := by simpa [shutdownGuard, hcontrol, hstack] using hg
    have hheard := h.heard (by simp [hstate])
    rw [front_frames c hcontrol] at hheard
    obtain rfl := Option.some.inj hr
    apply exec_heard c _ result h (fun _ => by simp [hstate]) hk hs
    -- the loop thread asks behind all its earlier calls
    intro caller after hc _
    obtain ⟨rfl, rfl⟩ := Functor.shutdownInLoop.inj (Control.functor.inj hc)
    exact heard_none _ _ _ _ hheard hl.foreign
  | destroyStore =>
    obtain rfl := Option.some.inj hr
    exact ⟨fun hne => absurd rfl hne, fun hne => absurd rfl hne⟩
  | user | handleRead | handleWrite | handleError | closeCallback | enableWriting
  | removeChannel =>
    exact plain_heard c c' result h hk
      (runFrame_plain c c' stack result _ hcontrol hstack hr (by simp [marked, hcontrol, hstack])) hs

theorem calls_heard (c : TcpConnection T) (t : T) (r : Request) (f : Functor T)
    (h : c.HeardSound) (hidle : c.threads t = .idle) (hstate : c.state_ = .kConnected)
    (hf : c.sendFunctor (some t) r = some f) :
    HeardSound
      { c.accept (some t) with threads := Function.update c.threads t (.posting f) } := by
  have hh := h.heard (by simp [hstate])
  refine ⟨fun _ => ?_, h.control⟩
  apply heard_thread _ _ _ _ hh t _ _ (by simp [hidle])
  · intro p k hk
    by_cases hp : p = some t
    · subst hp
      change k < Function.update c.accepted (some t) (c.accepted (some t)+1) (some t) at hk
      rw [Function.update_self] at hk
      by_cases hlast : k = c.accepted (some t)
      · right
        refine ⟨rfl, f, rfl, ?_⟩
        rw [c.sendFunctor_calls (some t) r f hf, hlast]
        exact List.mem_singleton_self _
      · left
        omega
    · left
      change k < Function.update c.accepted (some t) (c.accepted (some t)+1) p at hk
      rwa [Function.update_of_ne hp] at hk
  · intro p after hp
    have hfs := c.sendFunctor_isShutdown (some t) r f hf
    rw [Phase.posting.inj hp] at hfs
    exact absurd hfs (by simp [Functor.isShutdown])

theorem step_heard (c : TcpConnection T) (a : Act T) (c' : TcpConnection T) (h : c.HeardSound)
    (ha : c.Aged) (hl : c.LinedSound) (ho : c.staysOpen a = true) (hg : c.shutdownGuard a = true)
    (hs : c.step a = some c') : c'.HeardSound := by
  cases step_stepped c a c' hs with
  | writing result _ hcontrol hw =>
    exact plain_heard c c' result h (doWriting_kept c c' result hcontrol hw)
      (doWriting_plain c c' result hcontrol hw) hs
  | functor result f hcontrol =>
    exact functor_heard c f result h ha hcontrol hs
  | frame result frame stack _ hcontrol hstack hr =>
    exact frame_heard c c' result frame stack h hl ho hg hcontrol hstack hr hs
  | pending f fs hcontrol hstack hactive hpending =>
    have hheard : c.state_ ≠ .kDisconnected → Heard c.done (f::fs) c.accepted c.threads := by
      intro hne
      have hh := h.heard hne
      rwa [front_frames c hcontrol, hpending] at hh
    constructor
    · intro hne
      exact heard_pending _ f fs _ _ (hheard hne)
    · intro hne caller after hc
      exact (hheard hne).covered.1 caller after (Control.functor.inj hc)
  | sends r f hcontrol hstate hf =>
    have hh := h.heard (by simp [hstate])
    rw [front_frames c hcontrol] at hh
    constructor
    · intro _
      have hn := heard_accept _ _ _ _ hh none
      rw [← c.sendFunctor_calls none r f hf] at hn
      exact hn
    · intro _ caller after hc
      have hfs := c.sendFunctor_isShutdown none r f hf
      rw [Control.functor.inj hc] at hfs
      exact absurd hfs (by simp [Functor.isShutdown])
  | calls t r f hidle hstate hf => exact calls_heard c t r f h hidle hstate hf
  | callShutdown t hidle hstate =>
    have hh := h.heard (by simp [hstate])
    exact ⟨fun _ => heard_thread _ _ _ _ hh t .storing _ (by simp [hidle])
      (fun _ _ hk => Or.inl hk) (by simp), h.control⟩
  | store t hstoring =>
    have hstate : c.state_ = .kConnected := by simpa [shutdownGuard] using hg
    have hh := h.heard (by simp [hstate])
    refine ⟨fun _ => ?_, fun _ => h.control (by simp [hstate])⟩
    apply heard_thread _ _ _ _ hh t _ _ (by simp [hstoring]) (fun _ _ hk => Or.inl hk)
    intro p after hp
    obtain ⟨rfl, rfl⟩ := Functor.shutdownInLoop.inj (Phase.posting.inj hp)
    exact heard_thread_covers _ _ _ _ hh t (by simp [hstoring])
  | post t f hposting => exact ⟨fun hne => heard_post _ _ _ _ (h.heard hne) t f hposting, h.control⟩
  | queueDestroyed => exact ⟨fun hne => heard_destroy _ _ _ _ (h.heard hne), h.control⟩
  | poll | handleEvent | userCode | refused | shutdowns | setHighWaterMark | userReturns
  | callRefused => exact ⟨h.heard, h.control⟩

structure Answered (c : TcpConnection T) : Prop where
  hardErrors : c.hardErrors = 0
  runs : c.halfCloses.length = c.shutdownRuns
  written : ∀ x ∈ c.halfCloses, Covers (c.written.map Prod.fst) x.1 x.2

omit [DecidableEq T] in
theorem answered_grows (c c' : TcpConnection T) (h : c.Answered)
    (hhard : c'.hardErrors = c.hardErrors) (hruns : c'.shutdownRuns = c.shutdownRuns)
    (hhalf : c'.halfCloses = c.halfCloses) (hwritten : c.written <+: c'.written) : c'.Answered where
  hardErrors := hhard.trans h.hardErrors
  runs := by
    rw [hhalf, hruns]
    exact h.runs
  written := by
    rw [hhalf]
    intro x hx
    exact covers_subset _ _ _ _ (h.written x hx) (List.map_subset _ hwritten.subset)

omit [DecidableEq T] in
theorem took_written (c : TcpConnection T) (call : Call T) (ctx : Context)
    (rest : List (Call T × Context)) (out : Bytes) :
    c.written <+: (c.took call ctx rest out).written := by
  unfold took
  cases ctx.isComplete with
  | true => exact List.prefix_append _ _
  | false => exact List.prefix_refl _

omit [DecidableEq T] in
theorem doWriting_answered (c c' : TcpConnection T) (h : c.Answered) (result : SocketResult)
    (hne : result ≠ .fails) (hs : c.doWriting result = some c') : c'.Answered := by
  cases doWriting_round c c' result hs with
  | empty => exact ⟨h.hardErrors, h.runs, h.written⟩
  | progress call ctx ctx' rest out n =>
    exact answered_grows c _ h rfl rfl rfl (took_written c.issue call ctx' rest out)
  | drains call ctx ctx' out n =>
    have ht : (c.issue.took call ctx' [] out).Answered :=
      answered_grows c _ h rfl rfl rfl (took_written c.issue call ctx' [] out)
    obtain ⟨poller, channel, hd⟩ := drained_channel (c.issue.took call ctx' [] out)
    rw [hd]
    exact ⟨ht.hardErrors, ht.runs, ht.written⟩
  | blocks =>
    obtain ⟨triggered, stack, hb, -⟩ := blocked_frames c.issue
    rw [hb]
    exact ⟨h.hardErrors, h.runs, h.written⟩
  | nothing => exact ⟨h.hardErrors, h.runs, h.written⟩
  | fails => exact absurd rfl hne

/-- `shutdownInLoop` with nothing of its caller left in the queue. -/
theorem shutdownInLoop_answered (c : TcpConnection T) (h : c.Answered) (hw : c.WritesSound)
    (caller : Option T) (after : ℕ) (hcovers : Covers c.done caller after)
    (hwriting : c.channel_.isWriting = false) (hnone : c.noneQueued caller after = true) :
    ((c.shutdownInLoop caller after).frames c.stack).Answered where
  hardErrors := h.hardErrors
  runs := by
    have hr := h.runs
    simp only [frames, TcpConnection.shutdownInLoop, hwriting, Bool.false_eq_true, if_false,
      List.length_append, List.length_singleton]
    omega
  written := by
    intro x hx
    simp only [frames, TcpConnection.shutdownInLoop, hwriting, Bool.false_eq_true, if_false,
      List.mem_append, List.mem_singleton] at hx
    rcases hx with hx | rfl
    · exact h.written x hx
    · intro k hk
      have hm := hcovers k hk
      rw [done, (hw h.hardErrors).queued_eq, List.map_append] at hm
      rcases List.mem_append.mp hm with hm | hm
      · exact hm
      · simp only [List.map_map, List.mem_map, Function.comp] at hm
        obtain ⟨y, hy, he⟩ := hm
        have hno := List.all_eq_true.mp hnone y hy
        simp [he] at hno
        change k < after at hk
        omega

omit [DecidableEq T] in
theorem asked_state (c : TcpConnection T) (h : c.AskedSound) (caller : Option T) (after : ℕ)
    (hcontrol : c.control = .functor (.shutdownInLoop caller after)) :
    c.state_ = .kDisconnecting := by
  by_contra hne
  have hz := (Asked.unasked h hne).1
  rw [hcontrol] at hz
  simp only [asked, Control.isShutdown, Functor.isShutdown, if_true] at hz
  omega

theorem step_answered (c : TcpConnection T) (a : Act T) (c' : TcpConnection T) (h : c.Answered)
    (hheard : c.HeardSound) (hasked : c.AskedSound) (hw : c.WritesSound)
    (hwatched : c.WatchedSound) (ho : c.staysOpen a = true) (hg : c.shutdownGuard a = true)
    (hs : c.step a = some c') : c'.Answered := by
  cases step_stepped c a c' hs with
  | writing result _ hcontrol hwr =>
    have hne : result ≠ .fails := by simpa [staysOpen, hcontrol] using ho
    exact doWriting_answered c c' h result hne hwr
  | functor result f hcontrol =>
    cases f with
    | shutdownInLoop caller after =>
      have hstate := asked_state c hasked caller after hcontrol
      have hcovers := hheard.control (by simp [hstate]) caller after hcontrol
      simp only [shutdownGuard, hcontrol, Bool.and_eq_true, Bool.or_eq_true,
        Bool.not_eq_true'] at hg
      have hnone : c.noneQueued caller after = true := by
        rcases hg.2 with hu | hnone
        · have hempty := watched_empty c hwatched (by simp [hstate]) (by simp [hcontrol]) hg.1 hu
          simp [noneQueued, hempty]
        · exact hnone
      exact shutdownInLoop_answered c h hw caller after hcovers hg.1 hnone
    | sendInLoop call data =>
      simp only [runFunctor, sendInLoop]
      split
      · exact ⟨h.hardErrors, h.runs, h.written⟩
      · exact ⟨h.hardErrors, h.runs, h.written⟩
    | sendFileInLoop | connectEstablished | connectDestroyed =>
      exact ⟨h.hardErrors, h.runs, h.written⟩
  | frame result frame stack _ hcontrol hstack hr =>
    cases runFrame_framed c c' stack result frame hr with
    | handleRead | writes | writesNothing | handleError | handleClose | closeCallback
    | writingAlready | enableWriting | shutdownStore | destroyStore | removeChannel =>
      exact ⟨h.hardErrors, h.runs, h.written⟩
  | poll | handleEvent | pending | userCode | refused | sends | shutdowns | setHighWaterMark
  | userReturns | callRefused | calls | callShutdown | store | post | queueDestroyed =>
    exact ⟨h.hardErrors, h.runs, h.written⟩

structure ShutdownSound (c : TcpConnection T) : Prop where
  aged : c.Aged
  lined : c.LinedSound
  writes : c.WritesSound
  asked : c.AskedSound
  watched : c.WatchedSound
  heard : c.HeardSound
  answered : c.Answered

omit [DecidableEq T] in
theorem start_shutdown (fd owner : ℕ) : (start (T := T) fd owner).ShutdownSound where
  aged := Or.inl (start_young fd owner)
  lined := start_lined fd owner
  writes := start_writes fd owner
  asked := ⟨Or.inl ⟨fun _ _ h => absurd h (by simp [start]), Nat.zero_le 1⟩,
    fun _ => ⟨rfl, fun _ _ h => absurd h (by simp [start])⟩⟩
  watched := fun _ hq => absurd rfl hq
  heard := by
    constructor
    · intro _
      exact ⟨fun _ _ hk => absurd hk (Nat.not_lt_zero _), ⟨by simp, trivial⟩, by simp [start]⟩
    · simp [start]
  answered := ⟨rfl, rfl, by simp [start]⟩

theorem step_shutdown (c : TcpConnection T) (a : Act T) (c' : TcpConnection T)
    (h : c.ShutdownSound) (ho : c.staysOpen a = true) (hg : c.shutdownGuard a = true)
    (hs : c.step a = some c') : c'.ShutdownSound where
  aged := step_aged c a c' h.aged hs
  lined := step_lined c a c' h.lined hs
  writes := step_writes c a c' h.writes hs
  asked := step_asked c a c' h.asked h.aged ho hg hs
  watched := step_watched c a c' h.watched h.aged ho hg hs
  heard := step_heard c a c' h.heard h.aged h.lined ho hg hs
  answered := step_answered c a c' h.answered h.heard h.asked h.writes h.watched ho hg hs

omit [DecidableEq T] in
theorem asked_runs (c : TcpConnection T) (h : c.AskedSound) : c.shutdownRuns ≤ 1 := by
  have hle : asked c.control c.pendingFunctors_ c.shutdownRuns ≤ 1 := by
    rcases Asked.few h with ⟨-, hc⟩ | ⟨hc, -⟩
    · exact hc
    · omega
  simp only [asked] at hle
  omega

/-- The half-close comes at most once, behind all bytes of its caller's earlier
calls, and does not stay out once `shutdownInLoop` has run and all is written. -/
structure HalfClosed (c : TcpConnection T) : Prop where
  once : c.halfCloses.length ≤ 1
  behind : ∀ x ∈ c.halfCloses, Covers (c.written.map Prod.fst) x.1 x.2
  written : payloads c.written <+: c.wire
  taken : c.shutdownRuns ≠ 0 → c.contextQueue_ = [] → c.control ≠ .doWriting → c.halfCloses ≠ []

/-- With bytes of its caller queued `shutdownInLoop` comes too early. -/
theorem shutdownInLoop_early (c : TcpConnection T) (hl : c.LinedSound) (hw : c.WritesSound)
    (hhard : c.hardErrors = 0) (caller : Option T) (after : ℕ)
    (hwriting : c.channel_.isWriting = false) (hq : c.noneQueued caller after = false) :
    ¬ (c.runFunctor (.shutdownInLoop caller after)).HalfClosed := by
  intro hclosed
  obtain ⟨x, hx, hx'⟩ := List.all_eq_false.mp hq
  have hlate : x.1.caller = caller ∧ x.1.number < after := by simpa using hx'
  have hn := numbered_sublist _ c.done _ hl.numbered (List.sublist_append_left _ _)
  rw [done, (hw hhard).queued_eq, List.map_append] at hn
  have hbehind := hclosed.behind (caller, after)
    (by simp [runFunctor, frames, TcpConnection.shutdownInLoop, hwriting])
  refine not_covers _ _ _ hn x.1 ?_ after hlate.2 (hlate.1 ▸ hbehind)
  rw [List.map_map]
  exact List.mem_map.mpr ⟨x, hx, rfl⟩

/-- The promises of the half-close hold in every run without a close whose steps meet
the guard. -/
theorem reach_halfClose (fd owner : ℕ) (c : TcpConnection T)
    (h : Reach step (fun s a => (s.staysOpen a && s.shutdownGuard a) = true) (start fd owner) c) :
    c.HalfClosed := by
  have hs := reach_invariant _ _ _ ShutdownSound (start_shutdown fd owner)
    (fun s a t hs hok ht => step_shutdown s a t hs (Bool.and_eq_true_iff.mp hok).1
      (Bool.and_eq_true_iff.mp hok).2 ht) c h
  have hruns := hs.answered.runs
  constructor
  · rw [hruns]
    exact asked_runs c hs.asked
  · exact hs.answered.written
  · rw [(hs.writes hs.answered.hardErrors).wire_eq]
    exact List.prefix_append _ _
  · intro hne _ _ hnil
    rw [hnil] at hruns
    exact hne hruns.symm

def sendThenShutdown : List (Act ℕ) :=
  [.doPendingFunctor, .exec .again, .userReturns, .call 1 (.send [1, 2]), .post 1,
    .call 1 .shutdown, .store 1, .post 1, .doPendingFunctor, .exec .again, .exec (.bytes 1),
    .exec (.bytes 1), .exec .again, .doPendingFunctor, .exec .again]

theorem reach_halfClose_sendThenShutdown :
    ∃ c, run step (start (T := ℕ) 5 0) sendThenShutdown = some c ∧
      c.halfCloses = [(some 1, 1)] ∧ Covers (c.written.map Prod.fst) (some 1) 1 := by
  obtain ⟨c, hc⟩ : ∃ c, run step (start (T := ℕ) 5 0) sendThenShutdown = some c := ⟨_, rfl⟩
  have hreach := run_reach step (fun s a => s.staysOpen a && s.shutdownGuard a) (start 5 0) c
    sendThenShutdown hc rfl
  have hhalf : c.halfCloses = [(some 1, 1)] := by
    obtain rfl := Option.some.inj hc
    rfl
  have hw := (reach_halfClose 5 0 c hreach).behind (some 1, 1) (by simp [hhalf])
  exact ⟨c, hc, hhalf, hw⟩

/-- The socket blocks between the two; the queue drains with `EPOLLOUT`. -/
def blockedShutdown : List (Act ℕ) :=
  [.doPendingFunctor, .exec .again, .request (.send [1, 2]), .exec .again, .exec (.bytes 1),
    .exec .again, .exec .again, .request .shutdown, .exec .again, .exec .again, .userReturns,
    .poll { out := true }, .handleEvent, .exec .again, .exec (.bytes 1), .exec .again]

theorem blockedShutdown_open :
    ¬ ∀ c, Reach step (fun s a => s.staysOpen a = true) (start (T := ℕ) 5 0) c →
      c.HalfClosed := by
  intro hall
  obtain ⟨c, hc⟩ : ∃ c, run step (start (T := ℕ) 5 0) blockedShutdown = some c := ⟨_, rfl⟩
  have hreach := run_reach step staysOpen (start 5 0) c blockedShutdown hc rfl
  have h := hall c hreach
  obtain rfl := Option.some.inj hc
  exact h.taken (by decide) rfl (by decide) rfl

end TcpConnection
end MuServer
