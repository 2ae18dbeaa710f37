import Mathlib.Algebra.Group.Nat.Defs
import Mathlib.Data.Nat.Notation
import Mathlib.Logic.Function.Basic
import MuServer.Lib.Machine

/-!
# The event loop and its pending functors

The loop thread runs `loop`, other threads call `queueInLoop`: the push under
the lock is one step, the test with the write to the eventfd another. The loop
thread calls `queueInLoop` from an event handler or from a functor it runs.
`pushed` and `executed` record the functors in the order of their pushes and
of their calls.
-/

set_option autoImplicit false

namespace MuServer
open Lib.Machine

inductive LoopPhase (F : Type) where
  /-- not in `loop` -/
  | outside
  /-- at `while (!quit_)` -/
  | test
  /-- in `epoll_wait` -/
  | poll
  /-- in the loop over `activeChannels_` -/
  | handlers
  /-- in `doPendingFunctors` before the swap -/
  | calling
  /-- behind the swap: the functor that runs and the ones to come -/
  | running (current : Option F) (functors : List F)
  deriving DecidableEq

structure EventLoop (F T : Type) where
  phase : LoopPhase F := .outside
  looping_ : Bool := false
  quit_ : Bool := false
  callingPendingFunctors_ : Bool := false
  pendingFunctors_ : List F := []
  /-- the counter behind `wakeupFd_` -/
  wakeups : ℕ := 0
  /-- the loop thread is in `queueInLoop`, behind its push -/
  queueing : Bool := false
  /-- another thread is in `queueInLoop`, behind its push -/
  between : T → Bool := fun _ => false
  pushed : List F := []
  executed : List F := []

inductive LoopAct (F T : Type) where
  /-- another thread pushes a functor -/
  | push (thread : T) (cb : F)
  /-- and leaves `queueInLoop` -/
  | pushEnd (thread : T)
  /-- the loop thread pushes a functor -/
  | loopPush (cb : F)
  /-- and leaves `queueInLoop` -/
  | loopPushEnd
  /-- a thread calls `wakeup`, as in `quit` -/
  | wakeup
  /-- a thread stores `quit_` -/
  | quit
  | enterLoop
  | testQuit
  | pollReturns
  /-- the handler of the wakeup channel -/
  | handleRead
  | handlersEnd
  | swapFunctors
  | callFunctor
  | functorsEnd

def eventfdMax : ℕ := 2^64-2

namespace EventLoop

variable {F T : Type}

def wakeup (l : EventLoop F T) : EventLoop F T :=
  { l with wakeups := if l.wakeups < eventfdMax then l.wakeups+1 else l.wakeups }

def handleRead (l : EventLoop F T) : EventLoop F T := { l with wakeups := 0 }

def pushFunctor (l : EventLoop F T) (cb : F) : EventLoop F T :=
  { l with pendingFunctors_ := l.pendingFunctors_ ++ [cb], pushed := l.pushed ++ [cb] }

def pushTail (l : EventLoop F T) (isInLoopThread : Bool) : EventLoop F T :=
  if !isInLoopThread || l.callingPendingFunctors_ then l.wakeup else l

def inCallback (l : EventLoop F T) : Bool :=
  match l.phase with
  | .handlers => true
  | .running (some _) _ => true
  | _ => false

def loopStep (l : EventLoop F T) (a : LoopAct F T) : Option (EventLoop F T) :=
  match l.phase, a with
  | .outside, .enterLoop => some { l with looping_ := true, quit_ := false, phase := .test }
  | .test, .testQuit =>
    if l.quit_ then some { l with looping_ := false, phase := .outside }
    else some { l with phase := .poll }
  | .poll, .pollReturns => some { l with phase := .handlers }
  | .handlers, .handleRead => some l.handleRead
  | .handlers, .handlersEnd => some { l with callingPendingFunctors_ := true, phase := .calling }
  | .calling, .swapFunctors =>
    some { l with pendingFunctors_ := [], phase := .running none l.pendingFunctors_ }
  | .running _ (cb::functors), .callFunctor =>
    some { l with phase := .running (some cb) functors, executed := l.executed ++ [cb] }
  | .running _ [], .functorsEnd => some { l with callingPendingFunctors_ := false, phase := .test }
  | _, _ => none

def step [DecidableEq T] (l : EventLoop F T) : LoopAct F T → Option (EventLoop F T)
  | .push thread cb =>
    if l.between thread then none
    else some { l.pushFunctor cb with between := Function.update l.between thread true }
  | .pushEnd thread =>
    if l.between thread then
      some { l.pushTail false with between := Function.update l.between thread false }
    else none
  | .wakeup => some l.wakeup
  | .quit => some { l with quit_ := true }
  | .loopPush cb =>
    if l.inCallback && !l.queueing then some { l.pushFunctor cb with queueing := true } else none
  | .loopPushEnd => if l.queueing then some { l.pushTail true with queueing := false } else none
  | a => if l.queueing then none else l.loopStep a

def batch (l : EventLoop F T) : List F :=
  match l.phase with
  | .running _ functors => functors
  | _ => []

def willSwap (l : EventLoop F T) : Prop := l.phase = .handlers ∨ l.phase = .calling

/-- Something will make the loop look at `pendingFunctors_`: the swap to come,
the eventfd, or a thread that has yet to write to it. -/
def Attended (l : EventLoop F T) : Prop :=
  l.willSwap ∨ 0 < l.wakeups ∨ (∃ thread, l.between thread = true) ∨
    (l.queueing = true ∧ l.callingPendingFunctors_ = true)

structure Sound (l : EventLoop F T) : Prop where
  order : l.pushed = l.executed ++ l.batch ++ l.pendingFunctors_
  calling : l.phase = .calling → l.callingPendingFunctors_ = true
  running : ∀ current functors, l.phase = .running current functors →
    l.callingPendingFunctors_ = true
  queueing : l.queueing = true → l.inCallback = true
  attended : l.pendingFunctors_ ≠ [] → l.Attended

theorem wakeup_pos (l : EventLoop F T) : 0 < l.wakeup.wakeups := by
  simp only [wakeup]
  split
  · exact Nat.succ_pos _
  · rename_i h
    simp only [eventfdMax] at h
    omega

theorem sound_start : Sound ({} : EventLoop F T) where
  order := rfl
  calling := by simp
  running := by simp
  queueing := by simp
  attended := by simp

theorem wakeup_sound (l : EventLoop F T) (h : l.Sound) : l.wakeup.Sound where
  order := h.order
  calling := h.calling
  running := h.running
  queueing := h.queueing
  attended := fun _ => Or.inr (Or.inl (wakeup_pos l))

theorem push_sound [DecidableEq T] (l : EventLoop F T) (h : l.Sound) (thread : T) (cb : F) :
    Sound { l.pushFunctor cb with between := Function.update l.between thread true } where
  order := by
    change l.pushed ++ [cb] = l.executed ++ l.batch ++ (l.pendingFunctors_ ++ [cb])
    rw [h.order, List.append_assoc]
  calling := h.calling
  running := h.running
  queueing := h.queueing
  attended := fun _ => Or.inr (Or.inr (Or.inl ⟨thread, Function.update_self thread true l.between⟩))

theorem pushEnd_sound [DecidableEq T] (l : EventLoop F T) (h : l.Sound) (thread : T) :
    Sound { l.pushTail false with between := Function.update l.between thread false } where
  order := h.order
  calling := h.calling
  running := h.running
  queueing := h.queueing
  attended := fun _ => Or.inr (Or.inl (wakeup_pos l))

theorem loopPush_sound (l : EventLoop F T) (h : l.Sound) (cb : F) (hin : l.inCallback = true) :
    Sound { l.pushFunctor cb with queueing := true } where
  order := by
    change l.pushed ++ [cb] = l.executed ++ l.batch ++ (l.pendingFunctors_ ++ [cb])
    rw [h.order, List.append_assoc]
  calling := h.calling
  running := h.running
  queueing := fun _ => hin
  attended := by
    intro _
    cases hp : l.phase with
    | handlers => exact Or.inl (Or.inl hp)
    | running current functors =>
      exact Or.inr (Or.inr (Or.inr ⟨rfl, h.running current functors hp⟩))
    | outside => simp [inCallback, hp] at hin
    | test => simp [inCallback, hp] at hin
    | poll => simp [inCallback, hp] at hin
    | calling => simp [inCallback, hp] at hin

theorem loopPushEnd_sound (l : EventLoop F T) (h : l.Sound) (hq : l.queueing = true) :
    Sound { l.pushTail true with queueing := false } := by
  have hin := h.queueing hq
  by_cases hc : l.callingPendingFunctors_ = true
  · have ht : l.pushTail true = l.wakeup := by simp [pushTail, hc]
    rw [ht]
    exact ⟨h.order, h.calling, h.running, by simp, fun _ => Or.inr (Or.inl (wakeup_pos l))⟩
  · have ht : l.pushTail true = l := by simp [pushTail, hc]
    rw [ht]
    refine ⟨h.order, h.calling, h.running, by simp, fun _ => Or.inl (Or.inl ?_)⟩
    cases hp : l.phase with
    | handlers => rfl
    | running current functors => exact absurd (h.running current functors hp) hc
    | outside => simp [inCallback, hp] at hin
    | test => simp [inCallback, hp] at hin
    | poll => simp [inCallback, hp] at hin
    | calling => simp [inCallback, hp] at hin

theorem phase_sound (l : EventLoop F T) (h : l.Sound) (hq : l.queueing = false)
    (hbatch : l.batch = []) (phase : LoopPhase F) (calling : Bool)
    (hphase : ∀ current functors, phase ≠ .running current functors)
    (hflag : phase = .calling → calling = true)
    (hatt : l.willSwap → phase = .handlers ∨ phase = .calling) :
    Sound { l with phase := phase, callingPendingFunctors_ := calling } where
  order := by
    have hb : batch { l with phase := phase, callingPendingFunctors_ := calling } = [] := by
      unfold batch
      split
      · rename_i current functors he
        exact absurd he (hphase current functors)
      · rfl
    rw [hb, List.append_nil]
    have ho := h.order
    rwa [hbatch, List.append_nil] at ho
  calling := hflag
  running := fun current functors hp => absurd hp (hphase current functors)
  queueing := fun hq' => absurd (hq.symm.trans hq') (by simp)
  attended := by
    intro hne
    rcases h.attended hne with hw | hw | hb | ⟨hq', -⟩
    · exact Or.inl (hatt hw)
    · exact Or.inr (Or.inl hw)
    · exact Or.inr (Or.inr (Or.inl hb))
    · exact absurd (hq.symm.trans hq') (by simp)

theorem handleRead_sound (l : EventLoop F T) (h : l.Sound) (hp : l.phase = .handlers) :
    l.handleRead.Sound where
  order := h.order
  calling := h.calling
  running := h.running
  queueing := h.queueing
  attended := fun _ => Or.inl (Or.inl hp)

theorem swapFunctors_sound (l : EventLoop F T) (h : l.Sound) (hq : l.queueing = false)
    (hp : l.phase = .calling) (hc : l.callingPendingFunctors_ = true) :
    Sound { l with pendingFunctors_ := [], phase := .running none l.pendingFunctors_ } where
  order := by
    have ho := h.order
    simp only [batch, hp, List.append_nil] at ho ⊢
    exact ho
  calling := fun _ => hc
  running := fun _ _ _ => hc
  queueing := fun hq' => absurd (hq.symm.trans hq') (by simp)
  attended := fun hne => absurd rfl hne

theorem callFunctor_sound (l : EventLoop F T) (h : l.Sound) (hq : l.queueing = false)
    (current : Option F) (cb : F) (functors : List F)
    (hp : l.phase = .running current (cb::functors)) :
    Sound { l with phase := .running (some cb) functors, executed := l.executed ++ [cb] } where
  order := by
    have ho := h.order
    simp only [batch, hp, List.append_assoc, List.cons_append] at ho ⊢
    exact ho
  calling := fun _ => h.running _ _ hp
  running := fun _ _ _ => h.running _ _ hp
  queueing := fun _ => rfl
  attended := by
    intro hne
    rcases h.attended hne with hw | hw | hb | ⟨hq', -⟩
    · simp [willSwap, hp] at hw
    · exact Or.inr (Or.inl hw)
    · exact Or.inr (Or.inr (Or.inl hb))
    · exact absurd (hq.symm.trans hq') (by simp)

theorem loopStep_sound (l l' : EventLoop F T) (h : l.Sound) (hq : l.queueing = false)
    (a : LoopAct F T) (hs : l.loopStep a = some l') : l'.Sound := by
  unfold loopStep at hs
  split at hs
  · rename_i hp
    obtain rfl := Option.some.inj hs
    have hs' := phase_sound l h hq (by simp [batch, hp]) .test l.callingPendingFunctors_ (by simp)
      (by simp) (by simp [willSwap, hp])
    exact ⟨hs'.order, hs'.calling, hs'.running, hs'.queueing, hs'.attended⟩
  · rename_i hp
    split at hs
    · obtain rfl := Option.some.inj hs
      have hs' := phase_sound l h hq (by simp [batch, hp]) .outside l.callingPendingFunctors_
        (by simp) (by simp) (by simp [willSwap, hp])
      exact ⟨hs'.order, hs'.calling, hs'.running, hs'.queueing, hs'.attended⟩
    · obtain rfl := Option.some.inj hs
      exact phase_sound l h hq (by simp [batch, hp]) .poll l.callingPendingFunctors_ (by simp)
        (by simp) (by simp [willSwap, hp])
  · rename_i hp
    obtain rfl := Option.some.inj hs
    exact phase_sound l h hq (by simp [batch, hp]) .handlers l.callingPendingFunctors_ (by simp)
      (by simp) (by simp)
  · rename_i hp
    obtain rfl := Option.some.inj hs
    exact handleRead_sound l h hp
  · rename_i hp
    obtain rfl := Option.some.inj hs
    exact phase_sound l h hq (by simp [batch, hp]) .calling true (by simp) (by simp) (by simp)
  · rename_i hp
    obtain rfl := Option.some.inj hs
    exact swapFunctors_sound l h hq hp (h.calling hp)
  · rename_i current cb functors hp
    obtain rfl := Option.some.inj hs
    exact callFunctor_sound l h hq current cb functors hp
  · rename_i current hp
    obtain rfl := Option.some.inj hs
    exact phase_sound l h hq (by simp [batch, hp]) .test false (by simp) (by simp)
      (by simp [willSwap, hp])
  · exact absurd hs (by simp)

theorem step_sound [DecidableEq T] (l : EventLoop F T) (a : LoopAct F T) (l' : EventLoop F T)
    (h : l.Sound) (hs : l.step a = some l') : l'.Sound := by
  have hloop : ∀ b, (if l.queueing then none else l.loopStep b) = some l' → l'.Sound := by
    intro b hb
    cases hq : l.queueing with
    | true => simp [hq] at hb
    | false =>
      simp only [hq] at hb
      exact loopStep_sound l l' h hq b hb
  cases a with
  | push thread cb =>
    simp only [step] at hs
    split at hs
    · exact absurd hs (by simp)
    · obtain rfl := Option.some.inj hs
      exact push_sound l h thread cb
  | pushEnd thread =>
    simp only [step] at hs
    split at hs
    · obtain rfl := Option.some.inj hs
      exact pushEnd_sound l h thread
    · exact absurd hs (by simp)
  | wakeup =>
    obtain rfl := Option.some.inj hs
    exact wakeup_sound l h
  | quit =>
    obtain rfl := Option.some.inj hs
    exact ⟨h.order, h.calling, h.running, h.queueing, h.attended⟩
  | loopPush cb =>
    simp only [step] at hs
    split at hs
    · rename_i hin
      obtain rfl := Option.some.inj hs
      exact loopPush_sound l h cb (by simp_all)
    · exact absurd hs (by simp)
  | loopPushEnd =>
    simp only [step] at hs
    split at hs
    · rename_i hq
      obtain rfl := Option.some.inj hs
      exact loopPushEnd_sound l h hq
    · exact absurd hs (by simp)
  | enterLoop => exact hloop _ hs
  | testQuit => exact hloop _ hs
  | pollReturns => exact hloop _ hs
  | handleRead => exact hloop _ hs
  | handlersEnd => exact hloop _ hs
  | swapFunctors => exact hloop _ hs
  | callFunctor => exact hloop _ hs
  | functorsEnd => exact hloop _ hs

theorem reach_sound [DecidableEq T] (l : EventLoop F T)
    (h : Reach (step (F := F) (T := T)) (fun _ _ => True) {} l) : l.Sound :=
  reach_invariant _ _ _ Sound sound_start (fun s a t hs _ ht => step_sound s a t hs ht) l h

def waiting (l : EventLoop F T) : List F := l.batch ++ l.pendingFunctors_

/-- Apart from a call the loop thread takes nothing out of its queue. -/
theorem loopStep_waiting (l l' : EventLoop F T) (a : LoopAct F T) (ha : a ≠ .callFunctor)
    (hs : l.loopStep a = some l') : l'.waiting = l.waiting := by
  unfold loopStep at hs
  split at hs
  · rename_i hp
    obtain rfl := Option.some.inj hs
    simp [waiting, batch, hp]
  · rename_i hp
    split at hs
    · obtain rfl := Option.some.inj hs
      simp [waiting, batch, hp]
    · obtain rfl := Option.some.inj hs
      simp [waiting, batch, hp]
  · rename_i hp
    obtain rfl := Option.some.inj hs
    simp [waiting, batch, hp]
  · obtain rfl := Option.some.inj hs
    rfl
  · rename_i hp
    obtain rfl := Option.some.inj hs
    simp [waiting, batch, hp]
  · rename_i hp
    obtain rfl := Option.some.inj hs
    simp [waiting, batch, hp]
  · exact absurd rfl ha
  · rename_i hp
    obtain rfl := Option.some.inj hs
    simp [waiting, batch, hp]
  · exact absurd hs (by simp)

theorem pushTail_waiting (l : EventLoop F T) (isInLoopThread : Bool) :
    (l.pushTail isInLoopThread).waiting = l.waiting := by
  unfold pushTail
  split
  · rfl
  · rfl

/-- Functors run in the order of their pushes, each once, and the loop never
waits for one that nobody is going to announce. -/
theorem reach_functors [DecidableEq T] (l : EventLoop F T)
    (h : Reach (step (F := F) (T := T)) (fun _ _ => True) {} l) :
    l.pushed = l.executed ++ l.batch ++ l.pendingFunctors_ ∧ l.executed <+: l.pushed ∧
      ¬ (l.phase = .poll ∧ l.pendingFunctors_ ≠ [] ∧ l.wakeups = 0 ∧
        ∀ thread, l.between thread = false) := by
  have hs := reach_sound l h
  refine ⟨hs.order, ?_, ?_⟩
  · rw [hs.order, List.append_assoc]
    exact List.prefix_append _ _
  · rintro ⟨hp, hne, hw, hb⟩
    rcases hs.attended hne with hw' | hw' | ⟨thread, ht⟩ | ⟨hq, -⟩
    · simp [willSwap, hp] at hw'
    · omega
    · exact absurd ((hb thread).symm.trans ht) (by simp)
    · have hin := hs.queueing hq
      simp [inCallback, hp] at hin

def oneFunctor : List (LoopAct ℕ ℕ) :=
  [.enterLoop, .testQuit, .push 1 7, .pushEnd 1, .pollReturns, .handleRead, .handlersEnd,
    .swapFunctors, .callFunctor, .functorsEnd, .testQuit]

theorem reach_functors_one :
    ∃ l, run step {} oneFunctor = some l ∧ l.phase = .poll ∧ l.pushed = [7] ∧
      l.executed = [7] ∧ ¬ (l.phase = .poll ∧ l.pendingFunctors_ ≠ [] ∧ l.wakeups = 0 ∧
        ∀ thread, l.between thread = false) := by
  obtain ⟨l, hl⟩ : ∃ l, run step {} oneFunctor = some l := ⟨_, rfl⟩
  have hreach := run_reach step (fun _ _ => true) {} l oneFunctor hl rfl
  have hf := reach_functors l (reach_mono _ _ _ _ (fun _ _ _ => trivial) l hreach)
  obtain rfl := Option.some.inj hl
  exact ⟨_, hl, rfl, rfl, rfl, hf.2.2⟩

end EventLoop
end MuServer
