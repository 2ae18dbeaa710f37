import Mathlib.Data.Prod.Lex
import Mathlib.Order.WellFounded
import MuServer.EventLoop

/-!
# A thread with a loop, and its end

The owner starts the thread, waits until `loop_` is published, and later calls
`quit` and joins. The thread publishes `loop_` before it calls `loop`, and
`loop` begins with a store of its own to `quit_`. So a `quit` is heard if its
store comes behind that one: then no test of the loop misses it, the wait is
over, and what is left of the iteration ends.
-/

set_option autoImplicit false

namespace MuServer

open Lib

def LoopAct.ordinary {F T : Type} : LoopAct F T → Bool
  | .quit | .enterLoop => false
  | _ => true

def LoopAct.ofLoop {F T : Type} : LoopAct F T → Bool
  | .testQuit | .pollReturns | .handlersEnd | .swapFunctors | .callFunctor | .functorsEnd => true
  | _ => false

namespace EventLoop

variable {F T : Type}

theorem wakeup_le (l : EventLoop F T) : l.wakeups ≤ l.wakeup.wakeups := by
  simp only [wakeup]
  split <;> omega

theorem pushTail_le (l : EventLoop F T) (isInLoopThread : Bool) :
    l.wakeups ≤ (l.pushTail isInLoopThread).wakeups := by
  unfold pushTail
  split
  · exact l.wakeup_le
  · exact le_refl _

def isOutside (l : EventLoop F T) : Bool :=
  match l.phase with
  | .outside => true
  | _ => false

theorem isOutside_iff (l : EventLoop F T) : l.isOutside = true ↔ l.phase = .outside := by
  unfold isOutside
  split <;> simp_all

def ahead (l : EventLoop F T) : ℕ ×ₗ ℕ :=
  match l.phase with
  | .outside => toLex (0, 0)
  | .test => toLex (1, 0)
  | .running _ functors => toLex (2, functors.length)
  | .calling => toLex (3, 0)
  | .handlers => toLex (4, 0)
  | .poll => toLex (5, 0)

structure Leaves (l l' : EventLoop F T) (a : LoopAct F T) : Prop where
  quit : l'.quit_ = l.quit_
  outside : l.phase = .outside → l'.phase = .outside
  inside : l.phase ≠ .outside → l'.phase = .outside → l.quit_ = true
  poll : l'.phase = .poll → l.quit_ = false ∨ (l.phase = .poll ∧ l.wakeups ≤ l'.wakeups)
  ahead : l.quit_ = true → a.ofLoop = true → l'.ahead < l.ahead
  stays : a.ofLoop = false → l'.phase = l.phase

theorem loopStep_leaves (l l' : EventLoop F T) (a : LoopAct F T) (ha : a.ordinary = true)
    (hs : l.loopStep a = some l') : Leaves l l' a := by
  unfold loopStep at hs
  split at hs
  · simp [LoopAct.ordinary] at ha
  · rename_i hp
    split at hs
    · obtain rfl := Option.some.inj hs
      constructor <;> simp_all [LoopAct.ofLoop, ahead, Prod.Lex.toLex_lt_toLex]
    · obtain rfl := Option.some.inj hs
      constructor <;> simp_all [LoopAct.ofLoop]
  · rename_i hp
    obtain rfl := Option.some.inj hs
    constructor <;> simp [LoopAct.ofLoop, ahead, Prod.Lex.toLex_lt_toLex, hp]
  · rename_i hp
    obtain rfl := Option.some.inj hs
    constructor <;> simp [LoopAct.ofLoop, EventLoop.handleRead, hp]
  · rename_i hp
    obtain rfl := Option.some.inj hs
    constructor <;> simp [LoopAct.ofLoop, ahead, Prod.Lex.toLex_lt_toLex, hp]
  · rename_i hp
    obtain rfl := Option.some.inj hs
    constructor <;> simp [LoopAct.ofLoop, ahead, Prod.Lex.toLex_lt_toLex, hp]
  · rename_i hp
    obtain rfl := Option.some.inj hs
    constructor <;> simp [LoopAct.ofLoop, ahead, Prod.Lex.toLex_lt_toLex, hp]
  · rename_i hp
    obtain rfl := Option.some.inj hs
    constructor <;> simp [LoopAct.ofLoop, ahead, Prod.Lex.toLex_lt_toLex, hp]
  · simp at hs

/-- Nothing that happens elsewhere moves the loop or takes a wakeup away. -/
theorem elsewhere_leaves (l l' : EventLoop F T) (a : LoopAct F T) (ha : a.ofLoop = false)
    (hquit : l'.quit_ = l.quit_) (hphase : l'.phase = l.phase) (hw : l.wakeups ≤ l'.wakeups) :
    Leaves l l' a where
  quit := hquit
  outside := fun ho => hphase.trans ho
  inside := fun hi ho => absurd (hphase.symm.trans ho) hi
  poll := fun hp => Or.inr ⟨hphase.symm.trans hp, hw⟩
  ahead := fun _ hof => absurd (ha.symm.trans hof) (by simp)
  stays := fun _ => hphase

theorem step_leaves [DecidableEq T] (l l' : EventLoop F T) (a : LoopAct F T)
    (ha : a.ordinary = true) (hs : l.step a = some l') : Leaves l l' a := by
  have hloop : ∀ b : LoopAct F T, b.ordinary = true →
      (if l.queueing then none else l.loopStep b) = some l' → Leaves l l' b := by
    intro b hb hs
    obtain ⟨-, hs⟩ := Option.ite_none_left_eq_some.mp hs
    exact loopStep_leaves l l' b hb hs
  cases a with
  | push thread cb =>
    obtain ⟨-, hs⟩ := Option.ite_none_left_eq_some.mp hs
    obtain rfl := Option.some.inj hs
    exact elsewhere_leaves _ _ _ rfl rfl rfl (le_refl _)
  | pushEnd thread =>
    obtain ⟨-, hs⟩ := Option.ite_none_right_eq_some.mp hs
    obtain rfl := Option.some.inj hs
    exact elsewhere_leaves _ _ _ rfl rfl rfl (l.pushTail_le false)
  | loopPush cb =>
    obtain ⟨-, hs⟩ := Option.ite_none_right_eq_some.mp hs
    obtain rfl := Option.some.inj hs
    exact elsewhere_leaves _ _ _ rfl rfl rfl (le_refl _)
  | loopPushEnd =>
    obtain ⟨-, hs⟩ := Option.ite_none_right_eq_some.mp hs
    obtain rfl := Option.some.inj hs
    refine elsewhere_leaves _ _ _ rfl ?_ ?_ (l.pushTail_le true) <;>
      simp only [pushTail] <;> split <;> rfl
  | wakeup =>
    obtain rfl := Option.some.inj hs
    exact elsewhere_leaves _ _ _ rfl rfl rfl l.wakeup_le
  | quit | enterLoop => simp [LoopAct.ordinary] at ha
  | testQuit | pollReturns | handleRead | handlersEnd | swapFunctors | callFunctor | functorsEnd =>
    exact hloop _ ha hs

/-- The loop's thread can always go on: it ends a `queueInLoop` it is in, or the
loop has a next statement. -/
theorem thread_goes_on [DecidableEq T] (l : EventLoop F T) (hin : l.phase ≠ .outside) :
    (l.queueing = true ∧ l.step .loopPushEnd = some { l.pushTail true with queueing := false })
      ∨ ∃ a : LoopAct F T, a.ofLoop = true ∧ a.ordinary = true ∧ ∃ l', l.step a = some l' := by
  cases hq : l.queueing with
  | true => exact Or.inl ⟨rfl, by simp [step, hq]⟩
  | false =>
    right
    cases hp : l.phase with
    | outside => exact absurd hp hin
    | test =>
      cases hquit : l.quit_ with
      | true => exact ⟨.testQuit, rfl, rfl, _, by simp [step, hq, loopStep, hp, hquit]; rfl⟩
      | false => exact ⟨.testQuit, rfl, rfl, _, by simp [step, hq, loopStep, hp, hquit]; rfl⟩
    | poll => exact ⟨.pollReturns, rfl, rfl, _, by simp [step, hq, loopStep, hp]; rfl⟩
    | handlers => exact ⟨.handlersEnd, rfl, rfl, _, by simp [step, hq, loopStep, hp]; rfl⟩
    | calling => exact ⟨.swapFunctors, rfl, rfl, _, by simp [step, hq, loopStep, hp]; rfl⟩
    | running current functors =>
      cases functors with
      | nil => exact ⟨.functorsEnd, rfl, rfl, _, by simp [step, hq, loopStep, hp]; rfl⟩
      | cons cb functors =>
        exact ⟨.callFunctor, rfl, rfl, _, by simp [step, hq, loopStep, hp]; rfl⟩

end EventLoop

inductive ThreadPhase where
  | created
  /-- before `loop_` is published, in `initCallback_` too -/
  | constructing
  | published
  | looping
  /-- behind `loop` -/
  | leaving
  | finished
  deriving DecidableEq

inductive OwnerPhase where
  | idle
  /-- in `startLoop`, waiting for `loop_` -/
  | starting
  /-- `startLoop` has returned -/
  | started
  /-- in `quit`, behind the store -/
  | quitting
  /-- `quit` has completed -/
  | quitted
  | joined
  deriving DecidableEq

structure EventLoopThread (F T : Type) where
  loop : EventLoop F T := {}
  /-- `loop_` is not null -/
  loop_ : Bool := false
  thread_ : ThreadPhase := .created
  owner : OwnerPhase := .idle

namespace EventLoopThread

variable {F T : Type}

inductive Act (F T : Type) where
  /-- `startLoop` starts the thread -/
  | startLoop
  | publish
  /-- `startLoop` has seen `loop_` -/
  | startLoopReturns
  /-- `threadFunc` calls `loop`, which stores to its flags -/
  | enterLoop
  /-- any other step of the loop, or of a thread that uses it -/
  | loop (a : LoopAct F T)
  /-- the store of `quit` -/
  | quitStore
  | quitWakeup
  /-- `threadFunc` takes `loop_` back and returns -/
  | clear
  | join

def alive (s : EventLoopThread F T) : Bool :=
  s.thread_ ≠ .created ∧ s.thread_ ≠ .finished

def heard (s : EventLoopThread F T) : Act F T → Bool
  | .quitStore => s.thread_ ≠ .published
  | _ => true

def told (s : EventLoopThread F T) : Bool :=
  s.owner = .quitting ∨ s.owner = .quitted ∨ s.owner = .joined

structure Sound (s : EventLoopThread F T) : Prop where
  loop : s.loop.Sound
  idle : s.owner = .idle → s.thread_ = .created
  inside : s.loop.phase ≠ .outside ↔ s.thread_ = .looping
  pointer : s.loop_ = true → s.thread_ ≠ .created ∧ s.thread_ ≠ .constructing
  quit : s.told = true → s.loop.quit_ = true
  entered : s.told = true →
    s.thread_ = .looping ∨ s.thread_ = .leaving ∨ s.thread_ = .finished
  woken : s.owner = .quitted → s.loop.phase = .poll → 0 < s.loop.wakeups

theorem start_sound : Sound ({} : EventLoopThread F T) where
  loop := EventLoop.sound_start
  idle := fun _ => rfl
  inside := by simp
  pointer := by simp
  quit := by simp [told]
  entered := by simp [told]
  woken := by simp

theorem outside_of (s : EventLoopThread F T) (h : s.Sound) (hne : s.thread_ ≠ .looping) :
    s.loop.phase = .outside := by
  by_contra hin
  exact hne (h.inside.mp hin)

/-- A thread that has not come to `loop` has an owner that has not called `quit`. -/
theorem untold_of (s : EventLoopThread F T) (h : s.Sound)
    (hne : s.thread_ ≠ .looping ∧ s.thread_ ≠ .leaving ∧ s.thread_ ≠ .finished) :
    s.told = false := by
  apply Bool.eq_false_of_not_eq_true
  intro htold
  rcases h.entered htold with hphase | hphase | hphase
  · exact hne.1 hphase
  · exact hne.2.1 hphase
  · exact hne.2.2 hphase

theorem owner_busy (s : EventLoopThread F T) (h : s.Sound) (hne : s.thread_ ≠ .created) :
    s.owner ≠ .idle := fun hidle => hne (h.idle hidle)

variable [DecidableEq T]

/-- A step of the loop, behind which `threadFunc` goes on once `loop` has returned. -/
def loopStep (s : EventLoopThread F T) (a : LoopAct F T) : Option (EventLoopThread F T) :=
  (s.loop.step a).map (fun l => { s with
    loop := l
    thread_ := if s.thread_ = .looping ∧ l.isOutside then .leaving else s.thread_ })

def step (s : EventLoopThread F T) : Act F T → Option (EventLoopThread F T)
  | .startLoop =>
    if s.owner = .idle then some { s with thread_ := .constructing, owner := .starting } else none
  | .publish =>
    if s.thread_ = .constructing then some { s with thread_ := .published, loop_ := true }
    else none
  | .startLoopReturns =>
    if s.owner = .starting ∧ s.loop_ then some { s with owner := .started } else none
  | .enterLoop =>
    if s.thread_ = .published then
      (s.loop.step .enterLoop).map (fun l => { s with loop := l, thread_ := .looping })
    else none
  | .loop a => if s.alive ∧ a.ordinary then s.loopStep a else none
  | .quitStore =>
    if s.owner = .started ∧ s.loop_ then
      (s.loop.step .quit).map (fun l => { s with loop := l, owner := .quitting })
    else none
  | .quitWakeup =>
    if s.owner = .quitting then some { s with loop := s.loop.wakeup, owner := .quitted } else none
  | .clear =>
    if s.thread_ = .leaving then some { s with thread_ := .finished, loop_ := false } else none
  | .join =>
    if s.owner = .quitted ∧ s.thread_ = .finished then some { s with owner := .joined } else none

theorem loopStep_sound (s t : EventLoopThread F T) (h : s.Sound) (a : LoopAct F T)
    (ha : a.ordinary = true) (ht : s.loopStep a = some t) : t.Sound := by
  obtain ⟨l, hl, rfl⟩ := Option.map_eq_some_iff.mp ht
  have hleaves := EventLoop.step_leaves s.loop l a ha hl
  have hthread : ∀ phase : ThreadPhase, s.thread_ = phase → phase ≠ .looping →
      (if s.thread_ = .looping ∧ l.isOutside then .leaving else s.thread_) = phase := by
    rintro _ rfl hne
    exact if_neg (fun hboth => hne hboth.1)
  constructor
  · exact EventLoop.step_sound s.loop a l h.loop hl
  · intro hidle
    exact hthread .created (h.idle hidle) (by simp)
  · dsimp only
    by_cases hlooping : s.thread_ = .looping
    · have hin := h.inside.mpr hlooping
      by_cases hout : l.isOutside = true
      · rw [if_pos ⟨hlooping, hout⟩]
        simp [EventLoop.isOutside_iff l |>.mp hout]
      · rw [if_neg (fun hboth => hout hboth.2)]
        simp [hlooping, ← EventLoop.isOutside_iff, hout]
    · have hout := outside_of s h hlooping
      rw [if_neg (fun hboth => hlooping hboth.1)]
      simp [hleaves.outside hout, hlooping]
  · intro hpointer
    obtain ⟨hcreated, hconstructing⟩ := h.pointer hpointer
    dsimp only
    split
    · simp
    · exact ⟨hcreated, hconstructing⟩
  · intro htold
    exact hleaves.quit.trans (h.quit htold)
  · intro htold
    dsimp only
    split
    · exact Or.inr (Or.inl rfl)
    · exact h.entered htold
  · intro howner hpoll
    have hquit := h.quit (by simp [told, show s.owner = .quitted from howner])
    rcases hleaves.poll hpoll with hno | ⟨hwas, hle⟩
    · simp [hquit] at hno
    · exact (h.woken howner hwas).trans_le hle

theorem step_sound (s : EventLoopThread F T) (a : Act F T) (t : EventLoopThread F T)
    (h : s.Sound) (ha : s.heard a = true) (ht : s.step a = some t) : t.Sound := by
  cases a with
  | startLoop =>
    obtain ⟨hidle, ht⟩ := Option.ite_none_right_eq_some.mp ht
    obtain rfl := Option.some.inj ht
    have hcreated := h.idle hidle
    have hout := outside_of s h (by simp [hcreated])
    refine ⟨h.loop, by simp, by simp [hout], ?_, by simp [told], by simp [told], by simp⟩
    intro hpointer
    exact absurd hcreated (h.pointer hpointer).1
  | publish =>
    obtain ⟨hphase, ht⟩ := Option.ite_none_right_eq_some.mp ht
    obtain rfl := Option.some.inj ht
    have hout := outside_of s h (by simp [hphase])
    have huntold := untold_of s h (by simp [hphase])
    refine ⟨h.loop, ?_, by simp [hout], by simp, h.quit, ?_, h.woken⟩
    · exact fun hidle => absurd hidle (owner_busy s h (by simp [hphase]))
    · intro htold
      exact absurd (huntold.symm.trans htold) (by simp)
  | startLoopReturns =>
    obtain ⟨hstarting, ht⟩ := Option.ite_none_right_eq_some.mp ht
    obtain rfl := Option.some.inj ht
    exact ⟨h.loop, by simp, h.inside, h.pointer, by simp [told], by simp [told], by simp⟩
  | enterLoop =>
    obtain ⟨hphase, ht⟩ := Option.ite_none_right_eq_some.mp ht
    obtain ⟨l, hl, rfl⟩ := Option.map_eq_some_iff.mp ht
    have huntold := untold_of s h (by simp [hphase])
    have hloop := EventLoop.step_sound s.loop .enterLoop l h.loop hl
    have hl' : l.phase = .test := by
      obtain ⟨-, hl⟩ := Option.ite_none_left_eq_some.mp hl
      simp only [EventLoop.loopStep, outside_of s h (by simp [hphase])] at hl
      obtain rfl := Option.some.inj hl
      rfl
    refine ⟨hloop, ?_, by simp [hl'], by simp, ?_, by simp, ?_⟩
    · exact fun hidle => absurd hidle (owner_busy s h (by simp [hphase]))
    · intro htold
      exact absurd (huntold.symm.trans htold) (by simp)
    · intro howner hpoll
      simp [hl'] at hpoll
  | loop a =>
    obtain ⟨⟨-, hordinary⟩, ht⟩ := Option.ite_none_right_eq_some.mp ht
    exact loopStep_sound s t h a hordinary ht
  | quitStore =>
    obtain ⟨⟨hstarted, hpointer⟩, ht⟩ := Option.ite_none_right_eq_some.mp ht
    obtain ⟨l, hl, rfl⟩ := Option.map_eq_some_iff.mp ht
    obtain rfl := Option.some.inj hl
    obtain ⟨hcreated, hconstructing⟩ := h.pointer hpointer
    have hpublished : s.thread_ ≠ .published := of_decide_eq_true ha
    refine ⟨EventLoop.step_sound s.loop .quit _ h.loop rfl, by simp, h.inside, h.pointer,
      fun _ => rfl, fun _ => ?_, by simp⟩
    cases hphase : s.thread_ with
    | created => exact absurd hphase hcreated
    | constructing => exact absurd hphase hconstructing
    | published => exact absurd hphase hpublished
    | looping => exact Or.inl rfl
    | leaving => exact Or.inr (Or.inl rfl)
    | finished => exact Or.inr (Or.inr rfl)
  | quitWakeup =>
    obtain ⟨hquitting, ht⟩ := Option.ite_none_right_eq_some.mp ht
    obtain rfl := Option.some.inj ht
    have htold : s.told = true := by simp [told, hquitting]
    exact ⟨EventLoop.wakeup_sound s.loop h.loop, by simp, h.inside, h.pointer,
      fun _ => h.quit htold, fun _ => h.entered htold, fun _ _ => s.loop.wakeup_pos⟩
  | clear =>
    obtain ⟨hleaving, ht⟩ := Option.ite_none_right_eq_some.mp ht
    obtain rfl := Option.some.inj ht
    have hout := outside_of s h (by simp [hleaving])
    refine ⟨h.loop, ?_, by simp [hout], by simp, h.quit, by simp, h.woken⟩
    exact fun hidle => absurd hidle (owner_busy s h (by simp [hleaving]))
  | join =>
    obtain ⟨⟨hquitted, hfinished⟩, ht⟩ := Option.ite_none_right_eq_some.mp ht
    obtain rfl := Option.some.inj ht
    have htold : s.told = true := by simp [told, hquitted]
    exact ⟨h.loop, by simp, h.inside, h.pointer, fun _ => h.quit htold,
      fun _ => h.entered htold, by simp⟩

def Act.onThread : Act F T → Bool
  | .loop a => a.ofLoop || match a with
    | .loopPushEnd => true
    | _ => false
  | .clear => true
  | _ => false

theorem step_loop (s : EventLoopThread F T) (hs : s.thread_ = .looping) (a : LoopAct F T)
    (ha : a.ordinary = true) (l : EventLoop F T) (hl : s.loop.step a = some l) :
    ∃ t, s.step (.loop a) = some t ∧ t.loop = l ∧ t.owner = s.owner
      ∧ (t.thread_ = .looping ∨ t.thread_ = .leaving) := by
  refine ⟨{ s with
    loop := l
    thread_ := if l.isOutside then .leaving else .looping }, ?_, rfl, rfl, ?_⟩
  · simp [step, loopStep, alive, hs, ha, hl]
  · dsimp only
    split
    · exact Or.inr rfl
    · exact Or.inl rfl

theorem thread_advances (s : EventLoopThread F T) (h : s.Sound) (howner : s.owner = .quitted)
    (hs : s.thread_ = .looping) : ∃ acts t, (∀ a ∈ acts, Act.onThread a = true)
      ∧ Machine.run step s acts = some t ∧ t.loop.ahead < s.loop.ahead
      ∧ t.owner = .quitted ∧ t.Sound ∧ (t.thread_ = .looping ∨ t.thread_ = .leaving) := by
  have hplain : ∀ u : EventLoopThread F T, u.Sound → u.owner = .quitted → u.thread_ = .looping →
      ∀ a l, a.ofLoop = true → a.ordinary = true → u.loop.step a = some l →
      ∃ t, u.step (.loop a) = some t ∧ t.loop.ahead < u.loop.ahead ∧ t.owner = .quitted
        ∧ t.Sound ∧ (t.thread_ = .looping ∨ t.thread_ = .leaving) := by
    intro u hu hquitted hlooping a l hof hordinary hl
    have hquit := hu.quit (by simp [told, hquitted])
    obtain ⟨t, ht, rfl, hto, htp⟩ := step_loop u hlooping a hordinary l hl
    exact ⟨t, ht, (EventLoop.step_leaves _ _ a hordinary hl).ahead hquit hof, hto.trans hquitted,
      step_sound u (.loop a) t hu rfl ht, htp⟩
  have hin := h.inside.mpr hs
  rcases s.loop.thread_goes_on hin with ⟨hqueueing, hpush⟩ | ⟨a, hof, hordinary, l, hl⟩
  · -- a callback is in `queueInLoop`, and comes back from it first
    obtain ⟨u, hu, hul, huo, hup⟩ := step_loop s hs .loopPushEnd rfl _ hpush
    have hsound := step_sound s (.loop .loopPushEnd) u h rfl hu
    have hleaves := EventLoop.step_leaves s.loop _ .loopPushEnd rfl hpush
    have huin : u.loop.phase ≠ .outside := by
      rw [hul, hleaves.stays rfl]
      exact hin
    have hlooping := hsound.inside.mp huin
    rcases u.loop.thread_goes_on huin with ⟨hagain, -⟩ | ⟨a, hof, hordinary, l, hl⟩
    · simp [hul] at hagain
    · obtain ⟨t, ht, hless, hrest⟩ := hplain u hsound (huo.trans howner) hlooping a l hof
        hordinary hl
      refine ⟨[.loop .loopPushEnd, .loop a], t, by simp [Act.onThread, hof],
        by simp [Machine.run, hu, ht], ?_, hrest⟩
      have hsame : u.loop.ahead = s.loop.ahead := by
        rw [EventLoop.ahead, EventLoop.ahead, hul, hleaves.stays rfl]
      rwa [hsame] at hless
  · obtain ⟨t, ht, hrest⟩ := hplain s h howner hs a l hof hordinary hl
    exact ⟨[.loop a], t, by simp [Act.onThread, hof], by simp [Machine.run, ht], hrest⟩

theorem thread_leaves (s : EventLoopThread F T) (h : s.Sound) (howner : s.owner = .quitted)
    (hs : s.thread_ = .looping ∨ s.thread_ = .leaving) :
    ∃ acts t, (∀ a ∈ acts, Act.onThread a = true) ∧ Machine.run step s acts = some t
      ∧ t.thread_ = .leaving ∧ t.owner = .quitted := by
  generalize hahead : s.loop.ahead = n
  induction n using WellFoundedLT.induction generalizing s with
  | _ n ih =>
    rcases hs with hs | hs
    · obtain ⟨acts, t, hacts, hrun, hless, hto, ht, htp⟩ := thread_advances s h howner hs
      obtain ⟨more, u, hmore, hrun', hleaving, huo⟩ := ih _ (hahead ▸ hless) t ht hto htp rfl
      refine ⟨acts ++ more, u, ?_, by rw [Machine.run_append _ _ _ _ _ hrun, hrun'], hleaving, huo⟩
      intro a ha
      rcases List.mem_append.mp ha with ha | ha
      · exact hacts a ha
      · exact hmore a ha
    · exact ⟨[], s, by simp, rfl, hs, howner⟩

theorem thread_joins (s : EventLoopThread F T) (h : s.Sound) (howner : s.owner = .quitted) :
    ∃ acts t, (∀ a ∈ acts, Act.onThread a = true)
      ∧ Machine.run step s (acts ++ [.join]) = some t ∧ t.owner = .joined := by
  have hentered := h.entered (by simp [told, howner])
  rw [← or_assoc] at hentered
  rcases hentered with hs | hs
  · obtain ⟨acts, u, hacts, hrun, hleaving, hquitted⟩ := thread_leaves s h howner hs
    refine ⟨acts ++ [.clear], { u with thread_ := .finished, loop_ := false, owner := .joined },
      ?_, ?_, rfl⟩
    · intro a ha
      rcases List.mem_append.mp ha with ha | ha
      · exact hacts a ha
      · rw [List.mem_singleton.mp ha]
        rfl
    · rw [List.append_assoc, Machine.run_append _ _ _ _ _ hrun]
      simp [Machine.run, step, hleaving, hquitted]
  · exact ⟨[], { s with owner := .joined }, by simp, by simp [Machine.run, step, howner, hs], rfl⟩

/-- A `quit` that is heard: in every state behind it the test sees `quit_`, the
wait is over at once, and the thread's own steps lead to its end. -/
theorem reach_heard (s : EventLoopThread F T)
    (h : Machine.Reach step (fun s a => s.heard a = true) {} s) (howner : s.owner = .quitted) :
    (s.loop.phase = .test → s.loop.quit_ = true) ∧ (s.loop.phase = .poll → 0 < s.loop.wakeups)
      ∧ ∃ acts t, (∀ a ∈ acts, Act.onThread a = true)
        ∧ Machine.run step s (acts ++ [.join]) = some t ∧ t.owner = .joined := by
  have hs : s.Sound := Machine.reach_invariant step _ {} Sound start_sound
    (fun s a t hs ha ht => step_sound s a t hs ha ht) s h
  exact ⟨fun _ => hs.quit (by simp [told, howner]), hs.woken howner, thread_joins s hs howner⟩

def quitWhileWaiting : List (Act ℕ ℕ) :=
  [.startLoop, .publish, .startLoopReturns, .enterLoop, .loop .testQuit, .quitStore, .quitWakeup]

theorem reach_heard_waiting : ∃ s : EventLoopThread ℕ ℕ,
    Machine.run step {} quitWhileWaiting = some s ∧ s.loop.phase = .poll ∧ 0 < s.loop.wakeups
      ∧ ∃ acts t, (∀ a ∈ acts, Act.onThread a = true)
        ∧ Machine.run step s (acts ++ [.join]) = some t ∧ t.owner = .joined := by
  obtain ⟨s, hs⟩ : ∃ s, Machine.run step {} quitWhileWaiting = some s := ⟨_, rfl⟩
  have hreach := Machine.run_reach step heard {} s quitWhileWaiting hs rfl
  have hheard := reach_heard s hreach
  obtain rfl := Option.some.inj hs
  obtain ⟨-, hwoken, hends⟩ := hheard rfl
  exact ⟨_, hs, rfl, hwoken rfl, hends⟩

/-- The owner quits between the publication of `loop_` and the call of `loop`. -/
theorem quit_overwritten : ¬ ∀ s : EventLoopThread ℕ ℕ,
    Machine.Reach step (fun _ _ => True) {} s → s.owner = .quitted → s.loop.phase = .test →
      s.loop.quit_ = true := by
  intro h
  obtain ⟨s, hs⟩ : ∃ s, Machine.run (step (F := ℕ) (T := ℕ)) {} [.startLoop, .publish,
    .startLoopReturns, .quitStore, .quitWakeup, .enterLoop] = some s := ⟨_, rfl⟩
  have hquit := h s (Machine.run_reach_any step {} s _ hs)
  obtain rfl := Option.some.inj hs
  exact absurd (hquit rfl rfl) (by decide)

/-- Every `quit` that completes before `loop` is called is lost like this. -/
theorem enterLoop_forgets (s t : EventLoopThread F T) (ht : s.step .enterLoop = some t) :
    t.owner = s.owner ∧ t.loop.phase = .test ∧ t.loop.quit_ = false := by
  obtain ⟨-, ht⟩ := Option.ite_none_right_eq_some.mp ht
  obtain ⟨l, hl, rfl⟩ := Option.map_eq_some_iff.mp ht
  obtain ⟨-, hl⟩ := Option.ite_none_left_eq_some.mp hl
  unfold EventLoop.loopStep at hl
  split at hl <;> simp_all
  subst hl
  exact ⟨rfl, rfl⟩

end EventLoopThread

end MuServer
