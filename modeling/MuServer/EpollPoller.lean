import Mathlib.Data.Nat.Notation
import Mathlib.Logic.Function.Basic

/-!
# Channels and the poller

A channel is known to its poller by its address, here the number of its owner.
The kernel's epoll set is part of the poller; a `close` takes a descriptor out
of it. An assert that fails is recorded in `failed`, one about `channels_` in
`failedFind` too, and the step goes on as it does under `NDEBUG`.
-/

set_option autoImplicit false

namespace MuServer

structure Events where
  read : Bool := false
  write : Bool := false
  deriving DecidableEq, Repr

def kNoneEvent : Events := {}

inductive Index where
  | kNew
  | kAdded
  | kDeleted
  deriving DecidableEq, Repr

structure Channel where
  fd_ : ℕ
  owner : ℕ
  events_ : Events := kNoneEvent
  index_ : Index := .kNew
  deriving DecidableEq, Repr

namespace Channel

def isNoneEvent (channel : Channel) : Bool := channel.events_ = kNoneEvent

def isWriting (channel : Channel) : Bool := channel.events_.write

def enableReading (channel : Channel) : Channel :=
  { channel with events_ := { channel.events_ with read := true } }

def disableReading (channel : Channel) : Channel :=
  { channel with events_ := { channel.events_ with read := false } }

def enableWriting (channel : Channel) : Channel :=
  { channel with events_ := { channel.events_ with write := true } }

def disableWriting (channel : Channel) : Channel :=
  { channel with events_ := { channel.events_ with write := false } }

def disableAll (channel : Channel) : Channel := { channel with events_ := kNoneEvent }

def setIndex (channel : Channel) (index : Index) : Channel := { channel with index_ := index }

end Channel

inductive EpollOp where
  | add
  | mod
  | del
  deriving DecidableEq, Repr

structure EpollPoller where
  channels_ : ℕ → Option ℕ := fun _ => none
  /-- what the kernel watches, with its mask -/
  epoll : ℕ → Option Events := fun _ => none
  /-- an assert has failed -/
  failed : Bool := false
  /-- one about what is in `channels_` -/
  failedFind : Bool := false
  /-- the kernel has refused an `epoll_ctl` -/
  refused : Bool := false

namespace EpollPoller

def assert (p : EpollPoller) (b : Bool) : EpollPoller := { p with failed := p.failed || !b }

def assertFind (p : EpollPoller) (b : Bool) : EpollPoller :=
  { p with failed := p.failed || !b, failedFind := p.failedFind || !b }

/-- `epoll_ctl`: an `add` wants the descriptor absent, the others present. -/
def update (p : EpollPoller) (operation : EpollOp) (channel : Channel) : EpollPoller :=
  let present := (p.epoll channel.fd_).isSome
  match operation with
  | .add =>
    if present then { p with refused := true }
    else { p with epoll := Function.update p.epoll channel.fd_ (some channel.events_) }
  | .mod =>
    if present then
      { p with epoll := Function.update p.epoll channel.fd_ (some channel.events_) }
    else { p with refused := true }
  | .del =>
    if present then { p with epoll := Function.update p.epoll channel.fd_ none }
    else { p with refused := true }

def holds (p : EpollPoller) (channel : Channel) : Bool :=
  p.channels_ channel.fd_ = some channel.owner

def setChannel (p : EpollPoller) (fd : ℕ) (channel : Option ℕ) : EpollPoller :=
  { p with channels_ := Function.update p.channels_ fd channel }

def updateChannel (p : EpollPoller) (channel : Channel) : EpollPoller × Channel :=
  match channel.index_ with
  | .kNew =>
    (((p.assertFind (p.channels_ channel.fd_).isNone).setChannel channel.fd_
      (some channel.owner)).update .add channel, channel.setIndex .kAdded)
  | .kDeleted => ((p.assertFind (p.holds channel)).update .add channel, channel.setIndex .kAdded)
  | .kAdded =>
    if channel.isNoneEvent then
      ((p.assertFind (p.holds channel)).update .del channel, channel.setIndex .kDeleted)
    else ((p.assertFind (p.holds channel)).update .mod channel, channel)

def checkRemove (p : EpollPoller) (channel : Channel) : EpollPoller :=
  (p.assertFind (p.holds channel)).assert (channel.isNoneEvent && channel.index_ ≠ .kNew)

def removeChannel (p : EpollPoller) (channel : Channel) : EpollPoller × Channel :=
  let p := (p.checkRemove channel).setChannel channel.fd_ none
  (if channel.index_ = .kAdded then p.update .del channel else p, channel.setIndex .kNew)

def closed (p : EpollPoller) (fd : ℕ) : EpollPoller :=
  { p with epoll := Function.update p.epoll fd none }

@[simp] theorem update_channels (p : EpollPoller) (op : EpollOp) (channel : Channel) :
    (p.update op channel).channels_ = p.channels_ := by
  cases op <;> simp only [update] <;> split <;> rfl

@[simp] theorem update_failed (p : EpollPoller) (op : EpollOp) (channel : Channel) :
    (p.update op channel).failed = p.failed := by
  cases op <;> simp only [update] <;> split <;> rfl

@[simp] theorem update_failedFind (p : EpollPoller) (op : EpollOp) (channel : Channel) :
    (p.update op channel).failedFind = p.failedFind := by
  cases op <;> simp only [update] <;> split <;> rfl

theorem updateChannel_channel (p : EpollPoller) (channel : Channel) :
    ∃ index, index ≠ .kNew ∧ (p.updateChannel channel).2 = channel.setIndex index := by
  unfold updateChannel
  split
  · exact ⟨.kAdded, by simp, rfl⟩
  · exact ⟨.kAdded, by simp, rfl⟩
  · rename_i h
    split
    · exact ⟨.kDeleted, by simp, rfl⟩
    · exact ⟨.kAdded, by simp, by simp [Channel.setIndex, ← h]⟩

theorem updateChannel_events (p : EpollPoller) (channel : Channel) :
    (p.updateChannel channel).2.events_ = channel.events_ := by
  obtain ⟨index, -, h⟩ := p.updateChannel_channel channel
  rw [h]
  rfl

theorem updateChannel_new (p : EpollPoller) (channel : Channel) (h : channel.index_ = .kNew) :
    (p.updateChannel channel).1.channels_ =
      Function.update p.channels_ channel.fd_ (some channel.owner) ∧
    (p.updateChannel channel).1.failedFind =
      (p.failedFind || !(p.channels_ channel.fd_).isNone) := by
  simp [updateChannel, h, setChannel, assertFind]

theorem updateChannel_old (p : EpollPoller) (channel : Channel) (h : channel.index_ ≠ .kNew) :
    (p.updateChannel channel).1.channels_ = p.channels_ ∧
    (p.updateChannel channel).1.failedFind = (p.failedFind || !p.holds channel) := by
  unfold updateChannel
  split
  · rename_i hi
    exact absurd hi h
  · simp [assertFind]
  · split <;> simp [assertFind]

theorem checkRemove_failed (p : EpollPoller) (channel : Channel)
    (h : (p.checkRemove channel).failed = false) : channel.isNoneEvent = true := by
  cases hn : channel.isNoneEvent with
  | true => rfl
  | false =>
    rw [← h]
    simp [checkRemove, assert, hn]

theorem removeChannel_map (p : EpollPoller) (channel : Channel) :
    (p.removeChannel channel).1.channels_ = Function.update p.channels_ channel.fd_ none ∧
    (p.removeChannel channel).1.failedFind = (p.failedFind || !p.holds channel) ∧
    ((p.removeChannel channel).1.failed = false → channel.isNoneEvent = true) := by
  unfold removeChannel
  split
  · simp only [update_channels, update_failedFind, update_failed]
    exact ⟨rfl, rfl, checkRemove_failed p channel⟩
  · exact ⟨rfl, rfl, checkRemove_failed p channel⟩

end EpollPoller
end MuServer
