import MuServer.ConnectionNames
import MuServer.Lib.RoundRobin
import MuServer.LogStream

/-!
# The loops of a server

The pool starts a thread with a loop for each number and hands the loops out in
turn; without threads it hands out the base loop. The acceptor takes connections
from the kernel as soon as it listens, and the server gives each the next loop of
the pool. `start` acts only when it finds `started_` at zero.
-/

set_option autoImplicit false

namespace MuServer

open Lib RoundRobin

variable {T L : Type}

structure EventLoopThreadPool (L : Type) where
  baseLoop_ : L
  name_ : Bytes := []
  started_ : Bool := false
  numThreads_ : ℤ := 0
  next_ : ℕ := 0
  /-- the names of the threads -/
  threads_ : List Bytes := []
  loops_ : List L := []
  /-- the loops that the initial callback was called with -/
  initialized : List L := []

namespace EventLoopThreadPool

def setThreadNum (p : EventLoopThreadPool L) (numThreads : ℤ) : EventLoopThreadPool L :=
  { p with numThreads_ := numThreads }

def threadName (p : EventLoopThreadPool L) (i : ℕ) : Bytes :=
  (LogStream.cText p.name_ ++ decimal i).take (p.name_.length+31)

/-- Where `cb` is null, nothing is called; `loops` are those the threads publish. -/
def start (p : EventLoopThreadPool L) (cb : Bool) (loops : List L) : EventLoopThreadPool L :=
  { p with
    started_ := true
    threads_ := p.threads_ ++ (List.range p.numThreads_.toNat).map p.threadName
    loops_ := p.loops_ ++ loops
    initialized := p.initialized ++
      if !cb then [] else if p.numThreads_ = 0 then [p.baseLoop_] else loops }

def getNextLoop (p : EventLoopThreadPool L) : Except Fault (L × EventLoopThreadPool L) :=
  if p.loops_.isEmpty then .ok (p.baseLoop_, p)
  else
    match p.loops_[p.next_]? with
    | some loop => .ok (loop, { p with next_ := (p.next_+1) % p.loops_.length })
    | none => .error .outOfRange

def getAllLoops (p : EventLoopThreadPool L) : List L :=
  if p.loops_.isEmpty then [p.baseLoop_] else p.loops_

def Rotated (p : EventLoopThreadPool L) (k : ℕ) : Prop :=
  p.loops_ ≠ [] → p.next_ = k % p.loops_.length

def turn (p : EventLoopThreadPool L) (k : ℕ) : L := dealt p.loops_ p.baseLoop_ k

theorem turn_mem (p : EventLoopThreadPool L) (k : ℕ) : p.turn k ∈ p.getAllLoops := by
  unfold getAllLoops turn
  split
  · rename_i hempty
    rw [List.isEmpty_iff.mp hempty]
    exact List.mem_singleton.mpr (dealt_nil _ _)
  · rename_i hsome
    exact dealt_mem _ _ _ (fun h => hsome (by simp [h]))

theorem getNextLoop_turn (p : EventLoopThreadPool L) (k : ℕ) (h : p.Rotated k) :
    ∃ p' : EventLoopThreadPool L, p.getNextLoop = .ok (p.turn k, p') ∧ p'.Rotated (k+1) ∧
      p'.loops_ = p.loops_ ∧ p'.baseLoop_ = p.baseLoop_ ∧ p'.initialized = p.initialized := by
  unfold getNextLoop turn
  by_cases hempty : p.loops_ = []
  · rw [if_pos (by simp [hempty]), hempty, dealt_nil]
    exact ⟨p, rfl, fun hne => absurd hempty hne, hempty, rfl, rfl⟩
  · have hindex : p.loops_[p.next_]? = some (dealt p.loops_ p.baseLoop_ k) := by
      rw [h hempty, dealt_eq _ _ _ hempty]
    rw [if_neg (by simp [hempty]), hindex]
    refine ⟨_, rfl, fun _ => ?_, rfl, rfl, rfl⟩
    show (p.next_+1) % p.loops_.length = (k+1) % p.loops_.length
    rw [h hempty, Nat.mod_add_mod]

end EventLoopThreadPool

structure PooledServer (T L : Type) where
  server : TcpServer T L := {}
  threadPool_ : EventLoopThreadPool L
  /-- an `atomic_int` -/
  started_ : BitVec 32 := 0
  /-- `Acceptor::listen` pending in the base loop -/
  pendingListens : ℕ := 0
  listening_ : Bool := false
  undefined : Bool := false

inductive PoolAct (T L : Type) where
  | setThreadNum (numThreads : ℤ)
  /-- the threads publish these loops -/
  | start (loops : List L) (isInLoopThread : Bool)
  | listen
  /-- `handleRead` of the acceptor, with the result of `accept` -/
  | handleRead (connfd : ℤ)
  | serve (a : ServerAct T L)

def ServerAct.accepts : ServerAct T L → Bool
  | .newConnection _ _ => true
  | _ => false

theorem TcpServer.step_loops [DecidableEq T] [DecidableEq L] (s s' : TcpServer T L)
    (a : ServerAct T L) (ha : a.accepts = false) (hs : s.step a = some s') :
    s'.nextConnId_ = s.nextConnId_ ∧
      ∀ i, (s'.conns i).map Held.loop = (s.conns i).map Held.loop := by
  have hset : ∀ i h k, s.conns i = some h → k.loop = h.loop → ∀ j,
      (Function.update s.conns i (some k) j).map Held.loop = (s.conns j).map Held.loop := by
    intro i h k hi hloop j
    by_cases hj : j = i
    · rw [hj, Function.update_self, hi, Option.map_some, Option.map_some, hloop]
    · rw [Function.update_of_ne hj]
  obtain ⟨-, -, hstepped⟩ := step_stepped s a s' hs
  cases hstepped with
  | newConnection fd loop hfd => cases ha
  | conn i h a c hi halive hne hc => exact ⟨rfl, hset i h _ hi rfl⟩
  | removeConnectionInLoop i h hi hb => exact ⟨rfl, hset i h _ hi rfl⟩
  | destruct i h hi halive hr => exact ⟨rfl, hset i h _ hi rfl⟩
  | useFreed i h hi halive hl => exact ⟨rfl, fun _ => rfl⟩

namespace PooledServer

def start (s : PooledServer T L) (loops : List L) (isInLoopThread : Bool) : PooledServer T L :=
  { s with
    started_ := s.started_+1
    threadPool_ := s.threadPool_.start false loops
    listening_ := s.listening_ || isInLoopThread
    pendingListens := if isInLoopThread then s.pendingListens else s.pendingListens+1 }

variable [DecidableEq T] [DecidableEq L]

def newConnection (s : PooledServer T L) (sockfd : ℕ) : Option (PooledServer T L) :=
  match s.threadPool_.getNextLoop with
  | .ok (ioloop, pool) =>
    (s.server.step (.newConnection sockfd ioloop)).map (fun server =>
      { s with
        server := server
        threadPool_ := pool })
  | .error _ => some { s with undefined := true }

def step (s : PooledServer T L) : PoolAct T L → Option (PooledServer T L)
  | .setThreadNum numThreads =>
    some { s with threadPool_ := s.threadPool_.setThreadNum numThreads }
  | .start loops isInLoopThread =>
    if s.started_ ≠ 0 then some { s with started_ := s.started_+1 }
    else if loops.length = s.threadPool_.numThreads_.toNat ∧ loops.Nodup then
      some (s.start loops isInLoopThread)
    else none
  | .listen =>
    match s.pendingListens with
    | 0 => none
    | n+1 => some { s with
        pendingListens := n
        listening_ := true }
  | .handleRead connfd =>
    if !s.listening_ then none
    else if connfd < 0 then some s
    else s.newConnection connfd.toNat
  | .serve a =>
    if a.accepts then none
    else (s.server.step a).map (fun server => { s with server := server })

def counts (s : PooledServer T L) : PoolAct T L → Bool
  | .start _ _ => s.started_ ≠ -1
  | _ => true

def load (s : PooledServer T L) (loop : L) : ℕ :=
  Nat.count (fun k => (s.server.conns (k+1)).map Held.loop = some loop) (s.server.nextConnId_-1)

structure Spread (s : PooledServer T L) : Prop where
  defined : s.undefined = false
  uninitialized : s.threadPool_.initialized = []
  idle : s.started_ = 0 → s.threadPool_.loops_ = [] ∧ s.threadPool_.next_ = 0 ∧
    s.listening_ = false ∧ s.pendingListens = 0 ∧ s.server.nextConnId_ = 1
  loops : s.threadPool_.loops_.Nodup
  rotated : s.threadPool_.Rotated (s.server.nextConnId_-1)
  next : 1 ≤ s.server.nextConnId_
  conns : ∀ i, (s.server.conns i).map Held.loop =
    if 1 ≤ i ∧ i < s.server.nextConnId_ then some (s.threadPool_.turn (i-1)) else none
  server : Machine.Reach TcpServer.step (fun _ _ => True) {} s.server

theorem start_spread (baseLoop : L) (name : Bytes) :
    Spread ({ threadPool_ := { baseLoop_ := baseLoop, name_ := name } } : PooledServer T L) where
  defined := rfl
  uninitialized := rfl
  idle := fun _ => ⟨rfl, rfl, rfl, rfl, rfl⟩
  loops := List.nodup_nil
  rotated := fun hne => absurd rfl hne
  next := le_rfl
  conns := fun i => by
    show none = if 1 ≤ i ∧ i < 1 then _ else none
    rw [if_neg (by omega)]
  server := .refl

theorem started_spread (s : PooledServer T L) (h : s.Spread) (h0 : s.started_ = 0)
    (loops : List L) (hloops : loops.Nodup) (isInLoopThread : Bool) :
    (s.start loops isInLoopThread).Spread := by
  obtain ⟨hempty, hindex, -, -, hnext⟩ := h.idle h0
  constructor
  · exact h.defined
  · show s.threadPool_.initialized ++ [] = []
    rw [h.uninitialized, List.append_nil]
  · intro hzero
    have hone : s.started_+1 = 0 := hzero
    rw [h0] at hone
    exact absurd hone (by decide)
  · show (s.threadPool_.loops_ ++ loops).Nodup
    rwa [hempty, List.nil_append]
  · intro hne
    show s.threadPool_.next_ = (s.server.nextConnId_-1) % (s.threadPool_.loops_ ++ loops).length
    rw [hindex, hnext, Nat.sub_self, Nat.zero_mod]
  · exact h.next
  · intro i
    have hnone := h.conns i
    show (s.server.conns i).map Held.loop = if 1 ≤ i ∧ i < s.server.nextConnId_ then _ else none
    rw [if_neg (by omega)] at hnone ⊢
    exact hnone
  · exact h.server

theorem newConnection_spread (s s' : PooledServer T L) (h : s.Spread) (hstarted : s.started_ ≠ 0)
    (sockfd : ℕ) (hs : s.newConnection sockfd = some s') : s'.Spread := by
  obtain ⟨pool, hpool, hrotated, hloops, hbase, hinit⟩ :=
    s.threadPool_.getNextLoop_turn (s.server.nextConnId_-1) h.rotated
  simp only [newConnection, hpool] at hs
  obtain ⟨server, hserver, rfl⟩ := Option.map_eq_some_iff.mp hs
  have hturn : ∀ k, pool.turn k = s.threadPool_.turn k := by
    intro k
    rw [EventLoopThreadPool.turn, EventLoopThreadPool.turn, hloops, hbase]
  have hreach := Machine.Reach.next _ _ _ h.server trivial hserver
  have hpos := h.next
  obtain ⟨-, -, hstepped⟩ := TcpServer.step_stepped _ _ _ hserver
  cases hstepped with
  | newConnection fd loop hfd =>
    constructor
    · exact h.defined
    · rw [hinit]
      exact h.uninitialized
    · exact fun hzero => absurd hzero hstarted
    · rw [hloops]
      exact h.loops
    · show pool.Rotated (s.server.nextConnId_+1-1)
      rwa [show s.server.nextConnId_+1-1 = s.server.nextConnId_-1+1 by omega]
    · exact Nat.le_add_left 1 _
    · intro i
      show (Function.update s.server.conns s.server.nextConnId_ _ i).map Held.loop =
        if 1 ≤ i ∧ i < s.server.nextConnId_+1 then some (pool.turn (i-1)) else none
      rw [hturn]
      by_cases hi : i = s.server.nextConnId_
      · rw [hi, Function.update_self, if_pos ⟨hpos, Nat.lt_succ_self _⟩]
        rfl
      · rw [Function.update_of_ne hi, h.conns i]
        have hiff : (1 ≤ i ∧ i < s.server.nextConnId_) ↔ (1 ≤ i ∧ i < s.server.nextConnId_+1) := by
          omega
        rw [if_congr hiff rfl rfl]
    · exact hreach

theorem step_spread (s s' : PooledServer T L) (a : PoolAct T L) (h : s.Spread)
    (hcounts : s.counts a = true) (hs : s.step a = some s') : s'.Spread := by
  cases a with
  | setThreadNum numThreads =>
    obtain rfl := Option.some.inj hs
    exact ⟨h.defined, h.uninitialized, h.idle, h.loops, h.rotated, h.next, h.conns, h.server⟩
  | start loops isInLoopThread =>
    simp only [step] at hs
    split at hs
    · rename_i hsome
      obtain rfl := Option.some.inj hs
      have hwrap : s.started_ ≠ -1 := of_decide_eq_true hcounts
      exact ⟨h.defined, h.uninitialized, fun hzero => absurd hzero (by bv_omega), h.loops,
        h.rotated, h.next, h.conns, h.server⟩
    · rename_i hzero
      obtain ⟨⟨-, hloops⟩, hs⟩ := Option.ite_none_right_eq_some.mp hs
      obtain rfl := Option.some.inj hs
      exact started_spread s h (not_not.mp hzero) loops hloops isInLoopThread
  | listen =>
    simp only [step] at hs
    split at hs
    · cases hs
    · rename_i n hpending
      obtain rfl := Option.some.inj hs
      have hstarted : s.started_ ≠ 0 := by
        intro hzero
        have := (h.idle hzero).2.2.2.1
        omega
      exact ⟨h.defined, h.uninitialized, fun hzero => absurd hzero hstarted, h.loops, h.rotated,
        h.next, h.conns, h.server⟩
  | handleRead connfd =>
    simp only [step] at hs
    split at hs
    · cases hs
    · rename_i hlistening
      have hstarted : s.started_ ≠ 0 := by
        intro hzero
        simp [(h.idle hzero).2.2.1] at hlistening
      split at hs
      · obtain rfl := Option.some.inj hs
        exact h
      · exact newConnection_spread s s' h hstarted _ hs
  | serve a =>
    simp only [step] at hs
    split at hs
    · cases hs
    · rename_i haccepts
      obtain ⟨server, hserver, rfl⟩ := Option.map_eq_some_iff.mp hs
      obtain ⟨hnext, hconns⟩ :=
        TcpServer.step_loops _ _ a (by simpa using haccepts) hserver
      refine ⟨h.defined, h.uninitialized, ?_, h.loops, ?_, ?_, ?_,
        .next _ _ _ h.server trivial hserver⟩
      · rw [hnext]
        exact h.idle
      · rw [hnext]
        exact h.rotated
      · rw [hnext]
        exact h.next
      · intro i
        rw [hconns, hnext]
        exact h.conns i

theorem spread_load (s : PooledServer T L) (h : s.Spread) (loop : L) :
    s.load loop = deals s.threadPool_.loops_ s.threadPool_.baseLoop_
      (s.server.nextConnId_-1) loop := by
  unfold load deals
  rw [Nat.count_eq_card_filter_range, Nat.count_eq_card_filter_range]
  congr 1
  ext k
  simp only [Finset.mem_filter, Finset.mem_range, and_congr_right_iff]
  intro hk
  rw [h.conns, if_pos (by omega), Option.some.injEq]
  rfl

/-- Where the loops are distributed, they are so evenly, and whatever is known of runs of
the server holds of the server in the middle. -/
theorem reach_spread (baseLoop : L) (name : Bytes) (s : PooledServer T L)
    (h : Machine.Reach step (fun s a => s.counts a = true)
      { threadPool_ := { baseLoop_ := baseLoop, name_ := name } } s) :
    s.undefined = false ∧ s.threadPool_.initialized = [] ∧
      Machine.Reach TcpServer.step (fun _ _ => True) {} s.server ∧
      (∀ i held, s.server.conns i = some held → 1 ≤ i ∧ i < s.server.nextConnId_ ∧
        held.loop = s.threadPool_.turn (i-1) ∧ held.loop ∈ s.threadPool_.getAllLoops) ∧
      ∀ l ∈ s.threadPool_.getAllLoops, ∀ l' ∈ s.threadPool_.getAllLoops, s.load l ≤ s.load l'+1 := by
  have hspread := Machine.reach_invariant _ _ _ Spread (start_spread baseLoop name)
    (fun s a t hs hok ht => step_spread s t a hs hok ht) s h
  refine ⟨hspread.defined, hspread.uninitialized, hspread.server, ?_, ?_⟩
  · intro i held hi
    have hloop := hspread.conns i
    rw [hi, Option.map_some] at hloop
    split at hloop
    · rename_i hrange
      have hturn := Option.some.inj hloop
      refine ⟨hrange.1, hrange.2, hturn, ?_⟩
      rw [hturn]
      exact s.threadPool_.turn_mem _
    · cases hloop
  · intro l hl l' hl'
    rw [spread_load s hspread, spread_load s hspread]
    unfold EventLoopThreadPool.getAllLoops at hl hl'
    by_cases hempty : s.threadPool_.loops_.isEmpty
    · rw [if_pos hempty, List.mem_singleton] at hl hl'
      rw [hl, hl']
      omega
    · rw [if_neg hempty] at hl hl'
      exact deals_even _ hspread.loops _ _ l l' hl hl'

/-- Two threads, three connections and an accept that fails; the thread number set
afterwards changes nothing. -/
def twoThreads : List (PoolAct ℕ ℕ) :=
  [.setThreadNum 2, .start [1, 2] false, .start [] true, .listen, .handleRead 7,
    .handleRead (-1), .setThreadNum 5, .handleRead 8, .serve (.conn 1 .doPendingFunctor),
    .handleRead 9]

theorem reach_spread_twoThreads : ∃ s, Machine.run step
    ({ threadPool_ := { baseLoop_ := 0, name_ := bytes "Echo" } } : PooledServer ℕ ℕ)
      twoThreads = some s ∧ s.load 1 = 2 ∧ s.load 2 = 1 ∧ s.undefined = false := by
  obtain ⟨s, hs⟩ : ∃ s, Machine.run step
      ({ threadPool_ := { baseLoop_ := 0, name_ := bytes "Echo" } } : PooledServer ℕ ℕ)
        twoThreads = some s := ⟨_, rfl⟩
  have hspread := reach_spread 0 (bytes "Echo") s
    (Machine.run_reach step counts _ s twoThreads hs (by decide +kernel))
  have hload : s.load 1 = 2 ∧ s.load 2 = 1 := by
    obtain rfl := Option.some.inj hs
    decide +kernel
  exact ⟨s, hs, hload.1, hload.2, hspread.1⟩

end PooledServer
end MuServer
