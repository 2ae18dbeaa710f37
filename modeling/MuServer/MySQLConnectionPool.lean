import Mathlib.Algebra.Group.Nat.Defs
import MuServer.Lib.Census
import MuServer.Lib.Machine

/-!
# The pool of database connections

A connection is the number of the object that `connect` has made. The parts
under `mutex_` are atomic. A client that `getConnection` has put to sleep may
wake at any time, by a notification, by the time-out or for no reason, and a
connection whose last holder is gone waits in `returning` until
`returnConnection` has the mutex.
-/

set_option autoImplicit false

namespace MuServer

open Lib

abbrev Connection := ℕ

structure Login where
  url : String
  user : String
  password : String
  database : String

/-- The answer to a login. `setSchema` throws on a connection that is made. -/
inductive Reply where
  | connected
  | connectThrows (what : String)
  | setSchemaThrows (what : String)
  deriving DecidableEq

structure MySQLConnectionPool where
  url_ : String := ""
  user_ : String := ""
  password_ : String := ""
  database_ : String := ""
  poolSize_ : UInt64 := 0
  /-- whether the pointer is set -/
  driver_ : Bool := false
  idleConnections_ : List Connection := []
  closed_ : Bool := false
  activeCount_ : UInt64 := 0
  deriving DecidableEq

namespace MySQLConnectionPool

structure World (C : Type) where
  pool : MySQLConnectionPool := {}
  made : ℕ := 0
  waiting : List C := []
  lent : List (C × Connection) := []
  returning : List Connection := []
  deleted : List Connection := []
  leaked : List Connection := []
  /-- what the calls of `getConnection` have returned or thrown -/
  answers : List (C × Except String Connection) := []
  cerr : List String := []

variable {C : Type}

namespace World

def createNewConnection (s : World C) (server : Login → Reply) :
    World C × Except String Connection :=
  match server ⟨s.pool.url_, s.pool.user_, s.pool.password_, s.pool.database_⟩ with
  | .connected => ({ s with made := s.made+1 }, .ok s.made)
  | .connectThrows what => (s, .error what)
  | .setSchemaThrows what =>
    ({ s with made := s.made+1, leaked := s.leaked ++ [s.made] }, .error what)

def push (s : World C) (conn : Connection) : World C :=
  { s with pool := { s.pool with idleConnections_ := s.pool.idleConnections_ ++ [conn] } }

def fill (servers : ℕ → Login → Reply) (i : ℕ) : ℕ → World C → World C × Except String Unit
  | 0, s => (s, .ok ())
  | left+1, s =>
    match s.createNewConnection (servers i) with
    | (s, .error what) => (s, .error what)
    | (s, .ok conn) => fill servers (i+1) left (s.push conn)

def configure (s : World C) (login : Login) (poolSize : UInt64) : World C :=
  { s with pool := { s.pool with
      url_ := login.url, user_ := login.user, password_ := login.password,
      database_ := login.database, poolSize_ := poolSize } }

def withDriver (s : World C) : World C := { s with pool := { s.pool with driver_ := true } }

/-- The `try` block of `init`; `get_driver_instance` may throw too. -/
def tryInit (s : World C) (noDriver : Option String) (servers : ℕ → Login → Reply) :
    World C × Except String Unit :=
  match noDriver with
  | some what => (s, .error what)
  | none => fill servers 0 s.pool.poolSize_.toNat s.withDriver

def init (s : World C) (login : Login) (poolSize : UInt64) (noDriver : Option String)
    (servers : ℕ → Login → Reply) : World C × Except String Unit :=
  if s.pool.driver_ then (s, .ok ())
  else
    match (s.configure login poolSize).tryInit noDriver servers with
    | (s, .ok ()) => (s, .ok ())
    | (s, .error what) => (s, .error ("MySQLConnectionPool init failed: " ++ what))

def respond (s : World C) (client : C) (answer : Except String Connection) : World C :=
  { s with answers := s.answers ++ [(client, answer)] }

def ready (s : World C) : Bool := s.pool.closed_ || !s.pool.idleConnections_.isEmpty

/-- `getConnection` behind its wait, which ends with the value of the predicate. -/
def afterWait (s : World C) (client : C) : World C :=
  if s.pool.closed_ then s.respond client (.error "Connection pool is closed during waiting")
  else
    match s.pool.idleConnections_ with
    | [] => s.respond client (.error "Get connection timeout")
    | conn::rest =>
      { s with
        pool := { s.pool with
          idleConnections_ := rest, activeCount_ := s.pool.activeCount_+1 }
        lent := s.lent ++ [(client, conn)]
        answers := s.answers ++ [(client, .ok conn)] }

def getConnection (s : World C) (client : C) : World C :=
  if s.pool.closed_ then s.respond client (.error "Connection pool is already closed")
  else if s.ready then s.afterWait client
  else { s with waiting := s.waiting ++ [client] }

def delete (s : World C) (conn : Connection) : World C :=
  { s with deleted := s.deleted ++ [conn] }

def putBack (s : World C) (conn : Connection) : World C :=
  let s := s.push conn
  { s with pool := { s.pool with activeCount_ := s.pool.activeCount_-1 } }

def returnConnection (s : World C) (conn : Connection) (alive : Bool)
    (server : Login → Reply) : World C :=
  if s.pool.closed_ then s.delete conn
  else if alive then s.putBack conn
  else
    match (s.delete conn).createNewConnection server with
    | (s, .error what) =>
      { s with
        pool := { s.pool with
          poolSize_ := s.pool.poolSize_-1, activeCount_ := s.pool.activeCount_-1 }
        cerr := s.cerr ++ ["Failed to replenish invalid connection: " ++ what] }
    | (s, .ok conn) => s.putBack conn

def closeAll (s : World C) : World C :=
  { s with
    pool := { s.pool with closed_ := true, idleConnections_ := [] }
    deleted := s.deleted ++ s.pool.idleConnections_ }

end World

inductive PoolAct (C : Type) where
  | init (login : Login) (poolSize : UInt64) (noDriver : Option String)
      (servers : ℕ → Login → Reply)
  | getConnection (client : C)
  | wakes (client : C) (timedOut : Bool)
  /-- the last copy of the `shared_ptr` is gone -/
  | release (client : C) (conn : Connection)
  | returnConnection (conn : Connection) (alive : Bool) (server : Login → Reply)
  | closeAll

open World in
def step [DecidableEq C] (s : World C) : PoolAct C → Option (World C)
  | .init login poolSize noDriver servers => some (s.init login poolSize noDriver servers).1
  | .getConnection client => if client ∈ s.waiting then none else some (s.getConnection client)
  | .wakes client timedOut =>
    if client ∈ s.waiting then
      if s.ready || timedOut then
        some (afterWait { s with waiting := s.waiting.erase client } client)
      else some s
    else none
  | .release client conn =>
    if (client, conn) ∈ s.lent then
      some { s with lent := s.lent.erase (client, conn), returning := s.returning ++ [conn] }
    else none
  | .returnConnection conn alive server =>
    if conn ∈ s.returning then
      some (returnConnection { s with returning := s.returning.erase conn } conn alive server)
    else none
  | .closeAll => some s.closeAll

namespace World

def places (s : World C) : List (List Connection) :=
  [s.pool.idleConnections_, s.lent.map Prod.snd, s.returning, s.deleted, s.leaked]

structure Kept (s : World C) : Prop where
  census : Census s.places s.made
  driver : s.pool.driver_ = true
  active : s.pool.closed_ = false →
    s.pool.activeCount_.toNat = s.lent.length + s.returning.length
  balance : s.pool.closed_ = false →
    s.pool.idleConnections_.length + s.pool.activeCount_.toNat = s.pool.poolSize_.toNat

structure Bare (s : World C) : Prop where
  census : Census s.places s.made
  idle : s.pool.idleConnections_ = []
  lent : s.lent = []
  returning : s.returning = []
  active : s.pool.activeCount_ = 0

structure Shut (s : World C) : Prop where
  closed : s.pool.closed_ = true
  driver : s.pool.driver_ = true
  idle : s.pool.idleConnections_ = []

theorem createNewConnection_cases (s : World C) (server : Login → Reply) :
    s.createNewConnection server = ({ s with made := s.made+1 }, .ok s.made)
      ∨ ∃ what, s.createNewConnection server = (s, .error what)
        ∨ s.createNewConnection server
          = ({ s with made := s.made+1, leaked := s.leaked ++ [s.made] }, .error what) := by
  unfold createNewConnection
  split
  · exact Or.inl rfl
  · rename_i what _
    exact Or.inr ⟨what, Or.inl rfl⟩
  · rename_i what _
    exact Or.inr ⟨what, Or.inr rfl⟩

theorem census_push (s : World C) (h : Census s.places s.made) :
    Census (({ s with made := s.made+1 } : World C).push s.made).places (s.made+1) := by
  apply h.created
  intro x
  simp [places, push, List.count_cons]
  omega

theorem census_leak (s : World C) (h : Census s.places s.made) :
    Census ({ s with leaked := s.leaked ++ [s.made] } : World C).places (s.made+1) := by
  apply h.created
  intro x
  simp [places, List.count_cons]
  omega

structure Fills (s t : World C) : Prop where
  lent : t.lent = s.lent
  returning : t.returning = s.returning
  active : t.pool.activeCount_ = s.pool.activeCount_
  size : t.pool.poolSize_ = s.pool.poolSize_
  driver : t.pool.driver_ = s.pool.driver_

theorem fills_trans (s t u : World C) (hst : Fills s t) (htu : Fills t u) : Fills s u where
  lent := htu.lent.trans hst.lent
  returning := htu.returning.trans hst.returning
  active := htu.active.trans hst.active
  size := htu.size.trans hst.size
  driver := htu.driver.trans hst.driver

theorem fills_push (s : World C) : Fills s (({ s with made := s.made+1 } : World C).push s.made) :=
  ⟨rfl, rfl, rfl, rfl, rfl⟩

theorem fill_spec (servers : ℕ → Login → Reply) (i left : ℕ) (s : World C)
    (h : Census s.places s.made) :
    Fills s (fill servers i left s).1 ∧
      Census (fill servers i left s).1.places (fill servers i left s).1.made ∧
      ((fill servers i left s).2 = .ok () →
        (fill servers i left s).1.pool.idleConnections_.length
          = s.pool.idleConnections_.length+left) := by
  induction left generalizing i s with
  | zero => exact ⟨⟨rfl, rfl, rfl, rfl, rfl⟩, h, fun _ => rfl⟩
  | succ left ih =>
    rcases s.createNewConnection_cases (servers i) with heq | ⟨what, heq | heq⟩
    · obtain ⟨hfills, hcensus, hlength⟩ := ih (i+1) _ (census_push s h)
      simp only [fill, heq]
      refine ⟨fills_trans _ _ _ (fills_push s) hfills, hcensus, ?_⟩
      intro hok
      rw [hlength hok]
      simp only [push, List.length_append, List.length_singleton]
      omega
    · simp only [fill, heq]
      exact ⟨⟨rfl, rfl, rfl, rfl, rfl⟩, h, fun hok => by simp at hok⟩
    · simp only [fill, heq]
      exact ⟨⟨rfl, rfl, rfl, rfl, rfl⟩, census_leak s h, fun hok => by simp at hok⟩

theorem init_eq (s : World C) (login : Login) (poolSize : UInt64) (noDriver : Option String)
    (servers : ℕ → Login → Reply) (hd : s.pool.driver_ = false) :
    (s.init login poolSize noDriver servers).1
        = ((s.configure login poolSize).tryInit noDriver servers).1 ∧
      ((s.init login poolSize noDriver servers).2 = .ok () →
        ((s.configure login poolSize).tryInit noDriver servers).2 = .ok ()) := by
  unfold init
  rw [hd, if_neg Bool.false_ne_true]
  split <;> simp_all

theorem tryInit_kept (s : World C) (noDriver : Option String) (servers : ℕ → Login → Reply)
    (hs : Bare s) (hok : (s.tryInit noDriver servers).2 = .ok ()) :
    Kept (s.tryInit noDriver servers).1 := by
  cases noDriver with
  | some what => simp [tryInit] at hok
  | none =>
    obtain ⟨hfills, hcensus, hlength⟩ :=
      fill_spec servers 0 s.pool.poolSize_.toNat s.withDriver hs.census
    simp only [tryInit] at hok ⊢
    have hidle := hlength hok
    have hactive : (fill servers 0 s.pool.poolSize_.toNat s.withDriver).1.pool.activeCount_ = 0 :=
      hfills.active.trans hs.active
    refine ⟨hcensus, hfills.driver, fun _ => ?_, fun _ => ?_⟩
    · rw [hactive, hfills.lent.trans hs.lent, hfills.returning.trans hs.returning]
      rfl
    · rw [hidle, hactive, hfills.size]
      simp [withDriver, hs.idle]

theorem tryInit_bare (s : World C) (noDriver : Option String) (servers : ℕ → Login → Reply)
    (hs : Bare s) (hd : (s.tryInit noDriver servers).1.pool.driver_ = false) :
    Bare (s.tryInit noDriver servers).1 := by
  cases noDriver with
  | some what => exact hs
  | none =>
    obtain ⟨hfills, -, -⟩ := fill_spec servers 0 s.pool.poolSize_.toNat s.withDriver hs.census
    exact absurd (hfills.driver.symm.trans hd) (by simp [withDriver])

theorem configure_bare (s : World C) (login : Login) (poolSize : UInt64) (hs : Bare s) :
    Bare (s.configure login poolSize) :=
  ⟨hs.census, hs.idle, hs.lent, hs.returning, hs.active⟩

theorem respond_kept (s : World C) (client : C) (answer : Except String Connection)
    (hs : Kept s) : Kept (s.respond client answer) :=
  ⟨hs.census, hs.driver, hs.active, hs.balance⟩

theorem toNat_succ (a : UInt64) (b : ℕ) (h : a.toNat < b) (hb : b < 2^64) :
    (a+1).toNat = a.toNat+1 := by
  rw [UInt64.toNat_add, UInt64.toNat_one]
  omega

theorem toNat_pred (a : UInt64) (h : 0 < a.toNat) : (a-1).toNat = a.toNat-1 := by
  rw [UInt64.toNat_sub_of_le, UInt64.toNat_one]
  rw [UInt64.le_iff_toNat_le, UInt64.toNat_one]
  exact h

theorem afterWait_kept (s : World C) (client : C) (hs : Kept s) : Kept (s.afterWait client) := by
  unfold afterWait
  split
  · exact respond_kept s client _ hs
  · rename_i hclosed
    rw [Bool.not_eq_true] at hclosed
    split
    · exact respond_kept s client _ hs
    · rename_i conn rest hidle
      have hactive := hs.active hclosed
      have hbalance := hs.balance hclosed
      rw [hidle, List.length_cons] at hbalance
      have hsucc := toNat_succ s.pool.activeCount_ s.pool.poolSize_.toNat (by omega)
        s.pool.poolSize_.toNat_lt
      refine ⟨?_, hs.driver, fun _ => ?_, fun _ => ?_⟩
      · apply hs.census.moved
        intro x
        simp [places, hidle, List.count_cons]
        omega
      · simp only [hsucc, hactive, List.length_append, List.length_singleton]
        omega
      · simp only [hsucc]
        omega

theorem release_kept [DecidableEq C] (s : World C) (client : C) (conn : Connection) (hs : Kept s)
    (hmem : (client, conn) ∈ s.lent) :
    Kept { s with lent := s.lent.erase (client, conn), returning := s.returning ++ [conn] } := by
  have hperm := (List.perm_cons_erase hmem).map Prod.snd
  refine ⟨?_, hs.driver, fun h => ?_, hs.balance⟩
  · apply hs.census.moved
    intro x
    have hcount := hperm.count_eq x
    simp [places, List.count_cons] at hcount ⊢
    omega
  · have hlength := hperm.length_eq
    have hactive := hs.active h
    simp at hlength ⊢
    omega

structure Held (s : World C) (conn : Connection) : Prop where
  census : Census ([conn]::s.places) s.made
  driver : s.pool.driver_ = true
  active : s.pool.closed_ = false →
    s.pool.activeCount_.toNat = s.lent.length + s.returning.length + 1
  balance : s.pool.closed_ = false →
    s.pool.idleConnections_.length + s.pool.activeCount_.toNat = s.pool.poolSize_.toNat

theorem takeBack_held (s : World C) (conn : Connection) (hs : Kept s)
    (hmem : conn ∈ s.returning) :
    Held { s with returning := s.returning.erase conn } conn := by
  have hperm := List.perm_cons_erase hmem
  refine ⟨?_, hs.driver, fun h => ?_, hs.balance⟩
  · apply hs.census.moved
    intro x
    have hcount := hperm.count_eq x
    simp [places, List.count_cons] at hcount ⊢
    omega
  · have hlength := hperm.length_eq
    have hactive := hs.active h
    simp at hlength ⊢
    omega

theorem delete_census (s : World C) (conn : Connection) (hs : Held s conn) :
    Census (s.delete conn).places s.made := by
  apply hs.census.moved
  intro x
  simp [places, delete, List.count_cons]
  omega

theorem putBack_kept (s : World C) (conn : Connection) (hs : Held s conn)
    (hclosed : s.pool.closed_ = false) : Kept (s.putBack conn) := by
  have hactive := hs.active hclosed
  have hbalance := hs.balance hclosed
  have hpred := toNat_pred s.pool.activeCount_ (by omega)
  refine ⟨?_, hs.driver, fun _ => ?_, fun _ => ?_⟩
  · apply hs.census.moved
    intro x
    simp [places, putBack, push, List.count_cons]
    omega
  · simp only [putBack, push, hpred]
    omega
  · simp only [putBack, push, hpred, List.length_append, List.length_singleton]
    omega

theorem returnConnection_kept (s : World C) (conn : Connection) (alive : Bool)
    (server : Login → Reply) (hs : Held s conn) : Kept (s.returnConnection conn alive server) := by
  unfold returnConnection
  split
  · rename_i hclosed
    refine ⟨delete_census s conn hs, hs.driver, fun h => ?_, fun h => ?_⟩ <;>
      exact absurd (hclosed.symm.trans h) (by simp)
  · rename_i hclosed
    rw [Bool.not_eq_true] at hclosed
    split
    · exact putBack_kept s conn hs hclosed
    · have hdeleted := delete_census s conn hs
      have hactive := hs.active hclosed
      have hbalance := hs.balance hclosed
      have hpred := toNat_pred s.pool.activeCount_ (by omega)
      have hsize := toNat_pred s.pool.poolSize_ (by omega)
      rcases (s.delete conn).createNewConnection_cases server with heq | ⟨what, heq | heq⟩
      · simp only [heq]
        refine putBack_kept _ _ ⟨?_, hs.driver, hs.active, hs.balance⟩ hclosed
        apply hdeleted.created
        intro x
        simp [places, delete, List.count_cons]
      · simp only [heq]
        refine ⟨hdeleted, hs.driver, fun _ => ?_, fun _ => ?_⟩
        · simp only [delete, hpred]
          omega
        · simp only [delete, hpred, hsize]
          omega
      · simp only [heq]
        refine ⟨census_leak (s.delete conn) hdeleted, hs.driver, fun _ => ?_, fun _ => ?_⟩
        · simp only [delete, hpred]
          omega
        · simp only [delete, hpred, hsize]
          omega

theorem closeAll_census (s : World C) (h : Census s.places s.made) :
    Census s.closeAll.places s.made := by
  apply h.moved
  intro x
  simp [places, closeAll]
  omega

theorem closeAll_kept (s : World C) (hs : Kept s) : Kept s.closeAll :=
  ⟨closeAll_census s hs.census, hs.driver, fun h => by simp [closeAll] at h,
    fun h => by simp [closeAll] at h⟩

theorem afterWait_driver (s : World C) (client : C) :
    (s.afterWait client).pool.driver_ = s.pool.driver_ := by
  unfold afterWait
  split
  · rfl
  · split <;> rfl

theorem returnConnection_driver (s : World C) (conn : Connection) (alive : Bool)
    (server : Login → Reply) :
    (s.returnConnection conn alive server).pool.driver_ = s.pool.driver_ := by
  unfold returnConnection
  split
  · rfl
  · split
    · rfl
    · rcases (s.delete conn).createNewConnection_cases server with heq | ⟨what, heq | heq⟩ <;>
        simp only [heq] <;> rfl

theorem afterWait_closed (s : World C) (client : C) (hs : s.pool.closed_ = true) :
    s.afterWait client
      = s.respond client (.error "Connection pool is closed during waiting") := by
  unfold afterWait
  rw [if_pos hs]

theorem afterWait_empty (s : World C) (client : C) (hs : s.pool.idleConnections_ = []) :
    ∃ what, s.afterWait client = s.respond client (.error what) := by
  unfold afterWait
  split
  · exact ⟨_, rfl⟩
  · simp only [hs]
    exact ⟨_, rfl⟩

end World

inductive Stepped [DecidableEq C] (s : World C) : World C → Prop
  | init (login : Login) (poolSize : UInt64) (noDriver : Option String)
      (servers : ℕ → Login → Reply) : Stepped s (s.init login poolSize noDriver servers).1
  | refused (client : C) (what : String) : Stepped s (s.respond client (.error what))
  | answered (client : C) (waiting : List C) :
      Stepped s (({ s with waiting := waiting } : World C).afterWait client)
  | waits (waiting : List C) : Stepped s { s with waiting := waiting }
  | released (client : C) (conn : Connection) : (client, conn) ∈ s.lent →
      Stepped s { s with
        lent := s.lent.erase (client, conn), returning := s.returning ++ [conn] }
  | returned (conn : Connection) (alive : Bool) (server : Login → Reply) : conn ∈ s.returning →
      Stepped s (({ s with returning := s.returning.erase conn } : World C).returnConnection
        conn alive server)
  | closed : Stepped s s.closeAll

section Steps

open World

variable [DecidableEq C]

theorem step_stepped (s t : World C) (a : PoolAct C) (h : step s a = some t) : Stepped s t := by
  cases a with
  | init login poolSize noDriver servers =>
    obtain rfl := Option.some.inj h
    exact .init login poolSize noDriver servers
  | getConnection client =>
    obtain ⟨-, h⟩ := Option.ite_none_left_eq_some.mp h
    obtain rfl := Option.some.inj h
    unfold getConnection
    split
    · exact .refused client _
    · split
      · exact .answered client s.waiting
      · exact .waits _
  | wakes client timedOut =>
    obtain ⟨-, h⟩ := Option.ite_none_right_eq_some.mp h
    split at h
    · obtain rfl := Option.some.inj h
      exact .answered client _
    · obtain rfl := Option.some.inj h
      exact .waits _
  | release client conn =>
    obtain ⟨hmem, h⟩ := Option.ite_none_right_eq_some.mp h
    obtain rfl := Option.some.inj h
    exact .released client conn hmem
  | returnConnection conn alive server =>
    obtain ⟨hmem, h⟩ := Option.ite_none_right_eq_some.mp h
    obtain rfl := Option.some.inj h
    exact .returned conn alive server hmem
  | closeAll =>
    obtain rfl := Option.some.inj h
    exact .closed

theorem stepped_kept (s t : World C) (hs : Kept s) (h : Stepped s t) : Kept t := by
  cases h with
  | init login poolSize noDriver servers =>
    simp only [World.init, hs.driver, if_true]
    exact hs
  | refused client what => exact respond_kept s client _ hs
  | answered client waiting =>
    exact afterWait_kept _ client ⟨hs.census, hs.driver, hs.active, hs.balance⟩
  | waits waiting => exact ⟨hs.census, hs.driver, hs.active, hs.balance⟩
  | released client conn hmem => exact release_kept s client conn hs hmem
  | returned conn alive server hmem =>
    exact returnConnection_kept _ conn alive server (takeBack_held s conn hs hmem)
  | closed => exact closeAll_kept s hs

theorem stepped_driver (s t : World C) (hs : s.pool.driver_ = true) (h : Stepped s t) :
    t.pool.driver_ = true := by
  cases h with
  | init login poolSize noDriver servers => simp only [World.init, hs, if_true]
  | answered client waiting => exact (afterWait_driver _ client).trans hs
  | returned conn alive server hmem => exact (returnConnection_driver _ conn alive server).trans hs
  | refused | waits | released | closed => exact hs

theorem stepped_bare (s t : World C) (hs : s.pool.driver_ = false → Bare s) (h : Stepped s t)
    (hd : t.pool.driver_ = false) : Bare t := by
  have hnone : s.pool.driver_ = false := by
    rw [← Bool.not_eq_true]
    exact fun hset => absurd ((stepped_driver s t hset h).symm.trans hd) (by simp)
  have hb := hs hnone
  cases h with
  | init login poolSize noDriver servers =>
    have heq := (init_eq s login poolSize noDriver servers hnone).1
    rw [heq] at hd ⊢
    exact tryInit_bare _ noDriver servers (configure_bare s login poolSize hb) hd
  | answered client waiting =>
    obtain ⟨what, heq⟩ := afterWait_empty { s with waiting := waiting } client hb.idle
    rw [heq]
    exact ⟨hb.census, hb.idle, hb.lent, hb.returning, hb.active⟩
  | refused | waits => exact ⟨hb.census, hb.idle, hb.lent, hb.returning, hb.active⟩
  | released client conn hmem => simp [hb.lent] at hmem
  | returned conn alive server hmem => simp [hb.returning] at hmem
  | closed => exact ⟨closeAll_census s hb.census, rfl, hb.lent, hb.returning, hb.active⟩

def Refused (s t : World C) : Prop :=
  ∃ later, t.answers = s.answers ++ later ∧ ∀ a ∈ later, ∃ what, a.2 = .error what

omit [DecidableEq C] in
theorem respond_refused (s t : World C) (client : C) (what : String) (h : Refused s t) :
    Refused s (t.respond client (.error what)) := by
  obtain ⟨later, heq, hall⟩ := h
  refine ⟨later ++ [(client, .error what)], ?_, ?_⟩
  · rw [respond, heq, List.append_assoc]
  · intro a ha
    rcases List.mem_append.mp ha with hin | hin
    · exact hall a hin
    · obtain rfl := List.mem_singleton.mp hin
      exact ⟨what, rfl⟩

theorem stepped_shut (s t u : World C) (ht : Shut t ∧ Refused s t) (h : Stepped t u) :
    Shut u ∧ Refused s u := by
  obtain ⟨hshut, hrefused⟩ := ht
  have hkeeps : ∀ (v : World C), v.pool = t.pool → Shut v := fun v hv =>
    ⟨hv ▸ hshut.closed, hv ▸ hshut.driver, hv ▸ hshut.idle⟩
  cases h with
  | init login poolSize noDriver servers =>
    simp only [World.init, hshut.driver, if_true]
    exact ⟨hshut, hrefused⟩
  | refused client what => exact ⟨hkeeps _ rfl, respond_refused s t client what hrefused⟩
  | answered client waiting =>
    rw [afterWait_closed { t with waiting := waiting } client hshut.closed]
    exact ⟨hkeeps _ rfl, respond_refused s _ client _ hrefused⟩
  | waits | released => exact ⟨hkeeps _ rfl, hrefused⟩
  | returned conn alive server hmem =>
    unfold returnConnection
    rw [if_pos hshut.closed]
    exact ⟨hkeeps _ rfl, hrefused⟩
  | closed => exact ⟨⟨rfl, hshut.driver, rfl⟩, hrefused⟩

theorem reach_bare (s : World C) (h : Machine.Reach step (fun _ _ => True) {} s)
    (hd : s.pool.driver_ = false) : Bare s := by
  refine Machine.reach_invariant step _ _ (fun s => s.pool.driver_ = false → Bare s) ?_ ?_ s h hd
  · exact fun _ => ⟨List.Perm.refl _, rfl, rfl, rfl, rfl⟩
  · exact fun s a t hs _ ht => stepped_bare s t hs (step_stepped s t a ht)

theorem reach_kept (start s : World C) (hstart : Kept start)
    (h : Machine.Reach step (fun _ _ => True) start s) : Kept s :=
  Machine.reach_invariant step _ start Kept hstart
    (fun s a t hs _ ht => stepped_kept s t hs (step_stepped s t a ht)) s h

theorem reach_shut (start s : World C) (hstart : Shut start)
    (h : Machine.Reach step (fun _ _ => True) start s) : Shut s ∧ Refused start s := by
  refine Machine.reach_invariant step _ start (fun s => Shut s ∧ Refused start s) ?_ ?_ s h
  · exact ⟨hstart, [], (List.append_nil _).symm, by simp⟩
  · exact fun s a t hs _ ht => stepped_shut start s t hs (step_stepped s t a ht)

/-- The pool from a successful `init` on: `s₀` is any state in which no `init`
has got a driver yet, `s` any state behind the `init` and `t` any state behind
a `closeAll` in `s`. -/
theorem reach_lending (s₀ s : World C) (login : Login) (poolSize : UInt64)
    (noDriver : Option String) (servers : ℕ → Login → Reply)
    (h₀ : Machine.Reach step (fun _ _ => True) {} s₀) (hnew : s₀.pool.driver_ = false)
    (hinit : (s₀.init login poolSize noDriver servers).2 = .ok ())
    (h : Machine.Reach step (fun _ _ => True) (s₀.init login poolSize noDriver servers).1 s) :
    s.pool.idleConnections_.Nodup ∧ (s.lent.map Prod.snd).Nodup ∧ s.deleted.Nodup
      ∧ s.pool.idleConnections_.Disjoint (s.lent.map Prod.snd)
      ∧ s.pool.idleConnections_.Disjoint s.deleted ∧ (s.lent.map Prod.snd).Disjoint s.deleted
      ∧ (s.pool.closed_ = false →
          s.pool.idleConnections_.length + s.pool.activeCount_.toNat = s.pool.poolSize_.toNat)
      ∧ ∀ t, Machine.Reach step (fun _ _ => True) s.closeAll t →
          t.pool.closed_ = true ∧ t.pool.idleConnections_ = [] ∧ Refused s.closeAll t := by
  have hstart : Kept (s₀.init login poolSize noDriver servers).1 := by
    obtain ⟨heq, hok⟩ := init_eq s₀ login poolSize noDriver servers hnew
    rw [heq]
    exact tryInit_kept _ noDriver servers
      (configure_bare s₀ login poolSize (reach_bare s₀ h₀ hnew)) (hok hinit)
  have hkept := reach_kept _ s hstart h
  obtain ⟨hnodup, hapart⟩ := hkept.census.apart
  simp only [places, List.mem_cons, List.not_mem_nil, or_false, forall_eq_or_imp, forall_eq,
    List.pairwise_cons] at hnodup hapart
  obtain ⟨hidle, hlent, -, hdeleted, -⟩ := hnodup
  obtain ⟨⟨hidlelent, -, hidledeleted, -⟩, ⟨-, hlentdeleted, -⟩, -⟩ := hapart
  refine ⟨hidle, hlent, hdeleted, hidlelent, hidledeleted, hlentdeleted, hkept.balance,
    ?_⟩
  intro t ht
  obtain ⟨hshut, hrefused⟩ := reach_shut s.closeAll t ⟨rfl, hkept.driver, rfl⟩ ht
  exact ⟨hshut.closed, hshut.idle, hrefused⟩

/-- Two connections are lent, one comes back dead and is replaced, the other
comes back dead and is not. -/
theorem reach_lending_replaced : ∃ s : World ℕ,
    s.pool.idleConnections_ = [2] ∧ s.deleted = [0, 1] ∧ s.pool.poolSize_ = 1
      ∧ s.pool.idleConnections_.length + s.pool.activeCount_.toNat = s.pool.poolSize_.toNat
      ∧ ∀ t, Machine.Reach step (fun _ _ => True) s.closeAll t →
          t.pool.idleConnections_ = [] ∧ Refused s.closeAll t := by
  have hinit : (({} : World ℕ).init ⟨"tcp://db", "u", "p", "d"⟩ 2 none fun _ _ => .connected).2
      = .ok () := rfl
  have hrun : ∃ s, Machine.run step
      (({} : World ℕ).init ⟨"tcp://db", "u", "p", "d"⟩ 2 none fun _ _ => .connected).1
      [.getConnection 7, .getConnection 8, .release 7 0, .release 8 1,
        .returnConnection 0 false (fun _ => .connected),
        .returnConnection 1 false (fun _ => .connectThrows "gone")] = some s
      ∧ s.pool.idleConnections_ = [2] ∧ s.deleted = [0, 1] ∧ s.pool.poolSize_ = 1
      ∧ s.pool.closed_ = false := by
    exact ⟨_, rfl, rfl, rfl, rfl, rfl⟩
  obtain ⟨s, hs, hidle, hdeleted, hsize, hclosed⟩ := hrun
  have hreach := Machine.run_reach_any step _ s _ hs
  obtain ⟨-, -, -, -, -, -, hbalance, hafter⟩ :=
    reach_lending {} s _ 2 none _ .refl rfl hinit hreach
  exact ⟨s, hidle, hdeleted, hsize, hbalance hclosed, fun t ht => (hafter t ht).2⟩

end Steps

end MySQLConnectionPool

end MuServer
