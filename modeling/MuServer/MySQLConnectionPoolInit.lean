import MuServer.MySQLConnectionPool

/-!
# An `init` that fails

`init` sets the pool size and the driver before it makes the connections and
takes nothing back when one of them cannot be made. The pool keeps those that
were made, and as the driver is set every later `init` returns early.
-/

set_option autoImplicit false

namespace MuServer

open Lib

namespace MySQLConnectionPool

variable {C : Type}

namespace World

def idleCount (s : World C) : ℕ := s.pool.idleConnections_.length

def totalCount (s : World C) : UInt64 := s.pool.poolSize_

def login (s : World C) : Login :=
  ⟨s.pool.url_, s.pool.user_, s.pool.password_, s.pool.database_⟩

/-- `t` is `s` as far as the callers of `init` can tell: no connection is idle,
the total is the old one and a further call that reaches the database fills
the pool. -/
structure Restored (s t : World C) (poolSize : UInt64) : Prop where
  idle : t.idleCount = 0
  total : t.totalCount = s.totalCount
  later : ∀ (login : Login) (servers : ℕ → Login → Reply), (∀ j l, servers j l = .connected) →
    (t.init login poolSize none servers).1.idleCount = poolSize.toNat

theorem createNewConnection_throws (s : World C) (server : Login → Reply)
    (h : server s.login ≠ .connected) :
    ∃ t what, s.createNewConnection server = (t, .error what) ∧ t.pool = s.pool := by
  unfold createNewConnection
  change server ⟨s.pool.url_, s.pool.user_, s.pool.password_, s.pool.database_⟩ ≠ _ at h
  cases hr : server ⟨s.pool.url_, s.pool.user_, s.pool.password_, s.pool.database_⟩ with
  | connected => exact absurd hr h
  | connectThrows what => exact ⟨_, what, rfl, rfl⟩
  | setSchemaThrows what => exact ⟨_, what, rfl, rfl⟩

theorem createNewConnection_connected (s : World C) (server : Login → Reply)
    (h : server s.login = .connected) :
    s.createNewConnection server = ({ s with made := s.made+1 }, .ok s.made) := by
  unfold createNewConnection
  change server ⟨s.pool.url_, s.pool.user_, s.pool.password_, s.pool.database_⟩ = _ at h
  rw [h]

theorem push_idleCount (s : World C) (conn : Connection) :
    (s.push conn).idleCount = s.idleCount+1 := List.length_append

/-- The loop ends with the first connection that cannot be made and keeps the
`k` made before it. -/
theorem fill_throws (servers : ℕ → Login → Reply) (i k left : ℕ) (s : World C) (hk : k < left)
    (hmade : ∀ j < k, servers (i+j) s.login = .connected)
    (hthrow : servers (i+k) s.login ≠ .connected) :
    ∃ what, (fill servers i left s).2 = .error what
      ∧ (fill servers i left s).1.idleCount = s.idleCount+k
      ∧ (fill servers i left s).1.totalCount = s.totalCount
      ∧ (fill servers i left s).1.pool.driver_ = s.pool.driver_ := by
  induction k generalizing i left s with
  | zero =>
    obtain ⟨left, rfl⟩ : ∃ n, left = n+1 := ⟨left-1, by omega⟩
    obtain ⟨t, what, heq, hpool⟩ := s.createNewConnection_throws (servers i) hthrow
    refine ⟨what, ?_, ?_, ?_, ?_⟩ <;> simp [fill, heq, idleCount, totalCount, hpool]
  | succ k ih =>
    obtain ⟨left, rfl⟩ : ∃ n, left = n+1 := ⟨left-1, by omega⟩
    have heq := s.createNewConnection_connected (servers i) (hmade 0 (by omega))
    have hnext : ∀ j, i+1+j = i+(j+1) := by omega
    obtain ⟨what, hres, hidle, htotal, hdriver⟩ :=
      ih (i+1) left (({ s with made := s.made+1 } : World C).push s.made) (by omega)
        (fun j hj => by rw [hnext]; exact hmade (j+1) (by omega))
        (by rw [hnext]; exact hthrow)
    rw [fill, heq]
    refine ⟨what, hres, ?_, htotal, hdriver⟩
    calc (fill servers (i+1) left _).1.idleCount
        = (({ s with made := s.made+1 } : World C).push s.made).idleCount+k := hidle
      _ = s.idleCount+1+k := by rw [push_idleCount]; rfl
      _ = s.idleCount+(k+1) := by omega

/-- An `init` whose connection `i` cannot be made throws, and the pool stays
half filled. -/
theorem init_throws (s : World C) (login : Login) (poolSize : UInt64)
    (servers : ℕ → Login → Reply) (i : ℕ) (hd : s.pool.driver_ = false)
    (hi : i < poolSize.toNat) (hmade : ∀ j < i, servers j login = .connected)
    (hthrow : servers i login ≠ .connected) :
    ∃ what, (s.init login poolSize none servers).2
        = .error ("MySQLConnectionPool init failed: " ++ what)
      ∧ (s.init login poolSize none servers).1.idleCount = s.idleCount+i
      ∧ (s.init login poolSize none servers).1.totalCount = poolSize
      ∧ (s.init login poolSize none servers).1.pool.driver_ = true := by
  obtain ⟨what, hres, hidle, htotal, hdriver⟩ := fill_throws servers 0 i poolSize.toNat
    (s.configure login poolSize).withDriver hi (fun j hj => by rw [Nat.zero_add]; exact hmade j hj)
    (by rw [Nat.zero_add]; exact hthrow)
  have hinit : s.init login poolSize none servers =
      ((fill servers 0 poolSize.toNat (s.configure login poolSize).withDriver).1,
        .error ("MySQLConnectionPool init failed: " ++ what)) := by
    unfold init tryInit
    rw [hd, if_neg Bool.false_ne_true]
    generalize hfill : fill servers 0 poolSize.toNat (s.configure login poolSize).withDriver = r
      at hres
    obtain ⟨t, result⟩ := r
    subst hres
    simp only [configure] at hfill ⊢
    rw [hfill]
  rw [hinit]
  exact ⟨what, rfl, hidle, htotal, hdriver⟩

end World

open World

section Steps

variable [DecidableEq C]

theorem reach_driver (start s : World C) (hstart : start.pool.driver_ = true)
    (h : Machine.Reach step (fun _ _ => True) start s) : s.pool.driver_ = true :=
  Machine.reach_invariant step _ start (fun s => s.pool.driver_ = true) hstart
    (fun s a t hs _ ht => stepped_driver s t hs (step_stepped s t a ht)) s h

/-- However many connections were made before the one that could not be, the
pool is not restored: from then on every `init` returns early and changes
nothing. -/
theorem init_never_restores (s : World C) (h : Machine.Reach step (fun _ _ => True) {} s)
    (hd : s.pool.driver_ = false) (login : Login) (poolSize : UInt64)
    (servers : ℕ → Login → Reply) (i : ℕ) (hi : i < poolSize.toNat)
    (hmade : ∀ j < i, servers j login = .connected) (hthrow : servers i login ≠ .connected) :
    ¬ Restored s (s.init login poolSize none servers).1 poolSize
      ∧ (s.init login poolSize none servers).1.idleCount = i
      ∧ (s.init login poolSize none servers).1.totalCount = poolSize
      ∧ ∀ u, Machine.Reach step (fun _ _ => True) (s.init login poolSize none servers).1 u →
        ∀ login' poolSize' noDriver' servers',
          u.init login' poolSize' noDriver' servers' = (u, .ok ()) := by
  obtain ⟨what, -, hidle, htotal, hdriver⟩ :=
    s.init_throws login poolSize servers i hd hi hmade hthrow
  have hempty : s.idleCount = 0 := by simp [idleCount, (reach_bare s h hd).idle]
  rw [hempty, Nat.zero_add] at hidle
  have hearly : ∀ u, Machine.Reach step (fun _ _ => True)
      (s.init login poolSize none servers).1 u → ∀ login' poolSize' noDriver' servers',
      u.init login' poolSize' noDriver' servers' = (u, .ok ()) := by
    intro u hu login' poolSize' noDriver' servers'
    rw [init, if_pos (reach_driver _ u hdriver hu)]
  refine ⟨?_, hidle, htotal, hearly⟩
  intro hrestored
  have hfull := hrestored.later login (fun _ _ => .connected) (fun _ _ => rfl)
  rw [hearly _ .refl, hidle] at hfull
  omega

/-- The second of three connections cannot be made. -/
theorem init_never_restores_second :
    ¬ Restored ({} : World ℕ) (({} : World ℕ).init ⟨"tcp://db", "u", "p", "d"⟩ 3 none
      fun i _ => if i = 1 then .connectThrows "too many" else .connected).1 3 :=
  (init_never_restores ({} : World ℕ) .refl rfl _ 3 _ 1 (by decide)
    (fun j hj => by simp [Nat.ne_of_lt hj]) (by simp)).1

/-- Behind a first `init` that fails the total is the size that was asked for, and the
next `init` leaves the pool empty. -/
theorem init_half_filled : ¬ ∀ (s : World ℕ) (login : Login) (poolSize : UInt64)
    (servers : ℕ → Login → Reply) (i : ℕ), Machine.Reach step (fun _ _ => True) {} s →
    s.pool.driver_ = false → i < poolSize.toNat → (∀ j < i, servers j login = .connected) →
    servers i login ≠ .connected → Restored s (s.init login poolSize none servers).1 poolSize := by
  intro h
  have hrestored := h {} ⟨"tcp://db", "u", "p", "d"⟩ 1 (fun _ _ => .connectThrows "refused") 0
    .refl rfl (by decide) (by simp) (by simp)
  exact absurd hrestored.total (by decide)

end Steps

end MySQLConnectionPool

end MuServer
