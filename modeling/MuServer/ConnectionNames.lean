import MuServer.Convert
import MuServer.Lib.Machine
import MuServer.TcpServer

/-!
# Names of connections

A connection is filed in `connections_` under a name, which is the server's name
with the address and the number of the connection, cut off at the end of a buffer
of 32 bytes. The numbers of the server's list stand for the names as long as no
name is cut off.
-/

set_option autoImplicit false

namespace MuServer

open Lib

structure InetAddress where
  sin_addr : UInt8 × UInt8 × UInt8 × UInt8
  sin_port : UInt16

namespace InetAddress

def toIp (addr : InetAddress) : Bytes :=
  decimal addr.sin_addr.1.toNat ++ bytes "." ++ decimal addr.sin_addr.2.1.toNat ++ bytes "."
    ++ decimal addr.sin_addr.2.2.1.toNat ++ bytes "." ++ decimal addr.sin_addr.2.2.2.toNat

def toIpPort (addr : InetAddress) : Bytes :=
  addr.toIp ++ bytes ":" ++ decimal addr.sin_port.toNat

end InetAddress

theorem decimal_length_le_iff (n k : ℕ) (hk : 0 < k) : (decimal n).length ≤ k ↔ n < 10^k := by
  rw [← numeral_decimal, numeral_length]
  exact Numeral.low_length_le_iff 10 n k (by decide) hk

theorem decimal_injective (m n : ℕ) (h : decimal m = decimal n) : m = n := by
  rw [← digitsValue_decimal m, h, digitsValue_decimal]

theorem decimal_pow (k : ℕ) : decimal (10^k) = byte '1'::List.replicate k (byte '0') := by
  have hdigits : Nat.digits 10 (10^k) = List.replicate k 0 ++ [1] := by
    have h := Nat.digits_base_pow_mul (b := 10) (k := k) (m := 1) (by decide) (by decide)
    rw [mul_one] at h
    simpa using h
  have hne : 10^k ≠ 0 := Nat.pos_iff_ne_zero.mp (Nat.pow_pos (by decide))
  unfold decimal
  rw [if_neg hne, hdigits]
  simp [byte]

theorem toIpPort_length (addr : InetAddress) : addr.toIpPort.length ≤ 21 := by
  obtain ⟨⟨a, b, c, d⟩, port⟩ := addr
  have hoctet : ∀ x : UInt8, (decimal x.toNat).length ≤ 3 := by
    intro x
    have hx := x.toNat_lt
    exact (decimal_length_le_iff x.toNat 3 (by decide)).mpr (by omega)
  have hport : (decimal port.toNat).length ≤ 5 := by
    have hx := port.toNat_lt
    exact (decimal_length_le_iff port.toNat 5 (by decide)).mpr (by omega)
  have ha := hoctet a
  have hb := hoctet b
  have hc := hoctet c
  have hd := hoctet d
  simp only [InetAddress.toIpPort, InetAddress.toIp, List.length_append]
  simp only [show (bytes ".").length = 1 from rfl, show (bytes ":").length = 1 from rfl]
  omega

namespace TcpServer

def connName (name_ ipPort_ : Bytes) (nextConnId_ : ℕ) : Bytes :=
  name_ ++ (bytes "-" ++ ipPort_ ++ bytes "#" ++ decimal nextConnId_).take 31

def Distinct (name_ ipPort_ : Bytes) (N : ℕ) : Prop :=
  ∀ i j, 1 ≤ i → i ≤ N → 1 ≤ j → j ≤ N →
    connName name_ ipPort_ i = connName name_ ipPort_ j → i = j

section Names

variable (name_ ipPort_ : Bytes) (h : ipPort_.length ≤ 21)

include h

theorem connName_eq (i : ℕ) : connName name_ ipPort_ i =
    name_ ++ (bytes "-" ++ ipPort_ ++ bytes "#") ++ (decimal i).take (29-ipPort_.length) := by
  have hlength : (bytes "-" ++ ipPort_ ++ bytes "#").length = 2+ipPort_.length := by
    simp only [List.length_append]
    rw [show (bytes "-").length = 1 from rfl, show (bytes "#").length = 1 from rfl]
    omega
  rw [connName, List.take_append, List.take_of_length_le (by omega), hlength,
    show 31-(2+ipPort_.length) = 29-ipPort_.length by omega, ← List.append_assoc]

theorem connName_whole (i : ℕ) (hi : i < 10^(29-ipPort_.length)) : connName name_ ipPort_ i =
    name_ ++ (bytes "-" ++ ipPort_ ++ bytes "#") ++ decimal i := by
  have hlength := (decimal_length_le_iff i (29-ipPort_.length) (by omega)).mpr hi
  rw [connName_eq name_ ipPort_ h, List.take_of_length_le hlength]

theorem connName_cut : connName name_ ipPort_ (10^(29-ipPort_.length)) =
    connName name_ ipPort_ (10^(28-ipPort_.length)) := by
  rw [connName_eq name_ ipPort_ h, connName_eq name_ ipPort_ h, decimal_pow, decimal_pow]
  obtain ⟨k, hk⟩ : ∃ k, 28-ipPort_.length = k := ⟨_, rfl⟩
  rw [show 29-ipPort_.length = k+1 by omega, hk]
  simp [List.take_replicate]

theorem distinct_iff (N : ℕ) : Distinct name_ ipPort_ N ↔ N < 10^(29-ipPort_.length) := by
  constructor
  · intro hdistinct
    by_contra hnot
    have hless : 10^(28-ipPort_.length) < 10^(29-ipPort_.length) :=
      Nat.pow_lt_pow_right (by decide) (by omega)
    have hpos : 0 < 10^(28-ipPort_.length) := Nat.pow_pos (by decide)
    have hsame := hdistinct _ _ (by omega) (by omega) (by omega) (by omega)
      (connName_cut name_ ipPort_ h)
    omega
  · intro hN i j hi hiN hj hjN hname
    rw [connName_whole name_ ipPort_ h i (by omega),
      connName_whole name_ ipPort_ h j (by omega)] at hname
    exact decimal_injective i j (List.append_cancel_left hname)

end Names

end TcpServer

structure NamedServer (T L : Type) where
  server : TcpServer T L := {}
  map : Bytes → Option ℕ := fun _ => none
  /-- an entry was overwritten -/
  replaced : Bool := false
  /-- the entry of another connection was erased -/
  erasedOther : Bool := false

namespace NamedServer

open TcpServer

variable {T L : Type} (name_ ipPort_ : Bytes)

def assign (s : NamedServer T L) (i : ℕ) (server : TcpServer T L) : NamedServer T L where
  server := server
  map := Function.update s.map (connName name_ ipPort_ i) (some i)
  replaced := s.replaced || (s.map (connName name_ ipPort_ i)).isSome
  erasedOther := s.erasedOther

def erase (s : NamedServer T L) (i : ℕ) (server : TcpServer T L) : NamedServer T L where
  server := server
  map := Function.update s.map (connName name_ ipPort_ i) none
  replaced := s.replaced
  erasedOther := s.erasedOther || (s.map (connName name_ ipPort_ i)).any (fun j => j ≠ i)

def within (N : ℕ) (s : NamedServer T L) : ServerAct T L → Bool
  | .newConnection _ _ => s.server.nextConnId_ ≤ N
  | _ => true

structure Own (s : NamedServer T L) : Prop where
  replaced : s.replaced = false
  erasedOther : s.erasedOther = false
  entries : ∀ name i, s.map name = some i ↔
    i ∈ s.server.connections_ ∧ name = connName name_ ipPort_ i

structure Numbered (N : ℕ) (s : TcpServer T L) : Prop where
  next : 1 ≤ s.nextConnId_ ∧ s.nextConnId_ ≤ N+1
  conns : ∀ i, s.conns i ≠ none → 1 ≤ i ∧ i < s.nextConnId_
  listed : ∀ i ∈ s.connections_, 1 ≤ i ∧ i < s.nextConnId_
  nodup : s.connections_.Nodup

theorem start_numbered (N : ℕ) : Numbered N ({} : TcpServer T L) where
  next := ⟨le_rfl, Nat.le_add_left 1 N⟩
  conns := fun _ hi => absurd rfl hi
  listed := fun _ hi => by cases hi
  nodup := List.nodup_nil

theorem numbered_update (N : ℕ) (s : TcpServer T L) (h : Numbered N s) (i : ℕ) (held : Held T L)
    (hi : s.conns i ≠ none) (j : ℕ) (hj : Function.update s.conns i (some held) j ≠ none) :
    1 ≤ j ∧ j < s.nextConnId_ := by
  by_cases hij : j = i
  · rw [hij]
    exact h.conns i hi
  · rw [Function.update_of_ne hij] at hj
    exact h.conns j hj

/-- An assignment under a name that no connection of the list has. -/
theorem assign_own (N : ℕ) (hdistinct : Distinct name_ ipPort_ N) (s : NamedServer T L)
    (h : Own name_ ipPort_ s) (hn : Numbered N s.server) (hN : s.server.nextConnId_ ≤ N)
    (fd : ℕ) (loop : L) : Own name_ ipPort_ (s.assign name_ ipPort_ s.server.nextConnId_
      (s.server.newConnection fd loop)) := by
  have hfresh : ∀ i ∈ s.server.connections_,
      connName name_ ipPort_ s.server.nextConnId_ ≠ connName name_ ipPort_ i := by
    intro i hi hname
    have hlt := hn.listed i hi
    have := hdistinct _ i hn.next.1 hN hlt.1 (by omega) hname
    omega
  have hnone : s.map (connName name_ ipPort_ s.server.nextConnId_) = none := by
    rw [Option.eq_none_iff_forall_ne_some]
    intro i hi
    obtain ⟨hlisted, hname⟩ := (h.entries _ i).mp hi
    exact hfresh i hlisted hname
  refine ⟨?_, h.erasedOther, fun name i => ?_⟩
  · simp [assign, h.replaced, hnone]
  · simp only [assign, newConnection, List.mem_append, List.mem_singleton]
    by_cases hname : name = connName name_ ipPort_ s.server.nextConnId_
    · subst hname
      rw [Function.update_self]
      constructor
      · intro hi
        obtain rfl := Option.some.inj hi
        exact ⟨Or.inr rfl, rfl⟩
      · rintro ⟨hlisted | rfl, hi⟩
        · exact absurd hi (hfresh i hlisted)
        · rfl
    · rw [Function.update_of_ne hname, h.entries]
      constructor
      · rintro ⟨hlisted, hi⟩
        exact ⟨Or.inl hlisted, hi⟩
      · rintro ⟨hlisted | rfl, hi⟩
        · exact ⟨hlisted, hi⟩
        · exact absurd hi hname

theorem erase_own (N : ℕ) (hdistinct : Distinct name_ ipPort_ N) (s : NamedServer T L)
    (h : Own name_ ipPort_ s) (hn : Numbered N s.server) (i : ℕ) (held : Held T L)
    (hi : s.server.conns i = some held) : Own name_ ipPort_ (s.erase name_ ipPort_ i
      (s.server.removeConnectionInLoop i held)) := by
  have hlt := hn.conns i (by simp [hi])
  have hbound := hn.next.2
  have hown : ∀ j ∈ s.server.connections_,
      connName name_ ipPort_ i = connName name_ ipPort_ j → j = i := by
    intro j hj hname
    have hltj := hn.listed j hj
    exact (hdistinct i j hlt.1 (by omega) hltj.1 (by omega) hname).symm
  refine ⟨h.replaced, ?_, fun name j => ?_⟩
  · simp only [erase, h.erasedOther, Bool.false_or]
    cases hentry : s.map (connName name_ ipPort_ i) with
    | none => rfl
    | some j =>
      obtain ⟨hlisted, hname⟩ := (h.entries _ j).mp hentry
      simp [hown j hlisted hname]
  · simp only [erase, removeConnectionInLoop, hn.nodup.mem_erase_iff]
    by_cases hname : name = connName name_ ipPort_ i
    · subst hname
      rw [Function.update_self]
      constructor
      · intro hj
        cases hj
      · rintro ⟨⟨hne, hlisted⟩, hj⟩
        exact absurd (hown j hlisted hj) hne
    · rw [Function.update_of_ne hname, h.entries]
      constructor
      · rintro ⟨hlisted, hj⟩
        refine ⟨⟨?_, hlisted⟩, hj⟩
        rintro rfl
        exact hname hj
      · rintro ⟨⟨-, hlisted⟩, hj⟩
        exact ⟨hlisted, hj⟩

variable [DecidableEq T] [DecidableEq L]

def step (s : NamedServer T L) (a : ServerAct T L) : Option (NamedServer T L) :=
  (s.server.step a).map (fun server =>
    match a with
    | .newConnection _ _ => s.assign name_ ipPort_ s.server.nextConnId_ server
    | .removeConnectionInLoop i => s.erase name_ ipPort_ i server
    | _ => { s with server := server })

theorem step_numbered (N : ℕ) (s : NamedServer T L) (h : Numbered N s.server)
    (a : ServerAct T L) (hwithin : s.within N a = true) (t : TcpServer T L)
    (ht : s.server.step a = some t) : Numbered N t := by
  obtain ⟨hnext, hconns, hlisted, hnodup⟩ := h
  obtain ⟨-, -, hstepped⟩ := step_stepped s.server a t ht
  cases hstepped with
  | newConnection fd loop hfd =>
    have hN : s.server.nextConnId_ ≤ N := of_decide_eq_true hwithin
    refine ⟨?_, fun i hi => ?_, fun i hi => ?_, ?_⟩
    · show 1 ≤ s.server.nextConnId_+1 ∧ s.server.nextConnId_+1 ≤ N+1
      omega
    · show 1 ≤ i ∧ i < s.server.nextConnId_+1
      by_cases hij : i = s.server.nextConnId_
      · omega
      · simp only [newConnection, setConn, Function.update_of_ne hij] at hi
        have := hconns i hi
        omega
    · show 1 ≤ i ∧ i < s.server.nextConnId_+1
      rcases List.mem_append.mp hi with hi | hi
      · have := hlisted i hi
        omega
      · obtain rfl : i = s.server.nextConnId_ := by simpa using hi
        omega
    · refine List.nodup_append.mpr ⟨hnodup, by simp, fun i hi j hj => ?_⟩
      obtain rfl : j = s.server.nextConnId_ := by simpa using hj
      have := hlisted i hi
      omega
  | conn i held a c hi halive ha hc =>
    exact ⟨hnext, numbered_update N s.server ⟨hnext, hconns, hlisted, hnodup⟩ i _ (by simp [hi]),
      hlisted, hnodup⟩
  | removeConnectionInLoop i held hi hb =>
    exact ⟨hnext, numbered_update N s.server ⟨hnext, hconns, hlisted, hnodup⟩ i _ (by simp [hi]),
      fun j hj => hlisted j (List.mem_of_mem_erase hj), hnodup.erase i⟩
  | destruct i held hi halive hr =>
    exact ⟨hnext, numbered_update N s.server ⟨hnext, hconns, hlisted, hnodup⟩ i _ (by simp [hi]),
      hlisted, hnodup⟩
  | useFreed i held hi halive hl => exact ⟨hnext, hconns, hlisted, hnodup⟩

theorem step_own (N : ℕ) (hdistinct : Distinct name_ ipPort_ N) (s : NamedServer T L)
    (h : Own name_ ipPort_ s ∧ Numbered N s.server) (a : ServerAct T L)
    (hwithin : s.within N a = true) (t : NamedServer T L)
    (ht : s.step name_ ipPort_ a = some t) : Own name_ ipPort_ t ∧ Numbered N t.server := by
  obtain ⟨server, hserver, rfl⟩ := Option.map_eq_some_iff.mp ht
  have hn := step_numbered N s h.2 a hwithin server hserver
  obtain ⟨-, -, hstepped⟩ := step_stepped s.server a server hserver
  cases hstepped with
  | newConnection fd loop hfd =>
    have hN : s.server.nextConnId_ ≤ N := of_decide_eq_true hwithin
    exact ⟨assign_own name_ ipPort_ N hdistinct s h.1 h.2 hN fd loop, hn⟩
  | conn i held a c hi halive ha hc => exact ⟨⟨h.1.replaced, h.1.erasedOther, h.1.entries⟩, hn⟩
  | removeConnectionInLoop i held hi hb =>
    exact ⟨erase_own name_ ipPort_ N hdistinct s h.1 h.2 i held hi, hn⟩
  | destruct i held hi halive hr => exact ⟨⟨h.1.replaced, h.1.erasedOther, h.1.entries⟩, hn⟩
  | useFreed i held hi halive hl => exact ⟨⟨h.1.replaced, h.1.erasedOther, h.1.entries⟩, hn⟩

theorem reach_own (N : ℕ) (hdistinct : Distinct name_ ipPort_ N) (s : NamedServer T L)
    (h : Machine.Reach (step name_ ipPort_) (fun s a => s.within N a = true) {} s) :
    Own name_ ipPort_ s := by
  have hkept : Own name_ ipPort_ s ∧ Numbered N s.server := by
    apply Machine.reach_invariant _ _ _ (fun s => Own name_ ipPort_ s ∧ Numbered N s.server)
      _ _ s h
    · refine ⟨⟨rfl, rfl, fun name i => ?_⟩, start_numbered N⟩
      simp
    · intro s a t hs hwithin ht
      exact step_own name_ ipPort_ N hdistinct s hs a hwithin t ht
  exact hkept.1

/-- The names of so many connections differ, and every entry is its own
connection's in all runs, exactly if no number is cut off. -/
theorem names_iff (addr : InetAddress) (N : ℕ) :
    (Distinct name_ addr.toIpPort N
      ∧ ∀ s : NamedServer T L, Machine.Reach (step name_ addr.toIpPort)
          (fun s a => s.within N a = true) {} s → Own name_ addr.toIpPort s)
    ↔ N < 10^(29-addr.toIpPort.length) := by
  rw [← distinct_iff name_ addr.toIpPort (toIpPort_length addr)]
  constructor
  · intro h
    exact h.1
  · intro h
    exact ⟨h, reach_own name_ addr.toIpPort N h⟩

end NamedServer

/-- Behind an address of 21 bytes there is room for eight digits. -/
theorem connName_collision : ¬ TcpServer.Distinct (bytes "HttpServer")
    (InetAddress.toIpPort ⟨(192, 168, 100, 200), 10000⟩) (10^8) := by
  intro h
  have hsame := h (10^7) (10^8) (by decide) (by decide) (by decide) le_rfl (by decide)
  exact absurd hsame (by decide)

end MuServer
