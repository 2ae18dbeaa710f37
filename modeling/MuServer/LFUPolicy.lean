import Mathlib.Data.Set.Card
import MuServer.LFUEviction

/-!
# The policy behind the frequency cache

The cache by its purpose, without lists and without `minFreq_`: every key that
is held has a value, a number of uses and the time at which that number was set.
To make room for a new key the one with the fewest uses goes and, of several
such, the one whose number was set the longest ago. A use sets the number of its
key. When the accesses counted are too many for the keys held, every key loses
half of the bound: that sets the numbers of all keys anew, one after the other
in the order in which the map is iterated. The lists of the code find the same
keys without looking at all of them.
-/

set_option autoImplicit false

namespace MuServer
open Lib.Filing Lib.Fallible

structure Use (V : Type) where
  value : V
  uses : ℤ
  /-- when `uses` was set, by a use or by aging -/
  since : ℕ

/-- `total` is the number of accesses, less the uses of the keys that were given up. -/
structure Policy (K V : Type) where
  held : K → Option (Use V) := fun _ => none
  total : ℤ := 0
  clock : ℕ := 0

namespace Policy

variable {K V : Type} [DecidableEq K]

noncomputable def size (p : Policy K V) : ℕ := {key | p.held key ≠ none}.ncard

def Before (u w : Use V) : Prop := u.uses < w.uses ∨ u.uses = w.uses ∧ u.since ≤ w.since

def Victim (p : Policy K V) (gone : K) (u : Use V) : Prop :=
  p.held gone = some u ∧ ∀ key w, p.held key = some w → Before u w

def touch (p : Policy K V) (key : K) (value : V) (uses : ℤ) : Policy K V :=
  { p with
    held := Function.update p.held key (some ⟨value, uses, p.clock⟩)
    clock := p.clock+1 }

def giveUp (p : Policy K V) (gone : K) (u : Use V) : Policy K V :=
  { p with held := Function.update p.held gone none, total := p.total-u.uses }

def age (maxAverage : ℤ) (p : Policy K V) (key : K) : Policy K V :=
  match p.held key with
  | some u => p.touch key u.value (max 1 (u.uses-maxAverage/2))
  | none => p

noncomputable def count (maxAverage : ℤ) (order : List K) (p : Policy K V) : Policy K V :=
  let p := { p with total := p.total+1 }
  if (maxAverage+1)*p.size ≤ p.total then order.foldl (age maxAverage) p else p

theorem count_calm (maxAverage : ℤ) (order : List K) (p : Policy K V)
    (h : ¬(maxAverage+1)*p.size ≤ p.total+1) :
    p.count maxAverage order = { p with total := p.total+1 } := if_neg h

theorem count_aged (maxAverage : ℤ) (order : List K) (p : Policy K V)
    (h : (maxAverage+1)*p.size ≤ p.total+1) :
    p.count maxAverage order = order.foldl (age maxAverage) { p with total := p.total+1 } := if_pos h

/-- One operation of a cache with the given room and bound, and the order in which its
keys would be aged. -/
inductive Step (capacity : ℕ) (maxAverage : ℤ) (order : List K) (p : Policy K V) :
    CacheOp K V → Policy K V → Prop
  | hit (key : K) (u : Use V) (hkey : p.held key = some u) :
      Step capacity maxAverage order p (.get key)
        (count maxAverage order (p.touch key u.value (u.uses+1)))
  | miss (key : K) (hkey : p.held key = none) : Step capacity maxAverage order p (.get key) p
  | change (key : K) (value : V) (u : Use V) (hkey : p.held key = some u) :
      Step capacity maxAverage order p (.put key value)
        (count maxAverage order (p.touch key value (u.uses+1)))
  | store (key : K) (value : V) (hkey : p.held key = none) (hroom : p.size < capacity) :
      Step capacity maxAverage order p (.put key value)
        (count maxAverage order (p.touch key value 1))
  | replace (key : K) (value : V) (gone : K) (u : Use V) (hkey : p.held key = none)
      (hfull : p.size = capacity) (hgone : p.Victim gone u) :
      Step capacity maxAverage order p (.put key value)
        (count maxAverage order ((p.giveUp gone u).touch key value 1))
  | purge : Step capacity maxAverage order p .purge { p with held := fun _ => none }

inductive Run (capacity : ℕ) (maxAverage : ℤ) :
    Policy K V → List (CacheOp K V × List K) → Policy K V → Prop
  | done (p : Policy K V) : Run capacity maxAverage p [] p
  | next (p q r : Policy K V) (op : CacheOp K V × List K) (ops : List (CacheOp K V × List K))
      (hstep : Step capacity maxAverage op.2 p op.1 q) (hrun : Run capacity maxAverage q ops r) :
      Run capacity maxAverage p (op::ops) r

end Policy

namespace LFUCache

variable {K V : Type} [DecidableEq K]

def keyOrder (c : LFUCache K V) (it : Iteration K) : List K :=
  (it.order c.nodeMap_.entries).map Sigma.fst

structure Stamped (c : LFUCache K V) (stamp : ℕ → ℕ) (clock : ℕ) : Prop where
  early : ∀ n ∈ c.residents, stamp n < clock
  apart : ∀ m ∈ c.residents, ∀ n ∈ c.residents, stamp m = stamp n → m = n
  ordered : Ordered c.freqToFreqList_ stamp

structure Represents (c : LFUCache K V) (p : Policy K V) (stamp : ℕ → ℕ) : Prop
    extends Stamped c stamp p.clock where
  held : ∀ key, p.held key = (c.nodeMap_.lookup key).map
    (fun n => ⟨(c.nodes n).value, (c.nodes n).freq, stamp n⟩)
  total : p.total = c.curTotalFreq_

omit [DecidableEq K] in
theorem moved_buckets (c : LFUCache K V) (n : ℕ) (freq : ℤ) : (c.moved n freq).freqToFreqList_ =
    add (remove c.freqToFreqList_ (c.nodes n).freq n) freq n := by
  simp [moved, addToFreqList, setFreq, setNode]

theorem moved_stamped (c : LFUCache K V) (h : c.Listed) (stamp : ℕ → ℕ) (clock : ℕ)
    (hs : c.Stamped stamp clock) (n : ℕ) (freq : ℤ) :
    (c.moved n freq).Stamped (Function.update stamp n clock) (clock+1) where
  early := by
    intro m hm
    rw [Function.update_apply]
    split
    · exact Nat.lt_succ_self clock
    · exact (hs.early m hm).trans (Nat.lt_succ_self clock)
  apart := by
    intro m hm k hk heq
    rw [Function.update_apply, Function.update_apply] at heq
    split at heq <;> split at heq
    · rename_i hmn hkn
      exact hmn.trans hkn.symm
    · exact absurd heq.symm (hs.early k hk).ne
    · exact absurd heq (hs.early m hm).ne
    · exact hs.apart m hm k hk heq
  ordered := by
    have hleft : ∀ i, ∀ m ∈ bucket (remove c.freqToFreqList_ (c.nodes n).freq n) i,
        m ∈ c.residents ∧ m ≠ n := by
      intro i m hm
      have hr := (filed_remove _ _ _ h.filed n).mem i m
      obtain ⟨⟨hres, hne⟩, -⟩ := hr.mp hm
      exact ⟨hres, hne⟩
    rw [moved_buckets]
    apply ordered_add
    · apply ordered_congr _ stamp
      · exact ordered_remove _ _ hs.ordered _ n
      · exact fun i m hm => Function.update_of_ne (hleft i m hm).2 clock stamp
    · intro m hm
      rw [Function.update_self, Function.update_of_ne (hleft freq m hm).2]
      exact hs.early m (hleft freq m hm).1

theorem represents_size (c : LFUCache K V) (p : Policy K V) (stamp : ℕ → ℕ)
    (hr : c.Represents p stamp) : p.size = c.size := by
  have hset : {key | p.held key ≠ none} = (c.nodeMap_.keys.toFinset : Set K) := by
    ext key
    have hmem := @AList.lookup_isSome _ _ _ key c.nodeMap_
    rw [AList.mem_keys] at hmem
    simp only [hr.held key, Set.mem_ofPred_eq, ne_eq, List.coe_toFinset,
      ← Option.isSome_iff_ne_none, Option.isSome_map, ← hmem]
  rw [Policy.size, hset, Set.ncard_coe_finset,
    List.toFinset_card_of_nodup (AList.keys_nodup c.nodeMap_)]
  exact List.length_map _

theorem lookup_apart (c : LFUCache K V) (h : c.Listed) (key k : K) (n m : ℕ)
    (hn : c.nodeMap_.lookup key = some n) (hm : c.nodeMap_.lookup k = some m) (hk : k ≠ key) :
    m ≠ n := by
  rintro rfl
  exact hk ((h.keys k m hm).symm.trans (h.keys key m hn))

theorem moved_represents (c : LFUCache K V) (h : c.Listed) (p : Policy K V) (stamp : ℕ → ℕ)
    (hr : c.Represents p stamp) (key : K) (n : ℕ) (hn : c.nodeMap_.lookup key = some n)
    (freq minFreq : ℤ) :
    { c.moved n freq with minFreq_ := minFreq }.Represents
      (p.touch key (c.nodes n).value freq) (Function.update stamp n p.clock) := by
  have hs := moved_stamped c h stamp p.clock hr.toStamped n freq
  refine ⟨⟨hs.early, hs.apart, hs.ordered⟩, fun k => ?_, hr.total⟩
  change Function.update p.held key _ k = (c.nodeMap_.lookup k).map (fun m =>
    ⟨((c.moved n freq).nodes m).value, ((c.moved n freq).nodes m).freq,
      Function.update stamp n p.clock m⟩)
  by_cases hk : k = key
  · rw [hk, hn, Function.update_self, Option.map_some, moved_nodes, if_pos rfl,
      Function.update_self]
  · rw [Function.update_of_ne hk, hr.held k]
    cases hm : c.nodeMap_.lookup k with
    | none => rfl
    | some m =>
      have hne := lookup_apart c h key k n m hn hm hk
      rw [Option.map_some, Option.map_some, moved_nodes, if_neg hne, Function.update_of_ne hne]

theorem ageNodes_represents (c c' : LFUCache K V) (h : c.Listed) (h0 : 0 ≤ c.maxAvgFreq_)
    (hmax : c.maxAvgFreq_ ≤ INT_MAX) (es : List (Sigma (fun _ : K => ℕ)))
    (hes : ∀ e ∈ es, c.nodeMap_.lookup e.1 = some e.2) (hc : c.ageNodes (es.map Sigma.snd) = .ok c')
    (p : Policy K V) (stamp : ℕ → ℕ) (hr : c.Represents p stamp) :
    ∃ stamp', c'.Represents ((es.map Sigma.fst).foldl (Policy.age c.maxAvgFreq_) p) stamp' := by
  induction es generalizing c p stamp with
  | nil =>
    obtain rfl := Except.ok.inj hc
    exact ⟨stamp, hr⟩
  | cons e es ih =>
    have hl := hes e List.mem_cons_self
    have hn := (mem_residents c e.2).mpr ⟨e.1, hl⟩
    have hpos := h.positive e.2 hn
    have hfits := h.fits e.2 hn
    rw [List.map_cons, ageNodes, ageNode_ok c h h0 hmax e.2 hn] at hc
    change (c.moved e.2 (max 1 ((c.nodes e.2).freq-c.maxAvgFreq_/2))).ageNodes _ = .ok c' at hc
    have hlist := moved_listed c h e.2 hn (max 1 ((c.nodes e.2).freq-c.maxAvgFreq_/2))
      (le_max_left _ _) (max_le (by decide) (by omega))
    have hmoved := moved_represents c h p stamp hr e.1 e.2 hl
      (max 1 ((c.nodes e.2).freq-c.maxAvgFreq_/2)) c.minFreq_
    have hage : p.age c.maxAvgFreq_ e.1 = p.touch e.1 (c.nodes e.2).value
        (max 1 ((c.nodes e.2).freq-c.maxAvgFreq_/2)) := by
      rw [Policy.age, hr.held e.1, hl]
      rfl
    rw [List.map_cons, List.foldl_cons, hage]
    exact ih _ hlist h0 hmax (fun e' he' => hes e' (List.mem_cons_of_mem e he')) hc _ _ hmoved

theorem increaseFreq_represents (d c' : LFUCache K V) (p : Policy K V) (stamp : ℕ → ℕ)
    (hl : d.Listed) (hne : d.residents ≠ []) (h0 : 0 ≤ d.curTotalFreq_) (hM0 : 0 ≤ d.maxAvgFreq_)
    (hM : d.maxAvgFreq_ ≤ INT_MAX) (hr : d.Represents p stamp) (it : Iteration K)
    (hc : d.increaseFreq it = .ok c') :
    ∃ stamp', c'.Represents (p.count d.maxAvgFreq_ (c'.keyOrder it)) stamp' := by
  have hlt : d.curTotalFreq_ < INT_MAX := by
    by_contra hfull
    rw [increaseFreq_full d hfull it] at hc
    exact absurd hc (by simp)
  have hsize := represents_size d p stamp hr
  have hcounted : (d.setTotal (d.curTotalFreq_+1)).Represents { p with total := p.total+1 } stamp :=
    ⟨⟨hr.early, hr.apart, hr.ordered⟩, hr.held, by rw [hr.total]; rfl⟩
  rw [increaseFreq_counted d hne h0 hlt it] at hc
  by_cases hage : (d.maxAvgFreq_+1)*d.size ≤ d.curTotalFreq_+1
  · have hlisted : (d.setTotal (d.curTotalFreq_+1)).Listed :=
      ⟨hl.filed, hl.keys, hl.made, hl.positive, hl.fits⟩
    have hentries : (d.setTotal (d.curTotalFreq_+1)).nodeMap_.entries ≠ [] := by
      intro he
      exact hne (by simpa [residents, setTotal] using he)
    rw [if_pos hage, handleOverMaxAverageNum, if_neg hentries] at hc
    obtain ⟨e, he, hc⟩ := bind_eq_ok hc
    obtain rfl := Except.ok.inj hc
    have hperm := it.perm d.nodeMap_.entries
    have hnodes : ((it.order d.nodeMap_.entries).map Sigma.snd).Perm d.residents :=
      hperm.map Sigma.snd
    have hmem : ∀ m ∈ (it.order d.nodeMap_.entries).map Sigma.snd, m ∈ d.residents :=
      fun m hm => hnodes.mem_iff.mp hm
    have hnodup := hnodes.nodup_iff.mpr (residents_nodup d hl.keys)
    obtain ⟨e', he', -, htend, -⟩ := ageNodes_ok (d.setTotal (d.curTotalFreq_+1)) hlisted hM0 hM _
      hnodup hmem
    obtain rfl := Except.ok.inj (he.symm.trans he')
    obtain ⟨stamp', hs⟩ := ageNodes_represents _ e hlisted hM0 hM (it.order d.nodeMap_.entries)
      (fun x hx => AList.mem_lookup_iff.mpr (hperm.mem_iff.mp hx)) he _ stamp hcounted
    have horder : e.updateMinFreq.keyOrder it = (it.order d.nodeMap_.entries).map Sigma.fst := by
      have hmap : e.updateMinFreq.nodeMap_ = d.nodeMap_ := htend.nodeMap
      rw [keyOrder, hmap]
    rw [horder, Policy.count_aged _ _ p (by rw [hsize, hr.total]; exact hage)]
    exact ⟨stamp', ⟨hs.early, hs.apart, hs.ordered⟩, hs.held, hs.total⟩
  · rw [if_neg hage] at hc
    obtain rfl := Except.ok.inj hc
    rw [Policy.count_calm _ _ p (by rw [hsize, hr.total]; exact hage)]
    exact ⟨stamp, hcounted⟩

theorem getInternal_moved (c : LFUCache K V) (h : c.Listed) (haim : c.MinFreq ∨ c.Blind)
    (hpos : 1 ≤ c.minFreq_) (n : ℕ) (hn : n ∈ c.residents) (hlt : (c.nodes n).freq < INT_MAX)
    (it : Iteration K) : ∃ minFreq, c.getInternal n it =
      { c.moved n ((c.nodes n).freq+1) with minFreq_ := minFreq }.increaseFreq it := by
  have hadvance : ∃ minFreq, (c.moved n ((c.nodes n).freq+1)).advanceMinFreq ((c.nodes n).freq+1) =
      .ok { c.moved n ((c.nodes n).freq+1) with minFreq_ := minFreq } := by
    rcases haim with hmin | hblind
    · obtain ⟨m, hm, -⟩ := advanceMinFreq_ok c h hmin hpos n hn hlt
      exact ⟨m, hm⟩
    · exact ⟨_, advanceMinFreq_blind c hblind n hn⟩
  obtain ⟨m, hm⟩ := hadvance
  have hinc : increment (c.nodes n).freq = .ok ((c.nodes n).freq+1) := if_pos hlt
  refine ⟨m, ?_⟩
  unfold getInternal
  rw [removeFromFreqList_ok c h n hn]
  change (increment (c.nodes n).freq >>= fun freq =>
    (c.moved n freq).advanceMinFreq freq >>= fun d => d.increaseFreq it) = _
  rw [hinc]
  change ((c.moved n ((c.nodes n).freq+1)).advanceMinFreq ((c.nodes n).freq+1) >>=
    fun d => d.increaseFreq it) = _
  rw [hm]
  rfl

theorem getInternal_represents (c c' : LFUCache K V) (h : c.Listed) (haim : c.MinFreq ∨ c.Blind)
    (hpos : 1 ≤ c.minFreq_) (h0 : 0 ≤ c.curTotalFreq_) (hM0 : 0 ≤ c.maxAvgFreq_)
    (hM : c.maxAvgFreq_ ≤ INT_MAX) (p : Policy K V) (stamp : ℕ → ℕ) (hr : c.Represents p stamp)
    (key : K) (n : ℕ) (hn : c.nodeMap_.lookup key = some n) (it : Iteration K)
    (hc : c.getInternal n it = .ok c') :
    ∃ stamp', c'.Represents ((p.touch key (c.nodes n).value ((c.nodes n).freq+1)).count
      c.maxAvgFreq_ (c'.keyOrder it)) stamp' := by
  have hin := (mem_residents c n).mpr ⟨key, hn⟩
  have hlt : (c.nodes n).freq < INT_MAX := by
    by_contra hfull
    rw [getInternal_full c h n hin hfull it] at hc
    exact absurd hc (by simp)
  obtain ⟨m, hm⟩ := getInternal_moved c h haim hpos n hin hlt it
  have hlist := moved_listed c h n hin ((c.nodes n).freq+1)
    ((h.positive n hin).trans (by omega)) hlt
  rw [hm] at hc
  refine increaseFreq_represents { c.moved n ((c.nodes n).freq+1) with minFreq_ := m } c' _ _
    ⟨hlist.filed, hlist.keys, hlist.made, hlist.positive, hlist.fits⟩ ?_ h0 hM0 hM
    (moved_represents c h p stamp hr key n hn _ m) it hc
  exact List.ne_nil_of_mem hin

theorem setValue_represents (c : LFUCache K V) (h : c.Listed) (p : Policy K V) (stamp : ℕ → ℕ)
    (hr : c.Represents p stamp) (key : K) (n : ℕ) (hn : c.nodeMap_.lookup key = some n)
    (value : V) :
    (c.setNode n { c.nodes n with value := value }).Represents { p with
      held := Function.update p.held key (some ⟨value, (c.nodes n).freq, stamp n⟩) } stamp := by
  refine ⟨⟨hr.early, hr.apart, hr.ordered⟩, fun k => ?_, hr.total⟩
  change Function.update p.held key _ k = (c.nodeMap_.lookup k).map (fun m =>
    ⟨((c.setNode n { c.nodes n with value := value }).nodes m).value,
      ((c.setNode n { c.nodes n with value := value }).nodes m).freq, stamp m⟩)
  by_cases hk : k = key
  · rw [hk, hn, Function.update_self, Option.map_some]
    simp [setNode]
  · rw [Function.update_of_ne hk, hr.held k]
    cases hm : c.nodeMap_.lookup k with
    | none => rfl
    | some m =>
      have hne := lookup_apart c h key k n m hn hm hk
      simp [setNode, Function.update_of_ne hne]

theorem withoutNode_represents (c : LFUCache K V) (h : c.Listed) (p : Policy K V)
    (stamp : ℕ → ℕ) (hr : c.Represents p stamp) (gone : K) (n : ℕ)
    (hn : c.nodeMap_.lookup gone = some n) :
    ((c.withoutNode n).setTotal (c.curTotalFreq_-(c.nodes n).freq)).Represents
      (p.giveUp gone ⟨(c.nodes n).value, (c.nodes n).freq, stamp n⟩) stamp := by
  have hin := (mem_residents c n).mpr ⟨gone, hn⟩
  have hsub : ∀ m ∈ (c.withoutNode n).residents, m ∈ c.residents := fun m hm =>
    (withoutNode_residents c h n hin).mem_iff.mpr (List.mem_cons_of_mem n hm)
  refine ⟨⟨fun m hm => hr.early m (hsub m hm), fun m hm k hk => hr.apart m (hsub m hm) k (hsub k hk),
    ordered_remove _ _ hr.ordered _ n⟩, fun k => ?_, ?_⟩
  · change Function.update p.held gone none k =
      ((c.nodeMap_.erase (c.nodes n).key).lookup k).map _
    rw [h.keys gone n hn]
    by_cases hk : k = gone
    · rw [hk, Function.update_self, AList.lookup_erase]
      rfl
    · rw [Function.update_of_ne hk, AList.lookup_erase_ne hk, hr.held k]
      rfl
  · change p.total-(c.nodes n).freq = c.curTotalFreq_-(c.nodes n).freq
    rw [hr.total]

theorem insertNode_represents (c : LFUCache K V) (h : c.Listed) (p : Policy K V)
    (stamp : ℕ → ℕ) (hr : c.Represents p stamp) (key : K) (value : V)
    (hkey : c.nodeMap_.lookup key = none) :
    (c.insertNode key value).Represents (p.touch key value 1)
      (Function.update stamp c.made p.clock) := by
  have hres := insertNode_residents c key value hkey
  have hold : ∀ n ∈ c.residents, n ≠ c.made := fun n hn => (h.made n hn).ne
  refine ⟨⟨?_, ?_, ?_⟩, fun k => ?_, hr.total⟩
  · intro n hn
    rw [hres] at hn
    rcases List.mem_cons.mp hn with rfl | hn
    · rw [Function.update_self]
      exact Nat.lt_succ_self p.clock
    · rw [Function.update_of_ne (hold n hn)]
      exact (hr.early n hn).trans (Nat.lt_succ_self p.clock)
  · intro m hm n hn heq
    rw [hres] at hm hn
    rcases List.mem_cons.mp hm with rfl | hm <;> rcases List.mem_cons.mp hn with rfl | hn
    · rfl
    · rw [Function.update_self, Function.update_of_ne (hold n hn)] at heq
      exact absurd heq.symm (hr.early n hn).ne
    · rw [Function.update_self, Function.update_of_ne (hold m hm)] at heq
      exact absurd heq (hr.early m hm).ne
    · rw [Function.update_of_ne (hold m hm), Function.update_of_ne (hold n hn)] at heq
      exact hr.apart m hm n hn heq
  · have hin : ∀ i, ∀ n ∈ bucket c.freqToFreqList_ i, n ∈ c.residents :=
      fun i n hn => ((h.filed.mem i n).mp hn).1
    change Ordered (add c.freqToFreqList_ ((c.insertNode key value).nodes c.made).freq c.made) _
    apply ordered_add
    · exact ordered_congr _ stamp _ hr.ordered
        (fun i n hn => Function.update_of_ne (hold n (hin i n hn)) p.clock stamp)
    · intro n hn
      rw [Function.update_self, Function.update_of_ne (hold n (hin _ n hn))]
      exact hr.early n (hin _ n hn)
  · change Function.update p.held key _ k = ((c.nodeMap_.insert key c.made).lookup k).map _
    by_cases hk : k = key
    · rw [hk, Function.update_self, AList.lookup_insert, Option.map_some, insertNode_new,
        Function.update_self]
    · rw [Function.update_of_ne hk, AList.lookup_insert_ne hk, hr.held k]
      cases hm : c.nodeMap_.lookup k with
      | none => rfl
      | some m =>
        have hne := hold m ((mem_residents c m).mpr ⟨k, hm⟩)
        rw [Option.map_some, Option.map_some, insertNode_old c key value m hne,
          Function.update_of_ne hne]

theorem overwrite_represents (c c' : LFUCache K V) (h : c.Sound) (p : Policy K V)
    (stamp : ℕ → ℕ) (hr : c.Represents p stamp) (key : K) (n : ℕ)
    (hn : c.nodeMap_.lookup key = some n) (value : V) (it : Iteration K)
    (hc : (c.setNode n { c.nodes n with value := value }).getInternal n it = .ok c') :
    ∃ stamp', c'.Represents ((p.touch key value ((c.nodes n).freq+1)).count c.maxAvgFreq_
      (c'.keyOrder it)) stamp' := by
  have hs := setValue_sound c h n value
  have h0 := (freqSum_nonneg _ hs.listed).trans hs.total
  have hset := setValue_represents c h.listed p stamp hr key n hn value
  obtain ⟨stamp', hr'⟩ := getInternal_represents _ c' hs.listed (hs.aimed.imp id And.left)
    hs.minFreq_pos h0 hs.maxAvg_nonneg hs.maxAvg_fits _ stamp hset key n hn it hc
  have htouch : Policy.touch { p with
      held := Function.update p.held key (some ⟨value, (c.nodes n).freq, stamp n⟩) } key value
        ((c.nodes n).freq+1) = p.touch key value ((c.nodes n).freq+1) := by
    simp only [Policy.touch, Function.update_idem]
  have hnode : (c.setNode n { c.nodes n with value := value }).nodes n =
      { c.nodes n with value := value } := by
    simp [setNode]
  rw [hnode] at hr'
  change c'.Represents (Policy.count c.maxAvgFreq_ _
    (Policy.touch _ key value ((c.nodes n).freq+1))) stamp' at hr'
  rw [htouch] at hr'
  exact ⟨stamp', hr'⟩

variable [Inhabited K]

theorem put_new_represents (c c' : LFUCache K V) (h : c.Sound) (ht : Temperate c.maxAvgFreq_)
    (p : Policy K V) (stamp : ℕ → ℕ) (hr : c.Represents p stamp) (key : K) (value : V)
    (hkey : c.nodeMap_.lookup key = none) (it : Iteration K) (hc : c.put key value it = .ok c') :
    ∃ q stamp', Policy.Step c.capacity_ c.maxAvgFreq_ (c'.keyOrder it) p (.put key value) q ∧
      c'.Represents q stamp' := by
  have hheld : p.held key = none := by
    rw [hr.held key, hkey]
    rfl
  have hsize := represents_size c p stamp hr
  -- what is left to do once there is room, in the cache `d` that stands for `r`
  have hstore : ∀ (d : LFUCache K V) (r : Policy K V), d.Listed → 0 ≤ d.curTotalFreq_ →
      d.maxAvgFreq_ = c.maxAvgFreq_ → d.Represents r stamp → d.nodeMap_.lookup key = none →
      ((d.insertNode key value).increaseFreq it >>= fun e =>
        Except.ok { e with minFreq_ := min e.minFreq_ 1 }) = .ok c' →
      ∃ stamp', c'.Represents ((r.touch key value 1).count c.maxAvgFreq_ (c'.keyOrder it))
        stamp' := by
    intro d r hd h0 hM hrep hnone hput
    obtain ⟨e, he, hput⟩ := bind_eq_ok hput
    obtain rfl := Except.ok.inj hput
    have hne : (d.insertNode key value).residents ≠ [] := by
      rw [insertNode_residents d key value hnone]
      exact List.cons_ne_nil _ _
    have hM0 : 0 ≤ (d.insertNode key value).maxAvgFreq_ := hM.symm ▸ h.maxAvg_nonneg
    have hfits : (d.insertNode key value).maxAvgFreq_ ≤ INT_MAX := hM.symm ▸ h.maxAvg_fits
    obtain ⟨stamp', hr'⟩ := increaseFreq_represents (d.insertNode key value) e _ _
      (insertNode_listed d hd key value hnone) hne h0 hM0 hfits
      (insertNode_represents d hd r stamp hrep key value hnone) it he
    change e.Represents (Policy.count d.maxAvgFreq_ (e.keyOrder it) _) stamp' at hr'
    rw [hM] at hr'
    exact ⟨stamp', ⟨hr'.early, hr'.apart, hr'.ordered⟩, hr'.held, hr'.total⟩
  have h0 := (freqSum_nonneg c h.listed).trans h.total
  rw [put_absent c h.capacity_pos key value hkey it] at hc
  by_cases hfull : c.size = c.capacity_
  · rw [if_pos hfull] at hc
    have hmin : c.MinFreq := h.aimed.resolve_right (fun hb => hb.2 ht)
    obtain ⟨n, rest, total, hbucket, hn, hfreq, rfl, hkick⟩ := kickOut_ok c h.listed hmin h.total
      h.total_fits (full_nonempty c h.capacity_pos hfull)
    rw [hkick] at hc
    obtain ⟨gone, hgone⟩ := (mem_residents c n).mp hn
    have hroomy := withoutNode_roomy c h n hn
    have hapart : key ≠ gone := by
      rintro rfl
      exact absurd (hkey.symm.trans hgone) (by simp)
    have hnone : ((c.withoutNode n).setTotal
        (c.curTotalFreq_-(c.nodes n).freq)).nodeMap_.lookup key = none := by
      change (c.nodeMap_.erase (c.nodes n).key).lookup key = none
      rw [h.listed.keys gone n hgone, AList.lookup_erase_ne hapart, hkey]
    obtain ⟨stamp', hr'⟩ := hstore _ _ hroomy.listed
      ((freqSum_nonneg _ hroomy.listed).trans hroomy.total) rfl
      (withoutNode_represents c h.listed p stamp hr gone n hgone) hnone hc
    refine ⟨_, stamp', .replace key value gone _ hheld (hsize.trans hfull) ⟨?_, ?_⟩, hr'⟩
    · rw [hr.held gone, hgone]
      rfl
    · intro k w hw
      rw [hr.held k] at hw
      obtain ⟨m, hm, rfl⟩ := Option.map_eq_some_iff.mp hw
      exact first_least _ _ _ h.listed.filed stamp hr.ordered c.minFreq_ n rest hbucket
        hmin.below m ((mem_residents c m).mpr ⟨k, hm⟩)
  · rw [if_neg hfull] at hc
    obtain ⟨stamp', hr'⟩ := hstore c p h.listed h0 rfl hr hkey hc
    have hroom : p.size < c.capacity_ := hsize ▸ lt_of_le_of_ne h.size_le hfull
    exact ⟨_, stamp', .store key value hheld hroom, hr'⟩

variable [Inhabited V]

theorem apply_represents (c c' : LFUCache K V) (h : c.Sound) (ht : Temperate c.maxAvgFreq_)
    (p : Policy K V) (stamp : ℕ → ℕ) (hr : c.Represents p stamp) (op : CacheOp K V)
    (it : Iteration K) (hc : c.apply op it = .ok c') :
    ∃ q stamp', Policy.Step c.capacity_ c.maxAvgFreq_ (c'.keyOrder it) p op q ∧
      c'.Represents q stamp' := by
  have h0 := (freqSum_nonneg c h.listed).trans h.total
  cases op with
  | put key value =>
    change c.put key value it = .ok c' at hc
    cases hn : c.nodeMap_.lookup key with
    | none => exact put_new_represents c c' h ht p stamp hr key value hn it hc
    | some n =>
      rw [put_present c h.capacity_pos key value n hn it] at hc
      obtain ⟨stamp', hr'⟩ := overwrite_represents c c' h p stamp hr key n hn value it hc
      have hheld := hr.held key
      rw [hn] at hheld
      exact ⟨_, stamp', .change key value _ hheld, hr'⟩
  | get key =>
    change (c.get key it).map Prod.snd = .ok c' at hc
    rw [get_snd] at hc
    have hheld := hr.held key
    cases hn : c.nodeMap_.lookup key with
    | none =>
      rw [hn] at hc hheld
      obtain rfl := Except.ok.inj hc
      exact ⟨p, stamp, .miss key hheld, hr⟩
    | some n =>
      rw [hn] at hc hheld
      obtain ⟨stamp', hr'⟩ := getInternal_represents c c' h.listed (h.aimed.imp id And.left)
        h.minFreq_pos h0 h.maxAvg_nonneg h.maxAvg_fits p stamp hr key n hn it hc
      exact ⟨_, stamp', .hit key _ hheld, hr'⟩
  | purge =>
    obtain rfl := Except.ok.inj hc
    exact ⟨_, stamp, .purge, ⟨fun n hn => absurd hn List.not_mem_nil,
      fun n hn => absurd hn List.not_mem_nil, ordered_empty stamp⟩, fun _ => rfl, hr.total⟩

/-- The operations of a run, each with the order in which the map that it leaves is
iterated: aging comes last and changes no key. -/
def iterated (c : LFUCache K V) : List (CacheOp K V × Iteration K) → List (CacheOp K V × List K)
  | [] => []
  | op::ops =>
    match c.apply op.1 op.2 with
    | .ok c' => (op.1, c'.keyOrder op.2)::c'.iterated ops
    | .error _ => []

theorem applyAll_represents (c c' : LFUCache K V) (h : c.Sound) (ht : Temperate c.maxAvgFreq_)
    (p : Policy K V) (stamp : ℕ → ℕ) (hr : c.Represents p stamp)
    (ops : List (CacheOp K V × Iteration K)) (hc : c.applyAll ops = .ok c') :
    (c.iterated ops).map Prod.fst = ops.map Prod.fst ∧
      ∃ q stamp', Policy.Run c.capacity_ c.maxAvgFreq_ p (c.iterated ops) q ∧
        c'.Represents q stamp' := by
  induction ops generalizing c p stamp with
  | nil =>
    obtain rfl := Except.ok.inj hc
    exact ⟨rfl, p, stamp, .done p, hr⟩
  | cons op ops ih =>
    obtain ⟨d, hd, hc⟩ := bind_eq_ok hc
    have hkept := apply_ends c h op.1 (temperate_sees c h ht op.1) op.2
    rw [hd] at hkept
    obtain ⟨q, stamp', hstep, hq⟩ := apply_represents c d h ht p stamp hr op.1 op.2 hd
    obtain ⟨hops, r, stamp'', hrun, hr'⟩ := ih d hkept.sound (hkept.maxAvg ▸ ht) q stamp' hq hc
    rw [hkept.capacity, hkept.maxAvg] at hrun
    simp only [iterated, hd, List.map_cons, hops, true_and]
    exact ⟨r, stamp'', .next p q r _ _ hstep hrun, hr'⟩

theorem create_represents (capacity : ℕ) (maxAverageNum : ℤ) :
    (create capacity maxAverageNum : LFUCache K V).Represents {} (fun _ => 0) :=
  ⟨⟨fun _ hn => absurd hn List.not_mem_nil, fun _ hn => absurd hn List.not_mem_nil,
    ordered_empty _⟩, fun _ => rfl, rfl⟩

/-- Whatever is put, looked up and purged, in whichever order the map is iterated:
under every key the cache finds what the policy holds after the same operations. -/
theorem applyAll_policy (capacity : ℕ) (hcap : 1 ≤ capacity) (maxAverageNum : ℤ)
    (ht : Temperate maxAverageNum) (ops : List (CacheOp K V × Iteration K)) (c : LFUCache K V)
    (hc : (create capacity maxAverageNum : LFUCache K V).applyAll ops = .ok c) :
    ((create capacity maxAverageNum : LFUCache K V).iterated ops).map Prod.fst =
        ops.map Prod.fst ∧
      ∃ q, Policy.Run capacity maxAverageNum {}
          ((create capacity maxAverageNum : LFUCache K V).iterated ops) q ∧ c.size = q.size ∧
        ∀ key, (c.nodeMap_.lookup key).map (fun n => ((c.nodes n).value, (c.nodes n).freq)) =
            (q.held key).map (fun u => (u.value, u.uses)) ∧
          ∀ it value d, c.get? key it = .ok (value, d) → value = (q.held key).map Use.value := by
  obtain ⟨hops, q, stamp, hrun, hq⟩ := applyAll_represents _ c
    (create_temperate_sound capacity hcap maxAverageNum ht) ht {} _ (create_represents _ _) ops hc
  refine ⟨hops, q, hrun, (represents_size c q stamp hq).symm, fun key => ⟨?_, ?_⟩⟩
  · rw [hq.held key, Option.map_map]
    rfl
  · intro it value d hget
    rw [hq.held key, Option.map_map]
    unfold get? at hget
    cases hn : c.nodeMap_.lookup key with
    | none =>
      rw [hn] at hget
      obtain ⟨rfl, -⟩ := Prod.mk.inj (Except.ok.inj hget)
      rfl
    | some n =>
      rw [hn] at hget
      obtain ⟨e, -, hget⟩ := bind_eq_ok hget
      obtain ⟨rfl, -⟩ := Prod.mk.inj (Except.ok.inj hget)
      rfl

def usedRun : List (CacheOp ℕ ℕ × Iteration ℕ) :=
  [(.put 1 10, .forward), (.put 2 20, .forward), (.get 1, .forward), (.put 3 30, .forward)]

theorem applyAll_policy_used : ∃ (c : LFUCache ℕ ℕ) (q : Policy ℕ ℕ),
    (create 2 10 : LFUCache ℕ ℕ).applyAll usedRun = .ok c ∧
      Policy.Run 2 10 {} ((create 2 10).iterated usedRun) q ∧ q.held 2 = none ∧
      (q.held 1).map Use.uses = some 2 := by
  have hrun : ((create 2 10 : LFUCache ℕ ℕ).applyAll usedRun).map (fun c => [1, 2].map (fun key =>
      (c.nodeMap_.lookup key).map (fun n => ((c.nodes n).value, (c.nodes n).freq)))) =
        .ok [some (10, 2), none] := by
    decide +kernel
  cases hc : (create 2 10 : LFUCache ℕ ℕ).applyAll usedRun with
  | error f => simp [hc, Except.map] at hrun
  | ok c =>
    obtain ⟨-, q, hq, -, hheld⟩ := applyAll_policy 2 (by decide) 10 (by decide) usedRun c hc
    simp only [hc, Except.map, List.map_cons, List.map_nil, (hheld _).1, Except.ok.injEq,
      List.cons.injEq, and_true] at hrun
    refine ⟨c, q, rfl, hq, ?_, ?_⟩
    · exact Option.map_eq_none_iff.mp hrun.2
    · obtain ⟨u, hu, he⟩ := Option.map_eq_some_iff.mp hrun.1
      rw [hu, Option.map_some, (Prod.mk.inj he).2]

end LFUCache
end MuServer
