import Mathlib.Algebra.BigOperators.Group.List.Basic
import Mathlib.Algebra.Order.BigOperators.Group.List
import MuServer.Lib.Fallible
import MuServer.LFU

/-!
# The invariant of the frequency cache

`Listed` is the agreement of the two tables: every resident node is filed once,
under its own frequency. `Sound` adds that `minFreq_` is the least frequency of
a resident and what keeps it so. After an aging pass the scan for the least
frequency sees only those below `INT8_MAX`; where it finds none the cache is
blind until the next insertion. With a `Temperate` bound it never is.
-/

set_option autoImplicit false

namespace MuServer
open Lib.Filing Lib.Fallible

namespace LFUCache

variable {K V : Type} [DecidableEq K]

def residents (c : LFUCache K V) : List ℕ := c.nodeMap_.entries.map Sigma.snd

def freqSum (c : LFUCache K V) : ℤ := (c.residents.map (fun n => (c.nodes n).freq)).sum

structure Listed (c : LFUCache K V) : Prop where
  filed : Filed c.freqToFreqList_ (fun n => (c.nodes n).freq) {n | n ∈ c.residents}
  keys : ∀ key n, c.nodeMap_.lookup key = some n → (c.nodes n).key = key
  made : ∀ n ∈ c.residents, n < c.made
  positive : ∀ n ∈ c.residents, 1 ≤ (c.nodes n).freq
  fits : ∀ n ∈ c.residents, (c.nodes n).freq ≤ INT_MAX

structure MinFreq (c : LFUCache K V) : Prop where
  attained : c.residents ≠ [] → ∃ n ∈ c.residents, (c.nodes n).freq = c.minFreq_
  below : ∀ n ∈ c.residents, c.minFreq_ ≤ (c.nodes n).freq

/-- Every frequency is beyond the scan, and `minFreq_` is what the scan makes
of that. -/
structure Blind (c : LFUCache K V) : Prop where
  minFreq : c.minFreq_ = 1
  beyond : ∀ n ∈ c.residents, INT8_MAX ≤ (c.nodes n).freq

def Scanned (c : LFUCache K V) : Prop :=
  (∃ n ∈ c.residents, (c.nodes n).freq < INT8_MAX) ∧ c.MinFreq ∨ c.Blind

def Temperate (maxAvgFreq : ℤ) : Prop := 2 ≤ maxAvgFreq ∧ maxAvgFreq ≤ 250

instance (maxAvgFreq : ℤ) : Decidable (Temperate maxAvgFreq) :=
  inferInstanceAs (Decidable (_ ∧ _))

def Aimed (c : LFUCache K V) : Prop := c.MinFreq ∨ c.Blind ∧ ¬Temperate c.maxAvgFreq_

structure Sound (c : LFUCache K V) : Prop where
  listed : c.Listed
  aimed : c.Aimed
  minFreq_pos : 1 ≤ c.minFreq_
  low : Temperate c.maxAvgFreq_ → c.residents ≠ [] →
    ∃ n ∈ c.residents, (c.nodes n).freq ≤ c.maxAvgFreq_
  total : c.freqSum ≤ c.curTotalFreq_
  total_fits : c.curTotalFreq_ ≤ INT_MAX
  size_le : c.size ≤ c.capacity_
  capacity_pos : 1 ≤ c.capacity_
  maxAvg_nonneg : 0 ≤ c.maxAvgFreq_
  maxAvg_fits : c.maxAvgFreq_ ≤ INT_MAX

theorem mem_residents (c : LFUCache K V) (n : ℕ) :
    n ∈ c.residents ↔ ∃ key, c.nodeMap_.lookup key = some n := by
  unfold residents
  rw [List.mem_map]
  constructor
  · rintro ⟨⟨key, m⟩, he, rfl⟩
    exact ⟨key, AList.mem_lookup_iff.mpr he⟩
  · rintro ⟨key, h⟩
    exact ⟨⟨key, n⟩, AList.mem_lookup_iff.mp h, rfl⟩

theorem residents_nodup (c : LFUCache K V)
    (h : ∀ key n, c.nodeMap_.lookup key = some n → (c.nodes n).key = key) :
    c.residents.Nodup := by
  have hk : c.residents.map (fun n => (c.nodes n).key) = c.nodeMap_.keys := by
    unfold residents
    rw [List.map_map]
    apply List.map_congr_left
    intro e he
    exact h e.1 e.2 (AList.mem_lookup_iff.mpr he)
  apply List.Nodup.of_map (fun n => (c.nodes n).key)
  rw [hk]
  exact c.nodeMap_.keys_nodup

omit [DecidableEq K] in
theorem length_residents (c : LFUCache K V) : c.residents.length = c.size := by
  rw [residents, List.length_map, size]

def moved (c : LFUCache K V) (n : ℕ) (freq : ℤ) : LFUCache K V :=
  ({ c with freqToFreqList_ := remove c.freqToFreqList_ (c.nodes n).freq n }.setFreq n
    freq).addToFreqList n

omit [DecidableEq K] in
theorem moved_nodes (c : LFUCache K V) (n m : ℕ) (freq : ℤ) :
    (c.moved n freq).nodes m = if m = n then { c.nodes n with freq := freq } else c.nodes m := by
  simp only [moved, addToFreqList, setFreq, setNode, Function.update_apply]

theorem removeFromFreqList_ok (c : LFUCache K V) (h : c.Listed) (n : ℕ) (hn : n ∈ c.residents) :
    c.removeFromFreqList n =
      .ok { c with freqToFreqList_ := remove c.freqToFreqList_ (c.nodes n).freq n } := by
  have hl := filed_lookup _ _ _ h.filed n hn
  simp only [removeFromFreqList, freqList, hl]
  rfl

theorem moved_listed (c : LFUCache K V) (h : c.Listed) (n : ℕ) (hn : n ∈ c.residents) (freq : ℤ)
    (hpos : 1 ≤ freq) (hfits : freq ≤ INT_MAX) : (c.moved n freq).Listed where
  filed := by
    have hm := filed_move _ _ _ h.filed n hn freq
    have hi : (fun m => ((c.moved n freq).nodes m).freq) =
        Function.update (fun m => (c.nodes m).freq) n freq := by
      funext m
      rw [moved_nodes, Function.update_apply]
      split <;> rfl
    rw [hi]
    have hnode : (({ c with
        freqToFreqList_ := remove c.freqToFreqList_ (c.nodes n).freq n }.setFreq n
          freq).nodes n).freq = freq := by
      simp [setFreq, setNode]
    simp only [moved, addToFreqList, hnode]
    exact hm
  keys := by
    intro key m hm
    rw [moved_nodes]
    split
    · rename_i he
      exact he ▸ h.keys key m hm
    · exact h.keys key m hm
  made := h.made
  positive := by
    intro m hm
    rw [moved_nodes]
    split
    · exact hpos
    · exact h.positive m hm
  fits := by
    intro m hm
    rw [moved_nodes]
    split
    · exact hfits
    · exact h.fits m hm

structure Tended (c c' : LFUCache K V) : Prop where
  capacity : c'.capacity_ = c.capacity_
  maxAvg : c'.maxAvgFreq_ = c.maxAvgFreq_
  nodeMap : c'.nodeMap_ = c.nodeMap_
  made : c'.made = c.made
  key : ∀ n, (c'.nodes n).key = (c.nodes n).key
  value : ∀ n, (c'.nodes n).value = (c.nodes n).value

omit [DecidableEq K] in
theorem Tended.refl (c : LFUCache K V) : Tended c c :=
  ⟨rfl, rfl, rfl, rfl, fun _ => rfl, fun _ => rfl⟩

omit [DecidableEq K] in
theorem Tended.trans {c d e : LFUCache K V} (h : Tended c d) (h' : Tended d e) : Tended c e where
  capacity := h'.capacity.trans h.capacity
  maxAvg := h'.maxAvg.trans h.maxAvg
  nodeMap := h'.nodeMap.trans h.nodeMap
  made := h'.made.trans h.made
  key := fun n => (h'.key n).trans (h.key n)
  value := fun n => (h'.value n).trans (h.value n)

omit [DecidableEq K] in
theorem Tended.residents {c c' : LFUCache K V} (h : Tended c c') : c'.residents = c.residents := by
  simp only [LFUCache.residents, h.nodeMap]

omit [DecidableEq K] in
theorem Tended.size {c c' : LFUCache K V} (h : Tended c c') : c'.size = c.size := by
  simp only [LFUCache.size, h.nodeMap]

theorem Tended.valueOf {c c' : LFUCache K V} (h : Tended c c') (key : K) :
    c'.valueOf key = c.valueOf key := by
  simp only [LFUCache.valueOf, h.nodeMap, h.value]

omit [DecidableEq K] in
theorem moved_tended (c : LFUCache K V) (n : ℕ) (freq : ℤ) : Tended c (c.moved n freq) where
  capacity := rfl
  maxAvg := rfl
  nodeMap := rfl
  made := rfl
  key := by
    intro m
    rw [moved_nodes]
    split
    · rename_i he
      rw [he]
    · rfl
  value := by
    intro m
    rw [moved_nodes]
    split
    · rename_i he
      rw [he]
    · rfl

/-- Aging takes half the bound from every frequency, down to one at most, and
keeps the counters. -/
structure Aged (c c' : LFUCache K V) : Prop extends Tended c c' where
  listed : c'.Listed
  total : c'.curTotalFreq_ = c.curTotalFreq_
  avg : c'.curAvgFreq_ = c.curAvgFreq_
  freq : ∀ n ∈ c.residents, (c'.nodes n).freq = max 1 ((c.nodes n).freq-c.maxAvgFreq_/2)

theorem ageNode_ok (c : LFUCache K V) (h : c.Listed) (h0 : 0 ≤ c.maxAvgFreq_)
    (hmax : c.maxAvgFreq_ ≤ INT_MAX) (n : ℕ) (hn : n ∈ c.residents) :
    c.ageNode n = .ok (c.moved n (max 1 ((c.nodes n).freq-c.maxAvgFreq_/2))) := by
  have hpos := h.positive n hn
  have hfits := h.fits n hn
  have hsub : subtract (c.nodes n).freq (c.maxAvgFreq_.tdiv 2) =
      .ok ((c.nodes n).freq-c.maxAvgFreq_/2) := by
    rw [Int.tdiv_eq_ediv_of_nonneg h0, subtract, if_pos]
    simp only [INT_MAX] at hfits hmax ⊢
    omega
  have hlt : (if (c.nodes n).freq-c.maxAvgFreq_/2 < 1 then 1
      else (c.nodes n).freq-c.maxAvgFreq_/2) = max 1 ((c.nodes n).freq-c.maxAvgFreq_/2) := by
    rw [max_def]
    split_ifs <;> omega
  simp only [ageNode, removeFromFreqList_ok c h n hn, bind, Except.bind, hsub]
  change Except.ok (LFUCache.addToFreqList (LFUCache.setFreq _ n (if _ then _ else _)) n) = _
  rw [hlt]
  rfl

theorem ageNodes_ok (c : LFUCache K V) (h : c.Listed) (h0 : 0 ≤ c.maxAvgFreq_)
    (hmax : c.maxAvgFreq_ ≤ INT_MAX) (ns : List ℕ) (hnd : ns.Nodup)
    (hns : ∀ n ∈ ns, n ∈ c.residents) :
    ∃ c', c.ageNodes ns = .ok c' ∧ c'.Listed ∧ Tended c c' ∧
      c'.curTotalFreq_ = c.curTotalFreq_ ∧ c'.curAvgFreq_ = c.curAvgFreq_ ∧
      ∀ n, (c'.nodes n).freq =
        if n ∈ ns then max 1 ((c.nodes n).freq-c.maxAvgFreq_/2) else (c.nodes n).freq := by
  induction ns generalizing c with
  | nil => exact ⟨c, rfl, h, Tended.refl c, rfl, rfl, by simp⟩
  | cons n ns ih =>
    have hn := hns n List.mem_cons_self
    have hpos := h.positive n hn
    have hfits := h.fits n hn
    have hstep := ageNode_ok c h h0 hmax n hn
    generalize hf : max 1 ((c.nodes n).freq-c.maxAvgFreq_/2) = f at hstep
    have hlist := moved_listed c h n hn f (by omega) (by omega)
    obtain ⟨c', hc', hl', htend, htotal, havg, hfreq⟩ := ih (c.moved n f) hlist h0 hmax
      (List.nodup_cons.mp hnd).2 (fun m hm => hns m (List.mem_cons_of_mem n hm))
    refine ⟨c', ?_, hl', (moved_tended c n f).trans htend, htotal, havg, ?_⟩
    · simp only [ageNodes, hstep, bind, Except.bind, hc']
    · intro m
      rw [hfreq, moved_nodes]
      by_cases hm : m = n
      · subst hm
        rw [if_neg (List.nodup_cons.mp hnd).1, if_pos rfl, if_pos List.mem_cons_self, hf]
      · simp only [List.mem_cons, hm, false_or]
        rfl

omit [DecidableEq K] in
theorem updateMinFreq_tended (c : LFUCache K V) : Tended c c.updateMinFreq :=
  ⟨rfl, rfl, rfl, rfl, fun _ => rfl, fun _ => rfl⟩

theorem updateMinFreq_sees (c : LFUCache K V) (h : c.Listed) (n : ℕ) (hn : n ∈ c.residents)
    (hlow : (c.nodes n).freq < INT8_MAX) :
    c.updateMinFreq.MinFreq ∧ 1 ≤ c.updateMinFreq.minFreq_ := by
  obtain ⟨⟨m, hm, hleast⟩, hbelow⟩ := least_filed _ _ _ h.filed INT8_MAX n hn hlow
  have hmin : c.updateMinFreq.minFreq_ = (c.nodes m).freq := by
    have hne : least c.freqToFreqList_ INT8_MAX ≠ INT8_MAX :=
      ne_of_lt (lt_of_le_of_lt (hbelow n hn) hlow)
    rw [updateMinFreq, hleast, if_neg hne]
  refine ⟨⟨fun _ => ⟨m, hm, hmin.symm⟩, ?_⟩, hmin ▸ h.positive m hm⟩
  intro k hk
  rw [hmin]
  exact hleast ▸ hbelow k hk

theorem updateMinFreq_misses (c : LFUCache K V) (h : c.Listed)
    (hall : ∀ n ∈ c.residents, INT8_MAX ≤ (c.nodes n).freq) : c.updateMinFreq.Blind := by
  refine ⟨?_, hall⟩
  have hleast := least_filed_top _ _ _ h.filed INT8_MAX hall
  rw [updateMinFreq, hleast, if_pos rfl]

/-- The aging pass brings the lists and `minFreq_` back into agreement, unless
it leaves the cache blind. -/
theorem handleOverMaxAverageNum_ok (c : LFUCache K V) (h : c.Listed) (h0 : 0 ≤ c.maxAvgFreq_)
    (hmax : c.maxAvgFreq_ ≤ INT_MAX) (hne : c.residents ≠ []) (it : Iteration K) :
    ∃ c', c.handleOverMaxAverageNum it = .ok c' ∧ Aged c c' ∧ 1 ≤ c'.minFreq_ ∧
      c'.Scanned := by
  have hperm := (it.perm c.nodeMap_.entries).map Sigma.snd
  have hmem : ∀ m, m ∈ (it.order c.nodeMap_.entries).map Sigma.snd ↔ m ∈ c.residents :=
    fun m => hperm.mem_iff
  have hentries : c.nodeMap_.entries ≠ [] := by
    intro he
    exact hne (by simp [residents, he])
  obtain ⟨d, hd, hlist, htend, htotal, havg, hfreq⟩ := ageNodes_ok c h h0 hmax _
    (hperm.nodup_iff.mpr (residents_nodup c h.keys)) (fun m hm => (hmem m).mp hm)
  have haged : Aged c d.updateMinFreq := {
    toTended := htend.trans (updateMinFreq_tended d)
    listed := ⟨hlist.filed, hlist.keys, hlist.made, hlist.positive, hlist.fits⟩
    total := htotal
    avg := havg
    freq := fun n hn => (hfreq n).trans (if_pos ((hmem n).mpr hn)) }
  refine ⟨d.updateMinFreq, ?_, haged, ?_⟩
  · simp only [handleOverMaxAverageNum, if_neg hentries, hd, bind, Except.bind]
  · by_cases hsees : ∃ n ∈ d.residents, (d.nodes n).freq < INT8_MAX
    · obtain ⟨n, hn, hlow⟩ := hsees
      obtain ⟨hmin, hpos⟩ := updateMinFreq_sees d hlist n hn hlow
      exact ⟨hpos, Or.inl ⟨⟨n, hn, hlow⟩, hmin⟩⟩
    · have hblind := updateMinFreq_misses d hlist
        (fun n hn => not_lt.mp (fun hlt => hsees ⟨n, hn, hlt⟩))
      exact ⟨hblind.minFreq.ge, Or.inr hblind⟩

theorem freqSum_moved (c : LFUCache K V) (h : c.Listed) (n : ℕ) (hn : n ∈ c.residents) (freq : ℤ) :
    (c.moved n freq).freqSum = c.freqSum-(c.nodes n).freq+freq := by
  have hnd := residents_nodup c h.keys
  have hperm := List.perm_cons_erase hn
  have hother : (c.residents.erase n).map (fun m => ((c.moved n freq).nodes m).freq) =
      (c.residents.erase n).map (fun m => (c.nodes m).freq) := by
    apply List.map_congr_left
    intro m hm
    rw [moved_nodes, if_neg]
    rintro rfl
    exact hnd.not_mem_erase hm
  have hself : ((c.moved n freq).nodes n).freq = freq := by rw [moved_nodes, if_pos rfl]
  have hres : (c.moved n freq).residents = c.residents := (moved_tended c n freq).residents
  rw [freqSum, freqSum, hres, (hperm.map _).sum_eq, (hperm.map (fun m => (c.nodes m).freq)).sum_eq,
    List.map_cons, List.map_cons, List.sum_cons, List.sum_cons, hother, hself]
  omega

theorem Aged.lower {c c' : LFUCache K V} (h : Aged c c') (hl : c.Listed)
    (h0 : 0 ≤ c.maxAvgFreq_) (n : ℕ) (hn : n ∈ c.residents) :
    (c'.nodes n).freq ≤ (c.nodes n).freq := by
  have hpos := hl.positive n hn
  rw [h.freq n hn]
  omega

theorem freqSum_aged (c c' : LFUCache K V) (h : Aged c c') (hl : c.Listed)
    (h0 : 0 ≤ c.maxAvgFreq_) : c'.freqSum ≤ c.freqSum := by
  rw [freqSum, freqSum, h.residents]
  exact List.sum_le_sum (h.lower hl h0)

theorem freq_le_freqSum (c : LFUCache K V) (h : c.Listed) (n : ℕ) (hn : n ∈ c.residents) :
    (c.nodes n).freq ≤ c.freqSum := by
  apply List.single_le_sum
  · intro x hx
    obtain ⟨m, hm, rfl⟩ := List.mem_map.mp hx
    exact le_trans (by decide) (h.positive m hm)
  · exact List.mem_map_of_mem hn

theorem freqSum_nonneg (c : LFUCache K V) (h : c.Listed) : 0 ≤ c.freqSum := by
  apply List.sum_nonneg
  intro x hx
  obtain ⟨m, hm, rfl⟩ := List.mem_map.mp hx
  exact le_trans (by decide) (h.positive m hm)

theorem toSize_nonneg (total : ℤ) (h0 : 0 ≤ total) (hmax : total ≤ INT_MAX) :
    toSize total = total.toNat := by
  have hlt : total < 2^64 := lt_of_le_of_lt hmax (by norm_num [INT_MAX])
  unfold toSize
  rw [Int.emod_eq_of_lt h0 hlt]

theorem average_eq (total : ℤ) (size : ℕ) (h0 : 0 ≤ total) (hmax : total ≤ INT_MAX) :
    average total size = total/size := by
  have hcast : ((total.toNat/size : ℕ) : ℤ) = total/size := by
    rw [Int.natCast_ediv, Int.toNat_of_nonneg h0]
  have hle : total/size ≤ total := Int.ediv_le_self _ h0
  have hnn : 0 ≤ total/size := Int.ediv_nonneg h0 (Int.natCast_nonneg _)
  unfold average
  rw [toSize_nonneg total h0 hmax, hcast]
  simp only [INT_MAX] at hmax
  apply Int.bmod_eq_of_le
  · omega
  · omega

omit [DecidableEq K] in
theorem size_pos (c : LFUCache K V) (hne : c.residents ≠ []) : 0 < (c.size : ℤ) := by
  have hpos := List.length_pos_of_ne_nil hne
  rw [length_residents] at hpos
  omega

omit [DecidableEq K] in
theorem average_gt_iff (c : LFUCache K V) (hne : c.residents ≠ []) (total bound : ℤ)
    (h0 : 0 ≤ total) (hmax : total ≤ INT_MAX) :
    bound < average total c.size ↔ (bound+1)*c.size ≤ total := by
  rw [average_eq _ _ h0 hmax, ← Int.add_one_le_iff, Int.le_ediv_iff_mul_le (size_pos c hne)]

omit [DecidableEq K] in
theorem sum_bounds (c : LFUCache K V) (bound : ℤ) :
    (c.residents.map (fun _ => bound)).sum = bound*c.size := by
  rw [List.map_const', List.sum_replicate, length_residents, nsmul_eq_mul, mul_comm]

omit [DecidableEq K] in
/-- A total below a bound for each resident leaves some frequency below it. -/
theorem low_of_total (c : LFUCache K V) (bound : ℤ) (hsum : c.freqSum < bound*c.size) :
    ∃ n ∈ c.residents, (c.nodes n).freq < bound := by
  obtain ⟨n, hn, hlt⟩ := List.exists_lt_of_sum_lt (fun n => (c.nodes n).freq) (fun _ => bound)
    (l := c.residents) (by rwa [sum_bounds])
  exact ⟨n, hn, hlt⟩

omit [DecidableEq K] in
theorem total_of_high (c : LFUCache K V) (bound : ℤ)
    (hall : ∀ n ∈ c.residents, bound ≤ (c.nodes n).freq) : bound*c.size ≤ c.freqSum := by
  have hs := List.sum_le_sum (f := fun _ => bound) hall
  rwa [sum_bounds] at hs

omit [DecidableEq K] in
theorem total_of_low (c : LFUCache K V) (bound : ℤ)
    (hall : ∀ n ∈ c.residents, (c.nodes n).freq ≤ bound) : c.freqSum ≤ bound*c.size := by
  have hs := List.sum_le_sum (g := fun _ => bound) hall
  rwa [sum_bounds] at hs

omit [DecidableEq K] in
theorem total_of_lower (c : LFUCache K V) (bound : ℤ)
    (hall : ∀ n ∈ c.residents, (c.nodes n).freq ≤ bound)
    (hlower : ∃ n ∈ c.residents, (c.nodes n).freq < bound) : c.freqSum < bound*c.size := by
  have hs := List.sum_lt_sum (f := fun n => (c.nodes n).freq) (g := fun _ => bound) hall hlower
  rwa [sum_bounds] at hs

end LFUCache
end MuServer
