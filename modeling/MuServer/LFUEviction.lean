import MuServer.LFUOperations

/-!
# Evictions and runs of the frequency cache

A full cache gives up the head of the list of `minFreq_`, which the invariant
makes a resident of least frequency. Every run of operations keeps the
invariant or ends in the overflow of a counter, and a run shorter than the
range of `int` does not.
-/

set_option autoImplicit false

namespace MuServer
open Lib.Filing Lib.Fallible

namespace LFUCache

variable {K V : Type} [DecidableEq K]

theorem erase_perm (m : NodeMap K) (key : K) (n : ℕ) (h : m.lookup key = some n) :
    m.entries.Perm (⟨key, n⟩::(m.erase key).entries) := by
  have hmem : key ∈ m.entries.keys := AList.lookup_isSome.mp (by rw [h]; rfl)
  obtain ⟨n', before, after, hbefore, hentries, herase⟩ := List.exists_of_kerase hmem
  have hn : m.lookup key = some n' := by
    rw [← Option.mem_def, AList.mem_lookup_iff, hentries]
    simp
  obtain rfl : n' = n := Option.some.inj (hn.symm.trans h)
  change m.entries.Perm (⟨key, n'⟩::List.kerase key m.entries)
  rw [herase, hentries]
  exact List.perm_middle

def withoutNode (c : LFUCache K V) (n : ℕ) : LFUCache K V :=
  { c with
    freqToFreqList_ := remove c.freqToFreqList_ (c.nodes n).freq n
    nodeMap_ := c.nodeMap_.erase (c.nodes n).key }

theorem withoutNode_residents (c : LFUCache K V) (h : c.Listed) (n : ℕ) (hn : n ∈ c.residents) :
    c.residents.Perm (n::(c.withoutNode n).residents) := by
  obtain ⟨key, hl⟩ := (mem_residents c n).mp hn
  have hkey := h.keys key n hl
  have hp := erase_perm c.nodeMap_ key n hl
  subst hkey
  exact hp.map Sigma.snd

theorem lookup_of_erase (m : NodeMap K) (key k : K) (n : ℕ) (h : (m.erase key).lookup k = some n) :
    k ≠ key ∧ m.lookup k = some n := by
  have hk : k ≠ key := by
    rintro rfl
    exact absurd ((AList.lookup_erase _ _).symm.trans h) (by simp)
  exact ⟨hk, (AList.lookup_erase_ne hk).symm.trans h⟩

theorem withoutNode_listed (c : LFUCache K V) (h : c.Listed) (n : ℕ) (hn : n ∈ c.residents) :
    (c.withoutNode n).Listed := by
  have hperm := withoutNode_residents c h n hn
  have hnd := hperm.nodup_iff.mp (residents_nodup c h.keys)
  have hsub : ∀ m ∈ (c.withoutNode n).residents, m ∈ c.residents :=
    fun m hm => hperm.mem_iff.mpr (List.mem_cons_of_mem n hm)
  constructor
  · have hs : {m | m ∈ (c.withoutNode n).residents} = {m | m ∈ c.residents} \ {n} := by
      ext m
      simp only [Set.mem_ofPred_eq, Set.mem_sdiff, Set.mem_singleton_iff, hperm.mem_iff,
        List.mem_cons]
      constructor
      · exact fun hm => ⟨Or.inr hm, fun he => (List.nodup_cons.mp hnd).1 (he ▸ hm)⟩
      · exact fun hm => hm.1.resolve_left hm.2
    rw [hs]
    exact filed_remove _ _ _ h.filed n
  · exact fun key m hl => h.keys key m (lookup_of_erase c.nodeMap_ _ key m hl).2
  · exact fun m hm => h.made m (hsub m hm)
  · exact fun m hm => h.positive m (hsub m hm)
  · exact fun m hm => h.fits m (hsub m hm)

theorem withoutNode_freqSum (c : LFUCache K V) (h : c.Listed) (n : ℕ) (hn : n ∈ c.residents) :
    (c.withoutNode n).freqSum = c.freqSum-(c.nodes n).freq := by
  have hp := (withoutNode_residents c h n hn).map (fun m => (c.nodes m).freq)
  rw [freqSum, freqSum, hp.sum_eq, List.map_cons, List.sum_cons]
  change (List.map (fun m => (c.nodes m).freq) _).sum = _
  omega

theorem withoutNode_size (c : LFUCache K V) (h : c.Listed) (n : ℕ) (hn : n ∈ c.residents) :
    (c.withoutNode n).size+1 = c.size := by
  have hl := (withoutNode_residents c h n hn).length_eq
  rw [List.length_cons, length_residents, length_residents] at hl
  exact hl.symm

theorem withoutNode_valueOf (c : LFUCache K V) (n : ℕ) (key : K) :
    (c.withoutNode n).valueOf key = if key = (c.nodes n).key then none else c.valueOf key := by
  unfold valueOf
  change ((c.nodeMap_.erase (c.nodes n).key).lookup key).map (fun m => (c.nodes m).value) = _
  by_cases hk : key = (c.nodes n).key
  · rw [if_pos hk, hk, AList.lookup_erase]
    rfl
  · rw [if_neg hk, AList.lookup_erase_ne hk]

variable [Inhabited K]

theorem kickOut_ok (c : LFUCache K V) (h : c.Listed) (hmin : c.MinFreq)
    (htotal : c.freqSum ≤ c.curTotalFreq_) (hfits : c.curTotalFreq_ ≤ INT_MAX)
    (hne : c.residents ≠ []) :
    ∃ n rest total, bucket c.freqToFreqList_ c.minFreq_ = n::rest ∧ n ∈ c.residents ∧
      (c.nodes n).freq = c.minFreq_ ∧ total = c.curTotalFreq_-(c.nodes n).freq ∧
      c.kickOut = .ok ((c.withoutNode n).setTotal total) := by
  obtain ⟨m, hm, hmfreq⟩ := hmin.attained hne
  have hlook := filed_lookup _ _ _ h.filed m hm
  have hmem := (h.filed.mem c.minFreq_ m).mpr ⟨hm, hmfreq⟩
  rw [hmfreq] at hlook
  obtain ⟨n, rest, hbucket⟩ := List.exists_cons_of_ne_nil (List.ne_nil_of_mem hmem)
  have hn := (h.filed.mem c.minFreq_ n).mp (by rw [hbucket]; exact List.mem_cons_self)
  have hfreq := (freq_le_freqSum c h n hn.1).trans htotal
  have hpos := h.positive n hn.1
  have hsub : subtract c.curTotalFreq_ (c.nodes n).freq =
      .ok (c.curTotalFreq_-(c.nodes n).freq) := by
    unfold subtract
    rw [if_pos]
    simp only [INT_MAX] at hfits ⊢
    omega
  refine ⟨n, rest, _, hbucket, hn.1, hn.2, rfl, ?_⟩
  rw [kickOut, freqList, hlook, hbucket]
  change (c.removeFromFreqList n >>= _) = _
  rw [removeFromFreqList_ok c h n hn.1]
  change (subtract c.curTotalFreq_ (c.nodes n).freq >>= _) = _
  rw [hsub]
  rfl

omit [Inhabited K] in
theorem withoutNode_roomy (c : LFUCache K V) (h : c.Sound) (n : ℕ) (hn : n ∈ c.residents) :
    ((c.withoutNode n).setTotal (c.curTotalFreq_-(c.nodes n).freq)).Roomy := by
  have hlist := withoutNode_listed c h.listed n hn
  have hsize := withoutNode_size c h.listed n hn
  have hpos := h.listed.positive n hn
  have hsum := h.total
  have hmax := h.total_fits
  exact {
    listed := ⟨hlist.filed, hlist.keys, hlist.made, hlist.positive, hlist.fits⟩
    minFreq_pos := h.minFreq_pos
    total := by
      rw [setTotal_freqSum, withoutNode_freqSum c h.listed n hn]
      change c.freqSum-(c.nodes n).freq ≤ c.curTotalFreq_-(c.nodes n).freq
      omega
    total_fits := by
      change c.curTotalFreq_-(c.nodes n).freq ≤ INT_MAX
      omega
    size_lt := by
      have hle := h.size_le
      change (c.withoutNode n).size < c.capacity_
      omega
    maxAvg_nonneg := h.maxAvg_nonneg
    maxAvg_fits := h.maxAvg_fits }

/-- What a miss does to a full cache: one resident goes, of least frequency
and first in its list, and every other key keeps its value. -/
structure Evicts (c : LFUCache K V) (key : K) (value : V) (c' : LFUCache K V) : Prop where
  victim : ∃ gone n rest, c.nodeMap_.lookup gone = some n ∧
    bucket c.freqToFreqList_ c.minFreq_ = n::rest ∧
    (∀ other m, c.nodeMap_.lookup other = some m → (c.nodes n).freq ≤ (c.nodes m).freq) ∧
    c'.valueOf gone = none ∧ ∀ k, k ≠ gone → k ≠ key → c'.valueOf k = c.valueOf k
  stored : c'.valueOf key = some value

theorem put_present (c : LFUCache K V) (h : 1 ≤ c.capacity_) (key : K) (value : V) (n : ℕ)
    (hkey : c.nodeMap_.lookup key = some n) (it : Iteration K) :
    c.put key value it = (c.setNode n { c.nodes n with value := value }).getInternal n it := by
  unfold put
  rw [if_neg (Nat.ne_of_gt h), hkey]

theorem put_absent (c : LFUCache K V) (h : 1 ≤ c.capacity_) (key : K) (value : V)
    (hkey : c.nodeMap_.lookup key = none) (it : Iteration K) :
    c.put key value it =
      (if c.size = c.capacity_ then c.kickOut else .ok c) >>= fun d =>
        (d.insertNode key value).increaseFreq it >>= fun e =>
          .ok { e with minFreq_ := min e.minFreq_ 1 } := by
  unfold put
  rw [if_neg (Nat.ne_of_gt h), hkey]
  exact putInternal_eq c key value it

omit [DecidableEq K] [Inhabited K] in
theorem full_nonempty (c : LFUCache K V) (hcap : 1 ≤ c.capacity_) (hfull : c.size = c.capacity_) :
    c.residents ≠ [] := by
  intro he
  have hl := length_residents c
  rw [he, List.length_nil] at hl
  omega

theorem put_full (c : LFUCache K V) (h : c.Sound) (hmin : c.MinFreq) (key : K) (value : V)
    (it : Iteration K) (hkey : c.nodeMap_.lookup key = none) (hfull : c.size = c.capacity_) :
    ∃ c', c.put key value it = .ok c' ∧ c'.Sound ∧ c'.capacity_ = c.capacity_ ∧
      c'.maxAvgFreq_ = c.maxAvgFreq_ ∧ c'.curTotalFreq_ ≤ c.curTotalFreq_ ∧
      Evicts c key value c' := by
  have hne := full_nonempty c h.capacity_pos hfull
  obtain ⟨n, rest, total, hbucket, hn, hfreq, rfl, hkick⟩ :=
    kickOut_ok c h.listed hmin h.total h.total_fits hne
  obtain ⟨gone, hgone⟩ := (mem_residents c n).mp hn
  have hgonekey := h.listed.keys gone n hgone
  have hne' : key ≠ gone := by
    rintro rfl
    rw [hkey] at hgone
    exact absurd hgone (by simp)
  have hroomy := withoutNode_roomy c h n hn
  have hpos := h.listed.positive n hn
  have hmax := h.total_fits
  have hput := put_absent c h.capacity_pos key value hkey it
  rw [if_pos hfull, hkick] at hput
  have hlook : ((c.withoutNode n).setTotal
      (c.curTotalFreq_-(c.nodes n).freq)).nodeMap_.lookup key = none := by
    change (c.nodeMap_.erase (c.nodes n).key).lookup key = none
    rw [hgonekey, AList.lookup_erase_ne hne', hkey]
  obtain ⟨c', hc', hstored⟩ := ends_exists (insertNode_ends _ hroomy key value hlook it) (by
    rintro f ⟨-, he⟩
    change c.curTotalFreq_-(c.nodes n).freq = INT_MAX at he
    omega)
  have hvalue : ∀ k, c'.valueOf k =
      if k = key then some value else if k = gone then none else c.valueOf k := by
    intro k
    rw [hstored.valueOf, (setTotal_tended (c.withoutNode n) _).valueOf, withoutNode_valueOf,
      hgonekey]
  refine ⟨c', hput.trans hc', hstored.sound, hstored.capacity, hstored.maxAvg, ?_,
    ⟨gone, n, rest, hgone, hbucket, ?_, ?_, ?_⟩, ?_⟩
  · rw [hstored.total]
    change c.curTotalFreq_-(c.nodes n).freq+1 ≤ c.curTotalFreq_
    omega
  · intro other m hm
    rw [hfreq]
    exact hmin.below m ((mem_residents c m).mpr ⟨other, hm⟩)
  · rw [hvalue, if_neg hne'.symm, if_pos rfl]
  · intro k hk hkey'
    rw [hvalue, if_neg hkey', if_neg hk]
  · rw [hvalue, if_pos rfl]

def Sees (c : LFUCache K V) : CacheOp K V → Prop
  | .put key _ => c.nodeMap_.lookup key = none → c.size = c.capacity_ →
      bucket c.freqToFreqList_ c.minFreq_ ≠ []
  | _ => True

omit [Inhabited K] in
theorem sees_minFreq (c : LFUCache K V) (h : c.Sound)
    (hne : bucket c.freqToFreqList_ c.minFreq_ ≠ []) : c.MinFreq := by
  refine h.aimed.resolve_right ?_
  rintro ⟨hblind, -⟩
  obtain ⟨n, hn⟩ := List.exists_mem_of_ne_nil _ hne
  obtain ⟨hres, hfreq⟩ := (h.listed.filed.mem c.minFreq_ n).mp hn
  have hb := hblind.beyond n hres
  rw [hfreq, hblind.minFreq] at hb
  exact absurd hb (by decide)

omit [Inhabited K] in
theorem temperate_sees (c : LFUCache K V) (h : c.Sound) (ht : Temperate c.maxAvgFreq_)
    (op : CacheOp K V) : c.Sees op := by
  cases op with
  | put key value =>
    intro _ hfull
    have hmin : c.MinFreq := h.aimed.resolve_right (fun hb => hb.2 ht)
    obtain ⟨n, hn, hfreq⟩ := hmin.attained (full_nonempty c h.capacity_pos hfull)
    exact List.ne_nil_of_mem ((h.listed.filed.mem c.minFreq_ n).mpr ⟨hn, hfreq⟩)
  | get key => trivial
  | purge => trivial

structure Kept (c c' : LFUCache K V) : Prop where
  sound : c'.Sound
  capacity : c'.capacity_ = c.capacity_
  maxAvg : c'.maxAvgFreq_ = c.maxAvgFreq_
  total : c'.curTotalFreq_ ≤ c.curTotalFreq_+1

omit [Inhabited K] in
theorem setValue_sound (c : LFUCache K V) (h : c.Sound) (n : ℕ) (value : V) :
    (c.setNode n { c.nodes n with value := value }).Sound := by
  have hfreq : ∀ m, ((c.setNode n { c.nodes n with value := value }).nodes m).freq =
      (c.nodes m).freq := fun m => (setValue_node c n value m).1
  exact {
    listed := setValue_listed c h.listed n value
    aimed := by
      rcases h.aimed with hmin | ⟨hblind, hroom⟩
      · exact Or.inl (setValue_minFreq c hmin n value)
      · exact Or.inr ⟨⟨hblind.minFreq, fun m hm => (hfreq m).symm ▸ hblind.beyond m hm⟩, hroom⟩
    minFreq_pos := h.minFreq_pos
    low := fun ht hne => by
      obtain ⟨m, hm, he⟩ := h.low ht hne
      exact ⟨m, hm, (hfreq m).symm ▸ he⟩
    total := (setValue_freqSum c n value).symm ▸ h.total
    total_fits := h.total_fits
    size_le := h.size_le
    capacity_pos := h.capacity_pos
    maxAvg_nonneg := h.maxAvg_nonneg
    maxAvg_fits := h.maxAvg_fits }

theorem put_roomy (c : LFUCache K V) (h : c.Sound) (hroom : c.size < c.capacity_) (key : K)
    (value : V) (hkey : c.nodeMap_.lookup key = none) (hcalm : c.curTotalFreq_ ≠ INT_MAX)
    (it : Iteration K) : ∃ c', c.put key value it = .ok c' ∧ Stored c key value c' := by
  have hroomy : c.Roomy := ⟨h.listed, h.minFreq_pos, h.total, h.total_fits, hroom,
    h.maxAvg_nonneg, h.maxAvg_fits⟩
  rw [put_absent c h.capacity_pos key value hkey it, if_neg (Nat.ne_of_lt hroom)]
  exact ends_exists (insertNode_ends c hroomy key value hkey it)
    (fun f hf => absurd hf.2 hcalm)

theorem put_ends (c : LFUCache K V) (h : c.Sound) (key : K) (value : V)
    (hsees : c.Sees (.put key value)) (it : Iteration K) :
    Ends c.overflows (c.put key value it) (Kept c) := by
  cases hl : c.nodeMap_.lookup key with
  | some n =>
    have hn : n ∈ c.residents := (mem_residents c n).mpr ⟨key, hl⟩
    rw [put_present c h.capacity_pos key value n hl it]
    refine ends_mono (getInternal_ends _ (setValue_sound c h n value) n hn it) ?_ ?_
    · exact fun f hf => hf
    · rintro c' ⟨hs, ht, htotal⟩
      exact ⟨hs, ht.capacity, ht.maxAvg, le_of_eq htotal⟩
  | none =>
    by_cases hfull : c.size = c.capacity_
    · obtain ⟨c', hc', hs, hcap', hM', htotal, -⟩ := put_full c h
        (sees_minFreq c h (hsees hl hfull)) key value it hl hfull
      rw [hc']
      exact ends_ok _ _ _ ⟨hs, hcap', hM', by omega⟩
    · rw [put_absent c h.capacity_pos key value hl it, if_neg hfull]
      have hroomy : c.Roomy := ⟨h.listed, h.minFreq_pos, h.total, h.total_fits,
        lt_of_le_of_ne h.size_le hfull, h.maxAvg_nonneg, h.maxAvg_fits⟩
      refine ends_mono (insertNode_ends c hroomy key value hl it) ?_ ?_
      · exact fun f hf => hf
      · exact fun c' hc => ⟨hc.sound, hc.capacity, hc.maxAvg, le_of_eq hc.total⟩

variable [Inhabited V]

omit [Inhabited K] in
theorem get_snd (c : LFUCache K V) (key : K) (it : Iteration K) :
    (c.get key it).map Prod.snd =
      match c.nodeMap_.lookup key with
      | some n => c.getInternal n it
      | none => .ok c := by
  have hget : (c.get key it).map Prod.snd = (c.get? key it).map Prod.snd := by
    unfold get
    cases c.get? key it <;> rfl
  rw [hget, get?]
  cases c.nodeMap_.lookup key with
  | none => rfl
  | some n =>
    change Except.map Prod.snd (c.getInternal n it >>= fun c' =>
      Except.ok (some (c.nodes n).value, c')) = c.getInternal n it
    cases c.getInternal n it <;> rfl

omit [Inhabited K] in
theorem get_ends (c : LFUCache K V) (h : c.Sound) (key : K) (it : Iteration K) :
    Ends c.overflows ((c.get key it).map Prod.snd) (Kept c) := by
  rw [get_snd]
  cases hl : c.nodeMap_.lookup key with
  | none => exact ends_ok _ _ _ ⟨h, rfl, rfl, by omega⟩
  | some n =>
    have hint := getInternal_ends c h n ((mem_residents c n).mpr ⟨key, hl⟩) it
    exact ends_mono hint (fun f hf => hf)
      (fun c' hc => ⟨hc.1, hc.2.1.capacity, hc.2.1.maxAvg, le_of_eq hc.2.2⟩)

omit [Inhabited K] in
theorem get_calm (c : LFUCache K V) (h : c.Sound) (key : K) (hcalm : c.curTotalFreq_ ≠ INT_MAX)
    (it : Iteration K) : c.get? key it ≠ .error .overflow := by
  intro he
  have hends := get_ends c h key it
  have hget : (c.get key it).map Prod.snd = .error .overflow := by
    rw [get, he]
    rfl
  rw [hget] at hends
  exact hcalm hends.2

theorem create_listed (capacity : ℕ) (maxAverageNum : ℤ) :
    (create capacity maxAverageNum : LFUCache K V).Listed := by
  have hnone : ∀ n, n ∉ (create capacity maxAverageNum : LFUCache K V).residents := by
    intro n hn
    simp [residents, create] at hn
  exact {
    filed := by
      have hs : {n | n ∈ (create capacity maxAverageNum : LFUCache K V).residents} = ∅ := by
        ext n
        simp [hnone n]
      rw [hs]
      exact filed_empty _
    keys := fun key n hl => absurd hl (by simp [create])
    made := fun n hn => absurd hn (hnone n)
    positive := fun n hn => absurd hn (hnone n)
    fits := fun n hn => absurd hn (hnone n) }

omit [Inhabited K] [Inhabited V] in
theorem purge_listed (c : LFUCache K V) : c.purge.Listed := by
  have hnone : ∀ n, n ∉ c.purge.residents := by simp [residents, purge]
  exact {
    filed := by
      have hs : {n | n ∈ c.purge.residents} = ∅ := by
        ext n
        simp [hnone n]
      rw [hs]
      exact filed_empty _
    keys := fun key n hl => absurd hl (by simp [purge])
    made := fun n hn => absurd hn (hnone n)
    positive := fun n hn => absurd hn (hnone n)
    fits := fun n hn => absurd hn (hnone n) }

omit [Inhabited K] [Inhabited V] in
theorem purge_sound (c : LFUCache K V) (h : c.Sound) : c.purge.Sound := by
  have hres : c.purge.residents = [] := rfl
  have hnone : ∀ n, n ∉ c.purge.residents := by simp [hres]
  have hnonneg := (freqSum_nonneg c h.listed).trans h.total
  exact {
    listed := purge_listed c
    aimed := Or.inl ⟨fun hne => absurd hres hne, fun n hn => absurd hn (hnone n)⟩
    minFreq_pos := h.minFreq_pos
    low := fun _ hne => absurd hres hne
    total := hnonneg
    total_fits := h.total_fits
    size_le := Nat.zero_le _
    capacity_pos := h.capacity_pos
    maxAvg_nonneg := h.maxAvg_nonneg
    maxAvg_fits := h.maxAvg_fits }

theorem apply_ends (c : LFUCache K V) (h : c.Sound) (op : CacheOp K V) (hsees : c.Sees op)
    (it : Iteration K) : Ends c.overflows (c.apply op it) (Kept c) := by
  cases op with
  | put key value => exact put_ends c h key value hsees it
  | get key => exact get_ends c h key it
  | purge => exact ends_ok _ _ _ ⟨purge_sound c h, rfl, rfl, by change c.curTotalFreq_ ≤ _; omega⟩

/-- A run keeps the invariant; each operation adds at most one to the total. -/
theorem applyAll_ends (c : LFUCache K V) (h : c.Sound) (ht : Temperate c.maxAvgFreq_)
    (ops : List (CacheOp K V × Iteration K)) :
    Ends (fun f => f = .overflow ∧ INT_MAX < c.curTotalFreq_+ops.length) (c.applyAll ops)
      (fun c' => c'.Sound ∧ c'.capacity_ = c.capacity_ ∧ c'.maxAvgFreq_ = c.maxAvgFreq_) := by
  induction ops generalizing c with
  | nil => exact ends_ok _ _ _ ⟨h, rfl, rfl⟩
  | cons op ops ih =>
    have hstep : Ends (fun f => f = .overflow ∧ INT_MAX < c.curTotalFreq_+(op::ops).length)
        (c.apply op.1 op.2) (Kept c) := by
      apply ends_mono (apply_ends c h op.1 (temperate_sees c h ht op.1) op.2) _ (fun d hd => hd)
      rintro f ⟨rfl, he⟩
      refine ⟨rfl, ?_⟩
      rw [he, List.length_cons]
      omega
    refine ends_bind _ hstep ?_
    intro d hd
    have htotal := hd.total
    refine ends_mono (ih d hd.sound (hd.maxAvg ▸ ht)) ?_ ?_
    · rintro f ⟨rfl, hlt⟩
      refine ⟨rfl, ?_⟩
      rw [List.length_cons]
      push_cast
      omega
    · rintro c' ⟨hs, hcap, hM⟩
      exact ⟨hs, hcap.trans hd.capacity, hM.trans hd.maxAvg⟩

theorem create_sound (capacity : ℕ) (hcap : 1 ≤ capacity) (maxAverageNum : ℤ)
    (h0 : 0 ≤ maxAverageNum) (hmax : maxAverageNum ≤ INT_MAX) :
    (create capacity maxAverageNum : LFUCache K V).Sound := by
  have hnone : ∀ n, n ∉ (create capacity maxAverageNum : LFUCache K V).residents := by
    intro n hn
    simp [residents, create] at hn
  exact {
    listed := create_listed capacity maxAverageNum
    aimed := Or.inl ⟨fun hne => absurd rfl hne, fun n hn => absurd hn (hnone n)⟩
    minFreq_pos := show (1 : ℤ) ≤ INT8_MAX by decide
    low := fun _ hne => absurd rfl hne
    total := le_refl _
    total_fits := show (0 : ℤ) ≤ INT_MAX by decide
    size_le := Nat.zero_le _
    capacity_pos := hcap
    maxAvg_nonneg := h0
    maxAvg_fits := hmax }

theorem create_temperate_sound (capacity : ℕ) (hcap : 1 ≤ capacity) (maxAverageNum : ℤ)
    (ht : Temperate maxAverageNum) : (create capacity maxAverageNum : LFUCache K V).Sound :=
  create_sound capacity hcap maxAverageNum (le_trans (by decide) ht.1) (ht.2.trans (by decide))

theorem create_default_ends (capacity : ℕ) (hcap : 1 ≤ capacity)
    (ops : List (CacheOp K V × Iteration K)) :
    Ends (fun f => f = .overflow ∧ INT_MAX < (0 : ℤ)+ops.length)
      ((create capacity 10 : LFUCache K V).applyAll ops)
      (fun c' => c'.Sound ∧ c'.capacity_ = capacity ∧ c'.maxAvgFreq_ = 10) :=
  applyAll_ends _ (create_temperate_sound capacity hcap 10 (by decide)) (by decide : Temperate 10) ops

/-- A run of fewer operations than an `int` can count does not overflow. -/
theorem applyAll_short (capacity : ℕ) (hcap : 1 ≤ capacity)
    (ops : List (CacheOp K V × Iteration K)) (hn : (ops.length : ℤ) ≤ INT_MAX) :
    (create capacity 10 : LFUCache K V).applyAll ops ≠ .error .overflow := by
  intro he
  have hends := create_default_ends capacity hcap ops
  rw [he] at hends
  have hlt := hends.2
  omega

structure Consistent (c : LFUCache K V) : Prop where
  listed : ∀ key n, c.nodeMap_.lookup key = some n → (c.nodes n).key = key ∧
    1 ≤ (c.nodes n).freq ∧
    ∀ freq, (bucket c.freqToFreqList_ freq).count n = if freq = (c.nodes n).freq then 1 else 0
  only : ∀ freq n, n ∈ bucket c.freqToFreqList_ freq →
    ∃ key, c.nodeMap_.lookup key = some n
  least : c.nodeMap_.entries ≠ [] →
    IsLeast {freq | ∃ key n, c.nodeMap_.lookup key = some n ∧ (c.nodes n).freq = freq} c.minFreq_

omit [Inhabited K] [Inhabited V] in
theorem sound_consistent (c : LFUCache K V) (h : c.Sound) (hmin : c.MinFreq) : c.Consistent := by
  constructor
  · intro key n hl
    have hn : n ∈ c.residents := (mem_residents c n).mpr ⟨key, hl⟩
    refine ⟨h.listed.keys key n hl, h.listed.positive n hn, fun freq => ?_⟩
    have hmem := h.listed.filed.mem freq n
    split
    · rename_i he
      exact List.count_eq_one_of_mem (h.listed.filed.nodup freq) (hmem.mpr ⟨hn, he.symm⟩)
    · rename_i he
      exact List.count_eq_zero_of_not_mem (fun hc => he (hmem.mp hc).2.symm)
  · intro freq n hn
    exact (mem_residents c n).mp ((h.listed.filed.mem freq n).mp hn).1
  · intro hne
    have hres : c.residents ≠ [] := by
      intro he
      exact hne (List.map_eq_nil_iff.mp he)
    constructor
    · obtain ⟨n, hn, he⟩ := hmin.attained hres
      obtain ⟨key, hl⟩ := (mem_residents c n).mp hn
      exact ⟨key, n, hl, he⟩
    · rintro freq ⟨key, n, hl, rfl⟩
      exact hmin.below n ((mem_residents c n).mpr ⟨key, hl⟩)

/-- In every state of a run the tables agree, and a miss in a full cache
evicts a least frequently used key. -/
theorem applyAll_consistent (capacity : ℕ) (hcap : 1 ≤ capacity)
    (ops : List (CacheOp K V × Iteration K))
    (hrun : (create capacity 10 : LFUCache K V).applyAll ops ≠ .error .overflow) :
    ∃ c, (create capacity 10 : LFUCache K V).applyAll ops = .ok c ∧ c.Consistent ∧
      ∀ key value it, c.nodeMap_.lookup key = none → c.size = c.capacity_ →
        ∃ c', c.put key value it = .ok c' ∧ Evicts c key value c' := by
  obtain ⟨c, hc, hs, -, hM⟩ := ends_exists (create_default_ends capacity hcap ops)
    (fun f hf => hf.1 ▸ hrun)
  have hmin : c.MinFreq := hs.aimed.resolve_right (fun hb => hb.2 (by
    rw [hM]
    decide))
  refine ⟨c, hc, sound_consistent c hs hmin, ?_⟩
  intro key value it hkey hfull
  obtain ⟨c', hc', -, -, -, -, hev⟩ := put_full c hs hmin key value it hkey hfull
  exact ⟨c', hc', hev⟩

def oneEntryRun : List (CacheOp ℕ ℕ × Iteration ℕ) :=
  [(.put 1 10, .forward), (.get 1, .forward), (.put 2 20, .forward)]

theorem applyAll_consistent_oneEntry :
    ∃ c, (create 1 10 : LFUCache ℕ ℕ).applyAll oneEntryRun = .ok c ∧ c.Consistent := by
  obtain ⟨c, hc, hcons, -⟩ := applyAll_consistent 1 (le_refl 1) oneEntryRun
    (applyAll_short 1 (le_refl 1) oneEntryRun (by decide))
  exact ⟨c, hc, hcons⟩

end LFUCache
end MuServer
