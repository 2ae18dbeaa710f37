import MuServer.LFUInvariant

/-!
# Operations of the frequency cache

Each operation keeps `Sound`. The only way for it to fail is the overflow of
the total, and `overflows` names the state in which that can happen. An access
that leaves the average within its bound only counts; any other one ages every
resident. An eviction takes the head of the list of `minFreq_`.
-/

set_option autoImplicit false

namespace MuServer
open Lib.Filing Lib.Fallible

namespace LFUCache

variable {K V : Type} [DecidableEq K]

def overflows (c : LFUCache K V) (f : Fault) : Prop :=
  f = .overflow ∧ c.curTotalFreq_ = INT_MAX

structure Accessed (c : LFUCache K V) : Prop where
  listed : c.Listed
  minFreq_pos : 1 ≤ c.minFreq_
  total : c.freqSum ≤ c.curTotalFreq_+1
  total_nonneg : 0 ≤ c.curTotalFreq_
  total_fits : c.curTotalFreq_ ≤ INT_MAX
  maxAvg_nonneg : 0 ≤ c.maxAvgFreq_
  maxAvg_fits : c.maxAvgFreq_ ≤ INT_MAX

structure Counted (c c' : LFUCache K V) : Prop extends Tended c c' where
  listed : c'.Listed
  minFreq_pos : 1 ≤ c'.minFreq_
  low : Temperate c'.maxAvgFreq_ → ∃ n ∈ c'.residents, (c'.nodes n).freq ≤ c'.maxAvgFreq_
  total : c'.freqSum ≤ c'.curTotalFreq_
  total_fits : c'.curTotalFreq_ ≤ INT_MAX
  counted : c'.curTotalFreq_ = c.curTotalFreq_+1
  lower : ∀ n ∈ c.residents, (c'.nodes n).freq ≤ (c.nodes n).freq
  aimed : c.Aimed → c'.Aimed

omit [DecidableEq K] in
theorem setTotal_tended (c : LFUCache K V) (total : ℤ) : Tended c (c.setTotal total) :=
  ⟨rfl, rfl, rfl, rfl, fun _ => rfl, fun _ => rfl⟩

omit [DecidableEq K] in
theorem setTotal_freqSum (c : LFUCache K V) (total : ℤ) :
    (c.setTotal total).freqSum = c.freqSum := rfl

omit [DecidableEq K] in
theorem increaseFreq_full (c : LFUCache K V) (h : ¬c.curTotalFreq_ < INT_MAX) (it : Iteration K) :
    c.increaseFreq it = .error .overflow := by
  have hinc : increment c.curTotalFreq_ = .error .overflow := if_neg h
  rw [increaseFreq, hinc]
  rfl

omit [DecidableEq K] in
/-- An access that is counted; the new total decides on the aging. -/
theorem increaseFreq_counted (c : LFUCache K V) (hne : c.residents ≠ []) (h0 : 0 ≤ c.curTotalFreq_)
    (hmax : c.curTotalFreq_ < INT_MAX) (it : Iteration K) :
    c.increaseFreq it = if (c.maxAvgFreq_+1)*c.size ≤ c.curTotalFreq_+1
      then (c.setTotal (c.curTotalFreq_+1)).handleOverMaxAverageNum it
      else .ok (c.setTotal (c.curTotalFreq_+1)) := by
  have hentries : c.nodeMap_.entries ≠ [] := by
    intro he
    exact hne (by simp [residents, he])
  have hinc : increment c.curTotalFreq_ = .ok (c.curTotalFreq_+1) := if_pos hmax
  have havg : (c.setTotal (c.curTotalFreq_+1)).curAvgFreq_ =
      average (c.curTotalFreq_+1) c.size := if_neg hentries
  rw [increaseFreq, hinc]
  change (if c.maxAvgFreq_ < (c.setTotal (c.curTotalFreq_+1)).curAvgFreq_ then _ else _) = _
  simp only [havg, average_gt_iff c hne _ _ (show 0 ≤ c.curTotalFreq_+1 by omega)
    (show c.curTotalFreq_+1 ≤ INT_MAX by omega)]

omit [DecidableEq K] in
theorem increaseFreq_calm (c : LFUCache K V) (hne : c.residents ≠ []) (h0 : 0 ≤ c.curTotalFreq_)
    (hmax : c.curTotalFreq_ < INT_MAX) (hlt : c.curTotalFreq_+1 < (c.maxAvgFreq_+1)*c.size)
    (it : Iteration K) : c.increaseFreq it = .ok (c.setTotal (c.curTotalFreq_+1)) := by
  rw [increaseFreq_counted c hne h0 hmax, if_neg (not_le.mpr hlt)]

theorem increaseFreq_aging (c : LFUCache K V) (h : c.Listed) (hne : c.residents ≠ [])
    (h0 : 0 ≤ c.curTotalFreq_) (hmax : c.curTotalFreq_ < INT_MAX) (hM0 : 0 ≤ c.maxAvgFreq_)
    (hM : c.maxAvgFreq_ ≤ INT_MAX) (hge : (c.maxAvgFreq_+1)*c.size ≤ c.curTotalFreq_+1)
    (it : Iteration K) :
    ∃ c', c.increaseFreq it = .ok c' ∧ Aged (c.setTotal (c.curTotalFreq_+1)) c' ∧
      1 ≤ c'.minFreq_ ∧ c'.Scanned := by
  have hlisted : (c.setTotal (c.curTotalFreq_+1)).Listed :=
    ⟨h.filed, h.keys, h.made, h.positive, h.fits⟩
  obtain ⟨c', hc', haged, hpos, hmin⟩ :=
    handleOverMaxAverageNum_ok (c.setTotal (c.curTotalFreq_+1)) hlisted hM0 hM hne it
  refine ⟨c', ?_, haged, hpos, hmin⟩
  rw [increaseFreq_counted c hne h0 hmax, if_pos hge, hc']

structure Steady (d c' : LFUCache K V) : Prop extends Tended d c' where
  listed : c'.Listed
  total : c'.curTotalFreq_ = d.curTotalFreq_+1
  freq : ∀ k ∈ d.residents, (c'.nodes k).freq = (d.nodes k).freq
  minFreq_pos : 1 ≤ c'.minFreq_
  minFreq : d.MinFreq → c'.MinFreq

/-- Within the bound there is no aging, and aging by half of at most one
changes no frequency. -/
theorem increaseFreq_steady (d : LFUCache K V) (h : d.Listed) (hpos : 1 ≤ d.minFreq_)
    (hne : d.residents ≠ []) (h0 : 0 ≤ d.curTotalFreq_) (hlt : d.curTotalFreq_ < INT_MAX)
    (hM0 : 0 ≤ d.maxAvgFreq_) (hM : d.maxAvgFreq_ ≤ INT_MAX)
    (hmild : d.maxAvgFreq_ ≤ 1 ∧ (∃ n ∈ d.residents, (d.nodes n).freq < INT8_MAX) ∨
      d.curTotalFreq_+1 < (d.maxAvgFreq_+1)*d.size) (it : Iteration K) :
    ∃ c', d.increaseFreq it = .ok c' ∧ Steady d c' := by
  by_cases hcalm : d.curTotalFreq_+1 < (d.maxAvgFreq_+1)*d.size
  · refine ⟨_, increaseFreq_calm d hne h0 hlt hcalm it, ?_⟩
    exact {
      toTended := setTotal_tended d _
      listed := ⟨h.filed, h.keys, h.made, h.positive, h.fits⟩
      total := rfl
      freq := fun _ _ => rfl
      minFreq_pos := hpos
      minFreq := fun hm => ⟨hm.attained, hm.below⟩ }
  · obtain ⟨hM1, n, hn, hlow⟩ := hmild.resolve_right hcalm
    obtain ⟨c', hc', haged, hpos', hscan⟩ := increaseFreq_aging d h hne h0 hlt hM0 hM
      (not_lt.mp hcalm) it
    have hfreq : ∀ k ∈ d.residents, (c'.nodes k).freq = (d.nodes k).freq := by
      intro k hk
      have hf : (c'.nodes k).freq = max 1 ((d.nodes k).freq-d.maxAvgFreq_/2) := haged.freq k hk
      have hk1 := h.positive k hk
      omega
    refine ⟨c', hc', ?_⟩
    exact {
      toTended := (setTotal_tended d _).trans haged.toTended
      listed := haged.listed
      total := haged.total
      freq := hfreq
      minFreq_pos := hpos'
      minFreq := fun _ => by
        rcases hscan with ⟨-, hm⟩ | hb
        · exact hm
        · have hres : c'.residents = d.residents := haged.residents
          have hbn := hb.beyond n (hres ▸ hn)
          rw [hfreq n hn] at hbn
          exact absurd hbn (not_le.mpr hlow) }

theorem aged_aimed (c c' : LFUCache K V)
    (hlow : Temperate c.maxAvgFreq_ → ∃ n ∈ c.residents, (c.nodes n).freq ≤ c.maxAvgFreq_+1)
    (haged : Aged (c.setTotal (c.curTotalFreq_+1)) c') (hscan : c'.Scanned) :
    c'.Aimed := by
  rcases hscan with ⟨-, hmin⟩ | hblind
  · exact Or.inl hmin
  · have hM : c'.maxAvgFreq_ = c.maxAvgFreq_ := haged.maxAvg
    have hres : c'.residents = c.residents := haged.residents
    refine Or.inr ⟨hblind, ?_⟩
    rw [hM]
    intro ht
    obtain ⟨n, hn, hle⟩ := hlow ht
    have hb := hblind.beyond n (hres ▸ hn)
    have hf : (c'.nodes n).freq = max 1 ((c.nodes n).freq-c.maxAvgFreq_/2) := haged.freq n hn
    rw [hf] at hb
    simp only [Temperate, INT8_MAX] at ht hb
    omega

theorem increaseFreq_ends (c : LFUCache K V) (h : c.Accessed) (hne : c.residents ≠ [])
    (hlow : Temperate c.maxAvgFreq_ → ∃ n ∈ c.residents, (c.nodes n).freq ≤ c.maxAvgFreq_+1)
    (it : Iteration K) : Ends c.overflows (c.increaseFreq it) (Counted c) := by
  have hlisted : (c.setTotal (c.curTotalFreq_+1)).Listed :=
    ⟨h.listed.filed, h.listed.keys, h.listed.made, h.listed.positive, h.listed.fits⟩
  by_cases hmax : c.curTotalFreq_ < INT_MAX
  · by_cases hlt : c.curTotalFreq_+1 < (c.maxAvgFreq_+1)*c.size
    · rw [increaseFreq_calm c hne h.total_nonneg hmax hlt it]
      exact ends_ok _ _ _ {
        toTended := setTotal_tended c (c.curTotalFreq_+1)
        listed := hlisted
        minFreq_pos := h.minFreq_pos
        low := fun _ => by
          obtain ⟨n, hn, hn'⟩ := low_of_total c _ (lt_of_le_of_lt h.total hlt)
          exact ⟨n, hn, Int.lt_add_one_iff.mp hn'⟩
        total := h.total
        total_fits := hmax
        counted := rfl
        lower := fun _ _ => le_refl _
        aimed := by
          rintro (hm | ⟨hb, hmild⟩)
          · exact Or.inl ⟨hm.attained, hm.below⟩
          · exact Or.inr ⟨⟨hb.minFreq, hb.beyond⟩, hmild⟩ }
    · obtain ⟨c', hc', haged, hpos, hmin⟩ := increaseFreq_aging c h.listed hne h.total_nonneg hmax
        h.maxAvg_nonneg h.maxAvg_fits (not_lt.mp hlt) it
      have hM : c'.maxAvgFreq_ = c.maxAvgFreq_ := haged.maxAvg
      have hres : c'.residents = c.residents := haged.residents
      have htotal : c'.curTotalFreq_ = c.curTotalFreq_+1 := haged.total
      have hsum : c'.freqSum ≤ c.freqSum :=
        freqSum_aged (c.setTotal (c.curTotalFreq_+1)) c' haged hlisted h.maxAvg_nonneg
      have haimed := aged_aimed c c' hlow haged hmin
      rw [hc']
      exact ends_ok _ _ _ {
        toTended := (setTotal_tended c (c.curTotalFreq_+1)).trans haged.toTended
        listed := haged.listed
        minFreq_pos := hpos
        low := fun ht => by
          rw [hM] at ht ⊢
          obtain ⟨n, hn, hle⟩ := hlow ht
          have hf : (c'.nodes n).freq = max 1 ((c.nodes n).freq-c.maxAvgFreq_/2) :=
            haged.freq n hn
          refine ⟨n, hres ▸ hn, ?_⟩
          simp only [Temperate] at ht
          omega
        total := by rw [htotal]; exact hsum.trans h.total
        total_fits := by rw [htotal]; exact hmax
        counted := htotal
        lower := haged.lower hlisted h.maxAvg_nonneg
        aimed := fun _ => haimed }
  · rw [increaseFreq_full c hmax it]
    exact ends_error _ _ _ ⟨rfl, le_antisymm h.total_fits (not_lt.mp hmax)⟩

omit [DecidableEq K] in
theorem setValue_node (c : LFUCache K V) (n : ℕ) (value : V) (m : ℕ) :
    ((c.setNode n { c.nodes n with value := value }).nodes m).freq = (c.nodes m).freq ∧
    ((c.setNode n { c.nodes n with value := value }).nodes m).key = (c.nodes m).key := by
  simp only [setNode, Function.update_apply]
  split
  · rename_i he
    exact ⟨by rw [he], by rw [he]⟩
  · exact ⟨rfl, rfl⟩

theorem setValue_listed (c : LFUCache K V) (h : c.Listed) (n : ℕ) (value : V) :
    (c.setNode n { c.nodes n with value := value }).Listed where
  filed := filed_congr _ _ _ _ h.filed (fun m _ => (setValue_node c n value m).1)
  keys := fun k m hm => (setValue_node c n value m).2.trans (h.keys k m hm)
  made := h.made
  positive := fun m hm => (setValue_node c n value m).1.symm ▸ h.positive m hm
  fits := fun m hm => (setValue_node c n value m).1.symm ▸ h.fits m hm

omit [DecidableEq K] in
theorem setValue_minFreq (c : LFUCache K V) (h : c.MinFreq) (n : ℕ) (value : V) :
    (c.setNode n { c.nodes n with value := value }).MinFreq where
  attained := fun hne => by
    obtain ⟨m, hm, he⟩ := h.attained hne
    exact ⟨m, hm, (setValue_node c n value m).1.trans he⟩
  below := fun m hm => (setValue_node c n value m).1.symm ▸ h.below m hm

omit [DecidableEq K] in
theorem setValue_freqSum (c : LFUCache K V) (n : ℕ) (value : V) :
    (c.setNode n { c.nodes n with value := value }).freqSum = c.freqSum := by
  unfold freqSum
  simp only [(setValue_node c n value _).1]
  rfl

omit [DecidableEq K] in
theorem freqList_moved (c : LFUCache K V) (n : ℕ) (freq : ℤ) (hne : freq ≠ (c.nodes n).freq) :
    (c.moved n freq).freqList (c.nodes n).freq =
      .ok ((bucket c.freqToFreqList_ (c.nodes n).freq).erase n) := by
  have hl : (c.moved n freq).freqToFreqList_.lookup (c.nodes n).freq =
      some ((bucket c.freqToFreqList_ (c.nodes n).freq).erase n) := by
    have hnode : (({ c with
        freqToFreqList_ := remove c.freqToFreqList_ (c.nodes n).freq n }.setFreq n
          freq).nodes n).freq = freq := by
      simp [setFreq, setNode]
    simp only [moved, addToFreqList, hnode]
    rw [add, AList.lookup_insert_ne hne.symm]
    exact AList.lookup_insert _
  rw [freqList, hl]

/-- `minFreq_` follows the node that was the last of its frequency. -/
theorem advanceMinFreq_ok (c : LFUCache K V) (h : c.Listed) (hmin : c.MinFreq)
    (hpos : 1 ≤ c.minFreq_) (n : ℕ) (hn : n ∈ c.residents) (hlt : (c.nodes n).freq < INT_MAX) :
    ∃ m, (c.moved n ((c.nodes n).freq+1)).advanceMinFreq ((c.nodes n).freq+1) =
        .ok { c.moved n ((c.nodes n).freq+1) with minFreq_ := m } ∧ 1 ≤ m ∧
      (∃ k ∈ c.residents, ((c.moved n ((c.nodes n).freq+1)).nodes k).freq = m) ∧
      ∀ k ∈ c.residents, m ≤ ((c.moved n ((c.nodes n).freq+1)).nodes k).freq := by
  have hsub : (c.nodes n).freq+1-1 = (c.nodes n).freq := by omega
  have hlist := freqList_moved c n ((c.nodes n).freq+1) (by omega)
  have hself : ((c.moved n ((c.nodes n).freq+1)).nodes n).freq = (c.nodes n).freq+1 := by
    rw [moved_nodes, if_pos rfl]
  have hother : ∀ k, k ≠ n → ((c.moved n ((c.nodes n).freq+1)).nodes k).freq =
      (c.nodes k).freq := by
    intro k hk
    rw [moved_nodes, if_neg hk]
  have hle : ∀ k, (c.nodes k).freq ≤ ((c.moved n ((c.nodes n).freq+1)).nodes k).freq := by
    intro k
    by_cases hk : k = n
    · subst hk
      omega
    · exact le_of_eq (hother k hk).symm
  have hstay : ∀ k ∈ c.residents, k ≠ n → (c.nodes k).freq = c.minFreq_ →
      (∃ k ∈ c.residents, ((c.moved n ((c.nodes n).freq+1)).nodes k).freq = c.minFreq_) ∧
      ∀ k ∈ c.residents, c.minFreq_ ≤ ((c.moved n ((c.nodes n).freq+1)).nodes k).freq :=
    fun k hk hkn he => ⟨⟨k, hk, (hother k hkn).trans he⟩,
      fun j hj => (hmin.below j hj).trans (hle j)⟩
  have hm : (c.moved n ((c.nodes n).freq+1)).minFreq_ = c.minFreq_ := rfl
  by_cases hf : (c.nodes n).freq = c.minFreq_
  · by_cases hempty : (bucket c.freqToFreqList_ (c.nodes n).freq).erase n = []
    · refine ⟨c.minFreq_+1, ?_, by omega, ⟨n, hn, by omega⟩, ?_⟩
      · have hinc : increment c.minFreq_ = .ok (c.minFreq_+1) := if_pos (hf ▸ hlt)
        rw [advanceMinFreq, hsub, hm, if_pos hf, hlist]
        simp only [bind, Except.bind, if_pos hempty, hinc]
      · intro k hk
        by_cases hkn : k = n
        · subst hkn
          omega
        · rw [hother k hkn]
          have hb := hmin.below k hk
          have hne : (c.nodes k).freq ≠ c.minFreq_ := by
            intro he
            have hmem : k ∈ (bucket c.freqToFreqList_ (c.nodes n).freq).erase n :=
              (List.mem_erase_of_ne hkn).mpr ((h.filed.mem _ k).mpr ⟨hk, he.trans hf.symm⟩)
            rw [hempty] at hmem
            exact absurd hmem List.not_mem_nil
          omega
    · obtain ⟨k, hk⟩ := List.exists_mem_of_ne_nil _ hempty
      have hkn : k ≠ n := by
        rintro rfl
        exact (h.filed.nodup _).not_mem_erase hk
      obtain ⟨hres, hfreq⟩ := (h.filed.mem _ k).mp (List.mem_of_mem_erase hk)
      refine ⟨c.minFreq_, ?_, hpos, hstay k hres hkn (hfreq.trans hf)⟩
      rw [advanceMinFreq, hsub, hm, if_pos hf, hlist]
      simp only [bind, Except.bind, if_neg hempty]
      rfl
  · obtain ⟨k, hk, he⟩ := hmin.attained (List.ne_nil_of_mem hn)
    refine ⟨c.minFreq_, ?_, hpos, hstay k hk (fun hkn => hf (hkn ▸ he)) he⟩
    rw [advanceMinFreq, hsub, hm, if_neg hf]
    rfl

omit [DecidableEq K] in
/-- A blind cache stays blind: no frequency is next to its `minFreq_`. -/
theorem advanceMinFreq_blind (c : LFUCache K V) (hblind : c.Blind) (n : ℕ) (hn : n ∈ c.residents) :
    (c.moved n ((c.nodes n).freq+1)).advanceMinFreq ((c.nodes n).freq+1) =
      .ok (c.moved n ((c.nodes n).freq+1)) := by
  have hb := hblind.beyond n hn
  have hm : (c.moved n ((c.nodes n).freq+1)).minFreq_ = 1 := hblind.minFreq
  rw [advanceMinFreq, hm, if_neg]
  simp only [INT8_MAX] at hb
  omega

/-- The node has moved one list up and `minFreq_` is as right as before. -/
structure Promoted (c : LFUCache K V) (n : ℕ) (d : LFUCache K V) : Prop extends Tended c d where
  listed : d.Listed
  aim : d.MinFreq ∨ c.Blind ∧ d.Blind
  minFreq_pos : 1 ≤ d.minFreq_
  freqSum : d.freqSum = c.freqSum+1
  total : d.curTotalFreq_ = c.curTotalFreq_
  avg : d.curAvgFreq_ = c.curAvgFreq_
  freq : ∀ k, (d.nodes k).freq = if k = n then (c.nodes n).freq+1 else (c.nodes k).freq

theorem advanceMinFreq_promoted (c : LFUCache K V) (h : c.Listed) (haim : c.MinFreq ∨ c.Blind)
    (hpos : 1 ≤ c.minFreq_) (n : ℕ) (hn : n ∈ c.residents) (hlt : (c.nodes n).freq < INT_MAX) :
    ∃ d, (c.moved n ((c.nodes n).freq+1)).advanceMinFreq ((c.nodes n).freq+1) = .ok d ∧
      Promoted c n d := by
  have htend := moved_tended c n ((c.nodes n).freq+1)
  have hlist := moved_listed c h n hn ((c.nodes n).freq+1)
    ((h.positive n hn).trans (by omega)) hlt
  have hsum : (c.moved n ((c.nodes n).freq+1)).freqSum = c.freqSum+1 :=
    (freqSum_moved c h n hn ((c.nodes n).freq+1)).trans (by omega)
  have hfreq : ∀ k, ((c.moved n ((c.nodes n).freq+1)).nodes k).freq =
      if k = n then (c.nodes n).freq+1 else (c.nodes k).freq := by
    intro k
    rw [moved_nodes]
    split <;> rfl
  rcases haim with hmin | hblind
  · obtain ⟨m, hadv, hmpos, hatt, hbelow⟩ := advanceMinFreq_ok c h hmin hpos n hn hlt
    exact ⟨_, hadv, {
      toTended := ⟨htend.capacity, htend.maxAvg, htend.nodeMap, htend.made, htend.key,
        htend.value⟩
      listed := ⟨hlist.filed, hlist.keys, hlist.made, hlist.positive, hlist.fits⟩
      aim := Or.inl ⟨fun _ => hatt, hbelow⟩
      minFreq_pos := hmpos
      freqSum := hsum
      total := rfl
      avg := rfl
      freq := hfreq }⟩
  · refine ⟨_, advanceMinFreq_blind c hblind n hn, {
      toTended := htend
      listed := hlist
      aim := Or.inr ⟨hblind, hblind.minFreq, fun k hk => ?_⟩
      minFreq_pos := hpos
      freqSum := hsum
      total := rfl
      avg := rfl
      freq := hfreq }⟩
    have hb := hblind.beyond n hn
    rw [hfreq]
    split
    · omega
    · exact hblind.beyond k hk

theorem getInternal_promotes (c : LFUCache K V) (h : c.Listed) (haim : c.MinFreq ∨ c.Blind)
    (hpos : 1 ≤ c.minFreq_) (n : ℕ) (hn : n ∈ c.residents) (hlt : (c.nodes n).freq < INT_MAX)
    (it : Iteration K) :
    ∃ d, c.getInternal n it = d.increaseFreq it ∧ Promoted c n d := by
  obtain ⟨d, hd, hp⟩ := advanceMinFreq_promoted c h haim hpos n hn hlt
  have hinc : increment (c.nodes n).freq = .ok ((c.nodes n).freq+1) := if_pos hlt
  refine ⟨d, ?_, hp⟩
  unfold getInternal
  rw [removeFromFreqList_ok c h n hn]
  change (increment (c.nodes n).freq >>= fun freq =>
    (c.moved n freq).advanceMinFreq freq >>= fun d => d.increaseFreq it) = _
  rw [hinc]
  change ((c.moved n ((c.nodes n).freq+1)).advanceMinFreq ((c.nodes n).freq+1) >>=
    fun d => d.increaseFreq it) = _
  rw [hd]
  rfl

theorem getInternal_full (c : LFUCache K V) (h : c.Listed) (n : ℕ) (hn : n ∈ c.residents)
    (hlt : ¬(c.nodes n).freq < INT_MAX) (it : Iteration K) :
    c.getInternal n it = .error .overflow := by
  have hinc : increment (c.nodes n).freq = .error .overflow := if_neg hlt
  unfold getInternal
  rw [removeFromFreqList_ok c h n hn]
  change (increment (c.nodes n).freq >>= fun freq =>
    (c.moved n freq).advanceMinFreq freq >>= fun d => d.increaseFreq it) = _
  rw [hinc]
  rfl

theorem promoted_aimed (c : LFUCache K V) (n : ℕ) (d : LFUCache K V) (h : Promoted c n d)
    (haim : c.Aimed) : d.Aimed := by
  rcases h.aim with hm | ⟨hc, hd⟩
  · exact Or.inl hm
  · rcases haim with hm | ⟨-, hmild⟩
    · by_cases hne : c.residents = []
      · exact Or.inl ⟨fun hne' => absurd (h.residents.trans hne) hne',
          fun k hk => by rw [h.residents, hne] at hk; exact absurd hk List.not_mem_nil⟩
      · -- `minFreq_` is attained, so it is not 1 when every frequency is beyond
        obtain ⟨k, hk, he⟩ := hm.attained hne
        have hb := hc.beyond k hk
        rw [he, hc.minFreq] at hb
        exact absurd hb (by decide)
    · exact Or.inr ⟨hd, by rw [h.maxAvg]; exact hmild⟩

theorem getInternal_ends (c : LFUCache K V) (h : c.Sound) (n : ℕ) (hn : n ∈ c.residents)
    (it : Iteration K) :
    Ends c.overflows (c.getInternal n it)
      (fun c' => c'.Sound ∧ Tended c c' ∧ c'.curTotalFreq_ = c.curTotalFreq_+1) := by
  have hfreq := (freq_le_freqSum c h.listed n hn).trans h.total
  have hnonneg := freqSum_nonneg c h.listed
  have htotal := h.total
  have haim : c.MinFreq ∨ c.Blind := h.aimed.imp id And.left
  by_cases hlt : (c.nodes n).freq < INT_MAX
  · obtain ⟨d, hd, hp⟩ := getInternal_promotes c h.listed haim h.minFreq_pos n hn hlt it
    rw [hd]
    have hacc : d.Accessed := {
      listed := hp.listed
      minFreq_pos := hp.minFreq_pos
      total := by rw [hp.freqSum, hp.total]; omega
      total_nonneg := by rw [hp.total]; omega
      total_fits := by rw [hp.total]; exact h.total_fits
      maxAvg_nonneg := by rw [hp.maxAvg]; exact h.maxAvg_nonneg
      maxAvg_fits := by rw [hp.maxAvg]; exact h.maxAvg_fits }
    have hne : c.residents ≠ [] := List.ne_nil_of_mem hn
    have hlow : Temperate d.maxAvgFreq_ →
        ∃ k ∈ d.residents, (d.nodes k).freq ≤ d.maxAvgFreq_+1 := by
      rw [hp.maxAvg]
      intro ht
      obtain ⟨k, hk, hle⟩ := h.low ht hne
      refine ⟨k, hp.residents ▸ hk, ?_⟩
      rw [hp.freq]
      split
      · rename_i he
        rw [he] at hle
        omega
      · omega
    refine ends_mono (increaseFreq_ends d hacc (hp.residents.symm ▸ hne) hlow it) ?_ ?_
    · rintro f ⟨rfl, he⟩
      exact ⟨rfl, hp.total.symm.trans he⟩
    · intro c' hc
      have htend : Tended c c' := hp.toTended.trans hc.toTended
      refine ⟨?_, htend, hc.counted.trans (by rw [hp.total])⟩
      exact {
        listed := hc.listed
        aimed := hc.aimed (promoted_aimed c n d hp h.aimed)
        minFreq_pos := hc.minFreq_pos
        low := fun ht _ => hc.low ht
        total := hc.total
        total_fits := hc.total_fits
        size_le := by rw [htend.size, htend.capacity]; exact h.size_le
        capacity_pos := by rw [htend.capacity]; exact h.capacity_pos
        maxAvg_nonneg := by rw [htend.maxAvg]; exact h.maxAvg_nonneg
        maxAvg_fits := by rw [htend.maxAvg]; exact h.maxAvg_fits }
  · have hfits := h.listed.fits n hn
    have htop := h.total_fits
    rw [getInternal_full c h.listed n hn hlt it]
    exact ends_error _ _ _ ⟨rfl, by omega⟩

structure Roomy (c : LFUCache K V) : Prop where
  listed : c.Listed
  minFreq_pos : 1 ≤ c.minFreq_
  total : c.freqSum ≤ c.curTotalFreq_
  total_fits : c.curTotalFreq_ ≤ INT_MAX
  size_lt : c.size < c.capacity_
  maxAvg_nonneg : 0 ≤ c.maxAvgFreq_
  maxAvg_fits : c.maxAvgFreq_ ≤ INT_MAX

def insertNode (c : LFUCache K V) (key : K) (value : V) : LFUCache K V :=
  ({ c.setNode c.made { key := key, value := value } with
    nodeMap_ := c.nodeMap_.insert key c.made
    made := c.made+1 }).addToFreqList c.made

theorem putInternal_eq [Inhabited K] (c : LFUCache K V) (key : K) (value : V) (it : Iteration K) :
    c.putInternal key value it =
      (if c.size = c.capacity_ then c.kickOut else .ok c) >>= fun d =>
        (d.insertNode key value).increaseFreq it >>= fun e =>
          .ok { e with minFreq_ := min e.minFreq_ 1 } := by
  unfold putInternal
  split <;> rfl

theorem insertNode_residents (c : LFUCache K V) (key : K) (value : V)
    (hkey : c.nodeMap_.lookup key = none) :
    (c.insertNode key value).residents = c.made::c.residents := by
  have hnot : key ∉ c.nodeMap_ := AList.lookup_eq_none.mp hkey
  unfold residents
  change (c.nodeMap_.insert key c.made).entries.map Sigma.snd = _
  rw [AList.entries_insert_of_notMem hnot]
  rfl

theorem insertNode_size (c : LFUCache K V) (key : K) (value : V)
    (hkey : c.nodeMap_.lookup key = none) : (c.insertNode key value).size = c.size+1 := by
  rw [← length_residents, insertNode_residents c key value hkey, List.length_cons,
    length_residents]

omit [DecidableEq K] in
theorem insertNode_old [DecidableEq K] (c : LFUCache K V) (key : K) (value : V) (n : ℕ)
    (hn : n ≠ c.made) : (c.insertNode key value).nodes n = c.nodes n := by
  simp [insertNode, addToFreqList, setNode, Function.update_of_ne hn]

theorem insertNode_new (c : LFUCache K V) (key : K) (value : V) :
    (c.insertNode key value).nodes c.made = { key := key, value := value } := by
  simp [insertNode, addToFreqList, setNode]

theorem insertNode_listed (c : LFUCache K V) (h : c.Listed) (key : K) (value : V)
    (hkey : c.nodeMap_.lookup key = none) : (c.insertNode key value).Listed := by
  have hres := insertNode_residents c key value hkey
  have hnew : c.made ∉ c.residents := fun hm => absurd (h.made _ hm) (lt_irrefl _)
  have hold : ∀ n ∈ c.residents, (c.insertNode key value).nodes n = c.nodes n :=
    fun n hn => insertNode_old c key value n (fun he => hnew (he ▸ hn))
  constructor
  · have hf := filed_congr _ _ (fun n => ((c.insertNode key value).nodes n).freq) _ h.filed
      (fun n hn => by rw [hold n hn])
    have ha := filed_add _ _ _ hf c.made hnew
    have hs : {n | n ∈ (c.insertNode key value).residents} =
        insert c.made {n | n ∈ c.residents} := by
      ext n
      simp [hres]
    rw [hs]
    rw [insertNode_new] at ha
    convert ha using 1
    simp [insertNode, addToFreqList, setNode]
  · intro k n hl
    by_cases hk : k = key
    · subst hk
      have hn : n = c.made := Option.some.inj (hl.symm.trans (AList.lookup_insert _))
      rw [hn, insertNode_new]
    · have hl' : c.nodeMap_.lookup k = some n := (AList.lookup_insert_ne hk).symm.trans hl
      rw [hold n ((mem_residents c n).mpr ⟨k, hl'⟩)]
      exact h.keys k n hl'
  · intro n hn
    rw [hres] at hn
    rcases List.mem_cons.mp hn with rfl | hn
    · exact Nat.lt_succ_self _
    · exact (h.made n hn).trans (Nat.lt_succ_self _)
  · intro n hn
    rw [hres] at hn
    rcases List.mem_cons.mp hn with rfl | hn
    · rw [insertNode_new]
    · rw [hold n hn]
      exact h.positive n hn
  · intro n hn
    rw [hres] at hn
    rcases List.mem_cons.mp hn with rfl | hn
    · rw [insertNode_new]
      exact show (1 : ℤ) ≤ INT_MAX by decide
    · rw [hold n hn]
      exact h.fits n hn

theorem insertNode_freqSum (c : LFUCache K V) (h : c.Listed) (key : K) (value : V)
    (hkey : c.nodeMap_.lookup key = none) : (c.insertNode key value).freqSum = c.freqSum+1 := by
  have hnew : c.made ∉ c.residents := fun hm => absurd (h.made _ hm) (lt_irrefl _)
  have hold : c.residents.map (fun n => ((c.insertNode key value).nodes n).freq) =
      c.residents.map (fun n => (c.nodes n).freq) := by
    apply List.map_congr_left
    intro n hn
    rw [insertNode_old c key value n (fun he => hnew (he ▸ hn))]
  rw [freqSum, insertNode_residents c key value hkey, List.map_cons, List.sum_cons, hold,
    insertNode_new, freqSum]
  exact add_comm _ _

theorem insertNode_valueOf (c : LFUCache K V) (hmade : ∀ n ∈ c.residents, n < c.made) (key : K)
    (value : V) (k : K) :
    (c.insertNode key value).valueOf k = if k = key then some value else c.valueOf k := by
  unfold valueOf
  change ((c.nodeMap_.insert key c.made).lookup k).map _ = _
  by_cases hk : k = key
  · rw [if_pos hk, hk, AList.lookup_insert, Option.map_some, insertNode_new]
  · rw [if_neg hk, AList.lookup_insert_ne hk]
    cases hl : c.nodeMap_.lookup k with
    | none => rfl
    | some n =>
      have hn := hmade n ((mem_residents c n).mpr ⟨k, hl⟩)
      rw [Option.map_some, Option.map_some, insertNode_old c key value n (Nat.ne_of_lt hn)]

structure Stored (c : LFUCache K V) (key : K) (value : V) (c' : LFUCache K V) : Prop where
  sound : c'.Sound
  total : c'.curTotalFreq_ = c.curTotalFreq_+1
  capacity : c'.capacity_ = c.capacity_
  maxAvg : c'.maxAvgFreq_ = c.maxAvgFreq_
  valueOf : ∀ k, c'.valueOf k = if k = key then some value else c.valueOf k

theorem insertNode_ends (c : LFUCache K V) (h : c.Roomy) (key : K) (value : V)
    (hkey : c.nodeMap_.lookup key = none) (it : Iteration K) :
    Ends c.overflows ((c.insertNode key value).increaseFreq it >>= fun e =>
      .ok { e with minFreq_ := min e.minFreq_ 1 }) (Stored c key value) := by
  have hlist := insertNode_listed c h.listed key value hkey
  have hres := insertNode_residents c key value hkey
  have hmem : c.made ∈ (c.insertNode key value).residents := hres ▸ List.mem_cons_self
  have hone : ((c.insertNode key value).nodes c.made).freq = 1 := by rw [insertNode_new]
  have hnonneg := freqSum_nonneg c h.listed
  have hacc : (c.insertNode key value).Accessed := {
    listed := hlist
    minFreq_pos := h.minFreq_pos
    total := (insertNode_freqSum c h.listed key value hkey).le.trans (by
      have := h.total
      change c.freqSum+1 ≤ c.curTotalFreq_+1
      omega)
    total_nonneg := hnonneg.trans h.total
    total_fits := h.total_fits
    maxAvg_nonneg := h.maxAvg_nonneg
    maxAvg_fits := h.maxAvg_fits }
  have hlow : Temperate c.maxAvgFreq_ → ∃ n ∈ (c.insertNode key value).residents,
      ((c.insertNode key value).nodes n).freq ≤ c.maxAvgFreq_+1 := by
    intro ht
    refine ⟨c.made, hmem, ?_⟩
    simp only [Temperate] at ht
    omega
  refine ends_bind _ (increaseFreq_ends _ hacc (List.ne_nil_of_mem hmem) hlow it) ?_
  intro e he
  have hmin : min e.minFreq_ 1 = 1 := min_eq_right he.minFreq_pos
  have hmade : c.made ∈ e.residents := he.residents ▸ hmem
  have hfreq : (e.nodes c.made).freq = 1 :=
    le_antisymm (hone ▸ he.lower c.made hmem) (he.listed.positive c.made hmade)
  rw [hmin]
  refine ends_ok _ _ _ ⟨?_, he.counted, he.capacity, he.maxAvg, fun k => ?_⟩
  · exact {
      listed := ⟨he.listed.filed, he.listed.keys, he.listed.made, he.listed.positive,
        he.listed.fits⟩
      aimed := Or.inl ⟨fun _ => ⟨c.made, hmade, hfreq⟩, he.listed.positive⟩
      minFreq_pos := le_refl _
      low := fun ht _ => he.low ht
      total := he.total
      total_fits := he.total_fits
      size_le := by
        change e.size ≤ e.capacity_
        rw [he.size, he.capacity, insertNode_size c key value hkey]
        exact h.size_lt
      capacity_pos := by
        change 1 ≤ e.capacity_
        rw [he.capacity]
        exact Nat.one_le_of_lt h.size_lt
      maxAvg_nonneg := by
        change 0 ≤ e.maxAvgFreq_
        rw [he.maxAvg]
        exact h.maxAvg_nonneg
      maxAvg_fits := by
        change e.maxAvgFreq_ ≤ INT_MAX
        rw [he.maxAvg]
        exact h.maxAvg_fits }
  · exact (he.valueOf k).trans (insertNode_valueOf c h.listed.made key value k)

end LFUCache
end MuServer
