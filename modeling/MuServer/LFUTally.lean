import MuServer.LFUEviction

/-!
# The counters of the frequency cache

`curTotalFreq_` is meant to be the sum of the frequencies. An access adds one
to both and an eviction takes the same from both, but aging lowers the
frequencies alone and a purge drops all of them: these are the two ways in
which the total comes to exceed the sum, and it never falls back.
-/

set_option autoImplicit false

namespace MuServer
open Lib.Filing Lib.Fallible

namespace LFUCache

variable {K V : Type} [DecidableEq K]

/-- The counters say what they are meant to say, and the total is bounded by
the number of residents. -/
structure Tallied (c : LFUCache K V) : Prop where
  total : c.curTotalFreq_ = c.freqSum
  avg : c.curAvgFreq_ = if c.residents = [] then 0 else c.freqSum/c.size
  bounded : c.residents ≠ [] → c.curTotalFreq_ < (c.maxAvgFreq_+1)*c.size

/-- An operation that neither purges a resident nor looks one up when that
brings the average above the bound. -/
def Calm (c : LFUCache K V) : CacheOp K V → Prop
  | .put key _ => (c.nodeMap_.lookup key).isSome → c.curTotalFreq_+1 < (c.maxAvgFreq_+1)*c.size
  | .get key => (c.nodeMap_.lookup key).isSome → c.curTotalFreq_+1 < (c.maxAvgFreq_+1)*c.size
  | .purge => c.residents = []

structure Even (c : LFUCache K V) : Prop where
  listed : c.Listed
  minFreq : c.MinFreq
  minFreq_pos : 1 ≤ c.minFreq_
  tallied : c.Tallied
  total_fits : c.curTotalFreq_ ≤ INT_MAX
  size_le : c.size ≤ c.capacity_
  capacity_pos : 1 ≤ c.capacity_
  maxAvg_two : 2 ≤ c.maxAvgFreq_
  maxAvg_fits : c.maxAvgFreq_ ≤ INT_MAX

omit [DecidableEq K] in
theorem setTotal_avg (c : LFUCache K V) (hne : c.residents ≠ []) (total : ℤ) (h0 : 0 ≤ total)
    (hmax : total ≤ INT_MAX) : (c.setTotal total).curAvgFreq_ = total/c.size := by
  have hentries : c.nodeMap_.entries ≠ [] := by
    intro he
    exact hne (by simp [residents, he])
  have havg : (c.setTotal total).curAvgFreq_ = average total c.size := if_neg hentries
  rw [havg, average_eq total c.size h0 hmax]

omit [DecidableEq K] in
theorem setTotal_tallied (d : LFUCache K V) (hne : d.residents ≠ [])
    (hsum : d.freqSum = d.curTotalFreq_+1) (h0 : 0 ≤ d.curTotalFreq_)
    (hlt : d.curTotalFreq_ < INT_MAX) (hcalm : d.curTotalFreq_+1 < (d.maxAvgFreq_+1)*d.size) :
    (d.setTotal (d.curTotalFreq_+1)).Tallied where
  total := hsum.symm
  avg := by
    have hne' : (d.setTotal (d.curTotalFreq_+1)).residents ≠ [] := hne
    rw [setTotal_avg d hne _ (by omega) (by omega), if_neg hne', setTotal_freqSum, hsum]
    rfl
  bounded := fun _ => hcalm

/-- Aging lowers a frequency that is above the bound, so the sum falls behind
the total. -/
theorem aged_untallied (d c' : LFUCache K V) (hl : d.Listed) (hne : d.residents ≠ [])
    (hM : 2 ≤ d.maxAvgFreq_) (hsum : d.freqSum = d.curTotalFreq_+1)
    (hge : (d.maxAvgFreq_+1)*d.size ≤ d.curTotalFreq_+1)
    (haged : Aged (d.setTotal (d.curTotalFreq_+1)) c') : ¬c'.Tallied := by
  intro ht
  have hsize := size_pos d hne
  have htotal : c'.curTotalFreq_ = d.curTotalFreq_+1 := haged.total
  have hres : c'.residents = d.residents := haged.residents
  have hfreq : ∀ n ∈ d.residents, (c'.nodes n).freq =
      max 1 ((d.nodes n).freq-d.maxAvgFreq_/2) := haged.freq
  obtain ⟨n, hn, hhigh⟩ : ∃ n ∈ d.residents, d.maxAvgFreq_+1 ≤ (d.nodes n).freq := by
    by_contra hc
    have hlow : ∀ n ∈ d.residents, (d.nodes n).freq ≤ d.maxAvgFreq_ := by
      intro n hn
      by_contra hlt
      exact hc ⟨n, hn, by omega⟩
    have hs := total_of_low d d.maxAvgFreq_ hlow
    nlinarith
  have hlt : c'.freqSum < d.freqSum := by
    rw [freqSum, freqSum, hres]
    apply List.sum_lt_sum
    · intro k hk
      have hk1 := hl.positive k hk
      rw [hfreq k hk]
      omega
    · refine ⟨n, hn, ?_⟩
      rw [hfreq n hn]
      omega
  have := ht.total
  omega

theorem even_total (c : LFUCache K V) (h : c.Even) : 0 ≤ c.curTotalFreq_ := by
  rw [h.tallied.total]
  exact freqSum_nonneg c h.listed

theorem getInternal_even (c c' : LFUCache K V) (h : c.Even) (n : ℕ) (hn : n ∈ c.residents)
    (it : Iteration K) (hc : c.getInternal n it = .ok c') :
    (c.curTotalFreq_+1 < (c.maxAvgFreq_+1)*c.size → c'.Even) ∧
      (¬c.curTotalFreq_+1 < (c.maxAvgFreq_+1)*c.size → ¬c'.Tallied) := by
  have hM := h.maxAvg_two
  by_cases hfull : (c.nodes n).freq < INT_MAX
  · obtain ⟨d, hd, hp⟩ := getInternal_promotes c h.listed (Or.inl h.minFreq) h.minFreq_pos n hn
      hfull it
    rw [hd] at hc
    have hne : d.residents ≠ [] := by
      rw [hp.residents]
      exact List.ne_nil_of_mem hn
    have htotal : d.curTotalFreq_ = c.curTotalFreq_ := hp.total
    have hsum : d.freqSum = d.curTotalFreq_+1 := by rw [hp.freqSum, htotal, h.tallied.total]
    have h0 := even_total c h
    have hdM : d.maxAvgFreq_ = c.maxAvgFreq_ := hp.maxAvg
    have hdsize : d.size = c.size := hp.size
    by_cases hlt : d.curTotalFreq_ < INT_MAX
    · constructor
      · intro hcalm
        rw [← htotal, ← hdM, ← hdsize] at hcalm
        rw [increaseFreq_calm d hne (by omega) hlt hcalm it] at hc
        obtain rfl := Except.ok.inj hc
        have hmin : d.MinFreq := by
          rcases hp.aim with hmin | ⟨hb, -⟩
          · exact hmin
          · obtain ⟨k, hk, he⟩ := h.minFreq.attained (List.ne_nil_of_mem hn)
            have hbk := hb.beyond k hk
            rw [he, hb.minFreq] at hbk
            exact absurd hbk (by decide)
        have hl := hp.listed
        exact {
          listed := ⟨hl.filed, hl.keys, hl.made, hl.positive, hl.fits⟩
          minFreq := ⟨hmin.attained, hmin.below⟩
          minFreq_pos := hp.minFreq_pos
          tallied := setTotal_tallied d hne hsum (by omega) hlt hcalm
          total_fits := hlt
          size_le := by
            change d.size ≤ d.capacity_
            rw [hdsize, hp.capacity]
            exact h.size_le
          capacity_pos := by
            change 1 ≤ d.capacity_
            rw [hp.capacity]
            exact h.capacity_pos
          maxAvg_two := by
            change 2 ≤ d.maxAvgFreq_
            rw [hdM]
            exact hM
          maxAvg_fits := by
            change d.maxAvgFreq_ ≤ INT_MAX
            rw [hdM]
            exact h.maxAvg_fits }
      · intro hover
        rw [← htotal, ← hdM, ← hdsize, not_lt] at hover
        obtain ⟨e, he, haged, -⟩ := increaseFreq_aging d hp.listed hne (by omega) hlt
          (by omega) (by rw [hdM]; exact h.maxAvg_fits) hover it
        obtain rfl := Except.ok.inj (he.symm.trans hc)
        exact aged_untallied d e hp.listed hne (by omega) hsum hover haged
    · rw [increaseFreq_full d hlt it] at hc
      exact absurd hc (by simp)
  · rw [getInternal_full c h.listed n hn hfull it] at hc
    exact absurd hc (by simp)

theorem insertNode_even (c c' : LFUCache K V) (hl : c.Listed) (hpos : 1 ≤ c.minFreq_)
    (htotal : c.curTotalFreq_ = c.freqSum) (hroom : c.size < c.capacity_)
    (hM : 2 ≤ c.maxAvgFreq_) (hMfits : c.maxAvgFreq_ ≤ INT_MAX)
    (hbound : c.curTotalFreq_+1 < (c.maxAvgFreq_+1)*(c.size+1)) (key : K) (value : V)
    (hkey : c.nodeMap_.lookup key = none) (it : Iteration K)
    (hc : ((c.insertNode key value).increaseFreq it >>= fun e =>
      .ok { e with minFreq_ := min e.minFreq_ 1 }) = Except.ok (ε := Fault) c') : c'.Even := by
  have hlist := insertNode_listed c hl key value hkey
  have hres := insertNode_residents c key value hkey
  have hmem : c.made ∈ (c.insertNode key value).residents := hres ▸ List.mem_cons_self
  have hne := List.ne_nil_of_mem hmem
  have hsize := insertNode_size c key value hkey
  have hsum : (c.insertNode key value).freqSum = (c.insertNode key value).curTotalFreq_+1 := by
    rw [insertNode_freqSum c hl key value hkey, ← htotal]
    rfl
  have h0 : 0 ≤ c.curTotalFreq_ := by
    rw [htotal]
    exact freqSum_nonneg c hl
  by_cases hlt : (c.insertNode key value).curTotalFreq_ < INT_MAX
  · have hcalm : (c.insertNode key value).curTotalFreq_+1 <
        ((c.insertNode key value).maxAvgFreq_+1)*(c.insertNode key value).size := by
      rw [hsize]
      exact_mod_cast hbound
    have htally := setTotal_tallied (c.insertNode key value) hne hsum h0 hlt hcalm
    have hone : ((c.insertNode key value).nodes c.made).freq = 1 := by rw [insertNode_new]
    have hcalmed := increaseFreq_calm _ hne h0 hlt hcalm it
    obtain ⟨e, he, hs⟩ := increaseFreq_steady (c.insertNode key value) hlist hpos hne h0 hlt
      (by change 0 ≤ c.maxAvgFreq_; omega) hMfits (Or.inr hcalm) it
    rw [Except.ok.inj (hcalmed.symm.trans he)] at htally
    rw [he] at hc
    have hmin : min e.minFreq_ 1 = 1 := min_eq_right hs.minFreq_pos
    simp only [bind, Except.bind, Except.ok.injEq, hmin] at hc
    have hl' := hs.listed
    rw [← hc]
    exact {
      listed := ⟨hl'.filed, hl'.keys, hl'.made, hl'.positive, hl'.fits⟩
      minFreq := ⟨fun _ => ⟨c.made, hs.residents ▸ hmem, (hs.freq _ hmem).trans hone⟩,
        hl'.positive⟩
      minFreq_pos := le_refl _
      tallied := ⟨htally.total, htally.avg, htally.bounded⟩
      total_fits := hs.total.trans_le hlt
      size_le := by
        change e.size ≤ e.capacity_
        rw [hs.size, hs.capacity, hsize]
        exact hroom
      capacity_pos := by
        change 1 ≤ e.capacity_
        rw [hs.capacity]
        exact Nat.one_le_of_lt hroom
      maxAvg_two := by
        change 2 ≤ e.maxAvgFreq_
        rw [hs.maxAvg]
        exact hM
      maxAvg_fits := by
        change e.maxAvgFreq_ ≤ INT_MAX
        rw [hs.maxAvg]
        exact hMfits }
  · rw [increaseFreq_full _ hlt it] at hc
    exact absurd hc (by simp [bind, Except.bind])

theorem setValue_even (c : LFUCache K V) (h : c.Even) (n : ℕ) (value : V) :
    (c.setNode n { c.nodes n with value := value }).Even := by
  have hsum := setValue_freqSum c n value
  exact {
    listed := setValue_listed c h.listed n value
    minFreq := setValue_minFreq c h.minFreq n value
    minFreq_pos := h.minFreq_pos
    tallied := ⟨h.tallied.total.trans hsum.symm, by rw [hsum]; exact h.tallied.avg,
      h.tallied.bounded⟩
    total_fits := h.total_fits
    size_le := h.size_le
    capacity_pos := h.capacity_pos
    maxAvg_two := h.maxAvg_two
    maxAvg_fits := h.maxAvg_fits }

variable [Inhabited K]

theorem put_absent_even (c c' : LFUCache K V) (h : c.Even) (key : K) (value : V)
    (hkey : c.nodeMap_.lookup key = none) (it : Iteration K)
    (hc : c.put key value it = .ok c') : c'.Even := by
  have hM := h.maxAvg_two
  have htotal := h.tallied.total
  rw [put_absent c h.capacity_pos key value hkey it] at hc
  by_cases hfull : c.size = c.capacity_
  · have hne : c.residents ≠ [] := by
      intro he
      have hl := length_residents c
      have hcap := h.capacity_pos
      rw [he, List.length_nil] at hl
      omega
    obtain ⟨n, rest, total, -, hn, -, rfl, hkick⟩ :=
      kickOut_ok c h.listed h.minFreq htotal.ge h.total_fits hne
    rw [if_pos hfull, hkick] at hc
    have hlist := withoutNode_listed c h.listed n hn
    have hsize := withoutNode_size c h.listed n hn
    have hpos := h.listed.positive n hn
    have hbound := h.tallied.bounded hne
    have hlook : (c.withoutNode n).nodeMap_.lookup key = none := by
      obtain ⟨gone, hgone⟩ := (mem_residents c n).mp hn
      have hne' : key ≠ gone := by
        rintro rfl
        rw [hkey] at hgone
        exact absurd hgone (by simp)
      change (c.nodeMap_.erase (c.nodes n).key).lookup key = none
      rw [h.listed.keys gone n hgone, AList.lookup_erase_ne hne', hkey]
    refine insertNode_even ((c.withoutNode n).setTotal (c.curTotalFreq_-(c.nodes n).freq)) c'
      ⟨hlist.filed, hlist.keys, hlist.made, hlist.positive, hlist.fits⟩ h.minFreq_pos ?_ ?_ hM
      h.maxAvg_fits ?_ key value hlook it hc
    · rw [setTotal_freqSum, withoutNode_freqSum c h.listed n hn, ← htotal]
      rfl
    · change (c.withoutNode n).size < c.capacity_
      omega
    · change c.curTotalFreq_-(c.nodes n).freq+1 <
        (c.maxAvgFreq_+1)*((c.withoutNode n).size+1)
      have hcast : (((c.withoutNode n).size : ℤ)+1) = c.size := by exact_mod_cast hsize
      rw [hcast]
      omega
  · rw [if_neg hfull] at hc
    refine insertNode_even c c' h.listed h.minFreq_pos htotal (lt_of_le_of_ne h.size_le hfull) hM
      h.maxAvg_fits ?_ key value hkey it hc
    by_cases hne : c.residents = []
    · have hz : c.curTotalFreq_ = 0 := by rw [htotal, freqSum, hne]; rfl
      have hs : c.size = 0 := by rw [← length_residents, hne]; rfl
      rw [hz, hs]
      push_cast
      omega
    · have hbound := h.tallied.bounded hne
      rw [mul_add, mul_one]
      omega

omit [Inhabited K] in
theorem purge_even (c : LFUCache K V) (h : c.Even) :
    (c.residents = [] → c.purge.Even) ∧ (c.residents ≠ [] → ¬c.purge.Tallied) := by
  have hres : c.purge.residents = [] := rfl
  constructor
  · intro he
    have hz : c.curTotalFreq_ = 0 := by rw [h.tallied.total, freqSum, he]; rfl
    exact {
      listed := purge_listed c
      minFreq := ⟨fun hne => absurd hres hne, fun n hn => by
        rw [hres] at hn
        exact absurd hn List.not_mem_nil⟩
      minFreq_pos := h.minFreq_pos
      tallied := ⟨hz, h.tallied.avg.trans (by rw [if_pos he, if_pos hres]),
        fun hne => absurd hres hne⟩
      total_fits := h.total_fits
      size_le := Nat.zero_le _
      capacity_pos := h.capacity_pos
      maxAvg_two := h.maxAvg_two
      maxAvg_fits := h.maxAvg_fits }
  · intro hne ht
    obtain ⟨n, hn⟩ := List.exists_mem_of_ne_nil _ hne
    have hle := freq_le_freqSum c h.listed n hn
    have hpos := h.listed.positive n hn
    have htotal := h.tallied.total
    have hz : c.curTotalFreq_ = 0 := ht.total
    omega

variable [Inhabited V]

theorem apply_even (c c' : LFUCache K V) (h : c.Even) (op : CacheOp K V) (it : Iteration K)
    (hc : c.apply op it = .ok c') : (c.Calm op → c'.Even) ∧ (¬c.Calm op → ¬c'.Tallied) := by
  cases op with
  | put key value =>
    change c.put key value it = .ok c' at hc
    cases hl : c.nodeMap_.lookup key with
    | none =>
      have heven := put_absent_even c c' h key value hl it hc
      exact ⟨fun _ => heven, fun hn => absurd (fun hs => by simp [hl] at hs) hn⟩
    | some n =>
      have hn : n ∈ c.residents := (mem_residents c n).mpr ⟨key, hl⟩
      rw [put_present c h.capacity_pos key value n hl it] at hc
      obtain ⟨h1, h2⟩ := getInternal_even _ c' (setValue_even c h n value) n hn it hc
      exact ⟨fun hcalm => h1 (hcalm (by rw [hl]; rfl)), fun hn => h2 (fun hlt => hn (fun _ => hlt))⟩
  | get key =>
    change (c.get key it).map Prod.snd = .ok c' at hc
    rw [get_snd] at hc
    cases hl : c.nodeMap_.lookup key with
    | none =>
      rw [hl] at hc
      obtain rfl := Except.ok.inj hc
      exact ⟨fun _ => h, fun hn => absurd (fun hs => by simp [hl] at hs) hn⟩
    | some n =>
      rw [hl] at hc
      obtain ⟨h1, h2⟩ := getInternal_even c c' h n ((mem_residents c n).mpr ⟨key, hl⟩) it hc
      exact ⟨fun hcalm => h1 (hcalm (by rw [hl]; rfl)), fun hn => h2 (fun hlt => hn (fun _ => hlt))⟩
  | purge =>
    obtain rfl := Except.ok.inj hc
    exact purge_even c h

def CalmRun (c : LFUCache K V) : List (CacheOp K V × Iteration K) → Prop
  | [] => True
  | op::ops => ∀ c', c.apply op.1 op.2 = .ok c' → c.Calm op.1 ∧ CalmRun c' ops

theorem applyAll_even (c : LFUCache K V) (h : c.Even) (ops : List (CacheOp K V × Iteration K)) :
    (∀ earlier later c', ops = earlier ++ later → c.applyAll earlier = .ok c' → c'.Tallied) ↔
      c.CalmRun ops := by
  induction ops generalizing c with
  | nil =>
    refine ⟨fun _ => trivial, fun _ earlier later c' he hc => ?_⟩
    obtain ⟨rfl, rfl⟩ := List.append_eq_nil_iff.mp he.symm
    obtain rfl := Except.ok.inj hc
    exact h.tallied
  | cons op ops ih =>
    constructor
    · intro hall d hd
      have hstep : c.applyAll [op] = .ok d := by
        simp only [applyAll, hd, bind, Except.bind]
      have htally := hall [op] ops d rfl hstep
      obtain ⟨h1, h2⟩ := apply_even c d h op.1 op.2 hd
      have hcalm : c.Calm op.1 := by
        by_contra hn
        exact h2 hn htally
      refine ⟨hcalm, (ih d (h1 hcalm)).mp ?_⟩
      rintro earlier later c' rfl hc
      refine hall (op::earlier) later c' rfl ?_
      simp only [applyAll, hd, bind, Except.bind]
      exact hc
    · intro hcalm earlier later c' he hc
      cases earlier with
      | nil =>
        obtain rfl := Except.ok.inj hc
        exact h.tallied
      | cons op' earlier =>
        obtain ⟨rfl, rfl⟩ := List.cons.inj he
        cases hd : c.apply op.1 op.2 with
        | error f => simp [applyAll, hd, bind, Except.bind] at hc
        | ok d =>
          simp only [applyAll, hd, bind, Except.bind] at hc
          obtain ⟨h1, -⟩ := apply_even c d h op.1 op.2 hd
          obtain ⟨hop, hrest⟩ := hcalm d hd
          exact (ih d (h1 hop)).mpr hrest earlier later c' rfl hc

theorem create_even (capacity : ℕ) (hcap : 1 ≤ capacity) (maxAverageNum : ℤ)
    (h2 : 2 ≤ maxAverageNum) (hmax : maxAverageNum ≤ INT_MAX) :
    (create capacity maxAverageNum : LFUCache K V).Even where
  listed := create_listed capacity maxAverageNum
  minFreq := ⟨fun hne => absurd rfl hne, fun n hn => absurd hn List.not_mem_nil⟩
  minFreq_pos := show (1 : ℤ) ≤ INT8_MAX by decide
  tallied := ⟨rfl, rfl, fun hne => absurd rfl hne⟩
  total_fits := show (0 : ℤ) ≤ INT_MAX by decide
  size_le := Nat.zero_le _
  capacity_pos := hcap
  maxAvg_two := h2
  maxAvg_fits := hmax

/-- The counters are right after every operation of a run just when all its
operations are calm. -/
theorem tallied_iff_calm (capacity : ℕ) (hcap : 1 ≤ capacity) (maxAverageNum : ℤ)
    (h2 : 2 ≤ maxAverageNum) (hmax : maxAverageNum ≤ INT_MAX)
    (ops : List (CacheOp K V × Iteration K)) :
    (∀ earlier later c, ops = earlier ++ later →
      (create capacity maxAverageNum : LFUCache K V).applyAll earlier = .ok c → c.Tallied) ↔
      (create capacity maxAverageNum : LFUCache K V).CalmRun ops :=
  applyAll_even _ (create_even capacity hcap maxAverageNum h2 hmax) ops

/-- The first insertion is calm. -/
theorem tallied_iff_calm_put : ∃ c : LFUCache ℕ ℕ,
    (create 1 10 : LFUCache ℕ ℕ).applyAll [(.put 1 10, .forward)] = .ok c ∧ c.Tallied := by
  have hrun : ((create 1 10 : LFUCache ℕ ℕ).applyAll [(.put 1 10, .forward)]).map
      (fun c => c.curTotalFreq_) = .ok 1 := by
    decide +kernel
  cases hc : (create 1 10 : LFUCache ℕ ℕ).applyAll [(.put 1 10, .forward)] with
  | error f => simp [hc, Except.map] at hrun
  | ok c =>
    refine ⟨c, rfl, (tallied_iff_calm 1 (by decide) 10 (by decide) (by decide)
      [(.put 1 10, .forward)]).mpr ?_ _ [] c rfl hc⟩
    exact fun _ _ => ⟨fun hl => absurd hl (by decide), trivial⟩

def agedRun : List (CacheOp ℕ ℕ × Iteration ℕ) :=
  [(.put 1 10, .forward)] ++ List.replicate 10 (.get 1, .forward)

theorem agedRun_untallied :
    ∃ c, (create 1 10 : LFUCache ℕ ℕ).applyAll agedRun = .ok c ∧ ¬c.Tallied := by
  have hrun : ((create 1 10 : LFUCache ℕ ℕ).applyAll agedRun).map
      (fun c => (c.curTotalFreq_, c.freqSum)) = .ok (11, 6) := by
    decide +kernel
  cases hc : (create 1 10 : LFUCache ℕ ℕ).applyAll agedRun with
  | error f => simp [hc, Except.map] at hrun
  | ok c =>
    simp only [hc, Except.map, Except.ok.injEq, Prod.mk.injEq] at hrun
    refine ⟨c, rfl, fun ht => ?_⟩
    have htotal := ht.total
    omega

end LFUCache
end MuServer
