import MuServer.LFULinks

/-!
# The size of the frequency cache

A run stays within the capacity as long as its evictions find a node where they
look for one, and its counters fit an `int`. With a temperate bound they always
find one. With any other bound there is a run to where they do not: the cache is
filled, every resident is looked up until no frequency is in sight of the scan,
and the next insertion takes a sentinel for a node. The run needs as many keys,
besides the key of the sentinels, as it inserts.
-/

set_option autoImplicit false

namespace MuServer
open Lib.Filing Lib.Fallible

namespace LFUCache

variable {K V : Type} [DecidableEq K] [Inhabited K] [Inhabited V]

/-- The frequency at which a full cache turns blind: every resident has it
when the average exceeds the bound. -/
def top (maxAvgFreq : ℤ) : ℤ := if maxAvgFreq ≤ 1 then INT8_MAX else maxAvgFreq+1

structure Climbing (c : LFUCache K V) : Prop where
  listed : c.Listed
  minFreq : c.MinFreq
  minFreq_pos : 1 ≤ c.minFreq_
  live : c.Live
  total : c.curTotalFreq_ = c.freqSum
  below : ∀ n ∈ c.residents, (c.nodes n).freq ≤ top c.maxAvgFreq_
  lower : ∃ n ∈ c.residents, (c.nodes n).freq < top c.maxAvgFreq_
  maxAvg_nonneg : 0 ≤ c.maxAvgFreq_
  maxAvg_fits : c.maxAvgFreq_ ≤ INT_MAX
  open_bound : c.maxAvgFreq_ ≤ 1 ∨ 250 < c.maxAvgFreq_
  fits : top c.maxAvgFreq_*c.size ≤ INT_MAX

structure Topped (c : LFUCache K V) : Prop where
  listed : c.Listed
  blind : c.Blind
  live : c.Live
  total_pos : 1 ≤ c.curTotalFreq_
  total_fits : c.curTotalFreq_ ≤ INT_MAX
  nonempty : c.residents ≠ []
  maxAvg_nonneg : 0 ≤ c.maxAvgFreq_
  maxAvg_fits : c.maxAvgFreq_ ≤ INT_MAX

omit [DecidableEq K] [Inhabited K] [Inhabited V] in
theorem top_le (maxAvgFreq : ℤ) (size : ℕ) (hsize : 0 < size) (h0 : 0 ≤ maxAvgFreq)
    (hM : maxAvgFreq ≤ 1 ∨ 250 < maxAvgFreq) (hfits : top maxAvgFreq*size ≤ INT_MAX) :
    INT8_MAX ≤ top maxAvgFreq ∧ maxAvgFreq+1 ≤ top maxAvgFreq ∧ top maxAvgFreq ≤ INT_MAX ∧
      INT8_MAX ≤ max 1 (top maxAvgFreq-maxAvgFreq/2) := by
  have h8 : INT8_MAX = 127 := rfl
  have hpos : 0 ≤ top maxAvgFreq := by
    unfold top
    split <;> omega
  have hle : top maxAvgFreq ≤ top maxAvgFreq*size :=
    le_mul_of_one_le_right hpos (by exact_mod_cast hsize)
  refine ⟨?_, ?_, hle.trans hfits, ?_⟩ <;> unfold top <;> split <;> omega

omit [Inhabited K] [Inhabited V] in
/-- All residents are at the top: aging takes all of them out of sight. -/
theorem topped (d c' : LFUCache K V) (hne : d.residents ≠ [])
    (hall : ∀ n ∈ d.residents, (d.nodes n).freq = top d.maxAvgFreq_)
    (h0 : 0 ≤ d.maxAvgFreq_) (hM : d.maxAvgFreq_ ≤ 1 ∨ 250 < d.maxAvgFreq_)
    (hmax : d.maxAvgFreq_ ≤ INT_MAX) (hfits : top d.maxAvgFreq_*d.size ≤ INT_MAX)
    (htotal : 0 ≤ d.curTotalFreq_) (hlt : d.curTotalFreq_ < INT_MAX)
    (haged : Aged (d.setTotal (d.curTotalFreq_+1)) c') (hscan : c'.Scanned) (hlive : c'.Live) :
    c'.Topped := by
  have hsize := size_pos d hne
  have hres : c'.residents = d.residents := haged.residents
  have hMc : c'.maxAvgFreq_ = d.maxAvgFreq_ := haged.maxAvg
  have htot : c'.curTotalFreq_ = d.curTotalFreq_+1 := haged.total
  obtain ⟨-, -, -, hbeyond⟩ := top_le d.maxAvgFreq_ d.size (by exact_mod_cast hsize) h0 hM hfits
  have hhigh : ∀ n ∈ c'.residents, INT8_MAX ≤ (c'.nodes n).freq := by
    intro n hn
    rw [hres] at hn
    have hf : (c'.nodes n).freq = max 1 ((d.nodes n).freq-d.maxAvgFreq_/2) := haged.freq n hn
    rw [hf, hall n hn]
    exact hbeyond
  exact {
    listed := haged.listed
    blind := by
      rcases hscan with ⟨⟨n, hn, hlow⟩, -⟩ | hb
      · exact absurd (hhigh n hn) (not_le.mpr hlow)
      · exact hb
    live := hlive
    total_pos := by omega
    total_fits := by omega
    nonempty := by rw [hres]; exact hne
    maxAvg_nonneg := by rw [hMc]; exact h0
    maxAvg_fits := by rw [hMc]; exact hmax }

omit [Inhabited K] [Inhabited V] in
/-- The access that brings the last resident to the top: the average is there too. -/
theorem climb_last (c d : LFUCache K V) (h : c.Climbing) (n : ℕ) (hp : Promoted c n d)
    (hne : d.residents ≠ []) (hlt : d.curTotalFreq_ < INT_MAX)
    (hall : ∀ k ∈ d.residents, (d.nodes k).freq = top d.maxAvgFreq_) :
    ∃ c', d.increaseFreq .forward = .ok c' ∧ Tended d c' ∧ (c'.Live → c'.Topped) := by
  have hM0 : 0 ≤ d.maxAvgFreq_ := hp.maxAvg ▸ h.maxAvg_nonneg
  have hM : d.maxAvgFreq_ ≤ INT_MAX := hp.maxAvg ▸ h.maxAvg_fits
  have hopen : d.maxAvgFreq_ ≤ 1 ∨ 250 < d.maxAvgFreq_ := hp.maxAvg ▸ h.open_bound
  have hfits : top d.maxAvgFreq_*d.size ≤ INT_MAX := by
    rw [hp.maxAvg, hp.size]
    exact h.fits
  have htotal : d.curTotalFreq_ = c.freqSum := hp.total.trans h.total
  have hnonneg := freqSum_nonneg c h.listed
  have hsum : d.curTotalFreq_+1 = d.freqSum := by rw [htotal, hp.freqSum]
  obtain ⟨-, htopM, -, -⟩ := top_le d.maxAvgFreq_ d.size (by exact_mod_cast size_pos d hne) hM0
    hopen hfits
  have hge : (d.maxAvgFreq_+1)*d.size ≤ d.curTotalFreq_+1 := by
    rw [hsum]
    refine le_trans ?_ (total_of_high d (top d.maxAvgFreq_) (fun k hk => (hall k hk).ge))
    exact mul_le_mul_of_nonneg_right htopM (by positivity)
  obtain ⟨c', hc', haged, -, hscan⟩ := increaseFreq_aging d hp.listed hne (by omega) hlt hM0 hM hge
    .forward
  refine ⟨c', hc', (setTotal_tended d _).trans haged.toTended, fun hlive => ?_⟩
  exact topped d c' hne hall hM0 hopen hM hfits (by omega) hlt haged hscan hlive

omit [DecidableEq K] [Inhabited K] [Inhabited V] in
/-- With a resident below the top the frequencies stay as they are, be there an
aging pass or not. -/
theorem climb_mild (d : LFUCache K V) (hsum : d.curTotalFreq_+1 = d.freqSum)
    (hbelow : ∀ k ∈ d.residents, (d.nodes k).freq ≤ top d.maxAvgFreq_)
    (hlower : ∃ m ∈ d.residents, (d.nodes m).freq < top d.maxAvgFreq_) :
    d.maxAvgFreq_ ≤ 1 ∧ (∃ k ∈ d.residents, (d.nodes k).freq < INT8_MAX) ∨
      d.curTotalFreq_+1 < (d.maxAvgFreq_+1)*d.size := by
  by_cases hM1 : d.maxAvgFreq_ ≤ 1
  · obtain ⟨m, hm, hmlt⟩ := hlower
    refine Or.inl ⟨hM1, m, hm, ?_⟩
    rwa [top, if_pos hM1] at hmlt
  · have htop : top d.maxAvgFreq_ = d.maxAvgFreq_+1 := if_neg hM1
    refine Or.inr ?_
    rw [hsum, ← htop]
    exact total_of_lower d (top d.maxAvgFreq_) hbelow hlower

omit [Inhabited K] [Inhabited V] in
theorem promoted_minFreq (c d : LFUCache K V) (h : c.Climbing) (n : ℕ) (hp : Promoted c n d)
    (hne : c.residents ≠ []) : d.MinFreq := by
  rcases hp.aim with hmin | ⟨hb, -⟩
  · exact hmin
  · -- a lowest frequency that is attained is in sight
    obtain ⟨k, hk, he⟩ := h.minFreq.attained hne
    have hbk := hb.beyond k hk
    rw [he, hb.minFreq] at hbk
    exact absurd hbk (by decide)

omit [Inhabited K] [Inhabited V] in
theorem climb_on (c d : LFUCache K V) (h : c.Climbing) (n : ℕ) (hp : Promoted c n d)
    (hne : d.residents ≠ []) (hlt : d.curTotalFreq_ < INT_MAX)
    (hbelow : ∀ k ∈ d.residents, (d.nodes k).freq ≤ top d.maxAvgFreq_)
    (hlower : ∃ m ∈ d.residents, (d.nodes m).freq < top d.maxAvgFreq_) :
    ∃ c', d.increaseFreq .forward = .ok c' ∧ Tended d c' ∧
      (c'.Live → c'.Climbing ∧ c'.freqSum = c.freqSum+1) := by
  have hM0 : 0 ≤ d.maxAvgFreq_ := hp.maxAvg ▸ h.maxAvg_nonneg
  have hM : d.maxAvgFreq_ ≤ INT_MAX := hp.maxAvg ▸ h.maxAvg_fits
  have htotal : d.curTotalFreq_ = c.freqSum := hp.total.trans h.total
  have hnonneg := freqSum_nonneg c h.listed
  have hsum : d.curTotalFreq_+1 = d.freqSum := by rw [htotal, hp.freqSum]
  have hcne : c.residents ≠ [] := fun he => hne (hp.residents.trans he)
  obtain ⟨c', hc', hs⟩ := increaseFreq_steady d hp.listed hp.minFreq_pos hne (by omega) hlt hM0 hM
    (climb_mild d hsum hbelow hlower) .forward
  have hres : c'.residents = d.residents := hs.residents
  have hcM : c'.maxAvgFreq_ = d.maxAvgFreq_ := hs.maxAvg
  have hsum' : c'.freqSum = d.freqSum := by
    rw [freqSum, freqSum, hres]
    exact congrArg List.sum (List.map_congr_left hs.freq)
  obtain ⟨m, hm, hmlt⟩ := hlower
  refine ⟨c', hc', hs.toTended, fun hlive => ⟨?_, hsum'.trans hp.freqSum⟩⟩
  exact {
    listed := hs.listed
    minFreq := hs.minFreq (promoted_minFreq c d h n hp hcne)
    minFreq_pos := hs.minFreq_pos
    live := hlive
    total := by rw [hs.total, hsum', hsum]
    below := by
      intro k hk
      rw [hres] at hk
      rw [hs.freq k hk, hcM]
      exact hbelow k hk
    lower := ⟨m, by rw [hres]; exact hm, by rw [hs.freq m hm, hcM]; exact hmlt⟩
    maxAvg_nonneg := by rw [hcM]; exact hM0
    maxAvg_fits := by rw [hcM]; exact hM
    open_bound := by rw [hcM, hp.maxAvg]; exact h.open_bound
    fits := by rw [hcM, hp.maxAvg, hs.size, hp.size]; exact h.fits }

theorem climb (c : LFUCache K V) (h : c.Climbing) :
    ∃ key c', c.apply (.get key) .forward = .ok c' ∧ Tended c c' ∧
      (c'.Climbing ∧ c'.freqSum = c.freqSum+1 ∨ c'.Topped) := by
  obtain ⟨n, hn, hlt⟩ := h.lower
  obtain ⟨key, hl⟩ := (mem_residents c n).mp hn
  have hne : c.residents ≠ [] := List.ne_nil_of_mem hn
  obtain ⟨-, -, htopmax, -⟩ := top_le c.maxAvgFreq_ c.size (by exact_mod_cast size_pos c hne)
    h.maxAvg_nonneg h.open_bound h.fits
  obtain ⟨d, hd, hp⟩ := getInternal_promotes c h.listed (Or.inl h.minFreq) h.minFreq_pos n hn
    (lt_of_lt_of_le hlt htopmax) .forward
  have hlive := getInternal_live c h.live key n hl .forward
  have happly : c.apply (.get key) .forward = d.increaseFreq .forward := by
    change (c.get key .forward).map Prod.snd = _
    rw [get_snd, hl]
    exact hd
  have hdne : d.residents ≠ [] := fun he => hne (hp.residents.symm.trans he)
  have hbelow : ∀ k ∈ d.residents, (d.nodes k).freq ≤ top d.maxAvgFreq_ := by
    intro k hk
    rw [hp.residents] at hk
    rw [hp.freq, hp.maxAvg]
    split
    · omega
    · exact h.below k hk
  have hlast : d.curTotalFreq_ < INT_MAX := by
    have hle := total_of_low d _ hbelow
    have hfits := h.fits
    rw [hp.maxAvg, hp.size, hp.freqSum] at hle
    rw [hp.total, h.total]
    omega
  rw [hd] at hlive
  by_cases hall : ∀ k ∈ d.residents, (d.nodes k).freq = top d.maxAvgFreq_
  · obtain ⟨c', hc', htend, htopped⟩ := climb_last c d h n hp hdne hlast hall
    rw [hc'] at hlive
    exact ⟨key, c', happly.trans hc', hp.toTended.trans htend, Or.inr (htopped hlive.1)⟩
  · have hlower : ∃ m ∈ d.residents, (d.nodes m).freq < top d.maxAvgFreq_ := by
      by_contra hc
      exact hall (fun k hk => le_antisymm (hbelow k hk) (not_lt.mp (fun hlt => hc ⟨k, hk, hlt⟩)))
    obtain ⟨c', hc', htend, hclimbs⟩ := climb_on c d h n hp hdne hlast hbelow hlower
    rw [hc'] at hlive
    exact ⟨key, c', happly.trans hc', hp.toTended.trans htend, Or.inl (hclimbs hlive.1)⟩

theorem applyAll_append (c c' : LFUCache K V) (ops more : List (CacheOp K V × Iteration K))
    (h : c.applyAll ops = .ok c') : c.applyAll (ops ++ more) = c'.applyAll more := by
  induction ops generalizing c with
  | nil =>
    obtain rfl := Except.ok.inj h
    rfl
  | cons op ops ih =>
    cases ha : c.apply op.1 op.2 with
    | error f => simp [applyAll, ha, bind, Except.bind] at h
    | ok d =>
      simp only [applyAll, ha, bind, Except.bind, List.cons_append] at h ⊢
      exact ih d h

theorem climb_all (c : LFUCache K V) (h : c.Climbing) :
    ∃ ops c', c.applyAll ops = .ok c' ∧ Tended c c' ∧ c'.Topped := by
  generalize hgap : (top c.maxAvgFreq_*c.size-c.freqSum).toNat = gap
  induction gap using Nat.strong_induction_on generalizing c with
  | _ gap ih =>
    obtain ⟨key, d, hd, htend, hnext⟩ := climb c h
    rcases hnext with ⟨hclimb, hsum⟩ | htop
    · have hs := total_of_lower c _ h.below h.lower
      obtain ⟨ops, c', hc', htend', htop⟩ := ih _ (by
        rw [htend.maxAvg, htend.size, hsum]
        omega) d hclimb rfl
      refine ⟨(.get key, .forward)::ops, c', ?_, htend.trans htend', htop⟩
      simp only [applyAll, hd, bind, Except.bind]
      exact hc'
    · refine ⟨[(.get key, .forward)], d, ?_, htend, htop⟩
      simp only [applyAll, hd, bind, Except.bind]

/-- A cache into which the keys `ks` have been put and nothing else. -/
structure Filling (c : LFUCache K V) (ks : List K) : Prop where
  listed : c.Listed
  minFreq : c.MinFreq
  minFreq_pos : 1 ≤ c.minFreq_
  live : c.Live
  total : c.curTotalFreq_ = c.freqSum
  ones : ∀ n ∈ c.residents, (c.nodes n).freq = 1
  size : c.size = ks.length
  keys : ∀ key n, c.nodeMap_.lookup key = some n → key ∈ ks
  maxAvg_nonneg : 0 ≤ c.maxAvgFreq_
  maxAvg_fits : c.maxAvgFreq_ ≤ INT_MAX
  open_bound : c.maxAvgFreq_ ≤ 1 ∨ 250 < c.maxAvgFreq_
  fits : top c.maxAvgFreq_*c.capacity_ ≤ INT_MAX

omit [DecidableEq K] [Inhabited K] [Inhabited V] in
theorem freqSum_ones (c : LFUCache K V) (h : ∀ n ∈ c.residents, (c.nodes n).freq = 1) :
    c.freqSum = c.size := by
  rw [freqSum, List.map_congr_left h, List.map_const', List.sum_replicate, length_residents,
    nsmul_eq_mul, mul_one]

omit [Inhabited K] [Inhabited V] in
theorem filling_small (c : LFUCache K V) (ks : List K) (h : c.Filling ks)
    (hroom : c.size < c.capacity_) : (c.size : ℤ) < INT_MAX := by
  obtain ⟨htop8, -, -, -⟩ := top_le c.maxAvgFreq_ c.capacity_ (Nat.zero_lt_of_lt hroom)
    h.maxAvg_nonneg h.open_bound h.fits
  have hfits := h.fits
  have hle : (c.capacity_ : ℤ) ≤ top c.maxAvgFreq_*c.capacity_ :=
    le_mul_of_one_le_left (by positivity) (le_trans (by decide) htop8)
  omega

omit [Inhabited K] [Inhabited V] in
theorem insertNode_ones (c : LFUCache K V) (ks : List K) (h : c.Filling ks) (key : K) (value : V)
    (hl : c.nodeMap_.lookup key = none) (n : ℕ) (hn : n ∈ (c.insertNode key value).residents) :
    ((c.insertNode key value).nodes n).freq = 1 := by
  rw [insertNode_residents c key value hl] at hn
  rcases List.mem_cons.mp hn with rfl | hn
  · rw [insertNode_new]
  · rw [insertNode_old c key value n (Nat.ne_of_lt (h.listed.made n hn)), h.ones n hn]

omit [Inhabited K] [Inhabited V] in
theorem fill_mild (c : LFUCache K V) (ks : List K) (h : c.Filling ks) (key : K) (value : V)
    (hl : c.nodeMap_.lookup key = none) (hmem : c.made ∈ (c.insertNode key value).residents) :
    (c.insertNode key value).maxAvgFreq_ ≤ 1 ∧
        (∃ n ∈ (c.insertNode key value).residents,
          ((c.insertNode key value).nodes n).freq < INT8_MAX) ∨
      (c.insertNode key value).curTotalFreq_+1 <
        ((c.insertNode key value).maxAvgFreq_+1)*(c.insertNode key value).size := by
  rcases h.open_bound with hM | hM
  · refine Or.inl ⟨hM, c.made, hmem, ?_⟩
    rw [insertNode_ones c ks h key value hl c.made hmem]
    decide
  · refine Or.inr ?_
    rw [insertNode_size c key value hl]
    change c.curTotalFreq_+1 < (c.maxAvgFreq_+1)*((c.size+1 : ℕ) : ℤ)
    rw [h.total, freqSum_ones c h.ones]
    push_cast
    exact lt_mul_of_one_lt_left (by positivity) (by omega)

omit [Inhabited K] [Inhabited V] in
theorem filled (c e : LFUCache K V) (ks : List K) (h : c.Filling ks) (key : K) (value : V)
    (hl : c.nodeMap_.lookup key = none) (hs : Steady (c.insertNode key value) e)
    (hlive : Live { e with minFreq_ := 1 }) :
    Filling { e with minFreq_ := 1 } (key::ks) := by
  have hres := insertNode_residents c key value hl
  have hsize := insertNode_size c key value hl
  have hmem : c.made ∈ e.residents := by
    rw [hs.residents, hres]
    exact List.mem_cons_self
  have hones : ∀ n ∈ e.residents, (e.nodes n).freq = 1 := by
    intro n hn
    rw [hs.residents] at hn
    rw [hs.freq n hn]
    exact insertNode_ones c ks h key value hl n hn
  exact {
    listed := ⟨hs.listed.filed, hs.listed.keys, hs.listed.made, hs.listed.positive,
      hs.listed.fits⟩
    minFreq := ⟨fun _ => ⟨c.made, hmem, hones c.made hmem⟩, hs.listed.positive⟩
    minFreq_pos := le_refl _
    live := hlive
    total := by
      change e.curTotalFreq_ = e.freqSum
      rw [hs.total, freqSum_ones e hones, hs.size, hsize]
      change c.curTotalFreq_+1 = _
      rw [h.total, freqSum_ones c h.ones]
      push_cast
      rfl
    ones := hones
    size := by
      change e.size = _
      rw [hs.size, hsize, h.size, List.length_cons]
    keys := by
      intro k n hk
      change e.nodeMap_.lookup k = some n at hk
      rw [hs.nodeMap] at hk
      by_cases hkk : k = key
      · rw [hkk]
        exact List.mem_cons_self
      · exact List.mem_cons_of_mem _ (h.keys k n ((AList.lookup_insert_ne hkk).symm.trans hk))
    maxAvg_nonneg := by
      change 0 ≤ e.maxAvgFreq_
      rw [hs.maxAvg]
      exact h.maxAvg_nonneg
    maxAvg_fits := by
      change e.maxAvgFreq_ ≤ INT_MAX
      rw [hs.maxAvg]
      exact h.maxAvg_fits
    open_bound := by
      change e.maxAvgFreq_ ≤ 1 ∨ 250 < e.maxAvgFreq_
      rw [hs.maxAvg]
      exact h.open_bound
    fits := by
      change top e.maxAvgFreq_*e.capacity_ ≤ INT_MAX
      rw [hs.maxAvg, hs.capacity]
      exact h.fits }

theorem fill (c : LFUCache K V) (ks : List K) (h : c.Filling ks) (hroom : c.size < c.capacity_)
    (key : K) (hkey : key ∉ ks) (value : V) :
    ∃ c', c.apply (.put key value) .forward = .ok c' ∧ c'.Filling (key::ks) ∧
      c'.capacity_ = c.capacity_ ∧ c'.maxAvgFreq_ = c.maxAvgFreq_ := by
  have hl : c.nodeMap_.lookup key = none := by
    cases hl : c.nodeMap_.lookup key with
    | none => rfl
    | some n => exact absurd (h.keys key n hl) hkey
  have hlist := insertNode_listed c h.listed key value hl
  have hmem : c.made ∈ (c.insertNode key value).residents := by
    rw [insertNode_residents c key value hl]
    exact List.mem_cons_self
  have htotal : c.curTotalFreq_ = c.size := h.total.trans (freqSum_ones c h.ones)
  have hsmall := filling_small c ks h hroom
  obtain ⟨e, he, hs⟩ := increaseFreq_steady (c.insertNode key value) hlist h.minFreq_pos
    (List.ne_nil_of_mem hmem) (by change 0 ≤ c.curTotalFreq_; omega)
    (by change c.curTotalFreq_ < INT_MAX; omega) h.maxAvg_nonneg h.maxAvg_fits
    (fill_mild c ks h key value hl hmem) .forward
  have hput : c.put key value .forward = .ok { e with minFreq_ := 1 } := by
    rw [put_absent c (Nat.one_le_of_lt hroom) key value hl, if_neg (Nat.ne_of_lt hroom)]
    change (c.insertNode key value).increaseFreq .forward >>= _ = _
    rw [he]
    change Except.ok { e with minFreq_ := min e.minFreq_ 1 } = _
    rw [min_eq_right hs.minFreq_pos]
  have hlive := put_live c h.live key value .forward
  rw [hput] at hlive
  exact ⟨{ e with minFreq_ := 1 }, hput, filled c e ks h key value hl hs hlive.1, hs.capacity,
    hs.maxAvg⟩

theorem fill_all (c : LFUCache K V) (ks : List K) (h : c.Filling ks) (more : List K)
    (hroom : c.size+more.length ≤ c.capacity_) (hnd : more.Nodup)
    (hnew : ∀ key ∈ more, key ∉ ks) :
    ∃ ops c' ks', c.applyAll ops = .ok c' ∧ c'.Filling ks' ∧ c'.capacity_ = c.capacity_ ∧
      c'.maxAvgFreq_ = c.maxAvgFreq_ ∧ c'.size = c.size+more.length ∧
      ∀ key ∈ ks', key ∈ ks ∨ key ∈ more := by
  induction more generalizing c ks with
  | nil => exact ⟨[], c, ks, rfl, h, rfl, rfl, rfl, fun _ hk => Or.inl hk⟩
  | cons key more ih =>
    rw [List.length_cons] at hroom
    obtain ⟨d, hd, hfill, hcap, hM⟩ := fill c ks h (by omega) key (hnew key List.mem_cons_self)
      default
    have hsize : d.size = c.size+1 := by rw [hfill.size, h.size, List.length_cons]
    obtain ⟨ops, c', ks', hc', hfill', hcap', hM', hsize', hks⟩ := ih d (key::ks) hfill
      (by rw [hsize, hcap]; omega) (List.nodup_cons.mp hnd).2 (fun k hk hmem => by
        rcases List.mem_cons.mp hmem with rfl | hmem
        · exact (List.nodup_cons.mp hnd).1 hk
        · exact hnew k (List.mem_cons_of_mem key hk) hmem)
    refine ⟨(.put key default, .forward)::ops, c', ks', ?_, hfill', hcap'.trans hcap,
      hM'.trans hM, by rw [hsize', hsize, List.length_cons]; omega, fun k hk => ?_⟩
    · simp only [applyAll, hd, bind, Except.bind]
      exact hc'
    · rcases hks k hk with hk | hk
      · rcases List.mem_cons.mp hk with rfl | hk
        · exact Or.inr List.mem_cons_self
        · exact Or.inl hk
      · exact Or.inr (List.mem_cons_of_mem key hk)

theorem create_filling (capacity : ℕ) (maxAverageNum : ℤ) (h0 : 0 ≤ maxAverageNum)
    (hmax : maxAverageNum ≤ INT_MAX) (hM : maxAverageNum ≤ 1 ∨ 250 < maxAverageNum)
    (hfits : top maxAverageNum*capacity ≤ INT_MAX) :
    (create capacity maxAverageNum : LFUCache K V).Filling [] where
  listed := create_listed capacity maxAverageNum
  minFreq := ⟨fun hne => absurd rfl hne, fun n hn => absurd hn List.not_mem_nil⟩
  minFreq_pos := show (1 : ℤ) ≤ INT8_MAX by decide
  live := create_live capacity maxAverageNum
  total := rfl
  ones := fun n hn => absurd hn List.not_mem_nil
  size := rfl
  keys := fun key n hl => absurd hl (by simp [create])
  maxAvg_nonneg := h0
  maxAvg_fits := hmax
  open_bound := hM
  fits := hfits

omit [Inhabited K] [Inhabited V] in
theorem filling_climbing (c : LFUCache K V) (ks : List K) (h : c.Filling ks)
    (hfull : c.size = c.capacity_) (hcap : 1 ≤ c.capacity_) : c.Climbing := by
  obtain ⟨htop8, -, -, -⟩ := top_le c.maxAvgFreq_ c.capacity_ hcap h.maxAvg_nonneg h.open_bound
    h.fits
  have h8 : INT8_MAX = 127 := rfl
  obtain ⟨n, hn⟩ := List.exists_mem_of_ne_nil _ (full_nonempty c hcap hfull)
  exact {
    listed := h.listed
    minFreq := h.minFreq
    minFreq_pos := h.minFreq_pos
    live := h.live
    total := h.total
    below := fun k hk => by
      rw [h.ones k hk]
      omega
    lower := ⟨n, hn, by rw [h.ones n hn]; omega⟩
    maxAvg_nonneg := h.maxAvg_nonneg
    maxAvg_fits := h.maxAvg_fits
    open_bound := h.open_bound
    fits := by rw [hfull]; exact h.fits }

omit [Inhabited K] [Inhabited V] in
theorem erase_absent (m : NodeMap K) (key : K) (h : m.lookup key = none) : m.erase key = m := by
  have hk : key ∉ m.entries.keys := AList.lookup_eq_none.mp h
  apply AList.ext
  exact List.kerase_of_notMem_keys hk

omit [Inhabited V] in
theorem kickOut_topped (c : LFUCache K V) (h : c.Topped)
    (hdef : c.nodeMap_.lookup default = none) :
    c.kickOut = .ok (c.setTotal (c.curTotalFreq_-1)) := by
  obtain ⟨s, hlinked, -, -⟩ := h.live
  obtain ⟨l, hl⟩ := hlinked.one h.nonempty
  have hlist : c.freqList 1 = .ok l := by rw [freqList, hl]
  have hempty : l = [] := by
    rw [List.eq_nil_iff_forall_not_mem]
    intro n hn
    obtain ⟨hres, hone⟩ := (h.listed.filed.mem 1 n).mp (by rw [bucket, hl]; exact hn)
    have hb := h.blind.beyond n hres
    rw [hone] at hb
    exact absurd hb (by decide)
  subst hempty
  have hsub : subtract c.curTotalFreq_ 1 = .ok (c.curTotalFreq_-1) := by
    have hpos := h.total_pos
    have hfits := h.total_fits
    rw [subtract, if_pos]
    simp only [INT_MAX] at hfits ⊢
    omega
  have hmin : c.freqList c.minFreq_ = .ok [] := by rw [h.blind.minFreq, hlist]
  rw [kickOut, hmin]
  change (c.freqList 1 >>= fun _ =>
    LFUCache.decreaseFreq { c with nodeMap_ := c.nodeMap_.erase default } 1) = _
  rw [hlist, erase_absent _ _ hdef]
  change (subtract c.curTotalFreq_ 1 >>= fun total => .ok (c.setTotal total)) = _
  rw [hsub]
  rfl

theorem put_topped (c : LFUCache K V) (h : c.Topped) (hfull : c.size = c.capacity_) (key : K)
    (hkey : c.nodeMap_.lookup key = none) (hdef : c.nodeMap_.lookup default = none) (value : V)
    (it : Iteration K) :
    ∃ c', c.apply (.put key value) it = .ok c' ∧ c'.size = c.size+1 := by
  have hne := h.nonempty
  have hsize := size_pos c hne
  have hpos := h.total_pos
  have hfits := h.total_fits
  have hl := h.listed
  have hlisted : (c.setTotal (c.curTotalFreq_-1)).Listed :=
    ⟨hl.filed, hl.keys, hl.made, hl.positive, hl.fits⟩
  have hres := insertNode_residents (c.setTotal (c.curTotalFreq_-1)) key value hkey
  have hne' : ((c.setTotal (c.curTotalFreq_-1)).insertNode key value).residents ≠ [] := by
    rw [hres]
    exact List.cons_ne_nil _ _
  obtain ⟨e, he, htend⟩ : ∃ e,
      ((c.setTotal (c.curTotalFreq_-1)).insertNode key value).increaseFreq it = .ok e ∧
      Tended ((c.setTotal (c.curTotalFreq_-1)).insertNode key value) e := by
    by_cases hlt : c.curTotalFreq_-1+1 < (c.maxAvgFreq_+1)*
        ((c.setTotal (c.curTotalFreq_-1)).insertNode key value).size
    · exact ⟨_, increaseFreq_calm _ hne' (by change 0 ≤ c.curTotalFreq_-1; omega)
        (by change c.curTotalFreq_-1 < INT_MAX; omega) hlt it, setTotal_tended _ _⟩
    · obtain ⟨e, he, haged, -⟩ := increaseFreq_aging _
        (insertNode_listed (c.setTotal (c.curTotalFreq_-1)) hlisted key value hkey) hne'
        (by change 0 ≤ c.curTotalFreq_-1; omega) (by change c.curTotalFreq_-1 < INT_MAX; omega)
        h.maxAvg_nonneg h.maxAvg_fits (not_lt.mp hlt) it
      exact ⟨e, he, (setTotal_tended _ _).trans haged.toTended⟩
  refine ⟨{ e with minFreq_ := min e.minFreq_ 1 }, ?_, ?_⟩
  · change c.put key value it = _
    rw [put_absent c (by omega) key value hkey, if_pos hfull, kickOut_topped c h hdef]
    change ((c.setTotal (c.curTotalFreq_-1)).insertNode key value).increaseFreq it >>= _ = _
    rw [he]
    rfl
  · change e.size = _
    rw [htend.size]
    exact insertNode_size (c.setTotal (c.curTotalFreq_-1)) key value hkey

/-- Beyond the temperate bounds a run brings the cache above its capacity, where an
`int` can count that far. -/
theorem overfull_run (capacity : ℕ) (hcap : 1 ≤ capacity) (maxAverageNum : ℤ)
    (h0 : 0 ≤ maxAverageNum) (hmax : maxAverageNum ≤ INT_MAX)
    (hM : maxAverageNum ≤ 1 ∨ 250 < maxAverageNum) (hfits : top maxAverageNum*capacity ≤ INT_MAX)
    (keys : List K) (hnd : keys.Nodup) (hlen : keys.length = capacity+1) (hdef : default ∉ keys) :
    ∃ ops c, (create capacity maxAverageNum : LFUCache K V).applyAll ops = .ok c ∧
      c.size = capacity+1 := by
  obtain ⟨key, rest, rfl⟩ : ∃ key rest, keys = key::rest :=
    List.exists_cons_of_length_eq_add_one hlen
  rw [List.length_cons, Nat.add_right_cancel_iff] at hlen
  rw [List.nodup_cons] at hnd
  rw [List.mem_cons, not_or] at hdef
  obtain ⟨ops, c, ks, hc, hfill, hccap, hcM, hsize, hks⟩ :=
    fill_all (create capacity maxAverageNum : LFUCache K V) []
      (create_filling capacity maxAverageNum h0 hmax hM hfits) rest
      (by change 0+_ ≤ capacity; omega) hnd.2 (by simp)
  change c.size = 0+rest.length at hsize
  change c.capacity_ = capacity at hccap
  have hfull : c.size = c.capacity_ := by omega
  obtain ⟨more, d, hd, htend, htop⟩ := climb_all c (filling_climbing c ks hfill hfull (by omega))
  have hout : ∀ k, k ∉ rest → d.nodeMap_.lookup k = none := by
    intro k hk
    rw [htend.nodeMap]
    cases hl : c.nodeMap_.lookup k with
    | none => rfl
    | some n => exact absurd ((hks k (hfill.keys k n hl)).resolve_left (by simp)) hk
  obtain ⟨e, he, hesize⟩ := put_topped d htop (by rw [htend.size, htend.capacity]; exact hfull) key
    (hout key hnd.1) (hout default hdef.2) default .forward
  refine ⟨ops ++ (more ++ [(.put key default, .forward)]), e, ?_, ?_⟩
  · rw [applyAll_append _ c ops _ hc, applyAll_append c d more _ hd]
    simp only [applyAll, he, bind, Except.bind]
  · rw [hesize, htend.size]
    omega

/-- Of the runs that no overflow ends none brings the cache above its capacity just
when the bound is temperate. -/
theorem size_le_iff_temperate (capacity : ℕ) (hcap : 1 ≤ capacity) (maxAverageNum : ℤ)
    (h0 : 0 ≤ maxAverageNum) (hmax : maxAverageNum ≤ INT_MAX)
    (hfits : top maxAverageNum*capacity ≤ INT_MAX) (keys : List K) (hnd : keys.Nodup)
    (hlen : keys.length = capacity+1) (hdef : default ∉ keys) :
    (∀ ops c, (create capacity maxAverageNum : LFUCache K V).applyAll ops = .ok c →
      c.size ≤ capacity) ↔ Temperate maxAverageNum := by
  constructor
  · intro hall
    by_contra ht
    have hM : maxAverageNum ≤ 1 ∨ 250 < maxAverageNum := by
      simp only [Temperate] at ht
      omega
    obtain ⟨ops, c, hc, hsize⟩ := overfull_run capacity hcap maxAverageNum h0 hmax hM hfits keys hnd
      hlen hdef (V := V)
    have hle := hall ops c hc
    omega
  · intro ht ops c hc
    have hends := applyAll_ends (create capacity maxAverageNum : LFUCache K V)
      (create_sound capacity hcap maxAverageNum h0 hmax) ht ops
    rw [hc] at hends
    exact hends.1.size_le.trans_eq hends.2.1

/-- What an operation needs to stay within the capacity: an eviction finds a node in
the list of `minFreq_`, and any other access can still be counted. -/
def sizeGuard (c : LFUCache K V) : CacheOp K V → Prop
  | .put key _ =>
    if c.nodeMap_.lookup key = none ∧ c.size = c.capacity_
    then bucket c.freqToFreqList_ c.minFreq_ ≠ []
    else c.curTotalFreq_ < INT_MAX
  | .get key => c.nodeMap_.lookup key ≠ none → c.curTotalFreq_ < INT_MAX
  | .purge => True

def GuardedRun (c : LFUCache K V) : List (CacheOp K V × Iteration K) → Prop
  | [] => True
  | op::ops => c.sizeGuard op.1 ∧ ∀ c', c.apply op.1 op.2 = .ok c' → GuardedRun c' ops

instance (c : LFUCache K V) : ∀ op : CacheOp K V, Decidable (c.sizeGuard op)
  | .put key _ => inferInstanceAs (Decidable (if c.nodeMap_.lookup key = none ∧ c.size = c.capacity_
      then bucket c.freqToFreqList_ c.minFreq_ ≠ [] else c.curTotalFreq_ < INT_MAX))
  | .get key => inferInstanceAs (Decidable (c.nodeMap_.lookup key ≠ none → c.curTotalFreq_ < INT_MAX))
  | .purge => inferInstanceAs (Decidable True)

instance decidableGuardedRun (c : LFUCache K V) :
    (ops : List (CacheOp K V × Iteration K)) → Decidable (c.GuardedRun ops)
  | [] => inferInstanceAs (Decidable True)
  | op::ops =>
    match h : c.apply op.1 op.2 with
    | .ok d =>
      have := decidableGuardedRun d ops
      decidable_of_iff (c.sizeGuard op.1 ∧ d.GuardedRun ops) (by simp [GuardedRun, h])
    | .error _ => decidable_of_iff (c.sizeGuard op.1) (by simp [GuardedRun, h])

def SizedRun (c : LFUCache K V) (ops : List (CacheOp K V × Iteration K)) : Prop :=
  ∀ earlier later, ops = earlier ++ later →
    ∃ c', c.applyAll earlier = .ok c' ∧ c'.size ≤ c.capacity_

theorem apply_guarded (c : LFUCache K V) (h : c.Sound) (op : CacheOp K V) (it : Iteration K)
    (hguard : c.sizeGuard op) : ∃ c', c.apply op it = .ok c' ∧ Kept c c' := by
  have hcalm : c.Sees op → c.curTotalFreq_ < INT_MAX → ∃ c', c.apply op it = .ok c' ∧ Kept c c' :=
    fun hsees hlt => ends_exists (apply_ends c h op hsees it)
      (fun f hf => absurd hf.2 hlt.ne)
  cases op with
  | put key value =>
    by_cases hev : c.nodeMap_.lookup key = none ∧ c.size = c.capacity_
    · simp only [sizeGuard, if_pos hev] at hguard
      obtain ⟨c', hc', hs, hcap, hM, htotal, -⟩ := put_full c h (sees_minFreq c h hguard) key value
        it hev.1 hev.2
      exact ⟨c', hc', hs, hcap, hM, by omega⟩
    · simp only [sizeGuard, if_neg hev] at hguard
      exact hcalm (fun hkey hfull => absurd ⟨hkey, hfull⟩ hev) hguard
  | get key =>
    by_cases hkey : c.nodeMap_.lookup key = none
    · have hget := get_snd c key it
      rw [hkey] at hget
      exact ⟨c, hget, h, rfl, rfl, by omega⟩
    · exact hcalm trivial (hguard hkey)
  | purge => exact ⟨c.purge, rfl, purge_sound c h, rfl, rfl, by change c.curTotalFreq_ ≤ _; omega⟩

omit [Inhabited K] [Inhabited V] in
theorem getInternal_overflows (c : LFUCache K V) (h : c.Sound) (n : ℕ) (hn : n ∈ c.residents)
    (hfull : ¬c.curTotalFreq_ < INT_MAX) (it : Iteration K) :
    c.getInternal n it = .error .overflow := by
  by_cases hlt : (c.nodes n).freq < INT_MAX
  · obtain ⟨d, hd, hp⟩ := getInternal_promotes c h.listed (h.aimed.imp id And.left) h.minFreq_pos n
      hn hlt it
    rw [hd]
    exact increaseFreq_full d (by rw [hp.total]; exact hfull) it
  · exact getInternal_full c h.listed n hn hlt it

omit [Inhabited K] [Inhabited V] in
/-- A full cache that names an empty list is one that aging has left blind. -/
theorem unseen_topped (c : LFUCache K V) (h : c.Sound) (hlive : c.Live)
    (hfull : c.size = c.capacity_) (hbucket : bucket c.freqToFreqList_ c.minFreq_ = []) :
    c.Topped := by
  have hne := full_nonempty c h.capacity_pos hfull
  have hblind : c.Blind := by
    rcases h.aimed with hmin | ⟨hb, -⟩
    · obtain ⟨n, hn, hfreq⟩ := hmin.attained hne
      have hmem := (h.listed.filed.mem c.minFreq_ n).mpr ⟨hn, hfreq⟩
      rw [hbucket] at hmem
      exact absurd hmem List.not_mem_nil
    · exact hb
  obtain ⟨n, hn⟩ := List.exists_mem_of_ne_nil _ hne
  have htotal := (freq_le_freqSum c h.listed n hn).trans h.total
  have hpos := h.listed.positive n hn
  exact ⟨h.listed, hblind, hlive, by omega, h.total_fits, hne, h.maxAvg_nonneg, h.maxAvg_fits⟩

/-- Without the guard an `int` overflows, or the cache grows by an entry. -/
theorem apply_unguarded (c : LFUCache K V) (h : c.Sound) (hlive : c.Live)
    (hdef : c.nodeMap_.lookup default = none) (op : CacheOp K V) (it : Iteration K)
    (hguard : ¬c.sizeGuard op) :
    c.apply op it = .error .overflow ∨ ∃ c', c.apply op it = .ok c' ∧ c'.size = c.capacity_+1 := by
  cases op with
  | put key value =>
    by_cases hev : c.nodeMap_.lookup key = none ∧ c.size = c.capacity_
    · simp only [sizeGuard, if_pos hev] at hguard
      obtain ⟨c', hc', hsize⟩ := put_topped c (unseen_topped c h hlive hev.2 (not_not.mp hguard))
        hev.2 key hev.1 hdef value it
      exact Or.inr ⟨c', hc', hsize.trans (by rw [hev.2])⟩
    · simp only [sizeGuard, if_neg hev] at hguard
      left
      change c.put key value it = _
      cases hl : c.nodeMap_.lookup key with
      | some n =>
        rw [put_present c h.capacity_pos key value n hl it]
        exact getInternal_overflows _ (setValue_sound c h n value) n
          ((mem_residents c n).mpr ⟨key, hl⟩) hguard it
      | none =>
        have hroom : ¬c.size = c.capacity_ := fun hfull => hev ⟨hl, hfull⟩
        rw [put_absent c h.capacity_pos key value hl it, if_neg hroom]
        change (c.insertNode key value).increaseFreq it >>= _ = _
        rw [increaseFreq_full (c.insertNode key value) hguard it]
        rfl
  | get key =>
    have hget := get_snd c key it
    cases hl : c.nodeMap_.lookup key with
    | none => exact absurd (fun hn => absurd hl hn) hguard
    | some n =>
      rw [hl] at hget
      refine Or.inl (hget.trans (getInternal_overflows c h n ((mem_residents c n).mpr ⟨key, hl⟩)
        (fun hlt => hguard (fun _ => hlt)) it))
  | purge => exact absurd trivial hguard

theorem apply_live (c c' : LFUCache K V) (h : c.Live) (hdef : c.nodeMap_.lookup default = none)
    (op : CacheOp K V) (hop : ∀ value, op ≠ .put default value) (it : Iteration K)
    (hc : c.apply op it = .ok c') : c'.Live ∧ c'.nodeMap_.lookup default = none := by
  have hnone : c.valueOf default = none := by rw [valueOf, hdef]; rfl
  have hout : c'.valueOf default = none → c'.nodeMap_.lookup default = none :=
    Option.map_eq_none_iff.mp
  cases op with
  | put key value =>
    have hends := put_live c h key value it
    rw [show c.put key value it = .ok c' from hc] at hends
    obtain ⟨hlive, -, hothers⟩ := hends
    have hne : default ≠ key := fun he => hop value (by rw [he])
    exact ⟨hlive, hout ((hothers default hne).elim (fun he => he.trans hnone) id)⟩
  | get key =>
    have hget := (get_snd c key it).symm.trans hc
    cases hl : c.nodeMap_.lookup key with
    | none =>
      rw [hl] at hget
      obtain rfl := Except.ok.inj hget
      exact ⟨h, hdef⟩
    | some n =>
      have hends := getInternal_live c h key n hl it
      rw [hl] at hget
      rw [show c.getInternal n it = .ok c' from hget] at hends
      exact ⟨hends.1, hout ((hends.2 default).trans hnone)⟩
  | purge =>
    obtain rfl := Except.ok.inj hc
    exact ⟨(purge_live c h).1, hout ((purge_live c h).2 default)⟩

theorem applyAll_guarded (c : LFUCache K V) (h : c.Sound)
    (ops : List (CacheOp K V × Iteration K)) (hguard : c.GuardedRun ops) : c.SizedRun ops := by
  induction ops generalizing c with
  | nil =>
    intro earlier later he
    obtain ⟨rfl, rfl⟩ := List.append_eq_nil_iff.mp he.symm
    exact ⟨c, rfl, h.size_le⟩
  | cons op ops ih =>
    intro earlier later he
    cases earlier with
    | nil => exact ⟨c, rfl, h.size_le⟩
    | cons first earlier =>
      obtain ⟨rfl, rfl⟩ := List.cons.inj he
      obtain ⟨d, hd, hkept⟩ := apply_guarded c h op.1 op.2 hguard.1
      obtain ⟨c', hc', hsize⟩ := ih d hkept.sound (hguard.2 d hd) earlier later rfl
      refine ⟨c', ?_, hsize.trans_eq hkept.capacity⟩
      simp only [applyAll, hd, bind, Except.bind]
      exact hc'

theorem applyAll_sized (c : LFUCache K V) (h : c.Sound) (hlive : c.Live)
    (hdef : c.nodeMap_.lookup default = none) (ops : List (CacheOp K V × Iteration K))
    (hops : ∀ op ∈ ops, ∀ value, op.1 ≠ .put default value) (hsized : c.SizedRun ops) :
    c.GuardedRun ops := by
  induction ops generalizing c with
  | nil => trivial
  | cons op ops ih =>
    obtain ⟨c', hc', hsize⟩ := hsized [op] ops rfl
    have hstep : c.apply op.1 op.2 = .ok c' := by
      cases hd : c.apply op.1 op.2 with
      | error f => simp [applyAll, hd, bind, Except.bind] at hc'
      | ok d => simpa [applyAll, hd, bind, Except.bind] using hc'
    have hguard : c.sizeGuard op.1 := by
      by_contra hn
      rcases apply_unguarded c h hlive hdef op.1 op.2 hn with hover | ⟨d, hd, hgrown⟩
      · rw [hstep] at hover
        exact absurd hover (by simp)
      · obtain rfl := Except.ok.inj (hstep.symm.trans hd)
        omega
    obtain ⟨d, hd, hkept⟩ := apply_guarded c h op.1 op.2 hguard
    obtain rfl := Except.ok.inj (hstep.symm.trans hd)
    obtain ⟨hlive', hdef'⟩ := apply_live c c' hlive hdef op.1 (hops op List.mem_cons_self) op.2 hstep
    refine ⟨hguard, fun e he => ?_⟩
    obtain rfl := Except.ok.inj (hstep.symm.trans he)
    refine ih c' hkept.sound hlive' hdef' (fun o ho => hops o (List.mem_cons_of_mem op ho)) ?_
    rintro earlier later rfl
    obtain ⟨e, he, hle⟩ := hsized (op::earlier) later rfl
    refine ⟨e, ?_, hle.trans_eq hkept.capacity.symm⟩
    simpa only [applyAll, hstep, bind, Except.bind] using he

/-- A run whose operations meet the guard overflows no counter and stays within the
capacity; and only such a run does, unless it puts the key that the sentinels carry. -/
theorem sized_iff_guarded (capacity : ℕ) (hcap : 1 ≤ capacity) (maxAverageNum : ℤ)
    (h0 : 0 ≤ maxAverageNum) (hmax : maxAverageNum ≤ INT_MAX)
    (ops : List (CacheOp K V × Iteration K)) :
    ((create capacity maxAverageNum : LFUCache K V).GuardedRun ops →
      (create capacity maxAverageNum : LFUCache K V).SizedRun ops) ∧
    ((∀ op ∈ ops, ∀ value, op.1 ≠ .put default value) →
      (create capacity maxAverageNum : LFUCache K V).SizedRun ops →
      (create capacity maxAverageNum : LFUCache K V).GuardedRun ops) :=
  ⟨applyAll_guarded _ (create_sound capacity hcap maxAverageNum h0 hmax) ops,
    applyAll_sized _ (create_sound capacity hcap maxAverageNum h0 hmax)
      (create_live capacity maxAverageNum) (by simp [create]) ops⟩

def blindRun : List (CacheOp ℕ ℕ × Iteration ℕ) :=
  [(.put 1 10, .forward)] ++ List.replicate 126 (.get 1, .forward) ++ [(.put 2 20, .forward)]

theorem sized_iff_guarded_oneEntry :
    (create 1 10 : LFUCache ℕ ℕ).SizedRun oneEntryRun ∧
      ¬(create 1 1 : LFUCache ℕ ℕ).GuardedRun blindRun :=
  ⟨(sized_iff_guarded 1 (by decide) 10 (by decide) (by decide) oneEntryRun).1
    (by decide +kernel), by decide +kernel⟩

/-- The second key comes in beside the first. -/
theorem blindRun_overfull :
    ∃ c, (create 1 1 : LFUCache ℕ ℕ).applyAll blindRun = .ok c ∧ c.capacity_ < c.size := by
  have hrun : ((create 1 1 : LFUCache ℕ ℕ).applyAll blindRun).map
      (fun c => (c.capacity_, c.size)) = .ok (1, 2) := by
    decide +kernel
  cases hc : (create 1 1 : LFUCache ℕ ℕ).applyAll blindRun with
  | error f => simp [hc, Except.map] at hrun
  | ok c =>
    simp only [hc, Except.map, Except.ok.injEq, Prod.mk.injEq] at hrun
    exact ⟨c, rfl, by omega⟩

end LFUCache
end MuServer
