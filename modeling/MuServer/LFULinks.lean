import MuServer.LFUEviction

/-!
# Values survive in every cache

`Linked` is what remains of the invariant for any bound on the average and any
capacity, also behind an eviction that took a sentinel: the lists may hold
nodes whose keys are gone, but every resident is in the list of its frequency
and the lists that an eviction looks up exist. So no operation fails but by an
overflow, and none changes a value that it was not asked to store.
-/

set_option autoImplicit false

namespace MuServer
open Lib.Filing Lib.Fallible

namespace LFUCache

variable {K V : Type} [DecidableEq K]

def HasList (c : LFUCache K V) (freq : ℤ) : Prop := ∃ l, c.freqToFreqList_.lookup freq = some l

structure Linked (c : LFUCache K V) (s : Set ℕ) : Prop where
  filed : Filed c.freqToFreqList_ (fun n => (c.nodes n).freq) s
  residents : ∀ n ∈ c.residents, n ∈ s
  keys : ∀ key n, c.nodeMap_.lookup key = some n → (c.nodes n).key = key
  made : ∀ n ∈ s, n < c.made
  positive : ∀ n ∈ s, 1 ≤ (c.nodes n).freq
  one : c.residents ≠ [] → c.HasList 1
  minFreq_pos : 1 ≤ c.minFreq_

def Aims (c : LFUCache K V) : Prop := c.residents ≠ [] → c.HasList c.minFreq_

structure Reordered (s : Set ℕ) (c c' : LFUCache K V) : Prop extends Tended c c' where
  linked : c'.Linked s
  lists : ∀ freq, c.HasList freq → c'.HasList freq
  aims : c.Aims → c'.Aims

theorem Reordered.trans {s : Set ℕ} {c d e : LFUCache K V} (h : Reordered s c d)
    (h' : Reordered s d e) : Reordered s c e where
  toTended := h.toTended.trans h'.toTended
  linked := h'.linked
  lists := fun freq hf => h'.lists freq (h.lists freq hf)
  aims := fun ha => h'.aims (h.aims ha)

omit [DecidableEq K] in
theorem hasList_insert (b : Buckets ℤ ℕ) (i freq : ℤ) (l : List ℕ)
    (h : ∃ m, b.lookup freq = some m) : ∃ m, (b.insert i l).lookup freq = some m := by
  by_cases hi : freq = i
  · exact ⟨l, by rw [hi, AList.lookup_insert]⟩
  · obtain ⟨m, hm⟩ := h
    exact ⟨m, by rw [AList.lookup_insert_ne hi, hm]⟩

omit [DecidableEq K] in
theorem moved_freq (c : LFUCache K V) (n k : ℕ) (freq : ℤ) :
    ((c.moved n freq).nodes k).freq = if k = n then freq else (c.nodes k).freq := by
  rw [moved_nodes]
  split <;> rfl

omit [DecidableEq K] in
theorem moved_lists (c : LFUCache K V) (n : ℕ) (freq : ℤ) :
    (c.moved n freq).freqToFreqList_ =
      add (remove c.freqToFreqList_ (c.nodes n).freq n) freq n := by
  have hnode : (({ c with
      freqToFreqList_ := remove c.freqToFreqList_ (c.nodes n).freq n }.setFreq n
        freq).nodes n).freq = freq := by
    simp [setFreq, setNode]
  simp only [moved, addToFreqList, hnode]
  rfl

theorem moved_reordered (c : LFUCache K V) (s : Set ℕ) (h : c.Linked s) (n : ℕ) (hn : n ∈ s)
    (freq : ℤ) (hpos : 1 ≤ freq) : Reordered s c (c.moved n freq) := by
  have hlists : ∀ f, c.HasList f → (c.moved n freq).HasList f := by
    intro f hf
    unfold HasList
    rw [moved_lists]
    exact hasList_insert _ _ _ _ (hasList_insert _ _ _ _ hf)
  have hindex : (fun m => ((c.moved n freq).nodes m).freq) =
      Function.update (fun m => (c.nodes m).freq) n freq := by
    funext m
    rw [moved_freq, Function.update_apply]
  exact {
    toTended := moved_tended c n freq
    linked := {
      filed := by
        rw [hindex, moved_lists]
        exact filed_move _ _ _ h.filed n hn freq
      residents := h.residents
      keys := fun key m hm => ((moved_tended c n freq).key m).trans (h.keys key m hm)
      made := h.made
      positive := by
        intro m hm
        rw [moved_freq]
        split
        · exact hpos
        · exact h.positive m hm
      one := fun hne => hlists 1 (h.one hne)
      minFreq_pos := h.minFreq_pos }
    lists := hlists
    aims := fun ha hne => hlists c.minFreq_ (ha hne) }

theorem removeFromFreqList_linked (c : LFUCache K V) (s : Set ℕ) (h : c.Linked s) (n : ℕ)
    (hn : n ∈ s) : c.removeFromFreqList n =
      .ok { c with freqToFreqList_ := remove c.freqToFreqList_ (c.nodes n).freq n } := by
  have hl := filed_lookup _ _ _ h.filed n hn
  simp only [removeFromFreqList, freqList, hl]
  rfl

theorem ageNode_linked (c : LFUCache K V) (s : Set ℕ) (h : c.Linked s) (n : ℕ) (hn : n ∈ s) :
    Ends (fun f => f = .overflow) (c.ageNode n) (Reordered s c) := by
  have hage : c.ageNode n = subtract (c.nodes n).freq (c.maxAvgFreq_.tdiv 2) >>= fun freq =>
      .ok (c.moved n (if freq < 1 then 1 else freq)) := by
    unfold ageNode
    rw [removeFromFreqList_linked c s h n hn]
    rfl
  rw [hage]
  unfold subtract
  split
  · refine ends_ok _ _ _ (moved_reordered c s h n hn _ ?_)
    split <;> omega
  · exact ends_error _ _ _ rfl

theorem ageNodes_linked (c : LFUCache K V) (s : Set ℕ) (h : c.Linked s) (ns : List ℕ)
    (hns : ∀ n ∈ ns, n ∈ s) :
    Ends (fun f => f = .overflow) (c.ageNodes ns) (Reordered s c) := by
  induction ns generalizing c with
  | nil => exact ends_ok _ _ _ ⟨Tended.refl c, h, fun _ hf => hf, fun ha => ha⟩
  | cons n ns ih =>
    refine ends_bind _ (ageNode_linked c s h n (hns n List.mem_cons_self)) ?_
    intro d hd
    exact ends_mono (ih d hd.linked (fun m hm => hns m (List.mem_cons_of_mem n hm)))
      (fun f hf => hf) (fun e he => hd.trans he)

theorem updateMinFreq_linked (c : LFUCache K V) (s : Set ℕ) (h : c.Linked s) :
    Reordered s c c.updateMinFreq := by
  have hscan : c.updateMinFreq.minFreq_ = 1 ∨
      1 ≤ c.updateMinFreq.minFreq_ ∧ c.HasList c.updateMinFreq.minFreq_ := by
    unfold updateMinFreq
    simp only []
    split
    · exact Or.inl rfl
    · rename_i hne
      refine Or.inr ?_
      rcases (foldl_least c.freqToFreqList_.entries INT8_MAX).2.2 with hr | ⟨e, he, hl, hr⟩
      · exact absurd hr hne
      · have hlook : c.freqToFreqList_.lookup e.1 = some e.2 := AList.mem_lookup_iff.mpr he
        obtain ⟨x, l, hx⟩ := List.exists_cons_of_ne_nil hl
        have hmem := (h.filed.mem e.1 x).mp (by
          rw [bucket, hlook, hx]
          exact List.mem_cons_self)
        have hpos := h.positive x hmem.1
        rw [hmem.2] at hpos
        have hleast : least c.freqToFreqList_ INT8_MAX = e.1 := hr
        rw [hleast]
        exact ⟨hpos, e.2, hlook⟩
  exact {
    toTended := updateMinFreq_tended c
    linked := {
      filed := h.filed
      residents := h.residents
      keys := h.keys
      made := h.made
      positive := h.positive
      one := h.one
      minFreq_pos := hscan.elim (fun he => he.ge) (fun hp => hp.1) }
    lists := fun _ hf => hf
    aims := fun _ hne => by
      rcases hscan with he | ⟨-, hl⟩
      · rw [he]
        exact h.one hne
      · exact hl }

theorem handleOverMaxAverageNum_linked (c : LFUCache K V) (s : Set ℕ) (h : c.Linked s)
    (it : Iteration K) :
    Ends (fun f => f = .overflow) (c.handleOverMaxAverageNum it) (Reordered s c) := by
  unfold handleOverMaxAverageNum
  split
  · exact ends_ok _ _ _ ⟨Tended.refl c, h, fun _ hf => hf, fun ha => ha⟩
  · refine ends_bind _ (ageNodes_linked c s h _ ?_) ?_
    · intro n hn
      exact h.residents n (((it.perm c.nodeMap_.entries).map Sigma.snd).mem_iff.mp hn)
    · exact fun d hd => ends_ok _ _ _ (hd.trans (updateMinFreq_linked d s hd.linked))

theorem setTotal_linked (c : LFUCache K V) (s : Set ℕ) (h : c.Linked s) (total : ℤ) :
    Reordered s c (c.setTotal total) where
  toTended := setTotal_tended c total
  linked := ⟨h.filed, h.residents, h.keys, h.made, h.positive, h.one, h.minFreq_pos⟩
  lists := fun _ hf => hf
  aims := fun ha => ha

theorem increaseFreq_linked (c : LFUCache K V) (s : Set ℕ) (h : c.Linked s) (it : Iteration K) :
    Ends (fun f => f = .overflow) (c.increaseFreq it) (Reordered s c) := by
  unfold increaseFreq increment
  split
  · have hset := setTotal_linked c s h (c.curTotalFreq_+1)
    change Ends _ (if _ then _ else _) _
    split
    · exact ends_mono (handleOverMaxAverageNum_linked _ s hset.linked it) (fun f hf => hf)
        (fun d hd => hset.trans hd)
    · exact ends_ok _ _ _ hset
  · exact ends_error _ _ _ rfl

theorem advanceMinFreq_linked (c : LFUCache K V) (s : Set ℕ) (h : c.Linked s) (n : ℕ) (hn : n ∈ s)
    (hlt : (c.nodes n).freq < INT_MAX) :
    Ends (fun f => f = .overflow)
      ((c.moved n ((c.nodes n).freq+1)).advanceMinFreq ((c.nodes n).freq+1)) (Reordered s c) := by
  have hpos := h.positive n hn
  have hmoved := moved_reordered c s h n hn ((c.nodes n).freq+1) (by omega)
  have hsub : (c.nodes n).freq+1-1 = (c.nodes n).freq := by omega
  have hm : (c.moved n ((c.nodes n).freq+1)).minFreq_ = c.minFreq_ := rfl
  rw [advanceMinFreq, hsub, hm, freqList_moved c n ((c.nodes n).freq+1) (by omega)]
  by_cases hf : (c.nodes n).freq = c.minFreq_
  · have hinc : increment c.minFreq_ = .ok (c.minFreq_+1) := if_pos (hf ▸ hlt)
    rw [if_pos hf]
    by_cases hempty : (bucket c.freqToFreqList_ (c.nodes n).freq).erase n = []
    · simp only [bind, Except.bind, if_pos hempty, hinc]
      have hl := hmoved.linked
      refine ends_ok _ _ _ {
        toTended := ⟨hmoved.capacity, hmoved.maxAvg, hmoved.nodeMap, hmoved.made, hmoved.key,
          hmoved.value⟩
        linked := ⟨hl.filed, hl.residents, hl.keys, hl.made, hl.positive, hl.one, by
          change 1 ≤ c.minFreq_+1
          omega⟩
        lists := hmoved.lists
        aims := fun _ _ => ?_ }
      have hself : ((c.moved n ((c.nodes n).freq+1)).nodes n).freq = c.minFreq_+1 := by
        rw [moved_freq, if_pos rfl, hf]
      have hlook := filed_lookup _ _ _ hl.filed n hn
      rw [hself] at hlook
      exact ⟨_, hlook⟩
    · simp only [bind, Except.bind, if_neg hempty]
      exact ends_ok _ _ _ hmoved
  · rw [if_neg hf]
    exact ends_ok _ _ _ hmoved

theorem getInternal_linked (c : LFUCache K V) (s : Set ℕ) (h : c.Linked s) (n : ℕ) (hn : n ∈ s)
    (it : Iteration K) :
    Ends (fun f => f = .overflow) (c.getInternal n it) (Reordered s c) := by
  unfold getInternal
  rw [removeFromFreqList_linked c s h n hn]
  change Ends _ (increment (c.nodes n).freq >>= fun freq =>
    (c.moved n freq).advanceMinFreq freq >>= fun d => d.increaseFreq it) _
  by_cases hlt : (c.nodes n).freq < INT_MAX
  · have hinc : increment (c.nodes n).freq = .ok ((c.nodes n).freq+1) := if_pos hlt
    rw [hinc]
    change Ends _ ((c.moved n ((c.nodes n).freq+1)).advanceMinFreq ((c.nodes n).freq+1) >>=
      fun d => d.increaseFreq it) _
    refine ends_bind _ (advanceMinFreq_linked c s h n hn hlt) ?_
    intro d hd
    exact ends_mono (increaseFreq_linked d s hd.linked it) (fun f hf => hf)
      (fun e he => hd.trans he)
  · have hinc : increment (c.nodes n).freq = .error .overflow := if_neg hlt
    rw [hinc]
    exact ends_error _ _ _ rfl

theorem setValue_linked (c : LFUCache K V) (s : Set ℕ) (h : c.Linked s) (n : ℕ) (value : V) :
    (c.setNode n { c.nodes n with value := value }).Linked s := by
  have hnode := setValue_node c n value
  exact {
    filed := filed_congr _ _ _ _ h.filed (fun m _ => (hnode m).1)
    residents := h.residents
    keys := fun k m hm => (hnode m).2.trans (h.keys k m hm)
    made := h.made
    positive := fun m hm => (hnode m).1.symm ▸ h.positive m hm
    one := h.one
    minFreq_pos := h.minFreq_pos }

theorem setValue_valueOf (c : LFUCache K V) (s : Set ℕ) (h : c.Linked s) (key : K) (n : ℕ)
    (hl : c.nodeMap_.lookup key = some n) (value : V) (k : K) :
    (c.setNode n { c.nodes n with value := value }).valueOf k =
      if k = key then some value else c.valueOf k := by
  unfold valueOf
  change (c.nodeMap_.lookup k).map (fun m => ((c.setNode n _).nodes m).value) = _
  by_cases hk : k = key
  · rw [if_pos hk, hk, hl, Option.map_some]
    simp [setNode]
  · rw [if_neg hk]
    cases hlk : c.nodeMap_.lookup k with
    | none => rfl
    | some m =>
      have hm : m ≠ n := by
        rintro rfl
        exact hk ((h.keys k m hlk).symm.trans (h.keys key m hl))
      simp [setNode, Function.update_of_ne hm]

theorem insertNode_linked (c : LFUCache K V) (s : Set ℕ) (h : c.Linked s) (key : K) (value : V)
    (hkey : c.nodeMap_.lookup key = none) :
    (c.insertNode key value).Linked (insert c.made s) ∧ (c.insertNode key value).HasList 1 := by
  have hres := insertNode_residents c key value hkey
  have hnew : c.made ∉ s := fun hm => absurd (h.made _ hm) (lt_irrefl _)
  have hold : ∀ n ∈ s, (c.insertNode key value).nodes n = c.nodes n :=
    fun n hn => insertNode_old c key value n (fun he => hnew (he ▸ hn))
  have hf := filed_congr _ _ (fun n => ((c.insertNode key value).nodes n).freq) _ h.filed
    (fun n hn => by rw [hold n hn])
  have ha := filed_add _ _ _ hf c.made hnew
  have hlists : (c.insertNode key value).freqToFreqList_ = add c.freqToFreqList_ 1 c.made := by
    simp [insertNode, addToFreqList, setNode]
  have hone : (c.insertNode key value).HasList 1 := by
    refine ⟨bucket c.freqToFreqList_ 1 ++ [c.made], ?_⟩
    rw [hlists]
    exact AList.lookup_insert _
  refine ⟨{
    filed := ?_
    residents := ?_
    keys := ?_
    made := ?_
    positive := ?_
    one := fun _ => hone
    minFreq_pos := h.minFreq_pos }, hone⟩
  · rw [hlists]
    rwa [insertNode_new] at ha
  · intro n hn
    rw [hres] at hn
    rcases List.mem_cons.mp hn with rfl | hn
    · exact Set.mem_insert _ _
    · exact Set.mem_insert_of_mem _ (h.residents n hn)
  · intro k n hl
    by_cases hk : k = key
    · subst hk
      have hn : n = c.made := Option.some.inj (hl.symm.trans (AList.lookup_insert _))
      rw [hn, insertNode_new]
    · have hl' : c.nodeMap_.lookup k = some n := (AList.lookup_insert_ne hk).symm.trans hl
      rw [hold n (h.residents n ((mem_residents c n).mpr ⟨k, hl'⟩))]
      exact h.keys k n hl'
  · rintro n (rfl | hn)
    · exact Nat.lt_succ_self _
    · exact (h.made n hn).trans (Nat.lt_succ_self _)
  · rintro n (rfl | hn)
    · rw [insertNode_new]
    · rw [hold n hn]
      exact h.positive n hn

def Drops (c c' : LFUCache K V) : Prop :=
  ∀ key, c'.valueOf key = c.valueOf key ∨ c'.valueOf key = none

theorem erase_valueOf (c c' : LFUCache K V) (key : K)
    (hmap : c'.nodeMap_ = c.nodeMap_.erase key) (hnodes : c'.nodes = c.nodes) : Drops c c' := by
  intro k
  unfold valueOf
  rw [hmap, hnodes]
  by_cases hk : k = key
  · rw [hk, AList.lookup_erase]
    exact Or.inr rfl
  · rw [AList.lookup_erase_ne hk]
    exact Or.inl rfl

theorem withoutNode_linked (c : LFUCache K V) (s : Set ℕ) (h : c.Linked s) (n : ℕ)
    (hne : c.residents ≠ []) : (c.withoutNode n).Linked (s \ {n}) where
  filed := filed_remove _ _ _ h.filed n
  residents := by
    intro m hm
    obtain ⟨k, hk⟩ := (mem_residents _ m).mp hm
    obtain ⟨hk', hl⟩ := lookup_of_erase c.nodeMap_ _ k m hk
    refine ⟨h.residents m ((mem_residents c m).mpr ⟨k, hl⟩), ?_⟩
    rintro rfl
    exact hk' (h.keys k m hl).symm
  keys := fun k m hk => h.keys k m (lookup_of_erase c.nodeMap_ _ k m hk).2
  made := fun m hm => h.made m hm.1
  positive := fun m hm => h.positive m hm.1
  one := fun _ => hasList_insert _ _ _ _ (h.one hne)
  minFreq_pos := h.minFreq_pos

theorem erase_linked (c : LFUCache K V) (s : Set ℕ) (h : c.Linked s) (key : K)
    (hne : c.residents ≠ []) : Linked { c with nodeMap_ := c.nodeMap_.erase key } s where
  filed := h.filed
  residents := by
    intro m hm
    obtain ⟨k, hk⟩ := (mem_residents _ m).mp hm
    have hl := (lookup_of_erase c.nodeMap_ key k m hk).2
    exact h.residents m ((mem_residents c m).mpr ⟨k, hl⟩)
  keys := fun k m hk => h.keys k m (lookup_of_erase c.nodeMap_ key k m hk).2
  made := h.made
  positive := h.positive
  one := fun _ => h.one hne
  minFreq_pos := h.minFreq_pos

variable [Inhabited K]

/-- An eviction takes a node out of its list, be it a resident or not, and the
key of that node, or the key of a sentinel, out of the map. -/
theorem kickOut_linked (c : LFUCache K V) (s : Set ℕ) (h : c.Linked s) (ha : c.Aims)
    (hne : c.residents ≠ []) :
    Ends (fun f => f = .overflow) c.kickOut (fun c' => ∃ s', c'.Linked s' ∧ Drops c c' ∧
      c'.capacity_ = c.capacity_) := by
  obtain ⟨l, hl⟩ := ha hne
  have hlist : c.freqList c.minFreq_ = .ok l := by rw [freqList, hl]
  rw [kickOut, hlist]
  cases l with
  | cons n rest =>
    have hmem := (h.filed.mem c.minFreq_ n).mp (by
      rw [bucket, hl]
      exact List.mem_cons_self)
    change Ends _ (c.removeFromFreqList n >>= fun d =>
      LFUCache.decreaseFreq { d with nodeMap_ := d.nodeMap_.erase (d.nodes n).key }
        (d.nodes n).freq) _
    rw [removeFromFreqList_linked c s h n hmem.1]
    change Ends _ (subtract c.curTotalFreq_ (c.nodes n).freq >>= fun total =>
      .ok ((c.withoutNode n).setTotal total)) _
    unfold subtract
    split
    · have hset := setTotal_linked _ _ (withoutNode_linked c s h n hne)
        (c.curTotalFreq_-(c.nodes n).freq)
      refine ends_ok _ _ _ ⟨s \ {n}, hset.linked, ?_, rfl⟩
      exact erase_valueOf c _ (c.nodes n).key rfl rfl
    · exact ends_error _ _ _ rfl
  | nil =>
    obtain ⟨l, hl1⟩ := h.one hne
    have hlist1 : c.freqList 1 = .ok l := by rw [freqList, hl1]
    change Ends _ (c.freqList 1 >>= fun _ =>
      LFUCache.decreaseFreq { c with nodeMap_ := c.nodeMap_.erase default } 1) _
    rw [hlist1]
    change Ends _ (subtract c.curTotalFreq_ 1 >>= fun total =>
      .ok (LFUCache.setTotal { c with nodeMap_ := c.nodeMap_.erase default } total)) _
    unfold subtract
    split
    · have hset := setTotal_linked _ _ (erase_linked c s h default hne) (c.curTotalFreq_-1)
      exact ends_ok _ _ _ ⟨s, hset.linked, erase_valueOf c _ default rfl rfl, rfl⟩
    · exact ends_error _ _ _ rfl

def Live (c : LFUCache K V) : Prop :=
  ∃ s, c.Linked s ∧ c.Aims ∧ (c.capacity_ = 0 → c.residents = [])

omit [Inhabited K] in
theorem insert_live (c : LFUCache K V) (s : Set ℕ) (h : c.Linked s) (hcap : c.capacity_ ≠ 0)
    (key : K) (value : V) (hkey : c.nodeMap_.lookup key = none) (it : Iteration K) :
    Ends (fun f => f = .overflow) ((c.insertNode key value).increaseFreq it >>= fun e =>
      .ok { e with minFreq_ := min e.minFreq_ 1 })
      (fun c' => c'.Live ∧ ∀ k, c'.valueOf k = if k = key then some value else c.valueOf k) := by
  obtain ⟨hlinked, hone⟩ := insertNode_linked c s h key value hkey
  refine ends_bind _ (increaseFreq_linked _ _ hlinked it) ?_
  intro e he
  have hmin : min e.minFreq_ 1 = 1 := min_eq_right he.linked.minFreq_pos
  have hl := he.linked
  rw [hmin]
  refine ends_ok _ _ _ ⟨⟨insert c.made s, ?_, fun _ => he.lists 1 hone, fun hc => ?_⟩, fun k => ?_⟩
  · exact ⟨hl.filed, hl.residents, hl.keys, hl.made, hl.positive, hl.one, le_refl _⟩
  · exact absurd (he.capacity.symm.trans hc) hcap
  · exact (he.valueOf k).trans (insertNode_valueOf c (fun n hn => h.made n (h.residents n hn)) key
      value k)

omit [Inhabited K] in
theorem getInternal_live (c : LFUCache K V) (h : c.Live) (key : K) (n : ℕ)
    (hl : c.nodeMap_.lookup key = some n) (it : Iteration K) :
    Ends (fun f => f = .overflow) (c.getInternal n it)
      (fun c' => c'.Live ∧ ∀ k, c'.valueOf k = c.valueOf k) := by
  obtain ⟨s, hs, ha, hempty⟩ := h
  have hn : n ∈ c.residents := (mem_residents c n).mpr ⟨key, hl⟩
  refine ends_mono (getInternal_linked c s hs n (hs.residents n hn) it) (fun f hf => hf) ?_
  intro d hd
  refine ⟨⟨s, hd.linked, hd.aims ha, fun hc => ?_⟩, hd.valueOf⟩
  rw [hd.residents]
  exact hempty (hd.capacity.symm.trans hc)

/-- A put stores its value or, without capacity, nothing; it may cost other
keys their entries and changes none. -/
theorem put_live (c : LFUCache K V) (h : c.Live) (key : K) (value : V) (it : Iteration K) :
    Ends (fun f => f = .overflow) (c.put key value it)
      (fun c' => c'.Live ∧ (c'.valueOf key = some value ∨ c'.valueOf key = none) ∧
        ∀ k, k ≠ key → c'.valueOf k = c.valueOf k ∨ c'.valueOf k = none) := by
  unfold put
  split
  · rename_i hcap
    obtain ⟨s, hs, ha, hempty⟩ := h
    have hnone : c.nodeMap_.lookup key = none := by
      cases hl : c.nodeMap_.lookup key with
      | none => rfl
      | some n =>
        have hn := (mem_residents c n).mpr ⟨key, hl⟩
        rw [hempty hcap] at hn
        exact absurd hn List.not_mem_nil
    exact ends_ok _ _ _ ⟨⟨s, hs, ha, hempty⟩, Or.inr (by rw [valueOf, hnone]; rfl),
      fun k _ => Or.inl rfl⟩
  · rename_i hcap
    cases hl : c.nodeMap_.lookup key with
    | some n =>
      obtain ⟨s, hs, ha, hempty⟩ := h
      have hlive : (c.setNode n { c.nodes n with value := value }).Live :=
        ⟨s, setValue_linked c s hs n value, ha, hempty⟩
      refine ends_mono (getInternal_live _ hlive key n hl it) (fun f hf => hf) ?_
      rintro d ⟨hd, hv⟩
      refine ⟨hd, Or.inl ?_, fun k hk => Or.inl ?_⟩
      · rw [hv, setValue_valueOf c s hs key n hl, if_pos rfl]
      · rw [hv, setValue_valueOf c s hs key n hl, if_neg hk]
    | none =>
      obtain ⟨s, hs, ha, hempty⟩ := h
      simp only []
      rw [putInternal_eq]
      by_cases hfull : c.size = c.capacity_
      · rw [if_pos hfull]
        have hne : c.residents ≠ [] := by
          intro he
          have hlen := length_residents c
          rw [he, List.length_nil] at hlen
          omega
        refine ends_bind _ (kickOut_linked c s hs ha hne) ?_
        rintro d ⟨s', hd, hdrops, hdcap⟩
        have hdkey : d.nodeMap_.lookup key = none := by
          have hv : c.valueOf key = none := by rw [valueOf, hl]; rfl
          have hd' : d.valueOf key = none := (hdrops key).elim (fun he => he.trans hv) id
          exact Option.map_eq_none_iff.mp hd'
        refine ends_mono (insert_live d s' hd (hdcap ▸ hcap) key value hdkey it)
          (fun f hf => hf) ?_
        rintro e ⟨he, hv⟩
        refine ⟨he, Or.inl (by rw [hv, if_pos rfl]), fun k hk => ?_⟩
        rw [hv, if_neg hk]
        exact hdrops k
      · rw [if_neg hfull]
        refine ends_mono (insert_live c s hs hcap key value hl it) (fun f hf => hf) ?_
        rintro e ⟨he, hv⟩
        exact ⟨he, Or.inl (by rw [hv, if_pos rfl]), fun k hk => Or.inl (by rw [hv, if_neg hk])⟩

omit [Inhabited K] in
theorem get?_live (c : LFUCache K V) (h : c.Live) (key : K) (it : Iteration K) :
    Ends (fun f => f = .overflow) (c.get? key it)
      (fun r => r.1 = c.valueOf key ∧ r.2.Live ∧ ∀ k, r.2.valueOf k = c.valueOf k) := by
  unfold get?
  cases hl : c.nodeMap_.lookup key with
  | none => exact ends_ok _ _ _ ⟨by rw [valueOf, hl]; rfl, h, fun _ => rfl⟩
  | some n =>
    refine ends_bind _ (getInternal_live c h key n hl it) ?_
    rintro d ⟨hd, hv⟩
    exact ends_ok _ _ _ ⟨by rw [valueOf, hl]; rfl, hd, hv⟩

omit [Inhabited K] in
theorem purge_live (c : LFUCache K V) (h : c.Live) :
    c.purge.Live ∧ ∀ k, c.purge.valueOf k = none := by
  obtain ⟨s, hs, -, -⟩ := h
  have hres : c.purge.residents = [] := rfl
  refine ⟨⟨∅, ?_, fun hne => absurd hres hne, fun _ => hres⟩, fun k => ?_⟩
  · exact {
      filed := filed_empty _
      residents := fun n hn => by rw [hres] at hn; exact absurd hn List.not_mem_nil
      keys := fun key n hl => absurd hl (by simp [purge])
      made := fun n hn => absurd hn (Set.notMem_empty n)
      positive := fun n hn => absurd hn (Set.notMem_empty n)
      one := fun hne => absurd hres hne
      minFreq_pos := hs.minFreq_pos }
  · simp [valueOf, purge]

theorem create_live [Inhabited V] (capacity : ℕ) (maxAverageNum : ℤ) :
    (create capacity maxAverageNum : LFUCache K V).Live := by
  have hres : (create capacity maxAverageNum : LFUCache K V).residents = [] := rfl
  refine ⟨∅, ?_, fun hne => absurd hres hne, fun _ => hres⟩
  exact {
    filed := filed_empty _
    residents := fun n hn => by rw [hres] at hn; exact absurd hn List.not_mem_nil
    keys := fun key n hl => absurd hl (by simp [create])
    made := fun n hn => absurd hn (Set.notMem_empty n)
    positive := fun n hn => absurd hn (Set.notMem_empty n)
    one := fun hne => absurd hres hne
    minFreq_pos := show (1 : ℤ) ≤ INT8_MAX by decide }

end LFUCache
end MuServer
