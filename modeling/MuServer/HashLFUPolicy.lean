import MuServer.HashLFUCache
import MuServer.LFUPolicy

/-!
# The slices of the cache

The sliced cache is as many caches as it has slices, each by itself: a slice
sees the operations on its own keys and every purge, in their order, and none
of the others. So each slice follows the policy on its own.
-/

set_option autoImplicit false

namespace MuServer
open Lib.Fallible

namespace HashLFUCache

variable {K V : Type} [DecidableEq K] (Hash : K → ℕ) (slices : ℕ)

def concerns (index : ℕ) : CacheOp K V → Bool
  | .put key _ => Hash key % slices = index
  | .get key => Hash key % slices = index
  | .purge => true

def seen (index : ℕ) (ops : List (CacheOp K V × Iteration K)) :
    List (CacheOp K V × Iteration K) :=
  ops.filter (fun op => concerns Hash slices index op.1)

variable [Inhabited K] [Inhabited V]

omit [Inhabited K] in
theorem get_second (h : HashLFUCache K V) (key : K) (it : Iteration K) :
    (h.get Hash key it).map Prod.snd = (do
      let c ← h.slice (h.sliceIndex Hash key)
      let c' ← (c.get key it).map Prod.snd
      Except.ok (h.setSlice (h.sliceIndex Hash key) c')) := by
  unfold get get? LFUCache.get
  cases h.slice (h.sliceIndex Hash key) with
  | error f => rfl
  | ok c =>
    cases hget : c.get? key it with
    | error f => simp [bind, Except.bind, Except.map, hget]
    | ok r => simp [bind, Except.bind, Except.map, hget]

/-- An operation is one of the slice it concerns; the others stay. -/
theorem apply_slice (h h' : HashLFUCache K V) (op : CacheOp K V) (it : Iteration K)
    (hop : h.apply Hash op it = .ok h') (index : ℕ) (c : LFUCache K V)
    (hc : h.LFUSliceCaches_[index]? = some c) :
    h'.sliceNum_ = h.sliceNum_ ∧ ∃ c', h'.LFUSliceCaches_[index]? = some c' ∧
      if concerns Hash (toSize h.sliceNum_) index op then c.apply op it = .ok c' else c' = c := by
  have hset : ∀ (key : K) (run : LFUCache K V → Except Fault (LFUCache K V)),
      (h.slice (h.sliceIndex Hash key) >>= fun d => run d >>= fun d' =>
        Except.ok (h.setSlice (h.sliceIndex Hash key) d')) = .ok h' →
      h'.sliceNum_ = h.sliceNum_ ∧ ∃ c', h'.LFUSliceCaches_[index]? = some c' ∧
        if Hash key % toSize h.sliceNum_ = index then run c = .ok c' else c' = c := by
    intro key run hrun
    obtain ⟨d, hd, hrun⟩ := bind_eq_ok hrun
    obtain ⟨d', hd', hrun⟩ := bind_eq_ok hrun
    obtain rfl := Except.ok.inj hrun
    have hlt := (List.getElem?_eq_some_iff.mp hc).1
    refine ⟨rfl, ?_⟩
    change ∃ c', (h.LFUSliceCaches_.set (h.sliceIndex Hash key) d')[index]? = some c' ∧ _
    rw [List.getElem?_set]
    by_cases hi : h.sliceIndex Hash key = index
    · have hcd : c = d := by
        rw [slice, hi, hc] at hd
        exact Except.ok.inj hd
      rw [if_pos hi, if_pos (hi ▸ hlt)]
      refine ⟨d', rfl, ?_⟩
      rw [if_pos (show Hash key % toSize h.sliceNum_ = index from hi), hcd]
      exact hd'
    · rw [if_neg hi]
      exact ⟨c, hc, by rw [if_neg (show ¬Hash key % toSize h.sliceNum_ = index from hi)]⟩
  cases op with
  | put key value =>
    obtain ⟨hnum, c', hc', hcase⟩ := hset key (fun d => d.put key value it) hop
    refine ⟨hnum, c', hc', ?_⟩
    simp only [concerns, decide_eq_true_eq]
    exact hcase
  | get key =>
    have hget := (get_second Hash h key it).symm.trans hop
    obtain ⟨hnum, c', hc', hcase⟩ := hset key (fun d => (d.get key it).map Prod.snd) hget
    refine ⟨hnum, c', hc', ?_⟩
    simp only [concerns, decide_eq_true_eq]
    exact hcase
  | purge =>
    obtain rfl := Except.ok.inj hop
    refine ⟨rfl, c.purge, ?_, ?_⟩
    · change (h.LFUSliceCaches_.map LFUCache.purge)[index]? = some c.purge
      rw [List.getElem?_map, hc]
      rfl
    · rw [concerns, if_pos rfl]
      rfl

theorem applyAll_slice (h h' : HashLFUCache K V) (ops : List (CacheOp K V × Iteration K))
    (hops : h.applyAll Hash ops = .ok h') (index : ℕ) (c : LFUCache K V)
    (hc : h.LFUSliceCaches_[index]? = some c) :
    h'.sliceNum_ = h.sliceNum_ ∧ ∃ c', h'.LFUSliceCaches_[index]? = some c' ∧
      c.applyAll (seen Hash (toSize h.sliceNum_) index ops) = .ok c' := by
  induction ops generalizing h c with
  | nil =>
    obtain rfl := Except.ok.inj hops
    exact ⟨rfl, c, hc, rfl⟩
  | cons op ops ih =>
    obtain ⟨g, hg, hops⟩ := bind_eq_ok hops
    obtain ⟨hnum, d, hd, hcase⟩ := apply_slice Hash h g op.1 op.2 hg index c hc
    obtain ⟨hnum', c', hc', hrest⟩ := ih g hops d hd
    rw [hnum] at hnum' hrest
    refine ⟨hnum', c', hc', ?_⟩
    rw [seen, List.filter_cons]
    split at hcase
    · rename_i hyes
      rw [if_pos hyes, LFUCache.applyAll, hcase]
      exact hrest
    · rename_i hno
      rw [if_neg hno, ← hcase]
      exact hrest

/-- The sliced cache finds what one policy for each slice holds, every slice having
had the operations on its own keys. -/
theorem applyAll_policies (capacity : ℕ) (sliceNum maxAverageNum : ℤ) (hardware_concurrency : ℕ)
    (hpos : 0 < sliceNum) (hmax : sliceNum ≤ INT_MAX) (h h' : HashLFUCache K V)
    (hc : create capacity sliceNum maxAverageNum hardware_concurrency = .ok h) (size : ℕ)
    (hsize : sliceSize capacity sliceNum = .ok size) (hsome : 1 ≤ size)
    (ht : LFUCache.Temperate maxAverageNum) (ops : List (CacheOp K V × Iteration K))
    (hops : h.applyAll Hash ops = .ok h') :
    ∃ q : ℕ → Policy K V,
      (∀ index < sliceNum.toNat,
        ((LFUCache.create size maxAverageNum).iterated (seen Hash sliceNum.toNat index ops)).map
          Prod.fst = (seen Hash sliceNum.toNat index ops).map Prod.fst ∧
        Policy.Run size maxAverageNum {} ((LFUCache.create size maxAverageNum).iterated
          (seen Hash sliceNum.toNat index ops)) (q index)) ∧
      ∀ key, h'.valueOf Hash key = ((q (Hash key % sliceNum.toNat)).held key).map Use.value := by
  unfold create at hc
  simp only [if_pos hpos, hsize] at hc
  obtain rfl := Except.ok.inj hc
  have hnum : toSize sliceNum = sliceNum.toNat := LFUCache.toSize_nonneg sliceNum hpos.le hmax
  have heach : ∀ index, ∃ q : Policy K V, index < sliceNum.toNat →
      (((LFUCache.create size maxAverageNum).iterated (seen Hash sliceNum.toNat index ops)).map
          Prod.fst = (seen Hash sliceNum.toNat index ops).map Prod.fst ∧
        Policy.Run size maxAverageNum {} ((LFUCache.create size maxAverageNum).iterated
          (seen Hash sliceNum.toNat index ops)) q) ∧
      h'.sliceNum_ = sliceNum ∧ ∃ c, h'.LFUSliceCaches_[index]? = some c ∧
        ∀ key, c.valueOf key = (q.held key).map Use.value := by
    intro index
    by_cases hlt : index < sliceNum.toNat
    · have hfirst : (List.replicate sliceNum.toNat
          (LFUCache.create size maxAverageNum : LFUCache K V))[index]? =
            some (LFUCache.create size maxAverageNum) := by
        rw [List.getElem?_replicate, if_pos hlt]
      obtain ⟨hsame, c, hc, hrun⟩ := applyAll_slice Hash _ h' ops hops index _ hfirst
      obtain ⟨hsame', q, stamp, hq, hrep⟩ := LFUCache.applyAll_represents _ c
        (LFUCache.create_temperate_sound size hsome maxAverageNum ht) ht {} _
        (LFUCache.create_represents _ _) _ hrun
      refine ⟨q, fun _ => ⟨?_, hsame, c, hc, fun key => ?_⟩⟩
      · rw [← hnum]
        exact ⟨hsame', hq⟩
      · rw [hrep.held key, Option.map_map]
        rfl
    · exact ⟨{}, fun hyes => absurd hyes hlt⟩
  choose q hq using heach
  refine ⟨q, fun index hlt => (hq index hlt).1, fun key => ?_⟩
  have hlt : Hash key % sliceNum.toNat < sliceNum.toNat := Nat.mod_lt _ (by omega)
  obtain ⟨-, hsame, c, hc, hvalue⟩ := hq _ hlt
  rw [valueOf, sliceIndex, hsame, hnum, hc, Option.bind_some, hvalue]

theorem applyAll_policies_threeKeys :
    ∃ (h h' : HashLFUCache ℕ ℕ) (q : ℕ → Policy ℕ ℕ), create 6 3 10 0 = .ok h ∧
      h.applyAll id threeKeys = .ok h' ∧
      Policy.Run 2 10 {} ((LFUCache.create 2 10).iterated (seen id 3 1 threeKeys)) (q 1) ∧
      ((q 1).held 4).map Use.value = some 40 := by
  have hs : sliceSize 6 3 = .ok 2 := sliceSize_even 2 3 (by decide) (by decide)
  have hc : create 6 3 10 0 = .ok (HashLFUCache.mk 6 3
      (List.replicate 3 (LFUCache.create 2 10 : LFUCache ℕ ℕ))) := by
    rw [create]
    simp only [show (0 : ℤ) < 3 by decide, if_true, hs]
    rfl
  have hrun : ((HashLFUCache.mk 6 3 (List.replicate 3
      (LFUCache.create 2 10 : LFUCache ℕ ℕ))).applyAll id threeKeys).map
        (fun h => h.valueOf id 4) = .ok (some 40) := by
    decide +kernel
  cases hh : (HashLFUCache.mk 6 3 (List.replicate 3
      (LFUCache.create 2 10 : LFUCache ℕ ℕ))).applyAll id threeKeys with
  | error f =>
    rw [hh] at hrun
    exact absurd hrun (by simp [Except.map])
  | ok h' =>
    obtain ⟨q, hq, hvalue⟩ := applyAll_policies id 6 3 10 0 (by decide) (by decide) _ h' hc 2 hs
      (by decide) (by decide) threeKeys hh
    rw [hh, Except.map, Except.ok.injEq, hvalue] at hrun
    exact ⟨_, h', q, hc, hh, (hq 1 (by decide)).2, hrun⟩

end HashLFUCache
end MuServer
