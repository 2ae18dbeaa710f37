import MuServer.LFULinks
import MuServer.Lib.Binary64

/-!
# The sliced cache

A key belongs to the slice that its hash selects, and each slice is a cache of
its own. A lookup that hits answers with the last value put under the key since
the last purge, and an operation on a key stays within its slice.
-/

set_option autoImplicit false

namespace MuServer
open Lib.Fallible

structure HashLFUCache (K V : Type) where
  capacity_ : ℕ
  sliceNum_ : ℤ
  LFUSliceCaches_ : List (LFUCache K V)

namespace HashLFUCache

variable {K V : Type} [DecidableEq K] [Inhabited K] [Inhabited V]

/-- `std::ceil(capacity_ / static_cast<double>(sliceNum_))` as a `size_t`. -/
def sliceSize (capacity : ℕ) (sliceNum : ℤ) : Except Fault ℕ :=
  let size : ℤ := ⌈Lib.Binary64.round (Lib.Binary64.round capacity/sliceNum)⌉
  if sliceNum ≠ 0 ∧ 0 ≤ size ∧ size < 2^64 then .ok size.toNat else .error .overflow

def create (capacity : ℕ) (sliceNum maxAverageNum : ℤ) (hardware_concurrency : ℕ) :
    Except Fault (HashLFUCache K V) := do
  let slices : ℤ := if 0 < sliceNum then sliceNum else hardware_concurrency
  let size ← sliceSize capacity slices
  .ok {
    capacity_ := capacity
    sliceNum_ := slices
    LFUSliceCaches_ := List.replicate slices.toNat (LFUCache.create size maxAverageNum) }

variable (Hash : K → ℕ)

def sliceIndex (h : HashLFUCache K V) (key : K) : ℕ := Hash key % toSize h.sliceNum_

def slice (h : HashLFUCache K V) (index : ℕ) : Except Fault (LFUCache K V) :=
  match h.LFUSliceCaches_[index]? with
  | some c => .ok c
  | none => .error .outOfRange

def setSlice (h : HashLFUCache K V) (index : ℕ) (c : LFUCache K V) : HashLFUCache K V :=
  { h with LFUSliceCaches_ := h.LFUSliceCaches_.set index c }

def put (h : HashLFUCache K V) (key : K) (value : V) (it : Iteration K) :
    Except Fault (HashLFUCache K V) := do
  let c ← h.slice (h.sliceIndex Hash key)
  let c' ← c.put key value it
  .ok (h.setSlice (h.sliceIndex Hash key) c')

def get? (h : HashLFUCache K V) (key : K) (it : Iteration K) :
    Except Fault (Option V × HashLFUCache K V) := do
  let c ← h.slice (h.sliceIndex Hash key)
  let (value, c') ← c.get? key it
  .ok (value, h.setSlice (h.sliceIndex Hash key) c')

def get (h : HashLFUCache K V) (key : K) (it : Iteration K) :
    Except Fault (V × HashLFUCache K V) := do
  let (value, h') ← h.get? Hash key it
  .ok (value.getD default, h')

def purge (h : HashLFUCache K V) : HashLFUCache K V :=
  { h with LFUSliceCaches_ := h.LFUSliceCaches_.map LFUCache.purge }

def apply (h : HashLFUCache K V) (op : CacheOp K V) (it : Iteration K) :
    Except Fault (HashLFUCache K V) :=
  match op with
  | .put key value => h.put Hash key value it
  | .get key => (h.get Hash key it).map Prod.snd
  | .purge => .ok h.purge

def applyAll (h : HashLFUCache K V) : List (CacheOp K V × Iteration K) →
    Except Fault (HashLFUCache K V)
  | [] => .ok h
  | op::ops => do
    let h' ← h.apply Hash op.1 op.2
    h'.applyAll ops

def valueOf (h : HashLFUCache K V) (key : K) : Option V :=
  (h.LFUSliceCaches_[h.sliceIndex Hash key]?).bind (fun c => c.valueOf key)

end HashLFUCache

/-- `value` is the one last put under `key`, and no purge has followed. -/
def LastPut {K V : Type} (ops : List (CacheOp K V)) (key : K) (value : V) : Prop :=
  ∃ earlier later, ops = earlier ++ .put key value :: later ∧
    (∀ v, CacheOp.put key v ∉ later) ∧ CacheOp.purge ∉ later

theorem lastPut_put {K V : Type} (ops : List (CacheOp K V)) (key : K) (value : V) :
    LastPut (ops ++ [.put key value]) key value :=
  ⟨ops, [], rfl, by simp, by simp⟩

/-- Operations that neither put the key nor purge leave its last value. -/
theorem lastPut_snoc {K V : Type} (ops : List (CacheOp K V)) (op : CacheOp K V) (key : K)
    (value : V) (h : LastPut ops key value) (hput : ∀ v, op ≠ .put key v) (hpurge : op ≠ .purge) :
    LastPut (ops ++ [op]) key value := by
  obtain ⟨earlier, later, rfl, hl, hp⟩ := h
  refine ⟨earlier, later ++ [op], by simp, fun v hv => ?_, fun hv => ?_⟩
  · rcases List.mem_append.mp hv with hv | hv
    · exact hl v hv
    · exact hput v (List.mem_singleton.mp hv).symm
  · rcases List.mem_append.mp hv with hv | hv
    · exact hp hv
    · exact hpurge (List.mem_singleton.mp hv).symm

namespace HashLFUCache

variable {K V : Type} [DecidableEq K] (Hash : K → ℕ)

structure Remembers (h : HashLFUCache K V) (ops : List (CacheOp K V)) : Prop where
  slices : h.LFUSliceCaches_.length = toSize h.sliceNum_
  some_slice : 0 < toSize h.sliceNum_
  live : ∀ c ∈ h.LFUSliceCaches_, c.Live
  values : ∀ key value, h.valueOf Hash key = some value → LastPut ops key value

theorem slice_ok (h : HashLFUCache K V) (ops : List (CacheOp K V)) (hr : h.Remembers Hash ops)
    (key : K) : ∃ c, h.LFUSliceCaches_[h.sliceIndex Hash key]? = some c ∧ c.Live ∧
      h.slice (h.sliceIndex Hash key) = .ok c ∧ h.valueOf Hash key = c.valueOf key := by
  have hlt : h.sliceIndex Hash key < h.LFUSliceCaches_.length := by
    rw [hr.slices]
    exact Nat.mod_lt _ hr.some_slice
  have hget := List.getElem?_eq_getElem hlt
  refine ⟨_, hget, hr.live _ (List.getElem_mem hlt), ?_, ?_⟩
  · rw [slice, hget]
  · rw [valueOf, hget]
    rfl

theorem setSlice_valueOf (h : HashLFUCache K V) (key k : K) (c c' : LFUCache K V)
    (hc : h.LFUSliceCaches_[h.sliceIndex Hash key]? = some c) :
    (h.setSlice (h.sliceIndex Hash key) c').valueOf Hash k =
      if h.sliceIndex Hash k = h.sliceIndex Hash key then c'.valueOf k else h.valueOf Hash k := by
  unfold valueOf
  change ((h.LFUSliceCaches_.set (h.sliceIndex Hash key) c')[h.sliceIndex Hash k]?).bind _ = _
  rw [List.getElem?_set]
  by_cases hi : h.sliceIndex Hash k = h.sliceIndex Hash key
  · have hlt := (List.getElem?_eq_some_iff.mp hc).1
    rw [if_pos hi.symm, if_pos hlt, if_pos hi]
    rfl
  · rw [if_neg (fun he => hi he.symm), if_neg hi]

theorem setSlice_remembers (h : HashLFUCache K V) (ops : List (CacheOp K V))
    (hr : h.Remembers Hash ops) (index : ℕ) (c : LFUCache K V) (hc : c.Live)
    (ops' : List (CacheOp K V))
    (hv : ∀ key value, (h.setSlice index c).valueOf Hash key = some value →
      LastPut ops' key value) : (h.setSlice index c).Remembers Hash ops' where
  slices := (List.length_set).trans hr.slices
  some_slice := hr.some_slice
  live := fun d hd => (List.mem_or_eq_of_mem_set hd).elim (hr.live d) (fun he => he ▸ hc)
  values := hv

def Apart (h h' : HashLFUCache K V) (key : K) : Prop :=
  ∀ k, h.sliceIndex Hash k ≠ h.sliceIndex Hash key → h'.valueOf Hash k = h.valueOf Hash k

theorem setSlice_apart (h : HashLFUCache K V) (key : K) (c c' : LFUCache K V)
    (hc : h.LFUSliceCaches_[h.sliceIndex Hash key]? = some c) :
    h.Apart Hash (h.setSlice (h.sliceIndex Hash key) c') key := by
  intro k hk
  rw [setSlice_valueOf Hash h key k c c' hc, if_neg hk]

theorem get?_ends (h : HashLFUCache K V) (ops : List (CacheOp K V)) (hr : h.Remembers Hash ops)
    (key : K) (it : Iteration K) :
    Ends (fun f => f = .overflow) (h.get? Hash key it)
      (fun r => r.1 = h.valueOf Hash key ∧ r.2.Remembers Hash (ops ++ [.get key]) ∧
        h.Apart Hash r.2 key) := by
  obtain ⟨c, hc, hlive, hslice, hvalue⟩ := slice_ok Hash h ops hr key
  unfold get?
  rw [hslice]
  refine ends_bind (α := LFUCache K V) _ (ends_ok _ c (fun d => d = c) rfl) ?_
  rintro _ rfl
  refine ends_bind _ (LFUCache.get?_live _ hlive key it) ?_
  rintro ⟨value, c'⟩ ⟨rfl, hlive', hv⟩
  refine ends_ok _ _ _ ⟨hvalue.symm, ?_, setSlice_apart Hash h key _ c' hc⟩
  refine setSlice_remembers Hash h ops hr _ c' hlive' _ (fun k v hk => ?_)
  rw [setSlice_valueOf Hash h key k _ c' hc] at hk
  have hold : h.valueOf Hash k = some v := by
    split at hk
    · rename_i hi
      rw [valueOf, hi, hc]
      exact (hv k).symm.trans hk
    · exact hk
  exact lastPut_snoc ops (.get key) k v (hr.values k v hold) (by simp) (by simp)

variable [Inhabited K]

theorem put_ends (h : HashLFUCache K V) (ops : List (CacheOp K V)) (hr : h.Remembers Hash ops)
    (key : K) (value : V) (it : Iteration K) :
    Ends (fun f => f = .overflow) (h.put Hash key value it)
      (fun h' => h'.Remembers Hash (ops ++ [.put key value]) ∧ h.Apart Hash h' key) := by
  obtain ⟨c, hc, hlive, hslice, -⟩ := slice_ok Hash h ops hr key
  unfold put
  rw [hslice]
  refine ends_bind (α := LFUCache K V) _ (ends_ok _ c (fun d => d = c) rfl) ?_
  rintro _ rfl
  refine ends_bind _ (LFUCache.put_live _ hlive key value it) ?_
  rintro c' ⟨hlive', hown, hother⟩
  refine ends_ok _ _ _ ⟨?_, setSlice_apart Hash h key _ c' hc⟩
  refine setSlice_remembers Hash h ops hr _ c' hlive' _ (fun k v hk => ?_)
  rw [setSlice_valueOf Hash h key k _ c' hc] at hk
  by_cases hkey : k = key
  · subst hkey
    rw [if_pos rfl] at hk
    rcases hown with he | he
    · obtain rfl := Option.some.inj (he.symm.trans hk)
      exact lastPut_put ops k _
    · exact absurd (he.symm.trans hk) (by simp)
  · have hold : h.valueOf Hash k = some v := by
      split at hk
      · rename_i hi
        rw [valueOf, hi, hc]
        rcases hother k hkey with he | he
        · exact he.symm.trans hk
        · exact absurd (he.symm.trans hk) (by simp)
      · exact hk
    refine lastPut_snoc ops (.put key value) k v (hr.values k v hold) ?_ (by simp)
    rintro v' ⟨⟩
    exact hkey rfl

omit [Inhabited K] in
theorem purge_remembers (h : HashLFUCache K V) (ops : List (CacheOp K V))
    (hr : h.Remembers Hash ops) : h.purge.Remembers Hash (ops ++ [.purge]) where
  slices := (List.length_map _).trans hr.slices
  some_slice := hr.some_slice
  live := by
    intro c hc
    obtain ⟨d, hd, rfl⟩ := List.mem_map.mp hc
    exact (LFUCache.purge_live d (hr.live d hd)).1
  values := by
    intro key value hv
    unfold valueOf at hv
    change ((h.LFUSliceCaches_.map LFUCache.purge)[h.sliceIndex Hash key]?).bind _ = _ at hv
    rw [List.getElem?_map] at hv
    cases hs : h.LFUSliceCaches_[h.sliceIndex Hash key]? with
    | none => simp [hs] at hv
    | some c =>
      rw [hs] at hv
      have hnone := (LFUCache.purge_live c (hr.live c (List.mem_of_getElem? hs))).2 key
      exact absurd (hnone.symm.trans hv) (by simp)

variable [Inhabited V]

theorem apply_ends (h : HashLFUCache K V) (ops : List (CacheOp K V)) (hr : h.Remembers Hash ops)
    (op : CacheOp K V) (it : Iteration K) :
    Ends (fun f => f = .overflow) (h.apply Hash op it)
      (fun h' => h'.Remembers Hash (ops ++ [op])) := by
  cases op with
  | put key value =>
    exact ends_mono (put_ends Hash h ops hr key value it) (fun f hf => hf) (fun h' hh => hh.1)
  | get key =>
    have hget : (h.get Hash key it).map Prod.snd = (h.get? Hash key it).map Prod.snd := by
      unfold get
      cases h.get? Hash key it <;> rfl
    have hends := get?_ends Hash h ops hr key it
    change Ends _ ((h.get Hash key it).map Prod.snd) _
    rw [hget]
    cases hg : h.get? Hash key it with
    | error f =>
      rw [hg] at hends
      exact hends
    | ok r =>
      rw [hg] at hends
      exact hends.2.1
  | purge => exact ends_ok _ _ _ (purge_remembers Hash h ops hr)

theorem applyAll_ends (h : HashLFUCache K V) (ops : List (CacheOp K V))
    (hr : h.Remembers Hash ops) (more : List (CacheOp K V × Iteration K)) :
    Ends (fun f => f = .overflow) (h.applyAll Hash more)
      (fun h' => h'.Remembers Hash (ops ++ more.map Prod.fst)) := by
  induction more generalizing h ops with
  | nil =>
    rw [List.map_nil, List.append_nil]
    exact ends_ok _ _ _ hr
  | cons op more ih =>
    refine ends_bind _ (apply_ends Hash h ops hr op.1 op.2) ?_
    intro h' hh
    have := ih h' (ops ++ [op.1]) hh
    rwa [List.append_assoc] at this

theorem create_remembers (capacity : ℕ) (sliceNum maxAverageNum : ℤ) (hardware_concurrency : ℕ)
    (hpos : 0 < sliceNum) (hmax : sliceNum ≤ INT_MAX) (h : HashLFUCache K V)
    (hc : create capacity sliceNum maxAverageNum hardware_concurrency = .ok h) :
    h.Remembers Hash [] := by
  unfold create at hc
  simp only [if_pos hpos] at hc
  cases hsize : sliceSize capacity sliceNum with
  | error f => simp [hsize, bind, Except.bind] at hc
  | ok size =>
    rw [hsize] at hc
    obtain rfl := Except.ok.inj hc
    have hnum : toSize sliceNum = sliceNum.toNat := LFUCache.toSize_nonneg sliceNum hpos.le hmax
    exact {
      slices := by
        change (List.replicate sliceNum.toNat _).length = toSize sliceNum
        rw [List.length_replicate, hnum]
      some_slice := by
        change 0 < toSize sliceNum
        rw [hnum]
        omega
      live := by
        intro c hmem
        rw [List.eq_of_mem_replicate hmem]
        exact LFUCache.create_live size maxAverageNum
      values := by
        intro key value hv
        obtain ⟨c, hs, hcv⟩ := Option.bind_eq_some_iff.mp hv
        have hfresh := List.eq_of_mem_replicate (List.mem_of_getElem? hs)
        rw [hfresh] at hcv
        simp [LFUCache.valueOf, LFUCache.create] at hcv }

/-- In every run a hit answers with the value last put since the last purge,
a key without one misses, and other slices are left alone. -/
theorem hits_last_put (capacity : ℕ) (sliceNum maxAverageNum : ℤ) (hardware_concurrency : ℕ)
    (hpos : 0 < sliceNum) (hmax : sliceNum ≤ INT_MAX) (h : HashLFUCache K V)
    (hc : create capacity sliceNum maxAverageNum hardware_concurrency = .ok h)
    (ops : List (CacheOp K V × Iteration K)) (hrun : h.applyAll Hash ops ≠ .error .overflow) :
    ∃ h', h.applyAll Hash ops = .ok h' ∧
      (∀ key it, h'.get? Hash key it ≠ .error .overflow → ∃ value h'',
        h'.get? Hash key it = .ok (value, h'') ∧ h'.Apart Hash h'' key ∧
        (∀ v, value = some v → LastPut (ops.map Prod.fst) key v) ∧
        ((¬∃ v, LastPut (ops.map Prod.fst) key v) → value = none)) ∧
      (∀ key value it, h'.put Hash key value it ≠ .error .overflow → ∃ h'',
        h'.put Hash key value it = .ok h'' ∧ h'.Apart Hash h'' key) := by
  have hstart := create_remembers Hash capacity sliceNum maxAverageNum hardware_concurrency
    hpos hmax h hc
  obtain ⟨h', hh, hr⟩ := ends_exists (applyAll_ends Hash h [] hstart ops)
    (fun f hf => hf ▸ hrun)
  rw [List.nil_append] at hr
  refine ⟨h', hh, ?_, ?_⟩
  · intro key it hget
    obtain ⟨⟨value, h''⟩, hg, hvalue, -, hapart⟩ := ends_exists (get?_ends Hash h' _ hr key it)
      (fun f hf => hf ▸ hget)
    have hlast : ∀ v, value = some v → LastPut (ops.map Prod.fst) key v :=
      fun v hv => hr.values key v (hvalue.symm.trans hv)
    refine ⟨value, h'', hg, hapart, hlast, fun hnone => ?_⟩
    cases hv : value with
    | none => rfl
    | some v => exact absurd ⟨v, hlast v hv⟩ hnone
  · intro key value it hput
    obtain ⟨h'', hp, -, hapart⟩ := ends_exists (put_ends Hash h' _ hr key value it)
      (fun f hf => hf ▸ hput)
    exact ⟨h'', hp, hapart⟩

omit [DecidableEq K] [Inhabited K] [Inhabited V] in
theorem sliceSize_even (size : ℕ) (sliceNum : ℤ) (hpos : 0 < sliceNum)
    (hmax : size*sliceNum ≤ 2^53) :
    sliceSize (size*sliceNum).toNat sliceNum = .ok size := by
  have hn : 0 ≤ (size : ℤ)*sliceNum := by positivity
  have hle : (size : ℤ) ≤ size*sliceNum := le_mul_of_one_le_right (by positivity) hpos
  have hcap : (((size : ℤ)*sliceNum).toNat : ℚ) = ((size : ℤ)*sliceNum : ℤ) := by
    exact_mod_cast Int.toNat_of_nonneg hn
  have hq : (((size : ℤ)*sliceNum : ℤ) : ℚ)/sliceNum = ((size : ℤ) : ℚ) := by
    rw [Int.cast_mul, mul_div_assoc, div_self (by exact_mod_cast hpos.ne'), mul_one]
  have hsize : (size : ℤ) ≤ 2^53 := hle.trans hmax
  unfold sliceSize
  simp only []
  rw [hcap, Lib.Binary64.round_intCast _ (by rwa [abs_of_nonneg hn]), hq,
    Lib.Binary64.round_intCast _ (by rwa [abs_of_nonneg (by positivity)]), Int.ceil_intCast,
    if_pos ⟨hpos.ne', by positivity, by omega⟩]
  rfl

def threeKeys : List (CacheOp ℕ ℕ × Iteration ℕ) :=
  [(.put 1 10, .forward), (.put 4 40, .forward), (.get 1, .forward), (.put 2 20, .forward)]

theorem hits_last_put_threeKeys :
    ∃ (h h' : HashLFUCache ℕ ℕ), create 6 3 10 0 = .ok h ∧ h.applyAll id threeKeys = .ok h' ∧
      ∃ value h'', h'.get? id 1 .forward = .ok (value, h'') ∧ value = some 10 := by
  have hc : create 6 3 10 0 = .ok (HashLFUCache.mk 6 3
      (List.replicate 3 (LFUCache.create 2 10 : LFUCache ℕ ℕ))) := by
    have hs : sliceSize 6 3 = .ok 2 := sliceSize_even 2 3 (by decide) (by decide)
    rw [create]
    simp only [show (0 : ℤ) < 3 by decide, if_true, hs]
    rfl
  have hrun : ((HashLFUCache.mk 6 3 (List.replicate 3
      (LFUCache.create 2 10 : LFUCache ℕ ℕ))).applyAll id threeKeys).bind
        (fun h => (h.get? id 1 .forward).map Prod.fst) = .ok (some 10) := by
    decide +kernel
  obtain ⟨h', hh, hget, -⟩ := hits_last_put id 6 3 10 0 (by decide) (by decide) _ hc threeKeys
    (fun he => by rw [he] at hrun; exact absurd hrun (by simp [Except.bind]))
  rw [hh] at hrun
  obtain ⟨value, h'', hg, -⟩ := hget 1 .forward (fun he => by
    simp [Except.bind, he, Except.map] at hrun)
  refine ⟨_, h', hc, hh, value, h'', hg, ?_⟩
  simpa [Except.bind, hg, Except.map] using hrun

end HashLFUCache
end MuServer
