import Mathlib.Data.List.AList
import Mathlib.Order.BooleanAlgebra.Set
import Mathlib.Order.MinMax

/-!
# Buckets

A table from indices to lists files each element of a set under an index of
its own. `Filed` says that an element is in the list of its index, there once,
and nowhere else; the two operations take an element out of its list and put
it behind another one. `least` is a scan for the lowest index in use. Where
every element is put behind those that came earlier, the lists are `Ordered`.
-/

set_option autoImplicit false

namespace Lib.Filing

variable {ι α : Type*} [DecidableEq ι]

abbrev Buckets (ι α : Type*) := AList (fun _ : ι => List α)

def bucket (b : Buckets ι α) (i : ι) : List α := (b.lookup i).getD []

def add (b : Buckets ι α) (i : ι) (x : α) : Buckets ι α := b.insert i (bucket b i ++ [x])

def remove [DecidableEq α] (b : Buckets ι α) (i : ι) (x : α) : Buckets ι α :=
  b.insert i ((bucket b i).erase x)

/-- Every element of `s` is filed once, under its index, and nothing else is. -/
structure Filed (b : Buckets ι α) (index : α → ι) (s : Set α) : Prop where
  nodup : ∀ i, (bucket b i).Nodup
  mem : ∀ i x, x ∈ bucket b i ↔ x ∈ s ∧ index x = i

theorem bucket_insert (b : Buckets ι α) (i j : ι) (l : List α) :
    bucket (b.insert i l) j = if j = i then l else bucket b j := by
  unfold bucket
  by_cases h : j = i
  · rw [if_pos h, h, AList.lookup_insert]
    rfl
  · rw [if_neg h, AList.lookup_insert_ne h]

theorem bucket_add (b : Buckets ι α) (i j : ι) (x : α) :
    bucket (add b i x) j = if j = i then bucket b i ++ [x] else bucket b j := by
  rw [add, bucket_insert]

theorem bucket_remove [DecidableEq α] (b : Buckets ι α) (i j : ι) (x : α) :
    bucket (remove b i x) j = if j = i then (bucket b i).erase x else bucket b j := by
  rw [remove, bucket_insert]

theorem filed_empty (index : α → ι) : Filed (∅ : Buckets ι α) index ∅ where
  nodup := by simp [bucket]
  mem := by simp [bucket]

theorem filed_lookup (b : Buckets ι α) (index : α → ι) (s : Set α) (h : Filed b index s) (x : α)
    (hx : x ∈ s) : b.lookup (index x) = some (bucket b (index x)) := by
  have hm : x ∈ bucket b (index x) := (h.mem (index x) x).mpr ⟨hx, rfl⟩
  unfold bucket at hm ⊢
  cases hl : b.lookup (index x) with
  | none => simp [hl] at hm
  | some l => rfl

theorem filed_congr (b : Buckets ι α) (index index' : α → ι) (s : Set α) (h : Filed b index s)
    (he : ∀ x ∈ s, index' x = index x) : Filed b index' s where
  nodup := h.nodup
  mem := by
    intro i x
    rw [h.mem]
    constructor
    · rintro ⟨hx, rfl⟩
      exact ⟨hx, he x hx⟩
    · rintro ⟨hx, rfl⟩
      exact ⟨hx, (he x hx).symm⟩

theorem filed_add (b : Buckets ι α) (index : α → ι) (s : Set α) (h : Filed b index s) (x : α)
    (hx : x ∉ s) : Filed (add b (index x) x) index (insert x s) where
  nodup := by
    intro i
    rw [bucket_add]
    split
    · rw [List.nodup_append]
      refine ⟨h.nodup _, List.nodup_singleton x, ?_⟩
      intro y hy z hz he
      rw [List.mem_singleton.mp hz] at he
      exact hx (he ▸ ((h.mem _ y).mp hy).1)
    · exact h.nodup i
  mem := by
    intro i y
    rw [bucket_add, Set.mem_insert_iff]
    by_cases hi : i = index x
    · subst hi
      rw [if_pos rfl, List.mem_append, h.mem, List.mem_singleton]
      constructor
      · rintro (⟨hy, he⟩ | rfl)
        · exact ⟨Or.inr hy, he⟩
        · exact ⟨Or.inl rfl, rfl⟩
      · rintro ⟨rfl | hy, he⟩
        · exact Or.inr rfl
        · exact Or.inl ⟨hy, he⟩
    · rw [if_neg hi, h.mem]
      constructor
      · exact fun ⟨hy, he⟩ => ⟨Or.inr hy, he⟩
      · rintro ⟨rfl | hy, he⟩
        · exact absurd he.symm hi
        · exact ⟨hy, he⟩

theorem filed_remove [DecidableEq α] (b : Buckets ι α) (index : α → ι) (s : Set α)
    (h : Filed b index s) (x : α) : Filed (remove b (index x) x) index (s \ {x}) where
  nodup := by
    intro i
    rw [bucket_remove]
    split
    · exact (h.nodup _).erase x
    · exact h.nodup i
  mem := by
    intro i y
    rw [bucket_remove, Set.mem_sdiff, Set.mem_singleton_iff]
    by_cases hi : i = index x
    · subst hi
      rw [if_pos rfl, (h.nodup _).mem_erase_iff, h.mem]
      tauto
    · rw [if_neg hi, h.mem]
      constructor
      · rintro ⟨hy, rfl⟩
        exact ⟨⟨hy, fun he => hi (he ▸ rfl)⟩, rfl⟩
      · exact fun ⟨hy, he⟩ => ⟨hy.1, he⟩

/-- An element changes its index: it leaves the old list and joins the new. -/
theorem filed_move [DecidableEq α] (b : Buckets ι α) (index : α → ι) (s : Set α)
    (h : Filed b index s) (x : α) (hx : x ∈ s) (i : ι) :
    Filed (add (remove b (index x) x) i x) (Function.update index x i) s := by
  have hr := filed_congr _ index (Function.update index x i) _ (filed_remove b index s h x)
    (fun y hy => Function.update_of_ne hy.2 i index)
  have ha := filed_add _ _ _ hr x (fun hy => hy.2 rfl)
  rwa [Function.update_self, Set.insert_sdiff_singleton, Set.insert_eq_of_mem hx] at ha

/-- The lowest index with a nonempty list, `top` when there is none below. -/
def least [LinearOrder ι] (b : Buckets ι α) (top : ι) : ι :=
  b.entries.foldl (fun m e => if e.2.isEmpty then m else min m e.1) top

omit [DecidableEq ι] in
theorem foldl_least [LinearOrder ι] (es : List (Sigma (fun _ : ι => List α))) (m : ι) :
    let r := es.foldl (fun m e => if e.2.isEmpty then m else min m e.1) m
    r ≤ m ∧ (∀ e ∈ es, e.2 ≠ [] → r ≤ e.1) ∧ (r = m ∨ ∃ e ∈ es, e.2 ≠ [] ∧ r = e.1) := by
  induction es generalizing m with
  | nil => simp
  | cons e es ih =>
    obtain ⟨hm, hall, hr⟩ := ih (if e.2.isEmpty then m else min m e.1)
    rw [List.foldl_cons]
    by_cases he : e.2 = []
    · simp only [he, List.isEmpty_nil, if_true] at hm hall hr ⊢
      refine ⟨hm, ?_, ?_⟩
      · intro f hf hne
        rcases List.mem_cons.mp hf with rfl | hf
        · exact absurd he hne
        · exact hall f hf hne
      · rcases hr with hr | ⟨f, hf, hne, hr⟩
        · exact Or.inl hr
        · exact Or.inr ⟨f, List.mem_cons_of_mem e hf, hne, hr⟩
    · have hempty : e.2.isEmpty = false := by simpa using he
      simp only [hempty] at hm hall hr ⊢
      refine ⟨hm.trans (min_le_left _ _), ?_, ?_⟩
      · intro f hf hne
        rcases List.mem_cons.mp hf with rfl | hf
        · exact hm.trans (min_le_right _ _)
        · exact hall f hf hne
      · rcases hr with hr | ⟨f, hf, hne, hr⟩
        · rcases min_choice m e.1 with hc | hc
          · exact Or.inl (hr.trans hc)
          · exact Or.inr ⟨e, List.mem_cons_self, he, hr.trans hc⟩
        · exact Or.inr ⟨f, List.mem_cons_of_mem e hf, hne, hr⟩

theorem bucket_entries (b : Buckets ι α) (i : ι) (x : α) (hx : x ∈ bucket b i) :
    ∃ e ∈ b.entries, e.2 ≠ [] ∧ e.1 = i := by
  unfold bucket at hx
  cases hl : b.lookup i with
  | none => simp [hl] at hx
  | some l =>
    rw [hl] at hx
    exact ⟨⟨i, l⟩, AList.mem_lookup_iff.mp hl, List.ne_nil_of_mem hx, rfl⟩

/-- When some element has an index below `top`, the scan finds the least index
of the elements. -/
theorem least_filed [LinearOrder ι] (b : Buckets ι α) (index : α → ι) (s : Set α)
    (h : Filed b index s) (top : ι) (x : α) (hx : x ∈ s) (htop : index x < top) :
    (∃ y ∈ s, index y = least b top) ∧ ∀ y ∈ s, least b top ≤ index y := by
  obtain ⟨-, hall, hr⟩ := foldl_least b.entries top
  have hle : ∀ y ∈ s, least b top ≤ index y := by
    intro y hy
    obtain ⟨e, he, hne, hi⟩ := bucket_entries b (index y) y ((h.mem _ y).mpr ⟨hy, rfl⟩)
    exact hi ▸ hall e he hne
  refine ⟨?_, hle⟩
  rcases hr with hr | ⟨e, he, hne, hr⟩
  · have hx' : least b top ≤ index x := hle x hx
    rw [least, hr] at hx'
    exact absurd htop (not_lt.mpr hx')
  · obtain ⟨y, l, hl⟩ := List.exists_cons_of_ne_nil hne
    have hlook : b.lookup e.1 = some e.2 := AList.mem_lookup_iff.mpr he
    have hy : y ∈ bucket b e.1 := by
      rw [bucket, hlook]
      simp [hl]
    obtain ⟨hys, hyi⟩ := (h.mem _ y).mp hy
    exact ⟨y, hys, hyi.trans hr.symm⟩

/-- When no element has an index below `top`, the scan finds none. -/
theorem least_filed_top [LinearOrder ι] (b : Buckets ι α) (index : α → ι) (s : Set α)
    (h : Filed b index s) (top : ι) (hall : ∀ x ∈ s, top ≤ index x) : least b top = top := by
  obtain ⟨hle, -, hr⟩ := foldl_least b.entries top
  rcases hr with hr | ⟨e, he, hne, hr⟩
  · exact hr
  · obtain ⟨y, l, hl⟩ := List.exists_cons_of_ne_nil hne
    have hlook : b.lookup e.1 = some e.2 := AList.mem_lookup_iff.mpr he
    have hy : y ∈ bucket b e.1 := by
      rw [bucket, hlook]
      simp [hl]
    obtain ⟨hys, hyi⟩ := (h.mem _ y).mp hy
    exact le_antisymm hle ((hall y hys).trans (hyi.trans hr.symm).le)

def Ordered (b : Buckets ι α) (time : α → ℕ) : Prop :=
  ∀ i, (bucket b i).Pairwise (fun x y => time x < time y)

theorem ordered_empty (time : α → ℕ) : Ordered (∅ : Buckets ι α) time := by
  intro i
  simp [bucket]

theorem ordered_congr (b : Buckets ι α) (time time' : α → ℕ) (h : Ordered b time)
    (he : ∀ i, ∀ x ∈ bucket b i, time' x = time x) : Ordered b time' := by
  intro i
  refine (h i).imp_of_mem ?_
  intro x y hx hy hlt
  rw [he i x hx, he i y hy]
  exact hlt

theorem ordered_remove [DecidableEq α] (b : Buckets ι α) (time : α → ℕ) (h : Ordered b time)
    (i : ι) (x : α) : Ordered (remove b i x) time := by
  intro j
  rw [bucket_remove]
  split
  · exact (h i).sublist List.erase_sublist
  · exact h j

theorem ordered_add (b : Buckets ι α) (time : α → ℕ) (h : Ordered b time) (i : ι) (x : α)
    (hlate : ∀ y ∈ bucket b i, time y < time x) : Ordered (add b i x) time := by
  intro j
  rw [bucket_add]
  split
  · rw [List.pairwise_append]
    refine ⟨h i, List.pairwise_singleton _ _, ?_⟩
    intro y hy z hz
    rw [List.mem_singleton.mp hz]
    exact hlate y hy
  · exact h j

/-- The first element of the lowest list is below every other one, by its index
and then by its time. -/
theorem first_least [LinearOrder ι] (b : Buckets ι α) (index : α → ι) (s : Set α)
    (h : Filed b index s) (time : α → ℕ) (ho : Ordered b time) (i : ι) (x : α) (rest : List α)
    (hb : bucket b i = x::rest) (hlow : ∀ y ∈ s, i ≤ index y) (y : α) (hy : y ∈ s) :
    index x < index y ∨ index x = index y ∧ time x ≤ time y := by
  obtain ⟨-, hx⟩ := (h.mem i x).mp (by simp [hb])
  rw [hx]
  rcases lt_or_eq_of_le (hlow y hy) with hlt | heq
  · exact Or.inl hlt
  · refine Or.inr ⟨heq, ?_⟩
    have hmem := (h.mem i y).mpr ⟨hy, heq.symm⟩
    have hsorted := ho i
    rw [hb] at hmem hsorted
    rcases List.mem_cons.mp hmem with rfl | hrest
    · exact le_refl _
    · exact (List.rel_of_pairwise_cons hsorted hrest).le

end Lib.Filing
