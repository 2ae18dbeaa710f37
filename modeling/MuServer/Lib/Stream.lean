import Mathlib.Data.List.Basic

/-!
# Reading items off a stream

A reader takes one item off the front of what has arrived, or waits for more.
It is stable when more arrivals do not change what it has taken. From a prefix
of a sequence of texts a stable reader takes the items of the first of them,
in order, and none beyond a text that it never gets to the end of.
-/

set_option autoImplicit false

namespace Lib.Stream

universe u v

variable {α : Type u} {β : Type v}

abbrev Reader (α : Type u) (β : Type v) := List α → Option (β × List α)

/-- Items one after the other as long as there is one, `n` at most. -/
def readMany (read : Reader α β) : ℕ → List α → List β
  | 0, _ => []
  | n+1, xs =>
    match read xs with
    | some (b, rest) => b::readMany read n rest
    | none => []

structure Stable (read : Reader α β) : Prop where
  waits : read [] = none
  more : ∀ xs b rest ys, read xs = some (b, rest) → read (xs ++ ys) = some (b, rest ++ ys)

def Reads (read : Reader α β) (text : List α) (item : Option β) : Prop :=
  ∀ rest, read (text ++ rest) = item.map (fun b => (b, rest))

variable (read : Reader α β)

theorem readMany_prefix (h : Stable read) (items : List (List α × Option β))
    (hi : ∀ i ∈ items, Reads read i.1 i.2) (n : ℕ) (xs : List α)
    (hx : xs <+: (items.map Prod.fst).flatten) :
    (readMany read n xs).map some <+: items.map Prod.snd := by
  induction n generalizing items xs with
  | zero => exact List.nil_prefix
  | succ n ih =>
    cases hr : read xs with
    | none =>
      simp only [readMany, hr]
      exact List.nil_prefix
    | some r =>
      obtain ⟨b, rest⟩ := r
      obtain ⟨ys, hys⟩ := hx
      have hwhole := h.more xs b rest ys hr
      rw [hys] at hwhole
      cases items with
      | nil => exact absurd (hwhole.symm.trans h.waits) (by simp)
      | cons i items =>
        have hread := hi i (by simp) (items.map Prod.fst).flatten
        rw [List.map_cons, List.flatten_cons, hread] at hwhole
        obtain ⟨c, hc, hpair⟩ := Option.map_eq_some_iff.mp hwhole
        obtain ⟨rfl, hrest⟩ := Prod.mk.inj hpair
        simp only [readMany, hr, List.map_cons, hc]
        exact (List.prefix_cons_inj _).mpr
          (ih items (fun j hj => hi j (by simp [hj])) rest ⟨ys, hrest.symm⟩)

/-- When all the texts have arrived those before the first that has no item are read. -/
theorem readMany_whole (items : List (List α × Option β)) (hi : ∀ i ∈ items, Reads read i.1 i.2)
    (n : ℕ) (hn : items.length ≤ n) (hnil : read [] = none) :
    (readMany read n (items.map Prod.fst).flatten).map some =
      (items.map Prod.snd).takeWhile Option.isSome := by
  induction items generalizing n with
  | nil =>
    cases n with
    | zero => rfl
    | succ n => simp [readMany, hnil]
  | cons i items ih =>
    rw [List.length_cons] at hn
    obtain ⟨m, rfl⟩ := Nat.exists_eq_succ_of_ne_zero (n := n) (by omega)
    have hread := hi i (by simp) (items.map Prod.fst).flatten
    rw [List.map_cons, List.flatten_cons, readMany, hread]
    cases hitem : i.2 with
    | none => simp [hitem]
    | some b =>
      have hrest := ih (fun j hj => hi j (by simp [hj])) m (by omega)
      simp only [Option.map_some, List.map_cons, hrest, hitem, List.takeWhile_cons,
        Option.isSome_some, if_true]

end Lib.Stream
