import Mathlib.Data.List.Nodup

/-!
# A census of owned objects

Objects are numbered in the order of their creation. `Census places made` says
that the `made` objects created so far stand in the given places, each in one
of them and there once. An object that is moved keeps the census, and so does
one that is created in some place.
-/

set_option autoImplicit false

namespace Lib

def Census (places : List (List ℕ)) (made : ℕ) : Prop :=
  places.flatten.Perm (List.range made)

namespace Census

variable {places places' : List (List ℕ)} {made : ℕ}

theorem nodup (h : Census places made) : places.flatten.Nodup :=
  h.nodup_iff.mpr List.nodup_range

theorem apart (h : Census places made) :
    (∀ p ∈ places, p.Nodup) ∧ places.Pairwise List.Disjoint :=
  List.nodup_flatten.mp h.nodup

theorem moved (h : Census places made)
    (hcount : ∀ x, places'.flatten.count x = places.flatten.count x) : Census places' made :=
  (List.perm_iff_count.mpr hcount).trans h

theorem created (h : Census places made)
    (hcount : ∀ x, places'.flatten.count x = (made::places.flatten).count x) :
    Census places' (made+1) := by
  show places'.flatten.Perm (List.range (made+1))
  rw [List.range_succ]
  calc
    places'.flatten.Perm (made::places.flatten) := List.perm_iff_count.mpr hcount
    List.Perm _ (places.flatten ++ [made]) := (List.perm_append_singleton _ _).symm
    List.Perm _ (List.range made ++ [made]) := h.append_right [made]

end Census

end Lib
