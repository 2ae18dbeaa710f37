import Mathlib.Tactic.Basic

/-!
# How a computation may end

`Ends allowed r post` is a triple for a computation that may fail: the result
is one with `post` or an error among the `allowed` ones. Specifications are
composed with the bind rule.
-/

set_option autoImplicit false

namespace Lib.Fallible

universe u v

variable {ε : Type u} {α β : Type v}

def Ends (allowed : ε → Prop) (r : Except ε α) (post : α → Prop) : Prop :=
  match r with
  | .ok a => post a
  | .error e => allowed e

theorem ends_ok (allowed : ε → Prop) (a : α) (post : α → Prop) (h : post a) :
    Ends allowed (.ok a) post := h

theorem ends_error (allowed : ε → Prop) (e : ε) (post : α → Prop) (h : allowed e) :
    Ends allowed (.error e) post := h

theorem ends_bind {allowed : ε → Prop} {r : Except ε α} {mid : α → Prop}
    (f : α → Except ε β) {post : β → Prop} (hr : Ends allowed r mid)
    (hf : ∀ a, mid a → Ends allowed (f a) post) : Ends allowed (r >>= f) post := by
  cases r with
  | error e => exact hr
  | ok a => exact hf a hr

theorem ends_mono {allowed allowed' : ε → Prop} {r : Except ε α} {post post' : α → Prop}
    (h : Ends allowed r post) (ha : ∀ e, allowed e → allowed' e) (hp : ∀ a, post a → post' a) :
    Ends allowed' r post' := by
  cases r with
  | error e => exact ha e h
  | ok a => exact hp a h

theorem ends_any (r : Except ε α) : Ends (fun _ => True) r (fun _ => True) := by
  cases r <;> trivial

/-- Where every error is allowed, the first part needs no specification. -/
theorem ends_bind_any (r : Except ε α) (f : α → Except ε β) {post : β → Prop}
    (hf : ∀ a, Ends (fun _ => True) (f a) post) : Ends (fun _ => True) (r >>= f) post :=
  ends_bind f (ends_any r) (fun a _ => hf a)

/-- A computation that ends in none of the allowed errors has a result. -/
theorem ends_exists {allowed : ε → Prop} {r : Except ε α} {post : α → Prop}
    (h : Ends allowed r post) (hr : ∀ e, allowed e → r ≠ .error e) : ∃ a, r = .ok a ∧ post a := by
  cases r with
  | error e => exact absurd rfl (hr e h)
  | ok a => exact ⟨a, rfl, h⟩

/-- What stands before the rest of a computation has a result when the whole has. -/
theorem bind_eq_ok {r : Except ε α} {f : α → Except ε β} {b : β} (h : r >>= f = .ok b) :
    ∃ a, r = .ok a ∧ f a = .ok b := by
  cases r with
  | error e => exact absurd h (by simp [bind, Except.bind])
  | ok a => exact ⟨a, rfl, h⟩

end Lib.Fallible
