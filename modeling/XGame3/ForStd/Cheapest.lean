import Mathlib.Order.Lattice
import Mathlib.Order.MinMax

/-!
# The cheapest item seen

A search that looks at one item after the other keeps the cheapest of them and its cost, and
takes a new one only if that is strictly cheaper.  It starts with no item and a cost `cap`,
and an item that does not cost less than `cap` is never taken.

* `Cheapest.offer`   a new item is looked at
* `Cheapest.le_of_seen`   nothing seen is cheaper than the item kept
-/

universe u v

variable {α : Type u} {κ : Type v} [LinearOrder κ] {cost : α → κ} {cap n : κ}
  {seen seen' : α → Prop} {best : Option α} {x y : α}

/-- What is known of the item kept and of its cost `n`. -/
structure Cheapest (cost : α → κ) (cap : κ) (seen : α → Prop) (n : κ) (best : Option α) : Prop where
  le_cap : n ≤ cap
  le_cost : ∀ x, seen x → n ≤ cost x
  kept : ∀ x, best = some x → seen x ∧ cost x = n

namespace Cheapest

/-- Nothing was seen. -/
theorem init (hnone : ∀ x, ¬ seen x) : Cheapest cost cap seen cap none where
  le_cap := le_refl cap
  le_cost := fun x hx => absurd hx (hnone x)
  kept := fun _ h => nomatch h

/-- The cheapest of the elements seen depends on which are seen only. -/
theorem congr (h : Cheapest cost cap seen n best) (hseen : ∀ x, seen' x ↔ seen x) :
    Cheapest cost cap seen' n best where
  le_cap := h.le_cap
  le_cost := fun x hx => h.le_cost x ((hseen x).1 hx)
  kept := fun x hx => (h.kept x hx).imp_left (hseen x).2

/-- A new item takes the place of the one kept if it is strictly cheaper. -/
theorem offer (h : Cheapest cost cap seen n best) (hseen : ∀ y, seen' y ↔ seen y ∨ y = x) :
    Cheapest cost cap seen' (min n (cost x)) (if cost x < n then some x else best) where
  le_cap := le_trans (min_le_left _ _) h.le_cap
  le_cost := fun y hy => by
    cases (hseen y).1 hy with
    | inl hold => exact le_trans (min_le_left _ _) (h.le_cost y hold)
    | inr heq => exact heq ▸ min_le_right _ _
  kept := fun y hy => by
    split at hy
    · rename_i hlt
      obtain rfl := Option.some.inj hy
      exact ⟨(hseen x).2 (.inr rfl), (min_eq_right (le_of_lt hlt)).symm⟩
    · rename_i hle
      obtain ⟨hold, hcost⟩ := h.kept y hy
      exact ⟨(hseen y).2 (.inl hold), hcost.trans (min_eq_left (le_of_not_gt hle)).symm⟩

/-- Nothing seen is cheaper than the item kept. -/
theorem le_of_seen (h : Cheapest cost cap seen n (some x)) (hy : seen y) : cost x ≤ cost y := by
  rw [(h.kept x rfl).2]
  exact h.le_cost y hy

end Cheapest
