import Mathlib.Algebra.Order.BigOperators.Group.Finset
import Mathlib.Algebra.Group.Action.Defs
import Mathlib.Data.Finset.Card

/-!
# Labels that are only lowered

A search labels some of finitely many items with numbers: it gives an item one more than
the label of another, and only if it has no label yet or a greater one.  Then an item
with label `n` is never alone: there are at least `n + 1` items with labels up to `n`.  So
all labels are below the number of items, and since every assignment lowers the sum of
the labels, there are at most as many assignments as the square of that number.

* `Tiered.relabel`    an assignment keeps the tiers
* `Tiered.lt_card`    labels are below the number of items
* `weight_relabel`    an assignment lowers the sum
* `weight_add_card_le`  the sum in the beginning
-/

namespace Lowering

universe u

variable {α : Type u} {items : Finset α} {label : α → Option Nat} {x y : α} {k n : Nat}

/-- The items with labels up to `n`. -/
def upTo (items : Finset α) (label : α → Option Nat) (n : Nat) : Finset α :=
  items.filter fun x => (label x).any (· ≤ n)

/-- An item is up to `n` when it has a label that is. -/
theorem mem_upTo : x ∈ upTo items label n ↔ x ∈ items ∧ ∃ m, label x = some m ∧ m ≤ n := by
  simp [upTo, Option.any_eq_true]

/-- An item with label `n` has `n` others at or below it. -/
def Tiered (items : Finset α) (label : α → Option Nat) : Prop :=
  ∀ x n, label x = some n → n < (upTo items label n).card

/-- Labels are below the number of items. -/
theorem Tiered.lt_card (h : Tiered items label) (hx : label x = some n) : n < items.card :=
  Nat.lt_of_lt_of_le (h x n hx) (Finset.card_le_card (Finset.filter_subset _ _))

/-- The sum of the labels; an item without one counts as much as the greatest there can be. -/
def weight (items : Finset α) (label : α → Option Nat) : Nat :=
  ∑ x ∈ items, (label x).getD items.card

/-- Only `x` is labelled. -/
theorem Tiered.init (hx : x ∈ items) (hzero : label x = some 0)
    (hlabel : ∀ y n, label y = some n → n = 0) : Tiered items label := by
  intro y n hy
  obtain rfl := hlabel y n hy
  exact Finset.card_pos.2 ⟨x, mem_upTo.2 ⟨hx, 0, hzero, Nat.le_refl 0⟩⟩

variable [DecidableEq α]

/-- Lowering a label takes nothing from the items up to any other. -/
theorem upTo_relabel {m : Nat} (hlower : ∀ n, label x = some n → k < n) :
    upTo items label m ⊆ upTo items (Function.update label x (some k)) m := by
  intro z hz
  obtain ⟨hz, l, hl, hle⟩ := mem_upTo.1 hz
  apply mem_upTo.2
  apply And.intro hz
  by_cases hzx : z = x
  · subst hzx
    have hlt := hlower l hl
    exact ⟨k, Function.update_self _ _ _, by omega⟩
  · exact ⟨l, (Function.update_of_ne hzx _ _).trans hl, hle⟩

/-- An item gets one more than the label of another. -/
theorem Tiered.relabel (h : Tiered items label) (hx : x ∈ items) (hy : label y = some k)
    (hlower : ∀ n, label x = some n → k + 1 < n) :
    Tiered items (Function.update label x (some (k + 1))) := by
  intro z n hz
  have hsub : upTo items label n ⊆ upTo items (Function.update label x (some (k + 1))) n :=
    upTo_relabel hlower
  by_cases hzx : z = x
  · subst hzx
    rw [Function.update_self] at hz
    obtain rfl := Option.some.inj hz
    -- the new item is not among those up to `k`
    have hnot : z ∉ upTo items label k := by
      intro hmem
      obtain ⟨-, l, hl, hle⟩ := mem_upTo.1 hmem
      have hlt := hlower l hl
      omega
    have hinsert : insert z (upTo items label k) ⊆
        upTo items (Function.update label z (some (k + 1))) (k + 1) := by
      apply Finset.insert_subset
      · exact mem_upTo.2 ⟨hx, k + 1, Function.update_self _ _ _, Nat.le_refl _⟩
      · intro w hw
        obtain ⟨hw, l, hl, hle⟩ := mem_upTo.1 hw
        exact hsub (mem_upTo.2 ⟨hw, l, hl, by omega⟩)
    have hcard := Finset.card_le_card hinsert
    rw [Finset.card_insert_of_notMem hnot] at hcard
    have hk := h y k hy
    omega
  · rw [Function.update_of_ne hzx] at hz
    exact Nat.lt_of_lt_of_le (h z n hz) (Finset.card_le_card hsub)

/-- The sum gets smaller. -/
theorem weight_relabel (h : Tiered items label) (hx : x ∈ items) (hy : label y = some k)
    (hlower : ∀ n, label x = some n → k + 1 < n) :
    weight items (Function.update label x (some (k + 1))) < weight items label := by
  have hlt : k + 1 < (label x).getD items.card := by
    match hl : label x with
    | some n => exact hlower n hl
    | none => exact (h.relabel hx hy hlower).lt_card (Function.update_self _ _ _)
  apply Finset.sum_lt_sum
  · intro z _
    by_cases hzx : z = x
    · subst hzx
      rw [Function.update_self]
      exact Nat.le_of_lt hlt
    · rw [Function.update_of_ne hzx]
  · apply Exists.intro x
    rw [Function.update_self]
    exact ⟨hx, hlt⟩

/-- The sum in the beginning, when one item has the label zero. -/
theorem weight_add_card_le (h : Tiered items label) (hx : x ∈ items) (hzero : label x = some 0) :
    weight items label + items.card ≤ items.card * items.card := by
  have hle : ∀ z ∈ items.erase x, (label z).getD items.card ≤ items.card := by
    intro z _
    match hz : label z with
    | some n => exact Nat.le_of_lt (h.lt_card hz)
    | none => exact Nat.le_refl _
  have hsum := Finset.sum_le_card_nsmul (items.erase x) (fun z => (label z).getD items.card) _ hle
  have hpos := Finset.card_pos.2 ⟨x, hx⟩
  rw [Finset.card_erase_of_mem hx, smul_eq_mul] at hsum
  unfold weight
  rw [← Finset.add_sum_erase items _ hx, hzero]
  calc 0 + ∑ z ∈ items.erase x, (label z).getD items.card + items.card
      ≤ (items.card - 1) * items.card + items.card := by omega
    _ = (items.card - 1 + 1) * items.card := (Nat.succ_mul _ _).symm
    _ = items.card * items.card := by rw [Nat.sub_add_cancel hpos]

end Lowering
