import Mathlib.Algebra.Ring.Int.Defs

/-!
# Blocks placed one after another

`offsetAt base sizes i` is where the `i`-th of a list of blocks starts when they are
placed one after another from `base` on.  Sizes may be negative, as a truncated
size can be; with non-negative sizes later blocks start at or behind the end of
earlier ones.
-/

namespace Layout

variable {base : Int} {sizes : List Int} {i j : Nat} {s : Int}

/-- The start of the `i`-th block. -/
def offsetAt (base : Int) (sizes : List Int) (i : Nat) : Int := base + (sizes.take i).sum

/-- The first block is at the base, -/
@[simp] theorem offsetAt_zero (base : Int) (sizes : List Int) : offsetAt base sizes 0 = base := by
  simp only [offsetAt, List.take_zero, List.sum_nil, Int.add_zero]

/-- and each behind the block before. -/
theorem offsetAt_succ (base : Int) (h : sizes[i]? = some s) :
    offsetAt base sizes (i + 1) = offsetAt base sizes i + s := by
  obtain ⟨hi, rfl⟩ := List.getElem?_eq_some_iff.mp h
  rw [offsetAt, offsetAt, List.take_succ_eq_append_getElem hi, List.sum_append_int, Int.add_assoc,
    List.sum_cons, List.sum_nil, Int.add_zero]

/-- Without negative sizes the blocks start in order. -/
theorem offsetAt_mono (base : Int) (hnonneg : ∀ s ∈ sizes, 0 ≤ s) (hij : i ≤ j) :
    offsetAt base sizes i ≤ offsetAt base sizes j := by
  induction j with
  | zero => exact Int.le_of_eq (by rw [Nat.le_zero.mp hij])
  | succ j ih =>
    rcases Nat.lt_or_eq_of_le hij with hlt | rfl
    · have hstep : offsetAt base sizes j ≤ offsetAt base sizes (j + 1) := by
        -- past the last size nothing is added
        cases h : sizes[j]? with
        | none =>
          have hlen := List.getElem?_eq_none_iff.mp h
          have htake : sizes.take (j + 1) = sizes.take j := by
            rw [List.take_of_length_le hlen, List.take_of_length_le (by omega)]
          exact Int.le_of_eq (by rw [offsetAt, offsetAt, htake])
        | some s =>
          have hs := hnonneg s (List.mem_of_getElem? h)
          rw [offsetAt_succ base h]
          omega
      exact Int.le_trans (ih (by omega)) hstep
    · exact Int.le_refl _

/-- A later block starts at or behind the end of an earlier one. -/
theorem offsetAt_before (base : Int) (hnonneg : ∀ s ∈ sizes, 0 ≤ s) (h : sizes[i]? = some s)
    (hij : i < j) : offsetAt base sizes i + s ≤ offsetAt base sizes j := by
  rw [← offsetAt_succ base h]
  exact offsetAt_mono base hnonneg hij

/-- Bounded sizes keep every start near the base. -/
theorem offsetAt_bounds (base : Int) {B : Int} (hB : 0 ≤ B)
    (hsizes : ∀ s ∈ sizes, -B ≤ s ∧ s ≤ B) (i : Nat) :
    base - B * sizes.length ≤ offsetAt base sizes i ∧
      offsetAt base sizes i ≤ base + B * sizes.length := by
  -- a sum of bounded sizes is bounded by their number
  have hsum : ∀ l : List Int, (∀ s ∈ l, -B ≤ s ∧ s ≤ B) →
      -(B * l.length) ≤ l.sum ∧ l.sum ≤ B * l.length := by
    intro l
    induction l with
    | nil => intro _; simp
    | cons s l ih =>
      intro hl
      have hs := hl s (List.mem_cons_self ..)
      have hrest := ih fun t ht => hl t (List.mem_cons_of_mem _ ht)
      rw [List.sum_cons, List.length_cons, Int.natCast_add, Int.mul_add]
      omega
  have htake := hsum (sizes.take i) fun s hs => hsizes s (List.mem_of_mem_take hs)
  have hlen : B * (sizes.take i).length ≤ B * sizes.length :=
    Int.mul_le_mul_of_nonneg_left (by rw [List.length_take]; omega) hB
  rw [offsetAt]
  omega

end Layout
