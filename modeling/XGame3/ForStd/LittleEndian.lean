import Mathlib.Algebra.Group.Nat.Defs

/-!
# Little-endian byte strings

`toLE w n` stores the low `w` bytes of `n`, least significant first, and `ofLE`
reads a byte string back.  Storing a wide number and copying only its first
bytes is storing it at the smaller width (`take_toLE`), which is what a
`memcpy` of `sizeof(int)` bytes out of a `size_t` does.
-/

namespace LittleEndian

/-- The low `w` bytes of `n`, least significant first. -/
def toLE : Nat → Nat → List UInt8
  | 0, _ => []
  | w + 1, n => UInt8.ofNat n :: toLE w (n / 256)

/-- The number stored in a byte string. -/
def ofLE : List UInt8 → Nat
  | [] => 0
  | b :: bs => b.toNat + 256 * ofLE bs

/-- As many bytes as are asked for. -/
@[simp] theorem length_toLE (w n : Nat) : (toLE w n).length = w := by
  induction w generalizing n with
  | zero => rfl
  | succ w ih => simp only [toLE, List.length_cons, ih]

/-- Reading back `w` bytes loses exactly what does not fit. -/
theorem ofLE_toLE (w n : Nat) : ofLE (toLE w n) = n % 256 ^ w := by
  induction w generalizing n with
  | zero => simp only [toLE, ofLE, Nat.pow_zero, Nat.mod_one]
  | succ w ih =>
    have hlow : (UInt8.ofNat n).toNat = n % 256 := UInt8.toNat_ofNat'
    simp only [toLE, ofLE, ih, hlow]
    rw [Nat.pow_succ', Nat.mod_mul]

/-- A number that fits comes back. -/
theorem ofLE_toLE_of_lt {w n : Nat} (h : n < 256 ^ w) : ofLE (toLE w n) = n := by
  rw [ofLE_toLE, Nat.mod_eq_of_lt h]

/-- The first bytes are those of a shorter field. -/
theorem take_toLE {k w : Nat} (h : k ≤ w) (n : Nat) : (toLE w n).take k = toLE k n := by
  induction k generalizing w n with
  | zero => rfl
  | succ k ih =>
    obtain ⟨w, rfl⟩ : ∃ v, w = v + 1 := ⟨w - 1, by omega⟩
    simp only [toLE, List.take_succ_cons, ih (Nat.le_of_succ_le_succ h)]

/-- Zero bytes at the top do not count. -/
theorem ofLE_append_drop_toLE (bs : List UInt8) (w : Nat) :
    ofLE (bs ++ (toLE w 0).drop bs.length) = ofLE bs := by
  -- what is left of the buffer is zero
  have hzero : ∀ w k, ofLE ((toLE w 0).drop k) = 0 := by
    intro w
    induction w with
    | zero => intro k; simp only [toLE, List.drop_nil, ofLE]
    | succ w ih =>
      intro k
      cases k with
      | zero =>
        have hrest := ih 0
        rw [List.drop_zero] at hrest
        simp only [List.drop_zero, toLE, ofLE, Nat.zero_div, hrest]
        rfl
      | succ k => exact ih k
  -- and zeros above the bytes read add nothing
  induction bs generalizing w with
  | nil => exact hzero w 0
  | cons b bs ih =>
    cases w with
    | zero => simp only [toLE, List.drop_nil, List.append_nil]
    | succ w => simp only [toLE, List.length_cons, List.drop_succ_cons, List.cons_append, ofLE,
        Nat.zero_div, ih]

end LittleEndian
