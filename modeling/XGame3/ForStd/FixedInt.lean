/-!
# Fixed-width integers as wrapped `Int`s

A C `int` is kept as an `Int` and every operation that can leave the range is followed by `int32`,
which picks the representative modulo `2 ^ 32` in `[-2 ^ 31, 2 ^ 31)`; a 64-bit `long` likewise with
`int64`.  A `size_t` is kept as a `Nat` below `256 ^ bytes`, for both pointer sizes.  The lemmas let
`omega` drop a wrap as soon as the value is known to be in range.
-/

namespace FixedInt

/-! ## `int` -/

/-- The range of a 32-bit `int`. -/
abbrev IsInt32 (x : Int) : Prop := -2147483648 ≤ x ∧ x < 2147483648

/-- Conversion to a 32-bit `int`. -/
def int32 (x : Int) : Int := x.bmod 4294967296

/-- The result is an `int`. -/
theorem isInt32_int32 (x : Int) : IsInt32 (int32 x) := by
  have hlo := Int.le_bmod (x := x) (m := 4294967296) (by decide)
  have hhi := Int.bmod_lt (x := x) (m := 4294967296) (by decide)
  unfold int32
  omega

/-- What fits does not wrap. -/
theorem int32_of_isInt32 {x : Int} (h : IsInt32 x) : int32 x = x :=
  Int.bmod_eq_of_le (by omega) (by omega)

/-- Wrapping keeps the remainder. -/
theorem int32_emod (x : Int) : int32 x % 4294967296 = x % 4294967296 :=
  Int.bmod_emod

/-- Wrapping is determined by the residue modulo `2 ^ 32`. -/
theorem int32_congr {x y : Int} (h : x % 4294967296 = y % 4294967296) : int32 x = int32 y := by
  unfold int32 Int.bmod
  rw [show x % ((4294967296 : Nat) : Int) = y % ((4294967296 : Nat) : Int) from h]

/-- Wrapping may wait until after an addition, on the right -/
theorem int32_add_int32 (x y : Int) : int32 (x + int32 y) = int32 (x + y) :=
  Int.add_bmod_bmod

/-- and on the left, -/
theorem int32_int32_add (x y : Int) : int32 (int32 x + y) = int32 (x + y) :=
  Int.bmod_add_bmod

/-- until after a subtraction -/
theorem int32_sub_int32 (x y : Int) : int32 (x - int32 y) = int32 (x - y) :=
  Int.sub_bmod_bmod

/-- on either side, -/
theorem int32_int32_sub (x y : Int) : int32 (int32 x - y) = int32 (x - y) :=
  Int.bmod_sub_bmod

/-- and until after a multiplication -/
theorem int32_mul_int32 (x y : Int) : int32 (x * int32 y) = int32 (x * y) :=
  Int.mul_bmod_bmod

/-- on either side. -/
theorem int32_int32_mul (x y : Int) : int32 (int32 x * y) = int32 (x * y) :=
  Int.bmod_mul_bmod

/-- The least `int` is its own negation, every other one has a negation. -/
theorem int32_neg (x : Int) :
    int32 (-x) = -int32 x ∨ int32 x = -2147483648 ∧ int32 (-x) = -2147483648 := by
  have h := int32_emod x
  have hneg := int32_emod (-x)
  have hrange := isInt32_int32 x
  have hrange' := isInt32_int32 (-x)
  omega

/-! ## `long` -/

/-- The range of a 64-bit `long`. -/
abbrev IsInt64 (x : Int) : Prop := -9223372036854775808 ≤ x ∧ x < 9223372036854775808

/-- Conversion to a 64-bit `long`. -/
def int64 (x : Int) : Int := x.bmod 18446744073709551616

/-- What fits does not wrap. -/
theorem int64_of_isInt64 {x : Int} (h : IsInt64 x) : int64 x = x :=
  Int.bmod_eq_of_le (by omega) (by omega)

/-! ## `size_t` -/

/-- The two supported sizes of a `size_t`. -/
inductive SizeT where
  | four
  | eight
  deriving DecidableEq, Repr

namespace SizeT

/-- Width in bytes. -/
def bytes : SizeT → Nat
  | four => 4
  | eight => 8

/-- One past the largest value. -/
def modulus : SizeT → Nat
  | four => 4294967296
  | eight => 18446744073709551616

/-- Conversion of an integer to `size_t`. -/
def wrap (w : SizeT) (x : Int) : Nat := (x % w.modulus).toNat

/-- A `size_t` has at least 32 bits, -/
theorem le_modulus (w : SizeT) : 4294967296 ≤ w.modulus := by
  cases w <;> decide

/-- that is four bytes. -/
theorem four_le_bytes (w : SizeT) : 4 ≤ w.bytes := by
  cases w <;> decide

/-- What fits does not wrap. -/
theorem wrap_natCast {w : SizeT} {n : Nat} (h : n < w.modulus) : w.wrap n = n := by
  unfold wrap
  rw [Int.emod_eq_of_lt (by omega) (by omega)]
  rfl

/-- An `unsigned int` fits any `size_t`. -/
theorem wrap_of_lt (w : SizeT) {n : Nat} (h : n < 4294967296) : w.wrap n = n :=
  wrap_natCast (Nat.lt_of_lt_of_le h w.le_modulus)

/-- A difference that does not fit wraps to the top. -/
theorem wrap_neg {w : SizeT} {n : Nat} (hpos : 0 < n) (hn : n ≤ w.modulus) :
    w.wrap (-(n : Int)) = w.modulus - n := by
  unfold wrap
  rw [← Int.add_emod_right, Int.emod_eq_of_lt (by omega) (by omega)]
  omega

/-- A sum that does not fit wraps to the bottom. -/
theorem wrap_of_ge {w : SizeT} {n : Nat} (hge : w.modulus ≤ n) (hlt : n < 2 * w.modulus) :
    w.wrap n = n - w.modulus := by
  unfold wrap
  rw [← Int.sub_emod_right, Int.emod_eq_of_lt (by omega) (by omega)]
  omega

/-- Wrapping may wait until after a subtraction. -/
theorem wrap_wrap_sub (w : SizeT) (x y : Int) : w.wrap (w.wrap x - y) = w.wrap (x - y) := by
  have hpos : (w.modulus : Int) ≠ 0 := by cases w <;> decide
  unfold wrap
  rw [Int.toNat_of_nonneg (Int.emod_nonneg x hpos), Int.emod_sub_emod]

end SizeT

/-- Going through `size_t` does not change the `int` that comes out. -/
theorem int32_wrap (w : SizeT) (x : Int) : int32 (w.wrap x) = int32 x := by
  apply int32_congr
  unfold SizeT.wrap SizeT.modulus
  cases w <;> dsimp only <;> omega

end FixedInt
