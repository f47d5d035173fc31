import Mathlib.Algebra.Order.Ring.Abs
import Mathlib.Algebra.Order.Ring.Int
import Mathlib.Tactic.Linarith
import Mathlib.Tactic.LinearCombination
import Mathlib.Tactic.Ring

/-!
# Scaling a vector of the integer plane

The vector `(a, b)` is scaled by `d / L`, each coordinate truncated towards zero, where `L` is
its length rounded down.

Key results:
- `scaled_lt`, `le_scaled`: the scaled vector has length `d`, up to two units too short.
- `rest_lt`, `le_rest`: what is left of the vector has length `L - d`, up to two units too long.
- `cross_lt`: the scaled vector stays near the line of the vector.
-/

namespace Scaling

variable {a b d L : Int}

/-! ## One coordinate -/

/-- A truncated quotient, without its sign. -/
theorem abs_scaled (hL : 0 < L) (hd : 0 ≤ d) :
    L * |(a * d).tdiv L| ≤ |a| * d ∧ |a| * d < L * (|(a * d).tdiv L| + 1) := by
  lift L to Nat using hL.le
  lift d to Nat using hd
  simp only [Int.abs_eq_natAbs, Int.natAbs_tdiv, Int.natAbs_mul, Int.natAbs_natCast]
  have hlo := Nat.mul_div_le (a.natAbs * d) L
  have hhi := Nat.lt_mul_div_succ (a.natAbs * d) (Int.natCast_pos.1 hL)
  exact ⟨by exact_mod_cast hlo, by exact_mod_cast hhi⟩

/-- The truncated quotient has the sign of the coordinate and does not exceed it. -/
theorem abs_rest (hL : 0 < L) (hd : 0 ≤ d) (hdL : d ≤ L) :
    |a - (a * d).tdiv L| = |a| - |(a * d).tdiv L| := by
  have hlo := (abs_scaled (a := a) hL hd).1
  have hle : |(a * d).tdiv L| ≤ |a| :=
    le_of_mul_le_mul_left (hlo.trans ((Int.mul_le_mul_of_nonneg_left hdL (abs_nonneg a)).trans_eq
      (mul_comm _ _))) hL
  obtain ha | ha := le_total 0 a
  · have hq : 0 ≤ (a * d).tdiv L := Int.tdiv_nonneg (Int.mul_nonneg ha hd) hL.le
    rw [abs_of_nonneg ha, abs_of_nonneg hq] at *
    exact abs_of_nonneg (by omega)
  · have hq : (a * d).tdiv L ≤ 0 := by
      rw [← neg_neg a, neg_mul, Int.neg_tdiv]
      have := Int.tdiv_nonneg (Int.mul_nonneg (neg_nonneg.2 ha) hd) hL.le
      omega
    rw [abs_of_nonpos ha, abs_of_nonpos hq] at *
    rw [abs_of_nonpos (by omega)]
    omega

/-! ## Both coordinates -/

section Norms

variable {x y k : Int}

/-- A vector whose coordinates are no larger than those scaled by `k / L` is no longer than `k`. -/
theorem norm_lt (hL : 0 < L) (hk : 0 ≤ k) (hkL : k ≤ L) (hx : L * |x| ≤ |a| * k)
    (hy : L * |y| ≤ |b| * k) (hlen : a * a + b * b < (L + 1) * (L + 1)) :
    x * x + y * y < (k + 1) * (k + 1) := by
  have hxx := mul_self_le_mul_self (Int.mul_nonneg hL.le (abs_nonneg x)) hx
  have hyy := mul_self_le_mul_self (Int.mul_nonneg hL.le (abs_nonneg y)) hy
  rw [mul_mul_mul_comm L, mul_mul_mul_comm |a|, abs_mul_abs_self, abs_mul_abs_self] at hxx
  rw [mul_mul_mul_comm L, mul_mul_mul_comm |b|, abs_mul_abs_self, abs_mul_abs_self] at hyy
  -- both sides times the square of `L`
  refine lt_of_mul_lt_mul_left ?_ (Int.mul_nonneg hL.le hL.le)
  have hsum : L * L * (x * x + y * y) ≤ (a * a + b * b) * (k * k) := by linarith
  have hscaled : (a * a + b * b) * (k * k) ≤ (L * L + 2 * L) * (k * k) :=
    Int.mul_le_mul_of_nonneg_right (by linarith) (mul_self_nonneg k)
  have hkk : L * k * k ≤ L * k * L := Int.mul_le_mul_of_nonneg_left hkL (Int.mul_nonneg hL.le hk)
  have hLL := Int.mul_pos hL hL
  linarith

/-- A vector whose coordinates are at least those scaled by `k / L` is at least as long as `k`. -/
theorem le_norm (hL : 0 < L) (hk : 0 ≤ k) (hx : |a| * k ≤ L * x) (hy : |b| * k ≤ L * y)
    (hlen : L * L ≤ a * a + b * b) : k * k ≤ x * x + y * y := by
  have hxx := mul_self_le_mul_self (Int.mul_nonneg (abs_nonneg a) hk) hx
  have hyy := mul_self_le_mul_self (Int.mul_nonneg (abs_nonneg b) hk) hy
  rw [mul_mul_mul_comm |a|, abs_mul_abs_self, mul_mul_mul_comm L] at hxx
  rw [mul_mul_mul_comm |b|, abs_mul_abs_self, mul_mul_mul_comm L] at hyy
  refine le_of_mul_le_mul_left ?_ (Int.mul_pos hL hL)
  have hscaled := Int.mul_le_mul_of_nonneg_right hlen (mul_self_nonneg k)
  linarith

/-- One unit more in each coordinate is less than two units of length. -/
theorem corner_lt (hx : 0 ≤ x) (hy : 0 ≤ y) (hk : 0 ≤ k) (h : x * x + y * y < k * k) :
    (x + 1) * (x + 1) + (y + 1) * (y + 1) < (k + 2) * (k + 2) := by
  have hsum : x + y ≤ 2 * k := by
    by_contra! hfar
    nlinarith [sq_nonneg (x - y)]
  linarith

end Norms

/-- The scaled vector is near the line of the vector. -/
theorem cross_lt (hL : 0 < L) (hlen : a * a + b * b < (L + 1) * (L + 1)) :
    |a * (b * d).tdiv L - b * (a * d).tdiv L| < 3 * L := by
  have hmoda := Int.mul_tdiv_add_tmod (a * d) L
  have hmodb := Int.mul_tdiv_add_tmod (b * d) L
  have hra : |(a * d).tmod L| < L := abs_lt.2 ⟨Int.lt_tmod_of_pos _ hL, Int.tmod_lt_of_pos _ hL⟩
  have hrb : |(b * d).tmod L| < L := abs_lt.2 ⟨Int.lt_tmod_of_pos _ hL, Int.tmod_lt_of_pos _ hL⟩
  generalize (a * d).tmod L = ra at *
  generalize (b * d).tmod L = rb at *
  generalize (a * d).tdiv L = x at *
  generalize (b * d).tdiv L = y at *
  -- what the truncations left out is all that is off the line
  have hcross : L * (a * y - b * x) = b * ra - a * rb := by
    linear_combination a * hmodb - b * hmoda
  have hsum : |a| + |b| < 3 * L := by
    refine lt_of_mul_self_lt_mul_self₀ (by omega) ?_
    have hsq := sq_nonneg (|a| - |b|)
    have ha := abs_mul_abs_self a
    have hb := abs_mul_abs_self b
    nlinarith
  refine lt_of_mul_lt_mul_left ?_ hL.le
  calc L * |a * y - b * x| = |b * ra - a * rb| := by rw [← hcross, abs_mul, abs_of_pos hL]
    _ ≤ |b| * |ra| + |a| * |rb| := by rw [← abs_mul, ← abs_mul]; exact abs_sub _ _
    _ ≤ |b| * L + |a| * L := add_le_add (Int.mul_le_mul_of_nonneg_left hra.le (abs_nonneg b))
        (Int.mul_le_mul_of_nonneg_left hrb.le (abs_nonneg a))
    _ = L * (|a| + |b|) := by ring
    _ < L * (3 * L) := Int.mul_lt_mul_of_pos_left hsum hL

variable (hL : 0 < L) (hd : 0 ≤ d) (hdL : d ≤ L)

include hL hd

/-- The scaled vector is at most two units shorter than `d`. -/
theorem le_scaled (hd2 : 2 ≤ d) (hlen : L * L ≤ a * a + b * b) :
    (d - 2) * (d - 2) ≤ (a * d).tdiv L * (a * d).tdiv L + (b * d).tdiv L * (b * d).tdiv L := by
  have hcorner := le_norm hL hd (abs_scaled hL hd).2.le (abs_scaled hL hd).2.le hlen
  rw [← abs_mul_abs_self ((a * d).tdiv L), ← abs_mul_abs_self ((b * d).tdiv L)]
  by_contra! hshort
  have := corner_lt (abs_nonneg _) (abs_nonneg _) (by omega) hshort
  rw [sub_add_cancel] at this
  omega

include hdL

/-- The scaled vector is no longer than `d`, when the length is rounded down. -/
theorem scaled_lt (hlen : a * a + b * b < (L + 1) * (L + 1)) :
    (a * d).tdiv L * (a * d).tdiv L + (b * d).tdiv L * (b * d).tdiv L < (d + 1) * (d + 1) :=
  norm_lt hL hd hdL (abs_scaled hL hd).1 (abs_scaled hL hd).1 hlen

/-- What is left of the vector is at least as long as `L - d`. -/
theorem le_rest (hlen : L * L ≤ a * a + b * b) :
    (L - d) * (L - d) ≤ (a - (a * d).tdiv L) * (a - (a * d).tdiv L) +
      (b - (b * d).tdiv L) * (b - (b * d).tdiv L) := by
  rw [← abs_mul_abs_self (a - _), ← abs_mul_abs_self (b - _)]
  refine le_norm hL (by omega) ?_ ?_ hlen <;> rw [abs_rest hL hd hdL]
  · have := (abs_scaled (a := a) hL hd).1
    linarith
  · have := (abs_scaled (a := b) hL hd).1
    linarith

/-- What is left of a coordinate, less one unit, is no more than its share. -/
theorem rest_le : L * |max 0 (|a - (a * d).tdiv L| - 1)| ≤ |a| * (L - d) := by
  have hhi := (abs_scaled (a := a) hL hd).2
  rw [abs_of_nonneg (le_max_left ..), abs_rest hL hd hdL]
  obtain h | h := max_choice 0 (|a| - |(a * d).tdiv L| - 1) <;> rw [h]
  · rw [mul_zero]
    exact Int.mul_nonneg (abs_nonneg a) (by omega)
  · linarith

/-- What is left of the vector is less than three units longer than `L - d`. -/
theorem rest_lt (hlen : a * a + b * b < (L + 1) * (L + 1)) :
    (a - (a * d).tdiv L) * (a - (a * d).tdiv L) + (b - (b * d).tdiv L) * (b - (b * d).tdiv L) <
      (L - d + 3) * (L - d + 3) := by
  have hinner := norm_lt hL (sub_nonneg.2 hdL) (by omega) (rest_le (a := a) hL hd hdL)
    (rest_le (a := b) hL hd hdL) hlen
  have hcorner := corner_lt (le_max_left ..) (le_max_left ..) (by omega) hinner
  have hx := mul_self_le_mul_self (abs_nonneg (a - (a * d).tdiv L))
    (sub_le_iff_le_add.1 (le_max_right 0 (|a - (a * d).tdiv L| - 1)))
  have hy := mul_self_le_mul_self (abs_nonneg (b - (b * d).tdiv L))
    (sub_le_iff_le_add.1 (le_max_right 0 (|b - (b * d).tdiv L| - 1)))
  rw [abs_mul_abs_self] at hx hy
  rw [add_assoc (L - d) 1 2] at hcorner
  exact lt_of_le_of_lt (add_le_add hx hy) hcorner

end Scaling
