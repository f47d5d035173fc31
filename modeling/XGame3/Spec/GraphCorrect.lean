import Mathlib.Data.Nat.Sqrt
import Mathlib.Tactic.Linarith
import Mathlib.Tactic.Ring
import XGame3.Native.Graph

/-!
# Distances, moves and points on segments

`graph.cpp` computes with `int`s throughout.  Squares, products and the value of the line
equation are right as long as they fit an `int`; a map is measured in hundredths of a tile, so
they need not.

## Key results

- `coordNearEqual_iff`: which points pass as equal
- `squaredDistances_iff`: the squared distances are exact when the exact one fits an `int`
- `moveCoord_eq`: a coordinate moves by the exact fraction, towards zero, while the product fits
- `movesAlong_iff`: moving stays on the segment when the products for the whole length fit
- `onSegment_symm`: the endpoints can be swapped
- `segmentTest_iff`: the point test is right when the value of the line equation and its
  residue are on the same side of the bound
-/

namespace XGame3.Graph

open FixedInt

variable {s e j p q : Coord2D}

/-! ## Squared distances -/

/-- The squared distance, exactly. -/
def exactSquare (s e : Coord2D) : Int :=
  (e.x - s.x) * (e.x - s.x) + (e.y - s.y) * (e.y - s.y)

/-- The square of the distance is the same from both ends -/
theorem exactSquare_comm (s e : Coord2D) : exactSquare s e = exactSquare e s := by
  unfold exactSquare
  ring

/-- and not negative. -/
theorem exactSquare_nonneg (s e : Coord2D) : 0 ≤ exactSquare s e :=
  Int.add_nonneg (mul_self_nonneg _) (mul_self_nonneg _)

/-- Wrapping at every operation wraps the sum of the two squares. -/
private theorem int32_squares (a b : Int) :
    int32 (int32 (int32 a * int32 a) + int32 (int32 b * int32 b)) = int32 (a * a + b * b) := by
  simp only [int32_add_int32, int32_int32_add, int32_mul_int32, int32_int32_mul]

/-- `SegmentDistSquare` is that square cut to 32 bits, -/
theorem segmentDistSquare_eq (s e : Coord2D) :
    segmentDistSquare s e = int32 (exactSquare s e) :=
  int32_squares (e.x - s.x) (e.y - s.y)

/-- so it too is symmetric. -/
theorem segmentDistSquare_symm (s e : Coord2D) :
    segmentDistSquare s e = segmentDistSquare e s := by
  rw [segmentDistSquare_eq, segmentDistSquare_eq, exactSquare_comm]

/-- The three copies of the formula compute one value. -/
theorem squaredis_eq (p q : Coord2D) : p.squaredis q = segmentDistSquare p q :=
  rfl

/-- Points pass as equal when the residue of the squared distance, taken with its sign, is small. -/
theorem coordNearEqual_iff (s e : Coord2D) :
    coordNearEqual s e = true ↔ int32 (exactSquare s e) ≤ 25 := by
  show decide (segmentDistSquare s e ≤ 25) = true ↔ _
  rw [decide_eq_true_iff, segmentDistSquare_eq]

/-- The squared distances are exact, symmetric, agree and decide which points are equal exactly when
    the squared distance fits an `int`. -/
theorem squaredDistances_iff (p q : Coord2D) :
    (segmentDistSquare p q = exactSquare p q ∧
      segmentDistSquare p q = segmentDistSquare q p ∧
      (coordNearEqual p q = true ↔ exactSquare p q ≤ MAX_DIST_ERROR * MAX_DIST_ERROR) ∧
      p.squaredis q = segmentDistSquare p q) ↔
    exactSquare p q < 2147483648 := by
  constructor
  · rintro ⟨hexact, -⟩
    have h := isInt32_int32 (exactSquare p q)
    rw [segmentDistSquare_eq] at hexact
    omega
  · intro hlt
    have hnonneg := exactSquare_nonneg p q
    have hwrap : int32 (exactSquare p q) = exactSquare p q := int32_of_isInt32 (by omega)
    refine ⟨by rw [segmentDistSquare_eq, hwrap], segmentDistSquare_symm p q, ?_, squaredis_eq p q⟩
    rw [coordNearEqual_iff, hwrap]
    rfl

/-- Two points `65536` apart pass as equal. -/
theorem squaredDistances_far :
    ¬ (segmentDistSquare (.set 0 0) (.set 65536 0) = exactSquare (.set 0 0) (.set 65536 0) ∧
      segmentDistSquare (.set 0 0) (.set 65536 0) = segmentDistSquare (.set 65536 0) (.set 0 0) ∧
      (coordNearEqual (.set 0 0) (.set 65536 0) = true ↔
        exactSquare (.set 0 0) (.set 65536 0) ≤ MAX_DIST_ERROR * MAX_DIST_ERROR) ∧
      (Coord2D.set 0 0).squaredis (.set 65536 0) =
        segmentDistSquare (.set 0 0) (.set 65536 0)) := by
  decide

/-! ## Moving along a segment -/

/-- The point is in the closed bounding box of the endpoints. -/
def InBox (s e j : Coord2D) : Prop :=
  min s.x e.x ≤ j.x ∧ j.x ≤ max s.x e.x ∧ min s.y e.y ≤ j.y ∧ j.y ≤ max s.y e.y

/-- The step from `u` to `v` does not lead away from `e`, for someone who comes from `s`. -/
def Towards (s e u v : Int) : Prop :=
  (s ≤ e → u ≤ v) ∧ (e ≤ s → v ≤ u)

/-- Moving along the segment stays on it. -/
structure MovesAlong (s e : Coord2D) : Prop where
  inBox : ∀ d, 0 ≤ d → d ≤ segmentDist s e → InBox s e (segmentMove s e d)
  start : segmentMove s e 0 = s
  finish : 0 < segmentDist s e → segmentMove s e (segmentDist s e) = e
  towards : ∀ d d', 0 ≤ d → d ≤ d' → d' ≤ segmentDist s e →
    Towards s.x e.x (segmentMove s e d).x (segmentMove s e d').x ∧
      Towards s.y e.y (segmentMove s e d).y (segmentMove s e d').y

/-- The root is not negative, -/
theorem sqrt_nonneg (x : Int) : 0 ≤ sqrt x :=
  Int.natCast_nonneg _

/-- nor is a distance. -/
theorem segmentDist_nonneg (s e : Coord2D) : 0 ≤ segmentDist s e :=
  sqrt_nonneg _

/-- The length is the root of the exact square when the differences fit an `int`. -/
theorem segmentDist_eq (hx : IsInt32 (e.x - s.x)) (hy : IsInt32 (e.y - s.y)) :
    segmentDist s e = sqrt (exactSquare s e) := by
  unfold segmentDist exactSquare
  rw [int32_of_isInt32 hx, int32_of_isInt32 hy]

/-- Truncation follows the dividend. -/
private theorem towards_tdiv {k d d' L : Int} (hL : 0 < L) (hd : d ≤ d') :
    (0 ≤ k → (k * d).tdiv L ≤ (k * d').tdiv L) ∧ (k ≤ 0 → (k * d').tdiv L ≤ (k * d).tdiv L) :=
  ⟨fun hk => Int.tdiv_le_tdiv hL (Int.mul_le_mul_of_nonneg_left hd hk),
    fun hk => Int.tdiv_le_tdiv hL (Int.mul_le_mul_of_nonpos_left hk hd)⟩

/-- A truncated quotient is no further from zero than the dividend allows. -/
private theorem mul_tdiv_le {v L : Int} (hL : 0 < L) :
    (0 < v.tdiv L → v.tdiv L * L ≤ v) ∧ (v.tdiv L < 0 → v ≤ v.tdiv L * L) := by
  have hsum := Int.tdiv_mul_add_tmod v L
  constructor
  -- truncation goes towards zero on either side
  · intro hpos
    have hv : 0 ≤ v := by
      by_contra hneg
      have := Int.tdiv_le_tdiv hL (show v ≤ 0 by omega)
      simp at this
      omega
    have := Int.tmod_nonneg L hv
    omega
  · intro hneg
    have hv : 0 ≤ -v := by
      by_contra hpos
      have := Int.tdiv_nonneg (show 0 ≤ v by omega) hL.le
      omega
    have := Int.tmod_nonneg L hv
    rw [Int.neg_tmod] at this
    omega

section MoveCoord

variable {a b d d' L : Int}

/-- The product for a part of the length fits when the one for the whole length does. -/
private theorem isInt32_mul (hfit : IsInt32 ((b - a) * L)) (hd : 0 ≤ d) (hdL : d ≤ L) :
    IsInt32 ((b - a) * d) := by
  -- the product for a part lies between zero and the one for the whole, on either side
  obtain hk | hk : 0 ≤ b - a ∨ b - a ≤ 0 := by omega
  · have h0 : 0 ≤ (b - a) * d := Int.mul_nonneg hk hd
    have hle := Int.mul_le_mul_of_nonneg_left hdL hk
    omega
  · have h0 : (b - a) * d ≤ 0 := Int.mul_nonpos_of_nonpos_of_nonneg hk hd
    have hle := Int.mul_le_mul_of_nonpos_left hk hdL
    omega

/-- The offset is between nothing and the whole difference. -/
private theorem tdiv_between (hL : 0 < L) (hd : 0 ≤ d) (hdL : d ≤ L) :
    (0 ≤ b - a → 0 ≤ ((b - a) * d).tdiv L ∧ ((b - a) * d).tdiv L ≤ b - a) ∧
      (b - a ≤ 0 → b - a ≤ ((b - a) * d).tdiv L ∧ ((b - a) * d).tdiv L ≤ 0) := by
  have hlo := towards_tdiv (k := b - a) hL hd
  have hhi := towards_tdiv (k := b - a) hL hdL
  rw [Int.mul_tdiv_cancel _ hL.ne'] at hhi
  rw [Int.mul_zero, Int.zero_tdiv] at hlo
  exact ⟨fun hk => ⟨hlo.1 hk, hhi.1 hk⟩, fun hk => ⟨hhi.2 hk, hlo.2 hk⟩⟩

/-- The coordinate after a move, without the wraps. -/
theorem moveCoord_eq (ha : IsInt32 a) (hb : IsInt32 b) (hfit : IsInt32 ((b - a) * L))
    (hL : 0 < L) (hd : 0 ≤ d) (hdL : d ≤ L) :
    moveCoord a b d L = ((b - a) * d).tdiv L + a := by
  have hbetween := tdiv_between (a := a) (b := b) hL hd hdL
  unfold moveCoord
  rw [int32_int32_mul, int32_of_isInt32 (isInt32_mul hfit hd hdL)]
  apply int32_of_isInt32
  omega

/-- The whole length leads to the end only when the product fits. -/
private theorem isInt32_of_finish (hdiff : IsInt32 (b - a)) (hL : 0 < L)
    (hfinish : moveCoord a b L L = b) : IsInt32 ((b - a) * L) := by
  unfold moveCoord at hfinish
  rw [int32_int32_mul] at hfinish
  have hv := isInt32_int32 ((b - a) * L)
  -- from here on only the range of the wrapped product matters
  generalize int32 ((b - a) * L) = v at hfinish hv
  obtain ⟨hpos, hneg⟩ := mul_tdiv_le (v := v) hL
  have hmod := int32_emod (v.tdiv L + a)
  rw [hfinish] at hmod
  -- the quotient is an `int`, so it is the difference itself
  have habs := Int.natAbs_tdiv_le_natAbs v L
  have hhi : 0 < v.tdiv L → 0 < v := fun hq => by
    have := Int.mul_pos hq hL
    have := hpos hq
    omega
  have hq : v.tdiv L = b - a := by omega
  rw [hq] at hpos hneg
  obtain hk | hk | hk := Int.lt_trichotomy (b - a) 0
  · have := Int.mul_nonpos_of_nonpos_of_nonneg hk.le hL.le
    have := hneg hk
    omega
  · rw [hk, Int.zero_mul]
    decide
  · have := Int.mul_nonneg hk.le hL.le
    have := hpos hk
    omega

end MoveCoord

/-- A move along a segment that has a length, coordinate by coordinate. -/
private theorem segmentMove_coords (hL : segmentDist s e ≠ 0) (d : Int) :
    (segmentMove s e d).x = moveCoord s.x e.x d (segmentDist s e) ∧
      (segmentMove s e d).y = moveCoord s.y e.y d (segmentDist s e) := by
  unfold segmentMove
  rw [if_neg (Ne.symm hL)]
  exact ⟨int32_of_isInt32 (isInt32_int32 _), int32_of_isInt32 (isInt32_int32 _)⟩

/-- A segment without a length goes nowhere. -/
private theorem movesAlong_of_zero (hL : segmentDist s e = 0) : MovesAlong s e := by
  have hmove : ∀ d, segmentMove s e d = s := fun d => if_pos hL.symm
  refine ⟨fun d _ _ => ?_, hmove 0, fun h => absurd hL h.ne', fun d d' _ _ _ => ?_⟩
  · rw [hmove]
    unfold InBox
    omega
  · rw [hmove, hmove]
    unfold Towards
    omega

/-- The differences of coordinates that are not negative fit an `int`. -/
theorem isInt32_sub (hs : 0 ≤ s.x ∧ 0 ≤ s.y) (he : 0 ≤ e.x ∧ 0 ≤ e.y) :
    IsInt32 (e.x - s.x) ∧ IsInt32 (e.y - s.y) := by
  have := s.x_isInt32
  have := s.y_isInt32
  have := e.x_isInt32
  have := e.y_isInt32
  omega

section Fits

variable (hL : 0 < segmentDist s e) (hfx : IsInt32 ((e.x - s.x) * segmentDist s e))
  (hfy : IsInt32 ((e.y - s.y) * segmentDist s e))

include hL hfx hfy

/-- The point after a move, without the wraps. -/
theorem segmentMove_eq {d : Int} (hd : 0 ≤ d) (hdL : d ≤ segmentDist s e) :
    (segmentMove s e d).x = ((e.x - s.x) * d).tdiv (segmentDist s e) + s.x ∧
      (segmentMove s e d).y = ((e.y - s.y) * d).tdiv (segmentDist s e) + s.y := by
  obtain ⟨hx, hy⟩ := segmentMove_coords hL.ne' d
  rw [hx, hy]
  exact ⟨moveCoord_eq s.x_isInt32 e.x_isInt32 hfx hL hd hdL,
    moveCoord_eq s.y_isInt32 e.y_isInt32 hfy hL hd hdL⟩

/-- Where the products fit, moving stays on the segment. -/
theorem movesAlong_of_fits : MovesAlong s e where
  inBox := by
    intro d hd hdL
    obtain ⟨hx, hy⟩ := segmentMove_eq hL hfx hfy hd hdL
    have := tdiv_between (a := s.x) (b := e.x) hL hd hdL
    have := tdiv_between (a := s.y) (b := e.y) hL hd hdL
    unfold InBox
    omega
  start := by
    obtain ⟨hx, hy⟩ := segmentMove_eq hL hfx hfy le_rfl hL.le
    simp at hx hy
    exact Coord2D.ext hx hy
  finish := by
    intro _
    obtain ⟨hx, hy⟩ := segmentMove_eq hL hfx hfy hL.le le_rfl
    rw [Int.mul_tdiv_cancel _ hL.ne'] at hx hy
    exact Coord2D.ext (by omega) (by omega)
  towards := by
    intro d d' hd hdd' hd'L
    obtain ⟨hx, hy⟩ := segmentMove_eq hL hfx hfy hd (by omega)
    obtain ⟨hx', hy'⟩ := segmentMove_eq hL hfx hfy (by omega) hd'L
    have := towards_tdiv (k := e.x - s.x) hL hdd'
    have := towards_tdiv (k := e.y - s.y) hL hdd'
    unfold Towards
    omega

end Fits

/-- Moving stays on the segment, from its start to its end and never back, exactly when the
    products for the whole length fit an `int`. -/
theorem movesAlong_iff (s e : Coord2D) (hs : 0 ≤ s.x ∧ 0 ≤ s.y) (he : 0 ≤ e.x ∧ 0 ≤ e.y) :
    MovesAlong s e ↔
      IsInt32 ((e.x - s.x) * sqrt (exactSquare s e)) ∧
        IsInt32 ((e.y - s.y) * sqrt (exactSquare s e)) := by
  obtain ⟨hdx, hdy⟩ := isInt32_sub hs he
  rw [← segmentDist_eq hdx hdy]
  by_cases hzero : segmentDist s e = 0
  · refine iff_of_true (movesAlong_of_zero hzero) ?_
    rw [hzero, Int.mul_zero, Int.mul_zero]
    decide
  have hL : 0 < segmentDist s e := by
    have := segmentDist_nonneg s e
    omega
  constructor
  · -- what the last step needs is enough for all of them
    intro h
    obtain ⟨hx, hy⟩ := segmentMove_coords hzero (segmentDist s e)
    rw [h.finish hL] at hx hy
    exact ⟨isInt32_of_finish hdx hL hx.symm, isInt32_of_finish hdy hL hy.symm⟩
  · exact fun ⟨hfx, hfy⟩ => movesAlong_of_fits hL hfx hfy

/-- A segment on which moving works. -/
theorem movesAlong_iff_short : MovesAlong (.set 0 0) (.set 300 400) :=
  (movesAlong_iff (.set 0 0) (.set 300 400) (by decide) (by decide)).2 (by decide +kernel)

/-- At its end, a segment of length `46341` is left on the wrong side. -/
theorem movesAlong_far : ¬ MovesAlong (.set 0 0) (.set 46341 0) := fun h =>
  absurd (h.finish (by decide +kernel)) (by decide +kernel)

/-! ## Points on a segment -/

/-- `ax + by + c`, exactly. -/
def lineValue (s e j : Coord2D) : Int :=
  (s.y - e.y) * j.x + (e.x - s.x) * j.y + (s.x * e.y - e.x * s.y)

/-- The value is less than `r` away from a multiple of `2 ^ 32`, or halfway between two of them. -/
def NearModulo (v r : Int) : Prop :=
  ∃ k : Int, |v - 4294967296 * k| < r ∨ v = 4294967296 * k + 2147483648

/-- What the point test should do. -/
structure SegmentTest (s e j : Coord2D) : Prop where
  noFault : onSegment s e j ≠ none
  symm : onSegment s e j = onSegment e s j
  exact : onSegment s e j = some true ↔ InBox s e j ∧
    if s = e then j = s else |lineValue s e j| / sqrt (exactSquare s e) ≤ MAX_DIST_ERROR

instance (s e j : Coord2D) : Decidable (InBox s e j) := by
  unfold InBox
  infer_instance

/-- A box is the same from both of its corners. -/
private theorem inBox_symm : InBox s e j ↔ InBox e s j := by
  unfold InBox
  omega

/-- A sum of two squares has a root of at least one unless both are zero. -/
private theorem sqrt_eq_zero {a b : Int} : sqrt (a * a + b * b) = 0 ↔ a = 0 ∧ b = 0 := by
  have ha := mul_self_nonneg a
  have hb := mul_self_nonneg b
  constructor
  · intro h
    -- a number with root zero is below one
    have hle : (a * a + b * b).toNat < 1 := Nat.sqrt_eq_zero.1 (Int.ofNat_inj.1 h) ▸ by decide
    exact ⟨mul_self_eq_zero.1 (by omega), mul_self_eq_zero.1 (by omega)⟩
  · rintro ⟨rfl, rfl⟩
    rfl

/-- The difference of two `int`s is zero after the wrap only if it is zero. -/
private theorem int32_sub_eq_zero {a b : Int} (ha : IsInt32 a) (hb : IsInt32 b) :
    int32 (a - b) = 0 ↔ a = b := by
  have := int32_emod (a - b)
  constructor
  · intro h
    omega
  · rintro rfl
    rw [Int.sub_self]
    decide

/-- The divisor of the test is the length, squares of differences have no sign. -/
private theorem int32_sq_comm (a b : Int) :
    int32 (a - b) * int32 (a - b) = int32 (b - a) * int32 (b - a) := by
  have h := int32_neg (a - b)
  rw [Int.neg_sub] at h
  obtain h | ⟨hmin, h⟩ := h
  · rw [h, Int.neg_mul_neg]
  · rw [h, hmin]

/-- The test, with the value of the line wrapped once. -/
theorem onSegment_eq (s e j : Coord2D) :
    onSegment s e j =
      if InBox s e j then
        if segmentDist s e = 0 then none
        else some (decide
          ((abs (int32 (lineValue s e j))).tdiv (segmentDist s e) ≤ MAX_DIST_ERROR))
      else some false := by
  have hvalue : int32 (int32 (int32 (int32 (s.y - e.y) * j.x) + int32 (int32 (e.x - s.x) * j.y)) +
      int32 (int32 (s.x * e.y) - int32 (e.x * s.y))) = int32 (lineValue s e j) := by
    simp only [int32_add_int32, int32_int32_add, int32_int32_mul, int32_sub_int32,
      int32_int32_sub, lineValue]
  -- the two squares the other way round, which is what `SegmentDist` takes the root of
  have hlength : sqrt (int32 (s.y - e.y) * int32 (s.y - e.y) +
      int32 (e.x - s.x) * int32 (e.x - s.x)) = segmentDist s e := by
    unfold segmentDist
    rw [int32_sq_comm s.y e.y, Int.add_comm]
  unfold onSegment
  simp only [hvalue, hlength]
  by_cases hbox : InBox s e j
  · rw [if_pos hbox, if_neg]
    unfold InBox at hbox
    omega
  · rw [if_neg hbox, if_pos]
    unfold InBox at hbox
    omega

/-- The length of a segment is zero when the endpoints are equal, and only then. -/
theorem segmentDist_eq_zero : segmentDist s e = 0 ↔ s = e := by
  unfold segmentDist
  rw [sqrt_eq_zero, int32_sub_eq_zero e.x_isInt32 s.x_isInt32,
    int32_sub_eq_zero e.y_isInt32 s.y_isInt32]
  constructor
  · rintro ⟨hx, hy⟩
    exact Coord2D.ext hx.symm hy.symm
  · rintro rfl
    exact ⟨rfl, rfl⟩

/-- The distance is the same from both ends. -/
theorem segmentDist_symm (s e : Coord2D) : segmentDist s e = segmentDist e s := by
  unfold segmentDist
  rw [int32_sq_comm e.x, int32_sq_comm e.y]

/-- `abs` does not look at the sign, not even of the least `int`. -/
private theorem abs_int32_neg (v : Int) : abs (int32 (-v)) = abs (int32 v) := by
  unfold abs
  obtain h | ⟨hmin, h⟩ := int32_neg v
  · rw [h, Int.natAbs_neg]
  · rw [h, hmin]

/-- The endpoints can be swapped. -/
theorem onSegment_symm (s e j : Coord2D) : onSegment s e j = onSegment e s j := by
  have hvalue : lineValue s e j = -lineValue e s j := by
    unfold lineValue
    ring
  rw [onSegment_eq, onSegment_eq, segmentDist_symm s e, hvalue, abs_int32_neg]
  simp only [inBox_symm (s := s) (e := e)]

/-- What the test asks of the wrapped value of the line. -/
private theorem tdiv_le_iff {v L : Int} (hL : 0 < L) :
    (abs (int32 v)).tdiv L ≤ MAX_DIST_ERROR ↔ NearModulo v (6 * L) := by
  have hrange := isInt32_int32 v
  have hmod := int32_emod v
  obtain ⟨k, hk⟩ : ∃ k : Int, v = int32 v + 4294967296 * k :=
    ⟨(v - int32 v) / 4294967296, by omega⟩
  generalize hr : int32 v = r at *
  unfold abs MAX_DIST_ERROR
  by_cases hmin : r = -2147483648
  · -- the least `int` is below every bound
    rw [hmin]
    -- and the value is then halfway between two multiples of `2 ^ 32`
    have hneg : (int32 ((-2147483648 : Int).natAbs : Int)).tdiv L ≤ 0 := by
      have := Int.tdiv_le_tdiv hL (show (-2147483648 : Int) ≤ 0 by decide)
      rwa [Int.zero_tdiv] at this
    exact iff_of_true (by omega) ⟨k - 1, .inr (by omega)⟩
  · rw [int32_of_isInt32 (by omega), Int.tdiv_eq_ediv_of_nonneg (by omega)]
    rw [show (r.natAbs : Int) / L ≤ 5 ↔ (r.natAbs : Int) / L < 6 by omega,
      Int.ediv_lt_iff_lt_mul hL]
    constructor
    · intro hlt
      refine ⟨k, .inl ?_⟩
      rw [show v - 4294967296 * k = r by omega, Int.abs_eq_natAbs]
      exact hlt
    · rintro ⟨k', hlt | hhalf⟩
      · rw [Int.abs_eq_natAbs] at hlt
        omega
      · omega

/-- The exact length is zero only for equal endpoints. -/
private theorem sqrt_exactSquare_pos (hne : s ≠ e) : 0 < sqrt (exactSquare s e) := by
  have hnonneg := sqrt_nonneg (exactSquare s e)
  by_contra hzero
  obtain ⟨hx, hy⟩ := sqrt_eq_zero.1 (show sqrt (exactSquare s e) = 0 by omega)
  exact hne (Coord2D.ext (by omega) (by omega))

/-- The truncated quotient of the exact test is a comparison. -/
private theorem ediv_le_iff {v L : Int} (hL : 0 < L) : v / L ≤ MAX_DIST_ERROR ↔ v < 6 * L := by
  rw [show v / L ≤ MAX_DIST_ERROR ↔ v / L < 6 by unfold MAX_DIST_ERROR; omega,
    Int.ediv_lt_iff_lt_mul hL]

/-- What the test returns for a point in the box of a segment with a length, and what it should. -/
private theorem onSegment_near (hbox : InBox s e j) (hse : s ≠ e) :
    (onSegment s e j = some true ↔ NearModulo (lineValue s e j) (6 * segmentDist s e)) ∧
      ((InBox s e j ∧ if s = e then j = s else
        |lineValue s e j| / sqrt (exactSquare s e) ≤ MAX_DIST_ERROR) ↔
        |lineValue s e j| < 6 * sqrt (exactSquare s e)) := by
  have hlength : segmentDist s e ≠ 0 := fun h => hse (segmentDist_eq_zero.1 h)
  have hpos : 0 < segmentDist s e := by
    have := segmentDist_nonneg s e
    omega
  constructor
  · rw [onSegment_eq, if_pos hbox, if_neg hlength, ← tdiv_le_iff hpos]
    simp
  · rw [if_neg hse, ediv_le_iff (sqrt_exactSquare_pos hse)]
    exact and_iff_right hbox

/-- The test is right where the two conditions agree, and outside the box. -/
theorem segmentTest_of_near (h : InBox s e j → s ≠ e ∧
    (NearModulo (lineValue s e j) (6 * segmentDist s e) ↔
      |lineValue s e j| < 6 * sqrt (exactSquare s e))) : SegmentTest s e j := by
  by_cases hbox : InBox s e j
  · obtain ⟨hse, hnear⟩ := h hbox
    obtain ⟨htest, hexact⟩ := onSegment_near hbox hse
    refine ⟨?_, onSegment_symm s e j, htest.trans (hnear.trans hexact.symm)⟩
    rw [onSegment_eq, if_pos hbox, if_neg fun hzero => hse (segmentDist_eq_zero.1 hzero)]
    simp
  · have hfalse : onSegment s e j = some false := by rw [onSegment_eq, if_neg hbox]
    refine ⟨by simp [hfalse], onSegment_symm s e j, ?_⟩
    simp [hfalse, hbox]

/-- The point test is right exactly when the point is outside the box, or the endpoints differ and
    the value of the line is near a multiple of `2 ^ 32` exactly when it is near zero. -/
theorem segmentTest_iff (s e j : Coord2D) :
    SegmentTest s e j ↔ (InBox s e j → s ≠ e ∧
      (NearModulo (lineValue s e j) (6 * segmentDist s e) ↔
        |lineValue s e j| < 6 * sqrt (exactSquare s e))) := by
  constructor
  · intro h hbox
    have hse : s ≠ e := by
      -- the division by the length
      intro heq
      refine h.noFault ?_
      rw [onSegment_eq, if_pos hbox, if_pos (segmentDist_eq_zero.2 heq)]
    obtain ⟨htest, hexact⟩ := onSegment_near hbox hse
    exact ⟨hse, htest.symm.trans (h.exact.trans hexact)⟩
  · exact segmentTest_of_near

/-- As long as the differences and the value of the line fit an `int`, only a segment without a
    length is a problem. -/
theorem segmentTest_of_fits (hse : s ≠ e) (hx : IsInt32 (e.x - s.x)) (hy : IsInt32 (e.y - s.y))
    (hvalue : |lineValue s e j| < 2147483648) : SegmentTest s e j := by
  refine segmentTest_of_near fun _ => ⟨hse, ?_⟩
  rw [segmentDist_eq hx hy]
  generalize 6 * sqrt (exactSquare s e) = r
  generalize lineValue s e j = v at *
  simp only [NearModulo, Int.abs_eq_natAbs] at *
  constructor
  · rintro ⟨k, hnear | hhalf⟩ <;> omega
  · intro hlt
    exact ⟨0, .inl (by omega)⟩

/-- The two kinds of failures: a point tested against itself, and a corner of the box that is
    `2 ^ 32` away in the value of the line. -/
theorem segmentTest_fails :
    ¬ SegmentTest (.set 7 7) (.set 7 7) (.set 7 7) ∧
      ¬ SegmentTest (.set 0 0) (.set 65536 65536) (.set 65536 0) := by
  constructor
  · exact fun h => h.noFault (by decide +kernel)
  · intro h
    have htrue : onSegment (.set 0 0) (.set 65536 65536) (.set 65536 0) = some true := by
      decide +kernel
    exact absurd (h.exact.1 htrue) (by decide +kernel)

end XGame3.Graph
