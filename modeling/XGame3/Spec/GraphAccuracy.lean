import XGame3.ForStd.Scaling
import XGame3.Spec.GraphCorrect

/-!
# How far a move along a segment goes

`SegmentMove` divides by a length rounded down and truncates both coordinates.  `Scaling` says
what that does to the vector of the segment: the point is off its line by less than three times
the length over the length, so it passes `OnSegment`, and its distances to both ends are those
asked for, up to two units.

## Key results

- `onSegment_segmentMove`: the point is on the segment for `OnSegment`
- `segmentDist_segmentMove`: the way gone, and the way left
- `segmentMove_accurate`: both, and a rectangle around the segment is not left
-/

namespace XGame3.Graph

open FixedInt

/-- The root of a square, rounded down. -/
theorem sqrt_spec {x : Int} (hx : 0 ≤ x) :
    sqrt x * sqrt x ≤ x ∧ x < (sqrt x + 1) * (sqrt x + 1) := by
  lift x to Nat using hx
  unfold sqrt
  rw [Int.toNat_natCast]
  exact ⟨by exact_mod_cast Nat.sqrt_le x, by exact_mod_cast Nat.lt_succ_sqrt x⟩

/-- A number between two squares has its root between theirs. -/
theorem sqrt_between {x lo hi : Int} (hx : 0 ≤ x) (hlo : 0 ≤ lo → lo * lo ≤ x)
    (hhi : x < (hi + 1) * (hi + 1)) (hhi0 : 0 ≤ hi) : lo ≤ sqrt x ∧ sqrt x ≤ hi := by
  obtain ⟨hle, hlt⟩ := sqrt_spec hx
  have hnonneg := sqrt_nonneg x
  constructor
  · by_contra! hless
    have := hlo (by omega)
    nlinarith
  · by_contra! hmore
    nlinarith

section Moves

variable {s e : Coord2D} {d : Int} (hs : 0 ≤ s.x ∧ 0 ≤ s.y) (he : 0 ≤ e.x ∧ 0 ≤ e.y)

include hs he

/-- The length of a segment is its exact length rounded down. -/
theorem segmentDist_spec : segmentDist s e * segmentDist s e ≤ exactSquare s e ∧
    exactSquare s e < (segmentDist s e + 1) * (segmentDist s e + 1) := by
  obtain ⟨hx, hy⟩ := isInt32_sub hs he
  rw [segmentDist_eq hx hy]
  exact sqrt_spec (exactSquare_nonneg s e)

theorem segmentDist_between {lo hi : Int} (hlo : 0 ≤ lo → lo * lo ≤ exactSquare s e)
    (hhi : exactSquare s e < (hi + 1) * (hi + 1)) (hhi0 : 0 ≤ hi) :
    lo ≤ segmentDist s e ∧ segmentDist s e ≤ hi := by
  obtain ⟨hx, hy⟩ := isInt32_sub hs he
  rw [segmentDist_eq hx hy]
  exact sqrt_between (exactSquare_nonneg s e) hlo hhi hhi0

variable (hL : 0 < segmentDist s e) (hfx : IsInt32 ((e.x - s.x) * segmentDist s e))
  (hfy : IsInt32 ((e.y - s.y) * segmentDist s e))

include hL hfx hfy

/-- A segment on which one can move is not long. -/
theorem segmentDist_short : 3 * segmentDist s e ≤ 2147483648 := by
  have hlen := (segmentDist_spec hs he).1
  unfold exactSquare at hlen
  generalize segmentDist s e = L at *
  generalize e.x - s.x = a at *
  generalize e.y - s.y = b at *
  by_contra! hlong
  -- a coordinate of three units or more would make its product too long
  have hsmall : ∀ c : Int, IsInt32 (c * L) → -2 ≤ c ∧ c ≤ 2 := by
    intro c hc
    constructor
    · by_contra! hneg
      nlinarith [hc.1]
    · by_contra! hpos
      nlinarith [hc.2]
  obtain ⟨ha, ha'⟩ := hsmall a hfx
  obtain ⟨hb, hb'⟩ := hsmall b hfy
  nlinarith

variable (hd : 0 ≤ d) (hdL : d ≤ segmentDist s e)

include hd hdL

/-- A point of a move has no negative coordinate either. -/
theorem segmentMove_nonneg : 0 ≤ (segmentMove s e d).x ∧ 0 ≤ (segmentMove s e d).y := by
  have hbox := (movesAlong_of_fits hL hfx hfy).inBox d hd hdL
  unfold InBox at hbox
  omega

/-- A move stays on the segment, as far as `OnSegment` can tell. -/
theorem onSegment_segmentMove : onSegment s e (segmentMove s e d) = some true := by
  have hse : s ≠ e := fun heq => by
    rw [segmentDist_eq_zero.2 heq] at hL
    omega
  obtain ⟨hx, hy⟩ := isInt32_sub hs he
  obtain ⟨hpx, hpy⟩ := segmentMove_eq hL hfx hfy hd hdL
  -- rounding leaves the point less than three lengths off the line
  have hline : |lineValue s e (segmentMove s e d)| < 3 * segmentDist s e := by
    have hcross := Scaling.cross_lt (d := d) hL (segmentDist_spec hs he).2
    have hvalue : lineValue s e (segmentMove s e d) =
        (e.x - s.x) * ((e.y - s.y) * d).tdiv (segmentDist s e) -
          (e.y - s.y) * ((e.x - s.x) * d).tdiv (segmentDist s e) := by
      unfold lineValue
      rw [hpx, hpy]
      ring
    rwa [hvalue]
  have hshort := segmentDist_short hs he hL hfx hfy
  refine (segmentTest_of_fits hse hx hy (by omega)).exact.2
    ⟨(movesAlong_of_fits hL hfx hfy).inBox d hd hdL, ?_⟩
  rw [if_neg hse, ← segmentDist_eq hx hy]
  -- which the division takes to less than three
  have hquot : |lineValue s e (segmentMove s e d)| / segmentDist s e < 3 :=
    Int.ediv_lt_of_lt_mul hL hline
  unfold MAX_DIST_ERROR
  omega

/-- The way gone is up to two units too short, the way left up to two units too long. -/
theorem segmentDist_segmentMove :
    (d - 2 ≤ segmentDist s (segmentMove s e d) ∧ segmentDist s (segmentMove s e d) ≤ d) ∧
      (segmentDist s e - d ≤ segmentDist (segmentMove s e d) e ∧
        segmentDist (segmentMove s e d) e ≤ segmentDist s e - d + 2) := by
  have hp := segmentMove_nonneg hs he hL hfx hfy hd hdL
  obtain ⟨hpx, hpy⟩ := segmentMove_eq hL hfx hfy hd hdL
  obtain ⟨hlo, hhi⟩ := segmentDist_spec hs he
  -- the squares on both sides of the point
  have hgone : exactSquare s (segmentMove s e d) =
      ((e.x - s.x) * d).tdiv (segmentDist s e) * ((e.x - s.x) * d).tdiv (segmentDist s e) +
        ((e.y - s.y) * d).tdiv (segmentDist s e) * ((e.y - s.y) * d).tdiv (segmentDist s e) := by
    unfold exactSquare
    rw [hpx, hpy]
    ring
  have hleft : exactSquare (segmentMove s e d) e =
      (e.x - s.x - ((e.x - s.x) * d).tdiv (segmentDist s e)) *
          (e.x - s.x - ((e.x - s.x) * d).tdiv (segmentDist s e)) +
        (e.y - s.y - ((e.y - s.y) * d).tdiv (segmentDist s e)) *
          (e.y - s.y - ((e.y - s.y) * d).tdiv (segmentDist s e)) := by
    unfold exactSquare
    rw [hpx, hpy]
    ring
  -- each between the squares of the bounds
  constructor
  · refine segmentDist_between hs hp (fun hd2 => ?_) ?_ hd <;> rw [hgone]
    · exact Scaling.le_scaled hL hd (by omega) hlo
    · exact Scaling.scaled_lt hL hd hdL hhi
  · refine segmentDist_between hp he (fun _ => ?_) ?_ (by omega) <;> rw [hleft]
    · exact Scaling.le_rest hL hd hdL hlo
    · rw [add_assoc _ 2 1]
      exact Scaling.rest_lt hL hd hdL hhi

end Moves

/-- A rectangle that holds both ends of a segment holds the points of all its moves. -/
theorem coordInRect_of_inBox {s e p vectStart vectEnd : Coord2D}
    (h : segmentInRect s e vectStart vectEnd = true) (hbox : InBox s e p) :
    coordInRect p vectStart vectEnd = true := by
  simp only [segmentInRect, coordInRect, Bool.and_eq_true, decide_eq_true_eq] at h ⊢
  unfold InBox at hbox
  omega

/-- Where the products of `SegmentMove` fit, moving by `d` towards the end leads to a point that
    `OnSegment` accepts and no rectangle around the segment excludes, `d` away from the start and
    the rest away from the end, up to two units. -/
theorem segmentMove_accurate (s e : Coord2D) (hs : 0 ≤ s.x ∧ 0 ≤ s.y) (he : 0 ≤ e.x ∧ 0 ≤ e.y)
    (hse : s ≠ e) (hfx : IsInt32 ((e.x - s.x) * segmentDist s e))
    (hfy : IsInt32 ((e.y - s.y) * segmentDist s e)) (d : Int) (hd : 0 ≤ d)
    (hdL : d ≤ segmentDist s e) :
    onSegment s e (segmentMove s e d) = some true ∧
    (d - 2 ≤ segmentDist s (segmentMove s e d) ∧ segmentDist s (segmentMove s e d) ≤ d) ∧
    (segmentDist s e - d ≤ segmentDist (segmentMove s e d) e ∧
      segmentDist (segmentMove s e d) e ≤ segmentDist s e - d + 2) ∧
    ∀ vectStart vectEnd, segmentInRect s e vectStart vectEnd = true →
      coordInRect (segmentMove s e d) vectStart vectEnd = true := by
  have hL : 0 < segmentDist s e := by
    have hnonneg := segmentDist_nonneg s e
    have hne : segmentDist s e ≠ 0 := fun hzero => hse (segmentDist_eq_zero.1 hzero)
    omega
  obtain ⟨hgone, hleft⟩ := segmentDist_segmentMove hs he hL hfx hfy hd hdL
  exact ⟨onSegment_segmentMove hs he hL hfx hfy hd hdL, hgone, hleft, fun vectStart vectEnd h =>
    coordInRect_of_inBox h ((movesAlong_of_fits hL hfx hfy).inBox d hd hdL)⟩

/-- Half way along a segment of length `500`. -/
theorem segmentMove_accurate_half :
    onSegment (.set 100 100) (.set 400 500) (segmentMove (.set 100 100) (.set 400 500) 250) =
      some true :=
  (segmentMove_accurate (.set 100 100) (.set 400 500) (by decide) (by decide) (by decide)
    (by decide +kernel) (by decide +kernel) 250 (by decide) (by decide +kernel)).1

end XGame3.Graph
