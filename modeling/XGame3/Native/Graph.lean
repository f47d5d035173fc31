import XGame3.ForStd.FixedInt

/-!
# Points and segments of the map (`coord.h`, `graph.cpp`)

Coordinates and results are `int`s; the sums, differences and products of `int`s wrap.  `(int)sqrt`
of a sum of squares of `double`s is taken as the integer square root of that sum.
A division by zero is a fault, `none`.
-/

namespace XGame3

open FixedInt

/-- `Coord2D`, a `Vector2D<int>`. -/
@[ext]
structure Coord2D where
  x : Int
  y : Int
  x_isInt32 : IsInt32 x
  y_isInt32 : IsInt32 y
  deriving DecidableEq

namespace Coord2D

/-- `Vector2D(_x, _y)`. -/
def set (x y : Int) : Coord2D :=
  ⟨int32 x, int32 y, isInt32_int32 x, isInt32_int32 y⟩

/-- `squaredis`, of two `Vector2D<int>`s. -/
def squaredis (this p : Coord2D) : Int :=
  int32 (int32 (int32 (p.x - this.x) * int32 (p.x - this.x)) +
    int32 (int32 (p.y - this.y) * int32 (p.y - this.y)))

end Coord2D

namespace Graph

/-- `MAX_DIST_ERROR`. -/
def MAX_DIST_ERROR : Int := 5

/-- `(int)sqrt(x)`. -/
def sqrt (x : Int) : Int := (Nat.sqrt x.toNat : Nat)

/-- `abs` of an `int`; the least `int` is its own. -/
def abs (x : Int) : Int := int32 x.natAbs

/-- `SegmentDist`.  Only the differences are `int`s. -/
def segmentDist (startCoord endCoord : Coord2D) : Int :=
  sqrt (int32 (endCoord.x - startCoord.x) * int32 (endCoord.x - startCoord.x) +
    int32 (endCoord.y - startCoord.y) * int32 (endCoord.y - startCoord.y))

/-- `SegmentDistSquare`. -/
def segmentDistSquare (startCoord endCoord : Coord2D) : Int :=
  int32 (int32 (int32 (endCoord.x - startCoord.x) * int32 (endCoord.x - startCoord.x)) +
    int32 (int32 (endCoord.y - startCoord.y) * int32 (endCoord.y - startCoord.y)))

/-- `CoordNearEqual`. -/
def coordNearEqual (startCoord endCoord : Coord2D) : Bool :=
  decide (int32 (int32 (int32 (endCoord.x - startCoord.x) * int32 (endCoord.x - startCoord.x)) +
      int32 (int32 (endCoord.y - startCoord.y) * int32 (endCoord.y - startCoord.y))) ≤
    MAX_DIST_ERROR * MAX_DIST_ERROR)

/-- `OnSegment`. -/
def onSegment (startCoord endCoord judgeCoord : Coord2D) : Option Bool :=
  if judgeCoord.x < min startCoord.x endCoord.x ∨ max startCoord.x endCoord.x < judgeCoord.x ∨
      judgeCoord.y < min startCoord.y endCoord.y ∨ max startCoord.y endCoord.y < judgeCoord.y then
    some false
  else
    -- the line is ax + by + c = 0
    let a := int32 (startCoord.y - endCoord.y)
    let b := int32 (endCoord.x - startCoord.x)
    let c := int32 (int32 (startCoord.x * endCoord.y) - int32 (endCoord.x * startCoord.y))
    if sqrt (a * a + b * b) = 0 then none
    else
      let dist := (abs (int32 (int32 (int32 (a * judgeCoord.x) + int32 (b * judgeCoord.y)) +
        c))).tdiv (sqrt (a * a + b * b))
      some (decide (dist ≤ MAX_DIST_ERROR))

/-- One coordinate of `SegmentMove`. -/
def moveCoord (startCoord endCoord deltaDist segmDist : Int) : Int :=
  int32 ((int32 (int32 (endCoord - startCoord) * deltaDist)).tdiv segmDist + startCoord)

/-- `SegmentMove`. -/
def segmentMove (startCoord endCoord : Coord2D) (deltaDist : Int) : Coord2D :=
  let segmDist := segmentDist startCoord endCoord
  if 0 = segmDist then startCoord
  else
    .set (moveCoord startCoord.x endCoord.x deltaDist segmDist)
      (moveCoord startCoord.y endCoord.y deltaDist segmDist)

/-- `CoordInRect`. -/
def coordInRect (coord vectStart vectEnd : Coord2D) : Bool :=
  coord.x ≥ vectStart.x && coord.y ≥ vectStart.y && coord.x < vectEnd.x && coord.y < vectEnd.y

/-- `SegmentInRect`. -/
def segmentInRect (segmentStart segmentEnd vectStart vectEnd : Coord2D) : Bool :=
  coordInRect segmentStart vectStart vectEnd && coordInRect segmentEnd vectStart vectEnd

end Graph

end XGame3
