import Mathlib.Logic.Function.Basic
import XGame3.ForStd.FixedInt

/-!
# Points, directions and tile tags of the path finder (`path_finder.h`)

The members of `PathFinder` are the fields of one record, under their names without
the `m_`.  A `TILE_TAG *` is an index into `tileTags`, the null pointer is `none`.
Coordinates are `int`s and wrap.  `blockFunc` is the object behind `m_BlockFunc`: what
it answers for a point, with `none` for a call it does not allow, so that a pure
predicate `f` is `some ∘ f`.  A failed `assert` is a fault, `none`, as well.
-/

namespace XGame3

open FixedInt

/-- `POINT`. -/
@[ext]
structure Point where
  x : Int
  y : Int
  deriving DecidableEq, Repr

/-- `POINT::operator*`. -/
def Point.mul (p : Point) (v : Int) : Point := ⟨int32 (p.x * v), int32 (p.y * v)⟩

/-- The template arguments of `PathFinder`, and the size of an `unsigned long`.  The arguments
    are `int`s, and so is the number of tags, `MAX_SEARCH_AREA*MAX_SEARCH_AREA`. -/
structure Params where
  maxPathLen : Nat
  maxSearchArea : Nat
  dword : SizeT
  pathLen_lt : maxPathLen < 2147483648
  area_lt : maxSearchArea * maxSearchArea < 2147483648

/-- The default template arguments. -/
def defaultParams (dword : SizeT) : Params where
  maxPathLen := 1024
  maxSearchArea := 512
  dword := dword
  pathLen_lt := by decide
  area_lt := by decide

/-- `TILE_TAG`.  The two bytes of the union are `nMoveDir` and `bAround`. -/
structure TileTag where
  pParent : Option Nat
  nFindID : Nat
  nMoveDir : Nat
  bAround : Nat
  deriving DecidableEq, Repr

namespace TileTag

/-- The union read as a 16-bit number, low byte first. -/
def nStep (tag : TileTag) : Nat := tag.nMoveDir + 256 * tag.bAround

/-- The union written as a 16-bit number. -/
def setStep (tag : TileTag) (step : Nat) : TileTag :=
  { tag with nMoveDir := step % 256, bAround := step / 256 % 256 }

end TileTag

/-- `TURN_CW` and `TURN_CCW`. -/
inductive Turn where
  | cw
  | ccw
  deriving DecidableEq, Repr

/-- `!nTurnDir`. -/
def Turn.other : Turn → Turn
  | cw => ccw
  | ccw => cw

/-- `AROUND_POINT`. -/
structure AroundPoint where
  ptTile : Point
  nMoveDir : Int
  nTurnDir : Turn
  deriving DecidableEq, Repr

/-- The members of `PathFinder`; the back of `m_AroundQueue` is the head of the list. -/
structure PathFinder where
  tileTags : Nat → TileTag
  pathTemp : Nat → Nat → Point
  ptStart : Point
  ptEnd : Point
  pNearestTile : Option Nat
  nMapWidth : Nat
  nMapHeight : Nat
  blockFunc : Point → Option Bool
  nFind : Nat
  nSearchOption : Nat
  nMaxStep : Int
  nStepCount : Int
  aroundQueue : List AroundPoint
  corners : Nat → Point
  nCornerFlag : Nat → Nat

namespace PathFinder

/-- The constructor.  What it leaves uninitialised is zero here; no search reads it before
    it is written. -/
def new (t : Params) : PathFinder where
  tileTags := fun _ => ⟨none, 0, 0, 0⟩
  pathTemp := fun _ _ => ⟨0, 0⟩
  ptStart := ⟨0, 0⟩
  ptEnd := ⟨0, 0⟩
  pNearestTile := none
  nMapWidth := 0
  nMapHeight := 0
  blockFunc := fun _ => none
  nFind := 0
  nSearchOption := 0
  nMaxStep := t.maxPathLen
  nStepCount := 0
  aroundQueue := []
  corners := fun _ => ⟨0, 0⟩
  nCornerFlag := fun _ => 0

/-- `SetMapInfo`. -/
def setMapInfo (s : PathFinder) (nMapWidth nMapHeight : Nat) (blockFunc : Point → Option Bool) :
    PathFinder :=
  { s with nMapWidth := nMapWidth, nMapHeight := nMapHeight, blockFunc := blockFunc }

/-! ## Search options -/

def optionOptimize : Nat := 0x01
def optionNearest : Nat := 0x02
def optionStraightway : Nat := 0x04
def optionAStar : Nat := 0x08
def optionOnlyAStar : Nat := 0x10

/-- `option & flag` as a condition. -/
def hasOption (option flag : Nat) : Bool := option &&& flag != 0

/-! ## Directions -/

/-- `s_DirNextTable`. -/
def dirNextTable : List (Int × Int) :=
  [(1, 0), (1, -1), (0, -1), (-1, -1), (-1, 0), (-1, 1), (0, 1), (1, 1)]

/-- `MoveNext`, with its assertion on the direction. -/
def moveNext (ptTile : Point) (dir : Int) : Option Point :=
  if 0 ≤ dir then
    (dirNextTable[dir.toNat]?).map fun d => ⟨int32 (ptTile.x + d.1), int32 (ptTile.y + d.2)⟩
  else
    none

/-- One coordinate of `GetDir`. -/
def dirIndex (cur next : Int) : Nat := if next > cur then 2 else if next = cur then 1 else 0

/-- `s_DirTable`, by row `y` and column `x`. -/
def dirTable : Nat → Nat → Int
  | 0, 0 => 3
  | 0, 1 => 2
  | 0, _ => 1
  | 1, 0 => 4
  | 1, 1 => -1
  | 1, _ => 0
  | _, 0 => 5
  | _, 1 => 6
  | _, _ => 7

/-- `GetDir`. -/
def getDir (ptCur ptNext : Point) : Int :=
  dirTable (dirIndex ptCur.y ptNext.y) (dirIndex ptCur.x ptNext.x)

/-- `TurnDir`: an odd direction is diagonal. -/
def turnDir (nMoveDir : Int) (nTurnDir : Turn) : Int :=
  let turnAngle := if nMoveDir % 2 = 1 then 1 else 2
  match nTurnDir with
  | .cw => if nMoveDir - turnAngle ≥ 0 then nMoveDir - turnAngle else nMoveDir - turnAngle + 8
  | .ccw => if nMoveDir + turnAngle ≥ 8 then nMoveDir + turnAngle - 8 else nMoveDir + turnAngle

/-- `ABS` of an `int`. -/
def abs (x : Int) : Int := if x < 0 then int32 (-x) else x

/-- `IsOnStraightWay`; the first argument bounds the depth of the recursion. -/
def isOnStraightWay : Nat → Point → Point → Point → Option Bool
  | 0, _, _, _ => none
  | depth + 1, ptTile, ptStart, ptEnd =>
    let dx := int32 (ptEnd.x - ptStart.x)
    let dy := int32 (ptEnd.y - ptStart.y)
    if dx = 0 then
      some (ptEnd.x == ptTile.x && (decide (ptTile.y > ptStart.y) == decide (ptEnd.y > ptStart.y)))
    else if dy = 0 then
      some (ptEnd.y == ptTile.y && (decide (ptTile.x > ptStart.x) == decide (ptEnd.x > ptStart.x)))
    else if abs dx = abs dy then
      if abs (int32 (ptTile.x - ptStart.x)) ≠ abs (int32 (ptTile.y - ptStart.y)) then
        some false
      else
        some ((decide (ptEnd.x > ptStart.x) == decide (ptTile.x > ptStart.x)) &&
          (decide (ptEnd.y > ptStart.y) == decide (ptTile.y > ptStart.y)))
    else
      -- neither straight nor diagonal: two legs through the middle point
      let ptMiddle : Point :=
        if abs dx < abs dy then
          ⟨ptEnd.x, int32 (ptStart.y + (if dy > 0 then abs dx else int32 (-abs dx)))⟩
        else
          ⟨int32 (ptStart.x + (if dx > 0 then abs dy else int32 (-abs dy))), ptEnd.y⟩
      if ptMiddle = ptTile then
        some true
      else
        match isOnStraightWay depth ptTile ptStart ptMiddle with
        | some false => isOnStraightWay depth ptTile ptMiddle ptEnd
        | r => r

/-! ## The map -/

/-- `WAY_UNIT`. -/
def wayUnit : Int := 100

/-- `m_BlockFunc->IsBlock(ptTile * WAY_UNIT)`. -/
def isBlock (s : PathFinder) (ptTile : Point) : Option Bool := s.blockFunc (ptTile.mul wayUnit)

/-- `IsBevelBlock`. -/
def isBevelBlock (s : PathFinder) (ptTile ptNext : Point) : Option Bool :=
  if int32 (ptTile.x - ptNext.x) = 0 ∨ 0 = int32 (ptTile.y - ptNext.y) then
    some false
  else
    match s.isBlock ⟨ptNext.x, ptTile.y⟩ with
    | some false => s.isBlock ⟨ptTile.x, ptNext.y⟩
    | r => r

/-! ## Tags -/

/-- `GetTileTag`. -/
def getTileTag (t : Params) (s : PathFinder) (ptTile : Point) : Option Nat :=
  if ptTile.x < 0 ∨ ptTile.x ≥ s.nMapWidth then none
  else if ptTile.y < 0 ∨ ptTile.y ≥ s.nMapHeight then none
  else
    -- the window of tags lies around the start
    let x := int32 (int32 (ptTile.x - s.ptStart.x) + (t.maxSearchArea / 2 : Nat))
    let y := int32 (int32 (ptTile.y - s.ptStart.y) + (t.maxSearchArea / 2 : Nat))
    if x < 0 ∨ y < 0 ∨ x ≥ t.maxSearchArea ∨ y ≥ t.maxSearchArea then none
    else some (y.toNat * t.maxSearchArea + x.toNat)

/-- `TileToPoint`. -/
def tileToPoint (t : Params) (s : PathFinder) (tag : Nat) : Point :=
  ⟨int32 (int32 (s.ptStart.x - (t.maxSearchArea / 2 : Nat)) + (tag % t.maxSearchArea : Nat)),
    int32 (int32 (s.ptStart.y - (t.maxSearchArea / 2 : Nat)) + (tag / t.maxSearchArea : Nat))⟩

/-- Assign to the tag behind a pointer. -/
def modifyTag (s : PathFinder) (tag : Nat) (f : TileTag → TileTag) : PathFinder :=
  { s with tileTags := Function.update s.tileTags tag (f (s.tileTags tag)) }

/-- `IsTileVisited`. -/
def isTileVisited (s : PathFinder) (tag : Nat) (nDir : Int) : Bool :=
  (s.tileTags tag).nFindID == s.nFind && (s.tileTags tag).nMoveDir &&& (1 <<< nDir.toNat) != 0

/-- `MarkTileVisited`. -/
def markTileVisited (s : PathFinder) (tag : Nat) (nDir : Int) (pParent : Option Nat) :
    PathFinder :=
  s.modifyTag tag fun old =>
    if old.nFindID ≠ s.nFind then
      { old with pParent := pParent, nMoveDir := 1 <<< nDir.toNat, nFindID := s.nFind }
    else
      { old with nMoveDir := old.nMoveDir ||| (1 <<< nDir.toNat) }

/-- `IsCanApproach`. -/
def isCanApproach (t : Params) (s : PathFinder) (ptTile ptEnd : Point) : Option Bool := do
  let ptNext ← moveNext ptTile (getDir ptTile ptEnd)
  let bNextBlock ← s.isBevelBlock ptTile ptNext
  let block ← s.isBlock ptNext
  if block || bNextBlock then
    some false
  else
    match s.getTileTag t ptNext with
    | none => some false
    -- a tile of this search is no way back to the straight line
    | some tag => some ((s.tileTags tag).nFindID != s.nFind)

end PathFinder

end XGame3
