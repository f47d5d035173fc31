import XGame3.ForStd.Loop
import XGame3.Native.PathFinderTiles

/-!
# The wall-following search of the path finder (`path_finder.h`)

`approach` walks straight towards the target, `around` follows an obstacle, and
`findPathCore` alternates between them, taking the places to go around from a stack.
Every `while` loop is a body for `Loop.run`: one iteration goes on with a new state or
leaves the function with its result.  The loops that count `m_nStepCount` leave after
at most `m_nMaxStep` further iterations, which is how many they are given;
`m_nStepCount` itself is not wrapped.
-/

namespace XGame3.PathFinder

open FixedInt

/-- `++m_nStepCount`. -/
def counted (s : PathFinder) : PathFinder := { s with nStepCount := s.nStepCount + 1 }

/-- The iterations a loop `while (++m_nStepCount <= m_nMaxStep)` can make. -/
def stepsLeft (s : PathFinder) : Nat := (s.nMaxStep - s.nStepCount).toNat + 1

/-- The result of a loop that has left. -/
def loopResult {σ ρ : Type} : Option (σ ⊕ ρ) → Option ρ
  | some (.inr r) => some r
  | _ => none

/-! ## Approach -/

/-- The first use of a tile in a search makes it a root. -/
def makeRoot (s : PathFinder) (tag : Nat) : PathFinder :=
  if (s.tileTags tag).nFindID ≠ s.nFind then
    s.modifyTag tag fun old => { old with pParent := none, nMoveDir := 0, nFindID := s.nFind }
  else
    s

/-- The locals of the walking loops. -/
structure Walk where
  finder : PathFinder
  ptTile : Point
  pParent : Option Nat

/-- `ptTile = ptNext; m_pNearestTile = pCurrent; pCurrent->bAround = bAround;` after the tile
    was marked. -/
def stepOnto (s : PathFinder) (pCurrent : Nat) (nDir : Int) (pParent : Option Nat) (bAround : Nat) :
    PathFinder :=
  let s := s.markTileVisited pCurrent nDir pParent
  { s.modifyTag pCurrent fun old => { old with bAround := bAround } with
    pNearestTile := some pCurrent }

/-- The two ways around the tile in front. -/
def pushAround (s : PathFinder) (ptTile : Point) (nCurDir : Int) : PathFinder :=
  { s with
    aroundQueue := ⟨ptTile, turnDir nCurDir .ccw, .cw⟩ :: ⟨ptTile, turnDir nCurDir .cw, .ccw⟩ ::
      s.aroundQueue }

/-- One iteration of the loop of `Approach`. -/
def approachBody (t : Params) (ptEnd : Point) (w : Walk) : Option (Walk ⊕ (Bool × PathFinder)) :=
  let s := w.finder.counted
  if s.nStepCount ≤ s.nMaxStep then do
    let nCurDir := getDir w.ptTile ptEnd
    let ptNext ← moveNext w.ptTile nCurDir
    match s.getTileTag t ptNext with
    -- outside the search area
    | none => some (.inr (false, s))
    | some pCurrent =>
      if s.isTileVisited pCurrent nCurDir then
        some (.inr (false, s))
      else do
        let isBevel ← s.isBevelBlock w.ptTile ptNext
        let block ← s.isBlock ptNext
        if block || isBevel then
          -- a blocked target counts as reached, but its tag is not touched
          if ptNext = ptEnd then some (.inr (true, s))
          else some (.inr (false, s.pushAround w.ptTile nCurDir))
        else
          let s := s.stepOnto pCurrent nCurDir w.pParent 0
          if ptNext = ptEnd then some (.inr (true, s))
          else some (.inl ⟨s, ptNext, some pCurrent⟩)
  else
    some (.inr (false, s))

/-- `Approach`. -/
def approach (t : Params) (s : PathFinder) (ptStart ptEnd : Point) : Option (Bool × PathFinder) :=
  if ptStart = ptEnd then
    some (true, s)
  else
    match s.getTileTag t ptStart with
    | none => some (false, s)
    | some pParent =>
      let s := s.makeRoot pParent
      loopResult (Loop.run (approachBody t ptEnd) s.stepsLeft ⟨s, ptStart, some pParent⟩)

/-! ## Around -/

/-- The locals of the loop of `Around`. -/
structure Detour extends Walk where
  nMoveDir : Int
  nContinueTurn : Nat

/-- One iteration of the loop of `Around`. -/
def aroundBody (t : Params) (ptLoc : Point) (nTurnDir : Turn) (ptEnd : Point) (d : Detour) :
    Option (Detour ⊕ (Bool × PathFinder)) :=
  let s := d.finder.counted
  if s.nStepCount ≤ s.nMaxStep then do
    let ptNext ← moveNext d.ptTile d.nMoveDir
    match s.getTileTag t ptNext with
    | none => some (.inr (false, s))
    | some pCurrent =>
      if s.isTileVisited pCurrent d.nMoveDir then
        some (.inr (false, s))
      else do
        let block ← s.isBlock ptNext
        let isBevel ← s.isBevelBlock d.ptTile ptNext
        if block || isBevel then
          -- turn away from the obstacle; the tile in front is marked with a null parent
          let nMoveDir := turnDir d.nMoveDir nTurnDir.other
          let s := s.markTileVisited pCurrent nMoveDir none
          if d.nContinueTurn + 1 > 2 then some (.inr (false, s))
          else some (.inl ⟨⟨s, d.ptTile, d.pParent⟩, nMoveDir, d.nContinueTurn + 1⟩)
        else do
          let s := s.stepOnto pCurrent d.nMoveDir d.pParent 1
          let bReturn ← (if hasOption s.nSearchOption optionStraightway then
            isOnStraightWay 2 ptNext ptLoc ptEnd else s.isCanApproach t ptNext ptEnd)
          if bReturn then
            some (.inr (true, s))
          else do
            -- follow the obstacle round its corner
            let ptAround ← moveNext ptNext (turnDir d.nMoveDir nTurnDir)
            let isBevel ← s.isBevelBlock ptAround ptNext
            let block ← s.isBlock ptAround
            if !block && !isBevel then
              some (.inl ⟨⟨s, ptNext, some pCurrent⟩, turnDir d.nMoveDir nTurnDir, 0⟩)
            else
              some (.inl ⟨⟨s, ptNext, some pCurrent⟩, d.nMoveDir, 0⟩)
  else
    some (.inr (false, s))

/-- `Around`. -/
def around (t : Params) (s : PathFinder) (a : AroundPoint) (ptEnd : Point) :
    Option (Bool × PathFinder) :=
  loopResult (Loop.run (aroundBody t a.ptTile a.nTurnDir ptEnd) s.stepsLeft
    ⟨⟨s, a.ptTile, s.getTileTag t a.ptTile⟩, a.nMoveDir, 0⟩)

/-! ## Corners -/

/-- `INVALID_CORNER_FLAG`. -/
def invalidCornerFlag : Nat := 0xFFFFFFFF

/-- The test and the record of one corner; `ahead` compares the tile with the corner. -/
def recordCornerAt (t : Params) (ptTile : Point) (corner : Nat) (ahead : Point → Point → Bool)
    (s : PathFinder) : PathFinder :=
  if ahead ptTile (s.corners corner) ∨ s.nCornerFlag corner = invalidCornerFlag then
    { s with
      corners := Function.update s.corners corner ptTile
      nCornerFlag := Function.update s.nCornerFlag corner (t.dword.wrap s.nStepCount) }
  else
    s

/-- `RecordCorner`: left top, left bottom, right top, right bottom. -/
def recordCorner (t : Params) (s : PathFinder) (ptTile : Point) : PathFinder :=
  let s := s.recordCornerAt t ptTile 0 fun p c => p.x ≤ c.x && p.y ≤ c.y
  let s := s.recordCornerAt t ptTile 1 fun p c => p.x ≤ c.x && p.y ≥ c.y
  let s := s.recordCornerAt t ptTile 2 fun p c => p.x ≥ c.x && p.y ≤ c.y
  s.recordCornerAt t ptTile 3 fun p c => p.x ≥ c.x && p.y ≥ c.y

/-! ## The core -/

/-- How the inner loop of `FindPathCore` ends: with a tile to approach from, or with every
    detour failed. -/
def drainAround (t : Params) (ptEnd : Point) :
    List AroundPoint → PathFinder → Option (Option Point × PathFinder)
  | [], s => some (none, s)
  | a :: queue, s => do
    let r ← around t { s with aroundQueue := queue } a ptEnd
    if r.1 then do
      -- `assert(m_pNearestTile)`
      let tag ← r.2.pNearestTile
      let ptTile := r.2.tileToPoint t tag
      some (some ptTile,
        if hasOption r.2.nSearchOption optionOptimize then r.2.recordCorner t ptTile else r.2)
    else
      drainAround t ptEnd queue r.2

/-- One iteration of the outer loop of `FindPathCore`. -/
def coreBody (t : Params) (ptEnd : Point) (c : Point × PathFinder) :
    Option ((Point × PathFinder) ⊕ (Bool × PathFinder)) := do
  let r ← approach t c.2 c.1 ptEnd
  if r.1 then
    some (.inr (true, r.2))
  else do
    let d ← drainAround t ptEnd r.2.aroundQueue r.2
    match d.1 with
    | some ptTile => some (.inl (ptTile, d.2))
    | none => some (.inr (false, d.2))

/-- `FindPathCore` up to its loop. -/
def coreStart (t : Params) (s : PathFinder) (ptStart ptEnd : Point) : PathFinder :=
  let s := { s with
    nFind := (s.nFind + 1) % 65536
    ptStart := ptStart
    ptEnd := ptEnd
    pNearestTile := none
    nStepCount := 0
    aroundQueue := [] }
  if hasOption s.nSearchOption optionOptimize then
    { s with corners := fun _ => ⟨0, 0⟩, nCornerFlag := fun _ => t.dword.modulus - 1 }
  else
    s

/-- `FindPathCore`.  An iteration of its loop that goes on has counted a step of `Around`. -/
def findPathCore (t : Params) (s : PathFinder) (ptStart ptEnd : Point) :
    Option (Bool × PathFinder) :=
  let s := s.coreStart t ptStart ptEnd
  loopResult (Loop.run (coreBody t ptEnd) s.stepsLeft (ptStart, s))

/-! ## Connecting the corners -/

/-- One iteration of the loop of `ConnectDirect`. -/
def connectBody (t : Params) (ptEnd : Point) (w : Walk) : Option (Walk ⊕ (Bool × PathFinder)) :=
  let s := w.finder.counted
  if s.nStepCount ≤ s.nMaxStep then do
    let nCurDir := getDir w.ptTile ptEnd
    let ptNext ← moveNext w.ptTile nCurDir
    match s.getTileTag t ptNext with
    | none => some (.inr (false, s))
    | some pCurrent => do
      -- a tile of this search is linked before it is known to be free
      let s := if (s.tileTags pCurrent).nFindID = s.nFind then
        s.modifyTag pCurrent fun old => { old with pParent := w.pParent } else s
      let bNextBlock ← s.isBevelBlock w.ptTile ptNext
      let block ← s.isBlock ptNext
      if block || bNextBlock then
        some (.inr (false, s))
      else
        let s := s.markTileVisited pCurrent nCurDir w.pParent
        let s := s.modifyTag pCurrent fun old => { old with bAround := 0 }
        if ptNext = ptEnd then some (.inr (true, s))
        else some (.inl ⟨s, ptNext, some pCurrent⟩)
  else
    some (.inr (false, s))

/-- `ConnectDirect`. -/
def connectDirect (t : Params) (s : PathFinder) (ptStart ptEnd : Point) :
    Option (Bool × PathFinder) :=
  if ptStart = ptEnd then
    some (true, s)
  else
    match s.getTileTag t ptStart with
    | none => some (false, s)
    | some pParent =>
      let s := s.makeRoot pParent
      loopResult (Loop.run (connectBody t ptEnd) s.stepsLeft ⟨s, ptStart, some pParent⟩)

/-- The corner with the least flag above `dwVisited`. -/
def nextCorner (s : PathFinder) (dwVisited : Nat) : Option Nat × Nat :=
  (List.range 4).foldl (fun best i =>
    if s.nCornerFlag i < best.2 ∧ s.nCornerFlag i > dwVisited then (some i, s.nCornerFlag i)
    else best) (none, invalidCornerFlag)

/-- The loop of `ConnectCorners`; every iteration but the last takes another corner. -/
def connectFrom (t : Params) : Nat → PathFinder → Point → Nat → Option PathFinder
  | 0, _, _, _ => none
  | left + 1, s, ptConnect, dwVisited =>
    match s.nextCorner dwVisited with
    | (none, _) => some s
    | (some index, dwMinCorner) => do
      -- the result of `ConnectDirect` is not looked at
      let r ← s.connectDirect t ptConnect (s.corners index)
      connectFrom t left r.2 (s.corners index) dwMinCorner

/-- `ConnectCorners`. -/
def connectCorners (t : Params) (s : PathFinder) (ptStart : Point) : Option PathFinder :=
  connectFrom t 5 s ptStart 0

end XGame3.PathFinder
