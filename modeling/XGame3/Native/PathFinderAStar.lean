import XGame3.Native.PathFinderSearch

/-!
# The A* search of the path finder (`path_finder.h`)

`m_openList`, `ptTileArray` and `nDistArray` are static in `FindAStar` but rewritten
before they are read, so they are locals here.  The open list is the multimap as a list
in key order; a new entry goes behind those with the same key.
-/

namespace XGame3.PathFinder

open FixedInt

/-- `m_openList.insert`. -/
def insertOpen (key : Nat) (p : Point) : List (Nat × Point) → List (Nat × Point)
  | [] => [(key, p)]
  | e :: openList =>
    if key < e.1 then (key, p) :: e :: openList else e :: insertOpen key p openList

/-- The locals of one expansion.  `found` are the entries of `nDistArray` and `ptTileArray`
    that were set, by direction. -/
structure Expansion where
  finder : PathFinder
  nNearestDist : Nat
  blockNum : Nat
  visitedNum : Nat
  found : List (Nat × Int × Point)

/-- The body of the loop over the eight directions. -/
def expandDir (t : Params) (ptTile ptEnd : Point) (pCurrent : Nat) (step : Nat) (dir : Nat)
    (e : Expansion) : Option Expansion := do
  let ptNext ← moveNext ptTile dir
  match e.finder.getTileTag t ptNext with
  | none => some e
  | some pTag =>
    if some pTag = (e.finder.tileTags pCurrent).pParent then
      some e
    else if (e.finder.tileTags pTag).nFindID = e.finder.nFind ∧
        ¬ (e.finder.tileTags pTag).nStep > step then
      -- found before, and not by more steps
      some { e with visitedNum := e.visitedNum + 1 }
    else do
      -- a shorter way to a tile found before is recorded even when the move is blocked
      let s := if (e.finder.tileTags pTag).nFindID = e.finder.nFind then
        e.finder.modifyTag pTag fun old =>
          { old with pParent := some pCurrent }.setStep step
      else e.finder
      let bNextBlock ← s.isBevelBlock ptTile ptNext
      let block ← s.isBlock ptNext
      if block || bNextBlock then
        some { e with finder := s, blockNum := e.blockNum + 1 }
      else
        let s := s.modifyTag pTag fun old =>
          { old with nFindID := s.nFind, pParent := some pCurrent }.setStep step
        let dist := int32 (abs (int32 (ptNext.x - ptEnd.x)) + abs (int32 (ptNext.y - ptEnd.y)))
        let found := e.found ++ [(dir, dist, ptNext)]
        if t.dword.wrap dist < e.nNearestDist then
          some { e with
            finder := { s with pNearestTile := some pTag }
            nNearestDist := t.dword.wrap dist
            found := found }
        else
          some { e with finder := s, found := found }

/-- The loop over the eight directions. -/
def expand (t : Params) (ptTile ptEnd : Point) (pCurrent : Nat) (step : Nat) :
    List Nat → Expansion → Option Expansion
  | [], e => some e
  | dir :: dirs, e => do
    let e ← expandDir t ptTile ptEnd pCurrent step dir e
    expand t ptTile ptEnd pCurrent step dirs e

/-- The score of a tile, an `unsigned`. -/
def score (e : Expansion) (step : Nat) (dir : Nat) (dist : Int) : Nat :=
  SizeT.four.wrap (dist + e.blockNum + e.visitedNum + step * 2 + (dir % 2 : Nat) * 2)

/-- The loop that queues what was found. -/
def pushFound (e : Expansion) (step : Nat) (openList : List (Nat × Point)) : List (Nat × Point) :=
  e.found.foldl (fun openList f =>
    if f.2.1 ≥ 0 then insertOpen (score e step f.1 f.2.1) f.2.2 openList else openList) openList

/-- The locals of the loop of `FindAStar`. -/
structure AStar where
  finder : PathFinder
  openList : List (Nat × Point)
  nNearestDist : Nat

/-- One iteration of the loop of `FindAStar`. -/
def aStarBody (t : Params) (ptEnd : Point) (a : AStar) : Option (AStar ⊕ (Bool × PathFinder)) :=
  let s := a.finder.counted
  if s.nStepCount ≤ s.nMaxStep then
    match a.openList with
    | [] => some (.inr (false, s))
    | (_, ptTile) :: openList =>
      match s.getTileTag t ptTile with
      -- only a start outside the search area has no tag
      | none => some (.inl ⟨s, openList, a.nNearestDist⟩)
      | some pCurrent =>
        if ptTile = ptEnd then
          some (.inr (true, { s with pNearestTile := some pCurrent }))
        else do
          let step := (s.tileTags pCurrent).nStep + 1
          let e ← expand t ptTile ptEnd pCurrent step [0, 1, 2, 3, 4, 5, 6, 7]
            ⟨s, a.nNearestDist, 0, 0, []⟩
          some (.inl ⟨e.finder, pushFound e step openList, e.nNearestDist⟩)
  else
    some (.inr (false, s))

/-- `FindAStar` up to its loop. -/
def aStarStart (t : Params) (s : PathFinder) (ptStart ptEnd : Point) : AStar :=
  let s := { s with
    nFind := (s.nFind + 1) % 65536
    ptStart := ptStart
    ptEnd := ptEnd
    pNearestTile := none
    nStepCount := 0 }
  let s := match s.getTileTag t ptStart with
    | none => s
    | some pStart => s.modifyTag pStart fun old =>
      { old with pParent := none, nFindID := s.nFind }.setStep 0
  ⟨s, [(0, ptStart)], 10000000⟩

/-- `FindAStar`. -/
def findAStar (t : Params) (s : PathFinder) (ptStart ptEnd : Point) : Option (Bool × PathFinder) :=
  let a := aStarStart t s ptStart ptEnd
  loopResult (Loop.run (aStarBody t ptEnd) a.finder.stepsLeft a)

end XGame3.PathFinder
