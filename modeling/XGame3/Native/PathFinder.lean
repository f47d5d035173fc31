import XGame3.Native.PathFinderAStar

/-!
# Building and finding paths (`path_finder.h`)

`buildPath` follows the parent pointers into one of the four buffers, `findPath` runs the
searches its options ask for and returns the shortest path they found.  The four
search-and-build blocks of `FindPath` are `forwardStage` and `reverseStage`.
-/

namespace XGame3.PathFinder

open FixedInt

/-! ## BuildPath -/

/-- The distance test of the shortcut. -/
def isNear (ptPreTile ptTile : Point) : Bool :=
  abs (int32 (ptPreTile.x - ptTile.x)) ≤ 1 && abs (int32 (ptPreTile.y - ptTile.y)) ≤ 1

/-- The buffer index of the `nPathLen`-th point from the end of the path. -/
def pathIndex (nBufSize : Nat) (nReverse : Bool) (nPathLen : Nat) : Nat :=
  if nReverse then nBufSize - 1 - nPathLen else nPathLen

/-- The loop of `BuildPath` with `left` turns to its closed-loop barrier: the length, the
    buffer and where `m_pNearestTile` was left. -/
def buildLoop (t : Params) (s : PathFinder) (nBufSize : Nat) (nReverse optmize : Bool) :
    Nat → Option Nat → Nat → (Nat → Point) → Nat × (Nat → Point) × Option Nat
  | 0, pNearestTile, nPathLen, buf => (nPathLen, buf, pNearestTile)
  | left + 1, pNearestTile, nPathLen, buf =>
    match pNearestTile with
    | none => (nPathLen, buf, none)
    | some tag =>
      if nPathLen < nBufSize then
        let ptTile := s.tileToPoint t tag
        -- the shortcut: a tile beside the last point but one takes the place of the last
        let nPathLen :=
          if optmize ∧ (s.tileTags tag).bAround ≠ 0 ∧ nPathLen ≥ 2 ∧
              isNear (buf (pathIndex nBufSize nReverse (nPathLen - 2))) ptTile then nPathLen - 1
          else nPathLen
        let buf := Function.update buf (pathIndex nBufSize nReverse nPathLen) ptTile
        -- the closed-loop barrier; a path that fills the buffer reaches it too
        if left = 0 then (0, buf, (s.tileTags tag).pParent)
        else
          buildLoop t s nBufSize nReverse optmize left (s.tileTags tag).pParent (nPathLen + 1) buf
      else
        (nPathLen, buf, some tag)

/-- `BuildPath` into `m_PathTemp[k]`. -/
def buildPath (t : Params) (s : PathFinder) (k : Nat) (nReverse optmize : Bool) :
    Nat × PathFinder :=
  let r := buildLoop t s t.maxPathLen nReverse optmize t.maxPathLen s.pNearestTile 0 (s.pathTemp k)
  (r.1, { s with pathTemp := Function.update s.pathTemp k r.2.1, pNearestTile := r.2.2 })

/-- `BuildPath` into any buffer: the length, the buffer and where `m_pNearestTile` is left. -/
def buildInto (t : Params) (s : PathFinder) (pPathBuffer : Nat → Point) (nBufSize : Nat)
    (nReverse optmize : Bool) : Nat × (Nat → Point) × Option Nat :=
  buildLoop t s nBufSize nReverse optmize nBufSize s.pNearestTile 0 pPathBuffer

/-! ## FindPath -/

/-- `nPathLen` points from `pPath = &m_PathTemp[k][offset]` on. -/
def pathPoints (s : PathFinder) (k offset nPathLen : Nat) : List Point :=
  (List.range nPathLen).map fun i => s.pathTemp k (offset + i)

/-- The first point of a path in `m_PathTemp[k]`. -/
def pathOffset (t : Params) (nReverse : Bool) (nPathLen : Nat) : Nat :=
  if nReverse then t.maxPathLen - nPathLen else 0

/-- What `FindPath` returns: its result, `pPath` with `nPathLen`, and the members. -/
structure Found where
  ret : Bool
  path : List Point
  finder : PathFinder

/-- The blocks that return at once: `BuildPath` into the first buffer, reversed. -/
def builtPath (t : Params) (s : PathFinder) (optmize : Bool) : Found :=
  let p := s.buildPath t 0 true optmize
  { ret := 0 < p.1
    path := p.2.pathPoints 0 (pathOffset t true p.1) p.1
    finder := p.2 }

/-- The A* blocks. -/
def aStarPath (t : Params) (s : PathFinder) (ptStart ptEnd : Point) : Option Found := do
  let r ← findAStar t s ptStart ptEnd
  some (builtPath t r.2 false)

/-- A path found so far: `nShortest` with its length, and where it starts. -/
structure Shortest where
  nShortest : Nat
  nPathLen : Nat
  offset : Nat

/-- The locals of `FindPath` between its searches. -/
structure Search where
  finder : PathFinder
  best : Option Shortest
  bFindMore : Bool

/-- The arguments of `FindPath`. -/
structure Query where
  ptStart : Point
  ptEnd : Point
  nOption : Nat
  nMaxStep : Int

/-- `nPathLenLimit`. -/
def Query.nPathLenLimit (q : Query) : Int :=
  let dx := abs (int32 (q.ptEnd.x - q.ptStart.x))
  let dy := abs (int32 (q.ptEnd.y - q.ptStart.y))
  int32 (min dx dy + abs (int32 (dx - dy)) + 5)

/-- A search that succeeded is built into buffer `k` and kept if it is the shortest. -/
def keepPath (t : Params) (q : Query) (k : Nat) (nReverse : Bool) (best : Option Shortest)
    (s : PathFinder) : Search :=
  let p := s.buildPath t k nReverse true
  if 0 < p.1 ∧ (∀ b ∈ best, p.1 < b.nPathLen) then
    { finder := { p.2 with nMaxStep := q.nMaxStep }
      best := some ⟨k, p.1, pathOffset t nReverse p.1⟩
      bFindMore := (p.1 : Int) > q.nPathLenLimit && hasOption q.nOption optionOptimize }
  else
    { finder := p.2, best := best, bFindMore := true }

/-- The corners are connected when the search was long. -/
def optimizeCorners (t : Params) (q : Query) (s : PathFinder) (ptStart : Point) :
    Option PathFinder :=
  if s.nStepCount > q.nPathLenLimit ∧ hasOption q.nOption optionOptimize then
    s.connectCorners t ptStart
  else
    some s

/-- A search from `ptStart` to the point where its path is built. -/
def forwardSearch (t : Params) (q : Query) (s : PathFinder) : Option (Bool × PathFinder) := do
  let r ← findPathCore t s q.ptStart q.ptEnd
  if r.1 then do
    let s ← optimizeCorners t q r.2 q.ptStart
    some (true, s)
  else
    some (false, r.2)

/-- The start is put in front of a reversed search that ended beside it. -/
def linkStart (t : Params) (s : PathFinder) (ptStart : Point) : Option PathFinder :=
  match s.pNearestTile with
  | none => some s
  | some nearest =>
    if some nearest = s.getTileTag t ptStart then some s
    else do
      let pTag ← s.getTileTag t ptStart
      some { s.modifyTag pTag fun old => { old with pParent := some nearest } with
        pNearestTile := some pTag }

/-- A search from `ptEnd` to the point where its path is built. -/
def reverseSearch (t : Params) (q : Query) (s : PathFinder) : Option (Bool × PathFinder) := do
  let r ← findPathCore t s q.ptEnd q.ptStart
  if r.1 then do
    let s ← linkStart t r.2 q.ptStart
    -- the corners of a reversed search are connected from the target
    let s ← optimizeCorners t q s q.ptEnd
    some (true, s)
  else
    some (false, r.2)

/-- One of the four blocks that search and build: the path goes to buffer `k`. -/
def searchStage (t : Params) (q : Query) (k : Nat) (nReverse : Bool)
    (search : PathFinder → Option (Bool × PathFinder)) (b : Search) : Option Search :=
  if b.bFindMore then do
    let r ← search b.finder
    if r.1 then some (keepPath t q k nReverse b.best r.2)
    else some { b with finder := r.2 }
  else
    some b

/-- The blocks that search from `ptStart`. -/
def forwardStage (t : Params) (q : Query) (k : Nat) (b : Search) : Option Search :=
  searchStage t q k true (forwardSearch t q) b

/-- The blocks that search from `ptEnd`. -/
def reverseStage (t : Params) (q : Query) (k : Nat) (b : Search) : Option Search :=
  searchStage t q k false (reverseSearch t q) b

/-- The other straight-way test from here on. -/
def switchStraightway (b : Search) : Search :=
  if b.bFindMore then
    { b with finder := { b.finder with
        nSearchOption :=
          if hasOption b.finder.nSearchOption optionStraightway then
            b.finder.nSearchOption - optionStraightway
          else b.finder.nSearchOption + optionStraightway } }
  else
    b

/-- The end of `FindPath`. -/
def finish (t : Params) (q : Query) (b : Search) : Option Found :=
  match b.best with
  | none =>
    -- the result of this last search is not looked at
    if hasOption b.finder.nSearchOption optionNearest then do
      let r ← findPathCore t b.finder q.ptStart q.ptEnd
      some (builtPath t r.2 true)
    else
      some { ret := false, path := [], finder := b.finder }
  | some best => some {
      ret := 0 < best.nPathLen
      path := b.finder.pathPoints best.nShortest best.offset best.nPathLen
      finder := b.finder }

/-- `FindPath`. -/
def findPath (t : Params) (s : PathFinder) (q : Query) : Option Found :=
  let s := { s with nSearchOption := q.nOption, nMaxStep := q.nMaxStep }
  if hasOption q.nOption optionOnlyAStar then
    aStarPath t s q.ptStart q.ptEnd
  else do
    let b ← forwardStage t q 0 { finder := s, best := none, bFindMore := true }
    if b.bFindMore && hasOption q.nOption optionAStar then
      aStarPath t b.finder q.ptStart q.ptEnd
    else do
      let b ← reverseStage t q 1 b
      let b ← forwardStage t q 2 (switchStraightway b)
      let b ← reverseStage t q 3 b
      finish t q b

end XGame3.PathFinder
