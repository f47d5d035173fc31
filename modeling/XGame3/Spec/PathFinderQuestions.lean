import Mathlib.Tactic.Simps.Basic
import XGame3.Spec.PathFinderFrame

/-!
# What the path finder asks the map

`m_BlockFunc->IsBlock` is called in `Approach`, `Around`, `IsCanApproach`, `ConnectDirect`,
`FindAStar` and `IsBevelBlock`.  `findPathAsks` lists the tiles that one call of `FindPath` asks
about, in this order, up to its return or to the assertion that ends it.  The list is complete:
a map that gives the same answers to these questions leads to the same call.

Key results:
- `findPathCore_on`: a search depends on the answers to its questions only
- `findPath_on`: so does the call
-/

namespace XGame3.PathFinder

open FixedInt

variable {t : Params} {s s' : PathFinder} {q : Query} {ptStart ptEnd : Point}
  {g : Point → Option Bool}

/-! ## The questions -/

/-- `IsBevelBlock` asks about the second tile if the first is free. -/
def bevelAsks (s : PathFinder) (ptTile ptNext : Point) : List Point :=
  if int32 (ptTile.x - ptNext.x) = 0 ∨ 0 = int32 (ptTile.y - ptNext.y) then
    []
  else
    ⟨ptNext.x, ptTile.y⟩ ::
      if s.isBlock ⟨ptNext.x, ptTile.y⟩ = some false then [⟨ptTile.x, ptNext.y⟩] else []

/-- `IsBevelBlock` and then `IsBlock`. -/
def stepAsks (s : PathFinder) (ptTile ptNext : Point) : List Point :=
  s.bevelAsks ptTile ptNext ++ [ptNext]

/-- An iteration of `Approach`. -/
def approachTurnAsks (t : Params) (ptEnd : Point) (w : Walk) : List Point :=
  let s := w.finder.counted
  if s.nStepCount ≤ s.nMaxStep then
    let nCurDir := getDir w.ptTile ptEnd
    match moveNext w.ptTile nCurDir with
    | none => []
    | some ptNext =>
      match s.getTileTag t ptNext with
      | none => []
      | some pCurrent =>
        if s.isTileVisited pCurrent nCurDir then [] else s.stepAsks w.ptTile ptNext
  else
    []

/-- `IsCanApproach`. -/
def canApproachAsks (s : PathFinder) (ptTile ptEnd : Point) : List Point :=
  match moveNext ptTile (getDir ptTile ptEnd) with
  | none => []
  | some ptNext => s.stepAsks ptTile ptNext

/-- `Around` after a step: whether the detour is over, and whether it turns back. -/
def landedAsks (t : Params) (ptLoc : Point) (nTurnDir : Turn) (ptEnd : Point) (s : PathFinder)
    (ptTile : Point) (nMoveDir : Int) : List Point :=
  (if hasOption s.nSearchOption optionStraightway then [] else s.canApproachAsks ptTile ptEnd) ++
    if detourOver t s ptLoc ptEnd ptTile = some false then
      match moveNext ptTile (turnDir nMoveDir nTurnDir) with
      | none => []
      | some ptAround => s.bevelAsks ptAround ptTile ++ [ptAround]
    else
      []

/-- An iteration of `Around`. -/
def aroundTurnAsks (t : Params) (ptLoc : Point) (nTurnDir : Turn) (ptEnd : Point) (d : Detour) :
    List Point :=
  let s := d.finder.counted
  if s.nStepCount ≤ s.nMaxStep then
    match moveNext d.ptTile d.nMoveDir with
    | none => []
    | some ptNext =>
      match s.getTileTag t ptNext with
      | none => []
      | some pCurrent =>
        if s.isTileVisited pCurrent d.nMoveDir then
          []
        else
          ptNext :: s.bevelAsks d.ptTile ptNext ++
            if s.isBlock ptNext = some false ∧ s.isBevelBlock d.ptTile ptNext = some false then
              landedAsks t ptLoc nTurnDir ptEnd (s.stepOnto pCurrent d.nMoveDir d.pParent 1) ptNext
                d.nMoveDir
            else
              []
  else
    []

/-- `Approach`. -/
def approachAsks (t : Params) (s : PathFinder) (ptStart ptEnd : Point) : List Point :=
  if ptStart = ptEnd then
    []
  else
    match s.getTileTag t ptStart with
    | none => []
    | some pParent =>
      let s := s.makeRoot pParent
      Loop.trace (approachBody t ptEnd) (approachTurnAsks t ptEnd) s.stepsLeft
        ⟨s, ptStart, some pParent⟩

/-- `Around`. -/
def aroundAsks (t : Params) (s : PathFinder) (a : AroundPoint) (ptEnd : Point) : List Point :=
  Loop.trace (aroundBody t a.ptTile a.nTurnDir ptEnd) (aroundTurnAsks t a.ptTile a.nTurnDir ptEnd)
    s.stepsLeft ⟨⟨s, a.ptTile, s.getTileTag t a.ptTile⟩, a.nMoveDir, 0⟩

/-- The inner loop of `FindPathCore`. -/
def drainAsks (t : Params) (ptEnd : Point) : List AroundPoint → PathFinder → List Point
  | [], _ => []
  | a :: queue, s =>
    let s := { s with aroundQueue := queue }
    aroundAsks t s a ptEnd ++
      match around t s a ptEnd with
      | some (false, s) => drainAsks t ptEnd queue s
      | _ => []

/-- An iteration of the outer loop of `FindPathCore`. -/
def coreTurnAsks (t : Params) (ptEnd : Point) (c : Point × PathFinder) : List Point :=
  approachAsks t c.2 c.1 ptEnd ++
    match approach t c.2 c.1 ptEnd with
    | some (false, s) => drainAsks t ptEnd s.aroundQueue s
    | _ => []

/-- `FindPathCore`. -/
def findPathCoreAsks (t : Params) (s : PathFinder) (ptStart ptEnd : Point) : List Point :=
  let s := s.coreStart t ptStart ptEnd
  Loop.trace (coreBody t ptEnd) (coreTurnAsks t ptEnd) s.stepsLeft (ptStart, s)

/-- An iteration of `ConnectDirect`. -/
def connectTurnAsks (t : Params) (ptEnd : Point) (w : Walk) : List Point :=
  let s := w.finder.counted
  if s.nStepCount ≤ s.nMaxStep then
    match moveNext w.ptTile (getDir w.ptTile ptEnd) with
    | none => []
    | some ptNext =>
      match s.getTileTag t ptNext with
      | none => []
      | some _ => s.stepAsks w.ptTile ptNext
  else
    []

/-- `ConnectDirect`. -/
def connectDirectAsks (t : Params) (s : PathFinder) (ptStart ptEnd : Point) : List Point :=
  if ptStart = ptEnd then
    []
  else
    match s.getTileTag t ptStart with
    | none => []
    | some pParent =>
      let s := s.makeRoot pParent
      Loop.trace (connectBody t ptEnd) (connectTurnAsks t ptEnd) s.stepsLeft
        ⟨s, ptStart, some pParent⟩

/-- The loop of `ConnectCorners`. -/
def connectFromAsks (t : Params) : Nat → PathFinder → Point → Nat → List Point
  | 0, _, _, _ => []
  | left + 1, s, ptConnect, dwVisited =>
    match s.nextCorner dwVisited with
    | (none, _) => []
    | (some index, dwMinCorner) =>
      connectDirectAsks t s ptConnect (s.corners index) ++
        match s.connectDirect t ptConnect (s.corners index) with
        | none => []
        | some r => connectFromAsks t left r.2 (s.corners index) dwMinCorner

/-- `ConnectCorners`, if it is called. -/
def optimizeAsks (t : Params) (q : Query) (s : PathFinder) (ptStart : Point) : List Point :=
  if s.nStepCount > q.nPathLenLimit ∧ hasOption q.nOption optionOptimize then
    connectFromAsks t 5 s ptStart 0
  else
    []

/-- One direction of `FindAStar`. -/
def expandDirAsks (t : Params) (ptTile : Point) (pCurrent step dir : Nat) (e : Expansion) :
    List Point :=
  match moveNext ptTile dir with
  | none => []
  | some ptNext =>
    match e.finder.getTileTag t ptNext with
    | none => []
    | some pTag =>
      if some pTag = (e.finder.tileTags pCurrent).pParent then
        []
      else if (e.finder.tileTags pTag).nFindID = e.finder.nFind ∧
          ¬ (e.finder.tileTags pTag).nStep > step then
        []
      else
        e.finder.stepAsks ptTile ptNext

/-- The loop over the eight directions. -/
def expandAsks (t : Params) (ptTile ptEnd : Point) (pCurrent step : Nat) :
    List Nat → Expansion → List Point
  | [], _ => []
  | dir :: dirs, e =>
    expandDirAsks t ptTile pCurrent step dir e ++
      match expandDir t ptTile ptEnd pCurrent step dir e with
      | some e => expandAsks t ptTile ptEnd pCurrent step dirs e
      | none => []

/-- An iteration of `FindAStar`. -/
def aStarTurnAsks (t : Params) (ptEnd : Point) (a : AStar) : List Point :=
  let s := a.finder.counted
  if s.nStepCount ≤ s.nMaxStep then
    match a.openList with
    | [] => []
    | (_, ptTile) :: _ =>
      match s.getTileTag t ptTile with
      | none => []
      | some pCurrent =>
        if ptTile = ptEnd then
          []
        else
          expandAsks t ptTile ptEnd pCurrent ((s.tileTags pCurrent).nStep + 1)
            [0, 1, 2, 3, 4, 5, 6, 7] ⟨s, a.nNearestDist, 0, 0, []⟩
  else
    []

/-- `FindAStar`. -/
def findAStarAsks (t : Params) (s : PathFinder) (ptStart ptEnd : Point) : List Point :=
  let a := aStarStart t s ptStart ptEnd
  Loop.trace (aStarBody t ptEnd) (aStarTurnAsks t ptEnd) a.finder.stepsLeft a

/-- A block that searches from `ptStart`. -/
def forwardAsks (t : Params) (q : Query) (s : PathFinder) : List Point :=
  findPathCoreAsks t s q.ptStart q.ptEnd ++
    match findPathCore t s q.ptStart q.ptEnd with
    | some (true, s) => optimizeAsks t q s q.ptStart
    | _ => []

/-- A block that searches from `ptEnd`. -/
def reverseAsks (t : Params) (q : Query) (s : PathFinder) : List Point :=
  findPathCoreAsks t s q.ptEnd q.ptStart ++
    match findPathCore t s q.ptEnd q.ptStart with
    | some (true, s) =>
      match linkStart t s q.ptStart with
      | some s => optimizeAsks t q s q.ptEnd
      | none => []
    | _ => []

/-- The last search, for the nearest point. -/
def nearestAsks (t : Params) (q : Query) (b : Search) : List Point :=
  match b.best with
  | some _ => []
  | none =>
    if hasOption b.finder.nSearchOption optionNearest then
      findPathCoreAsks t b.finder q.ptStart q.ptEnd
    else
      []

/-- `FindPath`: the tiles it asks about, up to its return or to the assertion that fails. -/
def findPathAsks (t : Params) (s : PathFinder) (q : Query) : List Point :=
  if hasOption q.nOption optionOnlyAStar then
    findAStarAsks t (beginSearch s q).finder q.ptStart q.ptEnd
  else
    collect (forwardAsks t q) (forwardStage t q 0) (fun b =>
      if b.bFindMore && hasOption q.nOption optionAStar then
        findAStarAsks t b.finder q.ptStart q.ptEnd
      else
        collectSecond t q (fun _ => forwardAsks t q) (fun _ => reverseAsks t q) (nearestAsks t q) b)
      (beginSearch s q)

/-! ## Another map -/

/-- The same members over another `IsBlock`. -/
@[simps -fullyApplied]
def on (g : Point → Option Bool) (s : PathFinder) : PathFinder := { s with blockFunc := g }

/-- A walk over another `IsBlock`. -/
def Walk.on (g : Point → Option Bool) (w : Walk) : Walk := { w with finder := w.finder.on g }

/-- A detour over another `IsBlock`. -/
def Detour.on (g : Point → Option Bool) (d : Detour) : Detour :=
  { d with finder := d.finder.on g }

/-- The other map gives the same answers. -/
def SameAnswers (g : Point → Option Bool) (s : PathFinder) (asks : List Point) : Prop :=
  ∀ p ∈ asks, g (p.mul wayUnit) = s.isBlock p

/-- `IsBevelBlock` depends on the answers to its questions. -/
theorem SameAnswers.isBevelBlock {p r : Point} (h : SameAnswers g s (s.bevelAsks p r)) :
    (s.on g).isBevelBlock p r = s.isBevelBlock p r := by
  unfold PathFinder.isBevelBlock
  unfold bevelAsks at h
  split
  · rfl
  · rename_i hslanted
    rw [if_neg hslanted] at h
    have hfirst : (s.on g).isBlock ⟨r.x, p.y⟩ = s.isBlock ⟨r.x, p.y⟩ := h _ List.mem_cons_self
    rw [hfirst]
    split
    · rename_i hfree
      rw [if_pos hfree] at h
      exact h _ (List.mem_cons_of_mem _ (List.mem_singleton.2 rfl))
    · rfl

/-- The step counter over another `IsBlock`. -/
@[simp] theorem on_counted : (s.on g).counted = s.counted.on g := rfl
/-- Tags are places in the window, whatever the map answers. -/
@[simp] theorem on_getTileTag (p : Point) : (s.on g).getTileTag t p = s.getTileTag t p := rfl
/-- A change to a tag over another `IsBlock`. -/
@[simp] theorem on_modifyTag (tag : Nat) (f : TileTag → TileTag) :
    (s.on g).modifyTag tag f = (s.modifyTag tag f).on g := rfl
/-- Tags are those of the same tiles. -/
@[simp] theorem on_tileToPoint (tag : Nat) : (s.on g).tileToPoint t tag = s.tileToPoint t tag := rfl
/-- The marks are the same. -/
@[simp] theorem on_isTileVisited (tag : Nat) (dir : Int) :
    (s.on g).isTileVisited tag dir = s.isTileVisited tag dir := rfl
/-- Two more detours over another `IsBlock`. -/
@[simp] theorem on_pushAround (p : Point) (dir : Int) :
    (s.on g).pushAround p dir = (s.pushAround p dir).on g := rfl
/-- A step over another `IsBlock`. -/
@[simp] theorem on_stepOnto (tag : Nat) (dir : Int) (parent : Option Nat) (bAround : Nat) :
    (s.on g).stepOnto tag dir parent bAround = (s.stepOnto tag dir parent bAround).on g := rfl

/-- A question that is asked has the same answer. -/
theorem SameAnswers.isBlock {p : Point} {asks : List Point} (h : SameAnswers g s asks)
    (hp : p ∈ asks) : (s.on g).isBlock p = s.isBlock p := h p hp

/-- The same answers to the first questions, -/
theorem SameAnswers.left {asks asks' : List Point} (h : SameAnswers g s (asks ++ asks')) :
    SameAnswers g s asks := fun p hp => h p (List.mem_append_left asks' hp)

/-- and to the last. -/
theorem SameAnswers.right {asks asks' : List Point} (h : SameAnswers g s (asks ++ asks')) :
    SameAnswers g s asks' := fun p hp => h p (List.mem_append_right asks hp)

/-- Both answers about a step. -/
theorem SameAnswers.step {p r : Point} (h : SameAnswers g s (s.stepAsks p r)) :
    (s.on g).isBevelBlock p r = s.isBevelBlock p r ∧ (s.on g).isBlock r = s.isBlock r :=
  ⟨h.left.isBevelBlock, h.right.isBlock (List.mem_singleton.2 rfl)⟩

/-- An iteration of `Approach` depends on the answers to its questions. -/
theorem approachBody_on {w : Walk} (h : SameAnswers g w.finder (approachTurnAsks t ptEnd w)) :
    approachBody t ptEnd (w.on g) =
      (approachBody t ptEnd w).map (Sum.map (Walk.on g) (Prod.map id (on g))) := by
  unfold approachTurnAsks at h
  unfold approachBody
  simp only [Walk.on, on_counted, on_nStepCount, on_nMaxStep, on_getTileTag, on_isTileVisited]
  by_cases hcount : w.finder.counted.nStepCount ≤ w.finder.counted.nMaxStep
  · simp only [hcount, if_true] at h ⊢
    cases hmove : moveNext w.ptTile (getDir w.ptTile ptEnd) with
    | none => rfl
    | some ptNext =>
      simp only [hmove, Option.bind_some, bind] at h ⊢
      cases htag : w.finder.counted.getTileTag t ptNext with
      | none => rfl
      | some pCurrent =>
        simp only [htag] at h ⊢
        by_cases hvisited : w.finder.counted.isTileVisited pCurrent (getDir w.ptTile ptEnd) = true
        -- a tile walked before is entered without a question
        · simp only [hvisited, if_true]
          rfl
        · simp only [hvisited, Bool.false_eq_true, if_false] at h ⊢
          -- the two questions of the step
          obtain ⟨hbevel, hblock⟩ := SameAnswers.step (s := w.finder.counted) h
          rw [hbevel, hblock]
          cases w.finder.counted.isBevelBlock w.ptTile ptNext with
          | none => rfl
          | some isBevel =>
            cases w.finder.counted.isBlock ptNext with
            | none => rfl
            | some block =>
              dsimp only [Option.bind_some]
              split <;> split <;> rfl
  -- past the limit of steps nothing is asked
  · simp only [hcount, if_false]
    rfl

/-- So does `IsCanApproach`. -/
theorem isCanApproach_on {p : Point} (h : SameAnswers g s (s.canApproachAsks p ptEnd)) :
    (s.on g).isCanApproach t p ptEnd = s.isCanApproach t p ptEnd := by
  unfold canApproachAsks at h
  unfold isCanApproach
  cases hmove : moveNext p (getDir p ptEnd) with
  | none => rfl
  | some ptNext =>
    simp only [hmove] at h
    simp only [Option.bind_some, bind]
    rw [h.step.1, h.step.2]
    rfl

/-- Whether a detour is over, which is asked in straight-way mode without the map. -/
theorem detourOver_on {ptLoc p : Point}
    (h : SameAnswers g s (if hasOption s.nSearchOption optionStraightway then []
      else s.canApproachAsks p ptEnd)) :
    detourOver t (s.on g) ptLoc ptEnd p = detourOver t s ptLoc ptEnd p := by
  unfold detourOver
  by_cases hoption : hasOption s.nSearchOption optionStraightway = true
  · rw [if_pos hoption]
    exact if_pos hoption
  · rw [if_neg hoption] at h ⊢
    exact (if_neg hoption).trans (isCanApproach_on h)

/-- The second half of an iteration of `Around`. -/
def landed (t : Params) (ptLoc : Point) (nTurnDir : Turn) (ptEnd : Point) (s : PathFinder)
    (ptTile : Point) (pCurrent : Nat) (nMoveDir : Int) : Option (Detour ⊕ (Bool × PathFinder)) := do
  let bReturn ← detourOver t s ptLoc ptEnd ptTile
  if bReturn then
    some (.inr (true, s))
  else do
    let ptAround ← moveNext ptTile (turnDir nMoveDir nTurnDir)
    let isBevel ← s.isBevelBlock ptAround ptTile
    let block ← s.isBlock ptAround
    if !block && !isBevel then
      some (.inl ⟨⟨s, ptTile, some pCurrent⟩, turnDir nMoveDir nTurnDir, 0⟩)
    else
      some (.inl ⟨⟨s, ptTile, some pCurrent⟩, nMoveDir, 0⟩)

/-- The second half of an iteration of `Around` depends on the answers to its questions. -/
theorem landed_on {ptLoc ptTile : Point} {nTurnDir : Turn} {pCurrent : Nat} {nMoveDir : Int}
    (h : SameAnswers g s (landedAsks t ptLoc nTurnDir ptEnd s ptTile nMoveDir)) :
    landed t ptLoc nTurnDir ptEnd (s.on g) ptTile pCurrent nMoveDir =
      (landed t ptLoc nTurnDir ptEnd s ptTile pCurrent nMoveDir).map
        (Sum.map (Detour.on g) (Prod.map id (on g))) := by
  -- first what ends the detour
  have hturn := h.right
  unfold landed
  rw [detourOver_on h.left]
  cases hreturn : detourOver t s ptLoc ptEnd ptTile with
  | none => rfl
  | some bReturn =>
    cases bReturn with
    | true => rfl
    | false =>
      -- then the turn back to the block, which asks about the tile beside
      rw [if_pos hreturn] at hturn
      simp only [Option.bind_some, Bool.false_eq_true, if_false, bind]
      cases haround : moveNext ptTile (turnDir nMoveDir nTurnDir) with
      | none => rfl
      | some ptAround =>
        rw [haround] at hturn
        have hblock : (s.on g).isBlock ptAround = s.isBlock ptAround :=
          hturn.right.isBlock (List.mem_singleton.2 rfl)
        simp only [Option.bind_some]
        rw [hturn.left.isBevelBlock, hblock]
        cases s.isBevelBlock ptAround ptTile with
        | none => rfl
        | some isBevel =>
          cases s.isBlock ptAround with
          | none => rfl
          | some block =>
            dsimp only [Option.bind_some]
            split <;> rfl

/-- One iteration of `Around`. -/
theorem aroundBody_on {ptLoc : Point} {nTurnDir : Turn} {d : Detour}
    (h : SameAnswers g d.finder (aroundTurnAsks t ptLoc nTurnDir ptEnd d)) :
    aroundBody t ptLoc nTurnDir ptEnd (d.on g) =
      (aroundBody t ptLoc nTurnDir ptEnd d).map (Sum.map (Detour.on g) (Prod.map id (on g))) := by
  unfold aroundTurnAsks at h
  unfold aroundBody
  -- the members the turn reads are not the map's
  simp only [Detour.on, on_counted, on_nStepCount, on_nMaxStep, on_getTileTag, on_isTileVisited]
  by_cases hcount : d.finder.counted.nStepCount ≤ d.finder.counted.nMaxStep
  · simp only [hcount, if_true] at h ⊢
    cases hmove : moveNext d.ptTile d.nMoveDir with
    | none => rfl
    | some ptNext =>
      simp only [hmove, Option.bind_some, bind] at h ⊢
      cases htag : d.finder.counted.getTileTag t ptNext with
      | none => rfl
      | some pCurrent =>
        simp only [htag] at h ⊢
        by_cases hvisited : d.finder.counted.isTileVisited pCurrent d.nMoveDir = true
        · simp only [hvisited, if_true]
          rfl
        · simp only [hvisited, Bool.false_eq_true, if_false] at h ⊢
          -- the two questions of the step are among those recorded
          have hblock : (d.finder.counted.on g).isBlock ptNext = d.finder.counted.isBlock ptNext :=
            h _ List.mem_cons_self
          have hbevel : SameAnswers g d.finder.counted
            (d.finder.counted.bevelAsks d.ptTile ptNext) :=
            fun p hp => h p (List.mem_cons_of_mem _ (List.mem_append_left _ hp))
          rw [hblock, hbevel.isBevelBlock]
          cases hfree : d.finder.counted.isBlock ptNext with
          | none => rfl
          | some block =>
            cases hstraight : d.finder.counted.isBevelBlock d.ptTile ptNext with
            | none => rfl
            | some isBevel =>
              dsimp only [Option.bind_some]
              -- both answer alike, so both turn here
              by_cases hrefused : (block || isBevel) = true
              · simp only [hrefused, if_true]
                by_cases hturned : d.nContinueTurn + 1 > 2
                · simp only [hturned, if_true]
                  rfl
                · simp only [hturned, if_false]
                  rfl
              · rw [if_neg hrefused, if_neg hrefused]
                -- or both take the step and are asked the rest
                obtain ⟨rfl, rfl⟩ := Bool.or_eq_false_iff.1 (Bool.eq_false_iff.2 hrefused)
                rw [if_pos ⟨hfree, hstraight⟩] at h
                exact landed_on (s := d.finder.counted.stepOnto pCurrent d.nMoveDir d.pParent 1)
                  (SameAnswers.right (s := d.finder.counted) h)
  · simp only [hcount, if_false]
    rfl

/-- An iteration of `ConnectDirect` from its tests on. -/
def entered (ptEnd : Point) (w : Walk) (s : PathFinder) (ptNext : Point) (pCurrent : Nat) :
    Option (Walk ⊕ (Bool × PathFinder)) := do
  let bNextBlock ← s.isBevelBlock w.ptTile ptNext
  let block ← s.isBlock ptNext
  if block || bNextBlock then
    some (.inr (false, s))
  else
    let s := s.markTileVisited pCurrent (getDir w.ptTile ptEnd) w.pParent
    let s := s.modifyTag pCurrent fun old => { old with bAround := 0 }
    if ptNext = ptEnd then some (.inr (true, s))
    else some (.inl ⟨s, ptNext, some pCurrent⟩)

/-- What `ConnectDirect` does on a tile depends on the answers to its questions. -/
theorem entered_on {w : Walk} {ptNext : Point} {pCurrent : Nat}
    (h : SameAnswers g s (s.stepAsks w.ptTile ptNext)) :
    entered ptEnd (w.on g) (s.on g) ptNext pCurrent =
      (entered ptEnd w s ptNext pCurrent).map (Sum.map (Walk.on g) (Prod.map id (on g))) := by
  unfold entered
  change ((s.on g).isBevelBlock w.ptTile ptNext).bind _ = _
  rw [h.step.1, h.step.2]
  cases s.isBevelBlock w.ptTile ptNext with
  | none => rfl
  | some isBevel =>
    cases s.isBlock ptNext with
    | none => rfl
    | some block =>
      dsimp only [Option.bind_some, bind]
      split
      · rfl
      · split <;> rfl

/-- One iteration of `ConnectDirect`. -/
theorem connectBody_on {w : Walk} (h : SameAnswers g w.finder (connectTurnAsks t ptEnd w)) :
    connectBody t ptEnd (w.on g) =
      (connectBody t ptEnd w).map (Sum.map (Walk.on g) (Prod.map id (on g))) := by
  unfold connectTurnAsks at h
  unfold connectBody
  simp only [Walk.on, on_counted, on_nStepCount, on_nMaxStep, on_getTileTag]
  by_cases hcount : w.finder.counted.nStepCount ≤ w.finder.counted.nMaxStep
  · simp only [hcount, if_true] at h ⊢
    cases hmove : moveNext w.ptTile (getDir w.ptTile ptEnd) with
    | none => rfl
    | some ptNext =>
      simp only [hmove, Option.bind_some, bind] at h ⊢
      cases htag : w.finder.counted.getTileTag t ptNext with
      | none => rfl
      | some pCurrent =>
        simp only [htag] at h ⊢
        -- the parent is set before the questions are asked
        by_cases hc : (w.finder.counted.tileTags pCurrent).nFindID = w.finder.counted.nFind
        · simp only [on_tileTags, on_nFind, on_modifyTag, hc, if_true]
          exact entered_on (s := w.finder.counted.modifyTag pCurrent fun old =>
            { old with pParent := w.pParent }) h
        · simp only [on_tileTags, on_nFind, hc, if_false]
          exact entered_on (s := w.finder.counted) h
  · simp only [hcount, if_false]
    rfl

/-- An expansion over another `IsBlock`. -/
def Expansion.on (g : Point → Option Bool) (e : Expansion) : Expansion :=
  { e with finder := e.finder.on g }

/-- The locals of `FindAStar` over another `IsBlock`. -/
def AStar.on (g : Point → Option Bool) (a : AStar) : AStar := { a with finder := a.finder.on g }

/-- One direction of `FindAStar` from its tests on. -/
def examined (t : Params) (ptTile ptEnd : Point) (pCurrent step dir : Nat) (e : Expansion)
    (s : PathFinder) (ptNext : Point) (pTag : Nat) : Option Expansion := do
  let bNextBlock ← s.isBevelBlock ptTile ptNext
  let block ← s.isBlock ptNext
  if block || bNextBlock then
    some { e with finder := s, blockNum := e.blockNum + 1 }
  else
    let s := s.modifyTag pTag fun old =>
      { old with nFindID := s.nFind, pParent := some pCurrent }.setStep step
    let dist := int32 (abs (int32 (ptNext.x - ptEnd.x)) + abs (int32 (ptNext.y - ptEnd.y)))
    let found := e.found ++ [(dir, dist, ptNext)]
    if t.dword.wrap dist < e.nNearestDist then
      some { e with
        finder := { s with pNearestTile := some pTag }
        nNearestDist := t.dword.wrap dist
        found := found }
    else
      some { e with finder := s, found := found }

/-- What `FindAStar` does with a neighbour depends on the answers to its questions. -/
theorem examined_on {ptTile ptNext : Point} {pCurrent step dir pTag : Nat} {e : Expansion}
    (h : SameAnswers g s (s.stepAsks ptTile ptNext)) :
    examined t ptTile ptEnd pCurrent step dir (e.on g) (s.on g) ptNext pTag =
      (examined t ptTile ptEnd pCurrent step dir e s ptNext pTag).map (Expansion.on g) := by
  unfold examined
  rw [h.step.1, h.step.2]
  cases s.isBevelBlock ptTile ptNext with
  | none => rfl
  | some isBevel =>
    cases s.isBlock ptNext with
    | none => rfl
    | some block =>
      dsimp only [Option.bind_some, bind, Expansion.on]
      split
      · rfl
      -- the record of the nearest tile does not ask
      · by_cases hnear : t.dword.wrap (int32 (abs (int32 (ptNext.x - ptEnd.x)) +
            abs (int32 (ptNext.y - ptEnd.y)))) < e.nNearestDist
        · simp only [hnear, if_true]
          rfl
        · simp only [hnear, if_false]
          rfl

/-- One direction of `FindAStar`. -/
theorem expandDir_on {ptTile : Point} {pCurrent step dir : Nat} {e : Expansion}
    (h : SameAnswers g e.finder (expandDirAsks t ptTile pCurrent step dir e)) :
    expandDir t ptTile ptEnd pCurrent step dir (e.on g) =
      (expandDir t ptTile ptEnd pCurrent step dir e).map (Expansion.on g) := by
  unfold expandDirAsks at h
  unfold expandDir
  simp only [Expansion.on, on_getTileTag, on_tileTags, on_nFind]
  cases hmove : moveNext ptTile dir with
  | none => rfl
  | some ptNext =>
    simp only [hmove, Option.bind_some, bind] at h ⊢
    cases htag : e.finder.getTileTag t ptNext with
    | none => rfl
    | some pTag =>
      simp only [htag] at h ⊢
      by_cases hback : some pTag = (e.finder.tileTags pCurrent).pParent
      · simp only [hback, if_true]
        rfl
      · simp only [hback, if_false] at h ⊢
        by_cases hknown : (e.finder.tileTags pTag).nFindID = e.finder.nFind ∧
            ¬ (e.finder.tileTags pTag).nStep > step
        · simp only [hknown, if_true]
          rfl
        · simp only [hknown, if_false] at h ⊢
          -- a shorter way is recorded before the questions are asked
          by_cases hc : (e.finder.tileTags pTag).nFindID = e.finder.nFind
          · simp only [hc, if_true, on_modifyTag]
            exact examined_on (s := e.finder.modifyTag pTag fun old =>
              { old with pParent := some pCurrent }.setStep step) h
          · simp only [hc, if_false]
            exact examined_on h

/-! ## Loops and calls -/

/-- A loop whose iterations depend on the answers to their questions only does so too. -/
theorem loop_on {σ : Type} {body : σ → Option (σ ⊕ (Bool × PathFinder))} {emit : σ → List Point}
    (finder : σ → PathFinder) (onMap : σ → σ)
    (hmap : ∀ w r, body w = some r → SameMap (finder w) (r.elim finder Prod.snd))
    (hbody : ∀ w, SameAnswers g (finder w) (emit w) →
      body (onMap w) = (body w).map (Sum.map onMap (Prod.map id (on g))))
    {n : Nat} {w : σ} (h : SameAnswers g (finder w) (Loop.trace body emit n w)) :
    loopResult (Loop.run body n (onMap w)) =
      (loopResult (Loop.run body n w)).map (Prod.map id (on g)) := by
  have hrun : Loop.run body n (onMap w) =
      (Loop.run body n w).map (Sum.map onMap (Prod.map id (on g))) := by
    have hseen : ∀ p ∈ Loop.trace body emit n w,
        g (p.mul wayUnit) = (finder w).blockFunc (p.mul wayUnit) := h
    -- as long as the map is not changed, a question recorded in any turn is one about the first map
    refine Loop.run_map_of_trace (I := fun w' => (finder w').blockFunc = (finder w).blockFunc)
      (P := fun p : Point => g (p.mul wayUnit) = (finder w).blockFunc (p.mul wayUnit)) ?_ ?_ rfl
        hseen
    · exact fun w₁ w₂ hw hb => (hmap w₁ (.inl w₂) hb).blockFunc.trans hw
    · intro w₁ hw hsame
      apply hbody
      intro p hp
      exact (hsame p hp).trans (congrFun hw.symm _)
  rw [hrun]
  cases Loop.run body n w with
  | none => rfl
  | some r => cases r <;> rfl

/-- The first tile of a walk over another `IsBlock`. -/
@[simp] theorem on_makeRoot (tag : Nat) : (s.on g).makeRoot tag = (s.makeRoot tag).on g := by
  unfold makeRoot
  by_cases hc : (s.tileTags tag).nFindID ≠ s.nFind
  · rw [if_pos hc]
    exact if_pos hc
  · rw [if_neg hc]
    exact if_neg hc

/-- The answers are those of the map, whatever else has changed. -/
theorem SameAnswers.of_sameMap {asks : List Point} (h : SameAnswers g s asks)
    (hmap : SameMap s s') :
    SameAnswers g s' asks := by
  intro p hp
  unfold PathFinder.isBlock
  rw [hmap.blockFunc]
  exact h p hp

/-- A call of `Approach` depends on the answers to its questions. -/
theorem approach_on (h : SameAnswers g s (approachAsks t s ptStart ptEnd)) :
    approach t (s.on g) ptStart ptEnd =
      (approach t s ptStart ptEnd).map (Prod.map id (on g)) := by
  unfold approachAsks at h
  unfold approach
  rw [on_getTileTag]
  by_cases hat : ptStart = ptEnd
  · rw [if_pos hat, if_pos hat]
    rfl
  · rw [if_neg hat] at h
    rw [if_neg hat, if_neg hat]
    cases htag : s.getTileTag t ptStart with
    -- outside the window the search ends with nothing asked
    | none => rfl
    | some pParent =>
      simp only [htag] at h
      simp only [on_makeRoot]
      -- the root is written, then the loop asks
      exact loop_on Walk.finder (Walk.on g) (fun _ _ => approachBody_sameMap)
        (fun _ => approachBody_on) (h.of_sameMap (.kept (makeRoot_kept s pParent)))

/-- So does a call of `Around`. -/
theorem around_on {a : AroundPoint} (h : SameAnswers g s (aroundAsks t s a ptEnd)) :
    around t (s.on g) a ptEnd = (around t s a ptEnd).map (Prod.map id (on g)) := by
  have hloop := loop_on (fun d : Detour => d.finder) (Detour.on g)
    (fun _ _ => aroundBody_sameMap) (fun _ => aroundBody_on) h
  exact hloop

/-- One corner, compared and recorded over another `IsBlock`. -/
theorem on_recordCornerAt (p : Point) (corner : Nat) (ahead : Point → Point → Bool) :
    (s.on g).recordCornerAt t p corner ahead = (s.recordCornerAt t p corner ahead).on g := by
  unfold recordCornerAt
  by_cases hrecord : ahead p (s.corners corner) ∨ s.nCornerFlag corner = invalidCornerFlag
  · rw [if_pos hrecord]
    exact if_pos hrecord
  · rw [if_neg hrecord]
    exact if_neg hrecord

/-- The four corners over another `IsBlock`. -/
@[simp] theorem on_recordCorner (p : Point) :
    (s.on g).recordCorner t p = (s.recordCorner t p).on g := by
  unfold recordCorner
  simp only [on_recordCornerAt]

/-- A detour leaves the map alone. -/
theorem around_sameMap {a : AroundPoint} {r : Bool × PathFinder} (h : around t s a ptEnd = some r) :
    SameMap s r.2 :=
  loop_sameMap (fun d => d.finder) (fun _ _ => aroundBody_sameMap) h

/-- The detours of the queue depend on the answers to their questions. -/
theorem drainAround_on {queue : List AroundPoint}
    (h : SameAnswers g s (drainAsks t ptEnd queue s)) :
    drainAround t ptEnd queue (s.on g) =
      (drainAround t ptEnd queue s).map (Prod.map id (on g)) := by
  induction queue generalizing s with
  | nil => rfl
  | cons a queue ih =>
    unfold drainAsks at h
    have hmap : SameMap s { s with aroundQueue := queue } := ⟨rfl, rfl, rfl⟩
    have hdetour := around_on (h.left.of_sameMap hmap)
    have hrest := h.right
    unfold drainAround
    change (around t (on g { s with aroundQueue := queue }) a ptEnd).bind _ = _
    rw [hdetour]
    cases haround : around t { s with aroundQueue := queue } a ptEnd with
    | none => rfl
    | some r =>
      obtain ⟨ret, s₁⟩ := r
      cases ret with
      | true =>
        -- the corner is recorded alike
        change (s₁.pNearestTile.bind _) = ((s₁.pNearestTile.bind _).map _)
        cases s₁.pNearestTile with
        | none => rfl
        | some tag =>
          have hcorner : (if hasOption (s₁.on g).nSearchOption optionOptimize then
                (s₁.on g).recordCorner t ((s₁.on g).tileToPoint t tag) else s₁.on g) =
              (if hasOption s₁.nSearchOption optionOptimize then
                s₁.recordCorner t (s₁.tileToPoint t tag) else s₁).on g := by
            simp only [on_nSearchOption, on_tileToPoint, on_recordCorner]
            split <;> rfl
          exact congrArg (fun s => some (some (s₁.tileToPoint t tag), s)) hcorner
      | false =>
        rw [haround] at hrest
        exact ih (hrest.of_sameMap (hmap.trans (around_sameMap haround)))

/-- An iteration of the outer loop of `FindPathCore` depends on the answers to its questions. -/
theorem coreBody_on {c : Point × PathFinder} (h : SameAnswers g c.2 (coreTurnAsks t ptEnd c)) :
    coreBody t ptEnd (Prod.map id (on g) c) =
      (coreBody t ptEnd c).map (Sum.map (Prod.map id (on g)) (Prod.map id (on g))) := by
  unfold coreTurnAsks at h
  unfold coreBody
  -- the questions of the detours follow those of the approach
  have hdrain := h.right
  change (approach t (c.2.on g) c.1 ptEnd).bind _ = _
  rw [approach_on h.left]
  cases happroach : approach t c.2 c.1 ptEnd with
  | none => rfl
  | some r =>
    obtain ⟨ret, s₁⟩ := r
    cases ret with
    | true => rfl
    | false =>
      rw [happroach] at hdrain
      change (drainAround t ptEnd s₁.aroundQueue (s₁.on g)).bind _ = _
      -- the detours see the map the approach left, which is the same
      rw [drainAround_on (hdrain.of_sameMap (approach_sameMap happroach))]
      change _ = ((drainAround t ptEnd s₁.aroundQueue s₁).bind _).map _
      cases drainAround t ptEnd s₁.aroundQueue s₁ with
      | none => rfl
      | some d =>
        obtain ⟨o, s₂⟩ := d
        cases o <;> rfl

/-- The beginning of a search asks nothing. -/
theorem on_coreStart : (s.on g).coreStart t ptStart ptEnd = (s.coreStart t ptStart ptEnd).on g := by
  unfold coreStart
  dsimp only [on]
  split <;> rfl

/-- A search depends on the answers to its questions only. -/
theorem findPathCore_on (h : SameAnswers g s (findPathCoreAsks t s ptStart ptEnd)) :
    findPathCore t (s.on g) ptStart ptEnd =
      (findPathCore t s ptStart ptEnd).map (Prod.map id (on g)) := by
  have hbegin := (coreStart_begins (t := t) s ptStart ptEnd).sameMap
  unfold findPathCore
  dsimp only
  rw [on_coreStart]
  exact loop_on Prod.snd (Prod.map id (on g)) (fun _ _ => coreBody_sameMap)
    (fun _ => coreBody_on) (h.of_sameMap hbegin)

/-- A call of `ConnectDirect` depends on the answers to its questions. -/
theorem connectDirect_on {p : Point} (h : SameAnswers g s (connectDirectAsks t s p ptEnd)) :
    connectDirect t (s.on g) p ptEnd = (connectDirect t s p ptEnd).map (Prod.map id (on g)) := by
  unfold connectDirectAsks at h
  unfold connectDirect
  rw [on_getTileTag]
  by_cases hat : p = ptEnd
  · rw [if_pos hat, if_pos hat]
    rfl
  · rw [if_neg hat] at h
    rw [if_neg hat, if_neg hat]
    cases htag : s.getTileTag t p with
    | none => rfl
    | some pParent =>
      simp only [htag] at h
      -- the root is written, then the line asks
      simp only [on_makeRoot]
      exact loop_on Walk.finder (Walk.on g) (fun _ _ hr => .kept (connectBody_kept hr))
        (fun _ => connectBody_on) (h.of_sameMap (.kept (makeRoot_kept s pParent)))

/-- The lines between the corners depend on the answers to their questions. -/
theorem connectFrom_on {left dwVisited : Nat} {p : Point}
    (h : SameAnswers g s (connectFromAsks t left s p dwVisited)) :
    connectFrom t left (s.on g) p dwVisited = (connectFrom t left s p dwVisited).map (on g) := by
  -- on the corners that are left
  induction left generalizing s p dwVisited with
  | zero => rfl
  | succ left ih =>
    unfold connectFromAsks at h
    unfold connectFrom
    change (match s.nextCorner dwVisited with
      | (none, _) => some (s.on g)
      | (some index, dwMinCorner) => (connectDirect t (s.on g) p (s.corners index)).bind fun r =>
        connectFrom t left r.2 (s.corners index) dwMinCorner) = _
    rcases hcorner : s.nextCorner dwVisited with ⟨_ | index, dwMinCorner⟩
    · rfl
    · rw [hcorner] at h
      dsimp only at h ⊢
      -- the line to this corner, then the rest of the chain
      have hrest := h.right
      rw [connectDirect_on h.left]
      cases hdirect : connectDirect t s p (s.corners index) with
      | none => rfl
      | some r =>
        rw [hdirect] at hrest
        exact ih (hrest.of_sameMap (.kept (connectDirect_kept hdirect)))

/-- So does `ConnectCorners`, if it is called. -/
theorem optimizeCorners_on {p : Point} (h : SameAnswers g s (optimizeAsks t q s p)) :
    optimizeCorners t q (s.on g) p = (optimizeCorners t q s p).map (on g) := by
  unfold optimizeAsks at h
  unfold optimizeCorners
  by_cases hlong : s.nStepCount > q.nPathLenLimit ∧ hasOption q.nOption optionOptimize
  · rw [if_pos hlong] at h
    rw [if_pos hlong]
    exact (if_pos hlong).trans (connectFrom_on h)
  · rw [if_neg hlong]
    exact if_neg hlong

/-- `linkStart` asks nothing. -/
theorem linkStart_on {p : Point} : linkStart t (s.on g) p = (linkStart t s p).map (on g) := by
  unfold linkStart
  change (match s.pNearestTile with
    | none => some (s.on g)
    | some nearest =>
      if some nearest = s.getTileTag t p then some (s.on g)
      else (s.getTileTag t p).bind fun pTag => some _) = _
  cases s.pNearestTile with
  | none => rfl
  | some nearest =>
    dsimp only
    split
    · rfl
    · cases s.getTileTag t p <;> rfl

/-- The search of a block from `ptStart`, with its lines. -/
theorem forwardSearch_on (h : SameAnswers g s (forwardAsks t q s)) :
    forwardSearch t q (s.on g) = (forwardSearch t q s).map (Prod.map id (on g)) := by
  unfold forwardAsks at h
  have hrest := h.right
  unfold forwardSearch
  rw [findPathCore_on h.left]
  cases hcore : findPathCore t s q.ptStart q.ptEnd with
  | none => rfl
  | some r =>
    obtain ⟨ret, s₁⟩ := r
    cases ret with
    | false => rfl
    -- only a search that arrived goes on to its corners
    | true =>
      rw [hcore] at hrest
      change (optimizeCorners t q (s₁.on g) q.ptStart).bind _ =
        ((optimizeCorners t q s₁ q.ptStart).bind _).map _
      rw [optimizeCorners_on (hrest.of_sameMap (findPathCore_sameMap hcore))]
      cases optimizeCorners t q s₁ q.ptStart <;> rfl

/-- The search of a block from `ptEnd`, with its link and its lines. -/
theorem reverseSearch_on (h : SameAnswers g s (reverseAsks t q s)) :
    reverseSearch t q (s.on g) = (reverseSearch t q s).map (Prod.map id (on g)) := by
  unfold reverseAsks at h
  have hrest := h.right
  unfold reverseSearch
  rw [findPathCore_on h.left]
  cases hcore : findPathCore t s q.ptEnd q.ptStart with
  | none => rfl
  | some r =>
    obtain ⟨ret, s₁⟩ := r
    cases ret with
    | false => rfl
    -- only a search that arrived is linked and goes on to its corners
    | true =>
      rw [hcore] at hrest
      dsimp only at hrest
      change (linkStart t (s₁.on g) q.ptStart).bind _ = ((linkStart t s₁ q.ptStart).bind _).map _
      rw [linkStart_on]
      cases hlink : linkStart t s₁ q.ptStart with
      | none => rfl
      | some s₂ =>
        rw [hlink] at hrest
        have hmap := (findPathCore_sameMap hcore).trans
          (linkStart_sameIds hlink).1.toSameSearch.sameMap
        change (optimizeCorners t q (s₂.on g) q.ptEnd).bind _ =
          ((optimizeCorners t q s₂ q.ptEnd).bind _).map _
        rw [optimizeCorners_on (hrest.of_sameMap hmap)]
        cases optimizeCorners t q s₂ q.ptEnd <;> rfl

/-! ## FindAStar and FindPath -/

/-- The eight directions of one expansion. -/
theorem expand_on {ptTile : Point} {pCurrent step : Nat} {dirs : List Nat} {e : Expansion}
    (h : SameAnswers g e.finder (expandAsks t ptTile ptEnd pCurrent step dirs e)) :
    expand t ptTile ptEnd pCurrent step dirs (e.on g) =
      (expand t ptTile ptEnd pCurrent step dirs e).map (Expansion.on g) := by
  induction dirs generalizing e with
  | nil => rfl
  | cons dir dirs ih =>
    unfold expandAsks at h
    -- the later directions see the map of before
    have hrest := h.right
    unfold expand
    rw [expandDir_on h.left]
    cases hdir : expandDir t ptTile ptEnd pCurrent step dir e with
    | none => rfl
    | some e₁ =>
      rw [hdir] at hrest
      exact ih (hrest.of_sameMap (expandDir_sameMap hdir))

/-- One iteration of `FindAStar`. -/
theorem aStarBody_on {a : AStar} (h : SameAnswers g a.finder (aStarTurnAsks t ptEnd a)) :
    aStarBody t ptEnd (a.on g) =
      (aStarBody t ptEnd a).map (Sum.map (AStar.on g) (Prod.map id (on g))) := by
  unfold aStarTurnAsks at h
  unfold aStarBody
  simp only [AStar.on, on_counted, on_nStepCount, on_nMaxStep, on_getTileTag]
  -- past the limit of steps nothing is asked
  by_cases hcount : a.finder.counted.nStepCount ≤ a.finder.counted.nMaxStep
  · simp only [hcount, if_true] at h ⊢
    cases hopen : a.openList with
    | nil => rfl
    | cons entry openList =>
      obtain ⟨key, ptTile⟩ := entry
      simp only [hopen] at h ⊢
      cases htag : a.finder.counted.getTileTag t ptTile with
      | none => rfl
      | some pCurrent =>
        simp only [htag] at h ⊢
        by_cases hat : ptTile = ptEnd
        · simp only [hat, if_true]
          rfl
        · simp only [hat, if_false, bind] at h ⊢
          -- an expanded tile asks about its eight neighbours
          have hexpand := expand_on (e := ⟨a.finder.counted, a.nNearestDist, 0, 0, []⟩) h
          rw [on_tileTags]
          change (expand t ptTile ptEnd pCurrent _ _
            (Expansion.on g ⟨a.finder.counted, a.nNearestDist, 0, 0, []⟩)).bind _ = _
          rw [hexpand]
          cases expand t ptTile ptEnd pCurrent ((a.finder.counted.tileTags pCurrent).nStep + 1)
            [0, 1, 2, 3, 4, 5, 6, 7] ⟨a.finder.counted, a.nNearestDist, 0, 0, []⟩ <;> rfl
  · simp only [hcount, if_false]
    rfl

/-- The root of an A* search, if the start has a tag. -/
theorem on_rooted (tag : Option Nat) (f : TileTag → TileTag) :
    (match tag with
      | none => s.on g
      | some pStart => (s.on g).modifyTag pStart f) =
    on g (match tag with
      | none => s
      | some pStart => s.modifyTag pStart f) := by
  cases tag <;> rfl

/-- The beginning of an A* search asks nothing. -/
theorem on_aStarStart :
    aStarStart t (s.on g) ptStart ptEnd = (aStarStart t s ptStart ptEnd).on g := by
  have hroot := on_rooted (g := g)
    (s := { s with
      nFind := (s.nFind + 1) % 65536
      ptStart := ptStart
      ptEnd := ptEnd
      pNearestTile := none
      nStepCount := 0 })
    (getTileTag t { s with ptStart := ptStart } ptStart)
    (fun old => { old with pParent := none, nFindID := (s.nFind + 1) % 65536 }.setStep 0)
  exact congrArg (fun s' => (⟨s', [(0, ptStart)], 10000000⟩ : AStar)) hroot

/-- The A* search depends on the answers to its questions only. -/
theorem findAStar_on (h : SameAnswers g s (findAStarAsks t s ptStart ptEnd)) :
    findAStar t (s.on g) ptStart ptEnd =
      (findAStar t s ptStart ptEnd).map (Prod.map id (on g)) := by
  unfold findAStar
  dsimp only
  rw [on_aStarStart]
  exact loop_on AStar.finder (AStar.on g) (fun _ _ => aStarBody_sameMap) (fun _ => aStarBody_on)
    (h.of_sameMap (aStarStart_sameMap s ptStart ptEnd))

/-- `BuildPath` asks nothing. -/
theorem on_buildLoop {nBufSize left nPathLen : Nat} {nReverse optmize : Bool}
    {pNearestTile : Option Nat} {buf : Nat → Point} :
    buildLoop t (s.on g) nBufSize nReverse optmize left pNearestTile nPathLen buf =
      buildLoop t s nBufSize nReverse optmize left pNearestTile nPathLen buf := by
  induction left generalizing pNearestTile nPathLen buf with
  | zero => rfl
  | succ left ih =>
    unfold buildLoop
    cases pNearestTile with
    | none => rfl
    | some tag =>
      simp only [on_tileToPoint, on_tileTags, ih]

/-- The path is built without the map. -/
theorem on_buildPath {k : Nat} {nReverse optmize : Bool} :
    buildPath t (s.on g) k nReverse optmize =
      Prod.map id (on g) (buildPath t s k nReverse optmize) := by
  unfold buildPath
  dsimp only
  rw [on_buildLoop]
  rfl

/-- The locals of `FindPath` over another `IsBlock`. -/
def Search.on (g : Point → Option Bool) (b : Search) : Search := { b with finder := b.finder.on g }

/-- The result of `FindPath` over another `IsBlock`. -/
def Found.on (g : Point → Option Bool) (r : Found) : Found := { r with finder := r.finder.on g }

/-- A path that is kept as the shortest so far. -/
theorem on_keepPath {k : Nat} {nReverse : Bool} {best : Option Shortest} :
    keepPath t q k nReverse best (s.on g) = (keepPath t q k nReverse best s).on g := by
  unfold keepPath
  dsimp only
  rw [on_buildPath]
  by_cases hkeep : 0 < (buildPath t s k nReverse true).1 ∧
      ∀ b ∈ best, (buildPath t s k nReverse true).1 < b.nPathLen
  · simp only [Prod.map_fst, id, if_pos hkeep]
    rfl
  · simp only [Prod.map_fst, id, if_neg hkeep]
    rfl

/-- The result that is built without the map. -/
theorem on_builtPath {optmize : Bool} :
    builtPath t (s.on g) optmize = (builtPath t s optmize).on g := by
  unfold builtPath
  dsimp only
  rw [on_buildPath]
  rfl

/-- The A* search and its path. -/
theorem aStarPath_on (h : SameAnswers g s (findAStarAsks t s ptStart ptEnd)) :
    aStarPath t (s.on g) ptStart ptEnd = (aStarPath t s ptStart ptEnd).map (Found.on g) := by
  unfold aStarPath
  rw [findAStar_on h]
  cases findAStar t s ptStart ptEnd with
  | none => rfl
  | some r => exact congrArg some on_builtPath

/-- A block of `FindPath`, whose search depends on the answers to its questions only. -/
theorem searchStage_on {k : Nat} {nReverse : Bool} {b : Search}
    {search : PathFinder → Option (Bool × PathFinder)}
    (hsearch : b.bFindMore = true →
      search (b.finder.on g) = (search b.finder).map (Prod.map id (on g))) :
    searchStage t q k nReverse search (b.on g) =
      (searchStage t q k nReverse search b).map (Search.on g) := by
  unfold searchStage
  -- a stage that is skipped asks nothing
  by_cases hmore : b.bFindMore = true
  · rw [if_pos hmore]
    refine (if_pos hmore).trans ?_
    change (search (b.finder.on g)).bind _ = _
    rw [hsearch hmore]
    cases search b.finder with
    | none => rfl
    | some r =>
      obtain ⟨ret, s₁⟩ := r
      cases ret with
      | false => rfl
      | true => exact congrArg some on_keepPath
  · rw [if_neg hmore]
    exact if_neg hmore

/-- A block that searches from `ptStart`. -/
theorem forwardStage_on {k : Nat} {b : Search}
    (h : b.bFindMore = true → SameAnswers g b.finder (forwardAsks t q b.finder)) :
    forwardStage t q k (b.on g) = (forwardStage t q k b).map (Search.on g) :=
  searchStage_on fun hmore => forwardSearch_on (h hmore)

/-- A block that searches from `ptEnd`. -/
theorem reverseStage_on {k : Nat} {b : Search}
    (h : b.bFindMore = true → SameAnswers g b.finder (reverseAsks t q b.finder)) :
    reverseStage t q k (b.on g) = (reverseStage t q k b).map (Search.on g) :=
  searchStage_on fun hmore => reverseSearch_on (h hmore)

/-- The change of the option between the blocks asks nothing. -/
theorem on_switchStraightway {b : Search} :
    switchStraightway (b.on g) = (switchStraightway b).on g := by
  unfold switchStraightway
  by_cases hmore : b.bFindMore = true
  · rw [if_pos hmore]
    exact if_pos hmore
  · rw [if_neg hmore]
    exact if_neg hmore

/-- What is left of a call after its blocks. -/
theorem finish_on {b : Search} (h : SameAnswers g b.finder (nearestAsks t q b)) :
    finish t q (b.on g) = (finish t q b).map (Found.on g) := by
  unfold nearestAsks at h
  unfold finish
  obtain ⟨s, best, bFindMore⟩ := b
  cases best with
  | some best => rfl
  | none =>
    -- with a path found the last stage does nothing
    dsimp only at h
    by_cases hnearest : hasOption s.nSearchOption optionNearest = true
    · rw [if_pos hnearest] at h
      dsimp only
      rw [if_pos hnearest]
      refine (if_pos hnearest).trans ?_
      change (findPathCore t (s.on g) q.ptStart q.ptEnd).bind _ = _
      rw [findPathCore_on h]
      cases findPathCore t s q.ptStart q.ptEnd with
      | none => rfl
      | some r => exact congrArg some on_builtPath
    · dsimp only
      rw [if_neg hnearest]
      exact if_neg hnearest

/-- The questions of one block, and of those behind it. -/
theorem SameAnswers.collect {own : PathFinder → List Point} {block : Search → Option Search}
    {rest : Search → List Point} {b : Search}
    (hmap : ∀ b', block b = some b' → SameMap b.finder b'.finder)
    (h : SameAnswers g b.finder (collect own block rest b)) :
    (b.bFindMore = true → SameAnswers g b.finder (own b.finder)) ∧
      ∀ b', block b = some b' → SameAnswers g b'.finder (rest b') := by
  constructor
  · exact fun hmore p hp => h p (mem_collect_of_own hmore hp)
  · intro b' hb
    have hrest : SameAnswers g b.finder (rest b') := fun p hp => h p (mem_collect_of_rest hb hp)
    exact hrest.of_sameMap (hmap b' hb)

/-- `FindPath` behind its second block. -/
def behindSecond (t : Params) (q : Query) (b : Search) : Option Found := do
  let b ← forwardStage t q 2 (switchStraightway b)
  let b ← reverseStage t q 3 b
  finish t q b

/-- `FindPath` behind its first block. -/
def behindFirst (t : Params) (q : Query) (b : Search) : Option Found :=
  if b.bFindMore && hasOption q.nOption optionAStar then
    aStarPath t b.finder q.ptStart q.ptEnd
  else do
    let b ← reverseStage t q 1 b
    behindSecond t q b

/-- `FindPath` is its first block and what is behind it, or A* alone. -/
theorem findPath_eq_behindFirst : findPath t s q =
    if hasOption q.nOption optionOnlyAStar then
      aStarPath t (beginSearch s q).finder q.ptStart q.ptEnd
    else
      (forwardStage t q 0 (beginSearch s q)).bind (behindFirst t q) := rfl

/-- A block leaves the map alone, -/
theorem forwardStage_sameMap {k : Nat} {b b' : Search} (h : forwardStage t q k b = some b') :
    SameMap b.finder b'.finder := searchStage_sameMap (fun _ => forwardSearch_sameMap) h

/-- from either side. -/
theorem reverseStage_sameMap {k : Nat} {b b' : Search} (h : reverseStage t q k b = some b') :
    SameMap b.finder b'.finder := searchStage_sameMap (fun _ => reverseSearch_sameMap) h

/-- The third and the fourth block, and the end of the call. -/
theorem behindSecond_on {b : Search} (h : SameAnswers g b.finder
    (collectThird t q (fun _ => forwardAsks t q) (fun _ => reverseAsks t q) (nearestAsks t q)
      (switchStraightway b))) :
    behindSecond t q (b.on g) = (behindSecond t q b).map (Found.on g) := by
  -- the third search, with the straight way switched
  obtain ⟨hown, hrest⟩ := (h.of_sameMap (switchStraightway_sameMap b)).collect
    fun _ => forwardStage_sameMap
  unfold behindSecond
  rw [on_switchStraightway, forwardStage_on hown]
  cases hthird : forwardStage t q 2 (switchStraightway b) with
  | none => rfl
  | some b₃ =>
    -- the fourth, then the last stage
    obtain ⟨hown₃, hrest₃⟩ := (hrest b₃ hthird).collect fun _ => reverseStage_sameMap
    change (reverseStage t q 3 (b₃.on g)).bind _ = ((reverseStage t q 3 b₃).bind _).map _
    rw [reverseStage_on hown₃]
    cases hfourth : reverseStage t q 3 b₃ with
    | none => rfl
    | some b₄ => exact finish_on (hrest₃ b₄ hfourth)

/-- The second block and those behind it, or A* in their place. -/
theorem behindFirst_on {b : Search} (h : SameAnswers g b.finder
    (if b.bFindMore && hasOption q.nOption optionAStar then
      findAStarAsks t b.finder q.ptStart q.ptEnd
    else
      collectSecond t q (fun _ => forwardAsks t q) (fun _ => reverseAsks t q) (nearestAsks t q)
        b)) :
    behindFirst t q (b.on g) = (behindFirst t q b).map (Found.on g) := by
  unfold behindFirst
  -- A* runs in place of the other stages
  by_cases hastar : (b.bFindMore && hasOption q.nOption optionAStar) = true
  · rw [if_pos hastar] at h
    rw [if_pos hastar]
    exact (if_pos hastar).trans (aStarPath_on h)
  · rw [if_neg hastar] at h
    -- without it the reversed search comes next
    obtain ⟨hown, hrest⟩ := h.collect fun _ => reverseStage_sameMap
    rw [if_neg hastar]
    refine (if_neg hastar).trans ?_
    rw [reverseStage_on hown]
    cases hsecond : reverseStage t q 1 b with
    | none => rfl
    | some b₂ => exact behindSecond_on (hrest b₂ hsecond)

/-- The beginning of a call asks nothing. -/
theorem on_beginSearch : beginSearch (s.on g) q = (beginSearch s q).on g := rfl

/-- A call depends on the answers to its questions only. -/
theorem findPath_on (h : SameAnswers g s (findPathAsks t s q)) :
    findPath t (s.on g) q = (findPath t s q).map (Found.on g) := by
  have hbegin := h.of_sameMap (beginSearch_sameMap s q)
  unfold findPathAsks at hbegin
  rw [findPath_eq_behindFirst, findPath_eq_behindFirst, on_beginSearch]
  -- A* alone, or the stages one by one
  by_cases honly : hasOption q.nOption optionOnlyAStar = true
  · rw [if_pos honly] at hbegin
    rw [if_pos honly, if_pos honly]
    exact aStarPath_on hbegin
  · rw [if_neg honly] at hbegin
    obtain ⟨hown, hrest⟩ := hbegin.collect fun _ => forwardStage_sameMap
    rw [if_neg honly, if_neg honly]
    rw [forwardStage_on hown]
    cases hfirst : forwardStage t q 0 (beginSearch s q) with
    | none => rfl
    | some b₁ => exact behindFirst_on (hrest b₁ hfirst)

end XGame3.PathFinder
