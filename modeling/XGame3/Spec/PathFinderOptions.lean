import Mathlib.Tactic.Simps.Basic
import XGame3.Native.PathFinder
import XGame3.Spec.PathFinderLockstep

/-!
# Options that a search does not test

Between its beginning and its end a search tests two of the options, optimise and
straight-way.  Under another option word that agrees on these it does the same, and leaves
the same behind except for the word itself.

Key results:
- `withOption_*`: what does not depend on the option word.
- `Respelled.findPathCore`: a search under another option word.
- `Respelled.connectCorners`, `Respelled.forwardStage`: what follows the first search.
-/

namespace XGame3.PathFinder

open FixedInt Loop

variable {t : Params} {s s' : PathFinder} {o o' : Nat} {ptStart ptEnd : Point}

/-! ## The option word -/

/-- The state under another option word. -/
@[simps -fullyApplied]
def withOption (s : PathFinder) (nOption : Nat) : PathFinder := { s with nSearchOption := nOption }

/-- The count left for the loops does not look at the word. -/
@[simp] theorem withOption_stepsLeft : (s.withOption o').stepsLeft = s.stepsLeft := rfl

/-- A tile has its tag whatever the word is. -/
@[simp] theorem withOption_getTileTag (p : Point) :
    (s.withOption o').getTileTag t p = s.getTileTag t p := rfl

/-- A tag has its tile whatever the word is. -/
@[simp] theorem withOption_tileToPoint (tag : Nat) :
    (s.withOption o').tileToPoint t tag = s.tileToPoint t tag := rfl

/-- The map answers alike, -/
@[simp] theorem withOption_isBlock (p : Point) : (s.withOption o').isBlock p = s.isBlock p := rfl

/-- also about a diagonal move. -/
@[simp] theorem withOption_isBevelBlock (p q : Point) :
    (s.withOption o').isBevelBlock p q = s.isBevelBlock p q := rfl

/-- The marks are the same. -/
@[simp] theorem withOption_isTileVisited (tag : Nat) (dir : Int) :
    (s.withOption o').isTileVisited tag dir = s.isTileVisited tag dir := rfl

/-- `IsCanApproach` tests no option. -/
@[simp] theorem withOption_isCanApproach (p q : Point) :
    (s.withOption o').isCanApproach t p q = s.isCanApproach t p q := rfl

/-- The corners are visited in the same order. -/
@[simp] theorem withOption_nextCorner (dwVisited : Nat) :
    (s.withOption o').nextCorner dwVisited = s.nextCorner dwVisited := rfl

/-- The step counter under another word. -/
@[simp] theorem withOption_counted : (s.withOption o').counted = s.counted.withOption o' := rfl

/-- A step under another word. -/
@[simp] theorem withOption_stepOnto (tag : Nat) (dir : Int) (parent : Option Nat) (bAround : Nat) :
    (s.withOption o').stepOnto tag dir parent bAround =
      (s.stepOnto tag dir parent bAround).withOption o' := rfl

/-- The first tile of a walk under another word. -/
@[simp] theorem withOption_makeRoot (tag : Nat) :
    (s.withOption o').makeRoot tag = (s.makeRoot tag).withOption o' := by
  unfold makeRoot
  rw [withOption_tileTags, withOption_nFind]
  split <;> rfl

/-- A corner recorded under another word. -/
@[simp] theorem withOption_recordCorner (p : Point) :
    (s.withOption o').recordCorner t p = (s.recordCorner t p).withOption o' := by
  have hnext : ∀ (r : PathFinder) (corner : Nat) (ahead : Point → Point → Bool),
      (r.withOption o').recordCornerAt t p corner ahead =
        (r.recordCornerAt t p corner ahead).withOption o' := by
    intro r corner ahead
    unfold recordCornerAt
    rw [withOption_corners, withOption_nCornerFlag]
    split <;> rfl
  unfold recordCorner
  simp only [hnext]

/-! ## The relation -/

/-- The tests of a search come out the same under both option words. -/
structure SameTests (o o' : Nat) : Prop where
  optimize : hasOption o' optionOptimize = hasOption o optionOptimize
  straightway : hasOption o' optionStraightway = hasOption o optionStraightway

/-- The same state under two option words. -/
def Respelled (o o' : Nat) (s s' : PathFinder) : Prop := s.nSearchOption = o ∧ s' = s.withOption o'

/-- The same result under two option words. -/
def ResultRespelled (o o' : Nat) (r r' : Bool × PathFinder) : Prop :=
  r'.1 = r.1 ∧ Respelled o o' r.2 r'.2

/-- The same walk under two option words. -/
def WalkRespelled (o o' : Nat) (w w' : Walk) : Prop :=
  w.finder.nSearchOption = o ∧ w' = { w with finder := w.finder.withOption o' }

/-! ## Approach -/

/-- One iteration of `Approach`, which tests no option. -/
theorem approachBody_respelled {w w' : Walk} (h : WalkRespelled o o' w w') :
    Option.Rel (Sum.LiftRel (WalkRespelled o o') (ResultRespelled o o')) (approachBody t ptEnd w)
      (approachBody t ptEnd w') := by
  obtain ⟨ho, rfl⟩ := h
  have hstop : ∀ ret, Option.Rel (Sum.LiftRel (WalkRespelled o o') (ResultRespelled o o'))
      (some (.inr (ret, w.finder.counted))) (some (.inr (ret, w.finder.counted.withOption o'))) :=
    fun _ => .some (.inr ⟨rfl, ho, rfl⟩)
  unfold approachBody
  dsimp only
  rw [withOption_counted, withOption_nStepCount, withOption_nMaxStep]
  split
  · apply rel_bind_same
    intro ptNext _
    rw [withOption_getTileTag]
    match w.finder.counted.getTileTag t ptNext with
    | none => exact hstop false
    | some i =>
      dsimp only
      rw [withOption_isTileVisited]
      split
      · exact hstop false
      · rw [withOption_isBevelBlock, withOption_isBlock]
        apply rel_bind_same
        intro isBevel _
        apply rel_bind_same
        intro block _
        split
        · -- the next tile is blocked
          split
          · exact hstop true
          · exact .some (.inr ⟨rfl, ho, rfl⟩)
        · -- the next tile is entered
          split
          · exact .some (.inr ⟨rfl, ho, rfl⟩)
          · exact .some (.inl ⟨ho, rfl⟩)
  · exact hstop false

/-- A call of `Approach`. -/
theorem Respelled.approach (h : Respelled o o' s s') (p : Point) :
    Option.Rel (ResultRespelled o o') (PathFinder.approach t s p ptEnd)
      (PathFinder.approach t s' p ptEnd) := by
  obtain ⟨ho, rfl⟩ := h
  unfold PathFinder.approach
  split
  · exact .some ⟨rfl, ho, rfl⟩
  · rw [withOption_getTileTag]
    match s.getTileTag t p with
    | none => exact .some ⟨rfl, ho, rfl⟩
    | some i =>
      dsimp only
      rw [withOption_makeRoot, withOption_stepsLeft]
      apply rel_loopResult (R := WalkRespelled o o')
      apply run_rel fun _ _ hw => approachBody_respelled hw
      exact ⟨(makeRoot_kept s i).nSearchOption.trans ho, rfl⟩

/-! ## Around -/

/-- The same detour under two option words. -/
def DetourRespelled (o o' : Nat) (d d' : Detour) : Prop :=
  d.finder.nSearchOption = o ∧ d' = { d with finder := d.finder.withOption o' }

/-- One iteration of `Around`, which tests straight-way. -/
theorem aroundBody_respelled (htests : SameTests o o') {ptLoc : Point} {nTurnDir : Turn}
    {d d' : Detour} (h : DetourRespelled o o' d d') :
    Option.Rel (Sum.LiftRel (DetourRespelled o o') (ResultRespelled o o'))
      (aroundBody t ptLoc nTurnDir ptEnd d) (aroundBody t ptLoc nTurnDir ptEnd d') := by
  obtain ⟨ho, rfl⟩ := h
  have hstop : Option.Rel (Sum.LiftRel (DetourRespelled o o') (ResultRespelled o o'))
      (some (.inr (false, d.finder.counted)))
        (some (.inr (false, d.finder.counted.withOption o'))) :=
    .some (.inr ⟨rfl, ho, rfl⟩)
  unfold aroundBody
  dsimp only
  rw [withOption_counted, withOption_nStepCount, withOption_nMaxStep]
  split
  · apply rel_bind_same
    intro ptNext _
    rw [withOption_getTileTag]
    match d.finder.counted.getTileTag t ptNext with
    | none => exact hstop
    | some i =>
      dsimp only
      rw [withOption_isTileVisited]
      split
      · exact hstop
      · rw [withOption_isBevelBlock, withOption_isBlock]
        apply rel_bind_same
        intro block _
        apply rel_bind_same
        intro isBevel _
        split
        · -- the tile in front is marked
          split
          · exact .some (.inr ⟨rfl, ho, rfl⟩)
          · exact .some (.inl ⟨ho, rfl⟩)
        · -- the step is taken, and the straight-way test is the same
          have hoption : (d.finder.counted.stepOnto i d.nMoveDir d.pParent 1).nSearchOption = o :=
            ho
          rw [withOption_stepOnto, withOption_nSearchOption, withOption_isCanApproach, hoption,
            htests.straightway]
          apply rel_bind_same
          intro bReturn _
          split
          · exact .some (.inr ⟨rfl, ho, rfl⟩)
          · apply rel_bind_same
            intro ptAround _
            rw [withOption_isBevelBlock, withOption_isBlock]
            apply rel_bind_same
            intro isBevel _
            apply rel_bind_same
            intro block _
            split
            · exact .some (.inl ⟨ho, rfl⟩)
            · exact .some (.inl ⟨ho, rfl⟩)
  · exact hstop

/-- A call of `Around`. -/
theorem Respelled.around (h : Respelled o o' s s') (htests : SameTests o o') (a : AroundPoint) :
    Option.Rel (ResultRespelled o o') (PathFinder.around t s a ptEnd)
      (PathFinder.around t s' a ptEnd) := by
  obtain ⟨ho, rfl⟩ := h
  unfold PathFinder.around
  rw [withOption_stepsLeft, withOption_getTileTag]
  apply rel_loopResult (R := DetourRespelled o o')
  apply run_rel fun _ _ hd => aroundBody_respelled htests hd
  exact ⟨ho, rfl⟩

/-! ## The core -/

/-- The detours of the queue, where a corner is recorded if the search optimizes. -/
theorem drainAround_respelled (htests : SameTests o o') {queue : List AroundPoint}
    (h : Respelled o o' s s') :
    Option.Rel (fun r r' => r'.1 = r.1 ∧ Respelled o o' r.2 r'.2) (drainAround t ptEnd queue s)
      (drainAround t ptEnd queue s') := by
  induction queue generalizing s s' with
  | nil => exact .some ⟨rfl, h⟩
  | cons a queue ih =>
    obtain ⟨ho, rfl⟩ := h
    have hqueue : Respelled o o' { s with aroundQueue := queue }
        { s.withOption o' with aroundQueue := queue } := ⟨ho, rfl⟩
    apply rel_bind (hqueue.around htests a)
    rintro ⟨ret, r⟩ ⟨ret', r'⟩ ⟨hret, ho₁, hr'⟩
    dsimp only at hret ho₁ hr'
    subst hret hr'
    dsimp only
    split
    · -- the corner is recorded under both words or under neither
      rw [withOption_pNearestTile]
      apply rel_bind_same
      intro i _
      rw [withOption_nSearchOption, withOption_tileToPoint, withOption_recordCorner, ho₁,
        htests.optimize]
      split
      · exact .some ⟨rfl, (recordCorner_sameTags r (r.tileToPoint t i)).nSearchOption.trans ho₁,
          rfl⟩
      · exact .some ⟨rfl, ho₁, rfl⟩
    · exact ih ⟨ho₁, rfl⟩

/-- The same tile to approach from, under two option words. -/
def CallRespelled (o o' : Nat) (c c' : Point × PathFinder) : Prop :=
  c'.1 = c.1 ∧ Respelled o o' c.2 c'.2

/-- An iteration of the outer loop of `FindPathCore`. -/
theorem coreBody_respelled (htests : SameTests o o') {c c' : Point × PathFinder}
    (h : CallRespelled o o' c c') :
    Option.Rel (Sum.LiftRel (CallRespelled o o') (ResultRespelled o o')) (coreBody t ptEnd c)
      (coreBody t ptEnd c') := by
  obtain ⟨hpoint, hstate⟩ := h
  unfold coreBody
  rw [hpoint]
  -- the approach reads no option
  apply rel_bind (hstate.approach c.1)
  rintro ⟨ret, r⟩ ⟨_, _⟩ ⟨rfl, h₁⟩
  dsimp only at h₁ ⊢
  split
  · exact .some (.inr ⟨rfl, h₁⟩)
  · obtain ⟨ho₁, rfl⟩ := h₁
    rw [withOption_aroundQueue]
    -- the detours read only the tests that agree
    apply rel_bind (drainAround_respelled htests ⟨ho₁, rfl⟩)
    rintro ⟨_, d⟩ ⟨found, d'⟩ ⟨rfl, h₂⟩
    match found with
    | none => exact .some (.inr ⟨rfl, h₂⟩)
    | some p => exact .some (.inl ⟨rfl, h₂⟩)

/-- The beginning of a search, which tests optimise. -/
theorem Respelled.coreStart (h : Respelled o o' s s') (htests : SameTests o o')
    (ptStart ptEnd : Point) :
    Respelled o o' (PathFinder.coreStart t s ptStart ptEnd)
      (PathFinder.coreStart t s' ptStart ptEnd) := by
  obtain ⟨ho, rfl⟩ := h
  unfold PathFinder.coreStart
  dsimp only
  rw [withOption_nSearchOption, ho, htests.optimize]
  split
  · exact ⟨rfl, rfl⟩
  · exact ⟨rfl, rfl⟩

/-- A search under another option word. -/
theorem Respelled.findPathCore (h : Respelled o o' s s') (htests : SameTests o o')
    (ptStart ptEnd : Point) :
    Option.Rel (ResultRespelled o o') (PathFinder.findPathCore t s ptStart ptEnd)
      (PathFinder.findPathCore t s' ptStart ptEnd) := by
  have hbegin := h.coreStart (t := t) htests ptStart ptEnd
  have hsteps : (PathFinder.coreStart t s' ptStart ptEnd).stepsLeft =
      (PathFinder.coreStart t s ptStart ptEnd).stepsLeft := by
    rw [hbegin.2, withOption_stepsLeft]
  unfold PathFinder.findPathCore
  dsimp only
  rw [hsteps]
  apply rel_loopResult (R := CallRespelled o o')
  apply run_rel fun _ _ hc => coreBody_respelled htests hc
  exact ⟨rfl, hbegin⟩

/-! ## Connecting the corners -/

/-- One iteration of `ConnectDirect`, which tests no option. -/
theorem connectBody_respelled {w w' : Walk} (h : WalkRespelled o o' w w') :
    Option.Rel (Sum.LiftRel (WalkRespelled o o') (ResultRespelled o o')) (connectBody t ptEnd w)
      (connectBody t ptEnd w') := by
  obtain ⟨ho, rfl⟩ := h
  have hstop : Option.Rel (Sum.LiftRel (WalkRespelled o o') (ResultRespelled o o'))
      (some (.inr (false, w.finder.counted)))
        (some (.inr (false, w.finder.counted.withOption o'))) :=
    .some (.inr ⟨rfl, ho, rfl⟩)
  unfold connectBody
  dsimp only
  rw [withOption_counted, withOption_nStepCount, withOption_nMaxStep]
  split
  · apply rel_bind_same
    intro ptNext _
    rw [withOption_getTileTag]
    match w.finder.counted.getTileTag t ptNext with
    | none => exact hstop
    | some i =>
      dsimp only
      -- a tag of this search is linked first
      have hlinked : Respelled o o'
          (if (w.finder.counted.tileTags i).nFindID = w.finder.counted.nFind then
            w.finder.counted.modifyTag i fun old => { old with pParent := w.pParent }
          else w.finder.counted)
          (if ((w.finder.counted.withOption o').tileTags i).nFindID =
              (w.finder.counted.withOption o').nFind then
            (w.finder.counted.withOption o').modifyTag i fun old =>
              { old with pParent := w.pParent }
          else w.finder.counted.withOption o') := by
        rw [withOption_tileTags, withOption_nFind]
        split <;> exact ⟨ho, rfl⟩
      obtain ⟨ho₁, heq⟩ := hlinked
      rw [heq]
      generalize (if (w.finder.counted.tileTags i).nFindID = w.finder.counted.nFind then
        w.finder.counted.modifyTag i fun old => { old with pParent := w.pParent }
        else w.finder.counted) = s₁ at ho₁ ⊢
      rw [withOption_isBevelBlock, withOption_isBlock]
      apply rel_bind_same
      intro bNextBlock _
      apply rel_bind_same
      intro block _
      split
      · exact .some (.inr ⟨rfl, ho₁, rfl⟩)
      · split
        · exact .some (.inr ⟨rfl, ho₁, rfl⟩)
        · exact .some (.inl ⟨ho₁, rfl⟩)
  · exact hstop

/-- A call of `ConnectDirect`. -/
theorem Respelled.connectDirect (h : Respelled o o' s s') (p : Point) :
    Option.Rel (ResultRespelled o o') (PathFinder.connectDirect t s p ptEnd)
      (PathFinder.connectDirect t s' p ptEnd) := by
  obtain ⟨ho, rfl⟩ := h
  unfold PathFinder.connectDirect
  split
  · exact .some ⟨rfl, ho, rfl⟩
  · rw [withOption_getTileTag]
    match s.getTileTag t p with
    | none => exact .some ⟨rfl, ho, rfl⟩
    | some i =>
      dsimp only
      rw [withOption_makeRoot, withOption_stepsLeft]
      apply rel_loopResult (R := WalkRespelled o o')
      apply run_rel fun _ _ hw => connectBody_respelled hw
      exact ⟨(makeRoot_kept s i).nSearchOption.trans ho, rfl⟩

/-- The lines between the corners. -/
theorem Respelled.connectFrom {left dwVisited : Nat} (h : Respelled o o' s s') (p : Point) :
    Option.Rel (Respelled o o') (PathFinder.connectFrom t left s p dwVisited)
      (PathFinder.connectFrom t left s' p dwVisited) := by
  induction left generalizing s s' p dwVisited with
  | zero => exact .none
  | succ left ih =>
    unfold PathFinder.connectFrom
    rw [h.2, withOption_nextCorner]
    rcases s.nextCorner dwVisited with ⟨_ | index, dwMinCorner⟩
    · -- no corner is left
      exact .some ⟨h.1, rfl⟩
    · dsimp only
      rw [withOption_corners]
      apply rel_bind (h.2 ▸ h.connectDirect p)
      exact fun _ _ hr => ih hr.2 _

/-- The corners are connected under both option words or under neither. -/
theorem Respelled.optimizeCorners {q : Query} (h : Respelled q.nOption o' s s')
    (htests : SameTests q.nOption o') (p : Point) :
    Option.Rel (Respelled q.nOption o') (PathFinder.optimizeCorners t q s p)
      (PathFinder.optimizeCorners t { q with nOption := o' } s' p) := by
  have hlimit : Query.nPathLenLimit { q with nOption := o' } = q.nPathLenLimit := rfl
  have hcount : s'.nStepCount = s.nStepCount := by rw [h.2, withOption_nStepCount]
  unfold PathFinder.optimizeCorners
  rw [hlimit, hcount, htests.optimize]
  split
  · exact h.connectFrom p
  · exact .some h

/-! ## The first search and its path -/

/-- The search of a block from `ptStart`, with its lines. -/
theorem Respelled.forwardSearch {q : Query} (h : Respelled q.nOption o' s s')
    (htests : SameTests q.nOption o') :
    Option.Rel (ResultRespelled q.nOption o') (PathFinder.forwardSearch t q s)
      (PathFinder.forwardSearch t { q with nOption := o' } s') := by
  apply rel_bind (h.findPathCore htests q.ptStart q.ptEnd)
  rintro ⟨_, r⟩ ⟨ret, r'⟩ ⟨rfl, h₁⟩
  match ret with
  | false => exact .some ⟨rfl, h₁⟩
  | true =>
    apply rel_bind (h₁.optimizeCorners htests q.ptStart)
    exact fun _ _ h₂ => .some ⟨rfl, h₂⟩

/-- `BuildPath` follows the parents, whatever the word is. -/
theorem withOption_buildLoop (nBufSize left : Nat) (nReverse optmize : Bool) (nearest : Option Nat)
    (nPathLen : Nat) (buf : Nat → Point) :
    buildLoop t (s.withOption o') nBufSize nReverse optmize left nearest nPathLen buf =
      buildLoop t s nBufSize nReverse optmize left nearest nPathLen buf := by
  induction left generalizing nearest nPathLen buf with
  | zero => rfl
  | succ left ih =>
    match nearest with
    | none => rfl
    | some tag =>
      unfold buildLoop
      dsimp only
      rw [withOption_tileTags, withOption_tileToPoint, ih]

/-- It leaves the word as it is. -/
theorem withOption_buildPath (k : Nat) (nReverse optmize : Bool) :
    (s.withOption o').buildPath t k nReverse optmize =
      ((s.buildPath t k nReverse optmize).1,
        (s.buildPath t k nReverse optmize).2.withOption o') := by
  unfold buildPath
  dsimp only
  rw [withOption_buildLoop]
  rfl

/-- The same locals of `FindPath` under two option words. -/
structure SearchRespelled (o o' : Nat) (b b' : Search) : Prop where
  finder : Respelled o o' b.finder b'.finder
  best : b'.best = b.best
  bFindMore : b'.bFindMore = b.bFindMore

/-- A path that is kept as the shortest so far. -/
theorem keepPath_respelled {q : Query} {k : Nat} {nReverse : Bool} {best : Option Shortest}
    (h : Respelled q.nOption o' s s') (htests : SameTests q.nOption o') :
    SearchRespelled q.nOption o' (keepPath t q k nReverse best s)
      (keepPath t { q with nOption := o' } k nReverse best s') := by
  have hlimit : Query.nPathLenLimit { q with nOption := o' } = q.nPathLenLimit := rfl
  obtain ⟨ho, rfl⟩ := h
  unfold keepPath
  dsimp only
  rw [withOption_buildPath, hlimit, htests.optimize]
  split
  · exact ⟨⟨ho, rfl⟩, rfl, rfl⟩
  · exact ⟨⟨ho, rfl⟩, rfl, rfl⟩

/-- A block that searches from `ptStart`, under another option word. -/
theorem SearchRespelled.forwardStage {q : Query} {k : Nat} {b b' : Search}
    (h : SearchRespelled q.nOption o' b b') (htests : SameTests q.nOption o') :
    Option.Rel (SearchRespelled q.nOption o') (PathFinder.forwardStage t q k b)
      (PathFinder.forwardStage t { q with nOption := o' } k b') := by
  unfold PathFinder.forwardStage searchStage
  rw [h.bFindMore, h.best]
  split
  · apply rel_bind (h.finder.forwardSearch htests)
    rintro ⟨_, r⟩ ⟨ret, r'⟩ ⟨rfl, h₁⟩
    match ret with
    | true => exact .some (keepPath_respelled h₁ htests)
    | false => exact .some ⟨h₁, rfl, rfl⟩
  · exact .some h

end XGame3.PathFinder
