import XGame3.Spec.AStarReachable
import XGame3.Spec.PathFinderIndependent

/-!
# A* in lockstep

`FindAStar` writes both bytes of the union and the parent when it first touches a tag, so on
tags that an earlier search has left behind it does step by step what it does on new ones.

Key results:
- `expand_together`: the loop over the eight directions
- `findAStar_together`: a whole search, from a start inside the map
-/

namespace XGame3.PathFinder

open Loop

variable {t : Params} {s s' s₁ s₁' : PathFinder} {ptStart ptEnd : Point}

/-! ## Tags -/

/-- The tile, if it has a tag, was touched in the search. -/
def TileTouched (t : Params) (s : PathFinder) (p : Point) : Prop :=
  ∀ i, s.getTileTag t p = some i → s.Carries i

/-- A touched tile stays touched while tags are only rewritten. -/
theorem TileTouched.mono {p : Point} (h : TileTouched t s p) (hre : Retouched s s₁) :
    TileTouched t s₁ p :=
  fun i hi => hre.carries i (h i ((hre.toSameSearch.getTileTag p).symm.trans hi))

/-- The tags of the window that were touched in the search. -/
def Inside (t : Params) (s : PathFinder) (tag : Nat) : Prop := InWindow t tag ∧ s.Carries tag

/-- Both sides write the same parent and step to a tag. -/
theorem Alike.touch (h : Alike t (Inside t s) s s') {i : Nat} {p : Point} (hp : p.InRange)
    (hi : s.getTileTag t p = some i) {g g' : TileTag → TileTag}
    (hfind : (g (s.tileTags i)).nFindID = s.nFind)
    (hfind' : (g' (s'.tileTags i)).nFindID = s'.nFind)
    (hparent : (g' (s'.tileTags i)).pParent = (g (s.tileTags i)).pParent)
    (hdir : (g' (s'.tileTags i)).nMoveDir = (g (s.tileTags i)).nMoveDir)
    (haround : (g' (s'.tileTags i)).bAround = (g (s.tileTags i)).bAround)
    (hknown : ∀ j, (g (s.tileTags i)).pParent = some j → Inside t s j) :
    Alike t (Inside t (s.modifyTag i g)) (s.modifyTag i g) (s'.modifyTag i g') := by
  apply h.modify hfind hfind' hparent hdir _ _ _ fun _ => haround
  · exact (Placed.of_tag hp hi).tag
  · exact fun j hj => ⟨hknown j hj, (hknown j hj).2⟩
  · exact fun j hj => hj.imp_right ((Retouched.modifyTag hfind).carries j)
  · intro j ⟨hin, hj⟩
    cases (modifyTag_carries hfind).1 hj with
    | inl heq => exact .inr heq
    | inr hold => exact .inl ⟨hin, hold⟩

/-! ## One expansion -/

/-- Two expansions of the tile with the tag `pCurrent`, with the same tiles queued. -/
structure ExpansionTogether (t : Params) (pCurrent : Nat) (openList : List (Nat × Point))
    (e e' : Expansion) : Prop where
  alike : Alike t (Inside t e.finder) e.finder e'.finder
  nNearestDist : e'.nNearestDist = e.nNearestDist
  blockNum : e'.blockNum = e.blockNum
  visitedNum : e'.visitedNum = e.visitedNum
  found : e'.found = e.found
  nearest : ∀ i, e.finder.pNearestTile = some i → Inside t e.finder i
  current : Inside t e.finder pCurrent
  opened : ∀ p, Opened openList p → TileTouched t e.finder p
  tiles : ∀ g ∈ e.found, TileTouched t e.finder g.2.2

section

variable {pCurrent step : Nat} {openList : List (Nat × Point)} {e e' : Expansion}

/-- A tag of the search is given the parent and the step of the expansion. -/
theorem ExpansionTogether.touch (h : ExpansionTogether t pCurrent openList e e') {i : Nat}
    {p : Point} (hp : p.InRange) (hi : e.finder.getTileTag t p = some i) {g g' : TileTag → TileTag}
    (hg : g (e.finder.tileTags i) =
      { e.finder.tileTags i with nFindID := e.finder.nFind, pParent := some pCurrent }.setStep step)
    (hg' : g' (e'.finder.tileTags i) =
      { e'.finder.tileTags i with nFindID := e'.finder.nFind, pParent := some pCurrent }.setStep
        step) :
    ExpansionTogether t pCurrent openList { e with finder := e.finder.modifyTag i g }
      { e' with finder := e'.finder.modifyTag i g' } ∧
    Retouched e.finder (e.finder.modifyTag i g) := by
  have hfind : (g (e.finder.tileTags i)).nFindID = e.finder.nFind := by rw [hg]; rfl
  have hre : Retouched e.finder (e.finder.modifyTag i g) := .modifyTag hfind
  -- the tags agree on the tile written, and its parent is one both know
  have halike : Alike t (Inside t (e.finder.modifyTag i g)) (e.finder.modifyTag i g)
      (e'.finder.modifyTag i g') := by
    apply h.alike.touch hp hi hfind
    · rw [hg']; rfl
    · rw [hg, hg']; rfl
    · rw [hg, hg']; rfl
    · rw [hg, hg']; rfl
    · intro j hj
      rw [hg] at hj
      exact Option.some.inj hj ▸ h.current
  exact ⟨⟨halike, h.nNearestDist, h.blockNum, h.visitedNum, h.found,
    fun j hj => (h.nearest j hj).imp_right (hre.carries j), h.current.imp_right (hre.carries _),
    fun q hq => (h.opened q hq).mono hre, fun f hf => (h.tiles f hf).mono hre⟩, hre⟩

/-- The parent of a tag that was touched before is changed before the tile is tested. -/
theorem ExpansionTogether.relink (h : ExpansionTogether t pCurrent openList e e') (step : Nat)
    {i : Nat} {p : Point} (hp : p.InRange) (hi : e.finder.getTileTag t p = some i) :
    let s₁ := if (e.finder.tileTags i).nFindID = e.finder.nFind then
      e.finder.modifyTag i fun old => { old with pParent := some pCurrent }.setStep step
      else e.finder
    let s₁' := if (e'.finder.tileTags i).nFindID = e'.finder.nFind then
      e'.finder.modifyTag i fun old => { old with pParent := some pCurrent }.setStep step
      else e'.finder
    ExpansionTogether t pCurrent openList { e with finder := s₁ } { e' with finder := s₁' } ∧
      Retouched e.finder s₁ := by
  dsimp only
  -- the tile belongs to both searches or to neither
  have hiff : (e'.finder.tileTags i).nFindID = e'.finder.nFind ↔
      (e.finder.tileTags i).nFindID = e.finder.nFind := h.alike.carries i (getTileTag_lt hi)
  by_cases hc : (e.finder.tileTags i).nFindID = e.finder.nFind
  -- linked anew in both
  · have hc' := hiff.2 hc
    rw [if_pos hc, if_pos hc']
    apply h.touch hp hi
    · rw [← hc]
    · rw [← hc']
  -- untouched in both
  · rw [if_neg hc, if_neg fun hc' => hc (hiff.1 hc')]
    exact ⟨h, .refl _⟩

/-- A free tile is entered. -/
theorem ExpansionTogether.enter (h : ExpansionTogether t pCurrent openList e e') (step : Nat)
    {i : Nat} {p : Point} (hp : p.InRange) (hi : e.finder.getTileTag t p = some i) :
    let s₁ := e.finder.modifyTag i fun old =>
      { old with nFindID := e.finder.nFind, pParent := some pCurrent }.setStep step
    let s₁' := e'.finder.modifyTag i fun old =>
      { old with nFindID := e'.finder.nFind, pParent := some pCurrent }.setStep step
    ExpansionTogether t pCurrent openList { e with finder := s₁ } { e' with finder := s₁' } ∧
      Inside t s₁ i ∧ TileTouched t s₁ p := by
  dsimp only
  -- both write the same tag, so the tile is inside from now on
  obtain ⟨hnext, hre⟩ : ExpansionTogether t pCurrent openList
      { e with finder := e.finder.modifyTag i fun old =>
        { old with nFindID := e.finder.nFind, pParent := some pCurrent }.setStep step }
      { e' with finder := e'.finder.modifyTag i fun old =>
        { old with nFindID := e'.finder.nFind, pParent := some pCurrent }.setStep step } ∧
      Retouched e.finder (e.finder.modifyTag i fun old =>
        { old with nFindID := e.finder.nFind, pParent := some pCurrent }.setStep step) :=
    h.touch hp hi rfl rfl
  have hc : (e.finder.modifyTag i fun old =>
      { old with nFindID := e.finder.nFind, pParent := some pCurrent }.setStep step).Carries i :=
    (modifyTag_carries rfl).2 (.inl rfl)
  refine ⟨hnext, ⟨getTileTag_lt hi, hc⟩, ?_⟩
  intro j hj
  obtain rfl := Option.some.inj (hi.symm.trans ((hre.toSameSearch.getTileTag p).symm.trans hj))
  exact hc

/-- Finders that are alike agree on the steps of the tiles they carry. -/
theorem Alike.nStep (h : Alike t (Inside t s) s s') {i : Nat} (hi : InWindow t i)
    (hc : s.Carries i) :
    (s'.tileTags i).nStep = (s.tileTags i).nStep := by
  unfold TileTag.nStep
  rw [(h.tag i hi hc).2, h.around i ⟨hi, hc⟩]

/-- Trying one direction keeps two expansions together, -/
theorem expandDir_together {ptTile : Point} {dir : Nat}
    (h : ExpansionTogether t pCurrent openList e e') :
    Option.Rel (ExpansionTogether t pCurrent openList)
      (expandDir t ptTile ptEnd pCurrent step dir e)
      (expandDir t ptTile ptEnd pCurrent step dir e') := by
  unfold expandDir
  apply rel_bind_same
  intro ptNext hmove
  rw [h.alike.getTileTag]
  match htag : e.finder.getTileTag t ptNext with
  | none => exact .some h
  | some i =>
    dsimp only
    have hin : ptNext.InRange := moveNext_inRange hmove
    have hwin : InWindow t i := getTileTag_lt htag
    have hiff : (e'.finder.tileTags i).nFindID = e'.finder.nFind ↔
        (e.finder.tileTags i).nFindID = e.finder.nFind := h.alike.carries i hwin
    have hvisited : ((e'.finder.tileTags i).nFindID = e'.finder.nFind ∧
        ¬ (e'.finder.tileTags i).nStep > step) ↔
        ((e.finder.tileTags i).nFindID = e.finder.nFind ∧
          ¬ (e.finder.tileTags i).nStep > step) := by
      rw [hiff]
      apply and_congr_right
      intro hc
      rw [h.alike.nStep hwin hc]
    rw [(h.alike.tag pCurrent h.current.1 h.current.2).1, if_congr hvisited rfl rfl]
    split
    · -- the way back
      exact .some h
    · split
      · -- found before, and not by more steps
        refine .some ⟨h.alike, h.nNearestDist, h.blockNum, ?_, h.found, h.nearest, h.current,
          h.opened, h.tiles⟩
        exact congrArg (· + 1) h.visitedNum
      · have hfirst := h.relink step hin htag
        dsimp only at hfirst
        -- a shorter way is recorded on both sides or on neither
        generalize (if (e.finder.tileTags i).nFindID = e.finder.nFind then
          e.finder.modifyTag i fun old => { old with pParent := some pCurrent }.setStep step
          else e.finder) = s₁ at hfirst ⊢
        generalize (if (e'.finder.tileTags i).nFindID = e'.finder.nFind then
          e'.finder.modifyTag i fun old => { old with pParent := some pCurrent }.setStep step
          else e'.finder) = s₁' at hfirst ⊢
        obtain ⟨h₁, hre⟩ := hfirst
        have htag₁ : s₁.getTileTag t ptNext = some i := (hre.toSameSearch.getTileTag _).trans htag
        rw [h₁.alike.isBevelBlock, h₁.alike.isBlock]
        apply rel_bind_same
        intro bNextBlock _
        apply rel_bind_same
        intro block _
        split
        · -- the move is blocked
          refine .some ⟨h₁.alike, h₁.nNearestDist, ?_, h₁.visitedNum, h₁.found, h₁.nearest,
            h₁.current, h₁.opened, h₁.tiles⟩
          exact congrArg (· + 1) h.blockNum
        · -- the tile is entered
          rw [h.nNearestDist, h.visitedNum, h.blockNum, h.found]
          obtain ⟨h₂, htouched⟩ := h₁.enter step hin htag₁
          generalize (s₁.modifyTag i fun old =>
            { old with nFindID := s₁.nFind, pParent := some pCurrent }.setStep step) = s₂
            at h₂ htouched ⊢
          generalize (s₁'.modifyTag i fun old =>
            { old with nFindID := s₁'.nFind, pParent := some pCurrent }.setStep step) = s₂'
            at h₂ htouched ⊢
          have htiles : ∀ dist, ∀ g ∈ e.found ++ [(dir, dist, ptNext)], TileTouched t s₂ g.2.2 := by
            intro dist g hg
            cases List.mem_append.1 hg with
            | inl hold => exact h₂.tiles g hold
            | inr hnew => exact List.mem_singleton.1 hnew ▸ htouched.2
          split
          · refine .some ⟨h₂.alike.setNearest (some i), rfl, rfl, rfl, rfl, ?_, h₂.current,
              h₂.opened, htiles _⟩
            intro j hj
            exact Option.some.inj hj ▸ htouched.1
          · exact .some ⟨h₂.alike, rfl, rfl, rfl, rfl, h₂.nearest, h₂.current, h₂.opened, htiles _⟩

/-- and so does trying a list of them. -/
theorem expand_together {ptTile : Point} {dirs : List Nat}
    (h : ExpansionTogether t pCurrent openList e e') :
    Option.Rel (ExpansionTogether t pCurrent openList) (expand t ptTile ptEnd pCurrent step dirs e)
      (expand t ptTile ptEnd pCurrent step dirs e') := by
  induction dirs generalizing e e' with
  | nil => exact .some h
  | cons dir dirs ih => exact rel_bind (expandDir_together h) fun _ _ => ih

end

/-! ## The loop -/

/-- Two searches with the same tiles queued. -/
structure AStarTogether (t : Params) (a a' : AStar) : Prop where
  alike : Alike t (Inside t a.finder) a.finder a'.finder
  openList : a'.openList = a.openList
  nNearestDist : a'.nNearestDist = a.nNearestDist
  nearest : ∀ i, a.finder.pNearestTile = some i → Inside t a.finder i
  opened : ∀ p, Opened a.openList p → TileTouched t a.finder p

/-- The same result, with the same tags behind it. -/
def SameAStar (t : Params) (r r' : Bool × PathFinder) : Prop :=
  r'.1 = r.1 ∧ Alike t (Inside t r.2) r.2 r'.2 ∧ ∀ i, r.2.pNearestTile = some i → Inside t r.2 i

/-- One turn of A* keeps the two searches together, or ends both alike. -/
theorem aStarBody_together {a a' : AStar} (h : AStarTogether t a a') :
    Option.Rel (Sum.LiftRel (AStarTogether t) (SameAStar t)) (aStarBody t ptEnd a)
      (aStarBody t ptEnd a') := by
  have hcount := h.alike.counted
  have hstop : Option.Rel (Sum.LiftRel (AStarTogether t) (SameAStar t))
      (some (.inr (false, a.finder.counted))) (some (.inr (false, a'.finder.counted))) :=
    .some (.inr ⟨rfl, hcount, h.nearest⟩)
  unfold aStarBody
  dsimp only
  have hsteps : a'.finder.counted.nStepCount ≤ a'.finder.counted.nMaxStep ↔
      a.finder.counted.nStepCount ≤ a.finder.counted.nMaxStep := by
    rw [hcount.nStepCount, hcount.nMaxStep]
  rw [h.openList, h.nNearestDist, if_congr hsteps rfl rfl]
  split
  · match hopen : a.openList with
    | [] => exact hstop
    | (key, ptTile) :: openList =>
      have hrest : ∀ p, Opened openList p → TileTouched t a.finder.counted p := fun p ⟨k, hk⟩ =>
        h.opened p ⟨k, hopen ▸ List.mem_cons_of_mem _ hk⟩
      dsimp only
      rw [hcount.getTileTag]
      match htag : a.finder.counted.getTileTag t ptTile with
      | none => exact .some (.inl ⟨hcount, rfl, rfl, h.nearest, hrest⟩)
      | some pCurrent =>
        dsimp only
        have hcurrent : Inside t a.finder.counted pCurrent := by
          have hhead : Opened a.openList ptTile := ⟨key, hopen ▸ List.mem_cons_self⟩
          exact ⟨getTileTag_lt htag, h.opened ptTile hhead pCurrent htag⟩
        split
        · -- the target
          refine .some (.inr ⟨rfl, hcount.setNearest (some pCurrent), ?_⟩)
          intro i hi
          exact Option.some.inj hi ▸ hcurrent
        · have hbegin : ExpansionTogether t pCurrent openList
              ⟨a.finder.counted, a.nNearestDist, 0, 0, []⟩
              ⟨a'.finder.counted, a.nNearestDist, 0, 0, []⟩ :=
            ⟨hcount, rfl, rfl, rfl, rfl, h.nearest, hcurrent, hrest, fun _ hg => nomatch hg⟩
          rw [hcount.nStep hcurrent.1 hcurrent.2]
          apply rel_bind (expand_together hbegin)
          intro e e' he
          have hqueue : pushFound e' ((a.finder.counted.tileTags pCurrent).nStep + 1) openList =
              pushFound e ((a.finder.counted.tileTags pCurrent).nStep + 1) openList := by
            unfold pushFound score
            rw [he.found, he.blockNum, he.visitedNum]
          -- what is queued now was queued before or was just entered
          refine .some (.inl ⟨he.alike, hqueue, he.nNearestDist, he.nearest, ?_⟩)
          intro p hp
          cases opened_pushFound.1 hp with
          | inl hold => exact he.opened p hold
          | inr hnew =>
            obtain ⟨g, hg, -, rfl⟩ := hnew
            exact he.tiles g hg
  · exact hstop

/-! ## A whole search -/

/-- `FindAStar` up to the touch of the start. -/
def aStarReset (s : PathFinder) (ptStart ptEnd : Point) : PathFinder :=
  { s with
    nFind := (s.nFind + 1) % 65536
    ptStart := ptStart
    ptEnd := ptEnd
    pNearestTile := none
    nStepCount := 0 }

/-- After the touch of the start, whose tag is `i`. -/
def aStarTouched (s : PathFinder) (ptStart ptEnd : Point) (i : Nat) : PathFinder :=
  (aStarReset s ptStart ptEnd).modifyTag i fun old =>
    { old with pParent := none, nFindID := (aStarReset s ptStart ptEnd).nFind }.setStep 0

/-- From outside the map. -/
theorem aStarStart_outside (h : (aStarReset s ptStart ptEnd).getTileTag t ptStart = none) :
    aStarStart t s ptStart ptEnd = ⟨aStarReset s ptStart ptEnd, [(0, ptStart)], 10000000⟩ := by
  unfold aStarReset at h
  unfold aStarStart
  dsimp only
  rw [h]
  rfl

/-- From a tile of the map. -/
theorem aStarStart_inside {i : Nat}
    (h : (aStarReset s ptStart ptEnd).getTileTag t ptStart = some i) :
    aStarStart t s ptStart ptEnd = ⟨aStarTouched s ptStart ptEnd i, [(0, ptStart)], 10000000⟩ := by
  unfold aStarReset at h
  unfold aStarStart
  dsimp only
  rw [h]
  rfl

/-- On tags without the number of the search nothing is touched. -/
theorem SameSetup.reset (h : SameSetup s s') (hunused : Unused t s) (hunused' : Unused t s')
    (ptStart ptEnd : Point) :
    Alike t (Inside t (aStarReset s ptStart ptEnd)) (aStarReset s ptStart ptEnd)
      (aStarReset s' ptStart ptEnd) := by
  have hnone : ∀ i, InWindow t i → ¬ (aStarReset s ptStart ptEnd).Carries i := hunused
  have hnone' : ∀ i, InWindow t i → ¬ (aStarReset s' ptStart ptEnd).Carries i := hunused'
  constructor
  · unfold aStarReset seen
    simp only [h.nMapWidth, h.nMapHeight, h.blockFunc, h.nSearchOption, h.nMaxStep]
  · exact fun i hi => ⟨fun hc => absurd hc (hnone' i hi), fun hc => absurd hc (hnone i hi)⟩
  · exact fun i hi hc => absurd hc (hnone i hi)
  · exact fun i hi => absurd hi.2 (hnone i hi.1)
  · exact fun i hi hc => absurd hc (hnone i hi)
  · exact fun i hi => absurd hi.2 (hnone i hi.1)

/-- Two finders of the same setup begin A* together. -/
theorem SameSetup.aStarStart (h : SameSetup s s') (hunused : Unused t s) (hunused' : Unused t s')
    (hstart : ptStart.InRange) (ptEnd : Point) :
    AStarTogether t (aStarStart t s ptStart ptEnd) (PathFinder.aStarStart t s' ptStart ptEnd) := by
  have hreset := h.reset hunused hunused' ptStart ptEnd
  have hopened : ∀ r : PathFinder, (∀ i, r.getTileTag t ptStart = some i → r.Carries i) →
      ∀ p, Opened [(0, ptStart)] p → TileTouched t r p := by
    intro r hr p hp
    rw [opened_start.1 hp]
    exact hr
  have hnone : ∀ i : Nat, none ≠ some i := fun i => (Option.some_ne_none i).symm
  cases htag : (aStarReset s ptStart ptEnd).getTileTag t ptStart with
  | none =>
    -- from outside the map nothing is touched at all
    rw [aStarStart_outside htag, aStarStart_outside ((hreset.getTileTag _).trans htag)]
    refine ⟨hreset, rfl, rfl, (fun i hi => absurd hi (hnone i)), hopened _ ?_⟩
    intro j hj
    exact absurd (htag.symm.trans hj) (hnone j)
  | some i =>
    rw [aStarStart_inside htag, aStarStart_inside ((hreset.getTileTag _).trans htag)]
    have htouch : Alike t _ (aStarTouched s ptStart ptEnd i) (aStarTouched s' ptStart ptEnd i) :=
      hreset.touch hstart htag rfl rfl rfl rfl rfl fun j hj => absurd hj (hnone j)
    refine ⟨htouch, rfl, rfl, (fun j hj => absurd hj (hnone j)), hopened _ ?_⟩
    intro j hj
    obtain rfl := Option.some.inj (htag.symm.trans hj)
    dsimp only
    apply (modifyTag_carries _).2 (.inl rfl)
    rfl

/-- `FindAStar` on both sides. -/
theorem SameSetup.findAStar (h : SameSetup s s') (hunused : Unused t s) (hunused' : Unused t s')
    (hstart : ptStart.InRange) :
    Option.Rel (SameAStar t) (PathFinder.findAStar t s ptStart ptEnd)
      (PathFinder.findAStar t s' ptStart ptEnd) := by
  have hbegin := h.aStarStart hunused hunused' hstart ptEnd
  unfold PathFinder.findAStar
  dsimp only
  rw [hbegin.alike.stepsLeft]
  exact rel_loopResult (run_rel (fun _ _ => aStarBody_together) hbegin)

/-- The A* block on both sides. -/
theorem SameSetup.aStarPath (h : SameSetup s s') (hunused : Unused t s) (hunused' : Unused t s')
    (hstart : ptStart.InRange) :
    Option.Rel SameFound
      (PathFinder.aStarPath t s ptStart ptEnd) (PathFinder.aStarPath t s' ptStart ptEnd) := by
  apply rel_bind (h.findAStar hunused hunused' hstart)
  rintro ⟨ret, r⟩ ⟨ret', r'⟩ ⟨rfl, halike, hnear⟩
  have htip : TipKnown t (Inside t r) r r' := fun i hi =>
    ⟨(hnear i hi).1, (halike.tag i (hnear i hi).1 (hnear i hi).2).1,
      halike.parent i (hnear i hi).1 (hnear i hi).2⟩
  exact .some (halike.builtPath htip false)

end XGame3.PathFinder
