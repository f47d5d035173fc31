import XGame3.Spec.PathFinderAlike
import XGame3.Spec.PathFinderCorners

/-!
# Searches in lockstep

A search on tags that an earlier one has left behind does step by step what it does on new
ones.  `Together` is kept by every primitive of the search; the loops are compared by
`Loop.run_rel`, one iteration at a time.

Key results:
- `Together.approach`, `Together.around`: the walking loops
- `Together.findPathCore`: a whole search
-/

namespace XGame3.PathFinder

open FixedInt Loop

variable {t : Params} {s s' s₀ s₀' s₁ s₁' : PathFinder} {W W' : Nat → Prop} {ptEnd : Point}

/-- Loops that end related have related results. -/
theorem rel_loopResult {σ σ' ρ ρ' : Type} {R : σ → σ' → Prop} {S : ρ → ρ' → Prop}
    {o : Option (σ ⊕ ρ)} {o' : Option (σ' ⊕ ρ')} (h : Option.Rel (Sum.LiftRel R S) o o') :
    Option.Rel S (loopResult o) (loopResult o') := by
  cases h with
  | none => exact .none
  | some hrel =>
    cases hrel with
    | inl _ => exact .none
    | inr hr => exact .some hr

/-! ## The relation -/

/-- With the optimise option the corners are the same, and those that may be taken are tiles of
    the search. -/
def CornersKnown (t : Params) (W : Nat → Prop) (s s' : PathFinder) : Prop :=
  hasOption s.nSearchOption optionOptimize = true → SameCorners s s' ∧
    ∀ i, s.nCornerFlag i < invalidCornerFlag → Footing t W s (s.corners i)

/-- What is known of the corners carries over to two finders of the same search that carry no fewer
    tiles and have the same corners. -/
theorem CornersKnown.next (h : CornersKnown t W s s') (hW : ∀ i, W i → W' i)
    (hsame : SameSearch s s₁) (hc : ∀ i, s.Carries i → s₁.Carries i) (hcorners : SameCorners s s₁)
    (hcorners' : SameCorners s' s₁') : CornersKnown t W' s₁ s₁' := by
  intro hopt
  obtain ⟨hboth, hknown⟩ := h (hsame.nSearchOption ▸ hopt)
  constructor
  · exact ⟨by rw [hcorners'.corners, hcorners.corners, hboth.corners],
      by rw [hcorners'.flags, hcorners.flags, hboth.flags]⟩
  · intro i hi
    rw [hcorners.corners]
    exact (hknown i (hcorners.flags ▸ hi)).mono hW hsame hc

/-- Two path finders in a search that began with `s₀` and `s₀'`. -/
structure Together (t : Params) (s₀ s₀' : PathFinder) (W : Nat → Prop) (s s' : PathFinder) : Prop
    where
  alike : Alike t W s s'
  central : InWindow t (centralTag t) → W (centralTag t)
  ids : SameIds s₀ s
  ids' : SameIds s₀' s'
  nearest : NearestKnown W s
  sameQueue : s'.aroundQueue = s.aroundQueue
  queue : ∀ a ∈ s.aroundQueue, Footing t W s a.ptTile
  corners : CornersKnown t W s s'

/-- Recording a tile at the same step keeps the corners the same. -/
theorem recordCorner_sameCorners {p : Point} (h : SameCorners s s')
    (hstep : s'.nStepCount = s.nStepCount) :
    SameCorners (s.recordCorner t p) (s'.recordCorner t p) := by
  have hnext : ∀ (r r' : PathFinder) (corner : Nat) (ahead : Point → Point → Bool),
      SameCorners r r' ∧ r'.nStepCount = r.nStepCount →
      SameCorners (r.recordCornerAt t p corner ahead) (r'.recordCornerAt t p corner ahead) ∧
        (r'.recordCornerAt t p corner ahead).nStepCount =
          (r.recordCornerAt t p corner ahead).nStepCount := by
    intro r r' corner ahead ⟨hboth, hcount⟩
    unfold recordCornerAt
    rw [hboth.corners, hboth.flags, hcount]
    split
    · exact ⟨⟨rfl, rfl⟩, rfl⟩
    · exact ⟨hboth, hcount⟩
  unfold recordCorner
  exact (hnext _ _ _ _ (hnext _ _ _ _ (hnext _ _ _ _ (hnext _ _ _ _ ⟨h, hstep⟩)))).1

namespace Together

/-- A change of both sides that keeps what was touched. -/
theorem next (h : Together t s₀ s₀' W s s') (ha : Alike t W' s₁ s₁') (hW : ∀ i, W i → W' i)
    (hext : Extends s s₁) (hids : SameIds s' s₁')
    (hnear : s₁.pNearestTile = s.pNearestTile ∨ NearestKnown W' s₁)
    (hqueue : s₁.aroundQueue = s.aroundQueue) (hqueue' : s₁'.aroundQueue = s'.aroundQueue)
    (hcorners : SameCorners s s₁) (hcorners' : SameCorners s' s₁') :
    Together t s₀ s₀' W' s₁ s₁' where
  alike := ha
  -- what was agreed on before still is, and the rest of the state moves along
  central := fun hin => hW _ (h.central hin)
  ids := h.ids.trans hext.toSameIds
  ids' := h.ids'.trans hids
  nearest := by
    cases hnear with
    | inl hsame =>
      intro i hi
      have hold := h.nearest i (hsame.symm.trans hi)
      exact ⟨hW i hold.1, (hext.tags i hold.2).1⟩
    | inr hnew => exact hnew
  sameQueue := (hqueue'.trans h.sameQueue).trans hqueue.symm
  queue := fun a hmem =>
    (h.queue a (hqueue ▸ hmem)).mono hW hext.toSameSearch fun i hi => (hext.tags i hi).1
  corners :=
    h.corners.next hW hext.toSameSearch (fun i hi => (hext.tags i hi).1) hcorners hcorners'

/-- Counting one more step keeps the two finders together. -/
theorem counted (h : Together t s₀ s₀' W s s') : Together t s₀ s₀' W s.counted s'.counted :=
  h.next h.alike.counted (fun _ hi => hi) (counted_sameTags s).toExtends
    (counted_sameTags s').toSameIds (.inl rfl) rfl rfl ⟨rfl, rfl⟩ ⟨rfl, rfl⟩

/-- Marking the same tile in both, from a parent that both carry, keeps them together. -/
theorem mark (h : Together t s₀ s₀' W s s') {i : Nat} (dir : Int) {parent : Option Nat} {p : Point}
    (hp : p.InRange) (hi : s.getTileTag t p = some i)
    (hparent : ∀ j, parent = some j → W j ∧ s.Carries j) :
    Together t s₀ s₀' W (s.markTileVisited i dir parent) (s'.markTileVisited i dir parent) := by
  have hplaced := (Placed.of_tag hp hi).tag
  exact h.next (h.alike.mark dir (getTileTag_lt hi) hplaced hparent) (fun _ hi => hi)
    (markTileVisited_extends _ _ _ _) (markTileVisited_sameIds _ _ _ _)
    (.inl rfl) rfl rfl ⟨rfl, rfl⟩ ⟨rfl, rfl⟩

/-- A step onto a tile adds that tile to the ones both agree on. -/
theorem stepOnto (h : Together t s₀ s₀' W s s') {i : Nat} (dir : Int) {parent : Option Nat}
    {p : Point} (hp : p.InRange) (hi : s.getTileTag t p = some i)
    (hparent : ∀ j, parent = some j → W j ∧ s.Carries j) (bAround : Nat) :
    Together t s₀ s₀' (fun j => W j ∨ j = i) (s.stepOnto i dir parent bAround)
      (s'.stepOnto i dir parent bAround) := by
  have hplaced := (Placed.of_tag hp hi).tag
  have hnear : NearestKnown (fun j => W j ∨ j = i) (s.stepOnto i dir parent bAround) := by
    intro j hj
    obtain rfl := Option.some.inj hj
    exact ⟨.inr rfl, stepOnto_carries.2 (.inl rfl)⟩
  exact h.next (h.alike.stepOnto (getTileTag_lt hi) hplaced hparent bAround) (fun _ hi => .inl hi)
    (stepOnto_extends _ _ _ _ _) (stepOnto_extends _ _ _ _ _).toSameIds
    (.inr hnear) rfl rfl ⟨rfl, rfl⟩ ⟨rfl, rfl⟩

/-- Both agree on a tile that becomes the root of a search. -/
theorem makeRoot (h : Together t s₀ s₀' W s s') {i : Nat} {p : Point} (hp : p.InRange)
    (hi : s.getTileTag t p = some i) (hW : W i) :
    Together t s₀ s₀' W (s.makeRoot i) (s'.makeRoot i) := by
  have hplaced := (Placed.of_tag hp hi).tag
  exact h.next (h.alike.makeRoot (getTileTag_lt hi) hW hplaced) (fun _ hi => hi)
    (makeRoot_extends _ _) (makeRoot_kept s' i).toSameIds (.inl (makeRoot_kept s i).pNearestTile)
    (makeRoot_aroundQueue s i) (makeRoot_aroundQueue s' i) (makeRoot_sameCorners s i)
    (makeRoot_sameCorners s' i)

/-- Only places that are stood on are queued. -/
theorem pushAround (h : Together t s₀ s₀' W s s') {p : Point} (dir : Int) (hp : Footing t W s p) :
    Together t s₀ s₀' W (s.pushAround p dir) (s'.pushAround p dir) where
  alike := h.alike.pushAround p dir
  central := h.central
  ids := h.ids.trans (pushAround_sameTags s p dir).toSameIds
  ids' := h.ids'.trans (pushAround_sameTags s' p dir).toSameIds
  nearest := h.nearest
  sameQueue := congrArg (fun queue => _ :: _ :: queue) h.sameQueue
  queue := fun a ha => by
    simp only [PathFinder.pushAround, List.mem_cons] at ha
    rcases ha with rfl | rfl | hold
    · exact hp
    · exact hp
    · exact h.queue a hold
  corners := h.corners.next (fun _ hi => hi) ⟨rfl, rfl, rfl, rfl, rfl, rfl, rfl, rfl, rfl⟩
    (fun _ hc => hc) ⟨rfl, rfl⟩ ⟨rfl, rfl⟩

/-- Taking the head off both queues keeps the finders together. -/
theorem setQueue (h : Together t s₀ s₀' W s s') {a : AroundPoint} {queue : List AroundPoint}
    (hqueue : s.aroundQueue = a :: queue) :
    Together t s₀ s₀' W { s with aroundQueue := queue } { s' with aroundQueue := queue } where
  alike := h.alike.setQueue queue
  central := h.central
  ids := h.ids.trans ⟨⟨rfl, rfl, rfl, rfl, rfl, rfl, rfl, rfl, rfl⟩, fun _ => .inl rfl⟩
  ids' := h.ids'.trans ⟨⟨rfl, rfl, rfl, rfl, rfl, rfl, rfl, rfl, rfl⟩, fun _ => .inl rfl⟩
  nearest := h.nearest
  sameQueue := rfl
  queue := fun b hb => h.queue b (hqueue ▸ List.mem_cons_of_mem a hb)
  corners := h.corners.next (fun _ hi => hi) ⟨rfl, rfl, rfl, rfl, rfl, rfl, rfl, rfl, rfl⟩
    (fun _ hc => hc) ⟨rfl, rfl⟩ ⟨rfl, rfl⟩

/-- The tile that was reached is on record as a corner. -/
theorem recordCorner (h : Together t s₀ s₀' W s s') {p : Point} (hp : Footing t W s p)
    (hopt : hasOption s.nSearchOption optionOptimize = true) :
    Together t s₀ s₀' W (s.recordCorner t p) (s'.recordCorner t p) := by
  have hsame := recordCorner_sameTags (t := t) s p
  have hfooting : ∀ q, Footing t W s q → Footing t W (s.recordCorner t p) q := fun q hq =>
    hq.mono (fun _ hi => hi) hsame.toSameSearch fun i hi => hsame.carries.2 hi
  constructor
  · exact h.alike.recordCorner p
  · exact h.central
  · exact h.ids.trans hsame.toSameIds
  · exact h.ids'.trans (recordCorner_sameTags s' p).toSameIds
  · -- what was known stays known
    intro i hi
    have hold := h.nearest i (hsame.pNearestTile.symm.trans hi)
    exact ⟨hold.1, hsame.carries.2 hold.2⟩
  · rw [recordCorner_aroundQueue, recordCorner_aroundQueue]
    exact h.sameQueue
  · intro a ha
    rw [recordCorner_aroundQueue] at ha
    exact hfooting _ (h.queue a ha)
  · -- the corner is the same on both sides, and a known tile
    intro _
    obtain ⟨hboth, hknown⟩ := h.corners hopt
    constructor
    · exact recordCorner_sameCorners hboth h.alike.nStepCount
    · intro i hi
      exact hfooting _ (recordCorner_corners (fun q => Footing t W s q) hp hknown i hi)

end Together

/-! ## Approach -/

/-- Two walks that stand on the same tile. -/
structure WalkTogether (t : Params) (s₀ s₀' : PathFinder) (W : Nat → Prop) (w w' : Walk) :
    Prop where
  finder : Together t s₀ s₀' W w.finder w'.finder
  tile : w'.ptTile = w.ptTile
  pParent : w'.pParent = w.pParent
  parent : ∀ j, w.pParent = some j → W j ∧ w.finder.Carries j
  footing : Footing t W w.finder w.ptTile

/-- The same result, from searches in lockstep. -/
def SameResult (t : Params) (s₀ s₀' : PathFinder) (r r' : Bool × PathFinder) : Prop :=
  r'.1 = r.1 ∧ ∃ W, Together t s₀ s₀' W r.2 r'.2

/-- Standing on a tile that was just entered. -/
theorem Together.enter (h : Together t s₀ s₀' W s s') {i : Nat} (dir : Int) {parent : Option Nat}
    {p : Point} (hp : p.InRange) (hi : s.getTileTag t p = some i)
    (hparent : ∀ j, parent = some j → W j ∧ s.Carries j) (bAround : Nat) :
    WalkTogether t s₀ s₀' (fun j => W j ∨ j = i) ⟨s.stepOnto i dir parent bAround, p, some i⟩
      ⟨s'.stepOnto i dir parent bAround, p, some i⟩ := by
  have hknown : ∀ j, some i = some j →
      (W j ∨ j = i) ∧ (s.stepOnto i dir parent bAround).Carries j := by
    intro j hj
    obtain rfl := Option.some.inj hj
    exact ⟨.inr rfl, stepOnto_carries.2 (.inl rfl)⟩
  refine ⟨h.stepOnto dir hp hi hparent bAround, rfl, rfl, hknown, ?_⟩
  intro j hj
  exact hknown j (hi.symm.trans hj)

/-- One turn of `Approach` takes finders that agree on the walked tiles to such finders, or ends
    both calls with the same result. -/
theorem approachBody_together {w w' : Walk} (h : WalkTogether t s₀ s₀' W w w') :
    Option.Rel (Sum.LiftRel (fun v v' => ∃ W, WalkTogether t s₀ s₀' W v v')
      (SameResult t s₀ s₀')) (approachBody t ptEnd w) (approachBody t ptEnd w') := by
  have hcount := h.finder.counted
  have hparent : ∀ j, w.pParent = some j → W j ∧ w.finder.counted.Carries j := h.parent
  have hstop : ∀ ret, Option.Rel (Sum.LiftRel (fun v v' => ∃ W, WalkTogether t s₀ s₀' W v v')
      (SameResult t s₀ s₀')) (some (.inr (ret, w.finder.counted)))
      (some (.inr (ret, w'.finder.counted))) := fun _ => .some (.inr ⟨rfl, W, hcount⟩)
  unfold approachBody
  dsimp only
  rw [h.tile, h.pParent, hcount.alike.nStepCount, hcount.alike.nMaxStep]
  split
  · apply rel_bind_same
    intro ptNext hmove
    rw [hcount.alike.getTileTag]
    match htag : w.finder.counted.getTileTag t ptNext with
    | none => exact hstop false
    | some i =>
      dsimp only
      have hin : ptNext.InRange := moveNext_inRange hmove
      -- both sides agree on what this search has visited
      rw [hcount.alike.isTileVisited (getTileTag_lt htag)]
      split
      · exact hstop false
      · rw [hcount.alike.isBevelBlock, hcount.alike.isBlock]
        apply rel_bind_same
        intro isBevel _
        apply rel_bind_same
        intro block _
        split
        · -- the next tile is blocked
          split
          · exact hstop true
          · exact .some (.inr ⟨rfl, W, hcount.pushAround _ h.footing⟩)
        · -- the next tile is entered on both sides
          have henter := hcount.enter (getDir w.ptTile ptEnd) hin htag hparent 0
          split
          · exact .some (.inr ⟨rfl, _, henter.finder⟩)
          · exact .some (.inl ⟨_, henter⟩)
  · exact hstop false

/-- `Approach` from a tile with the same `bAround`. -/
theorem Together.approach (h : Together t s₀ s₀' W s s') {p : Point} (hp : p.InRange)
    (hW : ∀ i, s.getTileTag t p = some i → W i) :
    Option.Rel (SameResult t s₀ s₀') (PathFinder.approach t s p ptEnd)
      (PathFinder.approach t s' p ptEnd) := by
  unfold PathFinder.approach
  split
  · exact .some ⟨rfl, W, h⟩
  · rw [h.alike.getTileTag]
    match htag : s.getTileTag t p with
    | none => exact .some ⟨rfl, W, h⟩
    | some i =>
      -- both make the start their root
      have hroot := h.makeRoot hp htag (hW i htag)
      have hknown : ∀ j, some i = some j → W j ∧ (s.makeRoot i).Carries j := by
        intro j hj
        obtain rfl := Option.some.inj hj
        exact ⟨hW i htag, makeRoot_carries s i⟩
      have hfooting : Footing t W (s.makeRoot i) p := by
        intro j hj
        exact hknown j (htag.symm.trans
          (((makeRoot_extends s i).toSameSearch.getTileTag p).symm.trans hj))
      -- so the two walks begin together
      have hbegin : WalkTogether t s₀ s₀' W ⟨s.makeRoot i, p, some i⟩ ⟨s'.makeRoot i, p, some i⟩ :=
        ⟨hroot, rfl, rfl, hknown, hfooting⟩
      dsimp only
      rw [hroot.alike.stepsLeft]
      -- and each turn keeps them so, though on more tiles
      apply rel_loopResult (R := fun v v' => ∃ W, WalkTogether t s₀ s₀' W v v')
      apply run_rel _ ⟨W, hbegin⟩
      exact fun _ _ ⟨_, hw⟩ => approachBody_together hw

/-! ## Around -/

/-- Two detours that stand on the same tile. -/
structure DetourTogether (t : Params) (s₀ s₀' : PathFinder) (W : Nat → Prop) (d d' : Detour) : Prop
    extends WalkTogether t s₀ s₀' W d.toWalk d'.toWalk where
  nMoveDir : d'.nMoveDir = d.nMoveDir
  nContinueTurn : d'.nContinueTurn = d.nContinueTurn

/-- One turn of the walk around a block does the same, and leaves the queue of turning points alone.
    -/
theorem aroundBody_together {ptLoc : Point} {nTurnDir : Turn} {d d' : Detour}
    {queue : List AroundPoint} (h : DetourTogether t s₀ s₀' W d d')
    (hqueue : d.finder.aroundQueue = queue) :
    Option.Rel (Sum.LiftRel
      (fun v v' => v.finder.aroundQueue = queue ∧ ∃ W, DetourTogether t s₀ s₀' W v v')
      (fun r r' => r.2.aroundQueue = queue ∧ SameResult t s₀ s₀' r r'))
      (aroundBody t ptLoc nTurnDir ptEnd d) (aroundBody t ptLoc nTurnDir ptEnd d') := by
  have hcount := h.finder.counted
  have hparent : ∀ j, d.pParent = some j → W j ∧ d.finder.counted.Carries j := h.parent
  have hstop : Option.Rel (Sum.LiftRel
      (fun v v' => v.finder.aroundQueue = queue ∧ ∃ W, DetourTogether t s₀ s₀' W v v')
      (fun r r' => r.2.aroundQueue = queue ∧ SameResult t s₀ s₀' r r'))
      (some (.inr (false, d.finder.counted))) (some (.inr (false, d'.finder.counted))) :=
    .some (.inr ⟨hqueue, rfl, W, hcount⟩)
  unfold aroundBody
  dsimp only
  rw [h.tile, h.pParent, h.nMoveDir, h.nContinueTurn, hcount.alike.nStepCount,
    hcount.alike.nMaxStep]
  split
  · apply rel_bind_same
    intro ptNext hmove
    rw [hcount.alike.getTileTag]
    match htag : d.finder.counted.getTileTag t ptNext with
    | none => exact hstop
    | some i =>
      dsimp only
      have hin : ptNext.InRange := moveNext_inRange hmove
      rw [hcount.alike.isTileVisited (getTileTag_lt htag)]
      split
      · exact hstop
      · rw [hcount.alike.isBevelBlock, hcount.alike.isBlock]
        apply rel_bind_same
        intro block _
        apply rel_bind_same
        intro isBevel _
        split
        · -- the tile in front is marked without a parent
          have hnone : ∀ j, none = some j → W j ∧ d.finder.counted.Carries j := fun _ hj =>
            nomatch hj
          have hmark := hcount.mark (turnDir d.nMoveDir nTurnDir.other) hin htag hnone
          split
          · exact .some (.inr ⟨hqueue, rfl, W, hmark⟩)
          · have hcarries : ∀ j, d.finder.counted.Carries j →
                (d.finder.counted.markTileVisited i (turnDir d.nMoveDir nTurnDir.other)
                  none).Carries j :=
              fun j hj => markTileVisited_carries.2 (.inr hj)
            have hturned : WalkTogether t s₀ s₀' W
                ⟨d.finder.counted.markTileVisited i (turnDir d.nMoveDir nTurnDir.other) none,
                  d.ptTile, d.pParent⟩
                ⟨d'.finder.counted.markTileVisited i (turnDir d.nMoveDir nTurnDir.other) none,
                  d.ptTile, d.pParent⟩ :=
              ⟨hmark, rfl, rfl, fun j hj => (hparent j hj).imp_right (hcarries j), fun j hj =>
                (h.footing j hj).imp_right (hcarries j)⟩
            exact .some (.inl ⟨hqueue, W, hturned, rfl, rfl⟩)
        · -- the step is taken; the parent is where the detour stood
          have henter := hcount.enter d.nMoveDir hin htag hparent 1
          have hstep := hcount.stepOnto d.nMoveDir hin htag hparent 1
          rw [hstep.alike.isCanApproach, hstep.alike.nSearchOption]
          apply rel_bind_same
          intro bReturn _
          split
          · exact .some (.inr ⟨hqueue, rfl, _, hstep⟩)
          · apply rel_bind_same
            intro ptAround _
            rw [hstep.alike.isBevelBlock, hstep.alike.isBlock]
            apply rel_bind_same
            intro isBevel _
            apply rel_bind_same
            intro block _
            -- the look at the tile beside only decides where to go next
            split
            · exact .some (.inl ⟨hqueue, _, henter, rfl, rfl⟩)
            · exact .some (.inl ⟨hqueue, _, henter, rfl, rfl⟩)
  · exact hstop

/-- `Around` from a place of the search. -/
theorem Together.around (h : Together t s₀ s₀' W s s') {a : AroundPoint}
    (ha : Footing t W s a.ptTile) :
    Option.Rel (fun r r' => r.2.aroundQueue = s.aroundQueue ∧ SameResult t s₀ s₀' r r')
      (PathFinder.around t s a ptEnd) (PathFinder.around t s' a ptEnd) := by
  unfold PathFinder.around
  rw [h.alike.stepsLeft, h.alike.getTileTag]
  have hbegin : DetourTogether t s₀ s₀' W ⟨⟨s, a.ptTile, s.getTileTag t a.ptTile⟩, a.nMoveDir, 0⟩
      ⟨⟨s', a.ptTile, s.getTileTag t a.ptTile⟩, a.nMoveDir, 0⟩ :=
    ⟨⟨h, rfl, rfl, ha, ha⟩, rfl, rfl⟩
  apply rel_loopResult (R := fun v v' =>
    v.finder.aroundQueue = s.aroundQueue ∧ ∃ W, DetourTogether t s₀ s₀' W v v')
  apply run_rel _ ⟨rfl, W, hbegin⟩
  exact fun _ _ ⟨hqueue, _, hd⟩ => aroundBody_together hd hqueue

/-! ## The core -/

/-- The tile `m_pNearestTile` stands for is a tile of the search. -/
theorem Together.nearestFooting (h : Together t s₀ s₀' W s s') {i : Nat}
    (hi : s.pNearestTile = some i) : Footing t W s (s.tileToPoint t i) := by
  intro j hj
  have hnear := h.nearest i hi
  obtain rfl := Option.some.inj ((h.alike.placed i hnear.1 hnear.2).symm.trans hj)
  exact hnear

/-- The tile of a tag is a point of the 16-bit range. -/
theorem tileToPoint_inRange (s : PathFinder) (tag : Nat) : (s.tileToPoint t tag).InRange :=
  ⟨isInt32_int32 _, isInt32_int32 _⟩

/-- Emptying the queue of turning points finds the same way out in both, standing on a tile both
    know. -/
theorem drainAround_together {queue : List AroundPoint} (h : Together t s₀ s₀' W s s')
    (hqueue : s.aroundQueue = queue) :
    Option.Rel (fun r r' => r'.1 = r.1 ∧ ∃ W, Together t s₀ s₀' W r.2 r'.2 ∧
      ∀ p, r.1 = some p → p.InRange ∧ Footing t W r.2 p)
      (drainAround t ptEnd queue s) (drainAround t ptEnd queue s') := by
  induction queue generalizing s s' W with
  | nil => exact .some ⟨rfl, W, h, fun _ hp => nomatch hp⟩
  | cons a queue ih =>
    have hplace : Footing t W { s with aroundQueue := queue } a.ptTile :=
      h.queue a (hqueue ▸ List.mem_cons_self)
    apply rel_bind ((h.setQueue hqueue).around hplace)
    rintro ⟨ret, r⟩ ⟨ret', r'⟩ ⟨hq, rfl, W₁, h₁⟩
    dsimp only at hq h₁ ⊢
    split
    · -- the detour ended on the nearest tile, from which `Approach` goes on
      rw [h₁.alike.pNearestTile]
      apply rel_bind_same
      intro i hi
      have hfooting := h₁.nearestFooting hi
      rw [h₁.alike.tileToPoint, h₁.alike.nSearchOption]
      have hin := tileToPoint_inRange (t := t) r i
      split
      · rename_i hopt
        have hcorner := h₁.recordCorner hfooting hopt
        have hsame := recordCorner_sameTags (t := t) r (r.tileToPoint t i)
        have hstill : Footing t W₁ (r.recordCorner t (r.tileToPoint t i)) (r.tileToPoint t i) :=
          hfooting.mono (fun _ hj => hj) hsame.toSameSearch fun j hj => hsame.carries.2 hj
        refine .some ⟨rfl, W₁, hcorner, ?_⟩
        intro p hp
        obtain rfl := Option.some.inj hp
        exact ⟨hin, hstill⟩
      · refine .some ⟨rfl, W₁, h₁, ?_⟩
        intro p hp
        obtain rfl := Option.some.inj hp
        exact ⟨hin, hfooting⟩
    · -- the detour failed: the next place of the stack
      exact ih h₁ hq

/-- The tile to approach from. -/
def CallTogether (t : Params) (s₀ s₀' : PathFinder) (c c' : Point × PathFinder) : Prop :=
  c'.1 = c.1 ∧ c.1.InRange ∧
    ∃ W, Together t s₀ s₀' W c.2 c'.2 ∧ ∀ i, c.2.getTileTag t c.1 = some i → W i

/-- One turn of `FindPathCore` keeps the two calls together, or ends both with the same result. -/
theorem coreBody_together {c c' : Point × PathFinder} (h : CallTogether t s₀ s₀' c c') :
    Option.Rel (Sum.LiftRel (CallTogether t s₀ s₀') (SameResult t s₀ s₀')) (coreBody t ptEnd c)
      (coreBody t ptEnd c') := by
  obtain ⟨hpoint, hin, W, htogether, hW⟩ := h
  unfold coreBody
  rw [hpoint]
  -- the approach
  apply rel_bind (htogether.approach hin hW)
  rintro ⟨ret, r⟩ ⟨ret', r'⟩ ⟨rfl, W₁, h₁⟩
  dsimp only at h₁ ⊢
  split
  · exact .some (.inr ⟨rfl, W₁, h₁⟩)
  -- and the detours, from the same queue
  · rw [h₁.sameQueue]
    apply rel_bind (drainAround_together h₁ rfl)
    rintro ⟨o, d⟩ ⟨o', d'⟩ ⟨rfl, W₂, h₂, hcall⟩
    dsimp only at h₂ hcall ⊢
    match o' with
    | none => exact .some (.inr ⟨rfl, W₂, h₂⟩)
    | some p =>
      -- the way out is a tile both know, so the next call begins there
      obtain ⟨hin, hfooting⟩ := hcall p rfl
      exact .some (.inl ⟨rfl, hin, W₂, h₂, fun i hi => (hfooting i hi).1⟩)

/-! ## A whole search -/

/-- The same map and the same arguments of `FindPath`. -/
structure SameSetup (s s' : PathFinder) : Prop where
  nMapWidth : s'.nMapWidth = s.nMapWidth
  nMapHeight : s'.nMapHeight = s.nMapHeight
  blockFunc : s'.blockFunc = s.blockFunc
  nSearchOption : s'.nSearchOption = s.nSearchOption
  nMaxStep : s'.nMaxStep = s.nMaxStep

/-- What two path finders have in common between their searches. -/
structure Between (t : Params) (s s' : PathFinder) : Prop extends SameSetup s s' where
  central : InWindow t (centralTag t) →
    (s'.tileTags (centralTag t)).bAround = (s.tileTags (centralTag t)).bAround

/-- The tag of the tile a search begins at. -/
theorem getTileTag_start {p : Point} {i : Nat} (hp : s.ptStart = p)
    (h : s.getTileTag t p = some i) :
    i = centralTag t := by
  obtain ⟨x, y, -, -, rfl, hx, hy⟩ := getTileTag_window h
  have hzero : int32 (p.x - p.x) = 0 ∧ int32 (p.y - p.y) = 0 := by simp [int32]
  have hhalf : int32 (0 + (t.maxSearchArea / 2 : Nat)) = (t.maxSearchArea / 2 : Nat) := by
    have harea := area_le t
    rw [Int.zero_add]
    apply int32_of_isInt32
    omega
  rw [hp, hzero.1, hhalf] at hx
  rw [hp, hzero.2, hhalf] at hy
  unfold centralTag
  rw [← Int.ofNat.inj hx, ← Int.ofNat.inj hy]

/-- A search that has begun on tags without its number. -/
theorem Between.begin (h : Between t s s') (hunused : Unused t s) (hunused' : Unused t s')
    (ptStart ptEnd : Point) :
    Together t (coreStart t s ptStart ptEnd) (coreStart t s' ptStart ptEnd)
      (fun i => i = centralTag t ∧ InWindow t i) (coreStart t s ptStart ptEnd)
      (coreStart t s' ptStart ptEnd) := by
  have hbegin : CoreBegins s (coreStart t s ptStart ptEnd) ptStart :=
    coreStart_begins s ptStart ptEnd
  have hbegin' : CoreBegins s' (coreStart t s' ptStart ptEnd) ptStart :=
    coreStart_begins s' ptStart ptEnd
  have hnone : ∀ i, InWindow t i → ¬ (coreStart t s ptStart ptEnd).Carries i :=
    fun i hi => hbegin.not_carries hunused hi
  have hnone' : ∀ i, InWindow t i → ¬ (coreStart t s' ptStart ptEnd).Carries i :=
    fun i hi => hbegin'.not_carries hunused' hi
  have hseen : (coreStart t s' ptStart ptEnd).seen = (coreStart t s ptStart ptEnd).seen := by
    unfold coreStart seen
    dsimp only
    rw [h.nSearchOption]
    split <;> simp only [h.nMapWidth, h.nMapHeight, h.blockFunc, h.nMaxStep]
  constructor
  · -- nothing carries the new number, so most of `Alike` says nothing yet
    constructor
    · exact hseen
    · exact fun i hi => ⟨fun hc => absurd hc (hnone' i hi), fun hc => absurd hc (hnone i hi)⟩
    · exact fun i hi hc => absurd hc (hnone i hi)
    · rintro i ⟨rfl, hi⟩
      rw [hbegin.tileTags, hbegin'.tileTags]
      exact h.central hi
    · exact fun i hi hc => absurd hc (hnone i hi)
    · exact fun i hi hc => absurd hc (hnone i hi.2)
  · exact fun hi => ⟨rfl, hi⟩
  · exact .refl _
  · exact .refl _
  · -- no tile is the nearest yet
    intro i hi
    exact nomatch hbegin.pNearestTile.symm.trans hi
  · exact hbegin'.aroundQueue.trans hbegin.aroundQueue.symm
  · -- and none is queued
    intro a ha
    rw [hbegin.aroundQueue] at ha
    exact nomatch ha
  · -- no corner is on record
    intro hopt
    rw [hbegin.nSearchOption] at hopt
    constructor
    · unfold coreStart
      dsimp only
      rw [h.nSearchOption, if_pos hopt, if_pos hopt]
      exact ⟨rfl, rfl⟩
    · exact fun i hi => absurd hi (coreStart_flags hopt i)

/-- `FindPathCore` on both sides. -/
theorem Between.findPathCore (h : Between t s s') (hunused : Unused t s) (hunused' : Unused t s')
    {ptStart : Point} (hstart : ptStart.InRange) :
    Option.Rel (SameResult t (coreStart t s ptStart ptEnd) (coreStart t s' ptStart ptEnd))
      (PathFinder.findPathCore t s ptStart ptEnd) (PathFinder.findPathCore t s' ptStart ptEnd) := by
  have hbegin := h.begin hunused hunused' ptStart ptEnd
  have hpoint : (coreStart t s ptStart ptEnd).ptStart = ptStart :=
    (coreStart_begins s ptStart ptEnd).ptStart
  unfold PathFinder.findPathCore
  dsimp only
  rw [hbegin.alike.stepsLeft]
  apply rel_loopResult
    (R := CallTogether t (coreStart t s ptStart ptEnd) (coreStart t s' ptStart ptEnd))
  apply run_rel fun _ _ hc => coreBody_together hc
  exact ⟨rfl, hstart, _, hbegin, fun i hi => ⟨getTileTag_start hpoint hi, getTileTag_lt hi⟩⟩

end XGame3.PathFinder
