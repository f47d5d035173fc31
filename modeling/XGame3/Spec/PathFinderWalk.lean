import XGame3.Native.PathFinderSearch
import XGame3.Spec.PathFinderMoves

/-!
# Single steps of the wall-following search

What one iteration of `Approach`, `Around` and `ConnectDirect` can do when `IsBlock` is
pure.  The native loop bodies are read once, by `approachBody_step`, `aroundBody_step` and
`connectBody_step`; everything about runs is derived from the steps below.
-/

namespace XGame3.PathFinder

variable {t : Params} {s s' s'' : PathFinder} {f : Point → Bool} {ptEnd ptLoc : Point}

/-! ## Steps -/

/-- A loop has a result only where its body has exited. -/
theorem loopResult_eq_some {σ ρ : Type} {o : Option (σ ⊕ ρ)} {r : ρ} (h : loopResult o = some r) :
    o = some (.inr r) := by
  match o with
  | some (.inr r') => exact congrArg _ (congrArg _ (Option.some.inj h))
  | some (.inl _) => exact nomatch h
  | none => exact nomatch h

/-- The tile a move leads to, with its tag. -/
structure Ahead (t : Params) (s : PathFinder) (ptTile : Point) (dir : Int) (ptNext : Point)
    (tag : Nat) : Prop where
  move : moveNext ptTile dir = some ptNext
  tag : s.getTileTag t ptNext = some tag

/-- `MoveNext` computes with `int`. -/
theorem Ahead.inRange {ptTile ptNext : Point} {dir : Int} {tag : Nat}
    (h : Ahead t s ptTile dir ptNext tag) : ptNext.InRange :=
  moveNext_inRange h.move

/-- On the map a move leads to a neighbour. -/
theorem Ahead.near {ptTile ptNext : Point} {dir : Int} {tag parent : Nat}
    (h : Ahead t s ptTile dir ptNext tag) (hin : ptTile.InRange)
    (hparent : s.getTileTag t ptTile = some parent) : Neighbour ptTile ptNext := by
  obtain ⟨⟨hx, -⟩, hy, -⟩ := getTileTag_inside hparent
  obtain ⟨⟨hx', -⟩, hy', -⟩ := getTileTag_inside h.tag
  exact moveNext_neighbour h.move hin hx hy hx' hy'

/-- One iteration of `Approach`. -/
inductive ApproachStep (t : Params) (f : Point → Bool) (ptEnd : Point) (w : Walk) :
    Walk ⊕ (Bool × PathFinder) → Prop
  | stop : ApproachStep t f ptEnd w (.inr (false, w.finder.counted))
  | refusedAtEnd {tag : Nat} :
      Ahead t w.finder.counted w.ptTile (getDir w.ptTile ptEnd) ptEnd tag →
      Refused f w.ptTile ptEnd → ApproachStep t f ptEnd w (.inr (true, w.finder.counted))
  | refused {ptNext : Point} {tag : Nat} :
      Ahead t w.finder.counted w.ptTile (getDir w.ptTile ptEnd) ptNext tag →
      Refused f w.ptTile ptNext → ptNext ≠ ptEnd →
      ApproachStep t f ptEnd w
        (.inr (false, w.finder.counted.pushAround w.ptTile (getDir w.ptTile ptEnd)))
  | arrived {tag : Nat} :
      Ahead t w.finder.counted w.ptTile (getDir w.ptTile ptEnd) ptEnd tag →
      ¬ Refused f w.ptTile ptEnd →
      ApproachStep t f ptEnd w
        (.inr (true, w.finder.counted.stepOnto tag (getDir w.ptTile ptEnd) w.pParent 0))
  | walked {ptNext : Point} {tag : Nat} :
      Ahead t w.finder.counted w.ptTile (getDir w.ptTile ptEnd) ptNext tag →
      ¬ Refused f w.ptTile ptNext → ptNext ≠ ptEnd →
      ApproachStep t f ptEnd w
        (.inl ⟨w.finder.counted.stepOnto tag (getDir w.ptTile ptEnd) w.pParent 0, ptNext, some tag⟩)

/-- One iteration of `Around`. -/
inductive AroundStep (t : Params) (f : Point → Bool) (d : Detour) :
    Detour ⊕ (Bool × PathFinder) → Prop
  | stop : AroundStep t f d (.inr (false, d.finder.counted))
  | gaveUp {ptNext : Point} {tag : Nat} {dir : Int} :
      Ahead t d.finder.counted d.ptTile d.nMoveDir ptNext tag → Refused f d.ptTile ptNext →
      AroundStep t f d (.inr (false, d.finder.counted.markTileVisited tag dir none))
  | turned {ptNext : Point} {tag : Nat} {dir : Int} :
      Ahead t d.finder.counted d.ptTile d.nMoveDir ptNext tag → Refused f d.ptTile ptNext →
      dir % 2 = 0 →
      AroundStep t f d (.inl ⟨⟨d.finder.counted.markTileVisited tag dir none, d.ptTile, d.pParent⟩,
        dir, d.nContinueTurn + 1⟩)
  | arrived {ptNext : Point} {tag : Nat} :
      Ahead t d.finder.counted d.ptTile d.nMoveDir ptNext tag → ¬ Refused f d.ptTile ptNext →
      AroundStep t f d (.inr (true, d.finder.counted.stepOnto tag d.nMoveDir d.pParent 1))
  | walked {ptNext : Point} {tag : Nat} {dir : Int} :
      Ahead t d.finder.counted d.ptTile d.nMoveDir ptNext tag → ¬ Refused f d.ptTile ptNext →
      dir = d.nMoveDir ∨ dir % 2 = 0 →
      AroundStep t f d
        (.inl ⟨⟨d.finder.counted.stepOnto tag d.nMoveDir d.pParent 1, ptNext, some tag⟩, dir, 0⟩)

/-- `IsBlock(ptNext) || IsBevelBlock(ptTile, ptNext)` in either order. -/
theorem refused_iff {p q : Point} :
    (decide (Blocked f q) || decide (CutsCorner f p q)) = true ↔ Refused f p q := by
  rw [Bool.or_eq_true, decide_eq_true_iff, decide_eq_true_iff]
  rfl

/-! ## The loop bodies -/

/-- The tile in front, which the search has not yet entered in this direction, with a step left. -/
structure Tried (t : Params) (s : PathFinder) (ptTile : Point) (dir : Int) (ptNext : Point)
    (pCurrent : Nat) : Prop extends Ahead t s ptTile dir ptNext pCurrent where
  inTime : s.nStepCount ≤ s.nMaxStep
  fresh : s.isTileVisited pCurrent dir = false

/-- There is one tile ahead. -/
theorem Ahead.unique {p q q' : Point} {dir : Int} {tag tag' : Nat} (h : Ahead t s p dir q tag)
    (h' : Ahead t s p dir q' tag') : q = q' ∧ tag = tag' := by
  obtain rfl := Option.some.inj (h.move.symm.trans h'.move)
  exact ⟨rfl, Option.some.inj (h.tag.symm.trans h'.tag)⟩

/-- One iteration of `Approach`, for any `IsBlock`. -/
inductive ApproachTurn (t : Params) (ptEnd : Point) (w : Walk) : Walk ⊕ (Bool × PathFinder) → Prop
  | stop :
      (∀ ptNext tag, ¬ Tried t w.finder.counted w.ptTile (getDir w.ptTile ptEnd) ptNext tag) →
      ApproachTurn t ptEnd w (.inr (false, w.finder.counted))
  | refusedAtEnd {tag : Nat} :
      Tried t w.finder.counted w.ptTile (getDir w.ptTile ptEnd) ptEnd tag →
      w.finder.counted.refuses w.ptTile ptEnd = some true →
      ApproachTurn t ptEnd w (.inr (true, w.finder.counted))
  | refused {ptNext : Point} {tag : Nat} :
      Tried t w.finder.counted w.ptTile (getDir w.ptTile ptEnd) ptNext tag →
      w.finder.counted.refuses w.ptTile ptNext = some true → ptNext ≠ ptEnd →
      ApproachTurn t ptEnd w
        (.inr (false, w.finder.counted.pushAround w.ptTile (getDir w.ptTile ptEnd)))
  | arrived {tag : Nat} :
      Tried t w.finder.counted w.ptTile (getDir w.ptTile ptEnd) ptEnd tag →
      w.finder.counted.refuses w.ptTile ptEnd = some false →
      ApproachTurn t ptEnd w
        (.inr (true, w.finder.counted.stepOnto tag (getDir w.ptTile ptEnd) w.pParent 0))
  | walked {ptNext : Point} {tag : Nat} :
      Tried t w.finder.counted w.ptTile (getDir w.ptTile ptEnd) ptNext tag →
      w.finder.counted.refuses w.ptTile ptNext = some false → ptNext ≠ ptEnd →
      ApproachTurn t ptEnd w
        (.inl ⟨w.finder.counted.stepOnto tag (getDir w.ptTile ptEnd) w.pParent 0, ptNext, some tag⟩)

/-- Whether a detour that has come to `ptTile` is over. -/
def detourOver (t : Params) (s : PathFinder) (ptLoc ptEnd ptTile : Point) : Option Bool :=
  if hasOption s.nSearchOption optionStraightway then isOnStraightWay 2 ptTile ptLoc ptEnd
  else s.isCanApproach t ptTile ptEnd

/-- One iteration of `Around`, for any `IsBlock`. -/
inductive AroundTurn (t : Params) (ptLoc : Point) (nTurnDir : Turn) (ptEnd : Point) (d : Detour) :
    Detour ⊕ (Bool × PathFinder) → Prop
  | stop : (∀ ptNext tag, ¬ Tried t d.finder.counted d.ptTile d.nMoveDir ptNext tag) →
      AroundTurn t ptLoc nTurnDir ptEnd d (.inr (false, d.finder.counted))
  | gaveUp {ptNext : Point} {tag : Nat} :
      Tried t d.finder.counted d.ptTile d.nMoveDir ptNext tag →
      d.finder.counted.refuses d.ptTile ptNext = some true → 2 ≤ d.nContinueTurn →
      AroundTurn t ptLoc nTurnDir ptEnd d (.inr (false,
        d.finder.counted.markTileVisited tag (turnDir d.nMoveDir nTurnDir.other) none))
  | turned {ptNext : Point} {tag : Nat} :
      Tried t d.finder.counted d.ptTile d.nMoveDir ptNext tag →
      d.finder.counted.refuses d.ptTile ptNext = some true → d.nContinueTurn < 2 →
      AroundTurn t ptLoc nTurnDir ptEnd d (.inl
        ⟨⟨d.finder.counted.markTileVisited tag (turnDir d.nMoveDir nTurnDir.other) none, d.ptTile,
          d.pParent⟩, turnDir d.nMoveDir nTurnDir.other, d.nContinueTurn + 1⟩)
  | arrived {ptNext : Point} {tag : Nat} :
      Tried t d.finder.counted d.ptTile d.nMoveDir ptNext tag →
      d.finder.counted.refuses d.ptTile ptNext = some false →
      detourOver t (d.finder.counted.stepOnto tag d.nMoveDir d.pParent 1) ptLoc ptEnd ptNext =
        some true →
      AroundTurn t ptLoc nTurnDir ptEnd d
        (.inr (true, d.finder.counted.stepOnto tag d.nMoveDir d.pParent 1))
  | walked {ptNext ptAround : Point} {tag : Nat} {block isBevel : Bool} :
      Tried t d.finder.counted d.ptTile d.nMoveDir ptNext tag →
      d.finder.counted.refuses d.ptTile ptNext = some false →
      detourOver t (d.finder.counted.stepOnto tag d.nMoveDir d.pParent 1) ptLoc ptEnd ptNext =
        some false →
      moveNext ptNext (turnDir d.nMoveDir nTurnDir) = some ptAround →
      d.finder.isBlock ptAround = some block →
      d.finder.isBevelBlock ptAround ptNext = some isBevel →
      AroundTurn t ptLoc nTurnDir ptEnd d (.inl
        ⟨⟨d.finder.counted.stepOnto tag d.nMoveDir d.pParent 1, ptNext, some tag⟩,
          if !block && !isBevel then turnDir d.nMoveDir nTurnDir else d.nMoveDir, 0⟩)

/-- What `IsBevelBlock` and `IsBlock` answer about a move. -/
theorem refuses_of_asked {p q : Point} {isBevel block : Bool}
    (hbevel : s.isBevelBlock p q = some isBevel) (hblock : s.isBlock q = some block) :
    s.refuses p q = some (block || isBevel) := by
  unfold refuses
  rw [hbevel, hblock]
  rfl

/-- The body of the loop of `Approach` takes one of its turns. -/
theorem approachBody_turn {w : Walk} {r : Walk ⊕ (Bool × PathFinder)}
    (h : approachBody t ptEnd w = some r) : ApproachTurn t ptEnd w r := by
  unfold approachBody at h
  dsimp only at h
  split at h
  · rename_i hcount
    obtain ⟨ptNext, hmove, h⟩ := Option.bind_eq_some_iff.1 h
    split at h
    · -- beyond the map or the window
      rename_i hnone
      obtain rfl := Option.some.inj h
      refine .stop fun q tag tried => ?_
      obtain rfl := Option.some.inj (hmove.symm.trans tried.move)
      exact nomatch hnone.symm.trans tried.tag
    · rename_i tag htag
      split at h
      · rename_i hvisited
        obtain rfl := Option.some.inj h
        refine .stop fun q i tried => ?_
        obtain ⟨-, rfl⟩ := tried.toAhead.unique ⟨hmove, htag⟩
        exact Bool.false_ne_true (tried.fresh.symm.trans hvisited)
      · rename_i hvisited
        have tried : Tried t w.finder.counted w.ptTile (getDir w.ptTile ptEnd) ptNext tag :=
          ⟨⟨hmove, htag⟩, hcount, Bool.eq_false_iff.2 hvisited⟩
        obtain ⟨isBevel, hbevel, h⟩ := Option.bind_eq_some_iff.1 h
        obtain ⟨block, hblock, h⟩ := Option.bind_eq_some_iff.1 h
        have hrefuses := refuses_of_asked hbevel hblock
        split at h
        · rename_i href
          rw [href] at hrefuses
          split at h
          · rename_i hend
            obtain rfl := Option.some.inj h
            subst hend
            exact .refusedAtEnd tried hrefuses
          · rename_i hend
            obtain rfl := Option.some.inj h
            exact .refused tried hrefuses hend
        · rename_i href
          rw [Bool.eq_false_iff.2 href] at hrefuses
          split at h
          · rename_i hend
            obtain rfl := Option.some.inj h
            subst hend
            exact .arrived tried hrefuses
          · rename_i hend
            obtain rfl := Option.some.inj h
            exact .walked tried hrefuses hend
  · rename_i hcount
    obtain rfl := Option.some.inj h
    exact .stop fun _ _ tried => hcount tried.inTime

/-- The body of the loop of `Around` takes one of its turns. -/
theorem aroundBody_turn {turn : Turn} {d : Detour} {r : Detour ⊕ (Bool × PathFinder)}
    (h : aroundBody t ptLoc turn ptEnd d = some r) : AroundTurn t ptLoc turn ptEnd d r := by
  unfold aroundBody at h
  dsimp only at h
  split at h
  · rename_i hcount
    obtain ⟨ptNext, hmove, h⟩ := Option.bind_eq_some_iff.1 h
    split at h
    · rename_i hnone
      obtain rfl := Option.some.inj h
      refine .stop fun q tag tried => ?_
      obtain rfl := Option.some.inj (hmove.symm.trans tried.move)
      exact nomatch hnone.symm.trans tried.tag
    · rename_i tag htag
      split at h
      · rename_i hvisited
        obtain rfl := Option.some.inj h
        refine .stop fun q i tried => ?_
        obtain ⟨-, rfl⟩ := tried.toAhead.unique ⟨hmove, htag⟩
        exact Bool.false_ne_true (tried.fresh.symm.trans hvisited)
      · rename_i hvisited
        have tried : Tried t d.finder.counted d.ptTile d.nMoveDir ptNext tag :=
          ⟨⟨hmove, htag⟩, hcount, Bool.eq_false_iff.2 hvisited⟩
        obtain ⟨block, hblock, h⟩ := Option.bind_eq_some_iff.1 h
        obtain ⟨isBevel, hbevel, h⟩ := Option.bind_eq_some_iff.1 h
        have hrefuses := refuses_of_asked hbevel hblock
        split at h
        · rename_i href
          rw [href] at hrefuses
          split at h
          · rename_i hturns
            obtain rfl := Option.some.inj h
            exact .gaveUp tried hrefuses (by omega)
          · rename_i hturns
            obtain rfl := Option.some.inj h
            exact .turned tried hrefuses (by omega)
        · rename_i href
          rw [Bool.eq_false_iff.2 href] at hrefuses
          obtain ⟨bReturn, hover, h⟩ := Option.bind_eq_some_iff.1 h
          have hover' : detourOver t (d.finder.counted.stepOnto tag d.nMoveDir d.pParent 1) ptLoc
              ptEnd ptNext = some bReturn := hover
          split at h
          · rename_i hreturn
            obtain rfl := Option.some.inj h
            exact .arrived tried hrefuses (hreturn ▸ hover')
          · rename_i hreturn
            -- the look at the tile beside only decides where to go next
            rw [Bool.eq_false_iff.2 hreturn] at hover'
            obtain ⟨ptAround, hmove', h⟩ := Option.bind_eq_some_iff.1 h
            obtain ⟨isBevel', hbevel', h⟩ := Option.bind_eq_some_iff.1 h
            obtain ⟨block', hblock', h⟩ := Option.bind_eq_some_iff.1 h
            have hwalked := AroundTurn.walked tried hrefuses hover' hmove' hblock' hbevel'
            split at h
            · rename_i hfree
              obtain rfl := Option.some.inj h
              rw [if_pos hfree] at hwalked
              exact hwalked
            · rename_i hfree
              obtain rfl := Option.some.inj h
              rw [if_neg hfree] at hwalked
              exact hwalked
  · rename_i hcount
    obtain rfl := Option.some.inj h
    exact .stop fun _ _ tried => hcount tried.inTime

/-! ## Steps on a pure map -/

/-- With a pure `IsBlock` a move is refused where it is blocked or cuts a corner, -/
theorem refuses_eq_true (hf : s.Pure f) {p q : Point} (hp : p.InRange) (hq : q.InRange) :
    s.refuses p q = some true ↔ Refused f p q := by
  rw [hf.answers.refuses hp hq (.inl trivial) (.inl trivial), Option.some.injEq, decide_eq_true_iff]

/-- and nowhere else. -/
theorem refuses_eq_false (hf : s.Pure f) {p q : Point} (hp : p.InRange) (hq : q.InRange) :
    s.refuses p q = some false ↔ ¬ Refused f p q := by
  rw [hf.answers.refuses hp hq (.inl trivial) (.inl trivial), Option.some.injEq,
    decide_eq_false_iff_not]

/-- The turns of `Approach` with a pure `IsBlock`. -/
theorem approachBody_step {w : Walk} {r : Walk ⊕ (Bool × PathFinder)} (hf : w.finder.Pure f)
    (hw : w.ptTile.InRange) (h : approachBody t ptEnd w = some r) : ApproachStep t f ptEnd w r := by
  have hf' : w.finder.counted.Pure f := hf
  cases approachBody_turn h with
  | stop _ => exact .stop
  | refusedAtEnd tried href =>
    exact .refusedAtEnd tried.toAhead ((refuses_eq_true hf' hw tried.inRange).1 href)
  | refused tried href hne =>
    exact .refused tried.toAhead ((refuses_eq_true hf' hw tried.inRange).1 href) hne
  | arrived tried href =>
    exact .arrived tried.toAhead ((refuses_eq_false hf' hw tried.inRange).1 href)
  | walked tried href hne =>
    exact .walked tried.toAhead ((refuses_eq_false hf' hw tried.inRange).1 href) hne

/-- The turns of `Around` with a pure `IsBlock`. -/
theorem aroundBody_step {turn : Turn} {d : Detour} {r : Detour ⊕ (Bool × PathFinder)}
    (hf : d.finder.Pure f) (hd : d.ptTile.InRange)
    (h : aroundBody t ptLoc turn ptEnd d = some r) : AroundStep t f d r := by
  have hf' : d.finder.counted.Pure f := hf
  -- each outcome of the turn, with the answers of the finder read as facts about the map
  cases aroundBody_turn h with
  | stop _ => exact .stop
  | gaveUp tried href _ =>
    exact .gaveUp tried.toAhead ((refuses_eq_true hf' hd tried.inRange).1 href)
  | turned tried href _ =>
    exact .turned tried.toAhead ((refuses_eq_true hf' hd tried.inRange).1 href)
      (turnDir_cardinal _ _)
  | arrived tried href _ =>
    exact .arrived tried.toAhead ((refuses_eq_false hf' hd tried.inRange).1 href)
  | walked tried href _ _ _ _ =>
    apply AroundStep.walked tried.toAhead ((refuses_eq_false hf' hd tried.inRange).1 href)
    split
    · exact .inr (turnDir_cardinal _ _)
    · exact .inl rfl

/-! ## What a step keeps -/

/-- The map and the search are the same. -/
structure SameSearch (s s' : PathFinder) : Prop where
  ptStart : s'.ptStart = s.ptStart
  ptEnd : s'.ptEnd = s.ptEnd
  nMapWidth : s'.nMapWidth = s.nMapWidth
  nMapHeight : s'.nMapHeight = s.nMapHeight
  blockFunc : s'.blockFunc = s.blockFunc
  nFind : s'.nFind = s.nFind
  nSearchOption : s'.nSearchOption = s.nSearchOption
  nMaxStep : s'.nMaxStep = s.nMaxStep
  pathTemp : s'.pathTemp = s.pathTemp

namespace SameSearch

/-- Nothing has changed. -/
theorem refl (s : PathFinder) : SameSearch s s :=
  ⟨rfl, rfl, rfl, rfl, rfl, rfl, rfl, rfl, rfl⟩

/-- One change after the other. -/
theorem trans (h : SameSearch s s') (h' : SameSearch s' s'') : SameSearch s s'' :=
  ⟨h'.ptStart.trans h.ptStart, h'.ptEnd.trans h.ptEnd, h'.nMapWidth.trans h.nMapWidth,
    h'.nMapHeight.trans h.nMapHeight, h'.blockFunc.trans h.blockFunc, h'.nFind.trans h.nFind,
    h'.nSearchOption.trans h.nSearchOption, h'.nMaxStep.trans h.nMaxStep,
    h'.pathTemp.trans h.pathTemp⟩

/-- The window lies where it did, so the tags are the same, -/
theorem getTileTag (h : SameSearch s s') (p : Point) :
    s'.getTileTag t p = s.getTileTag t p := by
  unfold PathFinder.getTileTag
  rw [h.ptStart, h.nMapWidth, h.nMapHeight]

/-- and so are their tiles. -/
theorem tileToPoint (h : SameSearch s s') (tag : Nat) :
    s'.tileToPoint t tag = s.tileToPoint t tag := by
  unfold PathFinder.tileToPoint
  rw [h.ptStart]

/-- The map is the same. -/
theorem sameMap (h : SameSearch s s') : SameMap s s' :=
  ⟨h.nMapWidth, h.nMapHeight, h.blockFunc⟩

/-- `IsBlock` is the same. -/
theorem pure (h : SameSearch s s') (hf : s.Pure f) : s'.Pure f := h.blockFunc.trans hf

end SameSearch

/-- The tag was touched in the running search. -/
def Carries (s : PathFinder) (tag : Nat) : Prop := (s.tileTags tag).nFindID = s.nFind

instance (s : PathFinder) (tag : Nat) : Decidable (s.Carries tag) :=
  inferInstanceAs (Decidable (_ = _))

/-- No tag carries the number of the next search. -/
def Unused (t : Params) (s : PathFinder) : Prop :=
  ∀ tag < t.maxSearchArea * t.maxSearchArea, (s.tileTags tag).nFindID ≠ (s.nFind + 1) % 65536

/-- Only the running search has put its number into tags. -/
structure SameIds (s s' : PathFinder) : Prop extends SameSearch s s' where
  ids : ∀ tag, (s'.tileTags tag).nFindID = (s.tileTags tag).nFindID ∨ s'.Carries tag

namespace SameIds

/-- Nothing has changed. -/
theorem refl (s : PathFinder) : SameIds s s := ⟨.refl s, fun _ => .inl rfl⟩

/-- A tag that takes the number of the search keeps it. -/
theorem trans (h : SameIds s s') (h' : SameIds s' s'') : SameIds s s'' where
  toSameSearch := h.toSameSearch.trans h'.toSameSearch
  ids := fun tag => by
    cases h'.ids tag with
    | inl hkept =>
      cases h.ids tag with
      | inl hold => exact .inl (hkept.trans hold)
      | inr hc => exact .inr (hkept.trans (hc.trans h'.nFind.symm))
    | inr hc => exact .inr hc

end SameIds

/-- The search went on: tags it had touched keep their parents. -/
structure Extends (s s' : PathFinder) : Prop extends SameIds s s' where
  tags : ∀ tag, s.Carries tag →
    s'.Carries tag ∧ (s'.tileTags tag).pParent = (s.tileTags tag).pParent

namespace Extends

/-- Nothing has changed. -/
theorem refl (s : PathFinder) : Extends s s := ⟨.refl s, fun _ h => ⟨h, rfl⟩⟩

/-- The tags of the search and their parents stay. -/
theorem trans (h : Extends s s') (h' : Extends s' s'') : Extends s s'' where
  toSameIds := h.toSameIds.trans h'.toSameIds
  tags := fun tag hc =>
    ⟨(h'.tags tag (h.tags tag hc).1).1,
      (h'.tags tag (h.tags tag hc).1).2.trans (h.tags tag hc).2⟩

end Extends

/-- Neither the tags nor `m_pNearestTile` have changed. -/
structure SameTags (s s' : PathFinder) : Prop extends SameSearch s s' where
  tileTags : s'.tileTags = s.tileTags
  pNearestTile : s'.pNearestTile = s.pNearestTile

namespace SameTags

/-- Nothing has changed. -/
theorem refl (s : PathFinder) : SameTags s s := ⟨.refl s, rfl, rfl⟩

/-- One change after the other. -/
theorem trans (h : SameTags s s') (h' : SameTags s' s'') : SameTags s s'' :=
  ⟨h.toSameSearch.trans h'.toSameSearch, h'.tileTags.trans h.tileTags,
    h'.pNearestTile.trans h.pNearestTile⟩

/-- The same tags carry the number of the search. -/
theorem carries (h : SameTags s s') {tag : Nat} : s'.Carries tag ↔ s.Carries tag := by
  unfold Carries
  rw [h.tileTags, h.nFind]

/-- Tags that are the same carry the same numbers, -/
theorem toSameIds (h : SameTags s s') : SameIds s s' where
  toSameSearch := h.toSameSearch
  ids := fun tag => .inl (by rw [h.tileTags])

/-- and have the same parents. -/
theorem toExtends (h : SameTags s s') : Extends s s' where
  toSameIds := h.toSameIds
  tags := fun tag hc => ⟨h.carries.2 hc, by rw [h.tileTags]⟩

end SameTags

/-- A change to a tag is no change to the map or the search. -/
theorem modifyTag_same (s : PathFinder) (tag : Nat) (g : TileTag → TileTag) :
    SameSearch s (s.modifyTag tag g) := ⟨rfl, rfl, rfl, rfl, rfl, rfl, rfl, rfl, rfl⟩

/-- It is a change to no other tag. -/
theorem modifyTag_tileTags (s : PathFinder) (tag i : Nat) (g : TileTag → TileTag) :
    (s.modifyTag tag g).tileTags i = if i = tag then g (s.tileTags tag) else s.tileTags i := by
  unfold modifyTag
  exact Function.update_apply _ _ _ _

/-- The tag that is changed. -/
theorem modifyTag_self (s : PathFinder) (tag : Nat) (g : TileTag → TileTag) :
    (s.modifyTag tag g).tileTags tag = g (s.tileTags tag) := by
  rw [modifyTag_tileTags, if_pos rfl]

/-- A tag is taken into the search. -/
theorem modifyTag_carries {tag i : Nat} {g : TileTag → TileTag}
    (hg : (g (s.tileTags tag)).nFindID = s.nFind) :
    (s.modifyTag tag g).Carries i ↔ i = tag ∨ s.Carries i := by
  unfold Carries
  rw [modifyTag_tileTags]
  split
  · rename_i hi
    exact ⟨fun _ => .inl hi, fun _ => hg⟩
  · rename_i hi
    exact ⟨.inr, fun hc => hc.resolve_left hi⟩

/-- One tag gets the number of the search or keeps its own. -/
theorem modifyTag_sameIds {tag : Nat} {g : TileTag → TileTag}
    (hg : (g (s.tileTags tag)).nFindID = s.nFind) : SameIds s (s.modifyTag tag g) where
  toSameSearch := modifyTag_same _ _ _
  ids := fun i => by
    unfold Carries
    rw [modifyTag_tileTags]
    split
    · exact .inr hg
    · exact .inl rfl

/-- Counting a step leaves the tags alone, -/
theorem counted_sameTags (s : PathFinder) : SameTags s s.counted :=
  ⟨⟨rfl, rfl, rfl, rfl, rfl, rfl, rfl, rfl, rfl⟩, rfl, rfl⟩

/-- and the map. -/
theorem counted_sameMap (s : PathFinder) : SameMap s s.counted := ⟨rfl, rfl, rfl⟩

/-- The queue of the places to go around belongs to no tag. -/
theorem setAroundQueue_sameTags (s : PathFinder) (queue : List AroundPoint) :
    SameTags s { s with aroundQueue := queue } :=
  ⟨⟨rfl, rfl, rfl, rfl, rfl, rfl, rfl, rfl, rfl⟩, rfl, rfl⟩

/-- Detours are kept in a queue of their own. -/
theorem pushAround_sameTags (s : PathFinder) (p : Point) (dir : Int) :
    SameTags s (s.pushAround p dir) :=
  ⟨⟨rfl, rfl, rfl, rfl, rfl, rfl, rfl, rfl, rfl⟩, rfl, rfl⟩

/-- A corner is recorded in members of its own. -/
theorem recordCornerAt_sameTags (s : PathFinder) (p : Point) (corner : Nat)
    (ahead : Point → Point → Bool) : SameTags s (s.recordCornerAt t p corner ahead) := by
  unfold recordCornerAt
  split
  · exact ⟨⟨rfl, rfl, rfl, rfl, rfl, rfl, rfl, rfl, rfl⟩, rfl, rfl⟩
  · exact .refl s

/-- What does not read the corners does not see that one is recorded. -/
theorem recordCorner_reads {β : Type} (reads : PathFinder → β)
    (hreads : ∀ (r : PathFinder) (corners : Nat → Point) (flag : Nat → Nat),
      reads { r with corners := corners, nCornerFlag := flag } = reads r)
    (s : PathFinder) (p : Point) : reads (s.recordCorner t p) = reads s := by
  have hnext : ∀ (r : PathFinder) (corner : Nat) (ahead : Point → Point → Bool),
      reads (r.recordCornerAt t p corner ahead) = reads r := by
    intro r corner ahead
    unfold recordCornerAt
    split
    · exact hreads r _ _
    · rfl
  unfold recordCorner
  simp only [hnext]

/-- No detour is taken or added when the corners are recorded, -/
theorem recordCorner_aroundQueue (s : PathFinder) (p : Point) :
    (s.recordCorner t p).aroundQueue = s.aroundQueue :=
  recordCorner_reads PathFinder.aroundQueue (fun _ _ _ => rfl) s p

/-- What does not read the tags does not see that one becomes a root. -/
theorem makeRoot_reads {β : Type} (reads : PathFinder → β)
    (hreads : ∀ tags, reads { s with tileTags := tags } = reads s) (tag : Nat) :
    reads (s.makeRoot tag) = reads s := by
  unfold makeRoot
  split
  · exact hreads _
  · rfl

/-- or when a walk begins. -/
theorem makeRoot_aroundQueue (s : PathFinder) (tag : Nat) :
    (s.makeRoot tag).aroundQueue = s.aroundQueue :=
  makeRoot_reads PathFinder.aroundQueue (fun _ => rfl) tag

/-- The four corners are recorded in members of their own. -/
theorem recordCorner_sameTags (s : PathFinder) (p : Point) : SameTags s (s.recordCorner t p) := by
  unfold recordCorner
  apply SameTags.trans _ (recordCornerAt_sameTags _ _ _ _)
  apply SameTags.trans _ (recordCornerAt_sameTags _ _ _ _)
  apply SameTags.trans _ (recordCornerAt_sameTags _ _ _ _)
  exact recordCornerAt_sameTags _ _ _ _

/-- A marked tag carries the number of the search. -/
theorem markTileVisited_carries {tag i : Nat} {dir : Int} {parent : Option Nat} :
    (s.markTileVisited tag dir parent).Carries i ↔ i = tag ∨ s.Carries i := by
  apply modifyTag_carries
  split
  · rfl
  · rename_i hc
    exact not_not.1 hc

/-- It gets its parent with the number; a second mark leaves the parent. -/
theorem markTileVisited_pParent {tag i : Nat} {dir : Int} {parent : Option Nat} :
    ((s.markTileVisited tag dir parent).tileTags i).pParent =
      if i = tag ∧ ¬ s.Carries tag then parent else (s.tileTags i).pParent := by
  unfold Carries markTileVisited
  rw [modifyTag_tileTags]
  by_cases hi : i = tag
  · subst hi
    by_cases hc : (s.tileTags i).nFindID = s.nFind <;> simp [hc]
  · simp [hi]

/-- No tag gets another number than that of the search. -/
theorem markTileVisited_sameIds (s : PathFinder) (tag : Nat) (dir : Int) (parent : Option Nat) :
    SameIds s (s.markTileVisited tag dir parent) := by
  apply modifyTag_sameIds
  split
  · rfl
  · rename_i hc
    exact not_not.1 hc

/-- A mark only adds to the tags of the search. -/
theorem markTileVisited_extends (s : PathFinder) (tag : Nat) (dir : Int) (parent : Option Nat) :
    Extends s (s.markTileVisited tag dir parent) where
  toSameIds := markTileVisited_sameIds _ _ _ _
  tags := fun i hc => by
    constructor
    · exact markTileVisited_carries.2 (.inr hc)
    · rw [markTileVisited_pParent, if_neg]
      intro h
      exact h.2 (h.1 ▸ hc)

/-- `stepOnto` touches the same tags as `MarkTileVisited`. -/
theorem stepOnto_tag {tag i around : Nat} {dir : Int} {parent : Option Nat} :
    ((s.stepOnto tag dir parent around).tileTags i).nFindID =
        ((s.markTileVisited tag dir parent).tileTags i).nFindID ∧
      ((s.stepOnto tag dir parent around).tileTags i).pParent =
        ((s.markTileVisited tag dir parent).tileTags i).pParent := by
  unfold stepOnto
  dsimp only
  rw [modifyTag_tileTags]
  split
  · rename_i hi
    subst hi
    exact ⟨rfl, rfl⟩
  · exact ⟨rfl, rfl⟩

/-- So does the tag of a tile that is stepped onto. -/
theorem stepOnto_carries {tag i around : Nat} {dir : Int} {parent : Option Nat} :
    (s.stepOnto tag dir parent around).Carries i ↔ i = tag ∨ s.Carries i := by
  rw [← @markTileVisited_carries s tag i dir parent]
  unfold Carries
  rw [stepOnto_tag.1]
  rfl

/-- A tile that was visited before keeps its parent. -/
theorem stepOnto_pParent {tag i around : Nat} {dir : Int} {parent : Option Nat} :
    ((s.stepOnto tag dir parent around).tileTags i).pParent =
      if i = tag ∧ ¬ s.Carries tag then parent else (s.tileTags i).pParent :=
  stepOnto_tag.2.trans markTileVisited_pParent

/-- A step only adds to the tags of the search. -/
theorem stepOnto_extends (s : PathFinder) (tag around : Nat) (dir : Int) (parent : Option Nat) :
    Extends s (s.stepOnto tag dir parent around) where
  toSameSearch := ⟨rfl, rfl, rfl, rfl, rfl, rfl, rfl, rfl, rfl⟩
  ids := fun i => by
    rw [stepOnto_tag.1, stepOnto_carries, ← @markTileVisited_carries s tag i dir parent]
    exact (markTileVisited_sameIds s tag dir parent).ids i
  tags := fun i hc => by
    constructor
    · exact stepOnto_carries.2 (.inr hc)
    · rw [stepOnto_pParent, if_neg]
      intro h
      exact h.2 (h.1 ▸ hc)

/-- A walk that begins on a visited tile leaves the tag as it is. -/
theorem makeRoot_of_carries {tag : Nat} (h : s.Carries tag) : s.makeRoot tag = s :=
  if_neg (not_not_intro h)

/-- Elsewhere its first tile is a root. -/
theorem makeRoot_of_not_carries {tag : Nat} (h : ¬ s.Carries tag) :
    s.makeRoot tag = s.modifyTag tag fun old =>
      { old with pParent := none, nMoveDir := 0, nFindID := s.nFind } :=
  if_pos h

/-- The first tile of a walk carries the number of the search. -/
theorem makeRoot_carries (s : PathFinder) (tag : Nat) : (s.makeRoot tag).Carries tag := by
  by_cases hc : s.Carries tag
  · rw [makeRoot_of_carries hc]
    exact hc
  · rw [makeRoot_of_not_carries hc]
    exact (modifyTag_carries rfl).2 (.inl rfl)

/-- The beginning of a walk only adds to the tags of the search. -/
theorem makeRoot_extends (s : PathFinder) (tag : Nat) : Extends s (s.makeRoot tag) := by
  by_cases hc : s.Carries tag
  · rw [makeRoot_of_carries hc]
    exact .refl s
  · rw [makeRoot_of_not_carries hc]
    constructor
    · exact modifyTag_sameIds rfl
    · intro i hi
      have hne : i ≠ tag := fun h => hc (h ▸ hi)
      unfold Carries
      rw [modifyTag_tileTags, if_neg hne]
      exact ⟨hi, rfl⟩

/-- One tag was taken into the search or got another parent. -/
structure Reparented (s s' : PathFinder) (tag parent : Nat) : Prop extends SameIds s s' where
  carries : ∀ i, s'.Carries i ↔ i = tag ∨ s.Carries i
  parent : ∀ i, (s'.tileTags i).pParent = if i = tag then some parent else (s.tileTags i).pParent
  nearest : s'.pNearestTile = s.pNearestTile ∨ s'.pNearestTile = some tag

/-- A new parent is not a new number. -/
theorem setParent_nFindID (s : PathFinder) (i j : Nat) (parent : Option Nat) :
    ((s.modifyTag i fun old => { old with pParent := parent }).tileTags j).nFindID =
      (s.tileTags j).nFindID := by
  rw [modifyTag_tileTags]
  split
  · rename_i hj
    rw [hj]
  · rfl

/-- Setting a parent changes no other one. -/
theorem setParent_pParent (s : PathFinder) (i j : Nat) (parent : Option Nat) :
    ((s.modifyTag i fun old => { old with pParent := parent }).tileTags j).pParent =
      if j = i then parent else (s.tileTags j).pParent := by
  rw [modifyTag_tileTags]
  split <;> rfl

/-- A change to one tag that gives it a parent and the number of the search. -/
theorem modifyTag_reparented {tag parent : Nat} (g : TileTag → TileTag)
    (hparent : (g (s.tileTags tag)).pParent = some parent)
    (hfind : (g (s.tileTags tag)).nFindID = s.nFind) :
    Reparented s (s.modifyTag tag g) tag parent where
  toSameIds := modifyTag_sameIds hfind
  carries := fun _ => modifyTag_carries hfind
  parent := fun i => by
    rw [modifyTag_tileTags]
    split
    · exact hparent
    · rfl
  nearest := .inl rfl

/-- One such change after another to the same tag. -/
theorem Reparented.trans {tag parent : Nat} {s'' : PathFinder} (h : Reparented s s' tag parent)
    (h' : Reparented s' s'' tag parent) : Reparented s s'' tag parent where
  toSameIds := h.toSameIds.trans h'.toSameIds
  carries := fun i => by
    rw [h'.carries, h.carries, ← or_assoc, or_self]
  parent := fun i => by
    rw [h'.parent, h.parent]
    split <;> rfl
  nearest := by
    cases h'.nearest with
    | inl hsame => exact hsame ▸ h.nearest
    | inr htag => exact .inr htag

end XGame3.PathFinder
