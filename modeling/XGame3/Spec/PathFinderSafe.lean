import XGame3.Spec.PathFinderReconnect
import XGame3.Spec.PathFinderStraightTest

/-!
# The wall-following search returns

`FindPathCore` faults where an assertion fails, where it writes through a null pointer and
where `IsBlock` does not allow a call.  The invariant `CoreSafe` holds at every point of a
search, on any map and whatever `IsBlock` answers.  From it follows that only an iteration
of `Around` can fault, in two ways that `MayGoOn` excludes: a detour steps onto the target,
or the tile it looks at beside itself may not be asked about.

Key results:
- `CoreStep.safe`: every transition keeps the invariant
- `findPathCore_returns`: the search returns when every detour may go on
- `findPathCore_mayGoOn`: only then
-/

namespace XGame3.PathFinder

open FixedInt

variable {t : Params} {s s' : PathFinder} {f : Point → Bool} {anywhere : Prop}
  {ptStart ptEnd : Point}

/-! ## The invariant -/

/-- A tile of the map inside the window. -/
structure OnTile (t : Params) (s : PathFinder) (p : Point) : Prop where
  inRange : p.InRange
  tag : ∃ tag, s.getTileTag t p = some tag

/-- Only tiles of the map have tags. -/
theorem OnTile.onMap {p : Point} (h : OnTile t s p) : s.OnMap p := by
  obtain ⟨tag, htag⟩ := h.tag
  exact onMap_of_getTileTag h.inRange htag

/-- `IsBlock` answers about a tile that has a tag. -/
theorem OnTile.askable {p : Point} (h : OnTile t s p) : s.Askable anywhere p := h.onMap.askable

/-- The window stays during a search. -/
theorem SameSearch.onTile {p : Point} (h : SameSearch s s') (hp : OnTile t s p) : OnTile t s' p :=
  ⟨hp.inRange, hp.tag.imp fun _ htag => (h.getTileTag p).trans htag⟩

/-- The tile ahead has a tag. -/
theorem Ahead.onTile {p q : Point} {dir : Int} {tag : Nat} (h : Ahead t s p dir q tag) :
    OnTile t s q := ⟨h.inRange, tag, h.tag⟩

/-- The tile of a tag that was found. -/
theorem Placed.onTile {tag : Nat} (h : Placed t s tag) : OnTile t s (s.tileToPoint t tag) :=
  ⟨h.inRange, tag, h.tag⟩

/-- One of the four straight directions. -/
structure Straight (dir : Int) : Prop where
  even : dir % 2 = 0
  range : 0 ≤ dir ∧ dir < 8

/-- A turn from a straight direction leads to one, -/
theorem Straight.turn {dir : Int} (h : Straight dir) (turn : Turn) : Straight (turnDir dir turn) :=
  ⟨turnDir_cardinal _ _, turnDir_range turn h.range.1 h.range.2⟩

/-- and each of them is in the table. -/
theorem Straight.moveNext {dir : Int} (h : Straight dir) (p : Point) :
    ∃ q, moveNext p dir = some q := by
  have hlt := h.range.2
  obtain ⟨q, hq⟩ := moveNext_exists (p := p) (show dir.toNat < 8 by omega)
  rw [Int.toNat_of_nonneg h.range.1] at hq
  exact ⟨q, hq⟩

/-- Between different tiles there is one of the eight directions. -/
theorem getDir_range {p q : Point} (h : p ≠ q) : 0 ≤ getDir p q ∧ getDir p q < 8 := by
  have hmove := moveNext_getDir_eq h
  unfold moveNext at hmove
  split at hmove
  · rename_i hnonneg
    obtain ⟨d, hd, -⟩ := Option.map_eq_some_iff.1 hmove
    obtain ⟨hlt, -⟩ := mem_dirNextTable hd
    omega
  · exact nomatch hmove

/-- What holds of the members throughout a search. -/
structure Steady (t : Params) (s : PathFinder) : Prop where
  nearest : ∀ tag, s.pNearestTile = some tag → Placed t s tag
  queue : ∀ a ∈ s.aroundQueue, Straight a.nMoveDir ∧ OnTile t s a.ptTile
  corners : hasOption s.nSearchOption optionOptimize = true →
    ∀ i, s.nCornerFlag i < invalidCornerFlag → (s.corners i).InRange

/-- What is new in the queue, or nearest, are tiles of the window. -/
theorem Steady.next (h : Steady t s) (hsame : SameSearch s s') (hcorners : SameCorners s s')
    (hnear : ∀ tag, s'.pNearestTile = some tag → s.pNearestTile = some tag ∨ Placed t s tag)
    (hqueue : ∀ a ∈ s'.aroundQueue,
      a ∈ s.aroundQueue ∨ Straight a.nMoveDir ∧ OnTile t s a.ptTile) : Steady t s' where
  nearest := fun tag htag => hsame.placed ((hnear tag htag).elim (h.nearest tag) id)
  queue := fun a ha => ((hqueue a ha).elim (h.queue a) id).imp_right hsame.onTile
  corners := by
    rw [hsame.nSearchOption, hcorners.corners, hcorners.flags]
    exact h.corners

/-- A step is counted. -/
theorem Steady.counted (h : Steady t s) : Steady t s.counted :=
  h.next (counted_sameTags s).toSameSearch ⟨rfl, rfl⟩ (fun _ => .inl) fun _ => .inl

/-- A walk begins. -/
theorem Steady.makeRoot (h : Steady t s) (tag : Nat) : Steady t (s.makeRoot tag) := by
  have hqueue : (s.makeRoot tag).aroundQueue = s.aroundQueue := by
    unfold PathFinder.makeRoot
    split <;> rfl
  exact h.next (makeRoot_extends s tag).toSameSearch (makeRoot_sameCorners s tag)
    (fun i hi => .inl ((makeRoot_kept s tag).pNearestTile.symm.trans hi))
    fun a ha => .inl (hqueue ▸ ha)

/-- A tag is marked. -/
theorem Steady.mark (h : Steady t s) (tag : Nat) (dir : Int) (parent : Option Nat) :
    Steady t (s.markTileVisited tag dir parent) :=
  h.next (markTileVisited_extends s tag dir parent).toSameSearch ⟨rfl, rfl⟩ (fun _ => .inl)
    fun _ => .inl

/-- The tile stepped onto becomes the nearest. -/
theorem Steady.stepOnto (h : Steady t s) {p q : Point} {tag : Nat} {dir : Int}
    (ahead : Ahead t s p dir q tag) (parent : Option Nat) (bAround : Nat) :
    Steady t (s.stepOnto tag dir parent bAround) := by
  apply h.next (stepOnto_extends s tag bAround dir parent).toSameSearch ⟨rfl, rfl⟩ _ fun _ => .inl
  intro i hi
  obtain rfl := Option.some.inj hi
  exact .inr (.of_tag ahead.inRange ahead.tag)

/-- Both ways around are straight. -/
theorem Steady.pushAround (h : Steady t s) {p : Point} {dir : Int} (hp : OnTile t s p)
    (hdir : 0 ≤ dir ∧ dir < 8) : Steady t (s.pushAround p dir) := by
  have hstraight : ∀ turn, Straight (turnDir dir turn) := fun turn =>
    ⟨turnDir_cardinal _ _, turnDir_range turn hdir.1 hdir.2⟩
  apply h.next (pushAround_sameTags s p dir).toSameSearch ⟨rfl, rfl⟩ fun _ => .inl
  intro a ha
  simp only [PathFinder.pushAround, List.mem_cons] at ha
  rcases ha with rfl | rfl | hold
  · exact .inr ⟨hstraight .ccw, hp⟩
  · exact .inr ⟨hstraight .cw, hp⟩
  · exact .inl hold

/-- A point becomes a corner. -/
theorem Steady.recordCorner (h : Steady t s) {p : Point} (hp : p.InRange) :
    Steady t (s.recordCorner t p) := by
  have hsame := recordCorner_sameTags (t := t) s p
  constructor
  · intro tag htag
    exact hsame.toSameSearch.placed (h.nearest tag (hsame.pNearestTile.symm.trans htag))
  · intro a ha
    rw [recordCorner_aroundQueue] at ha
    exact (h.queue a ha).imp_right hsame.toSameSearch.onTile
  · intro hopt
    exact recordCorner_corners Point.InRange hp (h.corners (hsame.nSearchOption ▸ hopt))

/-- The invariant at every point. -/
def CoreSafe (t : Params) (ptEnd : Point) : CorePoint → Prop
  | .call p s => Steady t s ∧ p.InRange ∧ (s.pNearestTile = none ∨ OnTile t s p)
  | .approach w => Steady t w.finder ∧ OnTile t w.finder w.ptTile ∧ w.ptTile ≠ ptEnd
  | .drain s => Steady t s
  | .around _ d => Steady t d.finder ∧ OnTile t d.finder d.ptTile ∧ Straight d.nMoveDir
  | .done ret s => Steady t s ∧
      (ret = true → s.pNearestTile = none ∨ ∃ tag, s.getTileTag t ptEnd = some tag)

/-! ## Every transition keeps it -/

/-- An iteration of `Approach`, which adds detours from the tile it stands on. -/
theorem CoreSafe.approachBody {w : Walk} {r : Walk ⊕ (Bool × PathFinder)}
    (h : CoreSafe t ptEnd (.approach w)) (hr : approachBody t ptEnd w = some r) :
    match r with
    | .inl w' => CoreSafe t ptEnd (.approach w')
    | .inr (true, s') => CoreSafe t ptEnd (.done true s')
    | .inr (false, s') => CoreSafe t ptEnd (.drain s') := by
  obtain ⟨hsteady, htile, hne⟩ := h
  have hcount := hsteady.counted
  cases approachBody_turn hr with
  | stop _ => exact hcount
  | refusedAtEnd tried _ => exact ⟨hcount, fun _ => .inr ⟨_, tried.tag⟩⟩
  | refused tried _ _ =>
    -- the turning point is inside the window, and its direction is one of the eight
    have htile' := (counted_sameTags w.finder).toSameSearch.onTile htile
    exact hcount.pushAround htile' (getDir_range hne)
  | @arrived tag tried _ =>
    -- the target has a tag
    have hsame := (stepOnto_extends w.finder.counted tag 0 (getDir w.ptTile ptEnd)
      w.pParent).toSameSearch
    exact ⟨hcount.stepOnto tried.toAhead _ _,
      fun _ => .inr ⟨tag, (hsame.getTileTag _).trans tried.tag⟩⟩
  | @walked ptNext tag tried _ hne' =>
    -- the tile walked to has a tag, and the target lies ahead of it
    have hsame := (stepOnto_extends w.finder.counted tag 0 (getDir w.ptTile ptEnd)
      w.pParent).toSameSearch
    exact ⟨hcount.stepOnto tried.toAhead _ _, hsame.onTile tried.toAhead.onTile, hne'⟩

/-- After a detour `Approach` goes on from the nearest tile. -/
theorem Steady.afterAround {tag : Nat} (h : Steady t s) (htag : s.pNearestTile = some tag) :
    CoreSafe t ptEnd (afterAround t s tag) := by
  have htile := (h.nearest tag htag).onTile
  have hsame := recordCorner_sameTags (t := t) s (s.tileToPoint t tag)
  unfold PathFinder.afterAround
  split
  · exact ⟨h.recordCorner htile.inRange, htile.inRange, .inr (hsame.toSameSearch.onTile htile)⟩
  · exact ⟨h, htile.inRange, .inr htile⟩

/-- An iteration of `Around`, which moves straight on or turns to a straight direction. -/
theorem CoreSafe.aroundBody {a : AroundPoint} {d : Detour} {r : Detour ⊕ (Bool × PathFinder)}
    (h : CoreSafe t ptEnd (.around a d))
    (hr : aroundBody t a.ptTile a.nTurnDir ptEnd d = some r) :
    match r with
    | .inl d' => CoreSafe t ptEnd (.around a d')
    | .inr r => Steady t r.2 := by
  obtain ⟨hsteady, htile, hstraight⟩ := h
  have hcount := hsteady.counted
  cases aroundBody_turn hr with
  | stop _ => exact hcount
  | gaveUp _ _ _ => exact hcount.mark _ _ _
  | @turned ptNext tag _ _ _ =>
    -- a turn stays on its tile and in a straight direction
    have hsame := (counted_sameTags d.finder).toSameSearch.trans
      (markTileVisited_extends _ tag (turnDir d.nMoveDir a.nTurnDir.other) none).toSameSearch
    exact ⟨hcount.mark _ _ _, hsame.onTile htile, hstraight.turn _⟩
  | arrived tried _ _ => exact hcount.stepOnto tried.toAhead _ _
  | @walked ptNext ptAround tag block isBevel tried _ _ _ _ _ =>
    have hsame := (stepOnto_extends d.finder.counted tag 1 d.nMoveDir d.pParent).toSameSearch
    -- a step may turn as well
    have hdir : Straight (if !block && !isBevel then turnDir d.nMoveDir a.nTurnDir
        else d.nMoveDir) := by
      split
      · exact hstraight.turn _
      · exact hstraight
    exact ⟨hcount.stepOnto tried.toAhead _ _, hsame.onTile tried.toAhead.onTile, hdir⟩

/-- Every transition keeps the invariant. -/
theorem CoreStep.safe {c c' : CorePoint} (h : CoreStep t ptEnd c c') (hc : CoreSafe t ptEnd c) :
    CoreSafe t ptEnd c' := by
  cases h with
  | approachAtEnd => exact ⟨hc.1, fun _ => hc.2.2.imp_right OnTile.tag⟩
  | approachOutside _ _ => exact hc.1
  | @approach p s tag hne htag =>
    -- the root is inside the window
    have hsame := (makeRoot_extends s tag).toSameSearch
    exact ⟨hc.1.makeRoot tag, hsame.onTile ⟨hc.2.1, tag, htag⟩, hne⟩
  | approachNext hr => exact hc.approachBody hr
  | approachTrue hr => exact hc.approachBody hr
  | approachFalse hr => exact hc.approachBody hr
  | @around s a queue hqueue =>
    -- the turning point taken is, too, and those left stay in the queue
    have hsame := (setAroundQueue_sameTags s queue).toSameSearch
    have hplace := hc.queue a (hqueue ▸ List.mem_cons_self)
    have hsub : ∀ b ∈ queue, b ∈ s.aroundQueue := fun b hb => hqueue ▸ List.mem_cons_of_mem a hb
    exact ⟨Steady.next hc hsame ⟨rfl, rfl⟩ (fun _ => .inl) fun b hb => .inl (hsub b hb),
      hsame.onTile hplace.2, hplace.1⟩
  | aroundNext hr => exact hc.aroundBody hr
  | aroundTrue hr htag => exact (hc.aroundBody hr).afterAround htag
  | aroundFalse hr => exact hc.aroundBody hr
  | exhausted _ => exact ⟨hc, fun hret => nomatch hret⟩

/-- A search begins with an empty queue and nothing nearest. -/
theorem coreStart_safe (s : PathFinder) (ptEnd : Point) (hstart : ptStart.InRange) :
    CoreSafe t ptEnd (.call ptStart (coreStart t s ptStart ptEnd)) := by
  have hbegin : CoreBegins s (coreStart t s ptStart ptEnd) ptStart :=
    coreStart_begins s ptStart ptEnd
  constructor
  · constructor
    · exact fun tag htag => nomatch hbegin.pNearestTile.symm.trans htag
    · intro a ha
      rw [hbegin.aroundQueue] at ha
      exact nomatch ha
    · intro hopt i hi
      rw [hbegin.nSearchOption] at hopt
      exact absurd hi (coreStart_flags hopt i)
  · exact ⟨hstart, .inl hbegin.pNearestTile⟩

/-- Every point of a search is safe. -/
theorem CoreReach.safe {c : CorePoint} (hstart : ptStart.InRange)
    (h : CoreReach t s ptStart ptEnd c) : CoreSafe t ptEnd c := by
  induction h with
  | refl => exact coreStart_safe s ptEnd hstart
  | tail _ hstep ih => exact hstep.safe ih

/-! ## What an iteration asks -/

/-- Between tiles of the map lie tiles of the map. -/
theorem OnMap.toward {p q : Point} (hp : s.OnMap p) (hend : anywhere ∨ s.OnMap ptEnd)
    (hne : p ≠ ptEnd) (hmove : moveNext p (getDir p ptEnd) = some q) : s.Askable anywhere q := by
  cases hend with
  | inl h => exact .inl h
  | inr hend =>
    obtain rfl := Option.some.inj ((moveNext_getDir_eq hne).symm.trans hmove)
    have hbetween : ∀ {a b n : Int}, IsInt32 a → IsInt32 b → 0 ≤ a ∧ a < n → 0 ≤ b ∧ b < n →
        0 ≤ int32 (a + (b - a).sign) ∧ int32 (a + (b - a).sign) < n := by
      intro a b n ha hb han hbn
      rw [int32_toward ha hb]
      rcases sign_sub_cases a b with h | h | h <;> omega
    have hon : s.OnMap _ := ⟨moveNext_inRange hmove,
      hbetween hp.inRange.x hend.inRange.x hp.x hend.x,
      hbetween hp.inRange.y hend.inRange.y hp.y hend.y⟩
    exact hon.askable

/-- The target is on the map, unless any tile may be asked about. -/
def Aim (anywhere : Prop) (s : PathFinder) (ptEnd : Point) : Prop := anywhere ∨ s.OnMap ptEnd

/-- The target stays on the map. -/
theorem SameMap.aim (h : SameMap s s') (hend : Aim anywhere s ptEnd) : Aim anywhere s' ptEnd :=
  hend.imp_right h.onMap

/-- A step of a search that has steps left faults only where `IsBlock` does. -/
theorem approachBody_returns {w : Walk} (h : CoreSafe t ptEnd (.approach w))
    (hf : w.finder.Answers f anywhere) : ∃ r, approachBody t ptEnd w = some r := by
  obtain ⟨-, htile, hne⟩ := h
  have hcounted := counted_sameMap w.finder
  have hf' := hcounted.answers hf
  unfold approachBody
  dsimp only
  split
  -- the target is another tile, so `GetDir` has a direction
  · have hmove := moveNext_getDir_eq hne
    have hin := moveNext_inRange hmove
    rw [hmove]
    dsimp only [Option.bind_some, bind]
    split
    · exact ⟨_, rfl⟩
    · rename_i tag htag
      split
      · exact ⟨_, rfl⟩
      -- the next tile is on the map, so it may be asked about
      · have hnext : w.finder.counted.Askable anywhere _ := (onMap_of_getTileTag hin htag).askable
        rw [hf'.isBevelBlock htile.inRange hin (hcounted.askable htile.askable) hnext, hf' _ hnext]
        dsimp only [Option.bind_some]
        split
        · split <;> exact ⟨_, rfl⟩
        · split <;> exact ⟨_, rfl⟩
  · exact ⟨_, rfl⟩

/-- Away from the target `IsCanApproach` has a direction to ask about. -/
theorem isCanApproach_exists {p : Point} (hf : s.Answers f anywhere) (hp : OnTile t s p)
    (hend : Aim anywhere s ptEnd) (hne : p ≠ ptEnd) : ∃ b, s.isCanApproach t p ptEnd = some b := by
  have hmove := moveNext_getDir_eq hne
  have hnext := hp.onMap.toward hend hne hmove
  unfold isCanApproach
  rw [hmove]
  dsimp only [Option.bind_some, bind]
  rw [hf.isBevelBlock hp.inRange (moveNext_inRange hmove) hp.askable hnext, hf _ hnext]
  dsimp only [Option.bind_some]
  split
  · exact ⟨_, rfl⟩
  · split <;> exact ⟨_, rfl⟩

/-- A detour steps onto `ptNext`. -/
structure Lands (t : Params) (f : Point → Bool) (d : Detour) (ptNext : Point) (tag : Nat) : Prop
    extends Tried t d.finder.counted d.ptTile d.nMoveDir ptNext tag where
  free : ¬ Refused f d.ptTile ptNext

/-- What an iteration of `Around` needs to go on: without the straight-way option the tile it
    steps onto is not the target, and the tile beside that one may be asked about. -/
def MayGoOn (t : Params) (f : Point → Bool) (anywhere : Prop) (ptEnd : Point) (a : AroundPoint)
    (d : Detour) : Prop :=
  ∀ ptNext tag, Lands t f d ptNext tag →
    (hasOption d.finder.nSearchOption optionStraightway = false → ptNext ≠ ptEnd) ∧
    (detourOver t (d.finder.counted.stepOnto tag d.nMoveDir d.pParent 1) a.ptTile ptEnd ptNext =
        some false →
      ∀ ptAround, moveNext ptNext (turnDir d.nMoveDir a.nTurnDir) = some ptAround →
        d.finder.Askable anywhere ptAround)

/-- An iteration of `Around` passes its assertion where it may go on. -/
theorem aroundBody_returns {a : AroundPoint} {d : Detour} (h : CoreSafe t ptEnd (.around a d))
    (hf : d.finder.Answers f anywhere) (hend : Aim anywhere d.finder ptEnd)
    (hgo : MayGoOn t f anywhere ptEnd a d) :
    ∃ r, aroundBody t a.ptTile a.nTurnDir ptEnd d = some r := by
  obtain ⟨-, htile, hstraight⟩ := h
  have hcounted := counted_sameMap d.finder
  have hf' := hcounted.answers hf
  unfold aroundBody
  dsimp only
  split
  · rename_i hcount
    obtain ⟨ptNext, hmove⟩ := hstraight.moveNext d.ptTile
    have hin := moveNext_inRange hmove
    rw [hmove]
    dsimp only [Option.bind_some, bind]
    split
    · exact ⟨_, rfl⟩
    · rename_i tag htag
      have ahead : Ahead t d.finder.counted d.ptTile d.nMoveDir ptNext tag := ⟨hmove, htag⟩
      by_cases hvisited : d.finder.counted.isTileVisited tag d.nMoveDir = true
      · rw [if_pos hvisited]
        exact ⟨_, rfl⟩
      · have hnext : d.finder.counted.Askable anywhere ptNext := ahead.onTile.askable
        rw [if_neg hvisited, hf'.isBevelBlock htile.inRange hin (hcounted.askable htile.askable)
          hnext, hf' _ hnext]
        dsimp only [Option.bind_some]
        by_cases hrefused : Refused f d.ptTile ptNext
        · rw [if_pos (refused_iff.2 hrefused)]
          split <;> exact ⟨_, rfl⟩
        · rw [if_neg fun h => hrefused (refused_iff.1 h)]
          obtain ⟨hne, haround⟩ :=
            hgo ptNext tag ⟨⟨ahead, hcount, Bool.eq_false_iff.2 hvisited⟩, hrefused⟩
          have hstep : SameMap d.finder (d.finder.counted.stepOnto tag d.nMoveDir d.pParent 1) :=
            ⟨rfl, rfl, rfl⟩
          have hover : ∃ b, detourOver t (d.finder.counted.stepOnto tag d.nMoveDir d.pParent 1)
              a.ptTile ptEnd ptNext = some b := by
            unfold detourOver
            split
            · exact (isOnStraightWay_depth _ _ _).imp fun _ h => h 0
            · rename_i hoption
              have hsame := (stepOnto_extends d.finder.counted tag 1 d.nMoveDir
                d.pParent).toSameSearch
              exact isCanApproach_exists (hstep.answers hf) (hsame.onTile ahead.onTile)
                (hstep.aim hend) (hne (Bool.eq_false_iff.2 hoption))
          obtain ⟨b, hover⟩ := hover
          unfold detourOver at hover haround
          rw [hover]
          dsimp only [Option.bind_some]
          split
          · exact ⟨_, rfl⟩
          · rename_i hb
            rw [Bool.eq_false_iff.2 hb] at hover
            -- the tile beside lies in a straight direction, so only itself is asked about
            obtain ⟨ptAround, hmove'⟩ := (hstraight.turn a.nTurnDir).moveNext ptNext
            have hbeside := haround hover ptAround hmove'
            have hf₂ := hstep.answers hf
            have hbeside₂ := hstep.askable hbeside
            have hnext₂ := hstep.askable (hcounted.symm.askable hnext)
            rw [hmove']
            dsimp only [Option.bind_some]
            rw [hf₂.isBevelBlock (moveNext_inRange hmove') hin hbeside₂ hnext₂, hf₂ _ hbeside₂]
            dsimp only [Option.bind_some]
            split <;> exact ⟨_, rfl⟩
  · exact ⟨_, rfl⟩

/-! ## Counted steps -/

/-- The iterations a search can still count. -/
def left (s : PathFinder) : Nat := (s.nMaxStep - s.nStepCount).toNat

/-- The count of the steps that are left never grows, -/
theorem counted_left_le (s : PathFinder) : s.counted.left ≤ s.left := by
  change (s.nMaxStep - (s.nStepCount + 1)).toNat ≤ (s.nMaxStep - s.nStepCount).toNat
  omega

/-- and falls while there are any. -/
theorem counted_left_lt (h : s.counted.nStepCount ≤ s.counted.nMaxStep) :
    s.counted.left < s.left := by
  have hle : s.nStepCount + 1 ≤ s.nMaxStep := h
  change (s.nMaxStep - (s.nStepCount + 1)).toNat < (s.nMaxStep - s.nStepCount).toNat
  omega

/-- An iteration of `Approach` that goes on takes one. -/
theorem approachBody_left {w : Walk} {r : Walk ⊕ (Bool × PathFinder)}
    (h : approachBody t ptEnd w = some r) :
    match r with
    | .inl w' => w'.finder.left < w.finder.left
    | .inr r => r.2.left ≤ w.finder.left := by
  cases approachBody_turn h with
  | stop _ => exact counted_left_le w.finder
  | refusedAtEnd _ _ => exact counted_left_le w.finder
  | refused _ _ _ => exact counted_left_le w.finder
  | arrived _ _ => exact counted_left_le w.finder
  | walked tried _ _ => exact counted_left_lt tried.inTime

/-- So does one of `Around`, and one that ends with success. -/
theorem aroundBody_left {ptLoc : Point} {turn : Turn} {d : Detour}
    {r : Detour ⊕ (Bool × PathFinder)} (h : aroundBody t ptLoc turn ptEnd d = some r) :
    match r with
    | .inl d' => d'.finder.left < d.finder.left
    | .inr (true, s') => s'.left < d.finder.left
    | .inr (false, s') => s'.left ≤ d.finder.left := by
  cases aroundBody_turn h with
  | stop _ => exact counted_left_le d.finder
  | gaveUp _ _ _ => exact counted_left_le d.finder
  | turned tried _ _ => exact counted_left_lt tried.inTime
  | arrived tried _ _ => exact counted_left_lt tried.inTime
  | walked tried _ _ _ _ _ => exact counted_left_lt tried.inTime

/-- Corners are recorded without a step. -/
theorem recordCorner_left (s : PathFinder) (p : Point) : (s.recordCorner t p).left = s.left :=
  recordCorner_reads PathFinder.left (fun _ _ _ => rfl) s p

/-- A walk begins without a step. -/
theorem makeRoot_left (s : PathFinder) (tag : Nat) : (s.makeRoot tag).left = s.left :=
  makeRoot_reads PathFinder.left (fun _ => rfl) tag

/-- So does what follows a detour. -/
theorem afterAround_left (s : PathFinder) (tag : Nat) :
    (afterAround t s tag).finder.left = s.left := by
  unfold afterAround CorePoint.finder
  dsimp only
  split
  · exact recordCorner_left s _
  · rfl

/-- No transition gives a step back. -/
theorem CoreStep.left_le {c c' : CorePoint} (h : CoreStep t ptEnd c c') :
    c'.finder.left ≤ c.finder.left := by
  cases h with
  | approachAtEnd => exact Nat.le_refl _
  | approachOutside _ _ => exact Nat.le_refl _
  | approach _ _ => exact Nat.le_of_eq (makeRoot_left _ _)
  | approachNext hr => exact Nat.le_of_lt (approachBody_left hr)
  | approachTrue hr => exact approachBody_left hr
  | approachFalse hr => exact approachBody_left hr
  | around _ => exact Nat.le_refl _
  | aroundNext hr => exact Nat.le_of_lt (aroundBody_left hr)
  | aroundTrue hr _ =>
    rw [afterAround_left]
    exact Nat.le_of_lt (aroundBody_left hr)
  | aroundFalse hr => exact aroundBody_left hr
  | exhausted _ => exact Nat.le_refl _

/-- A call of `Approach` after the first follows a step of `Around`. -/
theorem CoreStep.left_lt {c : CorePoint} {p : Point} (h : CoreStep t ptEnd c (.call p s)) :
    s.left < c.finder.left := by
  generalize hc : CorePoint.call p s = c' at h
  have hs : s = c'.finder := hc ▸ rfl
  cases h with
  | aroundTrue hr _ =>
    rw [hs, afterAround_left]
    exact aroundBody_left hr
  | _ => exact nomatch hc

/-- The steps left at the end of a run. -/
theorem left_le_of_steps {c c' : CorePoint} (h : Relation.ReflTransGen (CoreStep t ptEnd) c c') :
    c'.finder.left ≤ c.finder.left := by
  induction h with
  | refl => exact Nat.le_refl _
  | tail _ hstep ih => exact Nat.le_trans hstep.left_le ih

/-- A turn of the outer loop that goes on has counted a step. -/
theorem coreBody_left {c c' : Point × PathFinder} (h : coreBody t ptEnd c = some (.inl c')) :
    c'.2.left < c.2.left := by
  obtain ⟨⟨ret, s₁⟩, happroach, h⟩ := Option.bind_eq_some_iff.1 h
  have hsteps := approach_steps happroach
  match ret with
  | true => exact nomatch h
  | false =>
    obtain ⟨⟨o, s₂⟩, hdrain, h⟩ := Option.bind_eq_some_iff.1 h
    have hsteps' := drainAround_steps rfl hdrain
    match o with
    | none => exact nomatch h
    | some ptTile =>
      obtain rfl := Sum.inl.inj (Option.some.inj h)
      -- the last transition is the end of a detour
      cases Relation.ReflTransGen.cases_tail hsteps' with
      | inl heq => exact nomatch heq
      | inr htail =>
        obtain ⟨b, hb, hstep⟩ := htail
        have h₁ : s₁.left ≤ c.2.left := left_le_of_steps hsteps
        have h₂ : b.finder.left ≤ s₁.left := left_le_of_steps hb
        exact Nat.lt_of_lt_of_le hstep.left_lt (Nat.le_trans h₂ h₁)

/-! ## A search returns -/

section

variable (hstart : ptStart.InRange) (hf : s.Answers f anywhere) (hend : Aim anywhere s ptEnd)
  (hgo : ∀ a d, CoreReach t s ptStart ptEnd (.around a d) → MayGoOn t f anywhere ptEnd a d)

/-- A search asks about the same map throughout. -/
theorem CoreReach.sameMap {c : CorePoint} (h : CoreReach t s ptStart ptEnd c) :
    SameMap s c.finder := by
  have hbegin : CoreBegins s (coreStart t s ptStart ptEnd) ptStart :=
    coreStart_begins s ptStart ptEnd
  exact hbegin.sameMap.trans (extends_of_steps h).toSameSearch.sameMap

include hstart hf

/-- A call of `Approach` returns. -/
theorem approach_returns {p : Point} {s₁ : PathFinder}
    (hreach : CoreReach t s ptStart ptEnd (.call p s₁)) : ∃ r, approach t s₁ p ptEnd = some r := by
  unfold approach
  split
  · exact ⟨_, rfl⟩
  · rename_i hne
    split
    · exact ⟨_, rfl⟩
    · rename_i tag htag
      have hbegin : CoreReach t s ptStart ptEnd (.approach ⟨s₁.makeRoot tag, p, some tag⟩) :=
        hreach.tail (.approach hne htag)
      -- the steps that are left are the measure
      have hreturns : ∃ r, Loop.run (approachBody t ptEnd) (s₁.makeRoot tag).stepsLeft
          ⟨s₁.makeRoot tag, p, some tag⟩ = some (.inr r) := by
        apply Loop.run_returns (I := fun w => CoreReach t s ptStart ptEnd (.approach w))
          (fun w => w.finder.left) _ hbegin (Nat.lt_succ_self _)
        intro w hw
        obtain ⟨r, hr⟩ := approachBody_returns (hw.safe hstart) (hw.sameMap.answers hf)
        refine ⟨r, hr, ?_⟩
        rintro w' rfl
        exact ⟨hw.tail (.approachNext hr), approachBody_left hr⟩
      obtain ⟨r, hrun⟩ := hreturns
      exact ⟨r, congrArg loopResult hrun⟩

include hend hgo

/-- A call of `Around` returns, after a success with a nearest tile. -/
theorem around_returns {a : AroundPoint} {queue : List AroundPoint} {s₁ : PathFinder}
    (hreach : CoreReach t s ptStart ptEnd (.drain s₁)) (hqueue : s₁.aroundQueue = a :: queue) :
    ∃ r, around t { s₁ with aroundQueue := queue } a ptEnd = some r ∧
      (r.1 = true → ∃ tag, r.2.pNearestTile = some tag) := by
  have hbegin : CoreReach t s ptStart ptEnd (.around a ⟨⟨{ s₁ with aroundQueue := queue }, a.ptTile,
      { s₁ with aroundQueue := queue }.getTileTag t a.ptTile⟩, a.nMoveDir, 0⟩) :=
    hreach.tail (.around hqueue)
  have hreturns : ∃ r, Loop.run (aroundBody t a.ptTile a.nTurnDir ptEnd)
      { s₁ with aroundQueue := queue }.stepsLeft ⟨⟨{ s₁ with aroundQueue := queue }, a.ptTile,
        { s₁ with aroundQueue := queue }.getTileTag t a.ptTile⟩, a.nMoveDir, 0⟩ =
      some (.inr r) := by
    apply Loop.run_returns (I := fun d => CoreReach t s ptStart ptEnd (.around a d))
      (fun d => d.finder.left) _ hbegin (Nat.lt_succ_self _)
    intro d hd
    obtain ⟨r, hr⟩ := aroundBody_returns (hd.safe hstart) (hd.sameMap.answers hf)
      (hd.sameMap.aim hend)
      (hgo a d hd)
    refine ⟨r, hr, ?_⟩
    rintro d' rfl
    exact ⟨hd.tail (.aroundNext hr), aroundBody_left hr⟩
  obtain ⟨r, hrun⟩ := hreturns
  refine ⟨r, congrArg loopResult hrun, ?_⟩
  -- a detour that succeeds has stepped onto a tile
  apply Loop.run_inr (I := fun _ => True) (fun _ _ _ _ => trivial) _ trivial hrun
  intro d r _ hbody hret
  cases aroundBody_turn hbody with
  | stop _ => exact nomatch hret
  | gaveUp _ _ _ => exact nomatch hret
  | arrived _ _ _ => exact ⟨_, rfl⟩

/-- The detours of the queue return. -/
theorem drainAround_returns {queue : List AroundPoint} {s₁ : PathFinder}
    (hreach : CoreReach t s ptStart ptEnd (.drain s₁)) (hqueue : s₁.aroundQueue = queue) :
    ∃ r, drainAround t ptEnd queue s₁ = some r := by
  induction queue generalizing s₁ with
  | nil => exact ⟨_, rfl⟩
  | cons a queue ih =>
    obtain ⟨⟨ret, s₂⟩, hr, hnear⟩ := around_returns hstart hf hend hgo hreach hqueue
    obtain ⟨hq, hsteps⟩ := around_steps hqueue hr
    unfold drainAround
    rw [hr]
    match ret with
    | true =>
      obtain ⟨tag, htag⟩ := hnear rfl
      dsimp only [Option.bind_some, bind] at htag ⊢
      rw [htag]
      exact ⟨_, rfl⟩
    | false => exact ih (Relation.ReflTransGen.trans hreach hsteps) hq

/-- `FindPathCore` returns when every detour may go on. -/
theorem findPathCore_returns : ∃ r, findPathCore t s ptStart ptEnd = some r := by
  unfold findPathCore
  have hreturns : ∃ r, Loop.run (coreBody t ptEnd) (coreStart t s ptStart ptEnd).stepsLeft
      (ptStart, coreStart t s ptStart ptEnd) = some (.inr r) := by
    have hbegin : CoreReach t s ptStart ptEnd (.call ptStart (coreStart t s ptStart ptEnd)) := .refl
    -- each turn goes on with fewer steps left, or ends the call
    apply Loop.run_returns (I := fun c : Point × PathFinder => CoreReach t s ptStart ptEnd
      (.call c.1 c.2)) (fun c => c.2.left) _ hbegin (Nat.lt_succ_self _)
    intro c hc
    -- the approach returns, and after it the detours
    have hbody : ∃ r, coreBody t ptEnd c = some r := by
      obtain ⟨⟨ret, s₁⟩, happroach⟩ := approach_returns hstart hf hc
      unfold coreBody
      rw [happroach]
      match ret with
      | true => exact ⟨_, rfl⟩
      | false =>
        have hsteps := approach_steps happroach
        obtain ⟨⟨o, s₂⟩, hdrain⟩ :=
          drainAround_returns hstart hf hend hgo (Relation.ReflTransGen.trans hc hsteps) rfl
        dsimp only [Option.bind_some, bind, Bool.false_eq_true, if_false]
        rw [hdrain]
        cases o <;> exact ⟨_, rfl⟩
    obtain ⟨r, hr⟩ := hbody
    refine ⟨r, hr, ?_⟩
    rintro c' rfl
    exact ⟨hc.trans (coreBody_steps hr), coreBody_left hr⟩
  obtain ⟨r, hrun⟩ := hreturns
  exact ⟨r, congrArg loopResult hrun⟩

end

/-! ## A search that returns -/

/-- Nothing has two successors. -/
theorem CoreStep.unique {c c₁ c₂ : CorePoint} (h₁ : CoreStep t ptEnd c c₁)
    (h₂ : CoreStep t ptEnd c c₂) : c₁ = c₂ := by
  -- the target, the tag, the queue or the answer of the body decides which case it is
  cases h₁ with
  | approachAtEnd =>
    cases h₂ with
    | approachAtEnd => rfl
    | approachOutside hne _ => exact absurd rfl hne
    | approach hne _ => exact absurd rfl hne
  | approachOutside hne htag =>
    cases h₂ with
    | approachAtEnd => exact absurd rfl hne
    | approachOutside _ _ => rfl
    | approach _ htag' => exact nomatch htag.symm.trans htag'
  | approach hne htag =>
    cases h₂ with
    | approachAtEnd => exact absurd rfl hne
    | approachOutside _ htag' => exact nomatch htag.symm.trans htag'
    | approach _ htag' =>
      obtain rfl := Option.some.inj (htag.symm.trans htag')
      rfl
  | approachNext hr =>
    cases h₂ with
    | approachNext hr' => cases hr.symm.trans hr'; rfl
    | approachTrue hr' => exact nomatch hr.symm.trans hr'
    | approachFalse hr' => exact nomatch hr.symm.trans hr'
  | approachTrue hr =>
    cases h₂ with
    | approachNext hr' => exact nomatch hr.symm.trans hr'
    | approachTrue hr' => cases hr.symm.trans hr'; rfl
    | approachFalse hr' => exact nomatch hr.symm.trans hr'
  | approachFalse hr =>
    cases h₂ with
    | approachNext hr' => exact nomatch hr.symm.trans hr'
    | approachTrue hr' => exact nomatch hr.symm.trans hr'
    | approachFalse hr' => cases hr.symm.trans hr'; rfl
  | around hqueue =>
    cases h₂ with
    | around hqueue' => cases hqueue.symm.trans hqueue'; rfl
    | exhausted hempty => exact nomatch hqueue.symm.trans hempty
  | aroundNext hr =>
    generalize hc : CorePoint.around _ _ = c at h₂
    cases h₂ with
    | aroundNext hr' => cases hc; cases hr.symm.trans hr'; rfl
    | aroundTrue hr' _ => cases hc; exact nomatch hr.symm.trans hr'
    | aroundFalse hr' => cases hc; exact nomatch hr.symm.trans hr'
    | _ => exact nomatch hc
  | aroundTrue hr htag =>
    cases h₂ with
    | aroundNext hr' => exact nomatch hr.symm.trans hr'
    | aroundTrue hr' htag' =>
      cases hr.symm.trans hr'
      obtain rfl := Option.some.inj (htag.symm.trans htag')
      rfl
    | aroundFalse hr' => exact nomatch hr.symm.trans hr'
  | aroundFalse hr =>
    cases h₂ with
    | aroundNext hr' => exact nomatch hr.symm.trans hr'
    | aroundTrue hr' _ => exact nomatch hr.symm.trans hr'
    | aroundFalse hr' => cases hr.symm.trans hr'; rfl
  | exhausted hempty =>
    cases h₂ with
    | around hqueue => exact nomatch hqueue.symm.trans hempty
    | exhausted _ => rfl

/-- Every point of a search that returns leads to its return. -/
theorem CoreReach.done {c : CorePoint} {ret : Bool} (h : CoreReach t s ptStart ptEnd c)
    (hdone : CoreReach t s ptStart ptEnd (.done ret s')) :
    Relation.ReflTransGen (CoreStep t ptEnd) c (.done ret s') := by
  have hunique : Relator.RightUnique (CoreStep t ptEnd) := fun _ _ _ h₁ h₂ => h₁.unique h₂
  cases Relation.ReflTransGen.total_of_right_unique hunique h hdone with
  | inl hsteps => exact hsteps
  | inr hsteps =>
    cases Relation.ReflTransGen.cases_head hsteps with
    | inl heq => exact heq ▸ .refl
    | inr hhead =>
      obtain ⟨_, hstep, -⟩ := hhead
      exact nomatch hstep

/-- No point of a search that returns faults. -/
theorem CoreReach.next {c : CorePoint} {r : Bool × PathFinder}
    (hreach : CoreReach t s ptStart ptEnd c) (h : findPathCore t s ptStart ptEnd = some r) :
    c = .done r.1 r.2 ∨ ∃ c', CoreStep t ptEnd c c' := by
  cases Relation.ReflTransGen.cases_head (hreach.done (findPathCore_reaches h)) with
  | inl heq => exact .inl heq
  | inr hhead => exact .inr (hhead.imp fun _ hstep => hstep.1)

/-- There is no direction from a tile to itself. -/
theorem moveNext_getDir_self (p : Point) : moveNext p (getDir p p) = none := by
  have hdir : getDir p p = -1 := by
    unfold getDir dirIndex
    rw [if_neg (Int.lt_irrefl _), if_neg (Int.lt_irrefl _), if_pos rfl, if_pos rfl]
    rfl
  rw [hdir]
  rfl

/-- At the target the table has no entry for the direction. -/
theorem isCanApproach_self (p : Point) : s.isCanApproach t p p = none := by
  unfold isCanApproach
  rw [moveNext_getDir_self]
  rfl

/-- An iteration of `Around` that returned has passed its assertion. -/
theorem mayGoOn_of_aroundBody {a : AroundPoint} {d : Detour} {r : Detour ⊕ (Bool × PathFinder)}
    (h : CoreSafe t ptEnd (.around a d)) (hf : d.finder.Answers f anywhere)
    (hguard : ∀ p b, d.finder.isBlock p = some b → d.finder.Askable anywhere p)
    (hr : aroundBody t a.ptTile a.nTurnDir ptEnd d = some r) : MayGoOn t f anywhere ptEnd a d := by
  obtain ⟨-, htile, -⟩ := h
  intro ptNext tag lands
  have hcounted := counted_sameMap d.finder
  have hf' := hcounted.answers hf
  have hrefuses : d.finder.counted.refuses d.ptTile ptNext = some false := by
    rw [hf'.refuses htile.inRange lands.inRange (hcounted.askable htile.askable)
      lands.toAhead.onTile.askable, decide_eq_false lands.free]
  -- what the test at the end of the step has answered
  have hover : ∀ b, detourOver t (d.finder.counted.stepOnto tag d.nMoveDir d.pParent 1) a.ptTile
      ptEnd ptNext = some b →
      hasOption d.finder.nSearchOption optionStraightway = false → ptNext ≠ ptEnd := by
    rintro b hb hoption rfl
    have hkept : (d.finder.counted.stepOnto tag d.nMoveDir d.pParent 1).nSearchOption =
        d.finder.nSearchOption := rfl
    unfold detourOver at hb
    rw [hkept, if_neg (Bool.eq_false_iff.1 hoption), isCanApproach_self] at hb
    exact nomatch hb
  cases aroundBody_turn hr with
  | stop hnot => exact absurd lands.toTried (hnot ptNext tag)
  | gaveUp tried href _ =>
    obtain ⟨rfl, rfl⟩ := tried.toAhead.unique lands.toAhead
    exact nomatch href.symm.trans hrefuses
  | turned tried href _ =>
    obtain ⟨rfl, rfl⟩ := tried.toAhead.unique lands.toAhead
    exact nomatch href.symm.trans hrefuses
  | arrived tried _ htrue =>
    obtain ⟨rfl, rfl⟩ := tried.toAhead.unique lands.toAhead
    exact ⟨hover true htrue, fun hfalse => nomatch htrue.symm.trans hfalse⟩
  | @walked q ptAround i block isBevel tried _ hfalse hmove hblock _ =>
    obtain ⟨rfl, rfl⟩ := tried.toAhead.unique lands.toAhead
    refine ⟨hover false hfalse, fun _ p hp => ?_⟩
    obtain rfl := Option.some.inj (hmove.symm.trans hp)
    exact hguard ptAround block hblock

/-- Where `IsBlock` answers about askable tiles only, a search returns only if every detour may
    go on. -/
theorem findPathCore_mayGoOn {r : Bool × PathFinder} (hstart : ptStart.InRange)
    (hf : s.Answers f anywhere)
    (hguard : ∀ p b, s.isBlock p = some b → s.Askable anywhere p)
    (h : findPathCore t s ptStart ptEnd = some r) (a : AroundPoint) (d : Detour)
    (hreach : CoreReach t s ptStart ptEnd (.around a d)) : MayGoOn t f anywhere ptEnd a d := by
  -- the call returned, so this turn of the detour did
  have hbody : ∃ r, aroundBody t a.ptTile a.nTurnDir ptEnd d = some r := by
    cases hreach.next h with
    | inl heq => exact nomatch heq
    | inr hstep =>
      obtain ⟨c, hstep⟩ := hstep
      cases hstep with
      | aroundNext hr => exact ⟨_, hr⟩
      | aroundTrue hr _ => exact ⟨_, hr⟩
      | aroundFalse hr => exact ⟨_, hr⟩
  obtain ⟨r', hr⟩ := hbody
  -- what it asked was on the map
  have hguard' : ∀ p b, d.finder.isBlock p = some b → d.finder.Askable anywhere p := by
    intro p b hb
    unfold isBlock at hb
    rw [show d.finder.blockFunc = s.blockFunc from hreach.sameMap.blockFunc] at hb
    exact hreach.sameMap.askable (hguard p b hb)
  exact mayGoOn_of_aroundBody (hreach.safe hstart) (hreach.sameMap.answers hf) hguard' hr

end XGame3.PathFinder
