import XGame3.Spec.PathFinderForest

/-!
# The corners of a search

With the optimise option `FindPathCore` records corners, all of them tiles it walked, and
`ConnectCorners` asks `ConnectDirect` to join them.  `ConnectDirect` changes parents
before it knows that the tile can be entered, so the result is no longer a forest of
legal moves.  What remains is that the parents never leave the tiles of the search and
that only the start is without one: the tags are `Hanging` from the root.

Key results:
- `findPathCore_searched`: what holds after a search, with its corners.
- `connectCorners_hanging`: connecting the corners leaves the tags hanging from the root.
-/

namespace XGame3.PathFinder

open FixedInt ParentChain

variable {t : Params} {s s' : PathFinder} {f : Point → Bool} {ptStart ptEnd : Point}

/-! ## Recorded corners -/

/-- Every corner that `ConnectCorners` may take is a tile that was walked. -/
def CornersWalked (t : Params) (f : Point → Bool) (s : PathFinder) : Prop :=
  ∀ i, s.nCornerFlag i < invalidCornerFlag → (s.corners i).InRange ∧
    ∃ tag, s.getTileTag t (s.corners i) = some tag ∧ Walked t f s tag

/-- The corners are the same. -/
structure SameCorners (s s' : PathFinder) : Prop where
  corners : s'.corners = s.corners
  flags : s'.nCornerFlag = s.nCornerFlag

/-- Tiles that were walked stay walked. -/
theorem CornersWalked.extends (h : CornersWalked t f s) (hext : Extends s s')
    (hsame : SameCorners s s') : CornersWalked t f s' := by
  intro i hi
  rw [hsame.flags] at hi
  rw [hsame.corners]
  obtain ⟨hin, tag, htag, hw⟩ := h i hi
  exact ⟨hin, tag, (hext.toSameSearch.getTileTag _).trans htag, hw.extends hext⟩

/-- `Approach` records no corner. -/
theorem approachBody_sameCorners {w : Walk} {r : Walk ⊕ (Bool × PathFinder)}
    (h : approachBody t ptEnd w = some r) : SameCorners w.finder (r.elim Walk.finder Prod.snd) := by
  cases approachBody_turn h <;> exact ⟨rfl, rfl⟩

/-- Neither does `Around`. -/
theorem aroundBody_sameCorners {ptLoc : Point} {turn : Turn} {d : Detour}
    {r : Detour ⊕ (Bool × PathFinder)} (h : aroundBody t ptLoc turn ptEnd d = some r) :
    SameCorners d.finder (r.elim (fun d' => d'.finder) Prod.snd) := by
  cases aroundBody_turn h <;> exact ⟨rfl, rfl⟩

/-- Nor does the beginning of a walk. -/
theorem makeRoot_sameCorners (s : PathFinder) (tag : Nat) : SameCorners s (s.makeRoot tag) := by
  unfold makeRoot
  split <;> exact ⟨rfl, rfl⟩

/-- Recording corners takes one of the old ones or the new one. -/
theorem recordCorner_corners (P : Point → Prop) {p : Point} (hp : P p)
    (h : ∀ i, s.nCornerFlag i < invalidCornerFlag → P (s.corners i)) :
    ∀ i, (s.recordCorner t p).nCornerFlag i < invalidCornerFlag →
      P ((s.recordCorner t p).corners i) := by
  -- one of the four corners; recording tries them in turn
  have hnext : ∀ (r : PathFinder) (corner : Nat) (ahead : Point → Point → Bool),
      (∀ i, r.nCornerFlag i < invalidCornerFlag → P (r.corners i)) →
      ∀ i, (r.recordCornerAt t p corner ahead).nCornerFlag i < invalidCornerFlag →
        P ((r.recordCornerAt t p corner ahead).corners i) := by
    intro r corner ahead hr i hi
    unfold recordCornerAt at hi ⊢
    split at hi
    · rename_i hcond
      rw [if_pos hcond]
      dsimp only at hi ⊢
      -- the corner written is `p`, the others are as before
      by_cases hic : i = corner
      · rw [hic, Function.update_self]
        exact hp
      · rw [Function.update_of_ne hic] at hi ⊢
        exact hr i hi
    · rename_i hcond
      rw [if_neg hcond]
      exact hr i hi
  unfold recordCorner
  exact hnext _ _ _ (hnext _ _ _ (hnext _ _ _ (hnext _ _ _ h)))

/-- The corners are compared with a walked tile. -/
theorem CornersWalked.record {p : Point} {tag : Nat} (h : CornersWalked t f s) (hin : p.InRange)
    (htag : s.getTileTag t p = some tag) (hw : Walked t f s tag) :
    CornersWalked t f (s.recordCorner t p) := by
  have hsame := recordCorner_sameTags (t := t) s p
  have hwalked := recordCorner_corners (t := t) (fun q => q.InRange ∧
    ∃ tag, s.getTileTag t q = some tag ∧ Walked t f s tag) ⟨hin, tag, htag, hw⟩ h
  intro i hi
  obtain ⟨hiin, j, hj, hwj⟩ := hwalked i hi
  exact ⟨hiin, j, (hsame.toSameSearch.getTileTag _).trans hj, hwj.extends hsame.toExtends⟩

/-- Every transition keeps the corners on walked tiles. -/
theorem CoreStep.cornersWalked {c c' : CorePoint} (h : CoreStep t ptEnd c c')
    (hc : CoreInv t f ptEnd c) (hcorners : CornersWalked t f c.finder) :
    CornersWalked t f c'.finder := by
  have hext := h.extends
  cases h with
  | approachAtEnd => exact hcorners
  | approachOutside _ _ => exact hcorners
  | approach _ _ => exact hcorners.extends hext (makeRoot_sameCorners _ _)
  | approachNext hr =>
    exact hcorners.extends hext (approachBody_sameCorners hr)
  | approachTrue hr =>
    exact hcorners.extends hext (approachBody_sameCorners hr)
  | approachFalse hr =>
    exact hcorners.extends hext (approachBody_sameCorners hr)
  | around _ => exact hcorners.extends hext ⟨rfl, rfl⟩
  | aroundNext hr =>
    exact hcorners.extends hext (aroundBody_sameCorners hr)
  | @aroundTrue a d s tag hr htag =>
    have hbefore : CornersWalked t f s :=
      hcorners.extends (aroundBody_extends hr) (aroundBody_sameCorners hr)
    unfold afterAround CorePoint.finder
    dsimp only
    split
    · -- the corner recorded is the tile the detour has ended on
      cases aroundBody_step hc.1.forest.pure hc.1.inRange hr with
      | arrived ahead hfree =>
        have hnext := hc.1.walk 1 ahead hfree
        obtain ⟨_, heq, hpoint, hw⟩ := hnext.walked
        obtain rfl := Option.some.inj heq
        obtain rfl := Option.some.inj htag
        rw [tileToPoint_getTileTag hnext.inRange hpoint]
        exact hbefore.record hnext.inRange hpoint hw
    · exact hbefore
  | aroundFalse hr =>
    exact hcorners.extends hext (aroundBody_sameCorners hr)
  | exhausted _ => exact hcorners

/-! ## After a search -/

/-- What a later search finds changed by an earlier one. -/
structure NextSearch (s s' : PathFinder) : Prop where
  nMapWidth : s'.nMapWidth = s.nMapWidth
  nMapHeight : s'.nMapHeight = s.nMapHeight
  blockFunc : s'.blockFunc = s.blockFunc
  nSearchOption : s'.nSearchOption = s.nSearchOption
  nMaxStep : s'.nMaxStep = s.nMaxStep
  pathTemp : s'.pathTemp = s.pathTemp
  nFind : s'.nFind = (s.nFind + 1) % 65536
  ids : ∀ tag, (s'.tileTags tag).nFindID = (s.tileTags tag).nFindID ∨ s'.Carries tag

/-- A search takes the next number. -/
theorem CoreBegins.next {s₁ s₂ : PathFinder} {p : Point} (h : CoreBegins s s₁ p)
    (hids : SameIds s₁ s₂) :
    NextSearch s s₂ where
  nMapWidth := hids.nMapWidth.trans h.nMapWidth
  nMapHeight := hids.nMapHeight.trans h.nMapHeight
  blockFunc := hids.blockFunc.trans h.blockFunc
  nSearchOption := hids.nSearchOption.trans h.nSearchOption
  nMaxStep := hids.nMaxStep.trans h.nMaxStep
  pathTemp := hids.pathTemp.trans h.pathTemp
  nFind := hids.nFind.trans h.nFind
  ids := fun tag => by
    rw [← h.tileTags]
    exact hids.ids tag

/-- No corner is on record when a search begins. -/
theorem coreStart_flags {ptStart : Point} (hopt : hasOption s.nSearchOption optionOptimize = true)
    (i : Nat) : ¬ (coreStart t s ptStart ptEnd).nCornerFlag i < invalidCornerFlag := by
  intro hi
  unfold coreStart at hi
  dsimp only at hi
  rw [if_pos hopt] at hi
  -- every flag is all ones
  change t.dword.modulus - 1 < invalidCornerFlag at hi
  have hmod := t.dword.le_modulus
  unfold invalidCornerFlag at hi
  omega

/-- What a search leaves to the next one. -/
theorem findPathCore_next {r : Bool × PathFinder} (h : findPathCore t s ptStart ptEnd = some r) :
    NextSearch s r.2 := by
  have hbegin : CoreBegins s (coreStart t s ptStart ptEnd) ptStart :=
    coreStart_begins s ptStart ptEnd
  exact hbegin.next (extends_of_steps (findPathCore_reaches h)).toSameIds

/-- A search from `ptStart` towards `ptEnd` after it has returned. -/
structure Searched (t : Params) (f : Point → Bool) (s s' : PathFinder) (ptStart ptEnd : Point)
    (ret : Bool) : Prop extends NextSearch s s' where
  forest : Forest t f s'
  start_eq : s'.ptStart = ptStart
  endsAt : ret = true → ptStart ≠ ptEnd → EndsAt t f s' ptStart ptEnd
  corners : hasOption s.nSearchOption optionOptimize = true → CornersWalked t f s'

/-- The parents and the corners after a search. -/
theorem findPathCore_searched {r : Bool × PathFinder} (hf : s.Pure f) (hstart : ptStart.InRange)
    (hunused : Unused t s) (h : findPathCore t s ptStart ptEnd = some r) :
    Searched t f s r.2 ptStart ptEnd r.1 := by
  have hinit := coreStart_inv ptEnd hf hstart hunused
  have hbegin : CoreBegins s (coreStart t s ptStart ptEnd) ptStart :=
    coreStart_begins s ptStart ptEnd
  have hreach := findPathCore_reaches h
  have hnext := findPathCore_next h
  have hdone := hinit.steps hreach
  have hpoint : r.2.ptStart = ptStart := (extends_of_steps hreach).ptStart.trans hbegin.ptStart
  constructor
  · exact hnext
  · exact hdone.1
  · exact hpoint
  · intro hret hne
    have hends := hdone.2 hret (hpoint.symm ▸ hne)
    rw [hpoint] at hends
    exact hends
  · -- a corner is recorded where a detour ends
    intro hopt
    have hflags : CornersWalked t f (coreStart t s ptStart ptEnd) := fun i hi =>
      absurd hi (coreStart_flags hopt i)
    have hall : ∀ c, CoreReach t s ptStart ptEnd c → CornersWalked t f c.finder := by
      intro c hc
      induction hc with
      | refl => exact hflags
      | tail hsteps hstep ih => exact hstep.cornersWalked (hinit.steps hsteps) ih
    exact hall _ hreach

/-! ## Hanging from the root -/

/-- The tags in `tags` are closed under parents, only the root is without one, parents are
    neighbours, and all of them are tiles of the map that are free or exempt. -/
structure Hanging (t : Params) (f : Point → Bool) (s : PathFinder) (exempt : Point → Prop)
    (root : Nat) (tags : Nat → Prop) : Prop where
  root : ∀ i, tags i → (s.tileTags i).pParent = none → i = root
  parent : ∀ i, tags i → ∀ j, (s.tileTags i).pParent = some j →
    tags j ∧ Neighbour (s.tileToPoint t j) (s.tileToPoint t i)
  placed : ∀ i, tags i → Placed t s i
  free : ∀ i, tags i → exempt (s.tileToPoint t i) ∨ ¬ Blocked f (s.tileToPoint t i)

/-- After a search the walked tags hang from `ptStart`. -/
theorem Forest.hanging {root : Nat} (h : Forest t f s)
    (hroot : s.getTileTag t s.ptStart = some root) :
    Hanging t f s (fun p => p = s.ptStart) root (Walked t f s) := by
  have hplaced : Placed t s root := .of_tag h.start hroot
  have hpoint : s.tileToPoint t root = s.ptStart := tileToPoint_getTileTag h.start hroot
  constructor
  -- only the root has no parent
  · intro i hi hnone
    cases hi.cases hroot with
    | inl hr => exact hr.1
    | inr hchild =>
      obtain ⟨p, hp, -, -⟩ := hchild
      exact nomatch hnone.symm.trans hp
  -- the parent is a walked neighbour
  · intro i hi j hj
    obtain ⟨hw, hlink⟩ := hi.parent hj
    exact ⟨hw, hlink.near⟩
  -- walked tiles are placed
  · intro i hi
    cases hi.cases hroot with
    | inl hr => exact hr.1 ▸ hplaced
    | inr hchild =>
      obtain ⟨p, -, hlink, -⟩ := hchild
      exact hlink.placed
  -- and free, the start aside
  · intro i hi
    cases hi.cases hroot with
    | inl hr => exact .inl (hr.1 ▸ hpoint)
    | inr hchild =>
      obtain ⟨p, -, hlink, -⟩ := hchild
      exact .inr hlink.free

/-- Giving one tag a hanging parent, and taking it in if it is free or exempt. -/
theorem Hanging.reparent {exempt : Point → Prop} {root tag parent : Nat} {tags tags' : Nat → Prop}
    (h : Hanging t f s exempt root tags) (hs : SameSearch s s')
    (hp : ∀ i, (s'.tileTags i).pParent = if i = tag then some parent else (s.tileTags i).pParent)
    (hparent : tags parent)
    (hnear : Neighbour (s.tileToPoint t parent) (s.tileToPoint t tag))
    (hsub : ∀ i, tags i → tags' i)
    (hnew : ∀ i, tags' i → tags i ∨ i = tag ∧ Placed t s tag ∧
      (exempt (s.tileToPoint t tag) ∨ ¬ Blocked f (s.tileToPoint t tag))) :
    Hanging t f s' exempt root tags' where
  root := fun i hi hnone => by
    rw [hp i] at hnone
    split at hnone
    · exact nomatch hnone
    · rename_i hne
      exact h.root i ((hnew i hi).resolve_right fun hn => hne hn.1) hnone
  parent := fun i hi j hj => by
    rw [hs.tileToPoint, hs.tileToPoint]
    rw [hp i] at hj
    -- the tile hung anew has `parent`
    split at hj
    · rename_i heq
      obtain rfl := Option.some.inj hj
      exact ⟨hsub _ hparent, heq ▸ hnear⟩
    -- the others keep theirs
    · rename_i hne
      have hold := h.parent i ((hnew i hi).resolve_right fun hn => hne hn.1) j hj
      exact ⟨hsub j hold.1, hold.2⟩
  placed := fun i hi => by
    apply hs.placed
    cases hnew i hi with
    | inl hold => exact h.placed i hold
    | inr hn => exact hn.1 ▸ hn.2.1
  free := fun i hi => by
    rw [hs.tileToPoint]
    cases hnew i hi with
    | inl hold => exact h.free i hold
    | inr hn => exact hn.1 ▸ hn.2.2

/-! ## ConnectDirect -/

/-- What connecting leaves alone. -/
structure Kept (s s' : PathFinder) : Prop extends SameIds s s' where
  corners : s'.corners = s.corners
  flags : s'.nCornerFlag = s.nCornerFlag
  pNearestTile : s'.pNearestTile = s.pNearestTile

namespace Kept

/-- Nothing has changed. -/
theorem refl (s : PathFinder) : Kept s s := ⟨.refl s, rfl, rfl, rfl⟩

/-- One change after the other. -/
theorem trans {s'' : PathFinder} (h : Kept s s') (h' : Kept s' s'') : Kept s s'' :=
  ⟨h.toSameIds.trans h'.toSameIds, h'.corners.trans h.corners, h'.flags.trans h.flags,
    h'.pNearestTile.trans h.pNearestTile⟩

/-- A step is counted. -/
theorem counted (s : PathFinder) : Kept s s.counted :=
  ⟨(counted_sameTags s).toSameIds, rfl, rfl, rfl⟩

/-- A tag of the search stays one. -/
theorem modifyTag {tag : Nat} {g : TileTag → TileTag}
    (hg : (g (s.tileTags tag)).nFindID = s.nFind) :
    Kept s (s.modifyTag tag g) :=
  ⟨modifyTag_sameIds hg, rfl, rfl, rfl⟩

end Kept

/-- A mark leaves the corners and the nearest tile. -/
theorem markTileVisited_kept (s : PathFinder) (tag : Nat) (dir : Int) (parent : Option Nat) :
    Kept s (s.markTileVisited tag dir parent) :=
  ⟨markTileVisited_sameIds s tag dir parent, rfl, rfl, rfl⟩

/-- So does the beginning of a walk. -/
theorem makeRoot_kept (s : PathFinder) (tag : Nat) : Kept s (s.makeRoot tag) := by
  unfold makeRoot
  split
  · exact .modifyTag rfl
  · exact .refl s

/-- The first and the last thing `ConnectDirect` does with a tag. -/
theorem connect_kept {tag : Nat} {dir : Int} {parent : Option Nat} :
    let s₁ := if (s.tileTags tag).nFindID = s.nFind then
      s.modifyTag tag fun old => { old with pParent := parent } else s
    Kept s s₁ ∧ Kept s ((s₁.markTileVisited tag dir parent).modifyTag tag fun old =>
      { old with bAround := 0 }) := by
  dsimp only
  -- the first write changes a tile of the search at most
  have hfirst : Kept s (if (s.tileTags tag).nFindID = s.nFind then
      s.modifyTag tag fun old => { old with pParent := parent } else s) := by
    split
    · rename_i hc
      exact .modifyTag hc
    · exact .refl s
  constructor
  · exact hfirst
  -- the second marks the tile as one of the search
  · apply hfirst.trans
    apply (markTileVisited_kept _ _ _ _).trans
    apply Kept.modifyTag
    exact markTileVisited_carries.2 (.inl rfl)

/-- An iteration of `ConnectDirect` writes to tags only. -/
theorem connectBody_kept {w : Walk} {r : Walk ⊕ (Bool × PathFinder)}
    (h : connectBody t ptEnd w = some r) : Kept w.finder (r.elim Walk.finder Prod.snd) := by
  unfold connectBody at h
  dsimp only at h
  have hcount := Kept.counted w.finder
  split at h
  · obtain ⟨ptNext, -, h⟩ := Option.bind_eq_some_iff.1 h
    split at h
    · obtain rfl := Option.some.inj h
      exact hcount
    · rename_i tag _
      obtain ⟨_, -, h⟩ := Option.bind_eq_some_iff.1 h
      obtain ⟨_, -, h⟩ := Option.bind_eq_some_iff.1 h
      -- a refused step writes the first tag only
      split at h
      · obtain rfl := Option.some.inj h
        exact hcount.trans (@connect_kept w.finder.counted tag 0 w.pParent).1
      -- a free one writes both
      · split at h
        · obtain rfl := Option.some.inj h
          exact hcount.trans connect_kept.2
        · obtain rfl := Option.some.inj h
          exact hcount.trans connect_kept.2
  · obtain rfl := Option.some.inj h
    exact hcount

/-- So does the whole call. -/
theorem connectDirect_kept {p : Point} {r : Bool × PathFinder}
    (h : connectDirect t s p ptEnd = some r) : Kept s r.2 := by
  unfold connectDirect at h
  split at h
  · obtain rfl := Option.some.inj h
    exact .refl s
  · split at h
    · obtain rfl := Option.some.inj h
      exact .refl s
    · rename_i tag _
      dsimp only at h
      apply Loop.run_inr (I := fun w => Kept s w.finder) _ _ (makeRoot_kept s tag)
        (loopResult_eq_some h)
      · exact fun _ _ hw hbody => hw.trans (connectBody_kept hbody)
      · exact fun _ _ hw hbody => hw.trans (connectBody_kept hbody)

/-- The lines between the corners leave the corners as they are. -/
theorem connectFrom_kept {left dwVisited : Nat} {p : Point}
    (h : connectFrom t left s p dwVisited = some s') : Kept s s' := by
  induction left generalizing s p dwVisited with
  | zero => exact nomatch h
  | succ left ih =>
    unfold connectFrom at h
    split at h
    · obtain rfl := Option.some.inj h
      exact .refl _
    · obtain ⟨r, hdirect, h⟩ := Option.bind_eq_some_iff.1 h
      exact (connectDirect_kept hdirect).trans (ih h)

/-- One iteration of `ConnectDirect`. -/
inductive ConnectStep (t : Params) (f : Point → Bool) (ptEnd : Point) (w : Walk) (parent : Nat) :
    Walk ⊕ (Bool × PathFinder) → Prop
  | stop : ConnectStep t f ptEnd w parent (.inr (false, w.finder.counted))
  | refused {ptNext : Point} {tag : Nat} {s' : PathFinder} :
      Ahead t w.finder.counted w.ptTile (getDir w.ptTile ptEnd) ptNext tag →
      Refused f w.ptTile ptNext →
      s' = w.finder.counted ∨
        w.finder.counted.Carries tag ∧ Reparented w.finder.counted s' tag parent →
      ConnectStep t f ptEnd w parent (.inr (false, s'))
  | arrived {tag : Nat} {s' : PathFinder} :
      Ahead t w.finder.counted w.ptTile (getDir w.ptTile ptEnd) ptEnd tag →
      ¬ Refused f w.ptTile ptEnd → Reparented w.finder.counted s' tag parent →
      ConnectStep t f ptEnd w parent (.inr (true, s'))
  | walked {ptNext : Point} {tag : Nat} {s' : PathFinder} :
      Ahead t w.finder.counted w.ptTile (getDir w.ptTile ptEnd) ptNext tag →
      ¬ Refused f w.ptTile ptNext → Reparented w.finder.counted s' tag parent →
      ConnectStep t f ptEnd w parent (.inl ⟨s', ptNext, some tag⟩)

/-- The first thing `ConnectDirect` does with a tag. -/
theorem connect_first (s : PathFinder) (tag parent : Nat) :
    let s' := if (s.tileTags tag).nFindID = s.nFind then
      s.modifyTag tag fun old => { old with pParent := some parent } else s
    (s' = s ∧ ¬ s.Carries tag) ∨ s.Carries tag ∧ Reparented s s' tag parent := by
  dsimp only
  split
  · rename_i hc
    exact .inr ⟨hc, modifyTag_reparented _ rfl hc⟩
  · rename_i hc
    exact .inl ⟨rfl, hc⟩

/-- In the end the tag is marked with the parent, whether it was touched before or not. -/
theorem connect_marked {tag parent : Nat} (dir : Int)
    (hs : s.Carries tag → (s.tileTags tag).pParent = some parent) :
    Reparented s ((s.markTileVisited tag dir (some parent)).modifyTag tag fun old =>
      { old with bAround := 0 }) tag parent := by
  -- the mark keeps the parent of a tile already in the search
  have hmark : Reparented s (s.markTileVisited tag dir (some parent)) tag parent := by
    apply modifyTag_reparented
    · split
      · rfl
      · rename_i hc
        exact hs (not_not.1 hc)
    · split
      · rfl
      · rename_i hc
        exact not_not.1 hc
  apply hmark.trans
  apply modifyTag_reparented
  -- taking the detour mark away keeps it too
  · exact (hmark.parent tag).trans (if_pos rfl)
  · exact (hmark.carries tag).2 (.inl rfl)

/-- The turns of `ConnectDirect` with a pure `IsBlock`. -/
theorem connectBody_step {w : Walk} {parent : Nat} {r : Walk ⊕ (Bool × PathFinder)}
    (hf : w.finder.Pure f) (hw : w.ptTile.InRange) (hp : w.pParent = some parent)
    (h : connectBody t ptEnd w = some r) : ConnectStep t f ptEnd w parent r := by
  unfold connectBody at h
  rw [hp] at h
  dsimp only at h
  have hf' : w.finder.counted.Pure f := hf
  split at h
  · obtain ⟨ptNext, hmove, h⟩ := Option.bind_eq_some_iff.1 h
    split at h
    · obtain rfl := Option.some.inj h
      exact .stop
    · rename_i tag htag
      have ahead : Ahead t w.finder.counted w.ptTile (getDir w.ptTile ptEnd) ptNext tag :=
        ⟨hmove, htag⟩
      have hfirst := connect_first w.finder.counted tag parent
      -- the parent is changed before the tile is tested
      dsimp only at hfirst
      generalize (if (w.finder.counted.tileTags tag).nFindID = w.finder.counted.nFind then
        w.finder.counted.modifyTag tag fun old => { old with pParent := some parent }
        else w.finder.counted) = s₁ at h hfirst
      have hf₁ : s₁.Pure f := by
        cases hfirst with
        | inl hsame => exact hsame.1 ▸ hf'
        | inr hrep => exact hrep.2.toSameSearch.pure hf'
      have hmarked : Reparented w.finder.counted
          ((s₁.markTileVisited tag (getDir w.ptTile ptEnd) (some parent)).modifyTag tag fun old =>
            { old with bAround := 0 }) tag parent := by
        cases hfirst with
        | inl hsame =>
          obtain ⟨rfl, hnot⟩ := hsame
          exact connect_marked _ fun hc => absurd hc hnot
        | inr hrep =>
          exact hrep.2.trans (connect_marked _ fun _ => (hrep.2.parent tag).trans (if_pos rfl))
      rw [isBevelBlock_eq hf₁ hw ahead.inRange, isBlock_eq hf₁] at h
      dsimp only [Option.bind_some, bind] at h
      split at h
      · -- the new parent stays although the line ends here
        rename_i href
        rw [refused_iff] at href
        obtain rfl := Option.some.inj h
        exact .refused ahead href (hfirst.imp_left And.left)
      · rename_i href
        rw [refused_iff] at href
        split at h
        · rename_i hend
          subst hend
          obtain rfl := Option.some.inj h
          exact .arrived ahead href hmarked
        · obtain rfl := Option.some.inj h
          exact .walked ahead href hmarked
  · obtain rfl := Option.some.inj h
    exact .stop

/-! ## Connecting keeps the tags hanging -/

/-- The same tags hang together. -/
theorem SameTags.hanging {exempt : Point → Prop} {root : Nat} {tags : Nat → Prop}
    (hs : SameTags s s') (h : Hanging t f s exempt root tags) :
    Hanging t f s' exempt root tags where
  root := fun i hi => by
    rw [hs.tileTags]
    exact h.root i hi
  parent := fun i hi => by
    rw [hs.tileTags]
    simp only [hs.toSameSearch.tileToPoint]
    exact h.parent i hi
  placed := fun i hi => hs.toSameSearch.placed (h.placed i hi)
  free := fun i hi => by
    rw [hs.toSameSearch.tileToPoint]
    exact h.free i hi

/-- A tile that `ConnectCorners` may begin a line at. -/
def Anchor (s : PathFinder) (p : Point) : Prop :=
  p = s.ptStart ∨ ∃ i, s.nCornerFlag i < invalidCornerFlag ∧ s.corners i = p

/-- While corners are being connected. -/
structure Connecting (t : Params) (f : Point → Bool) (s : PathFinder) (exempt : Point → Prop)
    (root : Nat) (tags : Nat → Prop) : Prop where
  hanging : Hanging t f s exempt root tags
  nearest : ∀ i, s.pNearestTile = some i → tags i
  anchors : ∀ p, Anchor s p → p.InRange ∧
    ∃ tag, s.getTileTag t p = some tag ∧ tags tag ∧ s.Carries tag

/-- A line can begin where it could before. -/
theorem Kept.anchor (h : Kept s s') {p : Point} : Anchor s' p ↔ Anchor s p := by
  unfold Anchor
  rw [h.ptStart, h.flags, h.corners]

section

variable {exempt : Point → Prop} {root : Nat} {tags tags' : Nat → Prop}

/-- The tags hang from the root after a change that no anchor loses its number by. -/
theorem Connecting.kept (h : Connecting t f s exempt root tags) (hkept : Kept s s')
    (hhang : Hanging t f s' exempt root tags') (hsub : ∀ i, tags i → tags' i)
    (hcarries : ∀ i, s.Carries i → s'.Carries i) : Connecting t f s' exempt root tags' where
  hanging := hhang
  nearest := fun i hi => hsub i (h.nearest i (hkept.pNearestTile ▸ hi))
  anchors := fun p hp => by
    obtain ⟨hin, tag, htag, hmem, hc⟩ := h.anchors p (hkept.anchor.1 hp)
    exact ⟨hin, tag, (hkept.toSameSearch.getTileTag _).trans htag, hsub tag hmem, hcarries tag hc⟩

/-- A step is counted. -/
theorem Connecting.counted (h : Connecting t f s exempt root tags) :
    Connecting t f s.counted exempt root tags :=
  h.kept (.counted s) ((counted_sameTags s).hanging h.hanging) (fun _ hi => hi) fun _ hc => hc

/-- In the loop of `ConnectDirect`, standing on a hanging tag. -/
structure ConnectInv (t : Params) (f : Point → Bool) (exempt : Point → Prop) (root : Nat)
    (w : Walk) (tags : Nat → Prop) : Prop where
  pure : w.finder.Pure f
  connecting : Connecting t f w.finder exempt root tags
  inRange : w.ptTile.InRange
  stands : ∃ parent, w.pParent = some parent ∧ w.finder.getTileTag t w.ptTile = some parent ∧
    tags parent

/-- One iteration of `ConnectDirect` hangs one more tag below the root, or stops. -/
theorem ConnectInv.step {w : Walk} {r : Walk ⊕ (Bool × PathFinder)}
    (h : ConnectInv t f exempt root w tags) (hr : connectBody t ptEnd w = some r) :
    match r with
    | .inl w' => ∃ tags', ConnectInv t f exempt root w' tags'
    | .inr r => ∃ tags', Connecting t f r.2 exempt root tags' := by
  obtain ⟨parent, hp, hpoint, hparent⟩ := h.stands
  have hcount := h.connecting.counted
  have hkept := connectBody_kept hr
  -- the tile in front is a neighbour with a tag
  have hnear : ∀ {q : Point} {dir : Int} {tag : Nat}, Ahead t w.finder.counted w.ptTile dir q tag →
      Neighbour (w.finder.counted.tileToPoint t parent) (w.finder.counted.tileToPoint t tag) := by
    intro q dir tag ahead
    have hstand : w.finder.counted.tileToPoint t parent = w.ptTile :=
      tileToPoint_getTileTag h.inRange hpoint
    rw [hstand, tileToPoint_getTileTag ahead.inRange ahead.tag]
    exact ahead.near h.inRange hpoint
  have hreparent : ∀ {tag : Nat} {s' : PathFinder} {tags' : Nat → Prop},
      Reparented w.finder.counted s' tag parent → Kept w.finder s' →
      Neighbour (w.finder.counted.tileToPoint t parent) (w.finder.counted.tileToPoint t tag) →
      (∀ i, tags i → tags' i) →
      (∀ i, tags' i → tags i ∨ i = tag ∧ Placed t w.finder.counted tag ∧
        (exempt (w.finder.counted.tileToPoint t tag) ∨
          ¬ Blocked f (w.finder.counted.tileToPoint t tag))) →
      Connecting t f s' exempt root tags' := by
    intro tag s' tags' hrep hk hn hsub hnew
    exact h.connecting.kept hk
      (hcount.hanging.reparent hrep.toSameSearch hrep.parent hparent hn hsub hnew) hsub
      fun i hc => (hrep.carries i).2 (.inr hc)
  have hentered : ∀ {q : Point} {dir : Int} {tag : Nat} {s' : PathFinder},
      Ahead t w.finder.counted w.ptTile dir q tag → ¬ Refused f w.ptTile q →
      Reparented w.finder.counted s' tag parent → Kept w.finder s' →
      Connecting t f s' exempt root fun i => tags i ∨ i = tag := by
    intro q dir tag s' ahead hfree hrep hk
    apply hreparent hrep hk (hnear ahead) (fun i hi => .inl hi)
    intro i hi
    apply hi.imp_right
    intro heq
    have hplaced : Placed t w.finder.counted tag := .of_tag ahead.inRange ahead.tag
    rw [tileToPoint_getTileTag ahead.inRange ahead.tag]
    exact ⟨heq, hplaced, .inr fun hb => hfree (.inl hb)⟩
  cases connectBody_step h.pure h.inRange hp hr with
  | stop => exact ⟨tags, hcount⟩
  | refused ahead hrefused hs' =>
    cases hs' with
    | inl heq => exact ⟨tags, heq ▸ hcount⟩
    | inr hrep =>
      -- a refused tile is a neighbour all the same
      exact ⟨tags, hreparent hrep.2 hkept (hnear ahead) (fun i hi => hi) fun i hi => .inl hi⟩
  | arrived ahead hfree hrep => exact ⟨_, hentered ahead hfree hrep hkept⟩
  | @walked q tag s' ahead hfree hrep =>
    have hstands : s'.getTileTag t q = some tag := (hrep.toSameSearch.getTileTag q).trans ahead.tag
    exact ⟨_, hkept.toSameSearch.pure h.pure, hentered ahead hfree hrep hkept, ahead.inRange, tag,
      rfl, hstands, .inr rfl⟩

/-- After a line its tags hang below the root. -/
theorem connectDirect_hanging {p : Point} {r : Bool × PathFinder} (hf : s.Pure f)
    (h : Connecting t f s exempt root tags) (hp : Anchor s p)
    (hr : connectDirect t s p ptEnd = some r) :
    ∃ tags', Connecting t f r.2 exempt root tags' := by
  obtain ⟨hin, tag, htag, hmem, hc⟩ := h.anchors p hp
  unfold connectDirect at hr
  split at hr
  · obtain rfl := Option.some.inj hr
    exact ⟨tags, h⟩
  -- the anchor is a tile of the search, so the line hangs from it
  · rw [htag] at hr
    dsimp only at hr
    rw [makeRoot_of_carries hc] at hr
    have hbegin : ConnectInv t f exempt root ⟨s, p, some tag⟩ tags :=
      ⟨hf, h, hin, tag, rfl, htag, hmem⟩
    -- and every turn of the line keeps the chain hanging
    apply Loop.run_inr (I := fun w => ∃ tags', ConnectInv t f exempt root w tags') _ _
      ⟨tags, hbegin⟩ (loopResult_eq_some hr)
    · intro w w' ⟨_, hw⟩ hbody
      exact hw.step hbody
    · intro w r ⟨_, hw⟩ hbody
      exact hw.step hbody

/-! ## ConnectCorners -/

/-- The choice among the corners looked at so far. -/
structure Chosen (s : PathFinder) (dwVisited : Nat) (best : Option Nat × Nat) : Prop where
  le : best.2 ≤ invalidCornerFlag
  corner : ∀ i, best.1 = some i →
    i < 4 ∧ s.nCornerFlag i = best.2 ∧ dwVisited < best.2 ∧ best.2 < invalidCornerFlag

/-- The loop over the corners keeps a choice. -/
theorem nextCorner_chosen (s : PathFinder) (dwVisited : Nat) :
    Chosen s dwVisited (s.nextCorner dwVisited) := by
  unfold nextCorner
  apply List.foldlRecOn
  · exact ⟨Nat.le_refl _, fun _ hi => nomatch hi⟩
  · intro best hbest i hi
    split
    · rename_i hless
      have hlt : s.nCornerFlag i < invalidCornerFlag := Nat.lt_of_lt_of_le hless.1 hbest.le
      constructor
      · exact Nat.le_of_lt hlt
      · intro j hj
        obtain rfl := Option.some.inj hj
        exact ⟨List.mem_range.1 hi, rfl, hless.2, hlt⟩
    · exact hbest

/-- The corner that is taken next was recorded and not yet visited. -/
theorem nextCorner_spec {dwVisited index flag : Nat}
    (h : s.nextCorner dwVisited = (some index, flag)) :
    index < 4 ∧ s.nCornerFlag index = flag ∧ dwVisited < flag ∧ flag < invalidCornerFlag := by
  have hchosen := nextCorner_chosen s dwVisited
  rw [h] at hchosen
  exact hchosen.corner index rfl

/-- A corner that is chosen was recorded. -/
theorem nextCorner_recorded {dwVisited index flag : Nat}
    (h : s.nextCorner dwVisited = (some index, flag)) :
    s.nCornerFlag index < invalidCornerFlag := by
  obtain ⟨-, hflag, -, hlt⟩ := nextCorner_spec h
  omega

/-- After all lines the tags hang below the root. -/
theorem connectFrom_hanging {left dwVisited : Nat} {p : Point} (hf : s.Pure f)
    (h : Connecting t f s exempt root tags) (hp : Anchor s p)
    (hr : connectFrom t left s p dwVisited = some s') :
    ∃ tags', Connecting t f s' exempt root tags' := by
  induction left generalizing s p dwVisited tags with
  | zero => exact nomatch hr
  | succ left ih =>
    unfold connectFrom at hr
    split at hr
    · obtain rfl := Option.some.inj hr
      exact ⟨tags, h⟩
    -- the next corner is an anchor of what this line left
    · rename_i index dwMinCorner hcorner
      obtain ⟨r, hdirect, hr⟩ := Option.bind_eq_some_iff.1 hr
      have hkept := connectDirect_kept hdirect
      obtain ⟨tags₁, hconn⟩ := connectDirect_hanging hf h hp hdirect
      have hanchor : Anchor r.2 (s.corners index) :=
        hkept.anchor.2 (.inr ⟨index, nextCorner_recorded hcorner, rfl⟩)
      exact ih (hkept.toSameSearch.pure hf) hconn hanchor hr

/-- Connecting the corners leaves the tags hanging from the root. -/
theorem connectCorners_hanging (hf : s.Pure f) (h : Connecting t f s exempt root tags)
    (hr : connectCorners t s s.ptStart = some s') :
    ∃ tags', Connecting t f s' exempt root tags' :=
  connectFrom_hanging hf h (.inl rfl) hr

end

end XGame3.PathFinder
