import XGame3.Spec.PathFinderBuffer
import XGame3.Spec.PathFinderEndpoints
import XGame3.Spec.PathFinderHistory

/-!
# The pointers of the path finder

`m_pNearestTile` and the `pParent` of every tag are pointers into `m_TileTags`, or null, and
they are followed without a test.  They stay inside the array through any history of calls,
whatever the maps are and however often `m_nFind` has come round.  A list of parents that
ends therefore lists different tiles, and no path that is returned visits a tile twice.

Key results:
- `CoreStep.inside`: every transition of the wall-following search keeps the pointers inside
- `findPath_inside`: so does a call of `FindPath`
- `findPath_simple`: the pointers and the path after any history
-/

namespace XGame3.PathFinder

open Loop ParentChain

variable {t : Params} {s s' : PathFinder} {q : Query} {ptStart ptEnd ptLoc : Point}
  {o parent : Option Nat} {tag : Nat}

/-! ## The invariant -/

/-- A `TILE_TAG *` that is null or points into `m_TileTags`. -/
def InTags (t : Params) (o : Option Nat) : Prop :=
  ∀ i, o = some i → i < t.maxSearchArea * t.maxSearchArea

/-- A null pointer points to no tag. -/
@[simp] theorem inTags_none : InTags t none := by
  simp [InTags]

/-- A pointer to a tag of the array. -/
@[simp] theorem inTags_some : InTags t (some tag) ↔ tag < t.maxSearchArea * t.maxSearchArea := by
  simp [InTags]

/-- `GetTileTag` gives a tag of the array or a null pointer. -/
theorem inTags_getTileTag (s : PathFinder) (p : Point) : InTags t (s.getTileTag t p) :=
  fun _ => getTileTag_lt

/-- No pointer leaves the array, and nothing was written behind its end. -/
structure PointersInside (t : Params) (s : PathFinder) : Prop where
  nearest : InTags t s.pNearestTile
  parent : ∀ i, InTags t (s.tileTags i).pParent
  unwritten : ∀ i, t.maxSearchArea * t.maxSearchArea ≤ i → s.tileTags i = ⟨none, 0, 0, 0⟩

namespace PointersInside

/-- The tags stay as they are. -/
theorem untouched (h : PointersInside t s) (htags : s'.tileTags = s.tileTags)
    (hnear : InTags t s'.pNearestTile) : PointersInside t s' where
  nearest := hnear
  parent := htags ▸ h.parent
  unwritten := htags ▸ h.unwritten

/-- The pointers are in the tags and in `m_pNearestTile`. -/
theorem sameTags (h : PointersInside t s) (hsame : SameTags s s') : PointersInside t s' :=
  h.untouched hsame.tileTags (hsame.pNearestTile ▸ h.nearest)

/-- One tag of the array is written. -/
theorem modifyTag (h : PointersInside t s) (htag : tag < t.maxSearchArea * t.maxSearchArea)
    {g : TileTag → TileTag} (hg : InTags t (g (s.tileTags tag)).pParent) :
    PointersInside t (s.modifyTag tag g) where
  nearest := h.nearest
  parent := fun i => by
    rw [modifyTag_tileTags]
    split
    · exact hg
    · exact h.parent i
  unwritten := fun i hi => by
    have hne : i ≠ tag := by omega
    simp [modifyTag_tileTags, hne, h.unwritten i hi]

/-- The counter is no pointer. -/
theorem counted (h : PointersInside t s) : PointersInside t s.counted :=
  h.sameTags (counted_sameTags s)

/-- A root has a null pointer. -/
theorem makeRoot (h : PointersInside t s) (htag : tag < t.maxSearchArea * t.maxSearchArea) :
    PointersInside t (s.makeRoot tag) := by
  unfold PathFinder.makeRoot
  split
  · exact h.modifyTag htag inTags_none
  · exact h

/-- A tag is marked with a parent from the array. -/
theorem markTileVisited (h : PointersInside t s) (htag : tag < t.maxSearchArea * t.maxSearchArea)
    (dir : Int) (hparent : InTags t parent) :
    PointersInside t (s.markTileVisited tag dir parent) := by
  apply h.modifyTag htag
  split
  · exact hparent
  · exact h.parent tag

/-- A tag that is stepped onto becomes the nearest one. -/
theorem stepOnto (h : PointersInside t s) (htag : tag < t.maxSearchArea * t.maxSearchArea)
    (dir : Int) (around : Nat) (hparent : InTags t parent) :
    PointersInside t (s.stepOnto tag dir parent around) := by
  have hmark : PointersInside t (s.markTileVisited tag dir parent) :=
    h.markTileVisited htag dir hparent
  have haround := hmark.modifyTag htag (g := fun old => { old with bAround := around })
    (hmark.parent tag)
  exact haround.untouched rfl (inTags_some.2 htag)

/-- In a new path finder all pointers are null. -/
theorem new (t : Params) : PointersInside t (new t) :=
  ⟨inTags_none, fun _ => inTags_none, fun _ _ => rfl⟩

end PointersInside

/-! ## The wall-following search -/

/-- A walking loop: the pointers of the members, and the tag walked from. -/
structure WalkInside (t : Params) (w : Walk) : Prop where
  finder : PointersInside t w.finder
  pParent : InTags t w.pParent

/-- An iteration of `Approach`. -/
theorem WalkInside.approachBody {w : Walk} {r : Walk ⊕ (Bool × PathFinder)} (h : WalkInside t w)
    (hr : approachBody t ptEnd w = some r) :
    r.elim (WalkInside t) fun r => PointersInside t r.2 := by
  have hcount := h.finder.counted
  cases approachBody_turn hr with
  | stop _ => exact hcount
  | refusedAtEnd _ _ => exact hcount
  | refused _ _ _ => exact hcount.sameTags (pushAround_sameTags _ _ _)
  | arrived tried _ => exact hcount.stepOnto (getTileTag_lt tried.tag) _ _ h.pParent
  | walked tried _ _ =>
    have htag := getTileTag_lt tried.tag
    exact ⟨hcount.stepOnto htag _ _ h.pParent, inTags_some.2 htag⟩

/-- An iteration of `Around`. -/
theorem WalkInside.aroundBody {turn : Turn} {d : Detour} {r : Detour ⊕ (Bool × PathFinder)}
    (h : WalkInside t d.toWalk) (hr : aroundBody t ptLoc turn ptEnd d = some r) :
    r.elim (fun d' => WalkInside t d'.toWalk) fun r => PointersInside t r.2 := by
  have hcount := h.finder.counted
  cases aroundBody_turn hr with
  | stop _ => exact hcount
  | gaveUp tried _ _ => exact hcount.markTileVisited (getTileTag_lt tried.tag) _ inTags_none
  | turned tried _ _ =>
    exact ⟨hcount.markTileVisited (getTileTag_lt tried.tag) _ inTags_none, h.pParent⟩
  | arrived tried _ _ => exact hcount.stepOnto (getTileTag_lt tried.tag) _ _ h.pParent
  | walked tried _ _ _ _ _ =>
    have htag := getTileTag_lt tried.tag
    exact ⟨hcount.stepOnto htag _ _ h.pParent, inTags_some.2 htag⟩

/-- The invariant at every point of the search. -/
def CoreInside (t : Params) : CorePoint → Prop
  | .approach w => WalkInside t w
  | .around _ d => WalkInside t d.toWalk
  | .call _ s | .drain s | .done _ s => PointersInside t s

/-- After a detour the walk goes on from the nearest tile. -/
theorem PointersInside.afterAround (h : PointersInside t s) (tag : Nat) :
    CoreInside t (afterAround t s tag) := by
  unfold PathFinder.afterAround
  show PointersInside t _
  split
  · exact h.sameTags (recordCorner_sameTags s _)
  · exact h

/-- Every transition keeps the pointers inside. -/
theorem CoreStep.inside {c c' : CorePoint} (h : CoreStep t ptEnd c c') (hc : CoreInside t c) :
    CoreInside t c' := by
  cases h with
  | approachAtEnd => exact hc
  | approachOutside _ _ => exact hc
  | approach _ htag =>
    have hlt := getTileTag_lt htag
    exact ⟨PointersInside.makeRoot hc hlt, inTags_some.2 hlt⟩
  | approachNext hr => exact hc.approachBody hr
  | approachTrue hr => exact hc.approachBody hr
  | approachFalse hr => exact hc.approachBody hr
  | @around s a queue _ =>
    -- the detour begins at the tag of the place it was queued for
    have hqueue := PointersInside.sameTags hc (setAroundQueue_sameTags s queue)
    exact ⟨hqueue, inTags_getTileTag _ _⟩
  | aroundNext hr => exact hc.aroundBody hr
  | aroundTrue hr _ => exact PointersInside.afterAround (hc.aroundBody hr) _
  | aroundFalse hr => exact hc.aroundBody hr
  | exhausted _ => exact hc

/-- A search keeps the pointers in the array. -/
theorem findPathCore_inside {r : Bool × PathFinder} (h : PointersInside t s)
    (hr : findPathCore t s ptStart ptEnd = some r) : PointersInside t r.2 := by
  have hbegin := coreStart_begins (t := t) s ptStart ptEnd
  have hstart : PointersInside t (coreStart t s ptStart ptEnd) := by
    apply h.untouched hbegin.tileTags
    simp [hbegin.pNearestTile]
  have hreach := findPathCore_reaches hr
  have hrun : ∀ c, CoreReach t s ptStart ptEnd c → CoreInside t c := by
    intro c hc
    induction hc with
    | refl => exact hstart
    | tail _ hstep ih => exact hstep.inside ih
  exact hrun _ hreach

/-! ## Connecting the corners -/

/-- An iteration of `ConnectDirect`, which re-parents tags of the search. -/
theorem WalkInside.connectBody {w : Walk} {r : Walk ⊕ (Bool × PathFinder)} (h : WalkInside t w)
    (hr : connectBody t ptEnd w = some r) :
    r.elim (WalkInside t) fun r => PointersInside t r.2 := by
  have hcount := h.finder.counted
  unfold PathFinder.connectBody at hr
  dsimp only at hr
  split at hr
  · obtain ⟨ptNext, -, hr⟩ := Option.bind_eq_some_iff.1 hr
    split at hr
    · obtain rfl := Option.some.inj hr
      exact hcount
    · rename_i tag htag
      have hlt := getTileTag_lt htag
      -- a tile of this search is linked whatever the answers are
      have hlinked : PointersInside t
          (if (w.finder.counted.tileTags tag).nFindID = w.finder.counted.nFind then
            w.finder.counted.modifyTag tag fun old => { old with pParent := w.pParent }
          else w.finder.counted) := by
        split
        · exact hcount.modifyTag hlt h.pParent
        · exact hcount
      obtain ⟨_, -, hr⟩ := Option.bind_eq_some_iff.1 hr
      obtain ⟨_, -, hr⟩ := Option.bind_eq_some_iff.1 hr
      split at hr
      · obtain rfl := Option.some.inj hr
        exact hlinked
      · have hmark := hlinked.markTileVisited hlt (getDir w.ptTile ptEnd) h.pParent
        have haround := hmark.modifyTag hlt (g := fun old => { old with bAround := 0 })
          (hmark.parent tag)
        split at hr
        · obtain rfl := Option.some.inj hr
          exact haround
        · obtain rfl := Option.some.inj hr
          exact ⟨haround, inTags_some.2 hlt⟩
  · obtain rfl := Option.some.inj hr
    exact hcount

/-- A call of `ConnectDirect`. -/
theorem connectDirect_inside {p : Point} {r : Bool × PathFinder} (h : PointersInside t s)
    (hr : connectDirect t s p ptEnd = some r) : PointersInside t r.2 := by
  unfold connectDirect at hr
  split at hr
  · obtain rfl := Option.some.inj hr
    exact h
  · split at hr
    · obtain rfl := Option.some.inj hr
      exact h
    · rename_i tag htag
      have hlt := getTileTag_lt htag
      have hroot : WalkInside t ⟨s.makeRoot tag, p, some tag⟩ := ⟨h.makeRoot hlt, inTags_some.2 hlt⟩
      apply run_inr (I := WalkInside t) _ _ hroot (loopResult_eq_some hr)
      · exact fun _ _ hw hbody => hw.connectBody hbody
      · exact fun _ _ hw hbody => hw.connectBody hbody

/-- The lines between the corners. -/
theorem connectFrom_inside {left dwVisited : Nat} {p : Point} (h : PointersInside t s)
    (hr : connectFrom t left s p dwVisited = some s') : PointersInside t s' := by
  induction left generalizing s p dwVisited with
  | zero => exact nomatch hr
  | succ left ih =>
    unfold connectFrom at hr
    split at hr
    · obtain rfl := Option.some.inj hr
      exact h
    · obtain ⟨r, hdirect, hr⟩ := Option.bind_eq_some_iff.1 hr
      exact ih (connectDirect_inside h hdirect) hr

/-! ## The A* search -/

/-- A neighbour gets the tag that is expanded as its parent. -/
theorem expandDir_inside {ptTile : Point} {pCurrent step dir : Nat} {e e' : Expansion}
    (hcurrent : pCurrent < t.maxSearchArea * t.maxSearchArea) (h : PointersInside t e.finder)
    (hr : expandDir t ptTile ptEnd pCurrent step dir e = some e') : PointersInside t e'.finder := by
  -- the parent written is a tag inside, whichever write it is
  have hknown : ∀ tag < t.maxSearchArea * t.maxSearchArea,
      PointersInside t (e.finder.relinkKnown tag pCurrent step) := by
    intro tag htag
    unfold relinkKnown
    split
    · exact h.modifyTag htag (inTags_some.2 hcurrent)
    · exact h
  have hlinked : ∀ tag < t.maxSearchArea * t.maxSearchArea,
      PointersInside t ((e.finder.relinkKnown tag pCurrent step).linkTag tag pCurrent step) :=
    fun tag htag => (hknown tag htag).modifyTag htag (inTags_some.2 hcurrent)
  cases expandDir_turn hr with
  | outside _ _ => exact h
  | back _ _ => exact h
  | known _ _ _ => exact h
  | refused tested _ => exact hknown _ (getTileTag_lt tested.tag)
  | nearer tested _ _ =>
    have htag := getTileTag_lt tested.tag
    exact (hlinked _ htag).untouched rfl (inTags_some.2 htag)
  | farther tested _ _ => exact hlinked _ (getTileTag_lt tested.tag)

/-- An iteration of `FindAStar`. -/
theorem aStarBody_inside {a : AStar} {r : AStar ⊕ (Bool × PathFinder)}
    (h : PointersInside t a.finder) (hr : aStarBody t ptEnd a = some r) :
    PointersInside t (r.elim AStar.finder Prod.snd) := by
  have hcount := h.counted
  unfold aStarBody at hr
  dsimp only at hr
  split at hr
  · split at hr
    · obtain rfl := Option.some.inj hr
      exact hcount
    · split at hr
      · obtain rfl := Option.some.inj hr
        exact hcount
      · rename_i pCurrent htag
        have hlt := getTileTag_lt htag
        split at hr
        · -- the target becomes the nearest tile
          obtain rfl := Option.some.inj hr
          exact hcount.untouched rfl (inTags_some.2 hlt)
        · obtain ⟨e, he, hr⟩ := Option.bind_eq_some_iff.1 hr
          obtain rfl := Option.some.inj hr
          apply expand_run (I := fun _ e => PointersInside t e.finder) [] _ hcount he
          exact fun hin hdir => expandDir_inside hlt hin hdir
  · obtain rfl := Option.some.inj hr
    exact hcount

/-- An A* search keeps the pointers in the array. -/
theorem findAStar_inside {r : Bool × PathFinder} (h : PointersInside t s)
    (hr : findAStar t s ptStart ptEnd = some r) : PointersInside t r.2 := by
  have hstart : PointersInside t (aStarStart t s ptStart ptEnd).finder := by
    unfold aStarStart
    dsimp only
    split
    · exact h.untouched rfl inTags_none
    · rename_i htag
      have hbegin : PointersInside t { s with
          nFind := (s.nFind + 1) % 65536, ptStart := ptStart, ptEnd := ptEnd,
          pNearestTile := none, nStepCount := 0 } := h.untouched rfl inTags_none
      exact hbegin.modifyTag (getTileTag_lt htag) inTags_none
  apply run_inr (I := fun a => PointersInside t a.finder) _ _ hstart (loopResult_eq_some hr)
  · exact fun _ _ ha hbody => aStarBody_inside ha hbody
  · exact fun _ _ ha hbody => aStarBody_inside ha hbody

/-! ## BuildPath -/

/-- `BuildPath` follows the pointers from tag to tag. -/
theorem buildLoop_inside {nBufSize left n : Nat} {nReverse optmize : Bool} {buf : Nat → Point}
    (h : PointersInside t s) (ho : InTags t o) :
    InTags t (buildLoop t s nBufSize nReverse optmize left o n buf).2.2 := by
  induction left generalizing o n buf with
  | zero => exact ho
  | succ left ih =>
    unfold buildLoop
    cases o with
    | none => exact inTags_none
    | some tag =>
      dsimp only
      split
      · split
        · exact h.parent tag
        · exact ih (h.parent tag)
      · exact ho

/-- It leaves `m_pNearestTile` where it has got to. -/
theorem PointersInside.buildPath (h : PointersInside t s) (k : Nat) (nReverse optmize : Bool) :
    PointersInside t (s.buildPath t k nReverse optmize).2 :=
  h.untouched rfl (buildLoop_inside h h.nearest)

/-- A list of parents that ends lists different tiles. -/
theorem traced_nodup {optmize : Bool} {tags : List Nat} (h : PointersInside t s)
    (htags : Trail (fun tag => (s.tileTags tag).pParent) s.pNearestTile tags) :
    (traced t s optmize tags []).Nodup := by
  have hlt : ∀ i ∈ tags, i < t.maxSearchArea * t.maxSearchArea :=
    htags.forall_mem h.nearest fun i p _ hp => h.parent i p hp
  have hpoints : (tags.map (s.tileToPoint t)).Nodup := by
    apply htags.nodup.map_on
    exact fun i hi j hj heq => tileToPoint_inj (hlt i hi) (hlt j hj) heq
  apply (traced_sublist t s optmize tags []).nodup
  simpa using hpoints

/-- Turning a list round repeats no element. -/
theorem ordered_nodup {nReverse : Bool} {points : List Point} (h : points.Nodup) :
    (ordered nReverse points).Nodup := by
  unfold ordered
  split
  · exact h
  · simpa using h

/-- A path that fits into its buffer and visits no point twice. -/
structure SimplePath (t : Params) (path : List Point) : Prop where
  ne_nil : path ≠ []
  length_le : path.length ≤ t.maxPathLen
  nodup : path.Nodup

/-- As many points as are asked for. -/
theorem length_pathPoints (s : PathFinder) (k offset n : Nat) :
    (s.pathPoints k offset n).length = n := by
  simp [pathPoints]

/-- A part of the buffer that repeats no tile is a simple path. -/
theorem SimplePath.of_pathPoints {k offset n : Nat} (hpos : 0 < n) (hle : n ≤ t.maxPathLen)
    (hnodup : (s.pathPoints k offset n).Nodup) : SimplePath t (s.pathPoints k offset n) where
  ne_nil := by
    apply List.ne_nil_of_length_pos
    simpa [length_pathPoints] using hpos
  length_le := by simpa [length_pathPoints] using hle
  nodup := hnodup

/-- A path that is built repeats no tile and fits the buffer. -/
theorem builtPath_simple {optmize : Bool} (h : PointersInside t s)
    (hret : (builtPath t s optmize).ret = true) : SimplePath t (builtPath t s optmize).path := by
  have hpos : 0 < (s.buildPath t 0 true optmize).1 := of_decide_eq_true hret
  obtain ⟨_, _, _, hle, _⟩ := buildPath_traced hpos
  obtain ⟨tags, htags, -, -, hpoints⟩ := buildPath_points hpos
  apply SimplePath.of_pathPoints hpos hle
  rw [hpoints]
  exact ordered_nodup (traced_nodup h htags)

/-! ## FindPath -/

/-- A search that keeps the pointers inside and leaves the buffers alone. -/
structure KeepsInside (t : Params) (s s' : PathFinder) : Prop where
  pointers : PointersInside t s'
  pathTemp : s'.pathTemp = s.pathTemp

/-- A search keeps what was in the buffer. -/
theorem KeepsInside.findPathCore {r : Bool × PathFinder} (h : PointersInside t s)
    (hr : findPathCore t s ptStart ptEnd = some r) : KeepsInside t s r.2 :=
  ⟨findPathCore_inside h hr, (findPathCore_next hr).pathTemp⟩

/-- `ConnectCorners` keeps it. -/
theorem KeepsInside.optimizeCorners {s₁ : PathFinder} {p : Point} (h : KeepsInside t s s₁)
    (hr : optimizeCorners t q s₁ p = some s') : KeepsInside t s s' where
  pointers := by
    unfold PathFinder.optimizeCorners at hr
    split at hr
    · exact connectFrom_inside h.pointers hr
    · obtain rfl := Option.some.inj hr
      exact h.pointers
  pathTemp := (optimizeCorners_kept hr).pathTemp.trans h.pathTemp

/-- The link to the start keeps it. -/
theorem KeepsInside.linkStart {s₁ : PathFinder} {p : Point} (h : KeepsInside t s s₁)
    (hr : linkStart t s₁ p = some s') : KeepsInside t s s' where
  pointers := by
    cases linkStart_cases hr with
    | inl hnone => exact hnone.2 ▸ h.pointers
    | inr hsome =>
      obtain ⟨nearest, hnear, hcases⟩ := hsome
      cases hcases with
      | inl hat => exact hat.2 ▸ h.pointers
      | inr hlink =>
        -- the start is hung from the nearest tile, itself a tag of the array
        obtain ⟨tag, htag, -, rfl⟩ := hlink
        have hlt := getTileTag_lt htag
        have hlinked := h.pointers.modifyTag hlt
          (g := fun old => { old with pParent := some nearest }) (hnear ▸ h.pointers.nearest)
        exact hlinked.untouched rfl (inTags_some.2 hlt)
  pathTemp := (linkStart_sameIds hr).1.pathTemp.trans h.pathTemp

/-- The search of a block from `ptStart`. -/
theorem forwardSearch_inside {r : Bool × PathFinder} (h : PointersInside t s)
    (hr : forwardSearch t q s = some r) : KeepsInside t s r.2 := by
  obtain ⟨⟨ret, s₁⟩, hcore, hr⟩ := Option.bind_eq_some_iff.1 hr
  have hsearch : KeepsInside t s s₁ := .findPathCore h hcore
  split at hr
  · obtain ⟨s₂, hoptimize, hr⟩ := Option.bind_eq_some_iff.1 hr
    obtain rfl := Option.some.inj hr
    exact hsearch.optimizeCorners hoptimize
  · obtain rfl := Option.some.inj hr
    exact hsearch

/-- The search of a block from `ptEnd`. -/
theorem reverseSearch_inside {r : Bool × PathFinder} (h : PointersInside t s)
    (hr : reverseSearch t q s = some r) : KeepsInside t s r.2 := by
  obtain ⟨⟨ret, s₁⟩, hcore, hr⟩ := Option.bind_eq_some_iff.1 hr
  have hsearch : KeepsInside t s s₁ := .findPathCore h hcore
  split at hr
  · obtain ⟨s₂, hlink, hr⟩ := Option.bind_eq_some_iff.1 hr
    obtain ⟨s₃, hoptimize, hr⟩ := Option.bind_eq_some_iff.1 hr
    obtain rfl := Option.some.inj hr
    exact (hsearch.linkStart hlink).optimizeCorners hoptimize
  · obtain rfl := Option.some.inj hr
    exact hsearch

/-- The locals of `FindPath` before block `k`: the pointers, and the path kept so far. -/
structure SearchInside (t : Params) (k : Nat) (b : Search) : Prop where
  pointers : PointersInside t b.finder
  fits : ∀ best ∈ b.best, best.nPathLen ≤ t.maxPathLen
  kept : BestHas List.Nodup k b

/-- The change of the option between the blocks is no change to the paths. -/
theorem SearchInside.switch {k : Nat} {b : Search} (h : SearchInside t k b) :
    SearchInside t k (switchStraightway b) := by
  have hkept := h.kept.switch
  unfold switchStraightway at hkept ⊢
  split
  · rename_i hmore
    rw [if_pos hmore] at hkept
    exact ⟨h.pointers.untouched rfl h.pointers.nearest, h.fits, hkept⟩
  · exact h

/-- `BuildPath` fills a buffer, and no pointer leaves the array. -/
theorem PointersInside.keepPath {k : Nat} {nReverse : Bool} {best : Option Shortest}
    (h : PointersInside t s) : PointersInside t (keepPath t q k nReverse best s).finder := by
  have hbuilt := h.buildPath k nReverse true
  unfold PathFinder.keepPath
  dsimp only
  split
  · exact hbuilt.untouched rfl hbuilt.nearest
  · exact hbuilt

/-- The path that is kept as the shortest fits the buffer. -/
theorem keepPath_fits {k : Nat} {nReverse : Bool} {best : Option Shortest}
    (h : ∀ b ∈ best, b.nPathLen ≤ t.maxPathLen) :
    ∀ b ∈ (keepPath t q k nReverse best s).best, b.nPathLen ≤ t.maxPathLen := by
  unfold keepPath
  dsimp only
  split
  · rename_i hkeep
    obtain ⟨_, _, _, hle, _⟩ := buildPath_traced hkeep.1
    simpa using hle
  · exact h

/-- A block keeps the pointers inside, and its path visits no point twice. -/
theorem SearchInside.stage {k : Nat} {nReverse : Bool} {b b' : Search}
    {search : PathFinder → Option (Bool × PathFinder)} (h : SearchInside t k b)
    (hsearch : ∀ r, search b.finder = some r → KeepsInside t b.finder r.2)
    (hr : searchStage t q k nReverse search b = some b') : SearchInside t (k + 1) b' where
  pointers := by
    cases searchStage_turn hr with
    | settled _ => exact h.pointers
    | failed _ hrun => exact (hsearch _ hrun).pointers
    | found _ hrun => exact (hsearch _ hrun).pointers.keepPath
  fits := by
    cases searchStage_turn hr with
    | settled _ => exact h.fits
    | failed _ _ => exact h.fits
    | found _ _ => exact keepPath_fits h.fits
  kept := by
    apply h.kept.stage (fun r hrun => (hsearch r hrun).pathTemp) _ hr
    intro s' _ hrun tags htags _ _
    -- the tags of the chain are different, and so their tiles
    exact ordered_nodup (traced_nodup (hsearch _ hrun).pointers htags)

/-- What a call leaves behind, and its path if it has found one. -/
structure FoundInside (t : Params) (r : Found) : Prop where
  pointers : PointersInside t r.finder
  path : r.ret = true → SimplePath t r.path

/-- A result that is built. -/
theorem FoundInside.built {optmize : Bool} (h : PointersInside t s) :
    FoundInside t (builtPath t s optmize) :=
  ⟨h.buildPath 0 true optmize, builtPath_simple h⟩

/-- The result of the A* search. -/
theorem aStarPath_inside {r : Found} (h : PointersInside t s)
    (hr : aStarPath t s ptStart ptEnd = some r) : FoundInside t r := by
  obtain ⟨r', hastar, hr⟩ := Option.bind_eq_some_iff.1 hr
  obtain rfl := Option.some.inj hr
  exact .built (findAStar_inside h hastar)

/-- The result after the blocks. -/
theorem SearchInside.finish {b : Search} {r : Found} (h : SearchInside t 4 b)
    (hr : finish t q b = some r) : FoundInside t r := by
  cases finish_turn hr with
  | nearest _ _ hcore => exact .built (findPathCore_inside h.pointers hcore)
  | nothing _ _ => exact ⟨h.pointers, fun hret => nomatch hret⟩
  | @kept best hbest =>
    obtain ⟨-, hpos, hnodup⟩ := h.kept best hbest
    exact ⟨h.pointers, fun _ => .of_pathPoints hpos (h.fits best hbest) hnodup⟩

/-- A call of `FindPath` keeps the pointers inside. -/
theorem findPath_inside {r : Found} (h : PointersInside t s) (hr : findPath t s q = some r) :
    FoundInside t r := by
  have hbegin : SearchInside t 0 (beginSearch s q) :=
    ⟨h.untouched rfl h.nearest, by simp [beginSearch], by simp [BestHas, beginSearch]⟩
  have hstage : ∀ {k : Nat} {b : Search}, Stage t q s k b → SearchInside t k b := by
    intro k b hb
    induction hb with
    | first => exact hbegin
    | second _ hr ih => exact ih.stage (fun _ => forwardSearch_inside ih.pointers) hr
    | third _ hr ih => exact (ih.stage (fun _ => reverseSearch_inside ih.pointers) hr).switch
    | fourth _ hr ih => exact ih.stage (fun _ => forwardSearch_inside ih.pointers) hr
    | fifth _ hr ih => exact ih.stage (fun _ => reverseSearch_inside ih.pointers) hr
  cases findPath_cases hr with
  | inl hastar =>
    -- A* begins the call, or follows the first search
    obtain ⟨s₁, hs₁, hr⟩ := hastar
    obtain rfl | ⟨b, hb, rfl⟩ := aStarInput_cases hs₁
    · exact aStarPath_inside hbegin.pointers hr
    · exact aStarPath_inside (hstage (.second .first hb)).pointers hr
  | inr hstages =>
    obtain ⟨-, b, hb, hr⟩ := hstages
    exact (hstage hb).finish hr

/-- Every call of a history keeps the pointers inside. -/
theorem runCalls_inside {calls : List Call} {r : PathFinder} (h : PointersInside t s)
    (hr : runCalls t s calls = some r) : PointersInside t r := by
  induction calls generalizing s with
  | nil =>
    obtain rfl := Option.some.inj hr
    exact h
  | cons call calls ih =>
    obtain ⟨s₁, hcall, hr⟩ := Option.bind_eq_some_iff.1 hr
    have hnext : PointersInside t s₁ := by
      cases call with
      | setMapInfo _ _ _ =>
        obtain rfl := Option.some.inj hcall
        exact h.untouched rfl h.nearest
      | findPath q =>
        obtain ⟨found, hfound, rfl⟩ := Option.map_eq_some_iff.1 hcall
        exact (findPath_inside h hfound).pointers
    exact ih hnext hr

/-- After any history of calls, on any maps, a call of `FindPath` leaves `m_pNearestTile` and every
    `pParent` null or inside `m_TileTags`, with nothing written behind its end; and if it returns
    true, its path has between one and `MAX_PATH_LEN` points and visits none of them twice. -/
theorem findPath_simple (t : Params) (calls : List Call) (s : PathFinder) (q : Query) (r : Found)
    (hcalls : runCalls t (new t) calls = some s) (h : findPath t s q = some r) :
    PointersInside t r.finder ∧ (r.ret = true →
      0 < r.path.length ∧ r.path.length ≤ t.maxPathLen ∧ r.path.Nodup) := by
  have hinside := findPath_inside (runCalls_inside (.new t) hcalls) h
  apply And.intro hinside.pointers
  intro hret
  have hpath := hinside.path hret
  exact ⟨List.length_pos_of_ne_nil hpath.ne_nil, hpath.length_le, hpath.nodup⟩

/-- There and back on one path finder. -/
theorem findPath_simple_back : ∃ s r,
    runCalls smallParams (new smallParams) (searched [⟨1, 1⟩, ⟨1, 2⟩] ⟨⟨0, 1⟩, ⟨3, 1⟩, 0, 16⟩) =
      some s ∧
    findPath smallParams s ⟨⟨3, 1⟩, ⟨0, 1⟩, 0, 16⟩ = some r ∧ PointersInside smallParams r.finder ∧
      r.ret = true ∧ r.path.Nodup := by
  have hrun : ((runCalls smallParams (new smallParams)
      (searched [⟨1, 1⟩, ⟨1, 2⟩] ⟨⟨0, 1⟩, ⟨3, 1⟩, 0, 16⟩)).bind fun s =>
        (findPath smallParams s ⟨⟨3, 1⟩, ⟨0, 1⟩, 0, 16⟩).map Found.ret) = some true := by
    decide +kernel
  obtain ⟨s, hs, hret⟩ := Option.bind_eq_some_iff.1 hrun
  obtain ⟨r, hr, hret⟩ := Option.map_eq_some_iff.1 hret
  obtain ⟨hpointers, hpath⟩ := findPath_simple smallParams _ s _ r hs hr
  exact ⟨s, r, hs, hr, hpointers, hret, (hpath hret).2.2⟩

end XGame3.PathFinder
