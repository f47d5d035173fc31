import XGame3.Spec.PathFinderStages

/-!
# What the path finder writes without a test

Every tile that a search walks onto has passed `IsBlock` and `IsBevelBlock`.  Four assignments
have not: a reversed search begins at `ptEnd`, `FindPath` links `ptStart` in front of it,
`ConnectDirect` gives a tile that it meets again another parent before it tests the tile, and
`BuildPath` joins a tile to the last point but one.  `untested` lists what one call of
`FindPath` assigns so.  As long as all of it is harmless, no parent lies across a corner.

Key results:
- `optimizeCorners_uncut`: connecting the corners keeps the parents clear of corners
- `Stage.untested`: what is listed for a block is listed for the call
- `handed_tested`: what is handed to `BuildPath` after harmless assignments
-/

namespace XGame3.PathFinder

open FixedInt ParentChain

variable {t : Params} {s s' : PathFinder} {f : Point → Bool} {q : Query}
  {ptStart ptEnd : Point}

/-! ## The assignments -/

/-- An assignment that no test of `IsBlock` and `IsBevelBlock` precedes. -/
inductive Untested where
  /-- A reversed search that succeeded has begun at this tile. -/
  | target (ptEnd : Point)
  /-- `pTag->pParent = m_pNearestTile` in `FindPath`. -/
  | startLink (ptNearest ptStart : Point)
  /-- `pCurrent->pParent = pParent` in `ConnectDirect`, for a tile of this search. -/
  | reparent (ptTile ptNext : Point)
  /-- `nPathLen -= 1` in `BuildPath`. -/
  | shortcut (ptPreTile ptTile : Point)
  deriving DecidableEq, Repr

/-- The test would have passed, or the tile is one that no path visits. -/
def Untested.Harmless (f : Point → Bool) (ptStart : Point) : Untested → Prop
  | target p => ¬ Blocked f p
  | startLink p p' => ¬ CutsCorner f p p'
  | reparent p p' => CutsCorner f p p' → Blocked f p' ∧ p' ≠ ptStart
  | shortcut p p' => ¬ CutsCorner f p p'

instance (f : Point → Bool) (ptStart : Point) (u : Untested) :
    Decidable (u.Harmless f ptStart) := by
  cases u <;> unfold Untested.Harmless <;> infer_instance

/-- An iteration of `ConnectDirect`. -/
def reparents (t : Params) (ptEnd : Point) (w : Walk) : List Untested :=
  let s := w.finder.counted
  if s.nStepCount ≤ s.nMaxStep then
    match moveNext w.ptTile (getDir w.ptTile ptEnd) with
    | none => []
    | some ptNext =>
      match s.getTileTag t ptNext with
      | none => []
      | some pCurrent =>
        if (s.tileTags pCurrent).nFindID = s.nFind then [.reparent w.ptTile ptNext] else []
  else
    []

/-- A call of `ConnectDirect`. -/
def directUntested (t : Params) (s : PathFinder) (ptStart ptEnd : Point) : List Untested :=
  if ptStart = ptEnd then
    []
  else
    match s.getTileTag t ptStart with
    | none => []
    | some pParent =>
      Loop.trace (connectBody t ptEnd) (reparents t ptEnd) (s.makeRoot pParent).stepsLeft
        ⟨s.makeRoot pParent, ptStart, some pParent⟩

/-- The loop of `ConnectCorners`. -/
def connectUntested (t : Params) : Nat → PathFinder → Point → Nat → List Untested
  | 0, _, _, _ => []
  | left + 1, s, ptConnect, dwVisited =>
    match s.nextCorner dwVisited with
    | (none, _) => []
    | (some index, dwMinCorner) =>
      directUntested t s ptConnect (s.corners index) ++
        match s.connectDirect t ptConnect (s.corners index) with
        | none => []
        | some r => connectUntested t left r.2 (s.corners index) dwMinCorner

/-- `ConnectCorners`, if it is called. -/
def optimizeUntested (t : Params) (q : Query) (s : PathFinder) (ptStart : Point) : List Untested :=
  if s.nStepCount > q.nPathLenLimit ∧ hasOption q.nOption optionOptimize then
    connectUntested t 5 s ptStart 0
  else
    []

/-- The link of `ptStart`. -/
def startUntested (t : Params) (s : PathFinder) (ptStart : Point) : List Untested :=
  match s.pNearestTile with
  | none => []
  | some nearest =>
    if some nearest = s.getTileTag t ptStart then []
    else [.startLink (s.tileToPoint t nearest) ptStart]

/-- The loop of `BuildPath`, with `left` turns to its barrier. -/
def buildUntested (t : Params) (s : PathFinder) (nBufSize : Nat) (nReverse : Bool) :
    Nat → Option Nat → Nat → (Nat → Point) → List Untested
  | 0, _, _, _ => []
  | left + 1, pNearestTile, nPathLen, buf =>
    match pNearestTile with
    | none => []
    | some tag =>
      if nPathLen < nBufSize then
        let ptTile := s.tileToPoint t tag
        let ptPreTile := buf (pathIndex nBufSize nReverse (nPathLen - 2))
        if (s.tileTags tag).bAround ≠ 0 ∧ nPathLen ≥ 2 ∧ isNear ptPreTile ptTile then
          .shortcut ptPreTile ptTile :: buildUntested t s nBufSize nReverse left
            (s.tileTags tag).pParent (nPathLen - 1 + 1)
            (Function.update buf (pathIndex nBufSize nReverse (nPathLen - 1)) ptTile)
        else
          buildUntested t s nBufSize nReverse left (s.tileTags tag).pParent (nPathLen + 1)
            (Function.update buf (pathIndex nBufSize nReverse nPathLen) ptTile)
      else
        []

/-- `BuildPath` into `m_PathTemp[k]`. -/
def pathUntested (t : Params) (s : PathFinder) (k : Nat) (nReverse : Bool) : List Untested :=
  buildUntested t s t.maxPathLen nReverse t.maxPathLen s.pNearestTile 0 (s.pathTemp k)

/-- A block that searches from `ptStart`. -/
def forwardUntested (t : Params) (q : Query) (k : Nat) (s : PathFinder) : List Untested :=
  match findPathCore t s q.ptStart q.ptEnd with
  | some (true, s) =>
    optimizeUntested t q s q.ptStart ++
      match optimizeCorners t q s q.ptStart with
      | some s => pathUntested t s k true
      | none => []
  | _ => []

/-- A block that searches from `ptEnd`. -/
def reverseUntested (t : Params) (q : Query) (k : Nat) (s : PathFinder) : List Untested :=
  match findPathCore t s q.ptEnd q.ptStart with
  | some (true, s) =>
    .target q.ptEnd :: startUntested t s q.ptStart ++
      match linkStart t s q.ptStart with
      | some s =>
        optimizeUntested t q s q.ptEnd ++
          match optimizeCorners t q s q.ptEnd with
          | some s => pathUntested t s k false
          | none => []
      | none => []
  | _ => []

/-- The last search, for the nearest point. -/
def nearestUntested (t : Params) (q : Query) (b : Search) : List Untested :=
  match b.best with
  | some _ => []
  | none =>
    if hasOption b.finder.nSearchOption optionNearest then
      match findPathCore t b.finder q.ptStart q.ptEnd with
      | some r => pathUntested t r.2 0 true
      | none => []
    else
      []

/-- What a call of `FindPath` without A* assigns without a test. -/
def untested (t : Params) (q : Query) (s : PathFinder) : List Untested :=
  collectFirst t q (forwardUntested t q) (reverseUntested t q) (nearestUntested t q)
    (beginSearch s q)

/-! ## Parents that lie across no corner -/

/-- The tags of this search, and the one a path is built from, have their parents in this search
    and across no corner.  A blocked tile counts only where it is `ptStart`, because no path
    enters another. -/
def Uncut (t : Params) (f : Point → Bool) (s : PathFinder) (ptStart : Point) : Prop :=
  ∀ i < t.maxSearchArea * t.maxSearchArea, s.Carries i ∨ s.pNearestTile = some i →
    (Blocked f (s.tileToPoint t i) → s.getTileTag t ptStart = some i) →
    ∀ p, (s.tileTags i).pParent = some p →
      s.Carries p ∧ ¬ CutsCorner f (s.tileToPoint t p) (s.tileToPoint t i)

/-- That no parent link cuts a corner is a fact about the tags. -/
theorem Uncut.sameTags (h : Uncut t f s ptStart) (hs : SameTags s s') : Uncut t f s' ptStart := by
  intro i hlt hi hfree p hp
  rw [hs.toSameSearch.tileToPoint, hs.toSameSearch.getTileTag] at hfree
  rw [hs.tileTags] at hp
  rw [hs.carries, hs.pNearestTile] at hi
  rw [hs.carries, hs.toSameSearch.tileToPoint, hs.toSameSearch.tileToPoint]
  exact h i hlt hi hfree p hp

/-- A new parent of this search, across no corner from a tile that a path can enter. -/
theorem Uncut.reparent {tag parent : Nat} (h : Uncut t f s ptStart)
    (hrep : Reparented s s' tag parent) (hnear : s'.pNearestTile = s.pNearestTile)
    (hparent : s.Carries parent)
    (hcorner : (Blocked f (s.tileToPoint t tag) → s.getTileTag t ptStart = some tag) →
      ¬ CutsCorner f (s.tileToPoint t parent) (s.tileToPoint t tag)) : Uncut t f s' ptStart := by
  intro i hlt hi hfree p hp
  rw [hrep.toSameSearch.tileToPoint, hrep.toSameSearch.getTileTag] at hfree
  rw [hrep.parent] at hp
  rw [hrep.carries, hnear] at hi
  rw [hrep.carries, hrep.toSameSearch.tileToPoint, hrep.toSameSearch.tileToPoint]
  -- the tile with the new parent, or another
  by_cases heq : i = tag
  · subst heq
    rw [if_pos rfl] at hp
    obtain rfl := Option.some.inj hp
    exact ⟨.inr hparent, hcorner hfree⟩
  · rw [if_neg heq] at hp
    have hold : s.Carries i ∨ s.pNearestTile = some i :=
      hi.imp_left fun hc => hc.resolve_left heq
    exact (h i hlt hold hfree p hp).imp_left .inr

/-- A root has no parent at all. -/
theorem Uncut.makeRoot (h : Uncut t f s ptStart) (tag : Nat) :
    Uncut t f (s.makeRoot tag) ptStart := by
  by_cases hc : s.Carries tag
  · rw [makeRoot_of_carries hc]
    exact h
  · rw [makeRoot_of_not_carries hc]
    intro i hlt hi hfree p hp
    rw [modifyTag_tileTags] at hp
    split at hp
    · exact nomatch hp
    · rename_i hne
      have hold : s.Carries i ∨ s.pNearestTile = some i :=
        hi.imp_left fun hi => ((modifyTag_carries rfl).1 hi).resolve_left hne
      exact (h i hlt hold hfree p hp).imp_left fun hp => (modifyTag_carries rfl).2 (.inr hp)

/-! ## Connecting the corners -/

/-- On a line of `ConnectDirect`. -/
structure LineUncut (t : Params) (f : Point → Bool) (ptStart : Point) (w : Walk) : Prop where
  pure : w.finder.Pure f
  uncut : Uncut t f w.finder ptStart
  inRange : w.ptTile.InRange
  stands : ∃ parent, w.pParent = some parent ∧ w.finder.getTileTag t w.ptTile = some parent ∧
    w.finder.Carries parent

/-- A tile of this search in front of the line gets a new parent before it is tested. -/
theorem mem_reparents {w : Walk} {ptNext : Point} {tag : Nat}
    (hcount : w.finder.counted.nStepCount ≤ w.finder.counted.nMaxStep)
    (ahead : Ahead t w.finder.counted w.ptTile (getDir w.ptTile ptEnd) ptNext tag)
    (hc : w.finder.counted.Carries tag) : .reparent w.ptTile ptNext ∈ reparents t ptEnd w := by
  unfold Carries at hc
  simp only [reparents, if_pos hcount, ahead.move, ahead.tag, if_pos hc, List.mem_singleton]

/-- One turn of a line cuts no corner when its untested link is harmless. -/
theorem LineUncut.step {w : Walk} {r : Walk ⊕ (Bool × PathFinder)} (hstart : ptStart.InRange)
    (h : LineUncut t f ptStart w) (hharmless : ∀ u ∈ reparents t ptEnd w, u.Harmless f ptStart)
    (hr : connectBody t ptEnd w = some r) :
    match r with
    | .inl w' => LineUncut t f ptStart w'
    | .inr r => Uncut t f r.2 ptStart := by
  obtain ⟨parent, hp, hpoint, hparent⟩ := h.stands
  have hcounted : Uncut t f w.finder.counted ptStart := h.uncut.sameTags (counted_sameTags _)
  have hkept := connectBody_kept hr
  have hat : w.finder.counted.tileToPoint t parent = w.ptTile :=
    tileToPoint_getTileTag h.inRange hpoint
  -- a step onto a tile that may be entered
  have hentered : ∀ {q : Point} {tag : Nat} {s' : PathFinder},
      Ahead t w.finder.counted w.ptTile (getDir w.ptTile ptEnd) q tag →
      ¬ Refused f w.ptTile q → Reparented w.finder.counted s' tag parent → Kept w.finder s' →
      Uncut t f s' ptStart := by
    intro q tag s' ahead hfree hrep hk
    apply hcounted.reparent hrep hk.pNearestTile hparent
    intro _
    rw [hat, tileToPoint_getTileTag ahead.inRange ahead.tag]
    exact fun hcut => hfree (.inr hcut)
  by_cases hcount : w.finder.counted.nStepCount ≤ w.finder.counted.nMaxStep
  · cases connectBody_step h.pure h.inRange hp hr with
    | stop => exact hcounted
    | @refused q tag s' ahead hrefused hs' =>
      cases hs' with
      | inl heq => exact heq ▸ hcounted
      | inr hrep =>
        -- the parent that is set before the test
        have hwrite := hharmless _ (mem_reparents hcount ahead hrep.1)
        apply hcounted.reparent hrep.2 hkept.pNearestTile hparent
        rw [hat, tileToPoint_getTileTag ahead.inRange ahead.tag]
        intro hentry hcut
        obtain ⟨hblocked, hne⟩ := hwrite hcut
        exact hne (getTileTag_inj ahead.inRange hstart ahead.tag (hentry hblocked))
    | arrived ahead hfree hrep => exact hentered ahead hfree hrep hkept
    | @walked q tag s' ahead hfree hrep =>
      have hstands : s'.getTileTag t q = some tag :=
        (hrep.toSameSearch.getTileTag q).trans ahead.tag
      exact ⟨hkept.toSameSearch.pure h.pure, hentered ahead hfree hrep hkept, ahead.inRange, tag,
        rfl, hstands, (hrep.carries tag).2 (.inl rfl)⟩
  · -- the step budget is used up
    have hstop : connectBody t ptEnd w = some (.inr (false, w.finder.counted)) := if_neg hcount
    obtain rfl := Option.some.inj (hstop.symm.trans hr)
    exact hcounted

/-- Nor does the whole line, when all its untested links are. -/
theorem connectDirect_uncut {p : Point} {r : Bool × PathFinder} (hf : s.Pure f)
    (hstart : ptStart.InRange) (hp : p.InRange) (h : Uncut t f s ptStart)
    (hharmless : ∀ u ∈ directUntested t s p ptEnd, u.Harmless f ptStart)
    (hr : connectDirect t s p ptEnd = some r) : Uncut t f r.2 ptStart := by
  unfold connectDirect at hr
  unfold directUntested at hharmless
  split at hr
  · obtain rfl := Option.some.inj hr
    exact h
  · rename_i hne
    rw [if_neg hne] at hharmless
    split at hr
    · obtain rfl := Option.some.inj hr
      exact h
    · rename_i tag htag
      rw [htag] at hharmless
      dsimp only at hr hharmless
      -- the root is no link
      have hsame := (makeRoot_kept s tag).toSameSearch
      have hbegin : LineUncut t f ptStart ⟨s.makeRoot tag, p, some tag⟩ :=
        ⟨hsame.pure hf, h.makeRoot tag, hp, tag, rfl, (hsame.getTileTag p).trans htag,
          makeRoot_carries s tag⟩
      -- so the links of the line are those of its turns
      apply Loop.run_inr_of_trace _ _ hbegin hharmless (loopResult_eq_some hr)
      · exact fun w w' hw hall hbody => hw.step hstart hall hbody
      · exact fun w r hw hall hbody => hw.step hstart hall hbody

/-- Every corner that `ConnectCorners` may take has 16-bit coordinates. -/
def CornersInRange (s : PathFinder) : Prop :=
  ∀ i, s.nCornerFlag i < invalidCornerFlag → (s.corners i).InRange

/-- Where tags are kept, the corners stay in range. -/
theorem Kept.cornersInRange (h : Kept s s') (hc : CornersInRange s) : CornersInRange s' := by
  unfold CornersInRange
  rw [h.flags, h.corners]
  exact hc

/-- Connecting from corner to corner cuts none when the lines' untested links are harmless. -/
theorem connectFrom_uncut {left dwVisited : Nat} {p : Point} (hf : s.Pure f)
    (hstart : ptStart.InRange) (hp : p.InRange) (hcorners : CornersInRange s)
    (h : Uncut t f s ptStart)
    (hharmless : ∀ u ∈ connectUntested t left s p dwVisited, u.Harmless f ptStart)
    (hr : connectFrom t left s p dwVisited = some s') : Uncut t f s' ptStart := by
  induction left generalizing s p dwVisited with
  | zero => exact nomatch hr
  | succ left ih =>
    unfold connectFrom at hr
    unfold connectUntested at hharmless
    split at hr
    · obtain rfl := Option.some.inj hr
      exact h
    · rename_i index dwMinCorner hcorner
      obtain ⟨r, hdirect, hr⟩ := Option.bind_eq_some_iff.1 hr
      rw [hcorner] at hharmless
      simp only [hdirect, List.mem_append] at hharmless
      -- this line, then those to the later corners
      have hkept := connectDirect_kept hdirect
      have hline := connectDirect_uncut hf hstart hp h (fun u hu => hharmless u (.inl hu)) hdirect
      exact ih (hkept.toSameSearch.pure hf) (hcorners index (nextCorner_recorded hcorner))
        (hkept.cornersInRange hcorners) hline (fun u hu => hharmless u (.inr hu)) hr

/-- Connecting the corners keeps the parents clear of corners. -/
theorem optimizeCorners_uncut {p : Point} (hf : s.Pure f) (hstart : ptStart.InRange)
    (hp : p.InRange)
    (hcorners : hasOption q.nOption optionOptimize = true → CornersInRange s)
    (h : Uncut t f s ptStart) (hharmless : ∀ u ∈ optimizeUntested t q s p, u.Harmless f ptStart)
    (hr : optimizeCorners t q s p = some s') : Uncut t f s' ptStart := by
  unfold optimizeCorners at hr
  unfold optimizeUntested at hharmless
  split at hr
  · rename_i hlong
    rw [if_pos hlong] at hharmless
    exact connectFrom_uncut hf hstart hp (hcorners hlong.2) h hharmless hr
  · obtain rfl := Option.some.inj hr
    exact h

/-! ## After a search -/

/-- The link to a walked tile is tested, so it cuts no corner. -/
theorem Walked.uncut {i p : Nat} (h : Walked t f s i) (hp : (s.tileTags i).pParent = some p) :
    s.Carries p ∧ ¬ CutsCorner f (s.tileToPoint t p) (s.tileToPoint t i) :=
  ⟨(h.parent hp).1.carries, (h.parent hp).2.corner⟩

/-- A tag of the search that a path can pass is walked. -/
theorem Forest.walked_of_passable {i : Nat} (h : Forest t f s)
    (hlt : i < t.maxSearchArea * t.maxSearchArea) (hi : s.Carries i ∨ s.pNearestTile = some i)
    (hfree : Blocked f (s.tileToPoint t i) → Walked t f s i) : Walked t f s i := by
  cases hi with
  | inl hc => exact (h.tags i hlt hc).elim id hfree
  | inr hnear => exact h.nearest i hnear

/-- A search from `ptStart` sets no parent without a test. -/
theorem Searched.uncut {ret : Bool} {tip : Nat} (h : Searched t f s s' ptStart ptEnd ret)
    (htip : s'.pNearestTile = some tip) : Uncut t f s' ptStart := by
  intro i hlt hi hfree p hp
  have hwalked : Walked t f s' i := by
    apply h.forest.walked_of_passable hlt hi
    intro hblocked
    -- a blocked tile on the path is the root
    obtain ⟨root, hroot, hw⟩ := (h.forest.nearest tip htip).root
    rw [h.start_eq, hfree hblocked] at hroot
    exact Option.some.inj hroot ▸ hw
  exact hwalked.uncut hp

/-- After a reversed search only the link of `ptStart` has not been tested. -/
theorem linkStart_uncut {s₀ : PathFinder} {tip : Nat}
    (hsearched : Searched t f s₀ s q.ptEnd q.ptStart true) (hstart : q.ptStart.InRange)
    (hharmless : ∀ u ∈ startUntested t s q.ptStart, u.Harmless f q.ptStart)
    (h : linkStart t s q.ptStart = some s') (htip : s'.pNearestTile = some tip) :
    Uncut t f s' q.ptStart := by
  have hforest := hsearched.forest
  cases linkStart_cases h with
  | inl hnone =>
    obtain ⟨hnear, rfl⟩ := hnone
    exact nomatch hnear.symm.trans htip
  | inr hsome =>
    obtain ⟨nearest, hnear, hcases⟩ := hsome
    have hw := hforest.nearest nearest hnear
    cases hcases with
    | inl hat =>
      -- the search has come to `ptStart` itself
      obtain ⟨htag, rfl⟩ := hat
      intro i hlt hi hfree p hp
      have hwalked : Walked t f s' i := by
        apply hforest.walked_of_passable hlt hi
        intro hblocked
        exact Option.some.inj (htag.symm.trans (hfree hblocked)) ▸ hw
      exact hwalked.uncut hp
    | inr hlink =>
      obtain ⟨tag, htag, hne, rfl⟩ := hlink
      have hwrite : ¬ CutsCorner f (s.tileToPoint t nearest) q.ptStart := by
        have hmem : .startLink (s.tileToPoint t nearest) q.ptStart ∈
            startUntested t s q.ptStart := by
          have hdiff : some nearest ≠ s.getTileTag t q.ptStart := fun heq =>
            hne (Option.some.inj (heq.trans htag)).symm
          simp only [startUntested, hnear, if_neg hdiff, List.mem_singleton]
        exact hharmless _ hmem
      have hcarries : ∀ j,
          (s.modifyTag tag fun old => { old with pParent := some nearest }).Carries j ↔
            s.Carries j := by
        intro j
        unfold Carries
        rw [setParent_nFindID]
        exact Iff.rfl
      intro i hlt hi hfree p hp
      have hp : (if i = tag then some nearest else (s.tileTags i).pParent) = some p :=
        (setParent_pParent s tag i (some nearest)).symm.trans hp
      by_cases heq : i = tag
      · rw [if_pos heq] at hp
        obtain rfl := Option.some.inj hp
        have hpoint : s.tileToPoint t i = q.ptStart :=
          tileToPoint_getTileTag hstart (heq ▸ htag)
        exact ⟨(hcarries nearest).2 hw.carries, hpoint.symm ▸ hwrite⟩
      · rw [if_neg heq] at hp
        have hc : s.Carries i := by
          cases hi with
          | inl hc => exact (hcarries i).1 hc
          | inr hnear' => exact absurd (Option.some.inj hnear').symm heq
        have hwalked : Walked t f s i := by
          apply hforest.walked_of_passable hlt (.inl hc)
          intro hblocked
          exact absurd (Option.some.inj ((hfree hblocked).symm.trans htag)) heq
        exact (hwalked.uncut hp).imp_left (hcarries p).2

/-! ## From the searches to the call -/

/-- What the blocks from `k` on assign without a test. -/
def untestedFrom (t : Params) (q : Query) : Nat → Search → List Untested
  | 0 => collectFirst t q (forwardUntested t q) (reverseUntested t q) (nearestUntested t q)
  | 1 => collectSecond t q (forwardUntested t q) (reverseUntested t q) (nearestUntested t q)
  | 2 => collectThird t q (forwardUntested t q) (reverseUntested t q) (nearestUntested t q)
  | 3 => collectFourth t q (reverseUntested t q) (nearestUntested t q)
  | _ => nearestUntested t q

/-- What is listed for a block is listed for the call. -/
theorem Stage.untested {k : Nat} {b : Search} {u : Untested} (h : Stage t q s k b)
    (hu : u ∈ untestedFrom t q k b) : u ∈ PathFinder.untested t q s := by
  induction h with
  | first => exact hu
  | second _ hr ih => exact ih (mem_collect_of_rest hr hu)
  | @third b b' _ hr ih =>
    have hsecond : u ∈ untestedFrom t q 1 b := mem_collect_of_rest hr hu
    exact ih hsecond
  | fourth _ hr ih => exact ih (mem_collect_of_rest hr hu)
  | fifth _ hr ih => exact ih (mem_collect_of_rest hr hu)

/-- A state handed to `BuildPath` after harmless assignments. -/
structure Tested (t : Params) (f : Point → Bool) (q : Query) (nReverse : Bool) (s : PathFinder) :
    Prop where
  target : nReverse = false → ¬ Blocked f q.ptEnd
  uncut : ∀ tip, s.pNearestTile = some tip → Uncut t f s q.ptStart
  shortcuts : ∃ k, ∀ u ∈ pathUntested t s k nReverse, u.Harmless f q.ptStart

/-- A search with corners leaves them in range. -/
theorem Searched.cornersInRange {ret : Bool} (h : Searched t f s s' ptStart ptEnd ret)
    (hopt : hasOption s.nSearchOption optionOptimize = true) : CornersInRange s' :=
  fun i hi => (h.corners hopt i hi).1

/-- The forward search leaves tested links only, its harmless ones aside, -/
theorem forward_tested {k : Nat} (hf : s.Pure f) (hstart : q.ptStart.InRange) (hunused : Unused t s)
    (hopt : hasOption s.nSearchOption optionOptimize = hasOption q.nOption optionOptimize)
    (hharmless : ∀ u ∈ forwardUntested t q k s, u.Harmless f q.ptStart)
    (h : forwardSearch t q s = some (true, s')) : Tested t f q true s' := by
  obtain ⟨⟨ret, s₁⟩, hcore, h⟩ := Option.bind_eq_some_iff.1 h
  cases ret with
  | false => exact nomatch h
  | true =>
    obtain ⟨s₂, hoptimize, h⟩ := Option.bind_eq_some_iff.1 h
    obtain rfl : s₂ = s' := congrArg Prod.snd (Option.some.inj h)
    have hsearched := findPathCore_searched hf hstart hunused hcore
    simp only [forwardUntested, hcore, hoptimize, List.mem_append] at hharmless
    constructor
    · exact fun hrev => nomatch hrev
    -- the links on the chain are those the search tested, or those of the corner lines
    · intro tip htip
      have htip₁ : s₁.pNearestTile = some tip :=
        (optimizeCorners_kept hoptimize).pNearestTile.symm.trans htip
      exact optimizeCorners_uncut (hsearched.toNextSearch.pure hf) hstart hstart
        (fun hon => hsearched.cornersInRange (hopt.trans hon)) (hsearched.uncut htip₁)
        (fun u hu => hharmless u (.inl hu)) hoptimize
    -- the shortcuts are asked of `BuildPath`
    · exact ⟨k, fun u hu => hharmless u (.inr hu)⟩

/-- and so does the reversed one. -/
theorem reverse_tested {k : Nat} (hf : s.Pure f) (hstart : q.ptStart.InRange)
    (hend : q.ptEnd.InRange) (hunused : Unused t s)
    (hopt : hasOption s.nSearchOption optionOptimize = hasOption q.nOption optionOptimize)
    (hharmless : ∀ u ∈ reverseUntested t q k s, u.Harmless f q.ptStart)
    (h : reverseSearch t q s = some (true, s')) : Tested t f q false s' := by
  obtain ⟨⟨ret, s₁⟩, hcore, h⟩ := Option.bind_eq_some_iff.1 h
  cases ret with
  | false => exact nomatch h
  | true =>
    obtain ⟨s₂, hlink, h⟩ := Option.bind_eq_some_iff.1 h
    obtain ⟨s₃, hoptimize, h⟩ := Option.bind_eq_some_iff.1 h
    obtain rfl : s₃ = s' := congrArg Prod.snd (Option.some.inj h)
    have hsearched := findPathCore_searched hf hend hunused hcore
    obtain ⟨hids, hcorners, hflags, -⟩ := linkStart_sameIds hlink
    simp only [reverseUntested, hcore, hlink, hoptimize, List.mem_append, List.cons_append,
      List.mem_cons] at hharmless
    constructor
    · exact fun _ => hharmless _ (.inl rfl)
    · intro tip htip
      have htip₂ : s₂.pNearestTile = some tip :=
        (optimizeCorners_kept hoptimize).pNearestTile.symm.trans htip
      have huncut := linkStart_uncut hsearched hstart
        (fun u hu => hharmless u (.inr (.inl hu))) hlink htip₂
      -- `linkStart` records no corner
      have hinRange : hasOption q.nOption optionOptimize = true → CornersInRange s₂ := by
        intro hon
        unfold CornersInRange
        rw [hcorners, hflags]
        exact hsearched.cornersInRange (hopt.trans hon)
      exact optimizeCorners_uncut (hids.toSameSearch.pure (hsearched.toNextSearch.pure hf)) hstart
        hend hinRange huncut (fun u hu => hharmless u (.inr (.inr (.inl hu)))) hoptimize
    · exact ⟨k, fun u hu => hharmless u (.inr (.inr (.inr hu)))⟩

/-- What is handed to `BuildPath` in a call whose untested assignments are harmless. -/
theorem handed_tested {nReverse : Bool} (hf : s.Pure f) (hstart : q.ptStart.InRange)
    (hend : q.ptEnd.InRange) (hfresh : Fresh t s 5)
    (hharmless : ∀ u ∈ untested t q s, u.Harmless f q.ptStart) (h : Handed t q s nReverse s') :
    Tested t f q nReverse s' := by
  have hframe : ∀ {k : Nat} {b : Search}, Stage t q s k b → StageFrame t f q s (5 - k) b :=
    fun hstage => hstage.frame hf hstart hend hfresh (by omega) (by omega)
  have hown : ∀ {k : Nat} {b : Search}, Stage t q s k b →
      ∀ u ∈ untestedFrom t q k b, u.Harmless f q.ptStart :=
    fun hstage u hu => hharmless u (hstage.untested hu)
  cases h with
  | @forward k b s' hstage hk hmore hrun =>
    have hb := hframe hstage
    have hblock : ∀ u ∈ forwardUntested t q k b.finder, u.Harmless f q.ptStart := by
      intro u hu
      rcases hk with rfl | rfl
      · exact hown hstage u (mem_collect_of_own hmore hu)
      · exact hown hstage u (mem_collect_of_own hmore hu)
    exact forward_tested hb.pure hstart (hb.fresh.unused (by omega)) hb.optimize hblock hrun
  | @reverse k b s' hstage hk hmore hrun =>
    have hb := hframe hstage
    have hblock : ∀ u ∈ reverseUntested t q k b.finder, u.Harmless f q.ptStart := by
      intro u hu
      rcases hk with rfl | rfl
      · exact hown hstage u (mem_collect_of_own hmore hu)
      · exact hown hstage u (mem_collect_of_own hmore hu)
    exact reverse_tested hb.pure hstart hend (hb.fresh.unused (by omega)) hb.optimize hblock hrun
  | @nearest b r hstage hnone hnear hcore =>
    -- the corners are not connected here
    have hb := hframe hstage
    have hsearched := findPathCore_searched hb.pure hstart (hb.fresh.unused (by omega)) hcore
    have hlast := hown hstage
    simp only [untestedFrom, nearestUntested, hnone, hb.nearest, hnear, hcore, if_true] at hlast
    constructor
    · exact fun hrev => nomatch hrev
    · exact fun _ htip => hsearched.uncut htip
    · exact ⟨0, hlast⟩

end XGame3.PathFinder
