import XGame3.Native.PathFinderAStar
import XGame3.Spec.PathFinderWalk

/-!
# Single steps of the A* search

What the loop over the eight directions does for one direction, for a pure `IsBlock`, and
what it leaves after all eight.

Key results:
- `expandDir_turn`: the ways through one direction.
- `expandDir_link`: what they do to the tags when `IsBlock` is pure.
- `expandDir_step`: the same without the step counts.
- `expand_run`: what each direction keeps, all eight keep.
- `expand_expanding`: after the eight directions exactly the free neighbours were found.
-/

namespace XGame3.PathFinder

open FixedInt

variable {t : Params} {s s' s₀ : PathFinder} {f : Point → Bool} {ptTile ptEnd : Point}
  {pCurrent step dir : Nat} {e e' : Expansion}

/-! ## Moves in the window -/

/-- A legal move to a tile that has a tag, which is inside the map and the window. -/
structure AStarMove (t : Params) (f : Point → Bool) (s : PathFinder) (p q : Point) : Prop
    extends LegalMove f p q where
  inRange : q.InRange
  tagged : ∃ tag, s.getTileTag t q = some tag

/-- The estimated distance to the target. -/
def distance (p ptEnd : Point) : Int :=
  int32 (abs (int32 (p.x - ptEnd.x)) + abs (int32 (p.y - ptEnd.y)))

/-- The distance of two tiles that are near each other does not wrap. -/
theorem abs_near {x : Int} (h : -46340 < x ∧ x < 46340) :
    0 ≤ abs (int32 x) ∧ abs (int32 x) < 46340 := by
  have hx : int32 x = x := int32_of_isInt32 (by omega)
  unfold abs
  rw [hx]
  split
  · have hneg : int32 (-x) = -x := int32_of_isInt32 (by omega)
    omega
  · omega

/-- In the window the distance does not overflow. -/
theorem distance_nonneg {p : Point} {i j : Nat} (hp : p.InRange) (hend : ptEnd.InRange)
    (hi : s.getTileTag t p = some i) (hj : s.getTileTag t ptEnd = some j) :
    0 ≤ distance p ptEnd := by
  obtain ⟨hx, hy⟩ := getTileTag_near hp hend hi hj
  have hax := abs_near hx
  have hay := abs_near hy
  unfold distance
  rw [int32_of_isInt32 (by omega)]
  omega

/-! ## One direction -/

/-- What happens in one direction. -/
inductive ExpandStep (t : Params) (f : Point → Bool) (ptTile ptEnd : Point) (pCurrent dir : Nat)
    (e : Expansion) : Expansion → Prop
  | outside {ptNext : Point} : moveNext ptTile dir = some ptNext →
      e.finder.getTileTag t ptNext = none → ExpandStep t f ptTile ptEnd pCurrent dir e e
  | known {ptNext : Point} {tag n : Nat} : Ahead t e.finder ptTile dir ptNext tag →
      (e.finder.tileTags pCurrent).pParent = some tag ∨ e.finder.Carries tag →
      ExpandStep t f ptTile ptEnd pCurrent dir e { e with visitedNum := n }
  | refused {ptNext : Point} {tag : Nat} {s' : PathFinder} :
      Ahead t e.finder ptTile dir ptNext tag → Refused f ptTile ptNext →
      s' = e.finder ∨ e.finder.Carries tag ∧ Reparented e.finder s' tag pCurrent →
      ExpandStep t f ptTile ptEnd pCurrent dir e
        { e with finder := s', blockNum := e.blockNum + 1 }
  | found {ptNext : Point} {tag n : Nat} {s' : PathFinder} :
      Ahead t e.finder ptTile dir ptNext tag → ¬ Refused f ptTile ptNext →
      Reparented e.finder s' tag pCurrent →
      ExpandStep t f ptTile ptEnd pCurrent dir e
        { e with
          finder := s'
          nNearestDist := n
          found := e.found ++ [(dir, distance ptNext ptEnd, ptNext)] }

/-- The step count of a tag. -/
def stepOf (s : PathFinder) (tag : Nat) : Nat := (s.tileTags tag).nStep

/-- A step count is a `WORD`. -/
theorem nStep_setStep (tag : TileTag) (step : Nat) : (tag.setStep step).nStep = step % 65536 := by
  unfold TileTag.nStep TileTag.setStep
  dsimp only
  omega

/-- One tag of the search was given a parent and a step count. -/
structure Relinked (s s' : PathFinder) (tag parent step : Nat) : Prop extends SameIds s s' where
  carries : s'.Carries tag
  parent : (s'.tileTags tag).pParent = some parent
  stepOf : stepOf s' tag = step % 65536
  other : ∀ i, i ≠ tag → s'.tileTags i = s.tileTags i
  nearest : s'.pNearestTile = s.pNearestTile ∨ s'.pNearestTile = some tag
  count : s'.nStepCount = s.nStepCount

/-- A second change to the same tag. -/
theorem Relinked.trans {tag parent : Nat} {s'' : PathFinder} (h : Relinked s s' tag parent step)
    (h' : Relinked s' s'' tag parent step) : Relinked s s'' tag parent step where
  toSameIds := h.toSameIds.trans h'.toSameIds
  carries := h'.carries
  parent := h'.parent
  stepOf := h'.stepOf
  other := fun i hi => (h'.other i hi).trans (h.other i hi)
  nearest := by
    cases h'.nearest with
    | inl hsame => exact hsame ▸ h.nearest
    | inr htag => exact .inr htag
  count := h'.count.trans h.count

/-- `m_pNearestTile` is no tag. -/
theorem Relinked.setNearest {tag parent : Nat} (h : Relinked s s' tag parent step) :
    Relinked s { s' with pNearestTile := some tag } tag parent step where
  toSameSearch := ⟨h.ptStart, h.ptEnd, h.nMapWidth, h.nMapHeight, h.blockFunc, h.nFind,
    h.nSearchOption, h.nMaxStep, h.pathTemp⟩
  ids := h.ids
  carries := h.carries
  parent := h.parent
  stepOf := h.stepOf
  other := h.other
  nearest := .inr rfl
  count := h.count

/-- A tag that is linked carries the number of the search. -/
theorem Relinked.carries_iff {tag parent i : Nat} (h : Relinked s s' tag parent step) :
    s'.Carries i ↔ i = tag ∨ s.Carries i := by
  by_cases hi : i = tag
  · subst hi
    exact ⟨fun _ => .inl rfl, fun _ => h.carries⟩
  · unfold Carries
    rw [h.other i hi, h.nFind]
    exact ⟨.inr, fun hc => hc.resolve_left hi⟩

/-- A link is a parent. -/
theorem Relinked.reparented {tag parent : Nat} (h : Relinked s s' tag parent step) :
    Reparented s s' tag parent where
  toSameIds := h.toSameIds
  carries := fun _ => h.carries_iff
  parent := fun i => by
    split
    · rename_i hi
      rw [hi]
      exact h.parent
    · rename_i hi
      rw [h.other i hi]
  nearest := h.nearest

/-- A change to one tag that gives it a parent, the number of the search and a step count. -/
theorem modifyTag_relinked {tag parent : Nat} (g : TileTag → TileTag)
    (hparent : (g (s.tileTags tag)).pParent = some parent)
    (hfind : (g (s.tileTags tag)).nFindID = s.nFind)
    (hstep : (g (s.tileTags tag)).nStep = step % 65536) :
    Relinked s (s.modifyTag tag g) tag parent step := by
  have htag : (s.modifyTag tag g).tileTags tag = g (s.tileTags tag) := modifyTag_self s tag g
  constructor
  · exact modifyTag_sameIds hfind
  -- the tag itself
  · unfold Carries
    rw [htag]
    exact hfind
  · rw [htag]
    exact hparent
  · unfold PathFinder.stepOf
    rw [htag]
    exact hstep
  -- the other tags and what is not a tag
  · intro i hi
    rw [modifyTag_tileTags, if_neg hi]
  · exact .inl rfl
  · rfl

/-- A tag already in the search gets the shorter way before its tile is tested. -/
def relinkKnown (s : PathFinder) (tag pCurrent step : Nat) : PathFinder :=
  if (s.tileTags tag).nFindID = s.nFind then
    s.modifyTag tag fun old => { old with pParent := some pCurrent }.setStep step
  else
    s

/-- The tag of a tile that is entered. -/
def linkTag (s : PathFinder) (tag pCurrent step : Nat) : PathFinder :=
  s.modifyTag tag fun old => { old with nFindID := s.nFind, pParent := some pCurrent }.setStep step

/-- Only a tag of the search is linked anew. -/
theorem relinkKnown_cases (s : PathFinder) (tag pCurrent step : Nat) :
    ¬ s.Carries tag ∧ s.relinkKnown tag pCurrent step = s ∨
      s.Carries tag ∧ Relinked s (s.relinkKnown tag pCurrent step) tag pCurrent step := by
  unfold relinkKnown
  split
  · rename_i hc
    exact .inr ⟨hc, modifyTag_relinked _ rfl hc (nStep_setStep _ _)⟩
  · rename_i hc
    exact .inl ⟨hc, rfl⟩

/-- A tag that is new to the search is linked. -/
theorem linkTag_relinked (s : PathFinder) (tag pCurrent step : Nat) :
    Relinked s (s.linkTag tag pCurrent step) tag pCurrent step :=
  modifyTag_relinked _ rfl rfl (nStep_setStep _ _)

/-- The tile ahead is new or reached by fewer steps, and it is tested. -/
structure TestedAhead (t : Params) (ptTile : Point) (pCurrent step dir : Nat) (e : Expansion)
    (ptNext : Point) (pTag : Nat) (block bevel : Bool) : Prop
    extends Ahead t e.finder ptTile dir ptNext pTag where
  shorter : e.finder.Carries pTag → step < stepOf e.finder pTag
  isBevelBlock : (e.finder.relinkKnown pTag pCurrent step).isBevelBlock ptTile ptNext = some bevel
  isBlock : (e.finder.relinkKnown pTag pCurrent step).isBlock ptNext = some block

/-- The ways through the body of the loop over the eight directions, whatever `IsBlock` is. -/
inductive ExpandTurn (t : Params) (ptTile ptEnd : Point) (pCurrent step dir : Nat)
    (e : Expansion) : Expansion → Prop
  | outside {ptNext : Point} : moveNext ptTile dir = some ptNext →
      e.finder.getTileTag t ptNext = none → ExpandTurn t ptTile ptEnd pCurrent step dir e e
  | back {ptNext : Point} {tag : Nat} : Ahead t e.finder ptTile dir ptNext tag →
      (e.finder.tileTags pCurrent).pParent = some tag →
      ExpandTurn t ptTile ptEnd pCurrent step dir e e
  | known {ptNext : Point} {tag : Nat} : Ahead t e.finder ptTile dir ptNext tag →
      e.finder.Carries tag → stepOf e.finder tag ≤ step →
      ExpandTurn t ptTile ptEnd pCurrent step dir e { e with visitedNum := e.visitedNum + 1 }
  | refused {ptNext : Point} {tag : Nat} {block bevel : Bool} :
      TestedAhead t ptTile pCurrent step dir e ptNext tag block bevel → (block || bevel) = true →
      ExpandTurn t ptTile ptEnd pCurrent step dir e
        { e with
          finder := e.finder.relinkKnown tag pCurrent step
          blockNum := e.blockNum + 1 }
  | nearer {ptNext : Point} {tag : Nat} {block bevel : Bool} :
      TestedAhead t ptTile pCurrent step dir e ptNext tag block bevel → ¬ (block || bevel) = true →
      t.dword.wrap (distance ptNext ptEnd) < e.nNearestDist →
      ExpandTurn t ptTile ptEnd pCurrent step dir e
        { e with
          finder :=
            { (e.finder.relinkKnown tag pCurrent step).linkTag tag pCurrent step with
              pNearestTile := some tag }
          nNearestDist := t.dword.wrap (distance ptNext ptEnd)
          found := e.found ++ [(dir, distance ptNext ptEnd, ptNext)] }
  | farther {ptNext : Point} {tag : Nat} {block bevel : Bool} :
      TestedAhead t ptTile pCurrent step dir e ptNext tag block bevel → ¬ (block || bevel) = true →
      ¬ t.dword.wrap (distance ptNext ptEnd) < e.nNearestDist →
      ExpandTurn t ptTile ptEnd pCurrent step dir e
        { e with
          finder := (e.finder.relinkKnown tag pCurrent step).linkTag tag pCurrent step
          found := e.found ++ [(dir, distance ptNext ptEnd, ptNext)] }

/-- One direction of an expansion takes one of its turns. -/
theorem expandDir_turn (h : expandDir t ptTile ptEnd pCurrent step dir e = some e') :
    ExpandTurn t ptTile ptEnd pCurrent step dir e e' := by
  obtain ⟨ptNext, hmove, h⟩ := Option.bind_eq_some_iff.1 h
  split at h
  · -- outside the search area
    rename_i htag
    obtain rfl := Option.some.inj h
    exact .outside hmove htag
  · rename_i tag htag
    have ahead : Ahead t e.finder ptTile dir ptNext tag := ⟨hmove, htag⟩
    split at h
    · -- the way back
      rename_i hparent
      obtain rfl := Option.some.inj h
      exact .back ahead hparent.symm
    · split at h
      · -- found before, and not by more steps
        rename_i hvisited
        obtain rfl := Option.some.inj h
        exact .known ahead hvisited.1 (Nat.le_of_not_lt hvisited.2)
      · rename_i hnew
        have hshorter : e.finder.Carries tag → step < stepOf e.finder tag := fun hc =>
          not_not.1 fun hle => hnew ⟨hc, hle⟩
        obtain ⟨bevel, hbevel, h⟩ := Option.bind_eq_some_iff.1 h
        obtain ⟨block, hblock, h⟩ := Option.bind_eq_some_iff.1 h
        have htested : TestedAhead t ptTile pCurrent step dir e ptNext tag block bevel :=
          ⟨ahead, hshorter, hbevel, hblock⟩
        split at h
        · -- the move is refused, but the shorter way stays
          rename_i href
          obtain rfl := Option.some.inj h
          exact .refused htested href
        · -- the tile is entered
          rename_i href
          dsimp only at h
          split at h
          · rename_i hlt
            obtain rfl := Option.some.inj h
            exact .nearer htested href hlt
          · rename_i hle
            obtain rfl := Option.some.inj h
            exact .farther htested href hle

/-- For a pure `IsBlock` the tests ask whether the move is refused. -/
theorem TestedAhead.refused {ptNext : Point} {tag : Nat} {block bevel : Bool}
    (h : TestedAhead t ptTile pCurrent step dir e ptNext tag block bevel) (hf : e.finder.Pure f)
    (hin : ptTile.InRange) : (block || bevel) = true ↔ Refused f ptTile ptNext := by
  have hf' : (e.finder.relinkKnown tag pCurrent step).Pure f := by
    cases relinkKnown_cases e.finder tag pCurrent step with
    | inl hnew =>
      rw [hnew.2]
      exact hf
    | inr hold => exact hold.2.toSameSearch.pure hf
  have hblock := h.isBlock
  have hbevel := h.isBevelBlock
  rw [isBlock_eq hf'] at hblock
  rw [isBevelBlock_eq hf' hin h.inRange] at hbevel
  obtain rfl := Option.some.inj hblock
  obtain rfl := Option.some.inj hbevel
  exact refused_iff

/-- A tile that is entered gets its tag relinked. -/
theorem relinkKnown_linkTag (s : PathFinder) (tag pCurrent step : Nat) :
    Relinked s ((s.relinkKnown tag pCurrent step).linkTag tag pCurrent step) tag pCurrent step := by
  cases relinkKnown_cases s tag pCurrent step with
  | inl hnew =>
    rw [hnew.2]
    exact linkTag_relinked s tag pCurrent step
  | inr hold => exact hold.2.trans (linkTag_relinked _ tag pCurrent step)

/-- What happens to the tags in one direction. -/
inductive LinkStep (t : Params) (f : Point → Bool) (ptTile ptEnd : Point) (pCurrent step dir : Nat)
    (e : Expansion) : Expansion → Prop
  | outside {ptNext : Point} : moveNext ptTile dir = some ptNext →
      e.finder.getTileTag t ptNext = none → LinkStep t f ptTile ptEnd pCurrent step dir e e
  | back {ptNext : Point} {tag : Nat} : Ahead t e.finder ptTile dir ptNext tag →
      (e.finder.tileTags pCurrent).pParent = some tag →
      LinkStep t f ptTile ptEnd pCurrent step dir e e
  | known {ptNext : Point} {tag : Nat} : Ahead t e.finder ptTile dir ptNext tag →
      e.finder.Carries tag → stepOf e.finder tag ≤ step →
      LinkStep t f ptTile ptEnd pCurrent step dir e { e with visitedNum := e.visitedNum + 1 }
  | blocked {ptNext : Point} {tag : Nat} : Ahead t e.finder ptTile dir ptNext tag →
      Refused f ptTile ptNext → ¬ e.finder.Carries tag →
      LinkStep t f ptTile ptEnd pCurrent step dir e { e with blockNum := e.blockNum + 1 }
  | reopened {ptNext : Point} {tag : Nat} {s' : PathFinder} :
      Ahead t e.finder ptTile dir ptNext tag → Refused f ptTile ptNext → e.finder.Carries tag →
      step < stepOf e.finder tag → Relinked e.finder s' tag pCurrent step →
      LinkStep t f ptTile ptEnd pCurrent step dir e
        { e with finder := s', blockNum := e.blockNum + 1 }
  | found {ptNext : Point} {tag n : Nat} {s' : PathFinder} :
      Ahead t e.finder ptTile dir ptNext tag → ¬ Refused f ptTile ptNext →
      (e.finder.Carries tag → step < stepOf e.finder tag) →
      Relinked e.finder s' tag pCurrent step →
      LinkStep t f ptTile ptEnd pCurrent step dir e
        { e with
          finder := s'
          nNearestDist := n
          found := e.found ++ [(dir, distance ptNext ptEnd, ptNext)] }

/-- The links that one direction makes. -/
theorem expandDir_link (hf : e.finder.Pure f) (hin : ptTile.InRange)
    (h : expandDir t ptTile ptEnd pCurrent step dir e = some e') :
    LinkStep t f ptTile ptEnd pCurrent step dir e e' := by
  cases expandDir_turn h with
  | outside hmove htag => exact .outside hmove htag
  | back ahead hparent => exact .back ahead hparent
  | known ahead hc hle => exact .known ahead hc hle
  | @refused ptNext tag block bevel tested href =>
    have href' : Refused f ptTile ptNext := (tested.refused hf hin).1 href
    -- a refused tile keeps its link, or is reopened before the refusal
    cases relinkKnown_cases e.finder tag pCurrent step with
    | inl hnew =>
      rw [hnew.2]
      exact .blocked tested.toAhead href' hnew.1
    | inr hold => exact .reopened tested.toAhead href' hold.1 (tested.shorter hold.1) hold.2
  -- a free tile is found
  | nearer tested href _ =>
    have hfree := mt (tested.refused hf hin).2 href
    exact .found tested.toAhead hfree tested.shorter (relinkKnown_linkTag _ _ _ _).setNearest
  | farther tested href _ =>
    have hfree := mt (tested.refused hf hin).2 href
    exact .found tested.toAhead hfree tested.shorter (relinkKnown_linkTag _ _ _ _)

/-- What one direction finds with a pure `IsBlock`. -/
theorem expandDir_step (hf : e.finder.Pure f) (hin : ptTile.InRange)
    (h : expandDir t ptTile ptEnd pCurrent step dir e = some e') :
    ExpandStep t f ptTile ptEnd pCurrent dir e e' := by
  cases expandDir_link hf hin h with
  | outside hmove htag => exact .outside hmove htag
  | back ahead hparent => exact .known ahead (.inl hparent)
  | known ahead hc _ => exact .known ahead (.inr hc)
  | blocked ahead href _ => exact .refused ahead href (.inl rfl)
  | reopened ahead href hc _ hrep => exact .refused ahead href (.inr ⟨hc, hrep.reparented⟩)
  | found ahead href _ hrep => exact .found ahead href hrep.reparented

/-! ## The eight directions -/

/-- One of the tags, and it carries the number of the search. -/
def Touched (t : Params) (s : PathFinder) (tag : Nat) : Prop :=
  tag < t.maxSearchArea * t.maxSearchArea ∧ s.Carries tag

/-- The parents of touched tags are touched, only the start has none, and `m_pNearestTile` is
    one of them. -/
structure Tree (t : Params) (s : PathFinder) (root : Nat) : Prop where
  closed : ∀ i, Touched t s i → ((s.tileTags i).pParent = none → i = root) ∧
    ∀ j, (s.tileTags i).pParent = some j → Touched t s j
  nearest : ∀ i, s.pNearestTile = some i → Touched t s i

/-- A new parent in the tree keeps the tree. -/
theorem Reparented.tree {tag parent root : Nat} (h : Reparented s s' tag parent)
    (hs : Tree t s root) (hparent : Touched t s parent)
    (hlt : tag < t.maxSearchArea * t.maxSearchArea) : Tree t s' root where
  closed := fun i hi => by
    rw [h.parent i]
    -- the new parent is a tile of the search
    split
    · constructor
      · exact fun hnone => nomatch hnone
      · intro j hj
        obtain rfl := Option.some.inj hj
        exact ⟨hparent.1, (h.carries _).2 (.inr hparent.2)⟩
    -- other tiles keep theirs
    · rename_i hne
      have hold := hs.closed i ⟨hi.1, ((h.carries i).1 hi.2).resolve_left hne⟩
      constructor
      · exact hold.1
      · intro j hj
        exact ⟨(hold.2 j hj).1, (h.carries j).2 (.inr (hold.2 j hj).2)⟩
  nearest := fun i hi => by
    cases h.nearest with
    | inl hsame =>
      have hold := hs.nearest i (hsame ▸ hi)
      exact ⟨hold.1, (h.carries i).2 (.inr hold.2)⟩
    | inr htag =>
      rw [htag] at hi
      obtain rfl := Option.some.inj hi
      exact ⟨hlt, (h.carries _).2 (.inl rfl)⟩

/-- After some directions: what was found, and that nothing free was left out. -/
structure Expanding (t : Params) (f : Point → Bool) (s₀ : PathFinder) (ptTile ptEnd : Point)
    (root : Nat) (tried : List Nat) (e : Expansion) : Prop where
  same : SameIds s₀ e.finder
  tree : Tree t e.finder root
  carries : ∀ i, e.finder.Carries i ↔
    s₀.Carries i ∨ ∃ g ∈ e.found, s₀.getTileTag t g.2.2 = some i
  found : ∀ g ∈ e.found, g.2.1 = distance g.2.2 ptEnd ∧ AStarMove t f s₀ ptTile g.2.2
  covered : ∀ dir ∈ tried, ∀ q, moveNext ptTile (dir : Nat) = some q → AStarMove t f s₀ ptTile q →
    ∀ i, s₀.getTileTag t q = some i → e.finder.Carries i

/-- A direction in which no tag was taken into the search. -/
theorem Expanding.skip {root n m : Nat} {tried : List Nat}
    (h : Expanding t f s₀ ptTile ptEnd root tried e) (hsame : SameIds e.finder s')
    (htree : Tree t s' root) (hcarries : ∀ i, s'.Carries i ↔ e.finder.Carries i)
    (hdir : ∀ q, moveNext ptTile (dir : Nat) = some q → AStarMove t f s₀ ptTile q →
      ∀ i, s₀.getTileTag t q = some i → e.finder.Carries i) :
    Expanding t f s₀ ptTile ptEnd root (dir :: tried)
      { e with finder := s', blockNum := n, visitedNum := m } where
  same := h.same.trans hsame
  tree := htree
  carries := fun i => (hcarries i).trans (h.carries i)
  found := h.found
  covered := fun d hd q hq hmove i hi => by
    apply (hcarries i).2
    cases List.mem_cons.1 hd with
    | inl heq => exact hdir q (heq ▸ hq) hmove i hi
    | inr hold => exact h.covered d hold q hq hmove i hi

/-- A direction in which a free tile is found. -/
theorem Expanding.take {root n tag : Nat} {tried : List Nat} {ptNext : Point}
    (h : Expanding t f s₀ ptTile ptEnd root tried e)
    (hnext : moveNext ptTile (dir : Nat) = some ptNext) (hmove : AStarMove t f s₀ ptTile ptNext)
    (htag : s₀.getTileTag t ptNext = some tag) (htree : Tree t s' root)
    (hrep : Reparented e.finder s' tag pCurrent) :
    Expanding t f s₀ ptTile ptEnd root (dir :: tried)
      { e with
        finder := s'
        nNearestDist := n
        found := e.found ++ [(dir, distance ptNext ptEnd, ptNext)] } where
  same := h.same.trans hrep.toSameIds
  tree := htree
  carries := fun i => by
    rw [hrep.carries, h.carries]
    constructor
    · intro hi
      cases hi with
      | inl heq => exact .inr ⟨_, List.mem_append_right _ (List.mem_singleton_self _), heq ▸ htag⟩
      | inr hold => exact hold.imp_right fun ⟨g, hg, hgi⟩ => ⟨g, List.mem_append_left _ hg, hgi⟩
    · intro hi
      cases hi with
      | inl hold => exact .inr (.inl hold)
      | inr hnew =>
        obtain ⟨g, hg, hgi⟩ := hnew
        cases List.mem_append.1 hg with
        | inl hold => exact .inr (.inr ⟨g, hold, hgi⟩)
        | inr hlast =>
          rw [List.mem_singleton.1 hlast] at hgi
          exact .inl (Option.some.inj (hgi.symm.trans htag))
  found := fun g hg => by
    cases List.mem_append.1 hg with
    | inl hold => exact h.found g hold
    | inr hlast =>
      rw [List.mem_singleton.1 hlast]
      exact ⟨rfl, hmove⟩
  covered := fun d hd q hq hmoveq i hi => by
    apply (hrep.carries i).2
    cases List.mem_cons.1 hd with
    | inl heq =>
      -- this direction leads to the tile that was just found
      subst heq
      obtain rfl := Option.some.inj (hnext.symm.trans hq)
      exact .inl (Option.some.inj (hi.symm.trans htag))
    | inr hold => exact .inr (h.covered d hold q hq hmoveq i hi)

/-- One more direction of an expansion. -/
theorem Expanding.next {root : Nat} {tried : List Nat}
    (h : Expanding t f s₀ ptTile ptEnd root tried e) (hf : s₀.Pure f) (hin : ptTile.InRange)
    (hcurrent : s₀.getTileTag t ptTile = some pCurrent) (hc : s₀.Carries pCurrent)
    (hr : expandDir t ptTile ptEnd pCurrent step dir e = some e') :
    Expanding t f s₀ ptTile ptEnd root (dir :: tried) e' := by
  have hc' : Touched t e.finder pCurrent :=
    ⟨getTileTag_lt hcurrent, (h.carries pCurrent).2 (.inl hc)⟩
  cases expandDir_step (h.same.toSameSearch.pure hf) hin hr with
  | outside hmove htag =>
    apply h.skip (.refl _) h.tree fun _ => .rfl
    intro q hq _ i hi
    -- the tile has no tag
    obtain rfl := Option.some.inj (hmove.symm.trans hq)
    rw [h.same.toSameSearch.getTileTag] at htag
    rw [htag] at hi
    exact nomatch hi
  | known ahead hknown =>
    apply h.skip (.refl _) h.tree fun _ => .rfl
    intro q hq _ i hi
    obtain rfl := Option.some.inj (ahead.move.symm.trans hq)
    obtain rfl := Option.some.inj
      (((h.same.toSameSearch.getTileTag _).symm.trans ahead.tag).symm.trans hi)
    cases hknown with
    | inl hparent => exact ((h.tree.closed pCurrent hc').2 _ hparent).2
    | inr hvisited => exact hvisited
  | refused ahead hrefused hs' =>
    have hdir : ∀ q, moveNext ptTile (dir : Nat) = some q → AStarMove t f s₀ ptTile q →
        ∀ i, s₀.getTileTag t q = some i → e.finder.Carries i := by
      intro q hq hmove _ _
      obtain rfl := Option.some.inj (ahead.move.symm.trans hq)
      cases hrefused with
      | inl hb => exact absurd hb hmove.free
      | inr hcut => exact absurd hcut hmove.corner
    cases hs' with
    | inl heq => exact heq ▸ h.skip (.refl _) h.tree (fun _ => .rfl) hdir
    | inr hrep =>
      apply h.skip hrep.2.toSameIds (hrep.2.tree h.tree hc' (getTileTag_lt ahead.tag)) _ hdir
      intro i
      rw [hrep.2.carries]
      exact or_iff_right_of_imp fun heq => heq ▸ hrep.1
  | @found ptNext tag _ s₁ ahead hfree hrep =>
    have htag : s₀.getTileTag t ptNext = some tag :=
      (h.same.toSameSearch.getTileTag ptNext).symm.trans ahead.tag
    have hnear : Neighbour ptTile ptNext :=
      ahead.near hin ((h.same.toSameSearch.getTileTag ptTile).trans hcurrent)
    have hmove : AStarMove t f s₀ ptTile ptNext :=
      { toLegalMove := .of_not_refused hnear hfree, inRange := ahead.inRange,
        tagged := ⟨tag, htag⟩ }
    exact h.take ahead.move hmove htag (hrep.tree h.tree hc' (getTileTag_lt ahead.tag)) hrep

/-- What each direction keeps, the loop over the directions keeps. -/
theorem expand_run {I : List Nat → Expansion → Prop} {dirs : List Nat} (tried : List Nat)
    (hstep : ∀ {tried dir e e'}, I tried e →
      expandDir t ptTile ptEnd pCurrent step dir e = some e' → I (dir :: tried) e')
    (h : I tried e) (hr : expand t ptTile ptEnd pCurrent step dirs e = some e') :
    I (dirs.reverse ++ tried) e' := by
  induction dirs generalizing e tried with
  | nil =>
    obtain rfl := Option.some.inj hr
    exact h
  | cons dir dirs ih =>
    obtain ⟨e₁, hdir, hr⟩ := Option.bind_eq_some_iff.1 hr
    rw [List.reverse_cons, List.append_assoc]
    exact ih _ (hstep h hdir) hr

/-- After the eight directions exactly the free neighbours were found, and all of them are in the
    search. -/
theorem expand_expanding {root : Nat} {dirs tried : List Nat}
    (h : Expanding t f s₀ ptTile ptEnd root tried e) (hf : s₀.Pure f) (hin : ptTile.InRange)
    (hcurrent : s₀.getTileTag t ptTile = some pCurrent) (hc : s₀.Carries pCurrent)
    (hr : expand t ptTile ptEnd pCurrent step dirs e = some e') :
    Expanding t f s₀ ptTile ptEnd root (dirs.reverse ++ tried) e' := by
  apply expand_run tried _ h hr
  intro tried dir e e' h hdir
  exact h.next hf hin hcurrent hc hdir

/-! ## What an expansion leaves alone -/

section

variable {dirs : List Nat} {α : Type} (g : PathFinder → α)
  (htags : ∀ (s : PathFinder) i h, g (s.modifyTag i h) = g s)
  (hnearest : ∀ (s : PathFinder) o, g { s with pNearestTile := o } = g s)

include htags hnearest

/-- Only tags and `m_pNearestTile` are assigned to. -/
theorem expandDir_observe (h : expandDir t ptTile ptEnd pCurrent step dir e = some e') :
    g e'.finder = g e.finder := by
  have hknown : ∀ tag, g (e.finder.relinkKnown tag pCurrent step) = g e.finder := by
    intro tag
    unfold relinkKnown
    split
    · exact htags _ _ _
    · rfl
  have hlinked : ∀ tag, g ((e.finder.relinkKnown tag pCurrent step).linkTag tag pCurrent step) =
      g e.finder := fun tag => (htags _ _ _).trans (hknown tag)
  cases expandDir_turn h with
  | outside _ _ => rfl
  | back _ _ => rfl
  | known _ _ _ => rfl
  | refused _ _ => exact hknown _
  | nearer _ _ _ => exact (hnearest _ _).trans (hlinked _)
  | farther _ _ _ => exact hlinked _

/-- What no direction changes, all of them leave. -/
theorem expand_observe (h : expand t ptTile ptEnd pCurrent step dirs e = some e') :
    g e'.finder = g e.finder := by
  apply expand_run (I := fun _ e₁ => g e₁.finder = g e.finder) [] _ rfl h
  intro tried dir e₁ e₂ hkept hdir
  exact (expandDir_observe g htags hnearest hdir).trans hkept

end

/-- The beginning of an A* search leaves the map alone. -/
theorem aStarStart_sameMap (s : PathFinder) (ptStart ptEnd : Point) :
    SameMap s (aStarStart t s ptStart ptEnd).finder := by
  unfold aStarStart
  dsimp only
  split <;> exact ⟨rfl, rfl, rfl⟩

/-- So does one direction of an expansion, -/
theorem expandDir_sameMap (h : expandDir t ptTile ptEnd pCurrent step dir e = some e') :
    SameMap e.finder e'.finder :=
  ⟨expandDir_observe nMapWidth (fun _ _ _ => rfl) (fun _ _ => rfl) h,
    expandDir_observe nMapHeight (fun _ _ _ => rfl) (fun _ _ => rfl) h,
    expandDir_observe blockFunc (fun _ _ _ => rfl) (fun _ _ => rfl) h⟩

/-- and so do all of them. -/
theorem expand_sameMap {dirs : List Nat}
    (h : expand t ptTile ptEnd pCurrent step dirs e = some e') : SameMap e.finder e'.finder :=
  ⟨expand_observe nMapWidth (fun _ _ _ => rfl) (fun _ _ => rfl) h,
    expand_observe nMapHeight (fun _ _ _ => rfl) (fun _ _ => rfl) h,
    expand_observe blockFunc (fun _ _ _ => rfl) (fun _ _ => rfl) h⟩

end XGame3.PathFinder
