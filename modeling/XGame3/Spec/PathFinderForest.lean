import Mathlib.Logic.Relation
import XGame3.ForStd.ParentChain
import XGame3.Spec.PathFinderWalk

/-!
# The parent forest of the wall-following search

`FindPathCore` as a transition system: `CoreStep` takes one iteration of `Approach` or
`Around`, or goes from one of their calls to the next.  In every state it passes, the
tiles walked so far hang in a forest: their parent pointers lead back to `ptStart` by
legal moves.

Key results:
- `findPathCore_reaches`: the result of `findPathCore` is a state of the transition system.
- `CoreStep.inv`: every transition keeps the forest.
- `findPathCore_forest`: the forest in every state passed, and where a search that
  returns true has ended.
-/

namespace XGame3.PathFinder

open ParentChain

variable {t : Params} {s s' : PathFinder} {f : Point → Bool} {ptStart ptEnd : Point}

/-! ## Transitions -/

/-- Where `FindPathCore` is. -/
inductive CorePoint where
  /-- About to call `Approach` from `ptTile`. -/
  | call (ptTile : Point) (s : PathFinder)
  /-- In the loop of `Approach`. -/
  | approach (w : Walk)
  /-- About to take the next place to go around. -/
  | drain (s : PathFinder)
  /-- In the loop of `Around`. -/
  | around (a : AroundPoint) (d : Detour)
  /-- Returned. -/
  | done (ret : Bool) (s : PathFinder)

/-- The members at a point. -/
def CorePoint.finder : CorePoint → PathFinder
  | call _ s => s
  | approach w => w.finder
  | drain s => s
  | around _ d => d.finder
  | done _ s => s

/-- The tile to approach from after a detour, and the corner recorded there. -/
def afterAround (t : Params) (s : PathFinder) (tag : Nat) : CorePoint :=
  .call (s.tileToPoint t tag)
    (if hasOption s.nSearchOption optionOptimize then s.recordCorner t (s.tileToPoint t tag) else s)

/-- One iteration, call or return. -/
inductive CoreStep (t : Params) (ptEnd : Point) : CorePoint → CorePoint → Prop
  | approachAtEnd {s : PathFinder} : CoreStep t ptEnd (.call ptEnd s) (.done true s)
  | approachOutside {p : Point} {s : PathFinder} : p ≠ ptEnd → s.getTileTag t p = none →
      CoreStep t ptEnd (.call p s) (.drain s)
  | approach {p : Point} {s : PathFinder} {tag : Nat} : p ≠ ptEnd → s.getTileTag t p = some tag →
      CoreStep t ptEnd (.call p s) (.approach ⟨s.makeRoot tag, p, some tag⟩)
  | approachNext {w w' : Walk} : approachBody t ptEnd w = some (.inl w') →
      CoreStep t ptEnd (.approach w) (.approach w')
  | approachTrue {w : Walk} {s : PathFinder} : approachBody t ptEnd w = some (.inr (true, s)) →
      CoreStep t ptEnd (.approach w) (.done true s)
  | approachFalse {w : Walk} {s : PathFinder} : approachBody t ptEnd w = some (.inr (false, s)) →
      CoreStep t ptEnd (.approach w) (.drain s)
  | around {s : PathFinder} {a : AroundPoint} {queue : List AroundPoint} :
      s.aroundQueue = a :: queue →
      CoreStep t ptEnd (.drain s) (.around a ⟨⟨{ s with aroundQueue := queue }, a.ptTile,
        { s with aroundQueue := queue }.getTileTag t a.ptTile⟩, a.nMoveDir, 0⟩)
  | aroundNext {a : AroundPoint} {d d' : Detour} :
      aroundBody t a.ptTile a.nTurnDir ptEnd d = some (.inl d') →
      CoreStep t ptEnd (.around a d) (.around a d')
  | aroundTrue {a : AroundPoint} {d : Detour} {s : PathFinder} {tag : Nat} :
      aroundBody t a.ptTile a.nTurnDir ptEnd d = some (.inr (true, s)) →
      s.pNearestTile = some tag → CoreStep t ptEnd (.around a d) (afterAround t s tag)
  | aroundFalse {a : AroundPoint} {d : Detour} {s : PathFinder} :
      aroundBody t a.ptTile a.nTurnDir ptEnd d = some (.inr (false, s)) →
      CoreStep t ptEnd (.around a d) (.drain s)
  | exhausted {s : PathFinder} : s.aroundQueue = [] → CoreStep t ptEnd (.drain s) (.done false s)

/-- The points `FindPathCore` passes. -/
def CoreReach (t : Params) (s : PathFinder) (ptStart ptEnd : Point) : CorePoint → Prop :=
  Relation.ReflTransGen (CoreStep t ptEnd) (.call ptStart (coreStart t s ptStart ptEnd))

/-! ## The forest -/

/-- The parent pointers. -/
def parents (s : PathFinder) (tag : Nat) : Option Nat := (s.tileTags tag).pParent

/-- The tag is that of a tile inside the map. -/
structure Placed (t : Params) (s : PathFinder) (tag : Nat) : Prop where
  inRange : (s.tileToPoint t tag).InRange
  tag : s.getTileTag t (s.tileToPoint t tag) = some tag

/-- From a parent to its child, which is inside the map, a legal move leads. -/
structure Link (t : Params) (f : Point → Bool) (s : PathFinder) (parent child : Nat) : Prop
    extends LegalMove f (s.tileToPoint t parent) (s.tileToPoint t child) where
  placed : Placed t s child

/-- The parents of a tag lead to that of `ptStart`, all of them touched in this search. -/
def Walked (t : Params) (f : Point → Bool) (s : PathFinder) (tag : Nat) : Prop :=
  ∃ root l, s.getTileTag t s.ptStart = some root ∧ Rooted s.parents (Link t f s) root tag l ∧
    ∀ i ∈ l, s.Carries i

/-- The forest.  A tile touched but not walked is blocked. -/
structure Forest (t : Params) (f : Point → Bool) (s : PathFinder) : Prop where
  pure : s.Pure f
  start : s.ptStart.InRange
  tags : ∀ tag < t.maxSearchArea * t.maxSearchArea, s.Carries tag →
    Walked t f s tag ∨ Blocked f (s.tileToPoint t tag)
  nearest : ∀ tag, s.pNearestTile = some tag → Walked t f s tag
  around : ∀ a ∈ s.aroundQueue, a.nMoveDir % 2 = 0 ∧ a.ptTile.InRange ∧
    ∃ tag, s.getTileTag t a.ptTile = some tag ∧ Walked t f s tag

/-- Standing on a walked tile. -/
structure Stands (t : Params) (f : Point → Bool) (w : Walk) : Prop where
  forest : Forest t f w.finder
  inRange : w.ptTile.InRange
  walked : ∃ tag, w.pParent = some tag ∧ w.finder.getTileTag t w.ptTile = some tag ∧
    Walked t f w.finder tag

/-- `m_pNearestTile` is the tile `p`, or nothing was walked and `p` is `ptStart`. -/
def NearestIs (t : Params) (s : PathFinder) (p : Point) : Prop :=
  s.pNearestTile = none ∧ p = s.ptStart ∨
    ∃ tag, s.pNearestTile = some tag ∧ s.getTileTag t p = some tag

/-- Where a search that returns true has ended. -/
def EndsAt (t : Params) (f : Point → Bool) (s : PathFinder) (ptStart ptEnd : Point) : Prop :=
  s.pNearestTile = none ∧ Neighbour ptStart ptEnd ∧ Refused f ptStart ptEnd ∨
  ∃ tag, s.pNearestTile = some tag ∧ (s.tileToPoint t tag = ptEnd ∨
    Neighbour (s.tileToPoint t tag) ptEnd ∧ Refused f (s.tileToPoint t tag) ptEnd)

/-- The invariant at every point. -/
def CoreInv (t : Params) (f : Point → Bool) (ptEnd : Point) : CorePoint → Prop
  | .call p s => Forest t f s ∧ p.InRange ∧ NearestIs t s p ∧
      ∀ tag, s.getTileTag t p = some tag → Walked t f s tag ∨ p = s.ptStart ∧ ¬ s.Carries tag
  | .approach w => Stands t f w ∧ NearestIs t w.finder w.ptTile
  | .drain s => Forest t f s
  | .around _ d => Stands t f d.toWalk ∧ d.nMoveDir % 2 = 0
  | .done ret s => Forest t f s ∧ (ret = true → s.ptStart ≠ ptEnd → EndsAt t f s s.ptStart ptEnd)

/-- A point with a tag places its tile. -/
theorem Placed.of_tag {p : Point} {tag : Nat} (hin : p.InRange) (h : s.getTileTag t p = some tag) :
    Placed t s tag := by
  have hp := tileToPoint_getTileTag hin h
  constructor
  · rw [hp]
    exact hin
  · rw [hp]
    exact h

/-- Tiles stay where they are within a search, -/
theorem SameSearch.placed (h : SameSearch s s') {tag : Nat} (hp : Placed t s tag) :
    Placed t s' tag := by
  constructor
  · rw [h.tileToPoint]
    exact hp.inRange
  · rw [h.tileToPoint, h.getTileTag]
    exact hp.tag

/-- and so do links. -/
theorem SameSearch.link (h : SameSearch s s') {p a : Nat} (hl : Link t f s p a) :
    Link t f s' p a := by
  constructor
  · rw [h.tileToPoint, h.tileToPoint]
    exact hl.toLegalMove
  · exact h.placed hl.placed

/-- A walked tile belongs to the search. -/
theorem Walked.carries {tag : Nat} (h : Walked t f s tag) : s.Carries tag := by
  obtain ⟨root, l, -, hl, hcarries⟩ := h
  exact hcarries tag (List.mem_of_mem_head? hl.head?_eq)

/-- Where something was walked, so was the start. -/
theorem Walked.root {tag : Nat} (h : Walked t f s tag) :
    ∃ root, s.getTileTag t s.ptStart = some root ∧ Walked t f s root := by
  obtain ⟨root, l, hroot, hl, hcarries⟩ := h
  obtain ⟨hnone, hmem⟩ := hl.of_root
  have hself : ∀ i ∈ [root], s.Carries i := fun i hi =>
    hcarries i ((List.mem_singleton.1 hi).symm ▸ hmem)
  exact ⟨root, hroot, root, [root], hroot, .root hnone, hself⟩

/-- What was walked stays walked. -/
theorem Walked.extends {tag : Nat} (h : Walked t f s tag) (hext : Extends s s') :
    Walked t f s' tag := by
  obtain ⟨root, l, hroot, hl, hcarries⟩ := h
  have hroot' : s'.getTileTag t s'.ptStart = some root := by
    rw [hext.ptStart, hext.toSameSearch.getTileTag]
    exact hroot
  have hl' : Rooted s'.parents (Link t f s') root tag l :=
    hl.congr (fun i hi => (hext.tags i (hcarries i hi)).2) fun _ _ => hext.toSameSearch.link
  exact ⟨root, l, hroot', hl', fun i hi => (hext.tags i (hcarries i hi)).1⟩

/-- A tile entered from a walked one is walked. -/
theorem Walked.child {parent tag : Nat} (h : Walked t f s parent) (hc : s.Carries tag)
    (hp : s.parents tag = some parent) (hl : Link t f s parent tag) : Walked t f s tag := by
  obtain ⟨root, l, hroot, hrooted, hcarries⟩ := h
  have hl' := Rooted.step hp hl hrooted
  have hcarries' : ∀ i ∈ tag :: l, s.Carries i := by
    intro i hi
    cases List.mem_cons.1 hi with
    | inl heq => exact heq ▸ hc
    | inr hmem => exact hcarries i hmem
  exact ⟨root, tag :: l, hroot, hl', hcarries'⟩

/-- A walked tile is the start or was entered from a walked one. -/
theorem Walked.cases {root tag : Nat} (h : Walked t f s tag)
    (hroot : s.getTileTag t s.ptStart = some root) :
    tag = root ∧ s.parents tag = none ∨
      ∃ parent, s.parents tag = some parent ∧ Link t f s parent tag ∧ Walked t f s parent := by
  obtain ⟨root', l, hroot', hl, hcarries⟩ := h
  obtain rfl := Option.some.inj (hroot.symm.trans hroot')
  cases hl with
  | root hnone => exact .inl ⟨rfl, hnone⟩
  | step hp hlink hl =>
    have hw : Walked t f s _ :=
      ⟨root, _, hroot, hl, fun i hi => hcarries i (List.mem_cons_of_mem _ hi)⟩
    exact .inr ⟨_, hp, hlink, hw⟩

/-- The parent of a walked tile is walked and linked to it. -/
theorem Walked.parent {tag parent : Nat} (h : Walked t f s tag) (hp : s.parents tag = some parent) :
    Walked t f s parent ∧ Link t f s parent tag := by
  obtain ⟨root, hroot, -⟩ := h.root
  cases h.cases hroot with
  | inl hstart => exact nomatch hstart.2.symm.trans hp
  | inr hchild =>
    obtain ⟨p, hp', hlink, hw⟩ := hchild
    obtain rfl := Option.some.inj (hp'.symm.trans hp)
    exact ⟨hw, hlink⟩

/-- The queue as it is after a step that left it alone. -/
theorem Forest.queue (h : Forest t f s) (hext : Extends s s')
    (hq : ∀ a ∈ s'.aroundQueue, a ∈ s.aroundQueue) (a : AroundPoint) (ha : a ∈ s'.aroundQueue) :
    a.nMoveDir % 2 = 0 ∧ a.ptTile.InRange ∧
      ∃ tag, s'.getTileTag t a.ptTile = some tag ∧ Walked t f s' tag := by
  obtain ⟨heven, hin, tag, htag, hwalked⟩ := h.around a (hq a ha)
  exact ⟨heven, hin, tag, (hext.toSameSearch.getTileTag _).trans htag, hwalked.extends hext⟩

/-- A step that touches no tile. -/
theorem Forest.untouched (h : Forest t f s) (hs : SameTags s s')
    (hq : ∀ a ∈ s'.aroundQueue, a.nMoveDir % 2 = 0 ∧ a.ptTile.InRange ∧
      ∃ tag, s'.getTileTag t a.ptTile = some tag ∧ Walked t f s' tag) : Forest t f s' where
  pure := hs.toSameSearch.pure h.pure
  start := hs.ptStart ▸ h.start
  tags := fun tag hlt hc => by
    rw [hs.toSameSearch.tileToPoint]
    exact (h.tags tag hlt (hs.carries.1 hc)).imp_left fun hw => hw.extends hs.toExtends
  nearest := fun tag htag => (h.nearest tag (hs.pNearestTile ▸ htag)).extends hs.toExtends
  around := hq

/-- Counting a step keeps the forest. -/
theorem Forest.counted (h : Forest t f s) : Forest t f s.counted :=
  h.untouched (counted_sameTags s) (h.queue (counted_sameTags s).toExtends fun _ ha => ha)

/-- The tile stood on is queued twice. -/
theorem Forest.push (h : Forest t f s) {p : Point} {dir : Int} {tag : Nat} (hin : p.InRange)
    (htag : s.getTileTag t p = some tag) (hw : Walked t f s tag) :
    Forest t f (s.pushAround p dir) := by
  have hs := pushAround_sameTags s p dir
  have hplace : p.InRange ∧ ∃ tag, (s.pushAround p dir).getTileTag t p = some tag ∧
      Walked t f (s.pushAround p dir) tag :=
    ⟨hin, tag, (hs.toSameSearch.getTileTag _).trans htag, hw.extends hs.toExtends⟩
  apply h.untouched hs
  intro a ha
  -- the two new ones, then those that waited before
  cases List.mem_cons.1 ha with
  | inl heq => exact heq ▸ ⟨turnDir_cardinal dir .ccw, hplace⟩
  | inr ha =>
    cases List.mem_cons.1 ha with
    | inl heq => exact heq ▸ ⟨turnDir_cardinal dir .cw, hplace⟩
    | inr hold =>
      obtain ⟨heven, hin', i, hi, hwi⟩ := h.around a hold
      exact ⟨heven, hin', i, (hs.toSameSearch.getTileTag _).trans hi, hwi.extends hs.toExtends⟩

/-- A blocked tile is marked. -/
theorem Forest.mark (h : Forest t f s) {tag : Nat} {dir : Int} {parent : Option Nat}
    (hb : Blocked f (s.tileToPoint t tag)) : Forest t f (s.markTileVisited tag dir parent) := by
  have hext := markTileVisited_extends s tag dir parent
  constructor
  · exact hext.toSameSearch.pure h.pure
  · exact hext.ptStart ▸ h.start
  · -- the marked tile is blocked, the others are as before
    intro i hlt hc
    rw [hext.toSameSearch.tileToPoint]
    cases markTileVisited_carries.1 hc with
    | inl heq => exact .inr (heq ▸ hb)
    | inr hold => exact (h.tags i hlt hold).imp_left fun hw => hw.extends hext
  · intro i hi
    exact (h.nearest i hi).extends hext
  · exact h.queue hext fun _ ha => ha

/-- A free tile is walked, for the first time or again. -/
theorem Forest.walk (h : Forest t f s) {parent tag : Nat} (around : Nat) (dir : Int)
    (hparent : Walked t f s parent) (hlt : tag < t.maxSearchArea * t.maxSearchArea)
    (hl : Link t f s parent tag) :
    Forest t f (s.stepOnto tag dir (some parent) around) ∧
      Walked t f (s.stepOnto tag dir (some parent) around) tag := by
  have hext := stepOnto_extends s tag around dir (some parent)
  have hw : Walked t f (s.stepOnto tag dir (some parent) around) tag := by
    by_cases hc : s.Carries tag
    · -- again: its parent stays, and it cannot be one of the blocked tiles
      cases h.tags tag hlt hc with
      | inl hold => exact hold.extends hext
      | inr hb => exact absurd hb hl.free
    · -- for the first time: it hangs from the tile stood on
      apply (hparent.extends hext).child
      · exact stepOnto_carries.2 (.inl rfl)
      · unfold parents
        rw [stepOnto_pParent, if_pos ⟨rfl, hc⟩]
      · exact hext.toSameSearch.link hl
  constructor
  · constructor
    · exact hext.toSameSearch.pure h.pure
    · exact hext.ptStart ▸ h.start
    · intro i hilt hc
      rw [hext.toSameSearch.tileToPoint]
      cases stepOnto_carries.1 hc with
      | inl heq => exact .inl (heq ▸ hw)
      | inr hold => exact (h.tags i hilt hold).imp_left fun hold => hold.extends hext
    · intro i hi
      obtain rfl := Option.some.inj hi
      exact hw
    · exact h.queue hext fun _ ha => ha
  · exact hw

/-- `ptStart` becomes the root. -/
theorem Forest.root (h : Forest t f s) {root : Nat} (hroot : s.getTileTag t s.ptStart = some root)
    (hnew : ¬ s.Carries root) :
    Forest t f (s.makeRoot root) ∧ Walked t f (s.makeRoot root) root := by
  have hext := makeRoot_extends s root
  have htag : (s.makeRoot root).tileTags root =
      { s.tileTags root with pParent := none, nMoveDir := 0, nFindID := s.nFind } := by
    rw [makeRoot_of_not_carries hnew, modifyTag_self]
  have hother : ∀ i ≠ root, (s.makeRoot root).tileTags i = s.tileTags i := by
    intro i hi
    rw [makeRoot_of_not_carries hnew, modifyTag_tileTags, if_neg hi]
  have hw : Walked t f (s.makeRoot root) root := by
    have hroot' : (s.makeRoot root).getTileTag t (s.makeRoot root).ptStart = some root := by
      rw [hext.ptStart, hext.toSameSearch.getTileTag]
      exact hroot
    have hnone : (s.makeRoot root).parents root = none := by
      unfold parents
      rw [htag]
    have hcarries : ∀ i ∈ [root], (s.makeRoot root).Carries i := fun i hi =>
      List.mem_singleton.1 hi ▸ makeRoot_carries s root
    exact ⟨root, [root], hroot', .root hnone, hcarries⟩
  have hnear : (s.makeRoot root).pNearestTile = s.pNearestTile := by
    rw [makeRoot_of_not_carries hnew]
    rfl
  have hqueue : (s.makeRoot root).aroundQueue = s.aroundQueue := by
    rw [makeRoot_of_not_carries hnew]
    rfl
  constructor
  · constructor
    · exact hext.toSameSearch.pure h.pure
    · exact hext.ptStart ▸ h.start
    · -- the root is walked, the others are as before
      intro i hilt hc
      rw [hext.toSameSearch.tileToPoint]
      by_cases hi : i = root
      · exact .inl (hi ▸ hw)
      · have hold : s.Carries i := by
          unfold Carries at hc ⊢
          rw [hother i hi, hext.nFind] at hc
          exact hc
        exact (h.tags i hilt hold).imp_left fun hold => hold.extends hext
    · intro i hi
      exact (h.nearest i (hnear ▸ hi)).extends hext
    · exact h.queue hext fun _ ha => hqueue ▸ ha
  · exact hw

/-! ## Moves -/

/-- A step that is not refused is a link. -/
theorem Ahead.link {ptTile ptNext : Point} {dir : Int} {tag parent : Nat}
    (h : Ahead t s ptTile dir ptNext tag) (hin : ptTile.InRange)
    (hparent : s.getTileTag t ptTile = some parent) (hfree : ¬ Refused f ptTile ptNext) :
    Link t f s parent tag := by
  constructor
  · rw [tileToPoint_getTileTag hin hparent, tileToPoint_getTileTag h.inRange h.tag]
    exact .of_not_refused (h.near hin hparent) hfree
  · exact .of_tag h.inRange h.tag

/-- The tile in front of the one stood on is entered. -/
theorem Stands.walk {w : Walk} {ptNext : Point} {dir : Int} {tag : Nat} (h : Stands t f w)
    (around : Nat) (ahead : Ahead t w.finder.counted w.ptTile dir ptNext tag)
    (hfree : ¬ Refused f w.ptTile ptNext) :
    Stands t f ⟨w.finder.counted.stepOnto tag dir w.pParent around, ptNext, some tag⟩ := by
  obtain ⟨parent, hp, hparent, hw⟩ := h.walked
  have hforest := h.forest.counted
  have hw' := hw.extends (counted_sameTags w.finder).toExtends
  have hlink := ahead.link h.inRange hparent hfree
  have hnext := hforest.walk around dir hw' (getTileTag_lt ahead.tag) hlink
  have hsame := (stepOnto_extends w.finder.counted tag around dir (some parent)).toSameSearch
  rw [hp]
  constructor
  · exact hnext.1
  · exact ahead.inRange
  · exact ⟨tag, rfl, (hsame.getTileTag _).trans ahead.tag, hnext.2⟩

/-- A blocked tile in front is marked; a straight step is refused for no other reason. -/
theorem Stands.mark {w : Walk} {ptNext : Point} {dir dir' : Int} {tag : Nat}
    (h : Stands t f w) (ahead : Ahead t w.finder.counted w.ptTile dir ptNext tag)
    (heven : dir % 2 = 0) (hrefused : Refused f w.ptTile ptNext) :
    Stands t f ⟨w.finder.counted.markTileVisited tag dir' none, w.ptTile, w.pParent⟩ := by
  obtain ⟨parent, hp, hparent, hw⟩ := h.walked
  have hb : Blocked f (w.finder.counted.tileToPoint t tag) := by
    rw [tileToPoint_getTileTag ahead.inRange ahead.tag]
    cases hrefused with
    | inl hb => exact hb
    | inr hc =>
      -- a straight step cuts no corner
      have hstraight := moveNext_straight ahead.move h.inRange heven
      exact absurd hc (not_cutsCorner_of_straight hstraight)
  have hext := markTileVisited_extends w.finder.counted tag dir' none
  constructor
  · exact h.forest.counted.mark hb
  · exact h.inRange
  · have hw' := (hw.extends (counted_sameTags w.finder).toExtends).extends hext
    exact ⟨parent, hp, (hext.toSameSearch.getTileTag _).trans hparent, hw'⟩

/-! ## Every transition keeps the forest -/

/-- `Approach` begins. -/
theorem CoreInv.approach {p : Point} {tag : Nat} (h : CoreInv t f ptEnd (.call p s))
    (htag : s.getTileTag t p = some tag) :
    CoreInv t f ptEnd (.approach ⟨s.makeRoot tag, p, some tag⟩) := by
  obtain ⟨hforest, hin, hnear, hwalked⟩ := h
  have hext := makeRoot_extends s tag
  have hroot : Forest t f (s.makeRoot tag) ∧ Walked t f (s.makeRoot tag) tag := by
    -- the tile is walked already, or it is the start of a search that walked nothing
    cases hwalked tag htag with
    | inl hw =>
      rw [makeRoot_of_carries hw.carries]
      exact ⟨hforest, hw⟩
    | inr hnew => exact hforest.root (hnew.1 ▸ htag) hnew.2
  have htag' : (s.makeRoot tag).getTileTag t p = some tag :=
    (hext.toSameSearch.getTileTag _).trans htag
  have hsame : (s.makeRoot tag).pNearestTile = s.pNearestTile :=
    makeRoot_reads PathFinder.pNearestTile (fun _ => rfl) tag
  -- the walk stands on its root, and nothing else was touched
  constructor
  · exact ⟨hroot.1, hin, tag, rfl, htag', hroot.2⟩
  · unfold NearestIs
    rw [hsame, hext.ptStart]
    exact hnear.imp_right fun ⟨i, hi, hip⟩ => ⟨i, hi, (hext.toSameSearch.getTileTag _).trans hip⟩

/-- `Approach` leaves when the target is in front and cannot be entered. -/
theorem CoreInv.refusedAtEnd {w : Walk} {tag : Nat} (h : CoreInv t f ptEnd (.approach w))
    (ahead : Ahead t w.finder.counted w.ptTile (getDir w.ptTile ptEnd) ptEnd tag)
    (hrefused : Refused f w.ptTile ptEnd) : CoreInv t f ptEnd (.done true w.finder.counted) := by
  obtain ⟨hstands, hnear⟩ := h
  obtain ⟨parent, -, hparent, -⟩ := hstands.walked
  have hneighbour := ahead.near hstands.inRange hparent
  constructor
  · exact hstands.forest.counted
  · intro _ _
    cases hnear with
    | inl hnone =>
      -- the search has not left its start
      left
      rw [hnone.2] at hneighbour hrefused
      exact ⟨hnone.1, hneighbour, hrefused⟩
    | inr hsome =>
      obtain ⟨i, hi, hip⟩ := hsome
      right
      have hpoint : w.finder.counted.tileToPoint t i = w.ptTile :=
        tileToPoint_getTileTag hstands.inRange hip
      exact ⟨i, hi, .inr (hpoint.symm ▸ ⟨hneighbour, hrefused⟩)⟩

/-- A step onto the tile ahead ends at that tile. -/
theorem Ahead.endsAt {w : Walk} {tag : Nat} {dir : Int}
    (ahead : Ahead t w.finder.counted w.ptTile dir ptEnd tag) :
    EndsAt t f (w.finder.counted.stepOnto tag dir w.pParent 0) ptStart ptEnd := by
  have hsame := (stepOnto_extends w.finder.counted tag 0 dir w.pParent).toSameSearch
  right
  exact ⟨tag, rfl, .inl (hsame.tileToPoint tag ▸ tileToPoint_getTileTag ahead.inRange ahead.tag)⟩

/-- `Approach` went one tile on. -/
theorem CoreInv.approachStep {w : Walk} {r : Walk ⊕ (Bool × PathFinder)}
    (h : CoreInv t f ptEnd (.approach w)) (hr : approachBody t ptEnd w = some r) :
    match r with
    | .inl w' => CoreInv t f ptEnd (.approach w')
    | .inr (true, s') => CoreInv t f ptEnd (.done true s')
    | .inr (false, s') => CoreInv t f ptEnd (.drain s') := by
  obtain ⟨hstands, hnear⟩ := h
  have hforest := hstands.forest.counted
  cases approachBody_step hstands.forest.pure hstands.inRange hr with
  | stop => exact hforest
  | refusedAtEnd ahead hrefused => exact CoreInv.refusedAtEnd ⟨hstands, hnear⟩ ahead hrefused
  -- the tile that is left becomes a turning point, from a walked one
  | refused ahead hrefused hne =>
    obtain ⟨parent, -, hparent, hw⟩ := hstands.walked
    have hw' := hw.extends (counted_sameTags w.finder).toExtends
    exact hforest.push hstands.inRange hparent hw'
  | arrived ahead hfree =>
    -- the target is reached on a free step
    have hnext := hstands.walk 0 ahead hfree
    exact ⟨hnext.forest, fun _ _ => ahead.endsAt⟩
  | walked ahead hfree hne =>
    -- the new tile is the nearest
    have hnext := hstands.walk 0 ahead hfree
    obtain ⟨tag, htag, hpoint, -⟩ := hnext.walked
    exact ⟨hnext, .inr ⟨tag, htag, hpoint⟩⟩

/-- A detour has ended on the tile it walked last. -/
theorem CoreInv.ofAround {p : Point} {tag : Nat} (h : Stands t f ⟨s, p, some tag⟩)
    (hnear : s.pNearestTile = some tag) : CoreInv t f ptEnd (afterAround t s tag) := by
  obtain ⟨_, htag, hpoint, hw⟩ := h.walked
  obtain rfl := Option.some.inj htag
  have hp : s.tileToPoint t tag = p := tileToPoint_getTileTag h.inRange hpoint
  have hsame : ∀ s', SameTags s s' → s'.aroundQueue = s.aroundQueue →
      CoreInv t f ptEnd (.call p s') := by
    intro s' hs hqueue
    have hpoint' : s'.getTileTag t p = some tag := (hs.toSameSearch.getTileTag _).trans hpoint
    have hw' : Walked t f s' tag := hw.extends hs.toExtends
    constructor
    · exact h.forest.untouched hs (h.forest.queue hs.toExtends fun _ ha => hqueue ▸ ha)
    · constructor
      · exact h.inRange
      · constructor
        · exact .inr ⟨tag, hs.pNearestTile.trans hnear, hpoint'⟩
        · intro i hi
          obtain rfl := Option.some.inj (hpoint'.symm.trans hi)
          exact .inl hw'
  -- whether the tile is recorded as a corner is nothing to the tags
  unfold afterAround
  rw [hp]
  split
  · exact hsame _ (recordCorner_sameTags s p) (recordCorner_aroundQueue s p)
  · exact hsame _ (.refl s) rfl

/-- `Around` went one tile on, or turned. -/
theorem CoreInv.aroundStep {a : AroundPoint} {d : Detour} {r : Detour ⊕ (Bool × PathFinder)}
    (h : CoreInv t f ptEnd (.around a d))
    (hr : aroundBody t a.ptTile a.nTurnDir ptEnd d = some r) :
    match r with
    | .inl d' => CoreInv t f ptEnd (.around a d')
    | .inr (true, s') => ∀ tag, s'.pNearestTile = some tag →
        CoreInv t f ptEnd (afterAround t s' tag)
    | .inr (false, s') => CoreInv t f ptEnd (.drain s') := by
  obtain ⟨hstands, heven⟩ := h
  cases aroundBody_step hstands.forest.pure hstands.inRange hr with
  | stop => exact hstands.forest.counted
  -- marks change no link
  | gaveUp ahead hrefused => exact (hstands.mark ahead heven hrefused).forest
  | turned ahead hrefused heven' => exact ⟨hstands.mark ahead heven hrefused, heven'⟩
  | arrived ahead hfree =>
    -- the detour is over on a free tile
    intro tag htag
    obtain rfl := Option.some.inj htag
    exact .ofAround (hstands.walk 1 ahead hfree) rfl
  | walked ahead hfree hdir =>
    -- a step onto a free tile, and the direction stays straight
    have hnext := hstands.walk 1 ahead hfree
    exact ⟨hnext, hdir.elim (fun hsame => hsame ▸ heven) id⟩

/-- Every transition keeps the invariant. -/
theorem CoreStep.inv {c c' : CorePoint} (h : CoreStep t ptEnd c c') (hc : CoreInv t f ptEnd c) :
    CoreInv t f ptEnd c' := by
  cases h with
  | approachAtEnd =>
    obtain ⟨hforest, hin, hnear, -⟩ := hc
    constructor
    · exact hforest
    · intro _ hne
      cases hnear with
      | inl hnone => exact absurd hnone.2.symm hne
      | inr hsome =>
        obtain ⟨tag, htag, hpoint⟩ := hsome
        exact .inr ⟨tag, htag, .inl (tileToPoint_getTileTag hin hpoint)⟩
  | approachOutside _ _ => exact hc.1
  | approach _ htag => exact hc.approach htag
  | approachNext hr => exact hc.approachStep hr
  | approachTrue hr => exact hc.approachStep hr
  | approachFalse hr => exact hc.approachStep hr
  | @around s a queue hqueue =>
    -- the detour begins at the tile where the walk was refused
    have hs := setAroundQueue_sameTags s queue
    obtain ⟨heven, hin, tag, htag, hw⟩ := hc.around a (hqueue ▸ List.mem_cons_self)
    have hsub : ∀ b ∈ queue, b ∈ s.aroundQueue := fun b hb => hqueue ▸ List.mem_cons_of_mem a hb
    constructor
    · constructor
      · exact Forest.untouched hc hs (Forest.queue hc hs.toExtends hsub)
      · exact hin
      · exact ⟨tag, (hs.toSameSearch.getTileTag _).trans htag,
          (hs.toSameSearch.getTileTag _).trans htag, hw.extends hs.toExtends⟩
    · exact heven
  | aroundNext hr => exact hc.aroundStep hr
  | aroundTrue hr htag => exact hc.aroundStep hr _ htag
  | aroundFalse hr => exact hc.aroundStep hr
  | exhausted _ => exact ⟨hc, fun hret => nomatch hret⟩

/-- How a search begins. -/
structure CoreBegins (s s₁ : PathFinder) (ptStart : Point) : Prop where
  tileTags : s₁.tileTags = s.tileTags
  nFind : s₁.nFind = (s.nFind + 1) % 65536
  ptStart : s₁.ptStart = ptStart
  pNearestTile : s₁.pNearestTile = none
  aroundQueue : s₁.aroundQueue = []
  nMapWidth : s₁.nMapWidth = s.nMapWidth
  nMapHeight : s₁.nMapHeight = s.nMapHeight
  blockFunc : s₁.blockFunc = s.blockFunc
  nSearchOption : s₁.nSearchOption = s.nSearchOption
  nMaxStep : s₁.nMaxStep = s.nMaxStep
  pathTemp : s₁.pathTemp = s.pathTemp

/-- The beginning of a search leaves the map alone. -/
theorem CoreBegins.sameMap {p : Point} {s₁ : PathFinder} (h : CoreBegins s s₁ p) : SameMap s s₁ :=
  ⟨h.nMapWidth, h.nMapHeight, h.blockFunc⟩

/-- `FindPathCore` begins the way `CoreBegins` says. -/
theorem coreStart_begins (s : PathFinder) (ptStart ptEnd : Point) :
    CoreBegins s (coreStart t s ptStart ptEnd) ptStart := by
  unfold coreStart
  dsimp only
  split <;> exact ⟨rfl, rfl, rfl, rfl, rfl, rfl, rfl, rfl, rfl, rfl, rfl⟩

/-- Nothing is touched when a search begins. -/
theorem CoreBegins.not_carries {p : Point} {s₁ : PathFinder} (h : CoreBegins s s₁ p)
    (hunused : Unused t s) {i : Nat} (hi : i < t.maxSearchArea * t.maxSearchArea) :
    ¬ s₁.Carries i := by
  intro hc
  unfold Carries at hc
  rw [h.tileTags, h.nFind] at hc
  exact hunused i hi hc

/-- The invariant holds where `FindPathCore` begins. -/
theorem coreStart_inv (ptEnd : Point) (hf : s.Pure f) (hstart : ptStart.InRange)
    (hunused : Unused t s) :
    CoreInv t f ptEnd (.call ptStart (coreStart t s ptStart ptEnd)) := by
  have hbegin : CoreBegins s (coreStart t s ptStart ptEnd) ptStart :=
    coreStart_begins s ptStart ptEnd
  -- nothing is touched under the new search number
  have hnone : ∀ tag < t.maxSearchArea * t.maxSearchArea,
      ¬ (coreStart t s ptStart ptEnd).Carries tag := fun _ => hbegin.not_carries hunused
  constructor
  · constructor
    · exact hbegin.blockFunc.trans hf
    · rw [hbegin.ptStart]
      exact hstart
    · exact fun tag hlt hc => absurd hc (hnone tag hlt)
    · intro tag htag
      rw [hbegin.pNearestTile] at htag
      exact nomatch htag
    · intro a ha
      rw [hbegin.aroundQueue] at ha
      exact nomatch ha
  · constructor
    · exact hstart
    · constructor
      · exact .inl ⟨hbegin.pNearestTile, hbegin.ptStart.symm⟩
      · exact fun tag htag => .inr ⟨hbegin.ptStart.symm, hnone tag (getTileTag_lt htag)⟩

/-- What one transition keeps, every run keeps. -/
theorem CoreInv.steps {c c' : CorePoint} (hc : CoreInv t f ptEnd c)
    (h : Relation.ReflTransGen (CoreStep t ptEnd) c c') : CoreInv t f ptEnd c' := by
  induction h with
  | refl => exact hc
  | tail _ hstep ih => exact hstep.inv ih

/-- At every point of the call the parents form a forest. -/
theorem CoreInv.forest {c : CorePoint} (h : CoreInv t f ptEnd c) : Forest t f c.finder := by
  cases c with
  | call _ _ => exact h.1
  | approach _ => exact h.1.forest
  | drain _ => exact h
  | around _ _ => exact h.1.forest
  | done _ _ => exact h.1

/-! ## Later states extend earlier ones -/

/-- A turn of `Approach` only adds to the search, -/
theorem approachBody_extends {w : Walk} {r : Walk ⊕ (Bool × PathFinder)}
    (h : approachBody t ptEnd w = some r) : Extends w.finder (r.elim Walk.finder Prod.snd) := by
  have hcount := (counted_sameTags w.finder).toExtends
  cases approachBody_turn h with
  | stop _ => exact hcount
  | refusedAtEnd _ _ => exact hcount
  | refused _ _ _ => exact hcount.trans (pushAround_sameTags _ _ _).toExtends
  | arrived _ _ => exact hcount.trans (stepOnto_extends _ _ _ _ _)
  | walked _ _ _ => exact hcount.trans (stepOnto_extends _ _ _ _ _)

/-- a turn around a block does, -/
theorem aroundBody_extends {ptLoc : Point} {turn : Turn} {d : Detour}
    {r : Detour ⊕ (Bool × PathFinder)} (h : aroundBody t ptLoc turn ptEnd d = some r) :
    Extends d.finder (r.elim (fun d' => d'.finder) Prod.snd) := by
  have hcount := (counted_sameTags d.finder).toExtends
  cases aroundBody_turn h with
  | stop _ => exact hcount
  | gaveUp _ _ _ => exact hcount.trans (markTileVisited_extends _ _ _ _)
  | turned _ _ _ => exact hcount.trans (markTileVisited_extends _ _ _ _)
  | arrived _ _ _ => exact hcount.trans (stepOnto_extends _ _ _ _ _)
  | walked _ _ _ _ _ _ => exact hcount.trans (stepOnto_extends _ _ _ _ _)

/-- and so does what follows it; -/
theorem afterAround_extends (s : PathFinder) (tag : Nat) :
    Extends s (afterAround t s tag).finder := by
  unfold afterAround CorePoint.finder
  dsimp only
  split
  · exact (recordCorner_sameTags s _).toExtends
  · exact .refl s

/-- hence each step of the call, -/
theorem CoreStep.extends {c c' : CorePoint} (h : CoreStep t ptEnd c c') :
    Extends c.finder c'.finder := by
  cases h with
  | approachAtEnd => exact .refl _
  | approachOutside _ _ => exact .refl _
  | approach _ _ => exact makeRoot_extends _ _
  | approachNext hr => exact approachBody_extends hr
  | approachTrue hr => exact approachBody_extends hr
  | approachFalse hr => exact approachBody_extends hr
  | around _ => exact (setAroundQueue_sameTags _ _).toExtends
  | aroundNext hr => exact aroundBody_extends hr
  | aroundTrue hr _ => exact (aroundBody_extends hr).trans (afterAround_extends _ _)
  | aroundFalse hr => exact aroundBody_extends hr
  | exhausted _ => exact .refl _

/-- and any number of them. -/
theorem extends_of_steps {c c' : CorePoint} (h : Relation.ReflTransGen (CoreStep t ptEnd) c c') :
    Extends c.finder c'.finder := by
  induction h with
  | refl => exact .refl _
  | tail _ hstep ih => exact ih.trans hstep.extends

/-! ## The functions as runs of transitions -/

/-- `Approach` from its call to its return. -/
theorem approach_steps {p : Point} {r : Bool × PathFinder} (h : approach t s p ptEnd = some r) :
    Relation.ReflTransGen (CoreStep t ptEnd) (.call p s)
      (if r.1 = true then .done true r.2 else .drain r.2) := by
  unfold approach at h
  split at h
  · rename_i hend
    obtain rfl := Option.some.inj h
    subst hend
    exact .single .approachAtEnd
  · rename_i hne
    split at h
    · rename_i htag
      obtain rfl := Option.some.inj h
      exact .single (.approachOutside hne htag)
    · rename_i tag htag
      dsimp only at h
      have hrun := loopResult_eq_some h
      -- the root, then turn by turn
      have hbegin : Relation.ReflTransGen (CoreStep t ptEnd) (.call p s)
          (.approach ⟨s.makeRoot tag, p, some tag⟩) := .single (.approach hne htag)
      apply Loop.run_inr (I := fun w => Relation.ReflTransGen (CoreStep t ptEnd) (.call p s)
        (.approach w)) _ _ hbegin hrun
      · intro w w' hw hbody
        exact hw.tail (.approachNext hbody)
      · intro w r hw hbody
        match r with
        | (true, _) => exact hw.tail (.approachTrue hbody)
        | (false, _) => exact hw.tail (.approachFalse hbody)

/-- `Around` does not touch the queue. -/
theorem aroundBody_aroundQueue {ptLoc : Point} {turn : Turn} {d : Detour}
    {r : Detour ⊕ (Bool × PathFinder)} (h : aroundBody t ptLoc turn ptEnd d = some r) :
    (r.elim (fun d' => d'.finder) Prod.snd).aroundQueue = d.finder.aroundQueue := by
  cases aroundBody_turn h <;> rfl

/-- `Around` from the place taken from the queue to its return. -/
theorem around_steps {a : AroundPoint} {queue : List AroundPoint} {r : Bool × PathFinder}
    (hqueue : s.aroundQueue = a :: queue)
    (h : around t { s with aroundQueue := queue } a ptEnd = some r) :
    r.2.aroundQueue = queue ∧
      if r.1 = true then ∀ tag, r.2.pNearestTile = some tag →
        Relation.ReflTransGen (CoreStep t ptEnd) (.drain s) (afterAround t r.2 tag)
      else Relation.ReflTransGen (CoreStep t ptEnd) (.drain s) (.drain r.2) := by
  unfold around at h
  have hrun := loopResult_eq_some h
  have hbegin : CoreStep t ptEnd (.drain s) _ := .around hqueue
  -- the queue stays as it was taken over, while the detour goes on
  apply Loop.run_inr (I := fun d => d.finder.aroundQueue = queue ∧
    Relation.ReflTransGen (CoreStep t ptEnd) (.drain s) (.around a d)) _ _
    ⟨rfl, .single hbegin⟩ hrun
  · intro d d' ⟨hq, hreach⟩ hbody
    exact ⟨(aroundBody_aroundQueue hbody).trans hq, hreach.tail (.aroundNext hbody)⟩
  · intro d r ⟨hq, hreach⟩ hbody
    constructor
    · exact (aroundBody_aroundQueue hbody).trans hq
    · match r with
      | (true, _) =>
        intro tag htag
        exact hreach.tail (.aroundTrue hbody htag)
      | (false, _) => exact hreach.tail (.aroundFalse hbody)

/-- The inner loop of `FindPathCore`. -/
theorem drainAround_steps {queue : List AroundPoint} {r : Option Point × PathFinder}
    (hqueue : s.aroundQueue = queue) (h : drainAround t ptEnd queue s = some r) :
    Relation.ReflTransGen (CoreStep t ptEnd) (.drain s)
      (match r.1 with
        | some ptTile => .call ptTile r.2
        | none => .done false r.2) := by
  induction queue generalizing s with
  | nil =>
    obtain rfl := Option.some.inj h
    exact .single (.exhausted hqueue)
  | cons a queue ih =>
    obtain ⟨⟨ret, s₁⟩, haround, h⟩ := Option.bind_eq_some_iff.1 h
    -- the first turning point, then those behind it
    obtain ⟨hq, hsteps⟩ := around_steps hqueue haround
    match ret with
    | true =>
      obtain ⟨tag, htag, h⟩ := Option.bind_eq_some_iff.1 h
      obtain rfl := Option.some.inj h
      exact hsteps tag htag
    | false => exact Relation.ReflTransGen.trans hsteps (ih hq h)

/-- One turn of the outer loop of `FindPathCore`. -/
theorem coreBody_steps {c : Point × PathFinder} {r : (Point × PathFinder) ⊕ (Bool × PathFinder)}
    (h : coreBody t ptEnd c = some r) :
    Relation.ReflTransGen (CoreStep t ptEnd) (.call c.1 c.2)
      (r.elim (fun c' => .call c'.1 c'.2) fun r => .done r.1 r.2) := by
  obtain ⟨⟨ret, s₁⟩, happroach, h⟩ := Option.bind_eq_some_iff.1 h
  -- the approach comes first
  have hsteps := approach_steps happroach
  match ret with
  | true =>
    obtain rfl := Option.some.inj h
    exact hsteps
  | false =>
    obtain ⟨⟨o, s₂⟩, hdrain, h⟩ := Option.bind_eq_some_iff.1 h
    -- what it leaves are detours, up to the way out
    have hsteps' := drainAround_steps rfl hdrain
    match o with
    | some ptTile =>
      obtain rfl := Option.some.inj h
      exact hsteps.trans hsteps'
    | none =>
      obtain rfl := Option.some.inj h
      exact hsteps.trans hsteps'

/-- `FindPathCore` returns what its transition system returns. -/
theorem findPathCore_reaches {r : Bool × PathFinder} (h : findPathCore t s ptStart ptEnd = some r) :
    CoreReach t s ptStart ptEnd (.done r.1 r.2) := by
  unfold findPathCore at h
  have hrun := loopResult_eq_some h
  apply Loop.run_inr (I := fun c => CoreReach t s ptStart ptEnd (.call c.1 c.2)) _ _ _ hrun
  · intro c c' hc hbody
    exact hc.trans (coreBody_steps hbody)
  · intro c r hc hbody
    exact hc.trans (coreBody_steps hbody)
  · exact .refl

/-! ## The search as a whole -/

/-- The parents of a tag form a finite list without repetition that ends at `ptStart`, and each
    is left by a legal move. -/
def ParentChain (t : Params) (f : Point → Bool) (s : PathFinder) (ptStart : Point) (tag : Nat) :
    Prop :=
  ∃ root l, s.getTileTag t ptStart = some root ∧ Rooted s.parents (Link t f s) root tag l ∧ l.Nodup

/-- From a walked tile the parents lead back to the start. -/
theorem Walked.parentChain {tag : Nat} (h : Walked t f s tag) :
    ParentChain t f s s.ptStart tag := by
  obtain ⟨root, l, hroot, hl, -⟩ := h
  exact ⟨root, l, hroot, hl, hl.nodup⟩

/-- Wherever `FindPathCore` passes, the tiles walked before, which are those `m_pNearestTile` has
    been at, are in the forest, and a touched tile that is not is blocked.  A search that
    returns true has ended at `ptEnd` or where `ptEnd` cannot be entered. -/
theorem findPathCore_forest (ptEnd : Point) (hf : s.Pure f) (hstart : ptStart.InRange)
    (hunused : Unused t s) :
    (∀ c c', CoreReach t s ptStart ptEnd c → Relation.ReflTransGen (CoreStep t ptEnd) c c' →
      ∀ tag, c.finder.pNearestTile = some tag → ParentChain t f c'.finder ptStart tag) ∧
    (∀ c, CoreReach t s ptStart ptEnd c →
      ∀ tag < t.maxSearchArea * t.maxSearchArea, c.finder.Carries tag →
        ParentChain t f c.finder ptStart tag ∨ Blocked f (c.finder.tileToPoint t tag)) ∧
    (∀ s', findPathCore t s ptStart ptEnd = some (true, s') → ptStart ≠ ptEnd →
      EndsAt t f s' ptStart ptEnd) := by
  have hinit := coreStart_inv ptEnd hf hstart hunused
  have hpoint : ∀ c, CoreReach t s ptStart ptEnd c → c.finder.ptStart = ptStart := fun c hc =>
    (extends_of_steps hc).ptStart.trans (coreStart_begins s ptStart ptEnd).ptStart
  constructor
  · intro c c' hc hsteps tag htag
    -- the tile was walked when it was the nearest, and stays so
    have hw : Walked t f c'.finder tag :=
      ((hinit.steps hc).forest.nearest tag htag).extends (extends_of_steps hsteps)
    exact hpoint c' (hc.trans hsteps) ▸ hw.parentChain
  · constructor
    · intro c hc tag hlt hcarries
      -- every other tile of the search is a marked block
      cases (hinit.steps hc).forest.tags tag hlt hcarries with
      | inl hw => exact .inl (hpoint c hc ▸ hw.parentChain)
      | inr hb => exact .inr hb
    · intro s' h hne
      have hdone := findPathCore_reaches h
      have hs' := hpoint _ hdone
      exact hs' ▸ (hinit.steps hdone).2 rfl (hs' ▸ hne)

/-- Around a wall of two tiles. -/
theorem findPathCore_forest_wall :
    ∃ s', findPathCore smallParams (smallMap [⟨1, 1⟩, ⟨1, 2⟩]) ⟨0, 1⟩ ⟨3, 1⟩ = some (true, s') ∧
      EndsAt smallParams (blockedAt [⟨1, 1⟩, ⟨1, 2⟩]) s' ⟨0, 1⟩ ⟨3, 1⟩ := by
  have hret : (findPathCore smallParams (smallMap [⟨1, 1⟩, ⟨1, 2⟩]) ⟨0, 1⟩ ⟨3, 1⟩).map Prod.fst =
      some true := by decide +kernel
  obtain ⟨⟨ret, s'⟩, hrun, rfl⟩ := Option.map_eq_some_iff.1 hret
  have hunused : Unused smallParams (smallMap [⟨1, 1⟩, ⟨1, 2⟩]) := fun _ _ h => nomatch h
  have hforest := findPathCore_forest ⟨3, 1⟩ (smallMap_pure [⟨1, 1⟩, ⟨1, 2⟩])
    (show Point.InRange ⟨0, 1⟩ from ⟨by decide, by decide⟩) hunused
  exact ⟨s', hrun, hforest.2.2 s' hrun (by decide)⟩

end XGame3.PathFinder
