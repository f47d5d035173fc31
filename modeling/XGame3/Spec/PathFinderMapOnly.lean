import XGame3.Spec.PathFinderAsked
import XGame3.Spec.PathFinderAsserts

/-!
# The path finder asks about tiles of the map only

A step leads from one tile of the window to another, and these have tags, which there are only on
the map.  `Around` asks without a tag: from the tile it steps onto it asks about the tile on the
side that it turns to.  A detour begins, and turns, with a tile of the map on that side, and a
straight step keeps the side on the map.

Key results:
- `CoreStep.flank`: every transition keeps a tile of the map beside each detour
- `findPathAsks_onMap`: the questions of every search of a call are about tiles of the map
- `findPath_asks_map`: so are all questions of a call, up to its return or to the assertion that
  ends it
-/

namespace XGame3.PathFinder

open FixedInt

variable {t : Params} {s s' : PathFinder} {f : Point → Bool} {ptStart ptEnd : Point} {q : Query}

/-! ## A map that answers for its own tiles -/

/-- The `IsBlock` that allows questions about the tiles of the map only. -/
def guard (s : PathFinder) (f : Point → Bool) (p : Point) : Option Bool :=
  if MapPoint s.nMapWidth s.nMapHeight p then some (f p) else none

/-! ## The side of a detour -/

/-- The next tile on the side that the detour turns to, if there is one, is on the map. -/
def Flank (s : PathFinder) (p : Point) (dir : Int) (turn : Turn) : Prop :=
  ∀ r, moveNext p (turnDir dir turn) = some r → s.OnMap r

/-- The tile in the column of the one and the row of the other. -/
theorem OnMap.across {p r : Point} (hp : s.OnMap p) (hr : s.OnMap r) : s.OnMap ⟨p.x, r.y⟩ :=
  ⟨⟨hp.inRange.x, hr.inRange.y⟩, hp.x, hr.y⟩

/-- The side stays on the same map. -/
theorem SameMap.flank {p : Point} {dir : Int} {turn : Turn} (h : SameMap s s')
    (hp : Flank s p dir turn) : Flank s' p dir turn := fun r hr => h.onMap (hp r hr)

/-- The four straight directions. -/
theorem Straight.cases {dir : Int} (h : Straight dir) : dir = 0 ∨ dir = 2 ∨ dir = 4 ∨ dir = 6 := by
  have heven := h.even
  have hrange := h.range
  omega

/-- Turning away from a direction and back leads to that direction or to its straight part. -/
theorem moveNext_turned {p r : Point} {dir : Int} (turn : Turn) (hdir : 0 ≤ dir ∧ dir < 8)
    (hp : p.InRange) (hmove : moveNext p dir = some r) :
    moveNext p (turnDir (turnDir dir turn.other) turn) = some r ∨
    moveNext p (turnDir (turnDir dir turn.other) turn) = some ⟨r.x, p.y⟩ ∨
    moveNext p (turnDir (turnDir dir turn.other) turn) = some ⟨p.x, r.y⟩ := by
  have hcases : dir = 0 ∨ dir = 1 ∨ dir = 2 ∨ dir = 3 ∨ dir = 4 ∨ dir = 5 ∨ dir = 6 ∨ dir = 7 := by
    omega
  have hx := int32_of_isInt32 hp.x
  have hy := int32_of_isInt32 hp.y
  -- a slanted direction leads back to one of its two straight parts
  rcases hcases with rfl | rfl | rfl | rfl | rfl | rfl | rfl | rfl <;> cases turn <;>
    obtain rfl := Option.some.inj hmove <;>
    simp [moveNext, turnDir, Turn.other, dirNextTable, hx, hy]

/-- A straight step and the step to the side commute. -/
theorem moveNext_beside {p r b : Point} {dir : Int} {turn : Turn} (hdir : Straight dir)
    (hp : p.InRange) (hmove : moveNext p dir = some r)
    (hbeside : moveNext p (turnDir dir turn) = some b) :
    moveNext r (turnDir dir turn) = some ⟨r.x, b.y⟩ ∨
      moveNext r (turnDir dir turn) = some ⟨b.x, r.y⟩ := by
  have hx := int32_of_isInt32 hp.x
  have hy := int32_of_isInt32 hp.y
  have htwice : ∀ a : Int, int32 (int32 a) = int32 a := fun a => int32_of_isInt32 (isInt32_int32 a)
  rcases hdir.cases with rfl | rfl | rfl | rfl <;> cases turn <;>
    obtain rfl := Option.some.inj hmove <;> obtain rfl := Option.some.inj hbeside <;>
    simp [moveNext, turnDir, dirNextTable, hx, hy, htwice]

/-- Two turns to the same side lead back. -/
theorem moveNext_back {p r : Point} {dir : Int} {turn : Turn} (hdir : Straight dir)
    (hp : p.InRange) (hmove : moveNext p dir = some r) :
    moveNext r (turnDir (turnDir dir turn) turn) = some p := by
  have hx := int32_of_isInt32 hp.x
  have hy := int32_of_isInt32 hp.y
  have hback : ∀ a : Int, int32 (int32 (a + 1) + -1) = int32 a ∧
      int32 (int32 (a + -1) + 1) = int32 a := by
    intro a
    have h1 := int32_emod (a + 1)
    have h2 := int32_emod (a + -1)
    constructor <;> apply int32_congr <;> omega
  rcases hdir.cases with rfl | rfl | rfl | rfl <;> cases turn <;>
    obtain rfl := Option.some.inj hmove <;>
    simp [moveNext, turnDir, dirNextTable, hx, hy, hback]

/-- The side of a detour that begins, or turns, at a tile with a refused one in front. -/
theorem Flank.turned {p r : Point} {dir : Int} (turn : Turn) (hdir : 0 ≤ dir ∧ dir < 8)
    (hp : s.OnMap p) (hr : s.OnMap r) (hmove : moveNext p dir = some r) :
    Flank s p (turnDir dir turn.other) turn := by
  intro b hb
  rcases moveNext_turned turn hdir hp.inRange hmove with h | h | h
  · exact Option.some.inj (h.symm.trans hb) ▸ hr
  · exact Option.some.inj (h.symm.trans hb) ▸ hr.across hp
  · exact Option.some.inj (h.symm.trans hb) ▸ hp.across hr

/-- The side stays on the map along a straight step. -/
theorem Flank.ahead {p r : Point} {dir : Int} {turn : Turn} (h : Flank s p dir turn)
    (hdir : Straight dir) (hp : s.OnMap p) (hr : s.OnMap r) (hmove : moveNext p dir = some r) :
    Flank s r dir turn := by
  intro b hb
  obtain ⟨c, hc⟩ := (hdir.turn turn).moveNext p
  have hcmap := h c hc
  cases moveNext_beside hdir hp.inRange hmove hc with
  | inl hx => exact Option.some.inj (hx.symm.trans hb) ▸ hr.across hcmap
  | inr hy => exact Option.some.inj (hy.symm.trans hb) ▸ hcmap.across hr

/-- The side of a detour that turns round a corner is where it came from. -/
theorem Flank.around {p r : Point} {dir : Int} {turn : Turn} (hdir : Straight dir)
    (hp : s.OnMap p) (hmove : moveNext p dir = some r) : Flank s r (turnDir dir turn) turn := by
  intro b hb
  exact Option.some.inj ((moveNext_back hdir hp.inRange hmove).symm.trans hb) ▸ hp

/-! ## Every transition keeps it -/

/-- The detours that wait. -/
def FlankedQueue (s : PathFinder) : Prop :=
  ∀ a ∈ s.aroundQueue, Flank s a.ptTile a.nMoveDir a.nTurnDir

/-- The invariant at every point of a search. -/
def CoreFlank : CorePoint → Prop
  | .around a d => FlankedQueue d.finder ∧ Flank d.finder d.ptTile d.nMoveDir a.nTurnDir
  | c => FlankedQueue c.finder

/-- Nothing is added to the queue. -/
theorem FlankedQueue.same (h : FlankedQueue s) (hsame : SameSearch s s')
    (hqueue : s'.aroundQueue = s.aroundQueue) : FlankedQueue s' :=
  fun a ha => hsame.sameMap.flank (h a (hqueue ▸ ha))

/-- A detour that `Approach` adds has the refused tile on its side. -/
theorem FlankedQueue.approachBody {w : Walk} {r : Walk ⊕ (Bool × PathFinder)}
    (h : FlankedQueue w.finder) (hsafe : CoreSafe t ptEnd (.approach w))
    (hr : approachBody t ptEnd w = some r) :
    match r with
    | .inl w' => FlankedQueue w'.finder
    | .inr r => FlankedQueue r.2 := by
  obtain ⟨-, htile, hne⟩ := hsafe
  have hcounted := (counted_sameTags w.finder).toSameSearch
  have hcount := h.same hcounted rfl
  cases approachBody_turn hr with
  | stop _ => exact hcount
  | refusedAtEnd _ _ => exact hcount
  | @refused ptNext tag tried _ _ =>
    have hsame := (pushAround_sameTags w.finder.counted w.ptTile
      (getDir w.ptTile ptEnd)).toSameSearch
    -- both detours have the refused tile on their side, which has a tag and so is on the map
    have hside : ∀ turn : Turn, Flank w.finder.counted w.ptTile
        (turnDir (getDir w.ptTile ptEnd) turn.other) turn := fun turn =>
      Flank.turned turn (getDir_range hne) (hcounted.onTile htile).onMap tried.onTile.onMap
        tried.move
    intro a ha
    apply hsame.sameMap.flank
    simp only [pushAround, List.mem_cons] at ha
    rcases ha with rfl | rfl | hold
    · exact hside .cw
    · exact hside .ccw
    · exact hcount a hold
  | arrived _ _ =>
    exact hcount.same (stepOnto_extends _ _ _ _ _).toSameSearch rfl
  | walked _ _ _ =>
    exact hcount.same (stepOnto_extends _ _ _ _ _).toSameSearch rfl

/-- An iteration of `Around` keeps a tile of the map on the side. -/
theorem CoreFlank.aroundBody {a : AroundPoint} {d : Detour} {r : Detour ⊕ (Bool × PathFinder)}
    (h : CoreFlank (.around a d)) (hsafe : CoreSafe t ptEnd (.around a d))
    (hr : aroundBody t a.ptTile a.nTurnDir ptEnd d = some r) :
    match r with
    | .inl d' => CoreFlank (.around a d')
    | .inr r => FlankedQueue r.2 := by
  obtain ⟨hqueue, hflank⟩ := h
  obtain ⟨-, htile, hstraight⟩ := hsafe
  have hcounted := (counted_sameTags d.finder).toSameSearch
  have hcount := hqueue.same hcounted rfl
  have htile' := hcounted.onTile htile
  have hflank' := hcounted.sameMap.flank hflank
  cases aroundBody_turn hr with
  | stop _ => exact hcount
  | gaveUp _ _ _ =>
    exact hcount.same (markTileVisited_extends _ _ _ _).toSameSearch rfl
  | @turned ptNext tag tried _ _ =>
    have hsame := (markTileVisited_extends d.finder.counted tag
      (turnDir d.nMoveDir a.nTurnDir.other) none).toSameSearch
    have hside := Flank.turned a.nTurnDir hstraight.range htile'.onMap tried.onTile.onMap
      tried.move
    exact ⟨hcount.same hsame rfl, hsame.sameMap.flank hside⟩
  | arrived _ _ _ =>
    exact hcount.same (stepOnto_extends _ _ _ _ _).toSameSearch rfl
  | @walked ptNext ptAround tag block isBevel tried _ _ _ _ _ =>
    have hsame := (stepOnto_extends d.finder.counted tag 1 d.nMoveDir d.pParent).toSameSearch
    have hnext := tried.onTile.onMap
    refine ⟨hcount.same hsame rfl, hsame.sameMap.flank ?_⟩
    dsimp only
    split
    -- round a corner the side is where the step came from, else it moves along with the step
    · exact Flank.around hstraight htile'.onMap tried.move
    · exact hflank'.ahead hstraight htile'.onMap hnext tried.move

/-- Every transition keeps the invariant. -/
theorem CoreStep.flank {c c' : CorePoint} (h : CoreStep t ptEnd c c') (hc : CoreFlank c)
    (hsafe : CoreSafe t ptEnd c) : CoreFlank c' := by
  cases h with
  | approachAtEnd => exact hc
  | approachOutside _ _ => exact hc
  -- a root and a change of the queue ask for nothing
  | @approach p s tag _ _ =>
    exact FlankedQueue.same hc (makeRoot_extends s tag).toSameSearch (makeRoot_aroundQueue s tag)
  | approachNext hr => exact FlankedQueue.approachBody hc hsafe hr
  | approachTrue hr => exact FlankedQueue.approachBody hc hsafe hr
  | approachFalse hr => exact FlankedQueue.approachBody hc hsafe hr
  -- the turning point taken has its flank, and so have those left
  | @around s a queue hqueue =>
    have hmap := (setAroundQueue_sameTags s queue).toSameSearch.sameMap
    constructor
    · exact fun b hb => hmap.flank (hc b (hqueue ▸ List.mem_cons_of_mem a hb))
    · exact hmap.flank (hc a (hqueue ▸ List.mem_cons_self))
  | aroundNext hr => exact hc.aroundBody hsafe hr
  | aroundTrue hr _ =>
    have hafter := hc.aroundBody hsafe hr
    -- the corner recorded after a detour is no turning point
    unfold afterAround
    split
    · exact FlankedQueue.same hafter (recordCorner_sameTags _ _).toSameSearch
        (recordCorner_aroundQueue _ _)
    · exact hafter
  | aroundFalse hr => exact hc.aroundBody hsafe hr
  | exhausted _ => exact hc

/-- It does so at every point of a search. -/
theorem CoreReach.flank (hstart : ptStart.InRange) {c : CorePoint}
    (h : CoreReach t s ptStart ptEnd c) : CoreFlank c := by
  have hbegin : CoreBegins s (coreStart t s ptStart ptEnd) ptStart :=
    coreStart_begins s ptStart ptEnd
  induction h with
  | refl =>
    intro a ha
    rw [CorePoint.finder, hbegin.aroundQueue] at ha
    exact nomatch ha
  | tail hsteps hstep ih => exact hstep.flank ih (CoreReach.safe hstart hsteps)

/-! ## The questions of a search -/

/-- All of the questions are about tiles of the map. -/
def AsksMap (s : PathFinder) (asks : List Point) : Prop := ∀ p ∈ asks, s.Askable False p

namespace AsksMap

variable {asks asks' : List Point} {p r : Point}

/-- No question. -/
theorem nil (s : PathFinder) : AsksMap s [] := fun _ hp => absurd hp List.not_mem_nil

/-- One question. -/
theorem single (hp : s.Askable False p) : AsksMap s [p] := fun _ hr => List.mem_singleton.1 hr ▸ hp

/-- One more question. -/
theorem cons (hp : s.Askable False p) (h : AsksMap s asks) : AsksMap s (p :: asks) :=
  fun r hr => (List.mem_cons.1 hr).elim (fun heq => heq ▸ hp) (h r)

/-- Questions in two parts. -/
theorem append (h : AsksMap s asks) (h' : AsksMap s asks') : AsksMap s (asks ++ asks') :=
  fun p hp => (List.mem_append.1 hp).elim (h p) (h' p)

/-- The tiles of a map depend on its size. -/
theorem of_sameMap (hmap : SameMap s s') (h : AsksMap s' asks) : AsksMap s asks :=
  fun p hp => hmap.symm.askable (h p hp)

/-- The tiles beside a diagonal move lie on the map with its ends. -/
theorem bevel (hp : s.Askable False p) (hr : s.Askable False r) :
    AsksMap s (s.bevelAsks p r) := by
  unfold bevelAsks
  split
  · exact nil s
  · have hsecond : AsksMap s
        (if s.isBlock ⟨r.x, p.y⟩ = some false then [⟨p.x, r.y⟩] else []) := by
      split
      · exact single (hr.corner hp)
      · exact nil s
    exact cons (hp.corner hr) hsecond

/-- What a step between two tiles of the map asks about. -/
theorem step (hp : s.Askable False p) (hr : s.Askable False r) : AsksMap s (s.stepAsks p r) :=
  (bevel hp hr).append (single hr)

end AsksMap

/-- `IsCanApproach` asks about a tile between two of the map. -/
theorem canApproachAsks_onMap {p : Point} (hp : s.OnMap p) (hend : s.OnMap ptEnd) :
    AsksMap s (s.canApproachAsks p ptEnd) := by
  unfold canApproachAsks
  split
  · exact .nil s
  · rename_i ptNext hmove
    -- at the target there is no direction to ask about
    have hne : p ≠ ptEnd := by
      rintro rfl
      exact nomatch (moveNext_getDir_self p).symm.trans hmove
    exact .step hp.askable (hp.toward (.inr hend) hne hmove)

/-- `Around` after a step asks about a tile towards the target and about its side. -/
theorem landedAsks_onMap {ptLoc p : Point} {turn : Turn} {dir : Int} (hp : s.OnMap p)
    (hend : s.OnMap ptEnd) (hflank : Flank s p dir turn) :
    AsksMap s (landedAsks t ptLoc turn ptEnd s p dir) := by
  unfold landedAsks
  apply AsksMap.append
  · split
    · exact .nil s
    · exact canApproachAsks_onMap hp hend
  · split
    · split
      · exact .nil s
      · rename_i ptAround hmove
        have haround : s.Askable False ptAround := (hflank ptAround hmove).askable
        exact (AsksMap.bevel haround hp.askable).append (.single haround)
    · exact .nil s

/-- One iteration of `Around`, which asks about the side of the detour without looking up a tag. -/
theorem aroundTurnAsks_onMap {a : AroundPoint} {d : Detour} (hsafe : CoreSafe t ptEnd (.around a d))
    (hflank : CoreFlank (.around a d)) (hend : d.finder.OnMap ptEnd) :
    AsksMap d.finder (aroundTurnAsks t a.ptTile a.nTurnDir ptEnd d) := by
  obtain ⟨-, htile, hstraight⟩ := hsafe
  have hcounted := counted_sameMap d.finder
  unfold aroundTurnAsks
  dsimp only
  split
  · split
    · exact .nil _
    · rename_i ptNext hmove
      split
      · exact .nil _
      · rename_i pCurrent htag
        split
        · exact .nil _
        · have hnext : d.finder.counted.OnMap ptNext :=
            onMap_of_getTileTag (moveNext_inRange hmove) htag
          have htile' := hcounted.onMap htile.onMap
          apply AsksMap.of_sameMap hcounted
          apply AsksMap.cons hnext.askable
          apply (AsksMap.bevel htile'.askable hnext.askable).append
          · split
            · -- the step keeps a tile of the map on the side
              have hstep : SameMap d.finder.counted
                  (d.finder.counted.stepOnto pCurrent d.nMoveDir d.pParent 1) := ⟨rfl, rfl, rfl⟩
              have hside := (hcounted.flank hflank.2).ahead hstraight htile' hnext hmove
              exact .of_sameMap hstep (landedAsks_onMap (hstep.onMap hnext)
                ((hcounted.trans hstep).onMap hend) (hstep.flank hside))
            · exact .nil _
  · exact .nil _

/-- The questions of every search of a call, and of the lines behind it. -/
theorem findPathAsks_onMap (hstart : s.OnMap q.ptStart) (hend : s.OnMap q.ptEnd) :
    AsksMap s (findPathAsks t s q) := by
  have hends : ∀ c ∈ [q.ptStart, q.ptEnd], s.OnMap c := by
    rintro c hc
    simp only [List.mem_cons, List.not_mem_nil, or_false] at hc
    rcases hc with rfl | rfl
    · exact hstart
    · exact hend
  apply findPathAsks_forall (P := s.Askable False) hstart.inRange hend.inRange
  · -- a step leads from one tile of the map to another
    intro c hc s' p r dir hmap hwindow hp hr hmove
    exact AsksMap.of_sameMap hmap (.step hp.askable hr.askable)
  · intro s₁ p p' a d hmap hp hp' hreach
    have hin := (hends p hp).inRange
    have hmap' := hmap.trans hreach.sameMap
    exact AsksMap.of_sameMap hmap' (aroundTurnAsks_onMap (hreach.safe hin) (hreach.flank hin)
      (hmap'.onMap (hends p' hp')))

/-! ## FindPath -/

/-- In one of the searches of the call a detour fails the assertion on its direction. -/
def FailsAssert (t : Params) (f : Point → Bool) (q : Query) (s : PathFinder) : Prop :=
  ∃ s₁ p p', Searches t q s s₁ p p' ∧
    ∃ a d, CoreReach t s₁ p p' (.around a d) ∧ OntoTarget t f p' d

/-- Nothing but that assertion ends a call before its return. -/
theorem findPath_returns_iff (hf : s.Pure f) (hstart : q.ptStart.InRange)
    (hend : q.ptEnd.InRange) :
    (∃ r, findPath t s q = some r) ↔ ¬ FailsAssert t f q s := by
  have hanswers : ∀ {s₁ : PathFinder} {p p' : Point}, Searches t q s s₁ p p' →
      s₁.Answers f True := fun hsearch => hsearch.keeps.1.answers hf.answers
  constructor
  · -- a search that returns has passed every assertion
    rintro ⟨r, hr⟩ ⟨s₁, p, p', hsearch, a, d, hreach, hoption, tag, lands⟩
    obtain ⟨r₁, hr₁⟩ := findPath_core hr hsearch
    have hgo := findPathCore_mayGoOn (hsearch.ends hstart hend).1 (hanswers hsearch)
      (fun _ _ _ => .inl trivial) hr₁ a d hreach
    exact (hgo p' tag lands).1 hoption rfl
  · intro hnot
    apply findPath_returns_of_core hf.answers hstart hend
    intro s₁ p p' hsearch
    apply findPathCore_returns (hsearch.ends hstart hend).1 (hanswers hsearch) (.inl trivial)
    intro a d hreach ptNext tag lands
    constructor
    · rintro hoption rfl
      exact hnot ⟨s₁, p, ptNext, hsearch, a, d, hreach, hoption, tag, lands⟩
    · exact fun _ _ _ => .inl trivial

/-- All that a call asks `IsBlock` about, up to its return or to the assertion that ends it, are
    points that stand for tiles of the map.  With an `IsBlock` that allows no other question the
    call does the same, and nothing but that assertion ends it before its return. -/
theorem findPath_asks_map (t : Params) (f : Point → Bool) (s : PathFinder) (q : Query)
    (hf : s.Pure f) (hstart : s.OnMap q.ptStart) (hend : s.OnMap q.ptEnd) :
    (∀ p ∈ findPathAsks t s q, MapPoint s.nMapWidth s.nMapHeight (p.mul wayUnit)) ∧
    findPath t (s.on (guard s f)) q = (findPath t s q).map (Found.on (guard s f)) ∧
    ((∃ r, findPath t s q = some r) ↔ ¬ FailsAssert t f q s) := by
  have hasks := findPathAsks_onMap (t := t) hstart hend
  have hmap : ∀ p ∈ findPathAsks t s q, MapPoint s.nMapWidth s.nMapHeight (p.mul wayUnit) :=
    fun p hp => (hasks p hp).resolve_left id
  refine ⟨hmap, findPath_on ?_, findPath_returns_iff hf hstart.inRange hend.inRange⟩
  intro p hp
  have hask : s.isBlock p = some (f (p.mul wayUnit)) := congrFun hf _
  rw [hask]
  exact if_pos (hmap p hp)

/-- A call whose detours follow the border of the map, and one whose search number has come round
    to that on the tags of the call before, so that a detour steps onto the target and its
    assertion fails. -/
theorem findPath_asks_map_stale :
    ((∀ p ∈ findPathAsks smallParams (smallMap [⟨1, 0⟩, ⟨1, 1⟩]) ⟨⟨0, 0⟩, ⟨3, 0⟩, 0, 16⟩,
        MapPoint 4 4 (p.mul wayUnit)) ∧
      ∃ r, findPath smallParams (smallMap [⟨1, 0⟩, ⟨1, 1⟩]) ⟨⟨0, 0⟩, ⟨3, 0⟩, 0, 16⟩ = some r) ∧
    ∃ r s, findPath smallParams (smallMap [⟨1, 1⟩]) ⟨⟨1, 0⟩, ⟨1, 2⟩, 0, 16⟩ = some r ∧
      s = { r.finder with nFind := 0 } ∧
      (findPathAsks smallParams s ⟨⟨1, 0⟩, ⟨1, 2⟩, 0, 16⟩).length = 14 ∧
      (∀ p ∈ findPathAsks smallParams s ⟨⟨1, 0⟩, ⟨1, 2⟩, 0, 16⟩, MapPoint 4 4 (p.mul wayUnit)) ∧
      findPath smallParams (s.on (guard s (blockedAt [⟨1, 1⟩]))) ⟨⟨1, 0⟩, ⟨1, 2⟩, 0, 16⟩ = none ∧
      FailsAssert smallParams (blockedAt [⟨1, 1⟩]) ⟨⟨1, 0⟩, ⟨1, 2⟩, 0, 16⟩ s := by
  constructor
  -- a fresh finder: the call returns
  · have hasks := findPath_asks_map smallParams (blockedAt [⟨1, 0⟩, ⟨1, 1⟩])
      (smallMap [⟨1, 0⟩, ⟨1, 1⟩]) ⟨⟨0, 0⟩, ⟨3, 0⟩, 0, 16⟩ (smallMap_pure _)
      ⟨⟨by decide, by decide⟩, by decide, by decide⟩ ⟨⟨by decide, by decide⟩, by decide, by decide⟩
    have hreturns : (findPath smallParams (smallMap [⟨1, 0⟩, ⟨1, 1⟩])
        ⟨⟨0, 0⟩, ⟨3, 0⟩, 0, 16⟩).isSome = true := by
      decide +kernel
    exact ⟨hasks.1, Option.isSome_iff_exists.1 hreturns⟩
  -- after a wrapped search number the assertion fails, fourteen questions into the call
  · have hrun : (findPath smallParams (smallMap [⟨1, 1⟩]) ⟨⟨1, 0⟩, ⟨1, 2⟩, 0, 16⟩).map (fun r =>
        ((findPath smallParams { r.finder with nFind := 0 } ⟨⟨1, 0⟩, ⟨1, 2⟩, 0, 16⟩).isNone,
          (findPathAsks smallParams { r.finder with nFind := 0 } ⟨⟨1, 0⟩, ⟨1, 2⟩, 0, 16⟩).length)) =
        some (true, 14) := by
      decide +kernel
    obtain ⟨r, hr, hfields⟩ := Option.map_eq_some_iff.1 hrun
    obtain ⟨hnone, hlength⟩ := Prod.mk.inj hfields
    have hmap : SameMap (smallMap [⟨1, 1⟩]) { r.finder with nFind := 0 } :=
      (findPath_sameMap hr).trans ⟨rfl, rfl, rfl⟩
    obtain ⟨hasks, hguard, hiff⟩ := findPath_asks_map smallParams (blockedAt [⟨1, 1⟩])
      { r.finder with nFind := 0 } ⟨⟨1, 0⟩, ⟨1, 2⟩, 0, 16⟩
      (hmap.blockFunc.trans (smallMap_pure _))
      (hmap.onMap ⟨⟨by decide, by decide⟩, by decide, by decide⟩)
      (hmap.onMap ⟨⟨by decide, by decide⟩, by decide, by decide⟩)
    rw [hmap.nMapWidth, hmap.nMapHeight] at hasks
    have hcall := Option.isNone_iff_eq_none.1 hnone
    refine ⟨r, _, hr, rfl, hlength, hasks, ?_, ?_⟩
    · rw [hguard, hcall]
      rfl
    · by_contra hpasses
      obtain ⟨r', hr'⟩ := hiff.2 hpasses
      exact nomatch hcall.symm.trans hr'

end XGame3.PathFinder
