import XGame3.Spec.AStarNearest
import XGame3.Spec.PathFinderAsserts

/-!
# The nearest tile of the wall-following search

`Approach` and `Around` point `m_pNearestTile` at every tile they step onto.  `Approach` only
comes nearer to the target, but a detour may lead away from it, and the last tile walked is
then not the nearest.

Key results:
- `CoreStep.nearest_cases`: where one transition leaves `m_pNearestTile`.
- `findPathCore_nearest`: the nearest tile is kept throughout just when no detour leads away.
- `findPath_nearest`: the path to the nearest point, with and without A*.
-/

namespace XGame3.PathFinder

open FixedInt Relation

variable {t : Params} {s s' : PathFinder} {f : Point → Bool} {ptStart ptEnd : Point}

/-! ## The tiles walked -/

/-- The tile the search stands on. -/
def CorePoint.tile : CorePoint → Option Point
  | call p _ => some p
  | approach w => some w.ptTile
  | drain _ => none
  | around _ d => some d.ptTile
  | done _ _ => none

/-- A tile that the search walks, the start among them. -/
def WalkedBy (t : Params) (s : PathFinder) (ptStart ptEnd p : Point) : Prop :=
  ∃ c, CoreReach t s ptStart ptEnd c ∧ c.tile = some p

/-- The tile that `m_pNearestTile` points to, the start before there is one. -/
def nearestTile (t : Params) (s : PathFinder) : Point := (nearestPoint t s).getD s.ptStart

/-- No tile walked on the way to `c` is nearer to the target than `m_pNearestTile`. -/
def NearestSoFar (t : Params) (s : PathFinder) (ptStart ptEnd : Point) (c : CorePoint) : Prop :=
  ∀ c₁ p, CoreReach t s ptStart ptEnd c₁ → ReflTransGen (CoreStep t ptEnd) c₁ c →
    c₁.tile = some p → ¬ manhattan p ptEnd < manhattan (nearestTile t c.finder) ptEnd

/-- The next step of the detour does not lead farther from the target than `m_pNearestTile`. -/
def NoFarther (t : Params) (f : Point → Bool) (ptEnd : Point) (d : Detour) : Prop :=
  ∀ ptNext tag, Lands t f d ptNext tag →
    manhattan ptNext ptEnd ≤ manhattan (nearestTile t d.finder) ptEnd

/-- The nearest tile is read from `pNearestTile` and the window. -/
theorem nearestTile_congr (hsame : SameSearch s s') (hnear : s'.pNearestTile = s.pNearestTile) :
    nearestTile t s' = nearestTile t s := by
  unfold nearestTile
  rw [hsame.nearestPoint hnear, hsame.ptStart]

/-- Where the search recorded `p`, the nearest tile is `p`. -/
theorem NearestIs.nearestTile {p : Point} (h : NearestIs t s p) (hp : p.InRange) :
    nearestTile t s = p := by
  unfold PathFinder.nearestTile nearestPoint
  cases h with
  | inl hnone =>
    rw [hnone.1, hnone.2]
    rfl
  | inr hsome =>
    obtain ⟨tag, hnear, htag⟩ := hsome
    rw [hnear]
    exact tileToPoint_getTileTag hp htag

/-- A step makes its tile the nearest one, near or not. -/
theorem nearestTile_stepOnto {p q : Point} {dir : Int} {tag : Nat} (ahead : Ahead t s p dir q tag)
    (parent : Option Nat) (bAround : Nat) :
    nearestTile t (s.stepOnto tag dir parent bAround) = q :=
  tileToPoint_getTileTag ahead.inRange ahead.tag

/-- Leaving a block changes no nearest tile. -/
theorem nearestTile_afterAround (s : PathFinder) (tag : Nat) :
    nearestTile t (afterAround t s tag).finder = nearestTile t s := by
  apply nearestTile_congr (afterAround_extends s tag).toSameSearch
  unfold afterAround CorePoint.finder
  dsimp only
  split
  · exact (recordCorner_sameTags s _).pNearestTile
  · rfl

/-! ## One transition -/

/-- `m_pNearestTile` stays where it is, and the search on a tile it has walked. -/
structure Stays (t : Params) (c c' : CorePoint) : Prop where
  nearest : nearestTile t c'.finder = nearestTile t c.finder
  tile : ∀ p, c'.tile = some p → c.tile = some p ∨ ∃ a ∈ c.finder.aroundQueue, a.ptTile = p

/-- The search steps onto `q`. -/
inductive Enters (t : Params) (f : Point → Bool) (ptEnd : Point) : CorePoint → Point → Prop
  | approach {w : Walk} {q : Point} {tag : Nat} :
      Tried t w.finder.counted w.ptTile (getDir w.ptTile ptEnd) q tag →
      Enters t f ptEnd (.approach w) q
  | around {a : AroundPoint} {d : Detour} {q : Point} {tag : Nat} : Lands t f d q tag →
      Enters t f ptEnd (.around a d) q

/-- `m_pNearestTile` points to the tile stepped onto. -/
structure ComesTo (t : Params) (f : Point → Bool) (ptEnd : Point) (c c' : CorePoint) (q : Point) :
    Prop where
  enters : Enters t f ptEnd c q
  nearest : nearestTile t c'.finder = q
  tile : c'.tile = some q ∨ q = ptEnd ∧ ∃ s', c' = .done true s'

/-- A step of the search leaves the nearest tile, or comes to a new one. -/
theorem CoreStep.nearest_cases {c c' : CorePoint} (h : CoreStep t ptEnd c c')
    (hinv : CoreInv t f ptEnd c) :
    Stays t c c' ∨ ∃ q, ComesTo t f ptEnd c c' q := by
  cases h with
  | approachAtEnd => exact .inl ⟨rfl, fun _ hp => nomatch hp⟩
  | approachOutside _ _ => exact .inl ⟨rfl, fun _ hp => nomatch hp⟩
  | @approach p s tag _ _ =>
    have hsame := (makeRoot_extends s tag).toSameSearch
    exact .inl ⟨nearestTile_congr hsame (makeRoot_kept s tag).pNearestTile, fun _ => .inl⟩
  | approachNext hr =>
    cases approachBody_turn hr with
    | walked tried _ _ =>
      exact .inr ⟨_, .approach tried, nearestTile_stepOnto tried.toAhead _ _, .inl rfl⟩
  | approachTrue hr =>
    cases approachBody_turn hr with
    -- a blocked target counts as reached, but nothing is stepped onto
    | refusedAtEnd _ _ => exact .inl ⟨rfl, fun _ hp => nomatch hp⟩
    | arrived tried _ =>
      exact .inr ⟨_, .approach tried, nearestTile_stepOnto tried.toAhead _ _, .inr ⟨rfl, _, rfl⟩⟩
  | approachFalse hr =>
    cases approachBody_turn hr with
    | stop _ => exact .inl ⟨rfl, fun _ hp => nomatch hp⟩
    | refused _ _ _ => exact .inl ⟨rfl, fun _ hp => nomatch hp⟩
  | @around s a queue hqueue =>
    refine .inl ⟨rfl, fun p hp => .inr ⟨a, ?_, Option.some.inj hp⟩⟩
    rw [show (CorePoint.drain s).finder.aroundQueue = a :: queue from hqueue]
    exact List.mem_cons_self
  | @aroundNext a d d' hr =>
    have htile : d.ptTile.InRange := hinv.1.inRange
    cases aroundBody_turn hr with
    | turned _ _ _ => exact .inl ⟨rfl, fun _ => .inl⟩
    | @walked ptNext _ tag _ _ tried hrefuses _ _ _ _ =>
      have hfree := (refuses_eq_false hinv.1.forest.pure htile tried.inRange).1 hrefuses
      exact .inr ⟨ptNext, .around ⟨tried, hfree⟩, nearestTile_stepOnto tried.toAhead _ _, .inl rfl⟩
  | @aroundTrue a d s tag hr htag =>
    have htile : d.ptTile.InRange := hinv.1.inRange
    cases aroundBody_turn hr with
    | @arrived ptNext i tried hrefuses _ =>
      have hfree := (refuses_eq_false hinv.1.forest.pure htile tried.inRange).1 hrefuses
      obtain rfl := Option.some.inj htag
      have hpoint := nearestTile_stepOnto tried.toAhead d.pParent 1
      refine .inr ⟨ptNext, .around ⟨tried, hfree⟩, ?_, .inl (congrArg some hpoint)⟩
      exact (nearestTile_afterAround _ _).trans hpoint
  | aroundFalse hr =>
    cases aroundBody_turn hr with
    | stop _ => exact .inl ⟨rfl, fun _ hp => nomatch hp⟩
    | gaveUp _ _ _ => exact .inl ⟨rfl, fun _ hp => nomatch hp⟩
  | exhausted _ => exact .inl ⟨rfl, fun _ hp => nomatch hp⟩

/-- A turn around a block makes the tile it lands on the nearest. -/
theorem Lands.nearest {d : Detour} {turn : Turn} {ptLoc q : Point} {tag : Nat}
    {r : Detour ⊕ (Bool × PathFinder)} (lands : Lands t f d q tag) (hf : d.finder.Pure f)
    (hin : d.ptTile.InRange) (hr : aroundBody t ptLoc turn ptEnd d = some r) :
    nearestTile t (r.elim (fun d' => d'.finder) Prod.snd) = q := by
  have hrefuses := (refuses_eq_false (s := d.finder.counted) hf hin lands.inRange).2 lands.free
  cases aroundBody_turn hr with
  -- the step that lands is the only one the turn can try
  | stop hnot => exact absurd lands.toTried (hnot q tag)
  | gaveUp tried href _ =>
    obtain ⟨rfl, rfl⟩ := tried.toAhead.unique lands.toAhead
    exact nomatch href.symm.trans hrefuses
  | turned tried href _ =>
    obtain ⟨rfl, rfl⟩ := tried.toAhead.unique lands.toAhead
    exact nomatch href.symm.trans hrefuses
  | arrived tried _ _ =>
    obtain ⟨rfl, rfl⟩ := tried.toAhead.unique lands.toAhead
    exact nearestTile_stepOnto tried.toAhead _ _
  | walked tried _ _ _ _ _ =>
    obtain ⟨rfl, rfl⟩ := tried.toAhead.unique lands.toAhead
    exact nearestTile_stepOnto tried.toAhead _ _

/-- A detour that can step onto a tile does. -/
theorem CoreStep.lands {a : AroundPoint} {d : Detour} {c' : CorePoint} {q : Point} {tag : Nat}
    (h : CoreStep t ptEnd (.around a d) c') (hinv : CoreInv t f ptEnd (.around a d))
    (lands : Lands t f d q tag) : nearestTile t c'.finder = q := by
  have hnearest : ∀ {r : Detour ⊕ (Bool × PathFinder)},
      aroundBody t a.ptTile a.nTurnDir ptEnd d = some r →
      nearestTile t (r.elim (fun d' => d'.finder) Prod.snd) = q :=
    lands.nearest hinv.1.forest.pure hinv.1.inRange
  cases h with
  | aroundNext hr =>
    have hd' := hnearest hr
    exact hd'
  | aroundTrue hr _ =>
    have hs' := hnearest hr
    exact (nearestTile_afterAround _ _).trans hs'
  | aroundFalse hr =>
    have hs' := hnearest hr
    exact hs'

/-- The places to go around were walked. -/
theorem CoreStep.queue_walked {c c' : CorePoint} (h : CoreStep t ptEnd c c') :
    ∀ a ∈ c'.finder.aroundQueue, a ∈ c.finder.aroundQueue ∨ c.tile = some a.ptTile := by
  cases h with
  | approachAtEnd => exact fun _ => .inl
  | approachOutside _ _ => exact fun _ => .inl
  | @approach p s tag _ _ =>
    exact fun a ha => .inl (makeRoot_aroundQueue s tag ▸ ha)
  | approachNext hr =>
    cases approachBody_turn hr with
    | walked _ _ _ => exact fun _ => .inl
  | approachTrue hr =>
    cases approachBody_turn hr with
    | refusedAtEnd _ _ => exact fun _ => .inl
    | arrived _ _ => exact fun _ => .inl
  | @approachFalse w _ hr =>
    cases approachBody_turn hr with
    | stop _ => exact fun _ => .inl
    | refused _ _ _ =>
      -- both turns around the obstacle are queued at the tile of the walk
      intro a ha
      have ha' : a ∈ (w.finder.counted.pushAround w.ptTile (getDir w.ptTile ptEnd)).aroundQueue :=
        ha
      simp only [pushAround, List.mem_cons] at ha'
      rcases ha' with rfl | rfl | hold
      · exact .inr rfl
      · exact .inr rfl
      · exact .inl hold
  | @around s a queue hqueue =>
    exact fun b hb => .inl (show b ∈ s.aroundQueue from hqueue ▸ List.mem_cons_of_mem a hb)
  | aroundNext hr => exact fun a ha => .inl (aroundBody_aroundQueue hr ▸ ha)
  | @aroundTrue a d s tag hr _ =>
    have hqueue : (afterAround t s tag).finder.aroundQueue = s.aroundQueue := by
      unfold afterAround CorePoint.finder
      dsimp only
      split
      · exact recordCorner_aroundQueue s _
      · rfl
    rw [hqueue]
    exact fun a ha => .inl (aroundBody_aroundQueue hr ▸ ha)
  | aroundFalse hr => exact fun a ha => .inl (aroundBody_aroundQueue hr ▸ ha)
  | exhausted _ => exact fun _ => .inl

/-- `Approach` comes nearer to the target. -/
theorem manhattan_toward {p q : Point} (hp : p.InRange) (hend : ptEnd.InRange) (hne : p ≠ ptEnd)
    (hmove : moveNext p (getDir p ptEnd) = some q) : manhattan q ptEnd ≤ manhattan p ptEnd := by
  obtain rfl := Option.some.inj ((moveNext_getDir_eq hne).symm.trans hmove)
  have hle : ∀ a b : Int, (a + (b - a).sign - b).natAbs ≤ (a - b).natAbs := by
    intro a b
    rcases sign_sub_cases a b with h | h | h <;> omega
  unfold manhattan
  rw [int32_toward hp.x hend.x, int32_toward hp.y hend.y]
  exact Nat.add_le_add (hle _ _) (hle _ _)

/-- Where no detour leads away from the target, `m_pNearestTile` comes no farther from it. -/
theorem CoreStep.nearer {c c' : CorePoint} (h : CoreStep t ptEnd c c') (hinv : CoreInv t f ptEnd c)
    (hsafe : CoreSafe t ptEnd c) (hend : ptEnd.InRange)
    (hno : ∀ a d, c = .around a d → NoFarther t f ptEnd d) :
    manhattan (nearestTile t c'.finder) ptEnd ≤ manhattan (nearestTile t c.finder) ptEnd := by
  cases h.nearest_cases hinv with
  | inl stays => rw [stays.nearest]
  | inr comes =>
    obtain ⟨q, comes⟩ := comes
    rw [comes.nearest]
    cases comes.enters with
    | @approach w _ tag tried =>
      have hstands : nearestTile t w.finder = w.ptTile := hinv.2.nearestTile hinv.1.inRange
      rw [show nearestTile t (CorePoint.approach w).finder = w.ptTile from hstands]
      exact manhattan_toward hinv.1.inRange hend hsafe.2.2 tried.move
    | around lands => exact hno _ _ rfl _ _ lands

/-- `m_pNearestTile` is as near as the tile the search stands on, and as the places to go around. -/
structure CoreNear (t : Params) (ptEnd : Point) (c : CorePoint) : Prop where
  tile : ∀ p, c.tile = some p → manhattan (nearestTile t c.finder) ptEnd ≤ manhattan p ptEnd
  queue : ∀ a ∈ c.finder.aroundQueue,
    manhattan (nearestTile t c.finder) ptEnd ≤ manhattan a.ptTile ptEnd

/-- A step that comes no farther from the end keeps what was nearest so far. -/
theorem CoreNear.next {c c' : CorePoint} (hc : CoreNear t ptEnd c) (h : CoreStep t ptEnd c c')
    (hinv : CoreInv t f ptEnd c)
    (hle : manhattan (nearestTile t c'.finder) ptEnd ≤ manhattan (nearestTile t c.finder) ptEnd) :
    CoreNear t ptEnd c' where
  tile := fun p hp => by
    cases h.nearest_cases hinv with
    -- the nearest tile stays, and the tile stood on is an old one
    | inl stays =>
      cases stays.tile p hp with
      | inl hold => exact Nat.le_trans hle (hc.tile p hold)
      | inr hqueue =>
        obtain ⟨a, ha, rfl⟩ := hqueue
        exact Nat.le_trans hle (hc.queue a ha)
    -- the nearest tile is the one come to
    | inr comes =>
      obtain ⟨q, comes⟩ := comes
      cases comes.tile with
      | inl htile =>
        obtain rfl := Option.some.inj (htile.symm.trans hp)
        rw [comes.nearest]
      | inr hended =>
        obtain ⟨-, s', rfl⟩ := hended
        exact nomatch hp
  queue := fun a ha => by
    cases h.queue_walked a ha with
    | inl hold => exact Nat.le_trans hle (hc.queue a hold)
    | inr htile => exact Nat.le_trans hle (hc.tile _ htile)

/-! ## A search -/

section

variable (hf : s.Pure f) (hstart : ptStart.InRange) (hend : ptEnd.InRange) (hunused : Unused t s)

include hf hstart hunused

/-- While no detour has led away, the tiles walked before are no nearer than `m_pNearestTile`. -/
theorem CoreReach.coreNear (hend : ptEnd.InRange) {c : CorePoint}
    (h : CoreReach t s ptStart ptEnd c)
    (hno : ∀ a d, CoreReach t s ptStart ptEnd (.around a d) → NoFarther t f ptEnd d) :
    CoreNear t ptEnd c := by
  have hinit := coreStart_inv ptEnd hf hstart hunused
  have hbegin : CoreBegins s (coreStart t s ptStart ptEnd) ptStart :=
    coreStart_begins s ptStart ptEnd
  induction h with
  | refl =>
    -- at the start nothing was walked, so the start itself is nearest
    have hnearest : nearestTile t (coreStart t s ptStart ptEnd) = ptStart :=
      hinit.2.2.1.nearestTile hstart
    constructor
    · intro p hp
      obtain rfl := Option.some.inj hp
      exact Nat.le_of_eq (congrArg (manhattan · ptEnd) hnearest)
    · intro a ha
      have hqueue : a ∈ (coreStart t s ptStart ptEnd).aroundQueue := ha
      rw [hbegin.aroundQueue] at hqueue
      exact nomatch hqueue
  | @tail c c' hsteps hstep ih =>
    have hinv : CoreInv t f ptEnd c := hinit.steps hsteps
    have hsafe : CoreSafe t ptEnd c := CoreReach.safe hstart hsteps
    exact ih.next hstep hinv (hstep.nearer hinv hsafe hend fun a d heq => hno a d (heq ▸ hsteps))

/-- `m_pNearestTile` points to a tile walked, until the search returns. -/
theorem CoreReach.nearest_walked {c : CorePoint} (h : CoreReach t s ptStart ptEnd c) :
    (∃ ret s', c = .done ret s') ∨ ∃ c₁, CoreReach t s ptStart ptEnd c₁ ∧
      ReflTransGen (CoreStep t ptEnd) c₁ c ∧ c₁.tile = some (nearestTile t c.finder) := by
  have hinit := coreStart_inv ptEnd hf hstart hunused
  induction h with
  | refl => exact .inr ⟨_, .refl, .refl, congrArg some (hinit.2.2.1.nearestTile hstart).symm⟩
  | @tail c c' hsteps hstep ih =>
    cases ih with
    | inl hdone =>
      obtain ⟨ret, s', rfl⟩ := hdone
      exact nomatch hstep
    | inr hwalked =>
      obtain ⟨c₁, hc₁, hsteps₁, htile⟩ := hwalked
      -- a step that stays keeps the earlier point; one that comes to a tile is that point
      cases hstep.nearest_cases (hinit.steps hsteps) with
      | inl stays =>
        rw [← stays.nearest] at htile
        exact .inr ⟨c₁, hc₁, hsteps₁.tail hstep, htile⟩
      | inr comes =>
        obtain ⟨q, comes⟩ := comes
        cases comes.tile with
        | inl htile' =>
          rw [← comes.nearest] at htile'
          exact .inr ⟨c', hsteps.tail hstep, .refl, htile'⟩
        | inr hended => exact .inl ⟨true, hended.2⟩

include hend

/-- Every tile walked so far is as far from the target as `m_pNearestTile`, at every point of the
    search, just when no detour of it leads away from the target. -/
theorem findPathCore_nearest :
    (∀ a d, CoreReach t s ptStart ptEnd (.around a d) → NoFarther t f ptEnd d) ↔
      ∀ c, CoreReach t s ptStart ptEnd c → NearestSoFar t s ptStart ptEnd c := by
  have hinit := coreStart_inv ptEnd hf hstart hunused
  constructor
  · intro hno c _ c₁ p hc₁ hsteps hp
    have hle : manhattan (nearestTile t c.finder) ptEnd ≤
        manhattan (nearestTile t c₁.finder) ptEnd := by
      induction hsteps with
      | refl => exact Nat.le_refl _
      | @tail c₂ c' hsteps hstep ih =>
        have hreach : CoreReach t s ptStart ptEnd c₂ := ReflTransGen.trans hc₁ hsteps
        have hnearer := hstep.nearer (hinit.steps hreach) (hreach.safe hstart) hend
          fun a d heq => hno a d (heq ▸ hreach)
        exact Nat.le_trans hnearer (ih hreach)
    exact Nat.not_lt.2 (Nat.le_trans hle ((hc₁.coreNear hf hstart hunused hend hno).tile p hp))
  · intro hsofar a d hreach ptNext tag lands
    obtain ⟨r, hr⟩ := findPathCore_fresh_returns (t := t) hf.answers hstart hend hunused
    cases hreach.next hr with
    | inl hdone => exact nomatch hdone
    | inr hnext =>
      obtain ⟨c', hstep⟩ := hnext
      cases hreach.nearest_walked hf hstart hunused with
      | inl hdone =>
        obtain ⟨_, _, hdone⟩ := hdone
        exact nomatch hdone
      | inr hwalked =>
        -- the tile that `m_pNearestTile` leaves was walked
        obtain ⟨c₁, hc₁, hsteps, htile⟩ := hwalked
        have hnot := hsofar c' (hreach.tail hstep) c₁ _ hc₁ (hsteps.tail hstep) htile
        rw [hstep.lands (hinit.steps hreach) lands] at hnot
        exact Nat.le_of_not_lt hnot

end

/-! ## FindPath -/

variable {q : Query}

/-- A path that is built at once ends at the nearest tile. -/
theorem builtPath_last {optmize : Bool} {last : Point} (hret : (builtPath t s optmize).ret = true)
    (hlast : (builtPath t s optmize).path.getLast? = some last) : nearestPoint t s = some last := by
  obtain ⟨tags, htags, -, hne, hpoints⟩ := buildPath_points (of_decide_eq_true hret)
  have hpath : (builtPath t s optmize).path = ordered true (traced t s optmize tags []) := hpoints
  obtain ⟨tip, rest, htip, -⟩ := htags.exists_cons hne
  have htraced : (traced t s optmize tags []).getLast? = some (s.tileToPoint t tip) :=
    traced_nearest htags hne htip
  rw [hpath] at hlast
  unfold nearestPoint
  rw [htip]
  exact htraced.symm.trans hlast

/-- A* begins on the same map, on tags without its number. -/
theorem aStarInput_ready {s₁ : PathFinder} (hfresh : Fresh t s 5) (h : aStarInput t q s = some s₁) :
    SameMap s s₁ ∧ Unused t s₁ := by
  have hstage : ∀ {k : Nat} {b : Search}, Stage t q s k b → k ≤ 4 →
      SameMap s b.finder ∧ Unused t b.finder := fun hb hk =>
    ⟨hb.keeps.toSameMap, (hb.fresh (by decide) (by decide) hfresh).unused (by omega)⟩
  obtain rfl | ⟨b, hb, rfl⟩ := aStarInput_cases h
  · exact hstage .first (by decide)
  · exact hstage (.second .first hb) (by decide)

/-- What the path to the nearest point promises.  After A* no tile it expanded is nearer to the
    target than the end of the path just when it found a tile that is no farther than the start.
    After the last wall-following search no tile it walked is nearer if none of its detours led
    away from the target, and only then is this so at every point of the search. -/
theorem findPath_nearest (t : Params) (f : Point → Bool) (s : PathFinder) (q : Query) (r : Found)
    (last : Point) (hf : s.Pure f) (hfresh : Fresh t s 5) (hstart : q.ptStart.InRange)
    (hend : q.ptEnd.InRange) (h : findPath t s q = some r) (hret : r.ret = true)
    (hlast : r.path.getLast? = some last) (hne : last ≠ q.ptEnd) :
    (∀ s₁, aStarInput t q s = some s₁ → Measured s q.ptEnd →
      ((∀ p, ExpandedBy t s₁ q.ptStart q.ptEnd p →
          ¬ manhattan p q.ptEnd < manhattan last q.ptEnd) ↔
        ∃ p, FoundBy t s₁ q.ptStart q.ptEnd p ∧ p ≠ q.ptStart ∧
          manhattan p q.ptEnd ≤ manhattan q.ptStart q.ptEnd)) ∧
    (∀ b, aStarInput t q s = none → Stage t q s 4 b → b.best = none →
      ((∀ a d, CoreReach t b.finder q.ptStart q.ptEnd (.around a d) → NoFarther t f q.ptEnd d) →
        ∀ p, WalkedBy t b.finder q.ptStart q.ptEnd p →
          ¬ manhattan p q.ptEnd < manhattan last q.ptEnd) ∧
      ((∀ a d, CoreReach t b.finder q.ptStart q.ptEnd (.around a d) → NoFarther t f q.ptEnd d) ↔
        ∀ c, CoreReach t b.finder q.ptStart q.ptEnd c →
          NearestSoFar t b.finder q.ptStart q.ptEnd c)) := by
  constructor
  · -- the path comes from A*
    intro s₁ hinput hmeasured
    obtain ⟨hmap, hunused⟩ := aStarInput_ready hfresh hinput
    cases findPath_cases h with
    | inr hstages => exact nomatch hstages.1.symm.trans hinput
    | inl hastar =>
      obtain ⟨s₂, hinput', h⟩ := hastar
      obtain rfl := Option.some.inj (hinput.symm.trans hinput')
      obtain ⟨r', hr', h⟩ := Option.bind_eq_some_iff.1 h
      obtain rfl := Option.some.inj h
      exact findAStar_promise (hmap.blockFunc.trans hf) hstart hend hunused
        (hmap.measured hmeasured) hr' (builtPath_last hret hlast) hne
  · -- none of the four searches has left a path, and the fifth goes for the nearest tile
    intro b hinput hstage hnone
    cases findPath_cases h with
    | inl hastar =>
      obtain ⟨_, hinput', -⟩ := hastar
      exact nomatch hinput.symm.trans hinput'
    | inr hstages =>
      obtain ⟨-, b', hstage', hfinish⟩ := hstages
      obtain rfl := hstage.unique hstage'
      cases finish_turn hfinish with
      | @nearest r' _ hnear hcore =>
        obtain ⟨ret, s₂⟩ := r'
        have hsearch : Searches t q s b.finder q.ptStart q.ptEnd :=
          .nearest hinput hstage hnone hnear
        have hunused : Unused t b.finder := hsearch.unused hfresh
        have hiff := findPathCore_nearest (t := t) (hsearch.keeps.1.blockFunc.trans hf) hstart hend
          hunused
        refine ⟨fun hno => ?_, hiff⟩
        have hdone := findPathCore_reaches hcore
        have htip : nearestTile t s₂ = last := by
          unfold nearestTile
          rw [builtPath_last hret hlast]
          rfl
        rintro p ⟨c₁, hc₁, hp⟩
        have hsofar := hiff.1 hno _ hdone c₁ p hc₁ (hc₁.done hdone) hp
        rw [show nearestTile t (CorePoint.done ret s₂).finder = last from htip] at hsofar
        exact hsofar
      | nothing _ _ => exact nomatch hret
      | kept hbest => exact nomatch hnone.symm.trans hbest

/-! ## The condition on a given map -/

/-- A search point by point. -/
def coreTurn (t : Params) (ptEnd : Point) : CorePoint → Option (CorePoint ⊕ Unit)
  | .call p s =>
    if p = ptEnd then some (.inl (.done true s))
    else match s.getTileTag t p with
      | none => some (.inl (.drain s))
      | some tag => some (.inl (.approach ⟨s.makeRoot tag, p, some tag⟩))
  | .approach w =>
    match approachBody t ptEnd w with
    | some (.inl w') => some (.inl (.approach w'))
    | some (.inr (true, s)) => some (.inl (.done true s))
    | some (.inr (false, s)) => some (.inl (.drain s))
    | none => none
  | .drain s =>
    match s.aroundQueue with
    | [] => some (.inl (.done false s))
    | a :: queue => some (.inl (.around a ⟨⟨{ s with aroundQueue := queue }, a.ptTile,
        { s with aroundQueue := queue }.getTileTag t a.ptTile⟩, a.nMoveDir, 0⟩))
  | .around a d =>
    match aroundBody t a.ptTile a.nTurnDir ptEnd d with
    | some (.inl d') => some (.inl (.around a d'))
    | some (.inr (true, s)) => s.pNearestTile.map fun tag => .inl (afterAround t s tag)
    | some (.inr (false, s)) => some (.inl (.drain s))
    | none => none
  | .done _ _ => some (.inr ())

/-- A step is what the executable turn computes, -/
theorem CoreStep.coreTurn_eq {c c' : CorePoint} (h : CoreStep t ptEnd c c') :
    coreTurn t ptEnd c = some (.inl c') := by
  cases h with
  | approachAtEnd => simp [coreTurn]
  | approachOutside hne htag => simp [coreTurn, hne, htag]
  | approach hne htag => simp [coreTurn, hne, htag]
  | approachNext hr => simp [coreTurn, hr]
  | approachTrue hr => simp [coreTurn, hr]
  | approachFalse hr => simp [coreTurn, hr]
  | around hqueue => simp [coreTurn, hqueue]
  | aroundNext hr => simp [coreTurn, hr]
  | aroundTrue hr htag => simp [coreTurn, hr, htag]
  | aroundFalse hr => simp [coreTurn, hr]
  | exhausted hempty => simp [coreTurn, hempty]

/-- and the other way round. -/
theorem coreStep_of_coreTurn {c c' : CorePoint} (h : coreTurn t ptEnd c = some (.inl c')) :
    CoreStep t ptEnd c c' := by
  unfold coreTurn at h
  split at h
  -- a call of `Approach`
  · rename_i p s
    split at h
    · rename_i hat
      subst hat
      cases h
      exact .approachAtEnd
    · rename_i hne
      split at h
      all_goals
        rename_i htag
        cases h
      · exact .approachOutside hne htag
      · exact .approach hne htag
  -- a turn of `Approach`
  · split at h
    all_goals
      rename_i hr
      cases h
    · exact .approachNext hr
    · exact .approachTrue hr
    · exact .approachFalse hr
  -- the queue of turning points
  · split at h
    all_goals
      rename_i hqueue
      cases h
    · exact .exhausted hqueue
    · exact .around hqueue
  -- a turn around a block
  · split at h
    · rename_i hr
      cases h
      exact .aroundNext hr
    · rename_i hr
      obtain ⟨tag, htag, heq⟩ := Option.map_eq_some_iff.1 h
      cases heq
      exact .aroundTrue hr htag
    · rename_i hr
      cases h
      exact .aroundFalse hr
    · exact nomatch h
  · exact nomatch h

/-- A point that a search passes. -/
theorem coreReach_of_run {c : CorePoint} {n : Nat}
    (h : Loop.run (coreTurn t ptEnd) n (.call ptStart (coreStart t s ptStart ptEnd)) =
      some (.inl c)) : CoreReach t s ptStart ptEnd c :=
  Loop.run_inl (I := CoreReach t s ptStart ptEnd)
    (fun _ _ hc hturn => hc.tail (coreStep_of_coreTurn hturn)) .refl h

/-- The detour of a point. -/
def detours : CorePoint → List Detour
  | .around _ d => [d]
  | _ => []

/-- What holds of all detours that a search passes before it returns. -/
theorem forall_coreReach_around {P : Detour → Prop} {n : Nat}
    (h : ∀ d ∈ Loop.trace (coreTurn t ptEnd) detours n
      (.call ptStart (coreStart t s ptStart ptEnd)), P d)
    (hend : Loop.run (coreTurn t ptEnd) n (.call ptStart (coreStart t s ptStart ptEnd)) =
      some (.inr ())) (a : AroundPoint) (d : Detour)
    (hc : CoreReach t s ptStart ptEnd (.around a d)) : P d := by
  -- every point the relation reaches is a turn of the executable run
  have hrun : ∀ {c : CorePoint}, CoreReach t s ptStart ptEnd c →
      ∃ m, Loop.run (coreTurn t ptEnd) m (.call ptStart (coreStart t s ptStart ptEnd)) =
        some (.inl c) := by
    intro c hc
    induction hc with
    | refl => exact ⟨0, rfl⟩
    | tail _ hstep ih =>
      obtain ⟨m, hm⟩ := ih
      exact ⟨m + 1, Loop.run_snoc hm hstep.coreTurn_eq⟩
  obtain ⟨m, hm⟩ := hrun hc
  apply h
  refine Loop.mem_trace_of_run ?_ hm hend
  exact List.mem_singleton.2 rfl

instance (t : Params) (f : Point → Bool) (ptEnd : Point) (d : Detour) :
    Decidable (NoFarther t f ptEnd d) :=
  decidable_of_iff (d.finder.counted.nStepCount ≤ d.finder.counted.nMaxStep →
      ∀ ptNext ∈ moveNext d.ptTile d.nMoveDir, ∀ tag ∈ d.finder.counted.getTileTag t ptNext,
        d.finder.counted.isTileVisited tag d.nMoveDir = false → ¬ Refused f d.ptTile ptNext →
        manhattan ptNext ptEnd ≤ manhattan (nearestTile t d.finder) ptEnd)
    ⟨fun h ptNext tag lands => h lands.inTime ptNext lands.move tag lands.tag lands.fresh
        lands.free,
      fun h hcount ptNext hmove tag htag hvisited hfree =>
        h ptNext tag ⟨⟨⟨hmove, htag⟩, hcount, hvisited⟩, hfree⟩⟩

/-- The four blocks one after the other. -/
def fourBlocks (t : Params) (q : Query) (s : PathFinder) : Option Search := do
  let b ← forwardStage t q 0 (beginSearch s q)
  let b ← reverseStage t q 1 b
  let b ← forwardStage t q 2 (switchStraightway b)
  reverseStage t q 3 b

/-- The four blocks before A* make up a stage. -/
theorem stage_of_fourBlocks {b : Search} (h : fourBlocks t q s = some b) : Stage t q s 4 b := by
  obtain ⟨b₁, h₁, h⟩ := Option.bind_eq_some_iff.1 h
  obtain ⟨b₂, h₂, h⟩ := Option.bind_eq_some_iff.1 h
  obtain ⟨b₃, h₃, h₄⟩ := Option.bind_eq_some_iff.1 h
  exact .fifth (.fourth (.third (.second .first h₁) h₂) h₃) h₄

/-- The tile of the detour that a search is on after some points. -/
def detourTile (t : Params) (ptEnd : Point) (n : Nat) (c : CorePoint) : Option Point :=
  match Loop.run (coreTurn t ptEnd) n c with
  | some (.inl (.around _ d)) => some d.ptTile
  | _ => none

/-- Four steps take the search past a block, along a detour that never leads away from the target,
    but not onto it. -/
theorem findPath_nearest_detour : ∃ b a d r,
    Stage smallParams ⟨⟨3, 2⟩, ⟨0, 0⟩, optionNearest, 4⟩ (smallMap [⟨1, 0⟩]) 4 b ∧
      CoreReach smallParams b.finder ⟨3, 2⟩ ⟨0, 0⟩ (.around a d) ∧ d.ptTile = ⟨1, 1⟩ ∧
      findPath smallParams (smallMap [⟨1, 0⟩]) ⟨⟨3, 2⟩, ⟨0, 0⟩, optionNearest, 4⟩ = some r ∧
      r.path.getLast? = some ⟨0, 1⟩ ∧
      ∀ p, WalkedBy smallParams b.finder ⟨3, 2⟩ ⟨0, 0⟩ p →
        ¬ manhattan p ⟨0, 0⟩ < manhattan ⟨0, 1⟩ ⟨0, 0⟩ := by
  have hinput : (aStarInput smallParams ⟨⟨3, 2⟩, ⟨0, 0⟩, optionNearest, 4⟩
      (smallMap [⟨1, 0⟩])).isNone = true := by
    decide +kernel
  have hret : (findPath smallParams (smallMap [⟨1, 0⟩]) ⟨⟨3, 2⟩, ⟨0, 0⟩, optionNearest, 4⟩).map
      (fun r => (r.ret, r.path.getLast?)) = some (true, some ⟨0, 1⟩) := by
    decide +kernel
  -- the last search: it is on the detour after five points and returns after eleven
  have hblocks : (fourBlocks smallParams ⟨⟨3, 2⟩, ⟨0, 0⟩, optionNearest, 4⟩
      (smallMap [⟨1, 0⟩])).map (fun b =>
        let c := CorePoint.call ⟨3, 2⟩ (coreStart smallParams b.finder ⟨3, 2⟩ ⟨0, 0⟩)
        (b.best.isNone, detourTile smallParams ⟨0, 0⟩ 5 c,
          (Loop.run (coreTurn smallParams ⟨0, 0⟩) 11 c).map Sum.isRight,
          decide (∀ d ∈ Loop.trace (coreTurn smallParams ⟨0, 0⟩) detours 11 c,
            NoFarther smallParams (blockedAt [⟨1, 0⟩]) ⟨0, 0⟩ d))) =
      some (true, some ⟨1, 1⟩, some true, true) := by
    decide +kernel
  obtain ⟨b, hb, hfields⟩ := Option.map_eq_some_iff.1 hblocks
  obtain ⟨hnone, hfields⟩ := Prod.mk.inj hfields
  obtain ⟨htile, hfields⟩ := Prod.mk.inj hfields
  obtain ⟨hend, hno⟩ := Prod.mk.inj hfields
  obtain ⟨r, hrun, hr⟩ := Option.map_eq_some_iff.1 hret
  obtain ⟨hret, hlast⟩ := Prod.mk.inj hr
  have hstage := stage_of_fourBlocks hb
  have hreturned : Loop.run (coreTurn smallParams ⟨0, 0⟩) 11
      (.call ⟨3, 2⟩ (coreStart smallParams b.finder ⟨3, 2⟩ ⟨0, 0⟩)) = some (.inr ()) := by
    obtain ⟨x, hx, hright⟩ := Option.map_eq_some_iff.1 hend
    cases x with
    | inl c => exact nomatch hright
    | inr u => exact hx
  have hdetour : ∃ a d, CoreReach smallParams b.finder ⟨3, 2⟩ ⟨0, 0⟩ (.around a d) ∧
      d.ptTile = ⟨1, 1⟩ := by
    unfold detourTile at htile
    split at htile
    · rename_i a d hd
      exact ⟨a, d, coreReach_of_run hd, Option.some.inj htile⟩
    · exact nomatch htile
  obtain ⟨a, d, hreach, hat⟩ := hdetour
  have hnearest := findPath_nearest smallParams (blockedAt [⟨1, 0⟩]) (smallMap [⟨1, 0⟩])
    ⟨⟨3, 2⟩, ⟨0, 0⟩, optionNearest, 4⟩ r ⟨0, 1⟩ (smallMap_pure _) (new_fresh 4 4 _)
    ⟨by decide, by decide⟩ ⟨by decide, by decide⟩ hrun hret hlast (by decide)
  exact ⟨b, a, d, r, hstage, hreach, hat, hrun, hlast,
    (hnearest.2 b (Option.isNone_iff_eq_none.1 hinput) hstage
      (Option.isNone_iff_eq_none.1 hnone)).1
      (forall_coreReach_around (of_decide_eq_true hno) hreturned)⟩

/-- Behind a wall right before the start both searches end farther from the target than they
    began. -/
theorem not_findPath_nearest :
    (∃ r b, findPath smallParams (smallMap [⟨2, 0⟩, ⟨2, 1⟩, ⟨2, 2⟩, ⟨2, 3⟩])
        ⟨⟨1, 0⟩, ⟨3, 0⟩, optionNearest, 16⟩ = some r ∧ r.ret = true ∧
      r.path.getLast? = some ⟨1, 3⟩ ∧
      Stage smallParams ⟨⟨1, 0⟩, ⟨3, 0⟩, optionNearest, 16⟩
        (smallMap [⟨2, 0⟩, ⟨2, 1⟩, ⟨2, 2⟩, ⟨2, 3⟩]) 4 b ∧ b.best = none ∧
      WalkedBy smallParams b.finder ⟨1, 0⟩ ⟨3, 0⟩ ⟨1, 0⟩ ∧
      manhattan ⟨1, 0⟩ ⟨3, 0⟩ < manhattan ⟨1, 3⟩ ⟨3, 0⟩) ∧
    ∃ r, findPath smallParams (smallMap [⟨2, 0⟩, ⟨2, 1⟩, ⟨2, 2⟩, ⟨2, 3⟩])
        ⟨⟨1, 0⟩, ⟨3, 0⟩, optionOnlyAStar, 16⟩ = some r ∧ r.ret = true ∧
      r.path.getLast? = some ⟨0, 0⟩ ∧
      ExpandedBy smallParams (beginSearch (smallMap [⟨2, 0⟩, ⟨2, 1⟩, ⟨2, 2⟩, ⟨2, 3⟩])
        ⟨⟨1, 0⟩, ⟨3, 0⟩, optionOnlyAStar, 16⟩).finder ⟨1, 0⟩ ⟨3, 0⟩ ⟨1, 0⟩ ∧
      manhattan ⟨1, 0⟩ ⟨3, 0⟩ < manhattan ⟨0, 0⟩ ⟨3, 0⟩ := by
  constructor
  -- the four searches find nothing, and the last stage ends farther off
  · have hblocks : (fourBlocks smallParams ⟨⟨1, 0⟩, ⟨3, 0⟩, optionNearest, 16⟩
        (smallMap [⟨2, 0⟩, ⟨2, 1⟩, ⟨2, 2⟩, ⟨2, 3⟩])).map (fun b => b.best.isNone) = some true := by
      decide +kernel
    have hret : (findPath smallParams (smallMap [⟨2, 0⟩, ⟨2, 1⟩, ⟨2, 2⟩, ⟨2, 3⟩])
        ⟨⟨1, 0⟩, ⟨3, 0⟩, optionNearest, 16⟩).map (fun r => (r.ret, r.path.getLast?)) =
        some (true, some ⟨1, 3⟩) := by
      decide +kernel
    obtain ⟨b, hb, hnone⟩ := Option.map_eq_some_iff.1 hblocks
    obtain ⟨r, hrun, hr⟩ := Option.map_eq_some_iff.1 hret
    obtain ⟨hret, hlast⟩ := Prod.mk.inj hr
    exact ⟨r, b, hrun, hret, hlast, stage_of_fourBlocks hb, Option.isNone_iff_eq_none.1 hnone,
      ⟨_, .refl, rfl⟩, by decide⟩
  -- A* alone ends farther off than its start
  · have hret : (findPath smallParams (smallMap [⟨2, 0⟩, ⟨2, 1⟩, ⟨2, 2⟩, ⟨2, 3⟩])
        ⟨⟨1, 0⟩, ⟨3, 0⟩, optionOnlyAStar, 16⟩).map (fun r => (r.ret, r.path.getLast?)) =
        some (true, some ⟨0, 0⟩) := by
      decide +kernel
    have hsearch : (findAStar smallParams (beginSearch (smallMap [⟨2, 0⟩, ⟨2, 1⟩, ⟨2, 2⟩, ⟨2, 3⟩])
        ⟨⟨1, 0⟩, ⟨3, 0⟩, optionOnlyAStar, 16⟩).finder ⟨1, 0⟩ ⟨3, 0⟩).map
        (fun r => (r.1, r.2.pNearestTile.isSome)) = some (false, true) := by
      decide +kernel
    obtain ⟨r, hrun, hr⟩ := Option.map_eq_some_iff.1 hret
    obtain ⟨hret, hlast⟩ := Prod.mk.inj hr
    obtain ⟨r', hrun', hr'⟩ := Option.map_eq_some_iff.1 hsearch
    obtain ⟨hfalse, hsome⟩ := Prod.mk.inj hr'
    have hexpanded := expandedBy_start hfalse ⟨36, by decide +kernel⟩ hrun'
      (Option.isSome_iff_ne_none.1 hsome)
    exact ⟨r, hrun, hret, hlast, hexpanded, by decide⟩

end XGame3.PathFinder
