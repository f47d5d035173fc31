import XGame3.Spec.PathFinderLegal
import XGame3.Spec.PathFinderReturns

/-!
# The assertions of the path finder hold

Without the straight-way option a detour ends where the target can be approached, and asks
for the direction to the target after every step.  There is none from the target itself, but
a detour never steps onto it: it moves straight, so it would have stood beside the target
with a free step towards it, and would have ended there.

Key results:
- `CoreStep.apart`: every transition keeps detours apart from the target
- `findPath_returns`: the call returns, so that no assertion has failed
-/

namespace XGame3.PathFinder

open FixedInt

variable {t : Params} {s s' : PathFinder} {f : Point → Bool} {anywhere : Prop}
  {ptStart ptEnd : Point} {q : Query}

/-! ## Detours and the target -/

/-- A free target is not touched. -/
def Untaken (t : Params) (f : Point → Bool) (ptEnd : Point) (s : PathFinder) : Prop :=
  ∀ tag, s.getTileTag t ptEnd = some tag → s.Carries tag → Blocked f ptEnd

/-- No straight step leads from the tile onto a free target. -/
def Walled (t : Params) (f : Point → Bool) (ptEnd : Point) (s : PathFinder) (p : Point) : Prop :=
  ∀ dir tag, Straight dir → moveNext p dir = some ptEnd → s.getTileTag t ptEnd = some tag →
    Blocked f ptEnd

/-- What keeps the detours of a search apart from its target. -/
structure Apart (t : Params) (f : Point → Bool) (ptEnd : Point) (s : PathFinder) : Prop where
  untaken : Untaken t f ptEnd s
  queue : ∀ a ∈ s.aroundQueue, Walled t f ptEnd s a.ptTile

/-- The invariant at every point of a search without the straight-way option. -/
def CoreApart (t : Params) (f : Point → Bool) (ptEnd : Point) : CorePoint → Prop
  | .call _ s => Apart t f ptEnd s
  | .approach w => Apart t f ptEnd w.finder
  | .drain s => Apart t f ptEnd s
  | .around _ d => Apart t f ptEnd d.finder ∧ Walled t f ptEnd d.finder d.ptTile
  | .done _ _ => True

/-- A walled tile stays walled within a search. -/
theorem SameSearch.walled {p : Point} (h : SameSearch s s') (hp : Walled t f ptEnd s p) :
    Walled t f ptEnd s' p :=
  fun dir tag hdir hmove htag => hp dir tag hdir hmove ((h.getTileTag ptEnd).symm.trans htag)

/-- A step that touches at most the tag of a tile that is blocked or not the target. -/
theorem Apart.touch (h : Apart t f ptEnd s) (hend : ptEnd.InRange) (hsame : SameSearch s s')
    {p : Point} {tag : Nat} (hp : p.InRange) (htag : s.getTileTag t p = some tag)
    (hcarries : ∀ i, s'.Carries i → i = tag ∨ s.Carries i)
    (hqueue : ∀ a ∈ s'.aroundQueue, a ∈ s.aroundQueue) (hne : p = ptEnd → Blocked f ptEnd) :
    Apart t f ptEnd s' where
  untaken := fun i hi hc => by
    have hi' : s.getTileTag t ptEnd = some i := (hsame.getTileTag ptEnd).symm.trans hi
    cases hcarries i hc with
    | inl heq =>
      subst heq
      exact hne (getTileTag_inj hp hend htag hi')
    | inr hold => exact h.untaken i hi' hold
  queue := fun a ha => hsame.walled (h.queue a (hqueue a ha))

/-- What keeps the end apart carries over to a finder with the same tags and no new turning points
    but walled ones, -/
theorem Apart.same (h : Apart t f ptEnd s) (hsame : SameTags s s')
    (hqueue : ∀ a ∈ s'.aroundQueue, a ∈ s.aroundQueue ∨ Walled t f ptEnd s a.ptTile) :
    Apart t f ptEnd s' where
  untaken := fun i hi hc =>
    h.untaken i ((hsame.toSameSearch.getTileTag ptEnd).symm.trans hi) (hsame.carries.1 hc)
  queue := fun a ha => hsame.toSameSearch.walled ((hqueue a ha).elim (h.queue a) id)

/-- and counting a step changes nothing of it. -/
theorem Apart.counted (h : Apart t f ptEnd s) : Apart t f ptEnd s.counted :=
  h.same (counted_sameTags s) fun _ ha => .inl ha

/-- From a neighbour `GetDir` leads straight to the target. -/
theorem moveNext_getDir_of_neighbour {p : Point} (h : Neighbour p ptEnd) (hend : ptEnd.InRange) :
    moveNext p (getDir p ptEnd) = some ptEnd := by
  have hsign : ∀ {a b : Int}, a ≤ b + 1 → b ≤ a + 1 → IsInt32 b →
      int32 (a + (b - a).sign) = b := by
    intro a b hab hba hb
    have heq : a + (b - a).sign = b := by
      rcases sign_sub_cases a b with h | h | h <;> omega
    rw [heq, int32_of_isInt32 hb]
  rw [moveNext_getDir_eq h.ne, hsign h.x_le h.le_x hend.x, hsign h.y_le h.le_y hend.y]

/-- A straight step onto the target, from a tile of the window. -/
theorem OnTile.beside {p : Point} {dir : Int} {tag : Nat} (hp : OnTile t s p)
    (hmove : moveNext p dir = some ptEnd) (htag : s.getTileTag t ptEnd = some tag) :
    Neighbour p ptEnd := by
  obtain ⟨i, hi⟩ := hp.tag
  have ahead : Ahead t s p dir ptEnd tag := ⟨hmove, htag⟩
  exact ahead.near hp.inRange hi

/-- A straight step is refused only by a blocked tile. -/
theorem blocked_of_refused {p r : Point} {dir : Int} (h : Refused f p r) (hp : p.InRange)
    (hdir : Straight dir) (hmove : moveNext p dir = some r) : Blocked f r :=
  h.resolve_right (not_cutsCorner_of_straight (moveNext_straight hmove hp hdir.even))

/-- `Approach` has tried another tile than the target. -/
theorem OnTile.walled {p r : Point} (hp : OnTile t s p) (hend : ptEnd.InRange)
    (hmove : moveNext p (getDir p ptEnd) = some r) (hne : r ≠ ptEnd) : Walled t f ptEnd s p := by
  intro dir tag hdir hmove' htag
  have htoward := moveNext_getDir_of_neighbour (hp.beside hmove' htag) hend
  exact absurd (Option.some.inj (hmove.symm.trans htoward)) hne

/-- A turn of `Approach` keeps the end apart while it does not arrive. -/
theorem CoreApart.approachBody {w : Walk} {r : Walk ⊕ (Bool × PathFinder)}
    (h : CoreApart t f ptEnd (.approach w)) (hsafe : CoreSafe t ptEnd (.approach w))
    (hend : ptEnd.InRange) (hr : approachBody t ptEnd w = some r) :
    match r with
    | .inl w' => Apart t f ptEnd w'.finder
    | .inr (true, _) => True
    | .inr (false, s') => Apart t f ptEnd s' := by
  obtain ⟨-, htile, -⟩ := hsafe
  have hcount := Apart.counted h
  have htile' := (counted_sameTags w.finder).toSameSearch.onTile htile
  cases approachBody_turn hr with
  | stop _ => exact hcount
  | refusedAtEnd _ _ => trivial
  -- the two turning points pushed are the tile itself
  | @refused ptNext tag tried _ hne =>
    apply hcount.same (pushAround_sameTags _ _ _)
    intro a ha
    have hwalled : Walled t f ptEnd w.finder.counted w.ptTile := htile'.walled hend tried.move hne
    simp only [pushAround, List.mem_cons] at ha
    rcases ha with rfl | rfl | hold
    · exact .inr hwalled
    · exact .inr hwalled
    · exact .inl hold
  | arrived _ _ => trivial
  -- the tile walked to is not the target
  | @walked ptNext tag tried _ hne =>
    have hsame := (stepOnto_extends w.finder.counted tag 0 (getDir w.ptTile ptEnd)
      w.pParent).toSameSearch
    exact hcount.touch hend hsame tried.inRange tried.tag (fun _ => stepOnto_carries.1)
      (fun _ ha => ha) fun heq => absurd heq hne

/-- A step the finder was answered not to refuse is not refused by the map. -/
theorem Answers.not_refused (hf : s.Answers f anywhere) {p r : Point} {dir : Int} {tag : Nat}
    (hp : OnTile t s p) (ahead : Ahead t s p dir r tag) (h : s.refuses p r = some false) :
    ¬ Refused f p r := by
  rw [hf.refuses hp.inRange ahead.inRange hp.askable ahead.onTile.askable] at h
  exact of_decide_eq_false (Option.some.inj h)

/-- A free tile that a detour steps onto is not the target. -/
theorem Walled.ne {p r : Point} {dir : Int} {tag : Nat} (h : Walled t f ptEnd s p)
    (hdir : Straight dir) (ahead : Ahead t s p dir r tag) (hfree : ¬ Refused f p r) :
    r ≠ ptEnd := by
  rintro rfl
  exact hfree (.inl (h dir tag hdir ahead.move ahead.tag))

/-- Where the target cannot be approached no straight step leads onto it. -/
theorem Untaken.walled {p : Point} (h : Untaken t f ptEnd s) (hf : s.Answers f anywhere)
    (hp : OnTile t s p) (hend : ptEnd.InRange)
    (happroach : s.isCanApproach t p ptEnd = some false) :
    Walled t f ptEnd s p := by
  intro dir tag hdir hmove htag
  unfold isCanApproach at happroach
  rw [moveNext_getDir_of_neighbour (hp.beside hmove htag) hend] at happroach
  dsimp only [Option.bind_some, bind] at happroach
  have hask : s.Askable anywhere ptEnd := (onMap_of_getTileTag hend htag).askable
  rw [hf.isBevelBlock hp.inRange hend hp.askable hask, hf ptEnd hask] at happroach
  -- `IsCanApproach` says no because the step is refused, or because the target was walked
  dsimp only [Option.bind_some] at happroach
  split at happroach
  · rename_i hrefused
    exact blocked_of_refused (refused_iff.1 hrefused) hp.inRange hdir hmove
  · rw [htag] at happroach
    dsimp only at happroach
    have hc : s.Carries tag := by
      rw [Option.some.injEq, bne_eq_false_iff_eq] at happroach
      exact happroach
    exact h tag htag hc

/-- A turn around a block keeps the end apart as well. -/
theorem CoreApart.aroundBody {a : AroundPoint} {d : Detour} {r : Detour ⊕ (Bool × PathFinder)}
    (h : CoreApart t f ptEnd (.around a d)) (hsafe : CoreSafe t ptEnd (.around a d))
    (hf : d.finder.Answers f anywhere) (hend : ptEnd.InRange)
    (hoption : hasOption d.finder.nSearchOption optionStraightway = false)
    (hr : aroundBody t a.ptTile a.nTurnDir ptEnd d = some r) :
    match r with
    | .inl d' => CoreApart t f ptEnd (.around a d')
    | .inr r => Apart t f ptEnd r.2 := by
  obtain ⟨hapart, hwalled⟩ := h
  obtain ⟨-, htile, hstraight⟩ := hsafe
  have hcounted := (counted_sameTags d.finder).toSameSearch
  have hcount := hapart.counted
  have hf' := (counted_sameMap d.finder).answers hf
  have htile' := hcounted.onTile htile
  have hwalled' := hcounted.walled hwalled
  -- a tile that is marked because it is blocked
  have hmark : ∀ {ptNext : Point} {tag : Nat} {dir : Int},
      Tried t d.finder.counted d.ptTile d.nMoveDir ptNext tag →
      Apart t f ptEnd (d.finder.counted.markTileVisited tag dir none) := by
    intro ptNext tag dir tried
    have hsame := (markTileVisited_extends d.finder.counted tag dir none).toSameSearch
    apply hcount.touch hend hsame tried.inRange tried.tag (fun _ => markTileVisited_carries.1)
      fun _ ha => ha
    rintro rfl
    exact hwalled' d.nMoveDir tag hstraight tried.move tried.tag
  have hstep : ∀ {ptNext : Point} {tag : Nat},
      Tried t d.finder.counted d.ptTile d.nMoveDir ptNext tag →
      d.finder.counted.refuses d.ptTile ptNext = some false →
      Apart t f ptEnd (d.finder.counted.stepOnto tag d.nMoveDir d.pParent 1) := by
    intro ptNext tag tried hrefuses
    have hsame := (stepOnto_extends d.finder.counted tag 1 d.nMoveDir d.pParent).toSameSearch
    have hfree := hf'.not_refused htile' tried.toAhead hrefuses
    exact hcount.touch hend hsame tried.inRange tried.tag (fun _ => stepOnto_carries.1)
      (fun _ ha => ha) fun heq => absurd heq (hwalled'.ne hstraight tried.toAhead hfree)
  cases aroundBody_turn hr with
  | stop _ => exact hcount
  | gaveUp tried _ _ => exact hmark tried
  | @turned ptNext tag tried _ _ =>
    have hsame := (markTileVisited_extends d.finder.counted tag
      (turnDir d.nMoveDir a.nTurnDir.other) none).toSameSearch
    exact ⟨hmark tried, hsame.walled hwalled'⟩
  | arrived tried hrefuses _ => exact hstep tried hrefuses
  | @walked ptNext ptAround tag _ _ tried hrefuses hover _ _ _ =>
    have hsame := (stepOnto_extends d.finder.counted tag 1 d.nMoveDir d.pParent).toSameSearch
    have hnext := hstep tried hrefuses
    have happroach : (d.finder.counted.stepOnto tag d.nMoveDir d.pParent 1).isCanApproach t ptNext
        ptEnd = some false := by
      have hkept : (d.finder.counted.stepOnto tag d.nMoveDir d.pParent 1).nSearchOption =
          d.finder.nSearchOption := rfl
      unfold detourOver at hover
      rw [hkept, if_neg (Bool.eq_false_iff.1 hoption)] at hover
      exact hover
    exact ⟨hnext, hnext.untaken.walled hf (hsame.onTile tried.toAhead.onTile) hend happroach⟩

/-- Every transition keeps the invariant. -/
theorem CoreStep.apart {c c' : CorePoint} (h : CoreStep t ptEnd c c') (hc : CoreApart t f ptEnd c)
    (hsafe : CoreSafe t ptEnd c) (hf : c.finder.Answers f anywhere) (hend : ptEnd.InRange)
    (hoption : hasOption c.finder.nSearchOption optionStraightway = false) :
    CoreApart t f ptEnd c' := by
  cases h with
  | approachAtEnd => trivial
  | approachOutside _ _ => exact hc
  | @approach p s tag hne htag =>
    -- only the tile of the call is taken into the search
    have hext := makeRoot_extends s tag
    have hcarries : ∀ i, (s.makeRoot tag).Carries i → i = tag ∨ s.Carries i := by
      intro i hi
      by_cases hold : s.Carries tag
      · rw [makeRoot_of_carries hold] at hi
        exact .inr hi
      · rw [makeRoot_of_not_carries hold] at hi
        exact (modifyTag_carries rfl).1 hi
    exact Apart.touch hc hend hext.toSameSearch hsafe.2.1 htag hcarries
      (fun a ha => makeRoot_aroundQueue s tag ▸ ha) fun heq => absurd heq hne
  | approachNext hr => exact hc.approachBody hsafe hend hr
  | approachTrue _ => trivial
  | approachFalse hr => exact hc.approachBody hsafe hend hr
  | @around s a queue hqueue =>
    have hsame := setAroundQueue_sameTags s queue
    have hwalled := hc.queue a (hqueue ▸ List.mem_cons_self)
    exact ⟨Apart.same hc hsame fun b hb => .inl (hqueue ▸ List.mem_cons_of_mem a hb),
      hsame.toSameSearch.walled hwalled⟩
  | aroundNext hr => exact hc.aroundBody hsafe hf hend hoption hr
  | @aroundTrue a d s tag hr htag =>
    have hapart := hc.aroundBody hsafe hf hend hoption hr
    unfold afterAround
    split
    · apply hapart.same (recordCorner_sameTags _ _)
      intro b hb
      rw [recordCorner_aroundQueue] at hb
      exact .inl hb
    · exact hapart
  | aroundFalse hr => exact hc.aroundBody hsafe hf hend hoption hr
  | exhausted _ => trivial

/-- A detour without the straight-way option steps onto the target, from where `GetDir` has no
    direction to it. -/
def OntoTarget (t : Params) (f : Point → Bool) (ptEnd : Point) (d : Detour) : Prop :=
  hasOption d.finder.nSearchOption optionStraightway = false ∧ ∃ tag, Lands t f d ptEnd tag

/-- On tags without the number of the search no detour does. -/
theorem CoreReach.not_ontoTarget (hf : s.Answers f anywhere) (hstart : ptStart.InRange)
    (hend : ptEnd.InRange) (hunused : Unused t s) {a : AroundPoint} {d : Detour}
    (h : CoreReach t s ptStart ptEnd (.around a d)) : ¬ OntoTarget t f ptEnd d := by
  rintro ⟨hoption, tag, lands⟩
  have hbegin : CoreBegins s (coreStart t s ptStart ptEnd) ptStart :=
    coreStart_begins s ptStart ptEnd
  -- the option is the same all through the search
  have hsame : ∀ {c : CorePoint}, CoreReach t s ptStart ptEnd c →
      c.finder.nSearchOption = s.nSearchOption := fun hc =>
    (extends_of_steps hc).nSearchOption.trans hbegin.nSearchOption
  have hoption₀ : hasOption s.nSearchOption optionStraightway = false :=
    (congrArg (hasOption · optionStraightway) (hsame h)).symm.trans hoption
  -- at the start no tile is taken and the queue is empty
  have hinit : CoreApart t f ptEnd (.call ptStart (coreStart t s ptStart ptEnd)) := by
    constructor
    · exact fun i hi hc => absurd hc (hbegin.not_carries hunused (getTileTag_lt hi))
    · intro b hb
      rw [hbegin.aroundQueue] at hb
      exact nomatch hb
  have hall : ∀ c, CoreReach t s ptStart ptEnd c → CoreApart t f ptEnd c := by
    intro c hc
    induction hc with
    | refl => exact hinit
    | tail hsteps hstep ih =>
      exact hstep.apart ih (CoreReach.safe hstart hsteps) ((CoreReach.sameMap hsteps).answers hf)
        hend
        ((congrArg (hasOption · optionStraightway) (hsame hsteps)).trans hoption₀)
  -- so a free tile a straight step away is not the target
  obtain ⟨-, -, hstraight⟩ := h.safe hstart
  have hwalled := (counted_sameTags d.finder).toSameSearch.walled (hall _ h).2
  exact hwalled.ne hstraight lands.toAhead lands.free rfl

/-! ## FindPath -/

/-- Every search of a call begins on tags without its number. -/
theorem Searches.unused {s₁ : PathFinder} {p p' : Point} (h : Searches t q s s₁ p p')
    (hfresh : Fresh t s 5) : Unused t s₁ := by
  have hstage : ∀ {k : Nat} {b : Search}, Stage t q s k b → k ≤ 4 → Unused t b.finder :=
    fun hb hk => (hb.fresh (by decide) (by decide) hfresh).unused (by omega)
  cases h with
  | first _ => exact hstage .first (by decide)
  | forward _ hb _ => exact hstage hb (by decide)
  | reverse _ hb hk _ => exact hstage hb (by omega)
  | nearest _ hb _ _ => exact hstage hb (by decide)

/-- A search runs between the ends of the query. -/
theorem Searches.ends {P : Point → Prop} {s₁ : PathFinder} {p p' : Point}
    (h : Searches t q s s₁ p p') (hstart : P q.ptStart) (hend : P q.ptEnd) : P p ∧ P p' := by
  cases h with
  | reverse _ _ _ _ => exact ⟨hend, hstart⟩
  | _ => exact ⟨hstart, hend⟩

/-- A search on tags without its number returns. -/
theorem findPathCore_fresh_returns (hf : s.Answers f True) (hstart : ptStart.InRange)
    (hend : ptEnd.InRange) (hunused : Unused t s) :
    ∃ r, findPathCore t s ptStart ptEnd = some r := by
  apply findPathCore_returns hstart hf (.inl trivial)
  intro a d hreach ptNext tag lands
  constructor
  · rintro hoption rfl
    exact hreach.not_ontoTarget hf hstart hend hunused ⟨hoption, tag, lands⟩
  · exact fun _ _ _ => .inl trivial

/-- On tags without the numbers of its searches `FindPath` returns: every direction that
    `MoveNext` is given is one of the eight, a detour that succeeded has a nearest tile, and the
    start that a reversed search is linked to has a tag. -/
theorem findPath_returns (t : Params) (f : Point → Bool) (s : PathFinder) (q : Query)
    (hf : s.Pure f) (hfresh : Fresh t s 5) (hstart : q.ptStart.InRange) (hend : q.ptEnd.InRange) :
    ∃ r, findPath t s q = some r := by
  apply findPath_returns_of_core hf.answers hstart hend
  intro s₁ p p' hsearch
  obtain ⟨hp, hp'⟩ := hsearch.ends hstart hend
  exact findPathCore_fresh_returns (hsearch.keeps.1.answers hf.answers) hp hp'
    (hsearch.unused hfresh)

/-- Around a wall of two tiles, with every option but A*. -/
theorem findPath_returns_wall :
    ∃ r, findPath smallParams (smallMap [⟨1, 1⟩, ⟨1, 2⟩]) ⟨⟨0, 1⟩, ⟨3, 1⟩, 7, 16⟩ = some r :=
  findPath_returns smallParams (blockedAt [⟨1, 1⟩, ⟨1, 2⟩]) (smallMap [⟨1, 1⟩, ⟨1, 2⟩])
    ⟨⟨0, 1⟩, ⟨3, 1⟩, 7, 16⟩ (smallMap_pure [⟨1, 1⟩, ⟨1, 2⟩]) (new_fresh 4 4 _)
    ⟨by decide, by decide⟩ ⟨by decide, by decide⟩

end XGame3.PathFinder
