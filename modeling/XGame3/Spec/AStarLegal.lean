import XGame3.Spec.AStarLinks

/-!
# When the links of the A* search are legal moves

`FindAStar` gives a tile it knows a new parent before it tests the step between the two.
Such a tile is free, so the step can only be refused for a corner; the link then stays.

Key results:
- `linksLegal_iff`: the links are legal as long as no tile is reopened across a corner.
- `not_linksLegal`: a link across a corner.
-/

namespace XGame3.PathFinder

open FixedInt

variable {t : Params} {s s' s₁ : PathFinder} {f : Point → Bool} {ptStart ptEnd : Point}
  {root : Nat}

/-! ## Links -/

/-- The links of the tagged tiles are legal moves. -/
def LinksLegal (t : Params) (f : Point → Bool) (s : PathFinder) (ptStart : Point) : Prop :=
  ∀ root, s.getTileTag t ptStart = some root → ∀ i, Touched t s i → i ≠ root →
    ∀ p, (s.tileTags i).pParent = some p → LegalMove f (s.tileToPoint t p) (s.tileToPoint t i)

/-- The first open tile is not about to shorten the way to a tile across a corner. -/
def ReopensLegally (t : Params) (f : Point → Bool) (ptEnd : Point) (a : AStar) : Prop :=
  ∀ k p openList, a.openList = (k, p) :: openList → p ≠ ptEnd →
    a.finder.nStepCount < a.finder.nMaxStep → ∀ tag, a.finder.getTileTag t p = some tag →
    ∀ q i, Neighbour p q → q.InRange → a.finder.getTileTag t q = some i → a.finder.Carries i →
      stepOf a.finder tag + 1 < stepOf a.finder i → ¬ CutsCorner f p q

/-- Legal links are a fact about the tags. -/
theorem SameTags.linksLegal (h : SameTags s s') :
    LinksLegal t f s' ptStart ↔ LinksLegal t f s ptStart := by
  have htouched : ∀ i, Touched t s' i ↔ Touched t s i := fun i => and_congr_right fun _ => h.carries
  unfold LinksLegal
  simp only [htouched, h.toSameSearch.getTileTag, h.tileTags, h.toSameSearch.tileToPoint]

/-- The tile of a relinked tag, and how it lies to the tile it is linked to. -/
theorem Relit.tile {s₀ : PathFinder} {ptTile : Point} {pCurrent step i : Nat} {e : Expansion}
    (h : Relit t f s₀ ptTile pCurrent step e i) (hin : ptTile.InRange)
    (hcurrent : s₀.getTileTag t ptTile = some pCurrent) :
    ∃ q, s₀.getTileTag t q = some i ∧ s₀.tileToPoint t i = q ∧ q.InRange ∧ Neighbour ptTile q ∧
      (s₀.Carries i ∧ Refused f ptTile q ∨ ¬ Refused f ptTile q ∧ ∃ g ∈ e.found, g.2.2 = q) := by
  obtain ⟨dir, q, ahead, hq⟩ := h.place
  exact ⟨q, ahead.tag, tileToPoint_getTileTag ahead.inRange ahead.tag, ahead.inRange,
    ahead.near hin hcurrent, hq⟩

/-- A turn that reopens no tile across a corner keeps the links legal. -/
theorem AStarGraded.linksLegal {a a' : AStar} (h : AStarGraded t f s₁ ptStart ptEnd a)
    (hf : s₁.Pure f) (hmax : s₁.nMaxStep ≤ 65535) (hlegal : LinksLegal t f a.finder ptStart)
    (hreopen : ReopensLegally t f ptEnd a) (hbody : aStarBody t ptEnd a = some (.inl a')) :
    LinksLegal t f a'.finder ptStart := by
  have hcount := counted_sameTags a.finder
  have hlegal' : LinksLegal t f a.finder.counted ptStart := hcount.linksLegal.2 hlegal
  obtain ⟨hle, k, p, openList, hlist, hcases⟩ := aStarBody_inl hbody
  cases hcases with
  | inl hskip => exact hskip.2 ▸ hlegal'
  | inr hexpand =>
    obtain ⟨tag, e, he⟩ := hexpand
    obtain ⟨root, bound, hroot₁, -, hgraded, hin, htouched, hexp⟩ :=
      h.expansion hf hmax hle hlist he
    have hsame := hexp.same.toSameSearch
    have hroot : a.finder.counted.getTileTag t ptStart = some root :=
      (h.same.toSameSearch.getTileTag ptStart).trans hroot₁
    rw [he.next]
    intro root' hroot' i hi hne j hj
    obtain rfl := Option.some.inj (hroot.symm.trans ((hsame.getTileTag ptStart).symm.trans hroot'))
    rw [hsame.tileToPoint, hsame.tileToPoint]
    cases hexp.tag i with
    | inl hkept =>
      rw [hkept] at hj
      exact hlegal' root hroot i ⟨hi.1, (hsame.carries_congr hkept).1 hi.2⟩ hne j hj
    | inr hrelit =>
      obtain rfl := Option.some.inj (hrelit.parent.symm.trans hj)
      obtain ⟨q, htag, hpoint, hq, hnear, hplace⟩ := hrelit.tile hin he.tagged
      rw [hpoint, tileToPoint_getTileTag hin he.tagged]
      apply LegalMove.of_not_refused hnear
      cases hplace with
      | inr hfree => exact hfree.1
      | inl hold =>
        -- the tile was linked before, so it is free, and the corner is not cut either
        obtain ⟨hc, -⟩ := hold
        have hi₀ : Touched t a.finder.counted i := ⟨hi.1, hc⟩
        obtain ⟨j, hj₀, -⟩ := hgraded.graded i hi₀ hne
        have hfree := (hlegal' root hroot i hi₀ hne j hj₀).free
        rw [hpoint] at hfree
        have hcorner := hreopen k p openList hlist he.ne_end (by
          have hcounted : a.finder.counted.nStepCount = a.finder.nStepCount + 1 := rfl
          omega) tag he.tagged q i hnear hq htag hc (hrelit.longer hc)
        exact not_or.2 ⟨hfree, hcorner⟩

/-- A turn with steps left and a tile other than the target first on the list expands that tile. -/
theorem AStarGraded.expands {a : AStar} {k tag : Nat} {p : Point} {openList : List (Nat × Point)}
    (h : AStarGraded t f s₁ ptStart ptEnd a) (hf : s₁.Pure f)
    (hlist : a.openList = (k, p) :: openList) (hne : p ≠ ptEnd)
    (hlt : a.finder.nStepCount < a.finder.nMaxStep) (htag : a.finder.getTileTag t p = some tag) :
    ∃ a' e, aStarBody t ptEnd a = some (.inl a') ∧ Expands t ptEnd a a' p tag openList e := by
  have hle : a.finder.counted.nStepCount ≤ a.finder.counted.nMaxStep := hlt
  -- what is open is a tile of the 16-bit range
  have hp : p.InRange := by
    match hstart : s₁.getTileTag t ptStart with
    | none =>
      have hnone := (h.outside hstart).2 p ⟨k, hlist ▸ List.mem_cons_self⟩
      rw [← h.same.toSameSearch.getTileTag, htag] at hnone
      exact nomatch hnone
    | some root => exact (h.opened root hstart p ⟨k, hlist ▸ List.mem_cons_self⟩).1
  have hf' : a.finder.counted.Pure f := h.same.toSameSearch.pure hf
  -- so its expansion has a result
  have hexists : ∃ e, expand t p ptEnd tag (stepOf a.finder.counted tag + 1) allDirs
      ⟨a.finder.counted, a.nNearestDist, 0, 0, []⟩ = some e :=
    expand_exists hf'.answers hp (.inl trivial) (by decide)
  obtain ⟨e, hrun⟩ := hexists
  -- and the turn reads this expansion
  refine ⟨_, e, ?_, htag, hne, hrun, rfl⟩
  unfold allDirs stepOf at hrun
  unfold aStarBody
  dsimp only
  rw [if_pos hle, hlist]
  dsimp only
  rw [show a.finder.counted.getTileTag t p = some tag from htag]
  dsimp only
  rw [if_neg hne, hrun]
  rfl

/-- A tile about to be reopened across a corner has an illegal link after the turn. -/
theorem AStarGraded.reopens {a : AStar} (h : AStarGraded t f s₁ ptStart ptEnd a)
    (hf : s₁.Pure f) (hmax : s₁.nMaxStep ≤ 65535)
    (hlegal : ∀ a', aStarBody t ptEnd a = some (.inl a') → LinksLegal t f a'.finder ptStart) :
    ReopensLegally t f ptEnd a := by
  intro k p openList hlist hne hlt tag htag q i hnear hq hi hc hlonger hcut
  obtain ⟨a', e, hbody, he⟩ := h.expands hf hlist hne hlt htag
  obtain ⟨root, bound, hroot₁, -, hgraded, hin, htouched, hexp⟩ := h.expansion hf hmax hlt hlist he
  obtain ⟨dir, hdir, hmove⟩ := exists_moveNext hnear hq
  have hmem : dir ∈ allDirs.reverse := List.mem_reverse.2 (List.mem_range.2 hdir)
  have hi₀ : Touched t a.finder.counted i := ⟨getTileTag_lt hi, hc⟩
  have hroot : i ≠ root := by
    rintro rfl
    have hzero : stepOf a.finder.counted i = 0 := hgraded.begins.2.2
    change stepOf a.finder i = 0 at hzero
    omega
  cases hexp.tag i with
  | inl hkept =>
    -- then it was passed over, as the parent of the expanded tile, which counts fewer steps
    cases hexp.covered dir hmem q i ⟨hmove, hi⟩ (.inl hc) with
    | inl hparent =>
      have hne_root : tag ≠ root := by
        rintro rfl
        rw [hgraded.begins.2.1] at hparent
        exact nomatch hparent
      obtain ⟨j, hj, -, hless⟩ := hgraded.graded tag htouched hne_root
      obtain rfl := Option.some.inj (hj.symm.trans hparent)
      change stepOf a.finder j < stepOf a.finder tag at hless
      omega
    | inr hreached =>
      have hold := hreached.2
      rw [stepOf_congr hkept] at hold
      change stepOf a.finder i ≤ stepOf a.finder tag + 1 at hold
      omega
  | inr hrelit =>
    -- it was linked to the expanded tile, across the corner
    obtain ⟨q', htag', hpoint, hq', -, -⟩ := hrelit.tile hin htag
    obtain rfl := getTileTag_inj hq' hq htag' hi
    have hsame := hexp.same.toSameSearch
    have hroot' : e.finder.getTileTag t ptStart = some root :=
      (hsame.getTileTag ptStart).trans ((h.same.toSameSearch.getTileTag ptStart).trans hroot₁)
    have hlinks := hlegal a' hbody
    rw [he.next] at hlinks
    have hmove' := hlinks root hroot' i ⟨getTileTag_lt hi, hrelit.carries⟩ hroot tag
      hrelit.parent
    rw [hsame.tileToPoint, hsame.tileToPoint, hpoint, tileToPoint_getTileTag hin he.tagged]
      at hmove'
    exact hmove'.corner hcut

/-! ## Every turn -/

/-- Without a tile reopened across a corner every turn leaves legal links. -/
theorem AStarReached.linksLegal {a : AStar} (hf : s.Pure f) (hstart : ptStart.InRange)
    (hend : ptEnd.InRange) (hmax : s.nMaxStep ≤ 65535) (hunused : Unused t s)
    (hreopen : ∀ a, AStarReached t s ptStart ptEnd a → ReopensLegally t f ptEnd a)
    (h : AStarReached t s ptStart ptEnd a) : LinksLegal t f a.finder ptStart := by
  obtain ⟨n, hn⟩ := h
  induction n generalizing a with
  | zero =>
    -- before the first turn only the root is touched
    obtain rfl := Sum.inl.inj (Option.some.inj hn)
    intro root hroot i hi hne
    obtain ⟨htag, -⟩ := aStarStart_touched ptEnd hstart hunused hi
    exact absurd (Option.some.inj (htag.symm.trans hroot)) hne
  | succ n ih =>
    -- the last turn reopens legally, so its links are legal when those before are
    obtain ⟨a₁, hrun, hbody⟩ := Loop.run_succ_last hn
    have hmax₁ : (aStarStart t s ptStart ptEnd).finder.nMaxStep ≤ 65535 := by
      rw [aStarStart_nMaxStep]
      exact hmax
    exact (AStarReached.graded hf hstart hend hmax hunused ⟨n, hrun⟩).linksLegal
      (aStarStart_pure ptStart ptEnd hf) hmax₁ (ih hrun) (hreopen a₁ ⟨n, hrun⟩) hbody

/-- After every turn of the loop the links are legal if and only if no turn reopens a tile across a
    corner. -/
theorem linksLegal_iff (t : Params) (f : Point → Bool) (s : PathFinder) (ptStart ptEnd : Point)
    (hf : s.Pure f) (hstart : ptStart.InRange) (hend : ptEnd.InRange) (hmax : s.nMaxStep ≤ 65535)
    (hunused : Unused t s) :
    (∀ a, AStarReached t s ptStart ptEnd a → LinksLegal t f a.finder ptStart) ↔
      ∀ a, AStarReached t s ptStart ptEnd a → ReopensLegally t f ptEnd a := by
  have hf₁ : (aStarStart t s ptStart ptEnd).finder.Pure f := aStarStart_pure ptStart ptEnd hf
  have hmax₁ : (aStarStart t s ptStart ptEnd).finder.nMaxStep ≤ 65535 := by
    rw [aStarStart_nMaxStep]
    exact hmax
  have hnext : ∀ {a a' : AStar}, AStarReached t s ptStart ptEnd a →
      aStarBody t ptEnd a = some (.inl a') → AStarReached t s ptStart ptEnd a' := by
    intro a a' ⟨n, hn⟩ hbody
    exact ⟨n + 1, Loop.run_snoc hn hbody⟩
  constructor
  -- links that stay legal in the next turn: the turn reopened none illegally
  · intro hlegal a ha
    exact (ha.graded hf hstart hend hmax hunused).reopens hf₁ hmax₁ fun a' hbody =>
      hlegal a' (hnext ha hbody)
  · exact fun hreopen a ha => ha.linksLegal hf hstart hend hmax hunused hreopen

/-- With two blocked tiles on the map, (0, 3) is at last linked to (1, 2), across (0, 2). -/
theorem not_linksLegal :
    ∃ a, AStarReached smallParams (smallMap [⟨0, 2⟩, ⟨2, 2⟩]) ⟨3, 1⟩ ⟨0, 3⟩ a ∧
      ¬ LinksLegal smallParams (blockedAt [⟨0, 2⟩, ⟨2, 2⟩]) a.finder ⟨3, 1⟩ := by
  have hlast : (Loop.run (aStarBody smallParams ⟨0, 3⟩) 11
      (aStarStart smallParams (smallMap [⟨0, 2⟩, ⟨2, 2⟩]) ⟨3, 1⟩ ⟨0, 3⟩)).bind (Sum.elim
        (fun a => some (a.finder.getTileTag smallParams ⟨3, 1⟩, decide (a.finder.Carries 49),
          (a.finder.tileTags 49).pParent, a.finder.tileToPoint smallParams 42,
          a.finder.tileToPoint smallParams 49)) fun _ => none) =
      some (some 36, true, some 42, ⟨1, 2⟩, ⟨0, 3⟩) := by
    decide +kernel
  obtain ⟨r, hrun, hr⟩ := Option.bind_eq_some_iff.1 hlast
  cases r with
  | inr r => exact nomatch hr
  | inl a =>
    obtain ⟨hroot, hr⟩ := Prod.mk.inj (Option.some.inj hr)
    obtain ⟨hc, hr⟩ := Prod.mk.inj hr
    obtain ⟨hparent, hr⟩ := Prod.mk.inj hr
    obtain ⟨hfrom, hto⟩ := Prod.mk.inj hr
    -- the turn has reopened `(0, 3)` from `(1, 2)`, across the corner of `(0, 2)`
    apply Exists.intro a
    apply And.intro ⟨11, hrun⟩
    intro hlegal
    have hmove := hlegal 36 hroot 49 ⟨by decide, of_decide_eq_true hc⟩ (by decide) 42 hparent
    rw [hfrom, hto] at hmove
    exact hmove.corner (by decide)

/-! ## The condition on a given map -/

/-- `ReopensLegally`, tag by tag. -/
def ReopensTags (t : Params) (f : Point → Bool) (a : AStar) : Prop :=
  ∀ e ∈ a.openList.head?, ∀ tag ∈ a.finder.getTileTag t e.2,
    ∀ i < t.maxSearchArea * t.maxSearchArea, a.finder.Carries i →
      stepOf a.finder tag + 1 < stepOf a.finder i → Neighbour e.2 (a.finder.tileToPoint t i) →
      ¬ CutsCorner f e.2 (a.finder.tileToPoint t i)

instance (t : Params) (f : Point → Bool) (a : AStar) : Decidable (ReopensTags t f a) := by
  unfold ReopensTags
  infer_instance

/-- A turn that reopens nothing untested reopens legally. -/
theorem ReopensTags.reopensLegally {a : AStar} (h : ReopensTags t f a) :
    ReopensLegally t f ptEnd a := by
  intro k p openList hlist _ _ tag htag q i hnear hin hi hc hstep
  have hq : a.finder.tileToPoint t i = q := tileToPoint_getTileTag hin hi
  have htags := h (k, p) (by rw [hlist]; exact rfl) tag htag i (getTileTag_lt hi) hc hstep
  rw [hq] at htags
  exact htags hnear

/-- What holds of all states that a search passes. -/
theorem forall_aStarReached {P : AStar → Prop} {r : Bool × PathFinder}
    (h : ∀ a ∈ Loop.trace (aStarBody t ptEnd) (fun a => [a])
      (aStarStart t s ptStart ptEnd).finder.stepsLeft (aStarStart t s ptStart ptEnd), P a)
    (hfind : findAStar t s ptStart ptEnd = some r) (a : AStar)
    (ha : AStarReached t s ptStart ptEnd a) : P a := by
  obtain ⟨n, hn⟩ := ha
  have hrun : Loop.run (aStarBody t ptEnd) (aStarStart t s ptStart ptEnd).finder.stepsLeft
      (aStarStart t s ptStart ptEnd) = some (.inr r) := loopResult_eq_some hfind
  apply h
  refine Loop.mem_trace_of_run ?_ hn hrun
  exact List.mem_singleton.2 rfl

/-- Around one blocked tile, where the target is first linked to (0, 1), and then, by fewer moves,
    to (1, 2). -/
theorem linksLegal_block :
    (∃ s', findAStar smallParams (smallMap [⟨1, 1⟩]) ⟨3, 0⟩ ⟨0, 2⟩ = some (true, s')) ∧
    ∀ a, AStarReached smallParams (smallMap [⟨1, 1⟩]) ⟨3, 0⟩ ⟨0, 2⟩ a →
      LinksLegal smallParams (blockedAt [⟨1, 1⟩]) a.finder ⟨3, 0⟩ := by
  have hret : (findAStar smallParams (smallMap [⟨1, 1⟩]) ⟨3, 0⟩ ⟨0, 2⟩).map Prod.fst =
    some true := by
    decide +kernel
  obtain ⟨⟨ret, s'⟩, hfind, rfl⟩ := Option.map_eq_some_iff.1 hret
  have htags : ∀ a ∈ Loop.trace (aStarBody smallParams ⟨0, 2⟩) (fun a => [a])
      (aStarStart smallParams (smallMap [⟨1, 1⟩]) ⟨3, 0⟩ ⟨0, 2⟩).finder.stepsLeft
      (aStarStart smallParams (smallMap [⟨1, 1⟩]) ⟨3, 0⟩ ⟨0, 2⟩),
      ReopensTags smallParams (blockedAt [⟨1, 1⟩]) a := by
    decide +kernel
  constructor
  · exact ⟨s', hfind⟩
  · apply (linksLegal_iff smallParams (blockedAt [⟨1, 1⟩]) (smallMap [⟨1, 1⟩]) ⟨3, 0⟩ ⟨0, 2⟩
      (smallMap_pure _) ⟨by decide, by decide⟩ ⟨by decide, by decide⟩ (by decide)
      fun _ _ h => nomatch h).2
    exact fun a ha => (forall_aStarReached htags hfind a ha).reopensLegally

end XGame3.PathFinder
