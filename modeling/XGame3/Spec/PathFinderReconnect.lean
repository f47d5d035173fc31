import Mathlib.Data.Finset.Card
import Mathlib.Data.Finset.Range
import Mathlib.Data.List.Perm.Subperm
import XGame3.Spec.PathFinderFrame

/-!
# When connecting the corners keeps the path

`ConnectDirect` gives every tile on its line the tile before it as parent.  It does so
before it has tested whether the tile can be entered, and without asking whether the line
has met one of its own ancestors.  `reparentsSafely` is the test it leaves out; where the
lines pass it, the tiles walked by the search stay walked.

Key results:
- `Walked.reparent` / `Walked.beside`: the two ways a re-parented tile does no harm
- `connectCorners_returns`: connecting the corners never faults
- `connectCorners_chain`: where every line is safe, the parents of the nearest tile still
  lead back to the start by legal moves
-/

namespace XGame3.PathFinder

open FixedInt ParentChain

variable {t : Params} {s s' : PathFinder} {f : Point → Bool} {anywhere : Prop}
  {ptStart ptEnd : Point}

/-! ## The test that is left out -/

/-- The tags of a tile and its ancestors. -/
def ancestors (t : Params) (s : PathFinder) (tag : Option Nat) : List Nat :=
  follow s.parents (t.maxSearchArea * t.maxSearchArea) tag

/-- The next tile of a line is not touched yet, or it is no ancestor of the tile the line stands on
    and no free tile behind a corner. -/
def reparentsSafely (t : Params) (f : Point → Bool) (ptEnd : Point) (w : Walk) : Bool :=
  let s := w.finder.counted
  match moveNext w.ptTile (getDir w.ptTile ptEnd) with
  | none => true
  | some ptNext =>
    match s.getTileTag t ptNext with
    | none => true
    | some pCurrent =>
      s.nStepCount > s.nMaxStep || !decide (s.Carries pCurrent) ||
        (!(ancestors t s w.pParent).contains pCurrent &&
          (decide (Blocked f ptNext) || !decide (CutsCorner f w.ptTile ptNext)))

/-- The line of a call of `ConnectDirect` from a tile with the given tag, for `n` iterations. -/
def lineSafe (t : Params) (f : Point → Bool) (ptEnd : Point) : Nat → Walk → Bool
  | 0, _ => true
  | n + 1, w =>
    reparentsSafely t f ptEnd w &&
      match connectBody t ptEnd w with
      | some (.inl w') => lineSafe t f ptEnd n w'
      | _ => true

/-- A call of `ConnectDirect`. -/
def directSafe (t : Params) (f : Point → Bool) (s : PathFinder) (ptStart ptEnd : Point) : Bool :=
  decide (ptStart = ptEnd) ||
    match s.getTileTag t ptStart with
    | none => true
    | some pParent =>
      lineSafe t f ptEnd (s.makeRoot pParent).stepsLeft ⟨s.makeRoot pParent, ptStart, some pParent⟩

/-- The calls of `ConnectDirect` that `ConnectCorners` makes. -/
def cornersSafe (t : Params) (f : Point → Bool) : Nat → PathFinder → Point → Nat → Bool
  | 0, _, _, _ => true
  | left + 1, s, ptConnect, dwVisited =>
    match s.nextCorner dwVisited with
    | (none, _) => true
    | (some index, dwMinCorner) =>
      directSafe t f s ptConnect (s.corners index) &&
        match s.connectDirect t ptConnect (s.corners index) with
        | none => true
        | some r => cornersSafe t f left r.2 (s.corners index) dwMinCorner

/-! ## Tiles that stay walked -/

/-- A list of different tags of the window is no longer than the window. -/
theorem nodup_length_le {l : List Nat} {n : Nat} (hnodup : l.Nodup) (hlt : ∀ i ∈ l, i < n) :
    l.length ≤ n := by
  have hsub : l ⊆ List.range n := fun i hi => List.mem_range.2 (hlt i hi)
  have hle := (List.subperm_of_subset hnodup hsub).length_le
  rwa [List.length_range] at hle

/-- The ancestors of a walked tile are the tiles of its chain. -/
theorem ancestors_eq {root tag : Nat} {l : List Nat}
    (hroot : s.getTileTag t s.ptStart = some root)
    (hl : Rooted s.parents (Link t f s) root tag l) : ancestors t s (some tag) = l := by
  have hlt : ∀ i ∈ l, i < t.maxSearchArea * t.maxSearchArea := by
    have hwindow := getTileTag_lt hroot
    clear hroot
    induction hl with
    | root _ =>
      intro i hi
      exact List.mem_singleton.1 hi ▸ hwindow
    | step _ hlink _ ih =>
      intro i hi
      cases List.mem_cons.1 hi with
      | inl heq => exact heq ▸ getTileTag_lt hlink.placed.tag
      | inr hmem => exact ih i hmem
  exact follow_trail hl.trail (nodup_length_le hl.nodup hlt)

/-- A tile that gets a walked parent by a legal move is walked, and so is all that was, unless the
    parent hangs from it. -/
theorem Walked.reparent {tag parent : Nat} (h : Walked t f s parent)
    (hrep : Reparented s s' tag parent) (hnot : tag ∉ ancestors t s (some parent))
    (hlink : Link t f s parent tag) :
    Walked t f s' tag ∧ ∀ i, Walked t f s i → Walked t f s' i := by
  obtain ⟨root, l, hroot, hl, hcarries⟩ := h
  rw [ancestors_eq hroot hl] at hnot
  have hroot' : s'.getTileTag t s'.ptStart = some root := by
    rw [hrep.ptStart, hrep.toSameSearch.getTileTag]
    exact hroot
  have hnew : s'.parents tag = some parent := (hrep.parent tag).trans (if_pos rfl)
  have hold : ∀ c, c ≠ tag → s'.parents c = s.parents c := fun c hc =>
    (hrep.parent c).trans (if_neg hc)
  have hlinks : ∀ p a, Link t f s p a → Link t f s' p a := fun _ _ => hrep.toSameSearch.link
  have hcarried : ∀ i, s.Carries i → s'.Carries i := fun i hi => (hrep.carries i).2 (.inr hi)
  constructor
  · -- the chain of the new parent does not pass through the tile
    have hkept : Rooted s'.parents (Link t f s') root parent l :=
      hl.congr (fun c hc => hold c fun heq => hnot (heq ▸ hc)) hlinks
    refine ⟨root, tag :: l, hroot', .step hnew (hlinks _ _ hlink) hkept, ?_⟩
    intro i hi
    cases List.mem_cons.1 hi with
    | inl heq => exact (hrep.carries i).2 (.inl heq)
    | inr hmem => exact hcarried i (hcarries i hmem)
  · -- a chain through the tile goes on along that of the new parent
    intro i ⟨root₂, l₂, hroot₂, hl₂, hcarries₂⟩
    obtain rfl := Option.some.inj (hroot.symm.trans hroot₂)
    obtain ⟨l₃, hl₃, hsub⟩ := hl₂.reparent hl hnot hlink hnew hold
    refine ⟨root, l₃, hroot', hl₃.congr (fun _ _ => rfl) hlinks, ?_⟩
    intro j hj
    exact hcarried j ((hsub j hj).elim (hcarries₂ j) (hcarries j))

/-- A tile that is no ancestor of any walked one may get any parent. -/
theorem Walked.beside {tag parent i : Nat} (h : Walked t f s i)
    (hrep : Reparented s s' tag parent)
    (hoff : ∀ root l, s.getTileTag t s.ptStart = some root →
      Rooted s.parents (Link t f s) root i l → (∀ j ∈ l, s.Carries j) → tag ∉ l) :
    Walked t f s' i := by
  obtain ⟨root, l, hroot, hl, hcarries⟩ := h
  have hroot' : s'.getTileTag t s'.ptStart = some root := by
    rw [hrep.ptStart, hrep.toSameSearch.getTileTag]
    exact hroot
  refine ⟨root, l, hroot', hl.congr ?_ fun _ _ => hrep.toSameSearch.link, ?_⟩
  · intro c hc
    have hne : c ≠ tag := fun heq => hoff root l hroot hl hcarries (heq ▸ hc)
    exact (hrep.parent c).trans (if_neg hne)
  · exact fun j hj => (hrep.carries j).2 (.inr (hcarries j hj))

/-- On a walked chain every tile but the root is free. -/
theorem free_of_mem {root tag i : Nat} {l : List Nat}
    (hl : Rooted s.parents (Link t f s) root tag l) (hi : i ∈ l) :
    i = root ∨ ¬ Blocked f (s.tileToPoint t i) := by
  induction hl with
  | root _ => exact .inl (List.mem_singleton.1 hi)
  | step _ hlink _ ih =>
    cases List.mem_cons.1 hi with
    | inl heq => exact .inr (heq ▸ hlink.free)
    | inr hmem => exact ih hmem

/-! ## A line of ConnectDirect -/

/-- The places that lines begin at, and the nearest tile, are walked. -/
structure Intact (t : Params) (f : Point → Bool) (s : PathFinder) : Prop where
  pure : s.Pure f
  nearest : ∀ i, s.pNearestTile = some i → Walked t f s i
  anchors : ∀ p, Anchor s p → p.InRange ∧ ∃ tag, s.getTileTag t p = some tag ∧ Walked t f s tag

/-- A step that leaves walked tiles walked. -/
theorem Intact.kept (h : Intact t f s) (hkept : Kept s s')
    (hwalked : ∀ i, Walked t f s i → Walked t f s' i) : Intact t f s' where
  pure := hkept.toSameSearch.pure h.pure
  nearest := fun i hi => hwalked i (h.nearest i (hkept.pNearestTile ▸ hi))
  anchors := fun p hp => by
    obtain ⟨hin, tag, htag, hw⟩ := h.anchors p (hkept.anchor.1 hp)
    exact ⟨hin, tag, (hkept.toSameSearch.getTileTag _).trans htag, hwalked tag hw⟩

/-- In the loop of `ConnectDirect`, standing on a walked tile. -/
structure LineInv (t : Params) (f : Point → Bool) (w : Walk) : Prop where
  intact : Intact t f w.finder
  inRange : w.ptTile.InRange
  stands : ∃ parent, w.pParent = some parent ∧ w.finder.getTileTag t w.ptTile = some parent ∧
    Walked t f w.finder parent

/-- What the test says about the tile ahead. -/
theorem reparentsSafely_ahead {w : Walk} {ptNext : Point} {tag : Nat}
    (h : reparentsSafely t f ptEnd w = true)
    (hcount : w.finder.counted.nStepCount ≤ w.finder.counted.nMaxStep)
    (ahead : Ahead t w.finder.counted w.ptTile (getDir w.ptTile ptEnd) ptNext tag)
    (hc : w.finder.counted.Carries tag) :
    tag ∉ ancestors t w.finder.counted w.pParent ∧
      (Blocked f ptNext ∨ ¬ CutsCorner f w.ptTile ptNext) := by
  have hle : ¬ w.finder.counted.nMaxStep < w.finder.counted.nStepCount := by omega
  unfold reparentsSafely at h
  rw [ahead.move] at h
  dsimp only at h
  rw [ahead.tag] at h
  simpa [hle, hc] using h

/-- A touched tile that is refused is off every walked chain. -/
theorem Walked.off {w : Walk} {ptNext : Point} {tag parent root i : Nat} {l : List Nat}
    (hparent : Walked t f w.finder.counted parent) (hp : w.pParent = some parent)
    (hsafe : w.finder.counted.Carries tag →
      tag ∉ ancestors t w.finder.counted w.pParent ∧
        (Blocked f ptNext ∨ ¬ CutsCorner f w.ptTile ptNext))
    (ahead : Ahead t w.finder.counted w.ptTile (getDir w.ptTile ptEnd) ptNext tag)
    (hrefused : Refused f w.ptTile ptNext)
    (hroot : w.finder.counted.getTileTag t w.finder.counted.ptStart = some root)
    (hl : Rooted w.finder.counted.parents (Link t f w.finder.counted) root i l)
    (hcarries : ∀ j ∈ l, w.finder.counted.Carries j) : tag ∉ l := by
  intro hmem
  obtain ⟨hnot, hcorner⟩ := hsafe (hcarries tag hmem)
  have hb : Blocked f ptNext := hrefused.elim id fun hc => hcorner.resolve_right (not_not.2 hc)
  rw [← tileToPoint_getTileTag ahead.inRange ahead.tag] at hb
  -- the only blocked tile of a chain is its root, which the line hangs from
  cases free_of_mem hl hmem with
  | inl heq =>
    subst heq
    obtain ⟨root, l₁, hroot₁, hl₁, -⟩ := hparent
    obtain rfl := Option.some.inj (hroot.symm.trans hroot₁)
    rw [hp, ancestors_eq hroot hl₁] at hnot
    exact hnot hl₁.of_root.2
  | inr hfree => exact hfree hb

/-- One iteration of a safe line. -/
theorem LineInv.step {w : Walk} {r : Walk ⊕ (Bool × PathFinder)} (h : LineInv t f w)
    (hsafe : reparentsSafely t f ptEnd w = true) (hr : connectBody t ptEnd w = some r) :
    match r with
    | .inl w' => LineInv t f w'
    | .inr r => Intact t f r.2 := by
  obtain ⟨parent, hp, hpoint, hw⟩ := h.stands
  have hkept := connectBody_kept hr
  have hsame := (counted_sameTags w.finder).toExtends
  have hcounted : ∀ i, Walked t f w.finder i → Walked t f w.finder.counted i := fun i hi =>
    hi.extends hsame
  have hparent := hcounted parent hw
  by_cases hcount : w.finder.counted.nStepCount ≤ w.finder.counted.nMaxStep
  · have hahead := fun {q : Point} {tag : Nat} =>
      @reparentsSafely_ahead t f ptEnd w q tag hsafe hcount
    -- a step onto a tile that may be entered
    have hentered : ∀ {q : Point} {tag : Nat} {s' : PathFinder},
        Ahead t w.finder.counted w.ptTile (getDir w.ptTile ptEnd) q tag →
        ¬ Refused f w.ptTile q → Reparented w.finder.counted s' tag parent →
        Walked t f s' tag ∧ ∀ i, Walked t f w.finder i → Walked t f s' i := by
      intro q tag s' ahead hfree hrep
      have hlink := ahead.link h.inRange hpoint hfree
      have hnot : tag ∉ ancestors t w.finder.counted (some parent) := by
        by_cases hc : w.finder.counted.Carries tag
        · exact hp ▸ (hahead ahead hc).1
        · -- a tile that is not touched yet is no ancestor
          obtain ⟨root, l, hroot, hl, hcarries⟩ := hparent
          rw [ancestors_eq hroot hl]
          exact fun hmem => hc (hcarries tag hmem)
      have hboth := hparent.reparent hrep hnot hlink
      exact ⟨hboth.1, fun i hi => hboth.2 i (hcounted i hi)⟩
    cases connectBody_step h.intact.pure h.inRange hp hr with
    | stop => exact h.intact.kept hkept hcounted
    | @refused q tag s' ahead hrefused hs' =>
      cases hs' with
      | inl heq =>
        subst heq
        exact h.intact.kept hkept hcounted
      | inr hrep =>
        -- the line ends at a refused tile that has got a new parent, but off every chain
        apply h.intact.kept hkept
        intro i hi
        exact (hcounted i hi).beside hrep.2 fun root l hroot hl hcarries =>
          hparent.off hp (hahead ahead) ahead hrefused hroot hl hcarries
    | arrived ahead hfree hrep => exact h.intact.kept hkept (hentered ahead hfree hrep).2
    | @walked q tag s' ahead hfree hrep =>
      have hboth := hentered ahead hfree hrep
      have hstands : s'.getTileTag t q = some tag :=
        (hrep.toSameSearch.getTileTag q).trans ahead.tag
      exact ⟨h.intact.kept hkept hboth.2, ahead.inRange, tag, rfl, hstands, hboth.1⟩
  · -- the step budget is used up
    have hstop : connectBody t ptEnd w = some (.inr (false, w.finder.counted)) := if_neg hcount
    obtain rfl := Option.some.inj (hstop.symm.trans hr)
    exact h.intact.kept hkept hcounted

/-- A safe line, for any number of iterations. -/
theorem LineInv.run {n : Nat} {w : Walk} {r : Bool × PathFinder} (h : LineInv t f w)
    (hsafe : lineSafe t f ptEnd n w = true)
    (hr : Loop.run (connectBody t ptEnd) n w = some (.inr r)) : Intact t f r.2 := by
  induction n generalizing w with
  | zero => exact nomatch hr
  | succ n ih =>
    simp only [lineSafe, Bool.and_eq_true] at hsafe
    obtain ⟨hstep, hrest⟩ := hsafe
    cases Loop.cases_of_run_inr hr with
    | inl hb => exact h.step hstep hb
    | inr hwent =>
      obtain ⟨w', hb, hr⟩ := hwent
      rw [hb] at hrest
      exact ih (h.step hstep hb) hrest hr

/-- A safe call of `ConnectDirect`. -/
theorem Intact.direct {p : Point} {r : Bool × PathFinder} (h : Intact t f s) (hp : Anchor s p)
    (hsafe : directSafe t f s p ptEnd = true) (hr : connectDirect t s p ptEnd = some r) :
    Intact t f r.2 := by
  obtain ⟨hin, tag, htag, hw⟩ := h.anchors p hp
  unfold connectDirect at hr
  unfold directSafe at hsafe
  split at hr
  · obtain rfl := Option.some.inj hr
    exact h
  · rename_i hne
    rw [htag] at hr hsafe
    dsimp only at hr hsafe
    rw [decide_eq_false hne, Bool.false_or] at hsafe
    rw [makeRoot_of_carries hw.carries] at hr hsafe
    have hbegin : LineInv t f ⟨s, p, some tag⟩ := ⟨h, hin, tag, rfl, htag, hw⟩
    exact hbegin.run hsafe (loopResult_eq_some hr)

/-! ## The calls return -/

/-- What the loop of `ConnectDirect` needs to go on without a fault. -/
structure CanConnect (f : Point → Bool) (anywhere : Prop) (ptEnd : Point) (w : Walk) : Prop where
  answers : w.finder.Answers f anywhere
  inRange : w.ptTile.InRange
  askable : w.finder.Askable anywhere w.ptTile
  ne : w.ptTile ≠ ptEnd

/-- An iteration returns, and one that goes on has counted a step. -/
theorem CanConnect.returns {w : Walk} (h : CanConnect f anywhere ptEnd w) :
    ∃ r, connectBody t ptEnd w = some r ∧ ∀ w', r = .inl w' → CanConnect f anywhere ptEnd w' ∧
      (w'.finder.nMaxStep - w'.finder.nStepCount).toNat <
        (w.finder.nMaxStep - w.finder.nStepCount).toNat := by
  have hleft : ∀ {r : Bool × PathFinder} {w' : Walk} {p : Prop},
      (.inr r : Walk ⊕ _) = .inl w' → p :=
    fun heq => nomatch heq
  unfold connectBody
  dsimp only
  by_cases hcount : w.finder.counted.nStepCount ≤ w.finder.counted.nMaxStep
  · have hmove := moveNext_getDir_eq h.ne
    have hin := moveNext_inRange hmove
    rw [if_pos hcount, hmove]
    dsimp only [Option.bind_some, bind]
    split
    · exact ⟨_, rfl, fun _ => hleft⟩
    · rename_i tag htag
      -- whichever way the parent is handled, the map and the counter are the same
      have hfirst : ∀ s₁, s₁ = (if (w.finder.counted.tileTags tag).nFindID = w.finder.counted.nFind
            then w.finder.counted.modifyTag tag fun old => { old with pParent := w.pParent }
            else w.finder.counted) →
          SameMap w.finder s₁ ∧ s₁.nStepCount = w.finder.nStepCount + 1 ∧
            s₁.nMaxStep = w.finder.nMaxStep := by
        rintro s₁ rfl
        split <;> exact ⟨⟨rfl, rfl, rfl⟩, rfl, rfl⟩
      generalize (if (w.finder.counted.tileTags tag).nFindID = w.finder.counted.nFind
            then w.finder.counted.modifyTag tag fun old => { old with pParent := w.pParent }
            else w.finder.counted) = s₁ at hfirst ⊢
      obtain ⟨hmap, hstep, hmax⟩ := hfirst s₁ rfl
      have hf₁ : s₁.Answers f anywhere := hmap.answers h.answers
      have hnext : s₁.Askable anywhere _ := hmap.askable (onMap_of_getTileTag hin htag).askable
      rw [hf₁.isBevelBlock h.inRange hin (hmap.askable h.askable) hnext, hf₁ _ hnext]
      dsimp only [Option.bind_some]
      split
      · exact ⟨_, rfl, fun _ => hleft⟩
      · split
        · exact ⟨_, rfl, fun _ => hleft⟩
        · rename_i hne
          refine ⟨_, rfl, ?_⟩
          intro w' hw'
          obtain rfl := Sum.inl.inj hw'
          have hle : w.finder.nStepCount + 1 ≤ w.finder.nMaxStep := hcount
          have hmark : SameMap s₁ ((s₁.markTileVisited tag (getDir w.ptTile ptEnd)
              w.pParent).modifyTag tag fun old => { old with bAround := 0 }) := ⟨rfl, rfl, rfl⟩
          refine ⟨⟨hmark.answers hf₁, hin, hmark.askable hnext, hne⟩, ?_⟩
          change (s₁.nMaxStep - s₁.nStepCount).toNat < _
          omega
  · rw [if_neg hcount]
    exact ⟨_, rfl, fun _ => hleft⟩

/-- `ConnectDirect` returns. -/
theorem connectDirect_returns {p : Point} (hf : s.Answers f anywhere) (hp : p.InRange) :
    ∃ r, connectDirect t s p ptEnd = some r := by
  unfold connectDirect
  split
  · exact ⟨_, rfl⟩
  · rename_i hne
    split
    · exact ⟨_, rfl⟩
    · rename_i tag htag
      dsimp only
      have hmap : SameMap s (s.makeRoot tag) := .kept (makeRoot_kept s tag)
      have hbegin : CanConnect f anywhere ptEnd ⟨s.makeRoot tag, p, some tag⟩ :=
        ⟨hmap.answers hf, hp, hmap.askable (onMap_of_getTileTag hp htag).askable, hne⟩
      -- the steps that are left are the measure
      have hreturns : ∃ r, Loop.run (connectBody t ptEnd) (s.makeRoot tag).stepsLeft
          ⟨s.makeRoot tag, p, some tag⟩ = some (.inr r) :=
        Loop.run_returns (fun w => (w.finder.nMaxStep - w.finder.nStepCount).toNat)
          (fun _ hw => hw.returns) hbegin (Nat.lt_succ_self _)
      obtain ⟨r, hrun⟩ := hreturns
      exact ⟨r, congrArg loopResult hrun⟩

/-- The corners that are not yet visited. -/
def cornersLeft (s : PathFinder) (dwVisited : Nat) : Nat :=
  ((Finset.range 4).filter fun i => dwVisited < s.nCornerFlag i).card

theorem cornersLeft_lt {dwVisited index flag : Nat}
    (h : s.nextCorner dwVisited = (some index, flag)) :
    s.cornersLeft flag < s.cornersLeft dwVisited := by
  obtain ⟨hlt, hflag, hvisited, -⟩ := nextCorner_spec h
  apply Finset.card_lt_card
  constructor
  · intro i hi
    simp only [Finset.mem_filter] at hi ⊢
    exact ⟨hi.1, Nat.lt_trans hvisited hi.2⟩
  · intro hsub
    have hmem : index ∈ (Finset.range 4).filter fun i => dwVisited < s.nCornerFlag i :=
      Finset.mem_filter.2 ⟨Finset.mem_range.2 hlt, hflag.symm ▸ hvisited⟩
    have hself := (Finset.mem_filter.1 (hsub hmem)).2
    rw [hflag] at hself
    exact Nat.lt_irrefl _ hself

theorem connectFrom_returns {left dwVisited : Nat} {p : Point} (hf : s.Answers f anywhere)
    (hp : p.InRange)
    (hcorners : ∀ i, s.nCornerFlag i < invalidCornerFlag → (s.corners i).InRange)
    (hleft : s.cornersLeft dwVisited < left) :
    ∃ s', connectFrom t left s p dwVisited = some s' := by
  induction left generalizing s p dwVisited with
  | zero => omega
  | succ left ih =>
    unfold connectFrom
    split
    · exact ⟨s, rfl⟩
    · rename_i index dwMinCorner hcorner
      have hin := hcorners index (nextCorner_recorded hcorner)
      have hreturns : ∃ r, connectDirect t s p (s.corners index) = some r :=
        connectDirect_returns hf hp
      obtain ⟨r, hr⟩ := hreturns
      have hkept := connectDirect_kept hr
      -- the corners with a larger flag grow fewer, and `ConnectDirect` changes no flag
      have hless := cornersLeft_lt hcorner
      have hsame : r.2.cornersLeft dwMinCorner = s.cornersLeft dwMinCorner := by
        unfold cornersLeft
        rw [hkept.flags]
      rw [hr]
      apply ih ((SameMap.kept hkept).answers hf) hin
      · rw [hkept.flags, hkept.corners]
        exact hcorners
      · omega

/-- `ConnectCorners` returns. -/
theorem connectCorners_returns (hf : s.Answers f anywhere) (hp : ptStart.InRange)
    (hcorners : ∀ i, s.nCornerFlag i < invalidCornerFlag → (s.corners i).InRange) :
    ∃ s', connectCorners t s ptStart = some s' := by
  have hle : s.cornersLeft 0 ≤ (Finset.range 4).card := Finset.card_filter_le _ _
  rw [Finset.card_range] at hle
  exact connectFrom_returns hf hp hcorners (by omega)

/-! ## Connecting the corners -/

theorem Intact.from {left dwVisited : Nat} {p : Point} (h : Intact t f s) (hp : Anchor s p)
    (hsafe : cornersSafe t f left s p dwVisited = true)
    (hr : connectFrom t left s p dwVisited = some s') : Intact t f s' := by
  induction left generalizing s p dwVisited with
  | zero => exact nomatch hr
  | succ left ih =>
    unfold connectFrom at hr
    unfold cornersSafe at hsafe
    split at hr
    · obtain rfl := Option.some.inj hr
      exact h
    -- a line to the next corner, and from there on
    · rename_i index dwMinCorner hcorner
      obtain ⟨r, hdirect, hr⟩ := Option.bind_eq_some_iff.1 hr
      rw [hcorner] at hsafe
      simp only [hdirect, Bool.and_eq_true] at hsafe
      have hanchor : Anchor r.2 (s.corners index) :=
        (connectDirect_kept hdirect).anchor.2 (.inr ⟨index, nextCorner_recorded hcorner, rfl⟩)
      exact ih (h.direct hp hsafe.1 hdirect) hanchor hsafe.2 hr

/-- After a successful search with the optimise option, where no line re-parents a touched tile that
    is an ancestor of the tile the line stands on or a free tile behind a corner, `ConnectCorners`
    returns and the parents of the nearest tile lead back to the start by legal moves. -/
theorem connectCorners_chain (t : Params) (f : Point → Bool) (s s₁ : PathFinder)
    (ptStart ptEnd : Point) (tag : Nat) (hf : s.Pure f) (hstart : ptStart.InRange)
    (hunused : Unused t s) (hopt : hasOption s.nSearchOption optionOptimize = true)
    (hsearch : findPathCore t s ptStart ptEnd = some (true, s₁))
    (hnearest : s₁.pNearestTile = some tag) (hsafe : cornersSafe t f 5 s₁ ptStart 0 = true) :
    ∃ s₂, connectCorners t s₁ ptStart = some s₂ ∧ s₂.pNearestTile = some tag ∧
      ParentChain t f s₂ ptStart tag := by
  have hsearched := findPathCore_searched hf hstart hunused hsearch
  have hpure : s₁.Pure f := hsearched.forest.pure
  -- what the search left is intact
  have hintact : Intact t f s₁ :=
    ⟨hpure, hsearched.forest.nearest, hsearched.anchors hopt hnearest⟩
  obtain ⟨s₂, hr⟩ := connectCorners_returns (t := t) hpure.answers hstart
    fun i hi => (hsearched.corners hopt i hi).1
  have hkept := connectFrom_kept hr
  have hnear : s₂.pNearestTile = some tag := hkept.pNearestTile.trans hnearest
  have hpoint : s₂.ptStart = ptStart := hkept.ptStart.trans hsearched.start_eq
  -- and the safe lines keep it so
  have hdone := hintact.from (.inl hsearched.start_eq.symm) hsafe hr
  exact ⟨s₂, hr, hnear, hpoint ▸ (hdone.nearest tag hnear).parentChain⟩

/-- A small map with the optimise option. -/
def optimizing (tiles : List Point) : PathFinder :=
  { smallMap tiles with nSearchOption := optionOptimize }

/-- Past a single block, where the first step of the way is straightened. -/
theorem connectCorners_chain_block : ∃ s₁ s₂,
    findPathCore smallParams (optimizing [⟨2, 1⟩]) ⟨0, 1⟩ ⟨3, 1⟩ = some (true, s₁) ∧
    connectCorners smallParams s₁ ⟨0, 1⟩ = some s₂ ∧
    ParentChain smallParams (blockedAt [⟨2, 1⟩]) s₂ ⟨0, 1⟩ 39 := by
  have hrun : (findPathCore smallParams (optimizing [⟨2, 1⟩]) ⟨0, 1⟩ ⟨3, 1⟩).map
      (fun r => (r.1, r.2.pNearestTile,
        cornersSafe smallParams (blockedAt [⟨2, 1⟩]) 5 r.2 ⟨0, 1⟩ 0)) =
      some (true, some 39, true) := by
    decide +kernel
  obtain ⟨⟨ret, s₁⟩, hsearch, hfields⟩ := Option.map_eq_some_iff.1 hrun
  simp only [Prod.mk.injEq] at hfields
  obtain ⟨rfl, hnearest, hsafe⟩ := hfields
  obtain ⟨s₂, hr, -, hchain⟩ := connectCorners_chain smallParams (blockedAt [⟨2, 1⟩])
    (optimizing [⟨2, 1⟩]) s₁ ⟨0, 1⟩ ⟨3, 1⟩ 39 rfl ⟨by decide, by decide⟩
    (fun _ _ h => nomatch h) (by decide) hsearch hnearest hsafe
  exact ⟨s₁, s₂, hsearch, hr, hchain⟩

/-- Past a block beside the start the line from the start cuts its corner. -/
theorem not_connectCorners_chain : ∃ s₁ s₂,
    findPathCore smallParams (optimizing [⟨1, 1⟩]) ⟨0, 1⟩ ⟨3, 1⟩ = some (true, s₁) ∧
    s₁.pNearestTile = some 39 ∧ connectCorners smallParams s₁ ⟨0, 1⟩ = some s₂ ∧
    ¬ ParentChain smallParams (blockedAt [⟨1, 1⟩]) s₂ ⟨0, 1⟩ 39 := by
  have hrun : ((findPathCore smallParams (optimizing [⟨1, 1⟩]) ⟨0, 1⟩ ⟨3, 1⟩).bind fun r =>
      (connectCorners smallParams r.2 ⟨0, 1⟩).map fun s₂ =>
        ((r.1, r.2.pNearestTile, (ancestors smallParams s₂ (some 39)).contains 29, s₂.parents 29),
          s₂.ptStart, s₂.tileToPoint smallParams 36, s₂.tileToPoint smallParams 29)) =
      some ((true, some 39, true, some 36), ⟨0, 1⟩, ⟨0, 1⟩, ⟨1, 0⟩) := by
    decide +kernel
  obtain ⟨⟨ret, s₁⟩, hsearch, hrun⟩ := Option.bind_eq_some_iff.1 hrun
  obtain ⟨s₂, hr, hfields⟩ := Option.map_eq_some_iff.1 hrun
  simp only [Prod.mk.injEq] at hfields
  obtain ⟨⟨rfl, hnearest, hmem, hparent⟩, hpoint, hroot, hchild⟩ := hfields
  -- the chain from the target runs over the link from `(0, 1)` to `(1, 0)`, across `(1, 1)`
  refine ⟨s₁, s₂, hsearch, hnearest, hr, ?_⟩
  rintro ⟨root, l, htag, hl, -⟩
  rw [ancestors_eq (hpoint.symm ▸ htag) hl, List.contains_iff_mem] at hmem
  have hlink := hl.link_of_mem hmem hparent
  have hcorner := hlink.corner
  rw [hroot, hchild] at hcorner
  exact hcorner (by decide)

end XGame3.PathFinder
