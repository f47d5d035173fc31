import Mathlib.Data.Finset.Prod
import Mathlib.Data.Nat.Bitwise
import XGame3.Spec.PathFinderAsserts

/-!
# The wall-following search ends by its marks

Every step of a search onto a tile marks the tile with the direction it was entered in, and no
tile is entered twice in one direction.  What the search does between two marks is paid for
beforehand: a mark pays for the turns of the detour it ends, for the next call of `Approach` and
for the two detours that this call may put on the stack.

Key results:
- `CoreStep.credit_le`: no transition counts more steps than it takes from the credit
- `findPathCore_budget`: the search returns, having counted at most eight steps for each tile and
  direction of the window
-/

namespace XGame3.PathFinder

open FixedInt

variable {t : Params} {s s' : PathFinder} {f : Point → Bool} {ptStart ptEnd : Point}

/-! ## Marks -/

/-- The mark is one bit of a tag of this search. -/
theorem isTileVisited_iff {tag : Nat} {dir : Int} : s.isTileVisited tag dir = true ↔
    s.Carries tag ∧ (s.tileTags tag).nMoveDir.testBit dir.toNat = true := by
  unfold isTileVisited Carries
  rw [Bool.and_eq_true, beq_iff_eq, bne_iff_ne, Nat.one_shiftLeft, Nat.and_two_pow]
  cases (s.tileTags tag).nMoveDir.testBit dir.toNat <;> simp

/-- The marks are in the tags. -/
theorem SameTags.isTileVisited (h : SameTags s s') (tag : Nat) (dir : Int) :
    s'.isTileVisited tag dir = s.isTileVisited tag dir := by
  unfold PathFinder.isTileVisited
  rw [h.tileTags, h.nFind]

/-- A root begins without marks, as a tag of an older search has none. -/
theorem makeRoot_isTileVisited {tag i : Nat} {dir : Int} :
    (s.makeRoot tag).isTileVisited i dir = s.isTileVisited i dir := by
  by_cases hc : s.Carries tag
  · rw [makeRoot_of_carries hc]
  · rw [makeRoot_of_not_carries hc, Bool.eq_iff_iff, isTileVisited_iff, isTileVisited_iff,
      modifyTag_carries rfl, modifyTag_tileTags]
    by_cases hi : i = tag
    · -- a new root has no marks, and it had none
      subst hi
      simp [hc]
    · rw [if_neg hi]
      simp [hi]

/-- A mark adds one bit. -/
theorem markTileVisited_isTileVisited {tag i : Nat} {dir dir' : Int} {parent : Option Nat} :
    (s.markTileVisited tag dir parent).isTileVisited i dir' = true ↔
      i = tag ∧ dir'.toNat = dir.toNat ∨ s.isTileVisited i dir' = true := by
  rw [isTileVisited_iff, isTileVisited_iff, markTileVisited_carries]
  by_cases hi : i = tag
  · subst hi
    unfold markTileVisited
    rw [modifyTag_self]
    -- a mark on a tile new to the search is its only one
    split
    · rename_i hc
      have hnot : ¬ s.Carries i := hc
      simp only [hnot, false_and, or_false, true_and, Nat.one_shiftLeft, Nat.testBit_two_pow,
        decide_eq_true_iff]
      exact eq_comm
    -- on another it is added to those there
    · rename_i hc
      have hcarries : s.Carries i := not_not.1 hc
      simp only [hcarries, or_true, true_and, Nat.testBit_or, Nat.one_shiftLeft,
        Nat.testBit_two_pow, Bool.or_eq_true, decide_eq_true_iff]
      rw [or_comm, eq_comm]
  -- the other tiles keep their marks
  · unfold markTileVisited
    rw [modifyTag_tileTags, if_neg hi]
    simp [hi]

/-- A step marks as `MarkTileVisited` does. -/
theorem stepOnto_isTileVisited {tag i bAround : Nat} {dir dir' : Int} {parent : Option Nat} :
    (s.stepOnto tag dir parent bAround).isTileVisited i dir' =
      (s.markTileVisited tag dir parent).isTileVisited i dir' := by
  unfold stepOnto isTileVisited
  dsimp only
  rw [modifyTag_tileTags]
  split
  · rename_i hi
    rw [hi]
    rfl
  · rfl

/-- The tiles and directions of the window. -/
def pairs (t : Params) : Nat := t.maxSearchArea * t.maxSearchArea * 8

/-- How many of them are without a mark. -/
def unmarked (t : Params) (s : PathFinder) : Nat :=
  ((Finset.range (t.maxSearchArea * t.maxSearchArea) ×ˢ Finset.range 8).filter fun x =>
    s.isTileVisited x.1 x.2 = false).card

/-- There are no more of them than pairs. -/
theorem unmarked_le_pairs (t : Params) (s : PathFinder) : s.unmarked t ≤ pairs t := by
  have hle := Finset.card_filter_le
    (Finset.range (t.maxSearchArea * t.maxSearchArea) ×ˢ Finset.range 8) fun x =>
      s.isTileVisited x.1 x.2 = false
  rw [Finset.card_product, Finset.card_range, Finset.card_range] at hle
  exact hle

/-- They depend on the marks. -/
theorem unmarked_congr (h : ∀ tag dir, s'.isTileVisited tag dir = s.isTileVisited tag dir) :
    s'.unmarked t = s.unmarked t := by
  unfold unmarked
  simp only [h]

/-- The same tags leave the same pairs unmarked. -/
theorem SameTags.unmarked (h : SameTags s s') : s'.unmarked t = s.unmarked t :=
  unmarked_congr h.isTileVisited

/-- A mark never adds one. -/
theorem unmarked_mark_le (tag : Nat) (dir : Int) (parent : Option Nat) :
    (s.markTileVisited tag dir parent).unmarked t ≤ s.unmarked t := by
  apply Finset.card_le_card
  intro x hx
  rw [Finset.mem_filter, Bool.eq_false_iff] at hx ⊢
  exact ⟨hx.1, fun hold => hx.2 (markTileVisited_isTileVisited.2 (.inr hold))⟩

/-- A new mark. -/
theorem unmarked_stepOnto_lt {tag bAround : Nat} {dir : Int} {parent : Option Nat}
    (htag : tag < t.maxSearchArea * t.maxSearchArea) (hdir : 0 ≤ dir ∧ dir < 8)
    (hfresh : s.isTileVisited tag dir = false) :
    (s.stepOnto tag dir parent bAround).unmarked t < s.unmarked t := by
  have hnat : ((dir.toNat : Nat) : Int) = dir := Int.toNat_of_nonneg hdir.1
  have hmem : (tag, dir.toNat) ∈ (Finset.range (t.maxSearchArea * t.maxSearchArea) ×ˢ
      Finset.range 8).filter fun x => s.isTileVisited x.1 x.2 = false := by
    simp only [Finset.mem_filter, Finset.mem_product, Finset.mem_range, hnat]
    exact ⟨⟨htag, by omega⟩, hfresh⟩
  rw [unmarked_congr fun _ _ => stepOnto_isTileVisited]
  apply Finset.card_lt_card
  constructor
  -- marks are never taken back
  · intro x hx
    rw [Finset.mem_filter, Bool.eq_false_iff] at hx ⊢
    exact ⟨hx.1, fun hold => hx.2 (markTileVisited_isTileVisited.2 (.inr hold))⟩
  -- and this one is new
  · intro hsub
    have hnow := (Finset.mem_filter.1 (hsub hmem)).2
    have hmarked : (s.markTileVisited tag dir parent).isTileVisited tag (dir.toNat : Nat) = true :=
      markTileVisited_isTileVisited.2 (.inl ⟨rfl, congrArg Int.toNat hnat⟩)
    exact Bool.false_ne_true (hnow.symm.trans hmarked)

/-! ## Credit -/

/-- A call of `Approach` in a window with tiles. -/
def callCredit (t : Params) : Nat := min 7 (pairs t)

/-- In a window with tiles a call gets all seven. -/
theorem callCredit_eq {tag : Nat} (h : tag < t.maxSearchArea * t.maxSearchArea) :
    callCredit t = 7 := by
  unfold callCredit pairs
  omega

/-- The steps that may still be counted.  A detour counts up to two turns before it moves or
    stops, `Approach` counts its last step and puts two detours on the stack. -/
def credit (t : Params) : CorePoint → Nat
  | .call _ s => 7 * s.unmarked t + 3 * s.aroundQueue.length + callCredit t
  | .approach w => 7 * w.finder.unmarked t + 3 * w.finder.aroundQueue.length + 7
  | .drain s => 7 * s.unmarked t + 3 * s.aroundQueue.length
  | .around _ d => 7 * d.finder.unmarked t + 3 * d.finder.aroundQueue.length +
      (1 + (2 - d.nContinueTurn))
  | .done _ _ => 0

/-- Counting a step marks nothing. -/
theorem counted_unmarked (s : PathFinder) : s.counted.unmarked t = s.unmarked t :=
  (counted_sameTags s).unmarked

/-- An iteration of `Approach` pays for its step with a fresh mark. -/
theorem approachBody_credit {w : Walk} {r : Walk ⊕ (Bool × PathFinder)}
    (hsafe : CoreSafe t ptEnd (.approach w)) (hr : approachBody t ptEnd w = some r) :
    match r with
    | .inl w' => w'.finder.nStepCount = w.finder.nStepCount + 1 ∧
        credit t (.approach w') + 1 ≤ credit t (.approach w)
    | .inr (true, s') => s'.nStepCount = w.finder.nStepCount + 1 ∧ 1 ≤ credit t (.approach w)
    | .inr (false, s') => s'.nStepCount = w.finder.nStepCount + 1 ∧
        credit t (.drain s') + 1 ≤ credit t (.approach w) := by
  obtain ⟨-, -, hne⟩ := hsafe
  have hcount := counted_unmarked (t := t) w.finder
  have hqueue : w.finder.counted.aroundQueue = w.finder.aroundQueue := rfl
  have hlast : 1 ≤ credit t (.approach w) := by
    simp only [credit]
    omega
  cases approachBody_turn hr with
  | stop _ =>
    refine ⟨rfl, ?_⟩
    simp only [credit, hcount, hqueue]
    omega
  | refusedAtEnd _ _ => exact ⟨rfl, hlast⟩
  | refused _ _ _ =>
    -- the seven of the call pay for two detours
    have hsame := pushAround_sameTags w.finder.counted w.ptTile (getDir w.ptTile ptEnd)
    have hpush : (w.finder.counted.pushAround w.ptTile (getDir w.ptTile ptEnd)).aroundQueue.length =
        w.finder.aroundQueue.length + 2 := rfl
    refine ⟨rfl, ?_⟩
    simp only [credit, hsame.unmarked, hcount, hpush]
    omega
  | arrived _ _ => exact ⟨rfl, hlast⟩
  | @walked ptNext tag tried _ _ =>
    have hmark : (w.finder.counted.stepOnto tag (getDir w.ptTile ptEnd) w.pParent 0).unmarked t <
        w.finder.counted.unmarked t :=
      unmarked_stepOnto_lt (getTileTag_lt tried.tag) (getDir_range hne) tried.fresh
    have hkept : (w.finder.counted.stepOnto tag (getDir w.ptTile ptEnd) w.pParent 0).aroundQueue =
        w.finder.aroundQueue := rfl
    refine ⟨rfl, ?_⟩
    simp only [credit, hkept]
    omega

/-- An iteration of `Around` pays with a fresh mark, or with a turn. -/
theorem aroundBody_credit {a : AroundPoint} {d : Detour} {r : Detour ⊕ (Bool × PathFinder)}
    (hsafe : CoreSafe t ptEnd (.around a d))
    (hr : aroundBody t a.ptTile a.nTurnDir ptEnd d = some r) :
    match r with
    | .inl d' => d'.finder.nStepCount = d.finder.nStepCount + 1 ∧
        credit t (.around a d') + 1 ≤ credit t (.around a d)
    | .inr (true, s') => s'.nStepCount = d.finder.nStepCount + 1 ∧
        ∀ p, credit t (.call p s') + 1 ≤ credit t (.around a d)
    | .inr (false, s') => s'.nStepCount = d.finder.nStepCount + 1 ∧
        credit t (.drain s') + 1 ≤ credit t (.around a d) := by
  obtain ⟨-, -, hstraight⟩ := hsafe
  have hcount := counted_unmarked (t := t) d.finder
  have hqueue : d.finder.counted.aroundQueue = d.finder.aroundQueue := rfl
  have hmark : ∀ {ptNext : Point} {tag : Nat},
      Tried t d.finder.counted d.ptTile d.nMoveDir ptNext tag →
      (d.finder.counted.stepOnto tag d.nMoveDir d.pParent 1).unmarked t <
        d.finder.counted.unmarked t := fun tried =>
    unmarked_stepOnto_lt (getTileTag_lt tried.tag) hstraight.range tried.fresh
  -- the mark of a turn need not be new
  have hturned : ∀ tag, (d.finder.counted.markTileVisited tag (turnDir d.nMoveDir a.nTurnDir.other)
        none).unmarked t ≤ d.finder.counted.unmarked t ∧
      (d.finder.counted.markTileVisited tag (turnDir d.nMoveDir a.nTurnDir.other)
        none).aroundQueue =
        d.finder.aroundQueue := fun tag => ⟨unmarked_mark_le tag _ none, rfl⟩
  cases aroundBody_turn hr with
  | stop _ =>
    refine ⟨rfl, ?_⟩
    simp only [credit, hcount, hqueue]
    omega
  | @gaveUp ptNext tag _ _ _ =>
    obtain ⟨hle, hkept⟩ := hturned tag
    refine ⟨rfl, ?_⟩
    simp only [credit, hkept]
    omega
  | @turned ptNext tag _ _ hturn =>
    obtain ⟨hle, hkept⟩ := hturned tag
    refine ⟨rfl, ?_⟩
    simp only [credit, hkept]
    omega
  | @arrived ptNext tag tried _ _ =>
    have hlt := hmark tried
    have hcall := callCredit_eq (getTileTag_lt tried.tag)
    have hkept : (d.finder.counted.stepOnto tag d.nMoveDir d.pParent 1).aroundQueue =
        d.finder.aroundQueue := rfl
    refine ⟨rfl, fun p => ?_⟩
    simp only [credit, hkept, hcall]
    omega
  | @walked ptNext ptAround tag block isBevel tried _ _ _ _ _ =>
    have hlt := hmark tried
    have hkept : (d.finder.counted.stepOnto tag d.nMoveDir d.pParent 1).aroundQueue =
        d.finder.aroundQueue := rfl
    refine ⟨rfl, ?_⟩
    simp only [credit, hkept]
    omega

/-- Corners are recorded without a step. -/
theorem recordCorner_nStepCount (s : PathFinder) (p : Point) :
    (s.recordCorner t p).nStepCount = s.nStepCount :=
  recordCorner_reads PathFinder.nStepCount (fun _ _ _ => rfl) s p

/-- No transition counts more steps than it takes from the credit. -/
theorem CoreStep.credit_le {c c' : CorePoint} (h : CoreStep t ptEnd c c')
    (hsafe : CoreSafe t ptEnd c) :
    c.finder.nStepCount ≤ c'.finder.nStepCount ∧
      c'.finder.nStepCount + credit t c' ≤ c.finder.nStepCount + credit t c := by
  cases h with
  | approachAtEnd =>
    simp only [CorePoint.finder, credit]
    omega
  | approachOutside _ _ =>
    simp only [CorePoint.finder, credit]
    omega
  | @approach p s tag _ htag =>
    -- `MakeRoot` marks no direction
    have hcall := callCredit_eq (getTileTag_lt htag)
    have hunmarked : (s.makeRoot tag).unmarked t = s.unmarked t :=
      unmarked_congr fun _ _ => makeRoot_isTileVisited
    have hstep : (s.makeRoot tag).nStepCount = s.nStepCount :=
      makeRoot_reads PathFinder.nStepCount (fun _ => rfl) tag
    simp only [CorePoint.finder, credit, hcall, hunmarked, makeRoot_aroundQueue, hstep]
    exact ⟨Int.le_refl _, Int.le_refl _⟩
  | approachNext hr =>
    obtain ⟨hstep, hcredit⟩ := approachBody_credit hsafe hr
    simp only [CorePoint.finder] at hstep ⊢
    omega
  | approachTrue hr =>
    obtain ⟨hstep, hcredit⟩ := approachBody_credit hsafe hr
    have hdone : ∀ s', credit t (.done true s') = 0 := fun _ => rfl
    simp only [CorePoint.finder, hdone] at hstep ⊢
    omega
  | approachFalse hr =>
    obtain ⟨hstep, hcredit⟩ := approachBody_credit hsafe hr
    simp only [CorePoint.finder] at hstep ⊢
    omega
  | @around s a queue hqueue =>
    -- the place that is taken out pays for the detour
    have hsame := setAroundQueue_sameTags s queue
    simp only [CorePoint.finder, credit, hsame.unmarked, hqueue, List.length_cons]
    omega
  | aroundNext hr =>
    obtain ⟨hstep, hcredit⟩ := aroundBody_credit hsafe hr
    simp only [CorePoint.finder] at hstep ⊢
    omega
  | @aroundTrue a d s tag hr htag =>
    -- `RecordCorner` writes no tag
    obtain ⟨hstep, hcredit⟩ := aroundBody_credit hsafe hr
    have hafter : (afterAround t s tag).finder.nStepCount = s.nStepCount ∧
        credit t (afterAround t s tag) = credit t (.call (s.tileToPoint t tag) s) := by
      unfold afterAround
      split
      · simp only [CorePoint.finder, credit, recordCorner_nStepCount,
          (recordCorner_sameTags _ _).unmarked, recordCorner_aroundQueue, and_self]
      · exact ⟨rfl, rfl⟩
    have hle := hcredit (s.tileToPoint t tag)
    rw [hafter.1, hafter.2, hstep]
    simp only [CorePoint.finder]
    omega
  | aroundFalse hr =>
    obtain ⟨hstep, hcredit⟩ := aroundBody_credit hsafe hr
    simp only [CorePoint.finder] at hstep ⊢
    omega
  | exhausted _ =>
    simp only [CorePoint.finder, credit]
    omega

/-- The steps counted at any point of a search. -/
theorem CoreReach.nStepCount_le (hstart : ptStart.InRange) {c : CorePoint}
    (h : CoreReach t s ptStart ptEnd c) :
    0 ≤ c.finder.nStepCount ∧ c.finder.nStepCount ≤ (8 * pairs t : Nat) := by
  have hzero : (coreStart t s ptStart ptEnd).nStepCount = 0 := by
    unfold coreStart
    dsimp only
    split <;> rfl
  have hbegin : CoreBegins s (coreStart t s ptStart ptEnd) ptStart :=
    coreStart_begins s ptStart ptEnd
  -- each step costs one of the credit
  have hall : 0 ≤ c.finder.nStepCount ∧ c.finder.nStepCount + credit t c ≤
      credit t (.call ptStart (coreStart t s ptStart ptEnd)) := by
    induction h with
    | refl =>
      rw [CorePoint.finder, hzero]
      omega
    | tail hsteps hstep ih =>
      have hle := hstep.credit_le (CoreReach.safe hstart hsteps)
      omega
  -- and at the start there is no detour to pay for, so every credit is for an unmarked pair
  have hle := unmarked_le_pairs t (coreStart t s ptStart ptEnd)
  have hcall : callCredit t ≤ pairs t := Nat.min_le_right _ _
  simp only [credit, hbegin.aroundQueue, List.length_nil] at hall
  omega

/-- On tags without the number of the search `FindPathCore` returns, whatever `nMaxStep` is.  The
    iterations of `Approach` and `Around` are at most eight for each tile and direction of the
    window, which `m_nStepCount` can hold if the window is no wider than 5792 tiles. -/
theorem findPathCore_budget (t : Params) (f : Point → Bool) (s : PathFinder) (ptStart ptEnd : Point)
    (hf : s.Pure f) (hunused : Unused t s) (hstart : ptStart.InRange) (hend : ptEnd.InRange) :
    (∃ r, findPathCore t s ptStart ptEnd = some r) ∧
    (∀ c, CoreReach t s ptStart ptEnd c → c.finder.nStepCount ≤ (8 * pairs t : Nat)) ∧
    (t.maxSearchArea ≤ 5792 →
      ∀ c, CoreReach t s ptStart ptEnd c → IsInt32 c.finder.nStepCount) := by
  refine ⟨?_, fun c hreach => (CoreReach.nStepCount_le hstart hreach).2, ?_⟩
  · exact findPathCore_fresh_returns hf.answers hstart hend hunused
  · intro harea c hreach
    obtain ⟨hnonneg, hle⟩ := CoreReach.nStepCount_le hstart hreach
    have hsquare : t.maxSearchArea * t.maxSearchArea ≤ 5792 * 5792 := Nat.mul_le_mul harea harea
    unfold pairs at hle
    constructor <;> omega

/-- The search around a wall of two tiles counts at most 4096 steps. -/
theorem findPathCore_budget_wall : ∃ r,
    findPathCore smallParams (smallMap [⟨1, 1⟩, ⟨1, 2⟩]) ⟨0, 1⟩ ⟨3, 1⟩ = some r ∧
      r.2.nStepCount ≤ 4096 := by
  have hbudget := findPathCore_budget smallParams (blockedAt [⟨1, 1⟩, ⟨1, 2⟩])
    (smallMap [⟨1, 1⟩, ⟨1, 2⟩]) ⟨0, 1⟩ ⟨3, 1⟩ (smallMap_pure [⟨1, 1⟩, ⟨1, 2⟩])
    (fun _ _ h => nomatch h) ⟨by decide, by decide⟩ ⟨by decide, by decide⟩
  obtain ⟨r, hr⟩ := hbudget.1
  exact ⟨r, hr, hbudget.2.1 _ (findPathCore_reaches hr)⟩

end XGame3.PathFinder
