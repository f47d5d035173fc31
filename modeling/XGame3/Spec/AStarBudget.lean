import XGame3.ForStd.Lowering
import XGame3.Spec.AStarLinks

/-!
# The budget of the A* search

A tile costs `FindAStar` a turn whenever it is taken off the open list, and a tile can come
back to it with fewer steps.  The step counts of the tags are labels that are only lowered,
so with `K` tiles to reach no count gets to `K`, and `K * K` turns are enough to find the
target.

Key results:
- `Counting.next`: one direction pays for what it queues with what it takes off the counts.
- `AStarCounted.turn`: a turn of the loop keeps the sum of turns, open tiles and counts.
- `findAStar_finds`: with enough turns A* reaches every target that legal moves lead to.
-/

namespace XGame3.PathFinder

open FixedInt Lowering ParentChain Relation

variable {t : Params} {s s' s₀ s₁ : PathFinder} {f : Point → Bool} {ptStart ptEnd ptTile : Point}
  {pCurrent k dir : Nat} {e e' : Expansion} {items : Finset Nat}

/-! ## Step counts as labels -/

/-- The step count of a tag of this search. -/
def countOf (t : Params) (s : PathFinder) (tag : Nat) : Option Nat :=
  if tag < t.maxSearchArea * t.maxSearchArea ∧ (s.tileTags tag).nFindID = s.nFind then
    some (stepOf s tag)
  else
    none

/-- A tile has a count when this search touched it, and the count is its steps. -/
theorem countOf_eq_some {i n : Nat} : countOf t s i = some n ↔ Touched t s i ∧ stepOf s i = n := by
  simp [countOf, Touched, Carries]

/-- The count is read from the tile's own tag and the search's number. -/
theorem countOf_eq {i : Nat} (hfind : s'.nFind = s.nFind) (htag : s'.tileTags i = s.tileTags i) :
    countOf t s' i = countOf t s i := by
  simp only [countOf, stepOf, hfind, htag]

/-- Finders with the same tags count alike. -/
theorem SameTags.countOf (h : SameTags s s') : countOf t s' = countOf t s :=
  funext fun i => countOf_eq h.nFind (congrFun h.tileTags i)

/-- A link gives its tile a new count and changes no other. -/
theorem Relinked.countOf {tag parent step : Nat} (h : Relinked s s' tag parent step)
    (htag : tag < t.maxSearchArea * t.maxSearchArea) (hlt : step < 65536) :
    countOf t s' = Function.update (countOf t s) tag (some step) := by
  funext i
  by_cases hi : i = tag
  · subst hi
    rw [Function.update_self]
    exact countOf_eq_some.2 ⟨⟨htag, h.carries⟩, h.stepOf.trans (Nat.mod_eq_of_lt hlt)⟩
  · rw [Function.update_of_ne hi]
    exact countOf_eq h.nFind (h.other i hi)

/-! ## One direction -/

/-- After some directions of the expansion of a tile at step `k`. -/
structure Counting (t : Params) (items : Finset Nat) (s₀ : PathFinder) (pCurrent k : Nat)
    (e : Expansion) : Prop where
  same : SameSearch s₀ e.finder
  current : countOf t e.finder pCurrent = some k
  inside : ∀ i, Touched t e.finder i → i ∈ items
  tiered : Tiered items (countOf t e.finder)
  paid : weight items (countOf t e.finder) + e.found.length ≤ weight items (countOf t s₀)

/-- A tag gets the next step count. -/
theorem Counting.relink {tag n m : Nat} {found : List (Nat × Int × Point)}
    (h : Counting t items s₀ pCurrent k e) (hcard : items.card ≤ 65536)
    (hrep : Relinked e.finder s' tag pCurrent (k + 1))
    (htag : tag < t.maxSearchArea * t.maxSearchArea) (hmem : tag ∈ items)
    (hnew : e.finder.Carries tag → k + 1 < stepOf e.finder tag)
    (hfound : found.length ≤ e.found.length + 1) :
    Counting t items s₀ pCurrent k ⟨s', n, m, e.visitedNum, found⟩ := by
  have hlower : ∀ n, countOf t e.finder tag = some n → k + 1 < n := by
    intro n hn
    obtain ⟨hc, rfl⟩ := countOf_eq_some.1 hn
    exact hnew hc.2
  have htiered := h.tiered.relabel hmem h.current hlower
  have hweight := weight_relabel h.tiered hmem h.current hlower
  have hk := htiered.lt_card (Function.update_self _ _ _)
  have hcount := hrep.countOf htag (show k + 1 < 65536 by omega)
  -- the tile that is expanded counts fewer steps than it gives
  have hne : pCurrent ≠ tag := by
    rintro rfl
    have hlt := hlower k h.current
    omega
  have hpaid := h.paid
  constructor
  · exact h.same.trans hrep.toSameSearch
  · rw [hcount, Function.update_of_ne hne]
    exact h.current
  · intro i hi
    cases hrep.carries_iff.1 hi.2 with
    | inl heq => exact heq ▸ hmem
    | inr hold => exact h.inside i ⟨hi.1, hold⟩
  · rw [hcount]
    exact htiered
  · dsimp only
    rw [hcount]
    omega

/-- One more direction keeps the account of the tiles counted so far. -/
theorem Counting.next (h : Counting t items s₀ pCurrent k e) (hf : s₀.Pure f)
    (hin : ptTile.InRange) (hcard : items.card ≤ 65536)
    (hmove : ∀ q i, Ahead t s₀ ptTile dir q i → ¬ Refused f ptTile q → i ∈ items)
    (hr : expandDir t ptTile ptEnd pCurrent (k + 1) dir e = some e') :
    Counting t items s₀ pCurrent k e' := by
  cases expandDir_link (h.same.pure hf) hin hr with
  | outside _ _ => exact h
  | back _ _ => exact h
  | known _ _ _ => exact ⟨h.same, h.current, h.inside, h.tiered, h.paid⟩
  | blocked _ _ _ => exact ⟨h.same, h.current, h.inside, h.tiered, h.paid⟩
  | reopened ahead _ hc hgt hrep =>
    have htag := getTileTag_lt ahead.tag
    exact h.relink hcard hrep htag (h.inside _ ⟨htag, hc⟩) (fun _ => hgt) (Nat.le_succ _)
  | found ahead href hnew hrep =>
    apply h.relink hcard hrep (getTileTag_lt ahead.tag) (hmove _ _ (h.same.ahead.1 ahead) href) hnew
    rw [List.length_append, List.length_singleton]

/-- The eight directions. -/
theorem Counting.expand {dirs : List Nat} (h : Counting t items s₀ pCurrent k e) (hf : s₀.Pure f)
    (hin : ptTile.InRange) (hcard : items.card ≤ 65536)
    (hmove : ∀ d q i, Ahead t s₀ ptTile d q i → ¬ Refused f ptTile q → i ∈ items)
    (hr : expand t ptTile ptEnd pCurrent (k + 1) dirs e = some e') :
    Counting t items s₀ pCurrent k e' := by
  apply expand_run (I := fun _ e => Counting t items s₀ pCurrent k e) [] _ h hr
  intro tried dir e e' h hdir
  exact h.next hf hin hcard (hmove dir) hdir

/-! ## Every turn of the loop -/

/-- What is queued is no more than what was found. -/
theorem length_pushFound (e : Expansion) (step : Nat) (openList : List (Nat × Point)) :
    (pushFound e step openList).length ≤ openList.length + e.found.length := by
  have hinsert : ∀ (k : Nat) (p : Point) (openList : List (Nat × Point)),
      (insertOpen k p openList).length = openList.length + 1 := by
    intro k p openList
    induction openList with
    | nil => rfl
    | cons e openList ih =>
      unfold insertOpen
      split
      · rfl
      · rw [List.length_cons, ih, List.length_cons]
  -- each tile found is inserted at most once
  unfold pushFound
  generalize e.found = found
  induction found generalizing openList with
  | nil => exact Nat.le_refl _
  | cons g found ih =>
    rw [List.foldl_cons, List.length_cons]
    apply Nat.le_trans (ih _)
    split
    · rw [hinsert]
      omega
    · omega

/-- The tags of all tiles that moves lead to are among the items. -/
def Within (t : Params) (f : Point → Bool) (s : PathFinder) (ptStart : Point)
    (items : Finset Nat) : Prop :=
  ∀ p i, ReflTransGen (AStarMove t f s) ptStart p → s.getTileTag t p = some i → i ∈ items

/-- The invariant with what the turns have cost. -/
structure AStarCounted (t : Params) (f : Point → Bool) (s₁ : PathFinder) (ptStart ptEnd : Point)
    (items : Finset Nat) (a : AStar) : Prop extends AStarInv t f s₁ ptStart ptEnd a where
  inside : ∀ i, Touched t a.finder i → i ∈ items
  tiered : Tiered items (countOf t a.finder)
  graded : ∀ root, s₁.getTileTag t ptStart = some root → ∃ bound, Graded t a.finder root bound
  spent : a.finder.nStepCount + a.openList.length + weight items (countOf t a.finder) + items.card ≤
    items.card * items.card + 1

section

variable {rootTag : Nat} (hroot : s₁.getTileTag t ptStart = some rootTag)
  (hwithin : Within t f s₁ ptStart items)

include hroot hwithin

/-- A turn pays for what it queues. -/
theorem AStarCounted.turn {a a' : AStar} {endTag : Nat}
    (h : AStarCounted t f s₁ ptStart ptEnd items a) (hf : s₁.Pure f) (hend : ptEnd.InRange)
    (htarget : s₁.getTileTag t ptEnd = some endTag) (hcard : items.card ≤ 65535)
    (hbody : aStarBody t ptEnd a = some (.inl a')) :
    AStarCounted t f s₁ ptStart ptEnd items a' := by
  have hcount := counted_sameTags a.finder
  have hcounted : a.finder.counted.nStepCount = a.finder.nStepCount + 1 := rfl
  have hlabels := hcount.countOf (t := t)
  have hspent := h.spent
  have hinv : AStarInv t f s₁ ptStart ptEnd a' := aStarBody_inv h.toAStarInv hf hend hbody
  obtain ⟨hle, k, p, openList, hlist, hcases⟩ := aStarBody_inl hbody
  have hp : Opened a.openList p := ⟨k, hlist ▸ List.mem_cons_self⟩
  have hvisited := h.opened rootTag hroot p hp
  rw [hlist, List.length_cons] at hspent
  cases hcases with
  | inl hskip =>
    obtain ⟨hnone, -⟩ := hskip
    obtain ⟨-, i, hi, -⟩ := hcount.visited.2 hvisited
    exact nomatch hnone.symm.trans hi
  | inr hexpand =>
    obtain ⟨tag, e, he⟩ := hexpand
    have hsame : SameIds s₁ a.finder.counted := h.same.trans hcount.toSameIds
    have htiered : Tiered items (countOf t a.finder.counted) := by
      rw [hlabels]
      exact h.tiered
    have hlt : ∀ i, Touched t a.finder.counted i → stepOf a.finder.counted i < items.card :=
      fun i hi => htiered.lt_card (countOf_eq_some.2 ⟨hi, rfl⟩)
    obtain ⟨root, hroot', hin, htouched, hexp⟩ := h.expanded hf hlist he fun _ _ hi => by
      have hstep := hlt tag hi
      omega
    obtain rfl := Option.some.inj (hroot.symm.trans hroot')
    have hreach := (h.search rootTag endTag hroot htarget).reachable p hvisited
    have hmove : ∀ d q i, Ahead t a.finder.counted p d q i → ¬ Refused f p q → i ∈ items := by
      intro d q i ahead hfree
      have htag : s₁.getTileTag t q = some i :=
        (hsame.toSameSearch.getTileTag q).symm.trans ahead.tag
      have hlegal : LegalMove f p q := .of_not_refused (ahead.near hin he.tagged) hfree
      exact hwithin q i (hreach.tail ⟨hlegal, ahead.inRange, i, htag⟩) htag
    have hbegin : Counting t items a.finder.counted tag (stepOf a.finder.counted tag)
        ⟨a.finder.counted, a.nNearestDist, 0, 0, []⟩ :=
      ⟨.refl _, countOf_eq_some.2 ⟨htouched, rfl⟩,
        fun i hi => h.inside i ⟨hi.1, hcount.carries.1 hi.2⟩, htiered, Nat.le_refl _⟩
    have hcounting := hbegin.expand (hsame.toSameSearch.pure hf) hin (by omega) hmove he.run
    have hpaid := hcounting.paid
    have hlength := length_pushFound e (stepOf a.finder.counted tag + 1) openList
    have hkept := hexp.count
    rw [hlabels] at hpaid
    rw [he.next] at hinv ⊢
    constructor
    · exact hinv
    · exact hcounting.inside
    · exact hcounting.tiered
    · intro root hroot'
      obtain ⟨bound, hgraded⟩ := h.graded root hroot'
      exact ⟨bound + 1, hexp.graded (hcount.graded hgraded) htouched rfl⟩
    · -- what is queued was paid for by the labels
      dsimp only
      omega

/-- With enough turns the loop is left on the target, with a way there that is no longer than the
    number of tiles. -/
theorem AStarCounted.exit {a : AStar} {r : Bool × PathFinder}
    (h : AStarCounted t f s₁ ptStart ptEnd items a)
    (hmax : (items.card * items.card : Nat) ≤ s₁.nMaxStep)
    (hreach : ReflTransGen (AStarMove t f s₁) ptStart ptEnd)
    (hbody : aStarBody t ptEnd a = some (.inr r)) :
    r.1 = true ∧ ∃ tags, Trail (fun tag => (r.2.tileTags tag).pParent) r.2.pNearestTile tags ∧
      tags.length ≤ items.card := by
  have hcount := counted_sameTags a.finder
  have hspent := h.spent
  cases aStarBody_step hbody with
  | limit hlimit =>
    -- then nothing would be left to spend on an open tile
    have hmax' : a.finder.counted.nMaxStep = s₁.nMaxStep := h.same.nMaxStep
    have hcounted : a.finder.counted.nStepCount = a.finder.nStepCount + 1 := rfl
    have hpos := Finset.card_pos.2 ⟨rootTag, hwithin ptStart rootTag .refl hroot⟩
    have hempty : a.openList = [] := List.length_eq_zero_iff.1 (by omega)
    exact absurd hreach (h.unreachable hempty hroot)
  | empty hlist => exact absurd hreach (h.unreachable hlist hroot)
  | @arrived k tag openList hlist htag =>
    have hvisited := h.opened rootTag hroot ptEnd ⟨k, hlist ▸ List.mem_cons_self⟩
    obtain ⟨-, i, hi, hc⟩ := hcount.visited.2 hvisited
    obtain rfl := Option.some.inj (htag.symm.trans hi)
    have htouched : Touched t a.finder.counted tag := ⟨getTileTag_lt htag, hc⟩
    have hlabel := countOf_eq_some.2 ⟨htouched, rfl⟩
    rw [hcount.countOf] at hlabel
    have hlt := h.tiered.lt_card hlabel
    obtain ⟨bound, hgraded⟩ := h.graded rootTag hroot
    obtain ⟨tags, htags, -, hlength⟩ := (hcount.graded hgraded).trail htouched
    exact ⟨rfl, tags, htags, by omega⟩

end

/-! ## The search as a whole -/

/-- The start is the only tile with a count. -/
theorem aStarStart_counted {root : Nat} (ptEnd : Point) (hstart : ptStart.InRange)
    (hunused : Unused t s)
    (hroot : (aStarStart t s ptStart ptEnd).finder.getTileTag t ptStart = some root)
    (hmem : root ∈ items) :
    AStarCounted t f (aStarStart t s ptStart ptEnd).finder ptStart ptEnd items
      (aStarStart t s ptStart ptEnd) := by
  have hgraded := aStarStart_graded (f := f) ptEnd hstart hunused
  -- only the root is touched, and its count is zero
  have htouched : ∀ i, Touched t (aStarStart t s ptStart ptEnd).finder i →
      i = root ∧ stepOf (aStarStart t s ptStart ptEnd).finder i = 0 := fun i hi =>
    (aStarStart_touched ptEnd hstart hunused hi).imp_left fun htag =>
      Option.some.inj (htag.symm.trans hroot)
  obtain ⟨bound, -, hbegins⟩ := hgraded.graded root hroot
  have hzero : countOf t (aStarStart t s ptStart ptEnd).finder root = some 0 :=
    countOf_eq_some.2 ⟨hbegins.begins.1, hbegins.begins.2.2⟩
  have htiered : Tiered items (countOf t (aStarStart t s ptStart ptEnd).finder) := by
    apply Tiered.init hmem hzero
    intro i n hn
    obtain ⟨hi, rfl⟩ := countOf_eq_some.1 hn
    exact (htouched i hi).2
  -- so the weight is that of the other items
  have hweight := weight_add_card_le htiered hmem hzero
  have hlength : (aStarStart t s ptStart ptEnd).openList.length = 1 := rfl
  have hcount : (aStarStart t s ptStart ptEnd).finder.nStepCount = 0 := aStarStart_nStepCount _ _ _
  constructor
  · exact hgraded.toAStarInv
  · exact fun i hi => (htouched i hi).1 ▸ hmem
  · exact htiered
  · exact fun root hroot => (hgraded.graded root hroot).imp fun _ hb => hb.2
  · omega

/-- A target that moves lead to is found, if the turns are as many as the square of the number of
    tiles there are to reach. -/
theorem findAStar_finds {root : Nat} {r : Bool × PathFinder} (hf : s.Pure f)
    (hstart : ptStart.InRange) (hend : ptEnd.InRange) (hunused : Unused t s)
    (hroot : { s with ptStart := ptStart }.getTileTag t ptStart = some root)
    (hreach : ReflTransGen (AStarMove t f { s with ptStart := ptStart }) ptStart ptEnd)
    (hwithin : Within t f { s with ptStart := ptStart } ptStart items) (hcard : items.card ≤ 65535)
    (hmax : (items.card * items.card : Nat) ≤ s.nMaxStep)
    (h : findAStar t s ptStart ptEnd = some r) :
    r.1 = true ∧ ∃ tags, Trail (fun tag => (r.2.tileTags tag).pParent) r.2.pNearestTile tags ∧
      tags.length ≤ items.card := by
  -- the move, the window and the limit are those of the started search
  have hf₁ : (aStarStart t s ptStart ptEnd).finder.Pure f := aStarStart_pure ptStart ptEnd hf
  rw [← aStarStart_move ptStart ptEnd] at hreach
  rw [← aStarStart_getTileTag s ptStart ptEnd] at hroot
  rw [← aStarStart_nMaxStep s ptStart ptEnd] at hmax
  have hwithin₁ : Within t f (aStarStart t s ptStart ptEnd).finder ptStart items := by
    intro p i hp hi
    rw [aStarStart_move] at hp
    rw [aStarStart_getTileTag] at hi
    exact hwithin p i hp hi
  obtain ⟨endTag, htarget⟩ := reach_tagged hreach hroot
  have hmem := hwithin₁ ptStart root .refl hroot
  -- the account holds in every turn, and no turn ends without the target
  apply Loop.run_inr
    (I := AStarCounted t f (aStarStart t s ptStart ptEnd).finder ptStart ptEnd items) _ _
    (aStarStart_counted ptEnd hstart hunused hroot hmem) (loopResult_eq_some h)
  · exact fun _ _ ha hbody => ha.turn hroot hwithin₁ hf₁ hend htarget hcard hbody
  · exact fun _ _ ha hbody => ha.exit hroot hwithin₁ hmax hreach hbody

end XGame3.PathFinder
