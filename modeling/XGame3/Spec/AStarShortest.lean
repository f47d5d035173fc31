import Mathlib.Order.Bounds.Basic
import XGame3.Spec.AStarLegal

/-!
# When the A* search is shortest

The step counts label what the search has visited.  As long as no tile is reopened across
a corner, a tile whose way was shortened is queued again, so what is no longer open has
labelled its neighbours, and the label of the target bounds every way that does not pass
an open tile.  The score by which tiles are taken from the list does not see to it that
none of those is shorter.

Key results:
- `AStarLabelled.turn`: a turn of the loop keeps the labels.
- `findAStar_shortest`: when the chain of parents is a shortest way.
- `not_findAStar_shortest`: one blocked tile, and a way one move too long.
-/

namespace XGame3.PathFinder

open FixedInt ParentChain Worklist

variable {t : Params} {s s' s₁ : PathFinder} {f : Point → Bool} {ptStart ptEnd : Point}

/-! ## Labels -/

/-- The step count of a tile. -/
def label (t : Params) (s : PathFinder) (p : Point) : Nat :=
  match s.getTileTag t p with
  | some i => stepOf s i
  | none => 0

theorem label_of_tag {p : Point} {i : Nat} (h : s.getTileTag t p = some i) :
    label t s p = stepOf s i := by
  unfold label
  rw [h]

/-- The labels at every turn, and that tags are those of tiles. -/
structure AStarLabelled (t : Params) (f : Point → Bool) (s₁ : PathFinder) (ptStart ptEnd : Point)
    (a : AStar) : Prop extends AStarGraded t f s₁ ptStart ptEnd a where
  placed : ∀ i, Touched t a.finder i → ∃ p, p.InRange ∧ s₁.getTileTag t p = some i
  labelled : ∀ root tag, s₁.getTileTag t ptStart = some root → s₁.getTileTag t ptEnd = some tag →
    Labelled (AStarMove t f s₁) ptStart ptEnd (label t a.finder) (Visited t a.finder)
      (Opened a.openList)

/-- A tile that was linked anew is on the list again. -/
theorem AStarLabelled.opened_of_relit {a a' : AStar} {k tag root i : Nat} {p y : Point}
    {openList : List (Nat × Point)} {e : Expansion} (h : AStarLabelled t f s₁ ptStart ptEnd a)
    (hend : ptEnd.InRange) (hlegal : LinksLegal t f a.finder ptStart)
    (hreopen : ReopensLegally t f ptEnd a) (hlt : a.finder.nStepCount < a.finder.nMaxStep)
    (hlist : a.openList = (k, p) :: openList) (he : Expands t ptEnd a a' p tag openList e)
    (hin : p.InRange) (hexp : Expanding t f a.finder.counted p ptEnd root allDirs.reverse e)
    (hroot : s₁.getTileTag t ptStart = some root) (hendTag : ∃ j, s₁.getTileTag t ptEnd = some j)
    (hrelit : Relit t f a.finder.counted p tag (stepOf a.finder.counted tag + 1) e i)
    (hy : y.InRange) (hyi : a.finder.getTileTag t y = some i) : Opened a'.openList y := by
  obtain ⟨q, hq, hpoint, hqin, hnear, hplace⟩ := hrelit.tile hin he.tagged
  obtain rfl := getTileTag_inj hy hqin hyi hq
  have hfound : ∃ g ∈ e.found, g.2.2 = y := by
    cases hplace with
    | inr hfree => exact hfree.2
    | inl hold =>
      -- the step was refused, but neither for the tile nor for a corner
      obtain ⟨hc, href⟩ := hold
      obtain ⟨bound, -, hgraded⟩ := h.graded root hroot
      have hlonger := hrelit.longer hc
      have hi : Touched t a.finder i := ⟨getTileTag_lt hyi, hc⟩
      have hne : i ≠ root := by
        rintro rfl
        have hzero := hgraded.begins.2.2
        change _ < stepOf a.finder i at hlonger
        omega
      obtain ⟨j, hj, -⟩ := hgraded.graded i hi hne
      have hroot' : a.finder.getTileTag t ptStart = some root :=
        (h.same.toSameSearch.getTileTag ptStart).trans hroot
      have hfree := (hlegal root hroot' i hi hne j hj).free
      rw [show a.finder.tileToPoint t i = y from hpoint] at hfree
      have hcorner := hreopen k p openList hlist he.ne_end hlt tag he.tagged y i hnear hy hyi hc
        hlonger
      exact absurd href (not_or.2 ⟨hfree, hcorner⟩)
  obtain ⟨g, hg, hgy⟩ := hfound
  obtain ⟨hdist, hmove⟩ := hexp.found g hg
  obtain ⟨j, hj⟩ := hendTag
  have hend' : a.finder.counted.getTileTag t ptEnd = some j :=
    (h.same.toSameSearch.getTileTag ptEnd).trans hj
  have hnonneg := distance_nonneg hy hend hq hend'
  rw [he.next]
  exact opened_pushFound.2 (.inr ⟨g, hg, by rw [hdist, hgy]; exact hnonneg, hgy⟩)

/-- What was visited before an expansion still is, and its label has not grown. -/
theorem Expanded.label_le {a : AStar} {p q : Point} {tag step : Nat} {tried : List Nat}
    {e : Expansion} (h : Expanded t f a.finder.counted p tag step tried e)
    (hq : Visited t a.finder q) :
    Visited t e.finder q ∧ label t e.finder q ≤ label t a.finder q := by
  obtain ⟨hin, i, hi, hc⟩ := hq
  have hi' : e.finder.getTileTag t q = some i := (h.same.toSameSearch.getTileTag q).trans hi
  rw [label_of_tag hi, label_of_tag hi']
  exact ⟨⟨hin, i, hi', h.carries hc⟩, h.stepOf_le hc⟩

/-- The tile that was expanded has labelled its neighbours. -/
theorem AStarGraded.covers {a a' : AStar} {k tag : Nat} {p z : Point}
    {openList : List (Nat × Point)} {e : Expansion} (h : AStarGraded t f s₁ ptStart ptEnd a)
    (hf : s₁.Pure f) (hmax : s₁.nMaxStep ≤ 65535)
    (hle : a.finder.counted.nStepCount ≤ a.finder.nMaxStep)
    (hlist : a.openList = (k, p) :: openList) (he : Expands t ptEnd a a' p tag openList e)
    (hz : AStarMove t f s₁ p z) :
    Visited t e.finder z ∧ label t e.finder z ≤ label t e.finder p + 1 := by
  have hsame : SameIds s₁ a.finder.counted := h.same.trans (counted_sameTags a.finder).toSameIds
  obtain ⟨root, bound, -, -, hgraded, -, htouched, hexp⟩ := h.expansion hf hmax hle hlist he
  have hexpSame := hexp.same.toSameSearch
  obtain ⟨j, hj⟩ := hz.tagged
  obtain ⟨dir, hdir, hmove⟩ := exists_moveNext hz.near hz.inRange
  have hj₀ : a.finder.counted.getTileTag t z = some j := (hsame.toSameSearch.getTileTag z).trans hj
  have hj' : e.finder.getTileTag t z = some j := (hexpSame.getTileTag z).trans hj₀
  have hp' : e.finder.getTileTag t p = some tag := (hexpSame.getTileTag p).trans he.tagged
  have hmem : dir ∈ allDirs.reverse := List.mem_reverse.2 (List.mem_range.2 hdir)
  have hcurrent : stepOf e.finder tag = stepOf a.finder.counted tag := stepOf_congr hexp.current
  rw [label_of_tag hj', label_of_tag hp', hcurrent]
  cases hexp.covered dir hmem z j ⟨hmove, hj₀⟩ (.inr (not_or.2 ⟨hz.free, hz.corner⟩)) with
  | inr hreached => exact ⟨⟨hz.inRange, j, hj', hreached.1⟩, hreached.2⟩
  | inl hparent =>
    -- the parent is left out, and has a smaller step count
    have hne : tag ≠ root := by
      rintro rfl
      rw [hgraded.begins.2.1] at hparent
      exact nomatch hparent
    obtain ⟨j', hj₁, htj, hless⟩ := hgraded.graded tag htouched hne
    obtain rfl := Option.some.inj (hj₁.symm.trans hparent)
    have hdown := hexp.stepOf_le htj.2
    exact ⟨⟨hz.inRange, j', hj', hexp.carries htj.2⟩, by omega⟩

/-- A tile that was not linked anew is as closed as before, and so is the one expanded. -/
theorem AStarLabelled.closed_of_kept {a a' : AStar} {k tag tagEnd root i : Nat} {p y : Point}
    {openList : List (Nat × Point)} {e : Expansion} (h : AStarLabelled t f s₁ ptStart ptEnd a)
    (hf : s₁.Pure f) (hmax : s₁.nMaxStep ≤ 65535)
    (hle : a.finder.counted.nStepCount ≤ a.finder.nMaxStep)
    (hlist : a.openList = (k, p) :: openList) (he : Expands t ptEnd a a' p tag openList e)
    (hexp : Expanded t f a.finder.counted p tag (stepOf a.finder.counted tag + 1) allDirs.reverse e)
    (hroot : s₁.getTileTag t ptStart = some root) (hend : s₁.getTileTag t ptEnd = some tagEnd)
    (hy : Visited t a.finder y) (hyi : a.finder.getTileTag t y = some i)
    (hkept : e.finder.tileTags i = a.finder.counted.tileTags i) :
    Opened a'.openList y ∨ y ≠ ptEnd ∧ ∀ z, AStarMove t f s₁ y z →
      Visited t e.finder z ∧ label t e.finder z ≤ label t e.finder y + 1 := by
  by_cases hyp : y = p
  · -- the tile that is expanded has all its moves covered
    subst hyp
    exact .inr ⟨he.ne_end, fun z hz => h.covers hf hmax hle hlist he hz⟩
  · cases (h.labelled root tagEnd hroot hend).closed y hy with
    | inl hop =>
      obtain ⟨k', hk'⟩ := hop
      rw [hlist] at hk'
      rw [he.next]
      cases List.mem_cons.1 hk' with
      | inl heq => exact absurd (Prod.mk.inj heq).2 hyp
      | inr hmem => exact .inl (opened_pushFound.2 (.inl ⟨k', hmem⟩))
    | inr hclosed =>
      -- labels only go down, and that of `y` is kept
      have hlabel : label t e.finder y = label t a.finder y := by
        rw [label_of_tag hyi, label_of_tag ((hexp.same.toSameSearch.getTileTag y).trans hyi)]
        exact stepOf_congr hkept
      right
      apply And.intro hclosed.1
      intro z hz
      obtain ⟨hzvis, hzle⟩ := hclosed.2 z hz
      obtain ⟨hzvis', hzle'⟩ := hexp.label_le hzvis
      exact ⟨hzvis', by rw [hlabel]; omega⟩

/-- A turn that reopens no tile across a corner keeps the labels. -/
theorem AStarLabelled.turn {a a' : AStar} (h : AStarLabelled t f s₁ ptStart ptEnd a)
    (hf : s₁.Pure f) (hend : ptEnd.InRange) (hmax : s₁.nMaxStep ≤ 65535)
    (hlegal : LinksLegal t f a.finder ptStart) (hreopen : ReopensLegally t f ptEnd a)
    (hbody : aStarBody t ptEnd a = some (.inl a')) :
    AStarLabelled t f s₁ ptStart ptEnd a' := by
  have hsame : SameIds s₁ a.finder.counted := h.same.trans (counted_sameTags a.finder).toSameIds
  have hnext := h.toAStarGraded.turn hf hend hmax hbody
  obtain ⟨hle, k, p, openList, hlist, hcases⟩ := aStarBody_inl hbody
  have hlt : a.finder.nStepCount < a.finder.nMaxStep := by
    have hcounted : a.finder.counted.nStepCount = a.finder.nStepCount + 1 := rfl
    omega
  cases hcases with
  | inl hskip =>
    obtain ⟨hnone, rfl⟩ := hskip
    constructor
    · exact hnext
    · exact h.placed
    · intro root tag hroot _
      -- an open tile has a tag
      obtain ⟨-, i, hi, -⟩ := h.opened root hroot p ⟨k, hlist ▸ List.mem_cons_self⟩
      exact nomatch hnone.symm.trans hi
  | inr hexpand =>
    obtain ⟨tag, e, he⟩ := hexpand
    obtain ⟨root, bound, hroot₁, -, -, hin, -, hexp⟩ := h.expansion hf hmax hle hlist he
    obtain ⟨root', hroot₁', -, -, hexpanding⟩ := h.expanding hf hlist he.tagged he.run
    obtain rfl := Option.some.inj (hroot₁.symm.trans hroot₁')
    have hfinder : a'.finder = e.finder := by rw [he.next]
    have hexpSame := hexp.same.toSameSearch
    constructor
    · exact hnext
    · intro i hi
      rw [hfinder] at hi
      cases hexp.tag i with
      | inl hkept => exact h.placed i ⟨hi.1, (hexpSame.carries_congr hkept).1 hi.2⟩
      | inr hrelit =>
        obtain ⟨q, hq, -, hqin, -⟩ := hrelit.tile hin he.tagged
        exact ⟨q, hqin, (hsame.toSameSearch.getTileTag q).symm.trans hq⟩
    · intro root' tagEnd hroot' htagEnd
      have hlab := h.labelled root' tagEnd hroot' htagEnd
      have hstart := hexp.label_le hlab.visited_start
      rw [hfinder]
      constructor
      · exact hstart.1
      · have hzero := hstart.2
        rw [hlab.start] at hzero
        omega
      · intro y hy
        obtain ⟨hyin, i, hyi, hci⟩ := hy
        have hyi₀ : a.finder.getTileTag t y = some i := (hexpSame.getTileTag y).symm.trans hyi
        cases hexp.tag i with
        | inr hrelit =>
          exact .inl (h.opened_of_relit hend hlegal hreopen hlt hlist he hin hexpanding hroot₁
            ⟨tagEnd, htagEnd⟩ hrelit hyin hyi₀)
        | inl hkept =>
          have hyvis : Visited t a.finder y := ⟨hyin, i, hyi₀, (hexpSame.carries_congr hkept).1 hci⟩
          exact h.closed_of_kept hf hmax hle hlist he hexp hroot' htagEnd hyvis hyi₀ hkept

/-! ## Links -/

/-- The parents of a tile lead to the start in `n` links. -/
def LinkedIn (t : Params) (s : PathFinder) (ptStart p : Point) (n : Nat) : Prop :=
  ∃ tag tags, s.getTileTag t p = some tag ∧
    Trail (fun i => (s.tileTags i).pParent) (some tag) tags ∧
    tags.getLast? = s.getTileTag t ptStart ∧ tags.length = n + 1

/-- The links of the target are as many as the least number of moves there. -/
def ShortestLinks (t : Params) (move : Point → Point → Prop) (s : PathFinder)
    (ptStart ptEnd : Point) : Prop :=
  ∃ n, LinkedIn t s ptStart ptEnd n ∧ IsLeast { m | Moves move m ptStart ptEnd } n

/-- No open tile offers a shorter way to the target than the target's links. -/
def NothingShorter (t : Params) (move : Point → Point → Prop) (ptStart ptEnd : Point)
    (a : AStar) : Prop :=
  ∀ n, LinkedIn t a.finder ptStart ptEnd n → ∀ q, Opened a.openList q →
    ∀ m, LinkedIn t a.finder ptStart q m → ∀ k, Moves move k q ptEnd → n ≤ m + k

theorem LinkedIn.unique {p : Point} {n m : Nat} (h : LinkedIn t s ptStart p n)
    (h' : LinkedIn t s ptStart p m) : n = m := by
  obtain ⟨tag, tags, htag, htrail, -, hlen⟩ := h
  obtain ⟨tag', tags', htag', htrail', -, hlen'⟩ := h'
  obtain rfl := Option.some.inj (htag.symm.trans htag')
  rw [htrail.unique htrail'] at hlen
  omega

/-- A visited tile has at most as many links as its label says. -/
theorem AStarGraded.linked {a : AStar} {p : Point} (h : AStarGraded t f s₁ ptStart ptEnd a)
    {root : Nat} (hroot : s₁.getTileTag t ptStart = some root) (hp : Visited t a.finder p) :
    ∃ n, LinkedIn t a.finder ptStart p n ∧ n ≤ label t a.finder p := by
  obtain ⟨-, i, hi, hc⟩ := hp
  obtain ⟨bound, -, hgraded⟩ := h.graded root hroot
  obtain ⟨tags, htrail, hlast, hlen⟩ := hgraded.trail ⟨getTileTag_lt hi, hc⟩
  rw [label_of_tag hi]
  cases tags with
  | nil => exact nomatch hlast
  | cons b tags =>
    rw [List.length_cons] at hlen
    apply Exists.intro tags.length
    constructor
    · refine ⟨i, b :: tags, hi, htrail, ?_, List.length_cons⟩
      rw [hlast, h.same.toSameSearch.getTileTag, hroot]
    · omega

/-- The last link of a chain is a move from the tile of the parent, where the links are legal. -/
theorem AStarLabelled.last_move {a : AStar} {p : Point} {n : Nat}
    (h : AStarLabelled t f s₁ ptStart ptEnd a) (hlegal : LinksLegal t f a.finder ptStart)
    (hp : Visited t a.finder p) (hlinked : LinkedIn t a.finder ptStart p (n + 1)) :
    ∃ q, Visited t a.finder q ∧ LinkedIn t a.finder ptStart q n ∧ AStarMove t f s₁ q p := by
  have hsame := h.same.toSameSearch
  obtain ⟨tag, tags, htag, htrail, hlast, hlen⟩ := hlinked
  obtain ⟨hin, i, hi, hc⟩ := hp
  obtain rfl := Option.some.inj (htag.symm.trans hi)
  cases htrail with
  | @cons _ tags htrail =>
    rw [List.length_cons] at hlen
    have hne : tags ≠ [] := by
      rintro rfl
      exact nomatch hlen
    obtain ⟨j, tags', hj, -⟩ := htrail.exists_cons hne
    rw [hj] at htrail
    rw [List.getLast?_cons_of_ne_nil hne] at hlast
    have hroot : ∃ root, a.finder.getTileTag t ptStart = some root := by
      rw [← hlast]
      exact ⟨_, List.getLast?_eq_getLast_of_ne_nil hne⟩
    obtain ⟨root, hroot⟩ := hroot
    have hroot₁ : s₁.getTileTag t ptStart = some root := (hsame.getTileTag ptStart).symm.trans hroot
    obtain ⟨bound, -, hgraded⟩ := h.graded root hroot₁
    have htouched : Touched t a.finder tag := ⟨getTileTag_lt htag, hc⟩
    -- the root has no parent, and so is not the tile
    have hnroot : tag ≠ root := by
      rintro rfl
      rw [hgraded.begins.2.1] at hj
      exact nomatch hj
    obtain ⟨j', hj', htj, -⟩ := hgraded.graded tag htouched hnroot
    obtain rfl := Option.some.inj (hj'.symm.trans hj)
    obtain ⟨q, hq, htq₁⟩ := h.placed j' htj
    have htq : a.finder.getTileTag t q = some j' := (hsame.getTileTag q).trans htq₁
    have hmove := hlegal root hroot tag htouched hnroot j' hj
    rw [tileToPoint_getTileTag hq htq, tileToPoint_getTileTag hin htag] at hmove
    refine ⟨q, ⟨hq, j', htq, htj.2⟩, ⟨j', tags, htq, htrail, hlast, by omega⟩, ?_⟩
    exact ⟨hmove, hin, tag, (hsame.getTileTag p).symm.trans htag⟩

/-- Where the links are legal they are moves. -/
theorem AStarLabelled.moves {a : AStar} {p : Point} {n : Nat}
    (h : AStarLabelled t f s₁ ptStart ptEnd a) (hstart : ptStart.InRange)
    (hlegal : LinksLegal t f a.finder ptStart) (hp : Visited t a.finder p)
    (hlinked : LinkedIn t a.finder ptStart p n) : Moves (AStarMove t f s₁) n ptStart p := by
  induction n generalizing p with
  | zero =>
    obtain ⟨tag, tags, htag, htrail, hlast, hlen⟩ := hlinked
    obtain ⟨b, rfl⟩ := List.length_eq_one_iff.1 hlen
    cases htrail
    obtain rfl := getTileTag_inj hp.1 hstart htag hlast.symm
    exact .refl p
  | succ n ih =>
    obtain ⟨q, hq, hrest, hmove⟩ := h.last_move hlegal hp hlinked
    exact (ih hq hrest).tail hmove

/-! ## The search -/

/-- The loop begins with the start alone, labelled zero. -/
theorem aStarStart_labelled (ptEnd : Point) (hstart : ptStart.InRange) (hunused : Unused t s) :
    AStarLabelled t f (aStarStart t s ptStart ptEnd).finder ptStart ptEnd
      (aStarStart t s ptStart ptEnd) := by
  have hgraded : AStarGraded t f (aStarStart t s ptStart ptEnd).finder ptStart ptEnd
      (aStarStart t s ptStart ptEnd) := aStarStart_graded ptEnd hstart hunused
  -- at first only the start is visited
  have hvisited : ∀ p, Visited t (aStarStart t s ptStart ptEnd).finder p → p = ptStart := by
    intro p ⟨hin, i, hi, hc⟩
    obtain ⟨hroot, -⟩ := aStarStart_touched ptEnd hstart hunused ⟨getTileTag_lt hi, hc⟩
    exact getTileTag_inj hin hstart hi hroot
  constructor
  · exact hgraded
  -- and only its tag is touched
  · exact fun i hi => ⟨ptStart, hstart, (aStarStart_touched ptEnd hstart hunused hi).1⟩
  · intro root tag hroot htag
    have hlist : (aStarStart t s ptStart ptEnd).openList = [(0, ptStart)] := by
      unfold aStarStart
      rfl
    have hopened : Opened (aStarStart t s ptStart ptEnd).openList ptStart := by
      rw [hlist]
      exact opened_start.2 rfl
    have hstart' := hgraded.opened root hroot ptStart hopened
    -- the start is open, with label zero
    constructor
    · exact hstart'
    · obtain ⟨-, i, hi, hc⟩ := hstart'
      rw [label_of_tag hi]
      exact (aStarStart_touched ptEnd hstart hunused ⟨getTileTag_lt hi, hc⟩).2
    · intro y hy
      exact .inl (hvisited y hy ▸ hopened)

/-- As long as no turn reopens a tile across a corner, the labels are kept. -/
theorem AStarReached.labelled {a : AStar} (hf : s.Pure f) (hstart : ptStart.InRange)
    (hend : ptEnd.InRange) (hmax : s.nMaxStep ≤ 65535) (hunused : Unused t s)
    (hreopen : ∀ a, AStarReached t s ptStart ptEnd a → ReopensLegally t f ptEnd a)
    (h : AStarReached t s ptStart ptEnd a) :
    AStarLabelled t f (aStarStart t s ptStart ptEnd).finder ptStart ptEnd a := by
  have hf₁ := aStarStart_pure (t := t) ptStart ptEnd hf
  have hlegal : ∀ a, AStarReached t s ptStart ptEnd a → LinksLegal t f a.finder ptStart :=
    fun a ha => ha.linksLegal hf hstart hend hmax hunused hreopen
  rw [← aStarStart_nMaxStep (t := t) s ptStart ptEnd] at hmax
  obtain ⟨n, hn⟩ := h
  induction n generalizing a with
  | zero =>
    obtain rfl := Sum.inl.inj (Option.some.inj hn)
    exact aStarStart_labelled ptEnd hstart hunused
  | succ n ih =>
    obtain ⟨a₀, hrun, hbody⟩ := Loop.run_succ_last hn
    exact (ih hrun).turn hf₁ hend hmax (hlegal a₀ ⟨n, hrun⟩) (hreopen a₀ ⟨n, hrun⟩) hbody

/-- If `FindAStar` returns true and has reopened no tile across a corner, the chain of parents is a
    shortest way if and only if no tile that was open at the last turn offers a shorter one. -/
theorem findAStar_shortest (t : Params) (f : Point → Bool) (s s' : PathFinder)
    (ptStart ptEnd : Point) (hf : s.Pure f) (hstart : ptStart.InRange) (hend : ptEnd.InRange)
    (hmax : s.nMaxStep ≤ 65535) (hunused : Unused t s)
    (hreopen : ∀ a, AStarReached t s ptStart ptEnd a → ReopensLegally t f ptEnd a)
    (hfind : findAStar t s ptStart ptEnd = some (true, s')) :
    ∃ a, AStarReached t s ptStart ptEnd a ∧ aStarBody t ptEnd a = some (.inr (true, s')) ∧
      (ShortestLinks t (AStarMove t f { s with ptStart := ptStart }) s' ptStart ptEnd ↔
        NothingShorter t (AStarMove t f { s with ptStart := ptStart }) ptStart ptEnd a) := by
  obtain ⟨n, a, hrun, hexit⟩ := Loop.run_last (loopResult_eq_some hfind)
  have ha : AStarReached t s ptStart ptEnd a := ⟨n, hrun⟩
  have h := ha.labelled hf hstart hend hmax hunused hreopen
  have hlegal := ha.linksLegal hf hstart hend hmax hunused hreopen
  refine ⟨a, ha, hexit, ?_⟩
  rw [← aStarStart_move ptStart ptEnd]
  cases aStarBody_step hexit with
  | @arrived k tag openList hlist htag =>
    have hlinked : ∀ {p : Point} {n : Nat},
        LinkedIn t { a.finder.counted with pNearestTile := some tag } ptStart p n ↔
          LinkedIn t a.finder ptStart p n := Iff.rfl
    have hopened : Opened a.openList ptEnd := ⟨k, hlist ▸ List.mem_cons_self⟩
    have htagEnd := (h.same.toSameSearch.getTileTag ptEnd).symm.trans htag
    have hroot : ∃ root, (aStarStart t s ptStart ptEnd).finder.getTileTag t ptStart =
      some root := by
      apply Option.ne_none_iff_exists'.1
      intro hnone
      have hno := (h.outside hnone).2 ptEnd hopened
      rw [htagEnd] at hno
      exact nomatch hno
    obtain ⟨root, hroot⟩ := hroot
    have hvisited : ∀ {q : Point}, Opened a.openList q → Visited t a.finder q := fun hq =>
      h.opened root hroot _ hq
    constructor
    · -- a shorter way over an open tile would be a shorter way to the target
      intro ⟨n, hn, hleast⟩ n' hn' q hq m hm k' hk'
      obtain rfl := hn'.unique (hlinked.1 hn)
      have hway := h.moves hstart hlegal (hvisited hq) hm
      exact hleast.2 (hway.trans hk')
    · -- every other way leaves what was expanded through an open tile
      intro hnothing
      obtain ⟨n, hn, hlabel⟩ := h.linked hroot (hvisited hopened)
      refine ⟨n, hlinked.2 hn, h.moves hstart hlegal (hvisited hopened) hn, ?_⟩
      intro m hm
      apply (h.labelled root tag hroot htagEnd).lower_bound hlabel _ hm
      intro y k' hy hk'
      obtain ⟨m', hm', hle⟩ := h.linked hroot (hvisited hy)
      have hshort := hnothing n hn y hy m' hm' k' hk'
      omega

/-- Around one blocked tile the links take five moves where four would do. -/
theorem not_findAStar_shortest :
    ∃ s', findAStar smallParams (smallMap [⟨1, 3⟩]) ⟨0, 3⟩ ⟨3, 0⟩ = some (true, s') ∧
      LinkedIn smallParams s' ⟨0, 3⟩ ⟨3, 0⟩ 5 ∧
      Moves (AStarMove smallParams (blockedAt [⟨1, 3⟩])
        { smallMap [⟨1, 3⟩] with ptStart := ⟨0, 3⟩ }) 4 ⟨0, 3⟩ ⟨3, 0⟩ ∧
      ¬ ShortestLinks smallParams (AStarMove smallParams (blockedAt [⟨1, 3⟩])
        { smallMap [⟨1, 3⟩] with ptStart := ⟨0, 3⟩ }) s' ⟨0, 3⟩ ⟨3, 0⟩ := by
  have hret : (findAStar smallParams (smallMap [⟨1, 3⟩]) ⟨0, 3⟩ ⟨3, 0⟩).map (fun r =>
      (r.1, [15, 23, 30, 29, 28, 36].map (fun i => (r.2.tileTags i).pParent),
        r.2.getTileTag smallParams ⟨0, 3⟩, r.2.getTileTag smallParams ⟨3, 0⟩)) =
      some (true, [some 23, some 30, some 29, some 28, some 36, none], some 36, some 15) := by
    decide +kernel
  obtain ⟨⟨ret, s'⟩, hrun, hr⟩ := Option.map_eq_some_iff.1 hret
  obtain ⟨rfl, hr⟩ := Prod.mk.inj hr
  obtain ⟨hparents, hr⟩ := Prod.mk.inj hr
  obtain ⟨hroot, htag⟩ := Prod.mk.inj hr
  simp only [List.map_cons, List.map_nil, List.cons.injEq, and_true] at hparents
  obtain ⟨h15, h23, h30, h29, h28, h36⟩ := hparents
  -- the parents as the search has left them
  have htrail : Trail (fun i => (s'.tileTags i).pParent) (some 15) [15, 23, 30, 29, 28, 36] := by
    apply Trail.cons
    rw [h15]
    apply Trail.cons
    rw [h23]
    apply Trail.cons
    rw [h30]
    apply Trail.cons
    rw [h29]
    apply Trail.cons
    rw [h28]
    apply Trail.cons
    rw [h36]
    exact .nil
  have hlinked : LinkedIn smallParams s' ⟨0, 3⟩ ⟨3, 0⟩ 5 :=
    ⟨15, [15, 23, 30, 29, 28, 36], htag, htrail, hroot.symm, rfl⟩
  have hmove : ∀ {p q : Point} {i : Nat}, Neighbour p q → ¬ Refused (blockedAt [⟨1, 3⟩]) p q →
      q.InRange → { smallMap [⟨1, 3⟩] with ptStart := ⟨0, 3⟩ }.getTileTag smallParams q = some i →
      AStarMove smallParams (blockedAt [⟨1, 3⟩]) { smallMap [⟨1, 3⟩] with ptStart := ⟨0, 3⟩ } p q :=
    fun hnear hfree hin htag => ⟨.of_not_refused hnear hfree, hin, _, htag⟩
  -- the way past the other side of the block
  have hmoves : Moves (AStarMove smallParams (blockedAt [⟨1, 3⟩])
      { smallMap [⟨1, 3⟩] with ptStart := ⟨0, 3⟩ }) 4 ⟨0, 3⟩ ⟨3, 0⟩ := by
    have h₁ := @hmove ⟨0, 3⟩ ⟨0, 2⟩ 28 (by constructor <;> decide) (by decide)
      (by constructor <;> decide)
      (by decide +kernel)
    have h₂ := @hmove ⟨0, 2⟩ ⟨1, 1⟩ 21 (by constructor <;> decide) (by decide)
      (by constructor <;> decide)
      (by decide +kernel)
    have h₃ := @hmove ⟨1, 1⟩ ⟨2, 0⟩ 14 (by constructor <;> decide) (by decide)
      (by constructor <;> decide)
      (by decide +kernel)
    have h₄ := @hmove ⟨2, 0⟩ ⟨3, 0⟩ 15 (by constructor <;> decide) (by decide)
      (by constructor <;> decide)
      (by decide +kernel)
    exact .head h₁ (.head h₂ (.head h₃ (.head h₄ (.refl _))))
  refine ⟨s', hrun, hlinked, hmoves, ?_⟩
  intro ⟨n, hn, hleast⟩
  obtain rfl := hn.unique hlinked
  exact absurd (hleast.2 hmoves) (by decide)

/-- Each move leads at most one column on. -/
theorem Moves.x_le {s : PathFinder} {p q : Point} {n : Nat} (h : Moves (AStarMove t f s) n p q) :
    q.x ≤ p.x + n := by
  induction h with
  | refl p => exact Int.le_add_of_nonneg_right (Int.natCast_nonneg _)
  | head hmove _ ih =>
    have hnear := hmove.near.le_x
    omega

/-- Around a block on the straight way: the links take as many moves as there are columns between
    the two ends, so no open tile offers a shorter way. -/
theorem findAStar_shortest_block :
    ∃ a s', AStarReached smallParams (smallMap [⟨1, 1⟩]) ⟨0, 2⟩ ⟨3, 1⟩ a ∧
      aStarBody smallParams ⟨3, 1⟩ a = some (.inr (true, s')) ∧
      ShortestLinks smallParams (AStarMove smallParams (blockedAt [⟨1, 1⟩])
        { smallMap [⟨1, 1⟩] with ptStart := ⟨0, 2⟩ }) s' ⟨0, 2⟩ ⟨3, 1⟩ ∧
      NothingShorter smallParams (AStarMove smallParams (blockedAt [⟨1, 1⟩])
        { smallMap [⟨1, 1⟩] with ptStart := ⟨0, 2⟩ }) ⟨0, 2⟩ ⟨3, 1⟩ a := by
  have hret : (findAStar smallParams (smallMap [⟨1, 1⟩]) ⟨0, 2⟩ ⟨3, 1⟩).map (fun r =>
      (r.1, [31, 38, 37, 36].map (fun i => (r.2.tileTags i).pParent),
        r.2.getTileTag smallParams ⟨0, 2⟩, r.2.getTileTag smallParams ⟨3, 1⟩)) =
      some (true, [some 38, some 37, some 36, none], some 36, some 31) := by
    decide +kernel
  have htags : ∀ a ∈ Loop.trace (aStarBody smallParams ⟨3, 1⟩) (fun a => [a])
      (aStarStart smallParams (smallMap [⟨1, 1⟩]) ⟨0, 2⟩ ⟨3, 1⟩).finder.stepsLeft
      (aStarStart smallParams (smallMap [⟨1, 1⟩]) ⟨0, 2⟩ ⟨3, 1⟩),
      ReopensTags smallParams (blockedAt [⟨1, 1⟩]) a := by
    decide +kernel
  obtain ⟨⟨ret, s'⟩, hrun, hr⟩ := Option.map_eq_some_iff.1 hret
  obtain ⟨rfl, hr⟩ := Prod.mk.inj hr
  obtain ⟨hparents, hr⟩ := Prod.mk.inj hr
  obtain ⟨hroot, htag⟩ := Prod.mk.inj hr
  simp only [List.map_cons, List.map_nil, List.cons.injEq, and_true] at hparents
  obtain ⟨h31, h38, h37, h36⟩ := hparents
  -- the chain of parents from the target back to the start
  have htrail : Trail (fun i => (s'.tileTags i).pParent) (some 31) [31, 38, 37, 36] := by
    apply Trail.cons
    rw [h31]
    apply Trail.cons
    rw [h38]
    apply Trail.cons
    rw [h37]
    apply Trail.cons
    rw [h36]
    exact .nil
  obtain ⟨a, ha, hexit, hiff⟩ := findAStar_shortest smallParams (blockedAt [⟨1, 1⟩])
    (smallMap [⟨1, 1⟩]) s' ⟨0, 2⟩ ⟨3, 1⟩ (smallMap_pure _) ⟨by decide, by decide⟩
    ⟨by decide, by decide⟩ (by decide) (fun _ _ h => nomatch h)
    (fun a ha => (forall_aStarReached htags hrun a ha).reopensLegally) hrun
  have hmove : ∀ {p q : Point} {i : Nat}, Neighbour p q → ¬ Refused (blockedAt [⟨1, 1⟩]) p q →
      q.InRange → { smallMap [⟨1, 1⟩] with ptStart := ⟨0, 2⟩ }.getTileTag smallParams q = some i →
      AStarMove smallParams (blockedAt [⟨1, 1⟩]) { smallMap [⟨1, 1⟩] with ptStart := ⟨0, 2⟩ } p q :=
    fun hnear hfree hin htag => ⟨.of_not_refused hnear hfree, hin, _, htag⟩
  have hshortest : ShortestLinks smallParams (AStarMove smallParams (blockedAt [⟨1, 1⟩])
      { smallMap [⟨1, 1⟩] with ptStart := ⟨0, 2⟩ }) s' ⟨0, 2⟩ ⟨3, 1⟩ := by
    -- three moves lead to the target, and each goes one column on at most
    refine ⟨3, ⟨31, [31, 38, 37, 36], htag, htrail, hroot.symm, rfl⟩, ?_, ?_⟩
    · have h₁ := @hmove ⟨0, 2⟩ ⟨1, 2⟩ 37 (by decide) (by decide) (by constructor <;> decide)
        (by decide +kernel)
      have h₂ := @hmove ⟨1, 2⟩ ⟨2, 2⟩ 38 (by decide) (by decide) (by constructor <;> decide)
        (by decide +kernel)
      have h₃ := @hmove ⟨2, 2⟩ ⟨3, 1⟩ 31 (by decide) (by decide) (by constructor <;> decide)
        (by decide +kernel)
      exact .head h₁ (.head h₂ (.head h₃ (.refl _)))
    · intro m hm
      have hcolumns : (3 : Int) ≤ 0 + m := Moves.x_le hm
      omega
  exact ⟨a, s', ha, hexit, hshortest, hiff.1 hshortest⟩

end XGame3.PathFinder
