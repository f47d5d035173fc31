import XGame3.ForStd.Worklist
import XGame3.Spec.AStarSteps

/-!
# A* decides reachability

`FindAStar` is a work list search: the open list holds the tiles to expand, a tag that
carries the search's number is a visited tile.  Which entry it takes first, that it
reopens tiles, or that it changes the parent of a tile and then leaves it, makes no
difference to what is visited.

Key results:
- `aStarBody_inv`: one turn of the loop is one round of the work list search.
- `findAStar_decides`: with `ptStart` inside, a search that returns true found a way of
  legal moves, and one that ran out of open tiles shows that there is none.
- `not_findAStar_decides_outside`: from outside the map it finds nothing.
-/

namespace XGame3.PathFinder

open FixedInt Worklist

variable {t : Params} {s s' s₁ : PathFinder} {f : Point → Bool} {ptStart ptEnd : Point}

/-! ## The open list -/

/-- A tile is on the open list. -/
def Opened (openList : List (Nat × Point)) (p : Point) : Prop := ∃ k, (k, p) ∈ openList

/-- Inserting adds the tile and keeps the others. -/
theorem mem_insertOpen {k : Nat} {p : Point} {openList : List (Nat × Point)} {e : Nat × Point} :
    e ∈ insertOpen k p openList ↔ e = (k, p) ∨ e ∈ openList := by
  induction openList with
  | nil => exact List.mem_singleton.trans (or_iff_left List.not_mem_nil).symm
  | cons e' openList ih =>
    unfold insertOpen
    split
    · exact List.mem_cons
    · rw [List.mem_cons, ih, List.mem_cons, or_left_comm]

/-- What was found at a distance that did not overflow is queued. -/
theorem opened_pushFound {e : Expansion} {step : Nat} {openList : List (Nat × Point)} {p : Point} :
    Opened (pushFound e step openList) p ↔
      Opened openList p ∨ ∃ g ∈ e.found, 0 ≤ g.2.1 ∧ g.2.2 = p := by
  unfold pushFound
  generalize hg : e.found = found
  clear hg
  induction found generalizing openList with
  | nil => exact (or_iff_left fun ⟨_, hg, _⟩ => List.not_mem_nil hg).symm
  | cons g found ih =>
    rw [List.foldl_cons, ih]
    have hhead : Opened (if g.2.1 ≥ 0 then insertOpen (score e step g.1 g.2.1) g.2.2 openList
        else openList) p ↔ Opened openList p ∨ 0 ≤ g.2.1 ∧ g.2.2 = p := by
      unfold Opened
      split
      · -- queued under its score, which says nothing about where it leads
        rename_i hdist
        constructor
        · intro ⟨k, hk⟩
          cases mem_insertOpen.1 hk with
          | inl heq => exact .inr ⟨hdist, (Prod.mk.inj heq).2.symm⟩
          | inr hold => exact .inl ⟨k, hold⟩
        · intro h
          cases h with
          | inl hold => exact hold.imp fun k hk => mem_insertOpen.2 (.inr hk)
          | inr hnew =>
            rw [← hnew.2]
            exact ⟨_, mem_insertOpen.2 (.inl rfl)⟩
      · rename_i hdist
        exact (or_iff_left fun h => hdist h.1).symm
    rw [hhead, or_assoc]
    simp only [List.mem_cons, exists_eq_or_imp]

/-! ## One turn of the loop -/

/-- The tile has a tag that carries the number of the search. -/
def Visited (t : Params) (s : PathFinder) (p : Point) : Prop :=
  p.InRange ∧ ∃ tag, s.getTileTag t p = some tag ∧ s.Carries tag

/-- One turn of the loop of `FindAStar`. -/
inductive AStarStep (t : Params) (ptEnd : Point) (a : AStar) : AStar ⊕ (Bool × PathFinder) → Prop
  | limit : ¬ a.finder.counted.nStepCount ≤ a.finder.counted.nMaxStep →
      AStarStep t ptEnd a (.inr (false, a.finder.counted))
  | empty : a.openList = [] → AStarStep t ptEnd a (.inr (false, a.finder.counted))
  | skip {k : Nat} {p : Point} {openList : List (Nat × Point)} :
      a.openList = (k, p) :: openList → a.finder.counted.getTileTag t p = none →
      AStarStep t ptEnd a (.inl ⟨a.finder.counted, openList, a.nNearestDist⟩)
  | arrived {k tag : Nat} {openList : List (Nat × Point)} :
      a.openList = (k, ptEnd) :: openList → a.finder.counted.getTileTag t ptEnd = some tag →
      AStarStep t ptEnd a (.inr (true, { a.finder.counted with pNearestTile := some tag }))
  | expanded {k tag step : Nat} {p : Point} {openList : List (Nat × Point)} {e : Expansion} :
      a.openList = (k, p) :: openList → a.finder.counted.getTileTag t p = some tag → p ≠ ptEnd →
      expand t p ptEnd tag step [0, 1, 2, 3, 4, 5, 6, 7]
        ⟨a.finder.counted, a.nNearestDist, 0, 0, []⟩ = some e →
      AStarStep t ptEnd a (.inl ⟨e.finder, pushFound e step openList, e.nNearestDist⟩)

/-- A turn of the body is a step of the relation. -/
theorem aStarBody_step {a : AStar} {r : AStar ⊕ (Bool × PathFinder)}
    (h : aStarBody t ptEnd a = some r) : AStarStep t ptEnd a r := by
  unfold aStarBody at h
  dsimp only at h
  split at h
  · split at h
    -- an empty list
    · rename_i hlist
      obtain rfl := Option.some.inj h
      exact .empty hlist
    · rename_i hlist
      split at h
      -- a tile outside the window
      · rename_i htag
        obtain rfl := Option.some.inj h
        exact .skip hlist htag
      · rename_i htag
        split at h
        · rename_i hend
          subst hend
          obtain rfl := Option.some.inj h
          exact .arrived hlist htag
        · rename_i hend
          -- a tile to expand
          obtain ⟨e, he, h⟩ := Option.bind_eq_some_iff.1 h
          obtain rfl := Option.some.inj h
          exact .expanded hlist htag hend he
  -- past the limit of steps
  · rename_i hlimit
    obtain rfl := Option.some.inj h
    exact .limit hlimit

/-! ## The invariant -/

/-- What holds at every turn.  `s₁` is the state the loop begins in. -/
structure AStarInv (t : Params) (f : Point → Bool) (s₁ : PathFinder) (ptStart ptEnd : Point)
    (a : AStar) : Prop where
  same : SameIds s₁ a.finder
  outside : s₁.getTileTag t ptStart = none →
    a.finder.pNearestTile = none ∧ ∀ p, Opened a.openList p → s₁.getTileTag t p = none
  tree : ∀ root, s₁.getTileTag t ptStart = some root → Tree t a.finder root
  opened : ∀ root, s₁.getTileTag t ptStart = some root →
    ∀ p, Opened a.openList p → Visited t a.finder p
  search : ∀ root tag, s₁.getTileTag t ptStart = some root → s₁.getTileTag t ptEnd = some tag →
    Searching (AStarMove t f s₁) ptStart ptEnd (Visited t a.finder) (Opened a.openList)

/-- What the search has shown when it returns. -/
structure AStarResult (t : Params) (f : Point → Bool) (s₁ : PathFinder) (ptStart ptEnd : Point)
    (r : Bool × PathFinder) : Prop where
  same : SameIds s₁ r.2
  outside : s₁.getTileTag t ptStart = none → r.2.pNearestTile = none
  tree : ∀ root, s₁.getTileTag t ptStart = some root → Tree t r.2 root
  found : r.1 = true → Relation.ReflTransGen (AStarMove t f s₁) ptStart ptEnd ∧
    ∃ tag, s₁.getTileTag t ptEnd = some tag ∧ r.2.pNearestTile = some tag
  exhausted : r.1 = false → r.2.nStepCount ≤ r.2.nMaxStep →
    (∃ root, s₁.getTileTag t ptStart = some root) →
    ¬ Relation.ReflTransGen (AStarMove t f s₁) ptStart ptEnd

/-- Being visited is a fact about the tags, -/
theorem SameTags.visited (h : SameTags s s') {p : Point} : Visited t s' p ↔ Visited t s p := by
  unfold Visited
  simp only [h.toSameSearch.getTileTag, h.carries]

/-- and so is the tree. -/
theorem SameTags.tree (h : SameTags s s') {root : Nat} (hs : Tree t s root) : Tree t s' root where
  closed := fun i hi => by
    rw [h.tileTags]
    have hold := hs.closed i ⟨hi.1, h.carries.1 hi.2⟩
    exact ⟨hold.1, fun j hj => ⟨(hold.2 j hj).1, h.carries.2 (hold.2 j hj).2⟩⟩
  nearest := fun i hi =>
    have hold := hs.nearest i (h.pNearestTile ▸ hi)
    ⟨hold.1, h.carries.2 hold.2⟩

/-- Moves depend on the map and the window only. -/
theorem aStarMove_congr (h : ∀ p, s'.getTileTag t p = s.getTileTag t p) :
    AStarMove t f s' = AStarMove t f s := by
  funext p q
  apply propext
  constructor
  · exact fun hm => ⟨hm.toLegalMove, hm.inRange, h q ▸ hm.tagged⟩
  · exact fun hm => ⟨hm.toLegalMove, hm.inRange, (h q).symm ▸ hm.tagged⟩

/-- A move depends on the map and the window only. -/
theorem SameSearch.aStarMove (h : SameSearch s s') {p q : Point} :
    AStarMove t f s' p q ↔ AStarMove t f s p q := by
  rw [aStarMove_congr h.getTileTag]

/-- An expansion visits what it finds and nothing else. -/
theorem Expanding.visited {s₀ : PathFinder} {p q : Point} {root : Nat} {tried : List Nat}
    {e : Expansion} (h : Expanding t f s₀ p ptEnd root tried e) :
    Visited t e.finder q ↔ Visited t s₀ q ∨ ∃ g ∈ e.found, g.2.2 = q := by
  unfold Visited
  simp only [h.same.toSameSearch.getTileTag, h.carries]
  constructor
  -- a tile of the search is an old one, or the tag of one found
  · intro ⟨hin, i, hi, hc⟩
    cases hc with
    | inl hold => exact .inl ⟨hin, i, hi, hold⟩
    | inr hnew =>
      obtain ⟨g, hg, hgi⟩ := hnew
      exact .inr ⟨g, hg, getTileTag_inj (h.found g hg).2.inRange hin hgi hi⟩
  -- both kinds are visited
  · intro hq
    cases hq with
    | inl hold =>
      obtain ⟨hin, i, hi, hc⟩ := hold
      exact ⟨hin, i, hi, .inl hc⟩
    | inr hnew =>
      obtain ⟨g, hg, rfl⟩ := hnew
      obtain ⟨i, hi⟩ := (h.found g hg).2.tagged
      exact ⟨(h.found g hg).2.inRange, i, hi, .inr ⟨g, hg, hi⟩⟩

/-- The first open tile is visited, and expanding it finds its free neighbours. -/
theorem AStarInv.expanding {a : AStar} {k tag step : Nat} {p : Point}
    {openList : List (Nat × Point)} {e : Expansion} (h : AStarInv t f s₁ ptStart ptEnd a)
    (hf : s₁.Pure f) (hlist : a.openList = (k, p) :: openList)
    (htag : a.finder.counted.getTileTag t p = some tag)
    (he : expand t p ptEnd tag step [0, 1, 2, 3, 4, 5, 6, 7]
      ⟨a.finder.counted, a.nNearestDist, 0, 0, []⟩ = some e) :
    ∃ root, s₁.getTileTag t ptStart = some root ∧ p.InRange ∧ a.finder.counted.Carries tag ∧
      Expanding t f a.finder.counted p ptEnd root ([0, 1, 2, 3, 4, 5, 6, 7].reverse ++ []) e := by
  have hcount := counted_sameTags a.finder
  have hsame : SameIds s₁ a.finder.counted := h.same.trans hcount.toSameIds
  have hp : Opened a.openList p := ⟨k, hlist ▸ List.mem_cons_self⟩
  have htag₁ : s₁.getTileTag t p = some tag := (hsame.toSameSearch.getTileTag p).symm.trans htag
  match hstart : s₁.getTileTag t ptStart with
  | none =>
    -- then no tile on the list has a tag
    have hnone := (h.outside hstart).2 p hp
    rw [htag₁] at hnone
    exact nomatch hnone
  | some root =>
    obtain ⟨hin, i, hi, hc⟩ := hcount.visited.2 (h.opened root hstart p hp)
    obtain rfl := Option.some.inj (htag.symm.trans hi)
    have hbegin : Expanding t f a.finder.counted p ptEnd root []
        ⟨a.finder.counted, a.nNearestDist, 0, 0, []⟩ := by
      constructor
      · exact .refl _
      · exact hcount.tree (h.tree root hstart)
      · exact fun i => (or_iff_left fun ⟨_, hg, _⟩ => List.not_mem_nil hg).symm
      · exact fun g hg => absurd hg List.not_mem_nil
      · exact fun d hd => absurd hd List.not_mem_nil
    exact ⟨root, rfl, hin, hc, expand_expanding hbegin (hsame.toSameSearch.pure hf) hin htag hc he⟩

/-- Taking a tile that is not the target off the list and expanding it. -/
theorem AStarInv.expand {a : AStar} {k tag step : Nat} {p : Point} {openList : List (Nat × Point)}
    {e : Expansion} (h : AStarInv t f s₁ ptStart ptEnd a) (hf : s₁.Pure f) (hend : ptEnd.InRange)
    (hlist : a.openList = (k, p) :: openList) (htag : a.finder.counted.getTileTag t p = some tag)
    (hne : p ≠ ptEnd)
    (he : expand t p ptEnd tag step [0, 1, 2, 3, 4, 5, 6, 7]
      ⟨a.finder.counted, a.nNearestDist, 0, 0, []⟩ = some e) :
    AStarInv t f s₁ ptStart ptEnd ⟨e.finder, pushFound e step openList, e.nNearestDist⟩ := by
  have hcount := counted_sameTags a.finder
  have hsame : SameIds s₁ a.finder.counted := h.same.trans hcount.toSameIds
  have hp : Opened a.openList p := ⟨k, hlist ▸ List.mem_cons_self⟩
  obtain ⟨root, hstart, hin, hc, hexp⟩ := h.expanding hf hlist htag he
  have hvisited : ∀ q, Visited t e.finder q ↔
      Visited t a.finder q ∨ ∃ g ∈ e.found, g.2.2 = q := fun q => by
    rw [hexp.visited, hcount.visited]
  have hrest : ∀ q, Opened openList q → Opened a.openList q := fun q hq =>
    hq.imp fun _ hk => hlist ▸ List.mem_cons_of_mem _ hk
  have hfound : ∀ q, Opened (pushFound e step openList) q →
      Opened a.openList q ∨ ∃ g ∈ e.found, g.2.2 = q := fun q hq =>
    (opened_pushFound.1 hq).imp (hrest q) fun ⟨g, hg, _, hgq⟩ => ⟨g, hg, hgq⟩
  constructor
  · exact hsame.trans hexp.same
  · exact fun hnone => nomatch hstart.symm.trans hnone
  · intro root' hroot'
    obtain rfl := Option.some.inj (hstart.symm.trans hroot')
    exact hexp.tree
  · -- what is listed was visited
    intro root' hroot' q hq
    exact (hvisited q).2 ((hfound q hq).imp_left (h.opened root' hroot' q))
  · intro root' tagEnd hroot' htagEnd
    apply (h.search root' tagEnd hroot' htagEnd).expand hp hne hvisited
    · -- what is left of the list
      intro q ⟨k', hk'⟩ hqp
      rw [hlist] at hk'
      cases List.mem_cons.1 hk' with
      | inl heq => exact absurd (Prod.mk.inj heq).2 hqp
      | inr hmem => exact opened_pushFound.2 (.inl ⟨k', hmem⟩)
    · -- the target is in the window, so no distance overflows
      intro q ⟨g, hg, hgq⟩
      obtain ⟨hdist, hmove⟩ := hexp.found g hg
      obtain ⟨j, hj⟩ := hmove.tagged
      have hend₁ := (hsame.toSameSearch.getTileTag ptEnd).trans htagEnd
      have hnonneg := distance_nonneg hmove.inRange hend hj hend₁
      exact opened_pushFound.2 (.inr ⟨g, hg, hdist ▸ hnonneg, hgq⟩)
    · exact hfound
    · intro q ⟨g, hg, hgq⟩
      exact hgq ▸ hsame.toSameSearch.aStarMove.1 (hexp.found g hg).2
    · intro q hq
      obtain ⟨j, hj⟩ := hq.tagged
      obtain ⟨dir, hdir, hmove⟩ := exists_moveNext hq.near hq.inRange
      have htried : dir ∈ [0, 1, 2, 3, 4, 5, 6, 7].reverse ++ ([] : List Nat) := by
        rw [List.append_nil, List.mem_reverse]
        exact List.mem_range.2 hdir
      have hq' : AStarMove t f a.finder.counted p q := hsame.toSameSearch.aStarMove.2 hq
      have hj' : a.finder.counted.getTileTag t q = some j :=
        (hsame.toSameSearch.getTileTag q).trans hj
      have hcarries := hexp.covered dir htried q hmove hq' j hj'
      exact ⟨hq.inRange, j, (hexp.same.toSameSearch.getTileTag q).trans hj', hcarries⟩

/-- Moves lead from a tile with a tag to tiles with tags. -/
theorem reach_tagged {p q : Point} {i : Nat} (h : Relation.ReflTransGen (AStarMove t f s) p q)
    (hp : s.getTileTag t p = some i) : ∃ j, s.getTileTag t q = some j := by
  cases h with
  | refl => exact ⟨i, hp⟩
  | tail _ hmove => exact hmove.tagged

/-- With nothing left to try, no moves lead to the target. -/
theorem AStarInv.unreachable {a : AStar} {root : Nat} (h : AStarInv t f s₁ ptStart ptEnd a)
    (hlist : a.openList = []) (hroot : s₁.getTileTag t ptStart = some root) :
    ¬ Relation.ReflTransGen (AStarMove t f s₁) ptStart ptEnd := by
  intro hreach
  have hempty : ∀ p, ¬ Opened a.openList p := fun p ⟨k, hk⟩ => List.not_mem_nil (hlist ▸ hk)
  obtain ⟨tag, htag⟩ := reach_tagged hreach hroot
  exact (h.search root tag hroot htag).complete hempty hreach

/-- Taking the target off the list. -/
theorem AStarInv.arrived {a : AStar} {k tag : Nat} {openList : List (Nat × Point)}
    (h : AStarInv t f s₁ ptStart ptEnd a) (hlist : a.openList = (k, ptEnd) :: openList)
    (htag : a.finder.counted.getTileTag t ptEnd = some tag) :
    AStarResult t f s₁ ptStart ptEnd
      (true, { a.finder.counted with pNearestTile := some tag }) := by
  have hcount := counted_sameTags a.finder
  have hsame : SameIds s₁ a.finder.counted := h.same.trans hcount.toSameIds
  have hp : Opened a.openList ptEnd := ⟨k, hlist ▸ List.mem_cons_self⟩
  have htag₁ : s₁.getTileTag t ptEnd = some tag :=
    (hsame.toSameSearch.getTileTag ptEnd).symm.trans htag
  have hnone : s₁.getTileTag t ptStart ≠ none := by
    intro hnone
    have hno := (h.outside hnone).2 ptEnd hp
    rw [htag₁] at hno
    exact nomatch hno
  constructor
  · exact ⟨⟨hsame.ptStart, hsame.ptEnd, hsame.nMapWidth, hsame.nMapHeight, hsame.blockFunc,
      hsame.nFind, hsame.nSearchOption, hsame.nMaxStep, hsame.pathTemp⟩, hsame.ids⟩
  · exact fun hno => absurd hno hnone
  · -- the target was visited, so it is in the tree
    intro root hroot
    obtain ⟨-, i, hi, hc⟩ := hcount.visited.2 (h.opened root hroot ptEnd hp)
    obtain rfl := Option.some.inj (htag.symm.trans hi)
    constructor
    · exact (hcount.tree (h.tree root hroot)).closed
    · intro j hj
      obtain rfl := Option.some.inj hj
      exact ⟨getTileTag_lt htag, hc⟩
  · intro _
    obtain ⟨root, hroot⟩ := Option.ne_none_iff_exists'.1 hnone
    have hsearch := h.search root tag hroot htag₁
    have hreach := hsearch.reachable ptEnd (hsearch.visited_of_opened ptEnd hp)
    exact ⟨hreach, tag, htag₁, rfl⟩
  · exact fun hfalse => nomatch hfalse

/-- One turn of the loop keeps the invariant or shows the result. -/
theorem aStarBody_inv {a : AStar} {r : AStar ⊕ (Bool × PathFinder)}
    (h : AStarInv t f s₁ ptStart ptEnd a) (hf : s₁.Pure f) (hend : ptEnd.InRange)
    (hr : aStarBody t ptEnd a = some r) :
    match r with
    | .inl a' => AStarInv t f s₁ ptStart ptEnd a'
    | .inr r => AStarResult t f s₁ ptStart ptEnd r := by
  have hcount := counted_sameTags a.finder
  have hsame : SameIds s₁ a.finder.counted := h.same.trans hcount.toSameIds
  cases aStarBody_step hr with
  | limit hlimit =>
    constructor
    · exact hsame
    · exact fun hnone => (h.outside hnone).1
    · exact fun root hroot => hcount.tree (h.tree root hroot)
    · exact fun htrue => nomatch htrue
    · exact fun _ hle => absurd hle hlimit
  | empty hlist =>
    constructor
    · exact hsame
    · exact fun hnone => (h.outside hnone).1
    · exact fun root hroot => hcount.tree (h.tree root hroot)
    · exact fun htrue => nomatch htrue
    · exact fun _ _ ⟨_, hroot⟩ => h.unreachable hlist hroot
  | @skip k p openList hlist htag =>
    -- only a start without a tag can be on the list without one
    have hp : Opened a.openList p := ⟨k, hlist ▸ List.mem_cons_self⟩
    have habsurd : ∀ root, s₁.getTileTag t ptStart ≠ some root := by
      intro root hroot
      obtain ⟨-, i, hi, -⟩ := hcount.visited.2 (h.opened root hroot p hp)
      rw [htag] at hi
      exact nomatch hi
    constructor
    · exact hsame
    · intro hnone
      constructor
      · exact (h.outside hnone).1
      · intro q hq
        exact (h.outside hnone).2 q (hq.imp fun _ hk => hlist ▸ List.mem_cons_of_mem _ hk)
    · exact fun root hroot => absurd hroot (habsurd root)
    · exact fun root hroot => absurd hroot (habsurd root)
    · exact fun root _ hroot => absurd hroot (habsurd root)
  | arrived hlist htag => exact h.arrived hlist htag
  | expanded hlist htag hne he => exact h.expand hf hend hlist htag hne he

/-! ## The search as a whole -/

/-- A* searches the window around its start. -/
theorem aStarStart_getTileTag (s : PathFinder) (ptStart ptEnd p : Point) :
    (aStarStart t s ptStart ptEnd).finder.getTileTag t p =
      { s with ptStart := ptStart }.getTileTag t p := by
  unfold aStarStart
  dsimp only
  split <;> rfl

/-- The moves are those of the window around the start. -/
theorem aStarStart_move (ptStart ptEnd : Point) :
    AStarMove t f (aStarStart t s ptStart ptEnd).finder =
      AStarMove t f { s with ptStart := ptStart } :=
  aStarMove_congr (aStarStart_getTileTag s ptStart ptEnd)

/-- At first only the start is open. -/
theorem opened_start {k : Nat} {p : Point} : Opened [(k, ptStart)] p ↔ p = ptStart := by
  constructor
  · intro ⟨k', hk'⟩
    exact (Prod.mk.inj (List.mem_singleton.1 hk')).2
  · rintro rfl
    exact ⟨k, List.mem_singleton_self _⟩

/-- The start is the only visited tile. -/
theorem AStarInv.init {root k n : Nat} {g : TileTag → TileTag} (hstart : ptStart.InRange)
    (hnear : s.pNearestTile = none)
    (hnone : ∀ tag < t.maxSearchArea * t.maxSearchArea, ¬ s.Carries tag)
    (hroot : s.getTileTag t ptStart = some root) (hparent : (g (s.tileTags root)).pParent = none)
    (hfind : (g (s.tileTags root)).nFindID = s.nFind) :
    AStarInv t f (s.modifyTag root g) ptStart ptEnd
      ⟨s.modifyTag root g, [(k, ptStart)], n⟩ := by
  have hroot' : (s.modifyTag root g).getTileTag t ptStart = some root := hroot
  have htouched : ∀ i, Touched t (s.modifyTag root g) i ↔ i = root := by
    intro i
    constructor
    · exact fun hi => ((modifyTag_carries hfind).1 hi.2).resolve_right (hnone i hi.1)
    · exact fun hi => ⟨hi ▸ getTileTag_lt hroot, (modifyTag_carries hfind).2 (.inl hi)⟩
  have hvisited : ∀ p, Visited t (s.modifyTag root g) p ↔ p = ptStart := by
    intro p
    constructor
    · intro ⟨hin, i, hi, hc⟩
      obtain rfl := (htouched i).1 ⟨getTileTag_lt hi, hc⟩
      exact getTileTag_inj hin hstart hi hroot'
    · rintro rfl
      exact ⟨hstart, root, hroot', ((htouched root).2 rfl).2⟩
  constructor
  · exact .refl _
  · exact fun h => nomatch hroot'.symm.trans h
  · -- the start is a tree of its own
    intro root' hroot₁
    obtain rfl := Option.some.inj (hroot'.symm.trans hroot₁)
    constructor
    · intro i hi
      obtain rfl := (htouched i).1 hi
      rw [modifyTag_tileTags, if_pos rfl, hparent]
      exact ⟨fun _ => rfl, fun _ h => nomatch h⟩
    · intro i hi
      exact nomatch hnear.symm.trans hi
  · exact fun _ _ p hp => (hvisited p).2 (opened_start.1 hp)
  · exact fun _ _ _ _ => .init hvisited (opened_start.2 rfl) fun p hp => opened_start.1 hp

/-- The loop begins with the start alone. -/
theorem aStarStart_inv (ptEnd : Point) (hstart : ptStart.InRange) (hunused : Unused t s) :
    AStarInv t f (aStarStart t s ptStart ptEnd).finder ptStart ptEnd
      (aStarStart t s ptStart ptEnd) := by
  unfold aStarStart
  dsimp only
  split
  · rename_i hnone
    have habsurd : ∀ {root : Nat}, getTileTag t _ ptStart ≠ some root := fun h =>
      nomatch hnone.symm.trans h
    constructor
    · exact .refl _
    · exact fun _ => ⟨rfl, fun p hp => opened_start.1 hp ▸ hnone⟩
    · exact fun root hroot => absurd hroot habsurd
    · exact fun root hroot => absurd hroot habsurd
    · exact fun root _ hroot => absurd hroot habsurd
  · rename_i root hroot
    exact .init hstart rfl hunused hroot rfl rfl

/-- Starting A* leaves the answers of the map alone. -/
theorem aStarStart_pure (ptStart ptEnd : Point) (hf : s.Pure f) :
    (aStarStart t s ptStart ptEnd).finder.Pure f :=
  (aStarStart_sameMap s ptStart ptEnd).blockFunc.trans hf

/-- What `FindAStar` has shown when it returns. -/
theorem findAStar_result {r : Bool × PathFinder} (hf : s.Pure f) (hstart : ptStart.InRange)
    (hend : ptEnd.InRange) (hunused : Unused t s) (h : findAStar t s ptStart ptEnd = some r) :
    AStarResult t f (aStarStart t s ptStart ptEnd).finder ptStart ptEnd r := by
  have hf₁ : (aStarStart t s ptStart ptEnd).finder.Pure f := aStarStart_pure ptStart ptEnd hf
  have hrun := loopResult_eq_some h
  apply Loop.run_inr (I := AStarInv t f (aStarStart t s ptStart ptEnd).finder ptStart ptEnd) _ _
    (aStarStart_inv ptEnd hstart hunused) hrun
  · exact fun _ _ ha hbody => aStarBody_inv ha hf₁ hend hbody
  · exact fun _ _ ha hbody => aStarBody_inv ha hf₁ hend hbody

/-- A* returns true only behind a way of legal moves. -/
theorem findAStar_found (hf : s.Pure f) (hstart : ptStart.InRange) (hend : ptEnd.InRange)
    (hunused : Unused t s) (h : findAStar t s ptStart ptEnd = some (true, s')) :
    Relation.ReflTransGen (AStarMove t f { s with ptStart := ptStart }) ptStart ptEnd := by
  rw [← aStarStart_move ptStart ptEnd]
  exact ((findAStar_result hf hstart hend hunused h).found rfl).1

/-- With turns left it returns false only where no such way is. -/
theorem findAStar_exhausted (hf : s.Pure f) (hstart : ptStart.InRange) (hend : ptEnd.InRange)
    (hunused : Unused t s) (h : findAStar t s ptStart ptEnd = some (false, s'))
    (hle : s'.nStepCount ≤ s'.nMaxStep)
    (hinside : ∃ tag, { s with ptStart := ptStart }.getTileTag t ptStart = some tag) :
    ¬ Relation.ReflTransGen (AStarMove t f { s with ptStart := ptStart }) ptStart ptEnd := by
  rw [← aStarStart_getTileTag s ptStart ptEnd ptStart] at hinside
  rw [← aStarStart_move ptStart ptEnd]
  exact (findAStar_result hf hstart hend hunused h).exhausted rfl hle hinside

/-- A* finds a way of legal moves if it returns true.  From a start inside the map and the window
    it returns false on an empty open list only if there is no such way. -/
theorem findAStar_decides {ret : Bool} (hf : s.Pure f) (hstart : ptStart.InRange)
    (hend : ptEnd.InRange) (hunused : Unused t s)
    (h : findAStar t s ptStart ptEnd = some (ret, s')) :
    (ret = true →
      Relation.ReflTransGen (AStarMove t f { s with ptStart := ptStart }) ptStart ptEnd) ∧
    (ret = false → s'.nStepCount ≤ s'.nMaxStep →
      (∃ tag, { s with ptStart := ptStart }.getTileTag t ptStart = some tag) →
      ¬ Relation.ReflTransGen (AStarMove t f { s with ptStart := ptStart }) ptStart ptEnd) := by
  constructor
  · rintro rfl
    exact findAStar_found hf hstart hend hunused h
  · rintro rfl hle hinside
    exact findAStar_exhausted hf hstart hend hunused h hle hinside

/-- In a corner closed by three blocked tiles. -/
theorem findAStar_decides_enclosed :
    ¬ Relation.ReflTransGen (AStarMove smallParams (blockedAt [⟨1, 0⟩, ⟨0, 1⟩, ⟨1, 1⟩])
      (smallMap [⟨1, 0⟩, ⟨0, 1⟩, ⟨1, 1⟩])) ⟨0, 0⟩ ⟨3, 3⟩ := by
  have hret : (findAStar smallParams (smallMap [⟨1, 0⟩, ⟨0, 1⟩, ⟨1, 1⟩]) ⟨0, 0⟩ ⟨3, 3⟩).map
      (fun r => (r.1, decide (r.2.nStepCount ≤ r.2.nMaxStep))) = some (false, true) := by
    decide +kernel
  obtain ⟨⟨ret, s'⟩, hrun, hr⟩ := Option.map_eq_some_iff.1 hret
  obtain ⟨hfalse, hle⟩ := Prod.mk.inj hr
  have hunused : Unused smallParams (smallMap [⟨1, 0⟩, ⟨0, 1⟩, ⟨1, 1⟩]) := fun _ _ h => nomatch h
  have hstart : Point.InRange ⟨0, 0⟩ := ⟨by decide, by decide⟩
  have hend : Point.InRange ⟨3, 3⟩ := ⟨by decide, by decide⟩
  have hdecides := findAStar_decides (smallMap_pure [⟨1, 0⟩, ⟨0, 1⟩, ⟨1, 1⟩]) hstart hend hunused
    hrun
  exact hdecides.2 hfalse (of_decide_eq_true hle) ⟨36, by decide +kernel⟩

/-- From a tile beside the map A* gives up although one legal move leads to the target. -/
theorem not_findAStar_decides_outside :
    ∃ s', findAStar smallParams (smallMap []) ⟨-1, 0⟩ ⟨0, 0⟩ = some (false, s') ∧
      s'.nStepCount ≤ s'.nMaxStep ∧
      Relation.ReflTransGen (AStarMove smallParams (blockedAt [])
        { smallMap [] with ptStart := ⟨-1, 0⟩ }) ⟨-1, 0⟩ ⟨0, 0⟩ := by
  have hret : (findAStar smallParams (smallMap []) ⟨-1, 0⟩ ⟨0, 0⟩).map
      (fun r => (r.1, decide (r.2.nStepCount ≤ r.2.nMaxStep))) = some (false, true) := by
    decide +kernel
  obtain ⟨⟨ret, s'⟩, hrun, hr⟩ := Option.map_eq_some_iff.1 hret
  obtain ⟨rfl, hle⟩ := Prod.mk.inj hr
  have hlegal : LegalMove (blockedAt []) ⟨-1, 0⟩ ⟨0, 0⟩ :=
    .of_not_refused ⟨by decide, by decide, by decide, by decide, by decide⟩ (by decide)
  have hmove : AStarMove smallParams (blockedAt []) { smallMap [] with ptStart := ⟨-1, 0⟩ }
      ⟨-1, 0⟩ ⟨0, 0⟩ := ⟨hlegal, ⟨by decide, by decide⟩, 37, by decide +kernel⟩
  exact ⟨s', hrun, of_decide_eq_true hle, .single hmove⟩

end XGame3.PathFinder
