import XGame3.Spec.AStarLinks
import XGame3.Spec.PathFinderEndpoints
import XGame3.Spec.PathFinderSafe

/-!
# FindPath returns

`FindPath` returns when each of its searches does: neither the A* search nor connecting the
corners can fault, and a search that returns true has come near enough to its target for
the tag that a reversed search writes through to exist.

Key results:
- `findAStar_returns`: A* returns
- `findPath_returns_of_core`: the call returns when its searches do
- `findPath_core`: only then
-/

namespace XGame3.PathFinder

open FixedInt

variable {t : Params} {s s' : PathFinder} {f : Point → Bool} {anywhere : Prop}
  {ptStart ptEnd ptTile : Point} {q : Query}

/-! ## A* -/

section

variable {pCurrent step dir : Nat} {e e' : Expansion} {dirs : List Nat}

/-- What is found are tiles. -/
theorem expandDir_found (h : expandDir t ptTile ptEnd pCurrent step dir e = some e')
    (hfound : ∀ g ∈ e.found, g.2.2.InRange) : ∀ g ∈ e'.found, g.2.2.InRange := by
  have hadd : ∀ {ptNext : Point} {dist : Int}, moveNext ptTile dir = some ptNext →
      ∀ g ∈ e.found ++ [(dir, dist, ptNext)], g.2.2.InRange := by
    intro ptNext dist hmove g hg
    cases List.mem_append.1 hg with
    | inl hold => exact hfound g hold
    | inr hnew => exact List.mem_singleton.1 hnew ▸ moveNext_inRange hmove
  cases expandDir_turn h with
  | outside _ _ => exact hfound
  | back _ _ => exact hfound
  | known _ _ _ => exact hfound
  | refused _ _ => exact hfound
  | nearer tested _ _ => exact hadd tested.move
  | farther tested _ _ => exact hadd tested.move

/-- The tiles that an expansion finds are points. -/
theorem expand_found (h : expand t ptTile ptEnd pCurrent step dirs e = some e')
    (hfound : ∀ g ∈ e.found, g.2.2.InRange) : ∀ g ∈ e'.found, g.2.2.InRange := by
  apply expand_run (I := fun _ e => ∀ g ∈ e.found, g.2.2.InRange) [] _ hfound h
  intro tried dir e e' hfound hdir
  exact expandDir_found hdir hfound

end

/-- What the loop of `FindAStar` needs to go on without a fault. -/
structure CanExpand (f : Point → Bool) (anywhere : Prop) (a : AStar) : Prop where
  answers : a.finder.Answers f anywhere
  inRange : ∀ p, Opened a.openList p → p.InRange

/-- An iteration of `FindAStar` returns, and one that goes on takes a step. -/
theorem CanExpand.returns {a : AStar} (h : CanExpand f anywhere a) :
    ∃ r, aStarBody t ptEnd a = some r ∧ ∀ a', r = .inl a' → CanExpand f anywhere a' ∧
      a'.finder.left < a.finder.left := by
  have hleft : ∀ {r : Bool × PathFinder} {a' : AStar} {p : Prop},
      (.inr r : AStar ⊕ _) = .inl a' → p :=
    fun heq => nomatch heq
  have hf := (counted_sameMap a.finder).answers h.answers
  unfold aStarBody
  dsimp only
  split
  · rename_i hcount
    split
    · exact ⟨_, rfl, fun _ => hleft⟩
    · rename_i k p openList hlist
      have hp : p.InRange := h.inRange p ⟨k, hlist ▸ List.mem_cons_self⟩
      have hrest : ∀ p, Opened openList p → p.InRange := fun p ⟨k', hk'⟩ =>
        h.inRange p ⟨k', hlist ▸ List.mem_cons_of_mem _ hk'⟩
      split
      · -- no tag: the entry is dropped
        refine ⟨_, rfl, ?_⟩
        rintro _ ⟨⟩
        exact ⟨⟨hf, hrest⟩, counted_left_lt hcount⟩
      · rename_i tag htag
        split
        · exact ⟨_, rfl, fun _ => hleft⟩
        · -- a tile with a tag is on the map, where `IsBlock` answers
          have hexpand : ∃ e, expand t p ptEnd tag ((a.finder.counted.tileTags tag).nStep + 1)
              [0, 1, 2, 3, 4, 5, 6, 7] ⟨a.finder.counted, a.nNearestDist, 0, 0, []⟩ = some e :=
            expand_exists hf hp (onMap_of_getTileTag hp htag).askable (by decide)
          obtain ⟨e, he⟩ := hexpand
          have hmap : SameMap a.finder.counted e.finder := expand_sameMap he
          have hfound : ∀ g ∈ e.found, g.2.2.InRange := expand_found he fun _ hg =>
            absurd hg List.not_mem_nil
          have hcount' : e.finder.left = a.finder.counted.left :=
            expand_observe left (fun _ _ _ => rfl) (fun _ _ => rfl) he
          rw [he]
          refine ⟨_, rfl, ?_⟩
          rintro _ ⟨⟩
          refine ⟨⟨hmap.answers hf, ?_⟩, ?_⟩
          · intro p hopened
            cases opened_pushFound.1 hopened with
            | inl hold => exact hrest p hold
            | inr hnew =>
              obtain ⟨g, hg, -, rfl⟩ := hnew
              exact hfound g hg
          · rw [hcount']
            exact counted_left_lt hcount
  · exact ⟨_, rfl, fun _ => hleft⟩

/-- `FindAStar` returns. -/
theorem findAStar_returns (hf : s.Answers f anywhere) (hstart : ptStart.InRange) (ptEnd : Point) :
    ∃ r, findAStar t s ptStart ptEnd = some r := by
  have hmap : SameMap s (aStarStart t s ptStart ptEnd).finder := aStarStart_sameMap s ptStart ptEnd
  have hbegin : CanExpand f anywhere (aStarStart t s ptStart ptEnd) := by
    apply CanExpand.mk (hmap.answers hf)
    rintro p ⟨k, hk⟩
    obtain ⟨-, rfl⟩ := Prod.mk.inj (List.mem_singleton.1 hk)
    exact hstart
  have hloop : ∃ r, Loop.run (aStarBody t ptEnd) (aStarStart t s ptStart ptEnd).finder.stepsLeft
      (aStarStart t s ptStart ptEnd) = some (.inr r) :=
    Loop.run_returns (fun a => a.finder.left) (fun _ ha => ha.returns) hbegin (Nat.lt_succ_self _)
  obtain ⟨r, hrun⟩ := hloop
  exact ⟨r, congrArg loopResult hrun⟩

/-- The A* search returns, whatever the map is. -/
theorem aStarPath_returns (hf : s.Answers f anywhere) (hstart : ptStart.InRange) (ptEnd : Point) :
    ∃ r, aStarPath t s ptStart ptEnd = some r := by
  obtain ⟨r, hr⟩ := findAStar_returns (t := t) hf hstart ptEnd
  unfold aStarPath
  rw [hr]
  exact ⟨_, rfl⟩

/-! ## A search and what follows it -/

/-- A search that has returned. -/
theorem findPathCore_safe {r : Bool × PathFinder} (hstart : ptStart.InRange)
    (h : findPathCore t s ptStart ptEnd = some r) : CoreSafe t ptEnd (.done r.1 r.2) :=
  (findPathCore_reaches h).safe hstart

/-- The options of the search are those of the call, but for the straight-way test. -/
structure SameOptions (q : Query) (s : PathFinder) : Prop where
  optimize : hasOption s.nSearchOption optionOptimize = hasOption q.nOption optionOptimize
  nearest : hasOption s.nSearchOption optionNearest = hasOption q.nOption optionNearest

/-- `ConnectCorners` returns. -/
theorem optimizeCorners_returns {p : Point} (hf : s.Answers f anywhere) (hp : p.InRange)
    (hopt : hasOption s.nSearchOption optionOptimize = hasOption q.nOption optionOptimize)
    (hsteady : Steady t s) : ∃ s', optimizeCorners t q s p = some s' := by
  unfold optimizeCorners
  split
  · rename_i hcond
    exact connectCorners_returns hf hp (hsteady.corners (hopt.trans hcond.2))
  · exact ⟨_, rfl⟩

/-- The search of a block from `ptStart` returns if its `FindPathCore` does. -/
theorem forwardSearch_returns (hf : s.Answers f anywhere) (hstart : q.ptStart.InRange)
    (hopt : hasOption s.nSearchOption optionOptimize = hasOption q.nOption optionOptimize)
    (hcore : ∃ r, findPathCore t s q.ptStart q.ptEnd = some r) :
    ∃ r, forwardSearch t q s = some r := by
  obtain ⟨⟨ret, s₁⟩, hcore⟩ := hcore
  have hsafe := findPathCore_safe hstart hcore
  have hnext := findPathCore_next hcore
  unfold forwardSearch
  rw [hcore]
  match ret with
  | true =>
    obtain ⟨s₂, hs₂⟩ := optimizeCorners_returns ((findPathCore_sameMap hcore).answers hf) hstart
      ((congrArg (hasOption · optionOptimize) hnext.nSearchOption).trans hopt) hsafe.1
    dsimp only [Option.bind_some, bind, if_true]
    rw [hs₂]
    exact ⟨_, rfl⟩
  | false => exact ⟨_, rfl⟩

/-- The tag of `ptStart` exists when a reversed search has succeeded. -/
theorem linkStart_returns {p : Point}
    (h : s.pNearestTile = none ∨ ∃ tag, s.getTileTag t p = some tag) :
    ∃ s', linkStart t s p = some s' := by
  unfold linkStart
  split
  · exact ⟨_, rfl⟩
  · rename_i nearest hnear
    split
    · exact ⟨_, rfl⟩
    · cases h with
      | inl hnone => exact nomatch hnone.symm.trans hnear
      | inr htag =>
        obtain ⟨tag, htag⟩ := htag
        rw [htag]
        exact ⟨_, rfl⟩

/-- The link to the start is a tag of the window. -/
theorem linkStart_steady {p : Point} (hp : p.InRange) (h : Steady t s)
    (hlink : linkStart t s p = some s') : Steady t s' := by
  obtain ⟨hids, hcorners, hflags, -⟩ := linkStart_sameIds hlink
  cases linkStart_cases hlink with
  | inl hnone => exact hnone.2 ▸ h
  | inr hsome =>
    obtain ⟨nearest, -, hcases⟩ := hsome
    cases hcases with
    | inl hat => exact hat.2 ▸ h
    | inr hfar =>
      obtain ⟨tag, htag, -, rfl⟩ := hfar
      apply h.next hids.toSameSearch ⟨hcorners, hflags⟩ _ fun _ => .inl
      intro i hi
      obtain rfl := Option.some.inj hi
      exact .inr (.of_tag hp htag)

/-- The search of a block from `ptEnd` returns if its `FindPathCore` does. -/
theorem reverseSearch_returns (hf : s.Answers f anywhere) (hstart : q.ptStart.InRange)
    (hend : q.ptEnd.InRange)
    (hopt : hasOption s.nSearchOption optionOptimize = hasOption q.nOption optionOptimize)
    (hcore : ∃ r, findPathCore t s q.ptEnd q.ptStart = some r) :
    ∃ r, reverseSearch t q s = some r := by
  obtain ⟨⟨ret, s₁⟩, hcore⟩ := hcore
  have hsafe := findPathCore_safe hend hcore
  have hnext := findPathCore_next hcore
  unfold reverseSearch
  rw [hcore]
  match ret with
  | true =>
    -- the start was stepped onto or has a tag, so it can be linked
    obtain ⟨s₂, hs₂⟩ := linkStart_returns (hsafe.2 rfl)
    have hsame := (linkStart_sameIds hs₂).1.toSameSearch
    have hmap := (findPathCore_sameMap hcore).trans hsame.sameMap
    -- and the corners can be connected from there
    obtain ⟨s₃, hs₃⟩ := optimizeCorners_returns (hmap.answers hf) hend
      ((congrArg (hasOption · optionOptimize) (hsame.nSearchOption.trans hnext.nSearchOption)).trans
        hopt) (linkStart_steady hstart hsafe.1 hs₂)
    dsimp only [Option.bind_some, bind, if_true]
    rw [hs₂]
    dsimp only [Option.bind_some]
    rw [hs₃]
    exact ⟨_, rfl⟩
  | false => exact ⟨_, rfl⟩

/-! ## The blocks -/

/-- A search uses one number and leaves the map and the options alone. -/
theorem forwardSearch_next {r : Bool × PathFinder} (h : forwardSearch t q s = some r) :
    NextSearch s r.2 := by
  obtain ⟨⟨ret, s₁⟩, hcore, h⟩ := Option.bind_eq_some_iff.1 h
  have hnext := findPathCore_next hcore
  split at h
  · obtain ⟨s₂, hoptimize, h⟩ := Option.bind_eq_some_iff.1 h
    obtain rfl := Option.some.inj h
    exact hnext.sameIds (optimizeCorners_kept hoptimize).toSameIds
  · obtain rfl := Option.some.inj h
    exact hnext

/-- What the search of a block from `ptEnd` leaves to the next one. -/
theorem reverseSearch_next {r : Bool × PathFinder} (h : reverseSearch t q s = some r) :
    NextSearch s r.2 := by
  obtain ⟨⟨ret, s₁⟩, hcore, h⟩ := Option.bind_eq_some_iff.1 h
  have hnext := findPathCore_next hcore
  split at h
  · obtain ⟨s₂, hlink, h⟩ := Option.bind_eq_some_iff.1 h
    obtain ⟨s₃, hoptimize, h⟩ := Option.bind_eq_some_iff.1 h
    obtain rfl := Option.some.inj h
    exact (hnext.sameIds (linkStart_sameIds hlink).1).sameIds
      (optimizeCorners_kept hoptimize).toSameIds
  · obtain rfl := Option.some.inj h
    exact hnext

/-- A block uses at most one number. -/
theorem searchStage_fresh {n k : Nat} {nReverse : Bool} {b b' : Search}
    {search : PathFinder → Option (Bool × PathFinder)}
    (hsearch : ∀ r, search b.finder = some r → NextSearch b.finder r.2)
    (h : searchStage t q k nReverse search b = some b') (hfresh : Fresh t b.finder (n + 1))
    (hn : n < 65535) : Fresh t b'.finder n := by
  obtain rfl | ⟨r, hr, _, _, _, hfinder⟩ := searchStage_finder h
  · exact fun j hj hjn => hfresh j hj (by omega)
  · rw [hfinder]
    exact (hsearch r hr).fresh hfresh hn

/-- Each block takes one search number. -/
theorem Stage.fresh {n k : Nat} {b : Search} (h : Stage t q s k b) (hn4 : 4 ≤ n) (hn : n < 65535)
    (hfresh : Fresh t s n) : Fresh t b.finder (n - k) := by
  -- one stage takes one of the fresh numbers
  have hforward : ∀ {m : Nat} {b b' : Search} {k : Nat}, 1 ≤ m → m ≤ n → Fresh t b.finder m →
      forwardStage t q k b = some b' → Fresh t b'.finder (m - 1) := by
    intro m b b' k h1 hm hb hr
    obtain ⟨m, rfl⟩ := Nat.exists_eq_add_of_le' h1
    exact searchStage_fresh (fun _ => forwardSearch_next) hr hb (by omega)
  have hreverse : ∀ {m : Nat} {b b' : Search} {k : Nat}, 1 ≤ m → m ≤ n → Fresh t b.finder m →
      reverseStage t q k b = some b' → Fresh t b'.finder (m - 1) := by
    intro m b b' k h1 hm hb hr
    obtain ⟨m, rfl⟩ := Nat.exists_eq_add_of_le' h1
    exact searchStage_fresh (fun _ => reverseSearch_next) hr hb (by omega)
  induction h with
  | first => exact hfresh
  | second _ hr ih => exact hforward (by omega) (by omega) ih hr
  | @third b b' _ hr ih =>
    have hb : Fresh t b'.finder (n - 1 - 1) := hreverse (m := n - 1) (by omega) (by omega) ih hr
    -- switching the straight way takes none
    unfold switchStraightway
    split <;> exact hb
  | fourth _ hr ih => exact hforward (m := n - 2) (by omega) (by omega) ih hr
  | fifth _ hr ih => exact hreverse (m := n - 3) (by omega) (by omega) ih hr

/-- A block leaves the option word as its search does. -/
theorem searchStage_option {k : Nat} {nReverse : Bool} {b b' : Search}
    {search : PathFinder → Option (Bool × PathFinder)}
    (hsearch : ∀ r, search b.finder = some r → r.2.nSearchOption = b.finder.nSearchOption)
    (h : searchStage t q k nReverse search b = some b') :
    b'.finder.nSearchOption = b.finder.nSearchOption := by
  obtain rfl | ⟨r, hr, _, _, _, hfinder⟩ := searchStage_finder h
  · rfl
  · rw [hfinder]
    exact hsearch r hr

/-- The map and the options at every stage. -/
structure StageKeeps (q : Query) (s : PathFinder) (b : Search) : Prop extends
    SameMap s b.finder, SameOptions q b.finder

/-- A block that leaves the map and the options. -/
theorem StageKeeps.next {b b' : Search} (h : StageKeeps q s b) (hmap : SameMap b.finder b'.finder)
    (hoption : b'.finder.nSearchOption = b.finder.nSearchOption) : StageKeeps q s b' where
  toSameMap := h.toSameMap.trans hmap
  optimize := (congrArg (hasOption · optionOptimize) hoption).trans h.optimize
  nearest := (congrArg (hasOption · optionNearest) hoption).trans h.nearest

/-- A block that searches from `ptStart`. -/
theorem StageKeeps.forward {k : Nat} {b b' : Search} (h : StageKeeps q s b)
    (hr : forwardStage t q k b = some b') : StageKeeps q s b' :=
  h.next (searchStage_sameMap (fun _ => forwardSearch_sameMap) hr)
    (searchStage_option (fun _ hr => (forwardSearch_next hr).nSearchOption) hr)

/-- A block that searches from `ptEnd`. -/
theorem StageKeeps.reverse {k : Nat} {b b' : Search} (h : StageKeeps q s b)
    (hr : reverseStage t q k b = some b') : StageKeeps q s b' :=
  h.next (searchStage_sameMap (fun _ => reverseSearch_sameMap) hr)
    (searchStage_option (fun _ hr => (reverseSearch_next hr).nSearchOption) hr)

/-- Every block begins on the map of the call, with its options. -/
theorem Stage.keeps {k : Nat} {b : Search} (h : Stage t q s k b) : StageKeeps q s b := by
  induction h with
  | first => exact ⟨⟨rfl, rfl, rfl⟩, ⟨rfl, rfl⟩⟩
  | second _ hr ih => exact ih.forward hr
  | @third b b' _ hr ih =>
    have hkeeps := ih.reverse hr
    constructor
    · exact hkeeps.toSameMap.trans (switchStraightway_sameMap b')
    · exact ⟨(switchStraightway_hasOption b' 0 (by decide)).trans hkeeps.optimize,
        (switchStraightway_hasOption b' 1 (by decide)).trans hkeeps.nearest⟩
  | fourth _ hr ih => exact ih.forward hr
  | fifth _ hr ih => exact ih.reverse hr

/-! ## The whole call -/

/-- The calls of `FindPathCore` that `FindPath` makes. -/
inductive Searches (t : Params) (q : Query) (s : PathFinder) : PathFinder → Point → Point → Prop
  | first : hasOption q.nOption optionOnlyAStar = false →
      Searches t q s (beginSearch s q).finder q.ptStart q.ptEnd
  | forward {b : Search} : aStarInput t q s = none → Stage t q s 2 b → b.bFindMore = true →
      Searches t q s b.finder q.ptStart q.ptEnd
  | reverse {k : Nat} {b : Search} : aStarInput t q s = none → Stage t q s k b → k = 1 ∨ k = 3 →
      b.bFindMore = true → Searches t q s b.finder q.ptEnd q.ptStart
  | nearest {b : Search} : aStarInput t q s = none → Stage t q s 4 b → b.best = none →
      hasOption b.finder.nSearchOption optionNearest = true →
      Searches t q s b.finder q.ptStart q.ptEnd

/-- So does every search of a call. -/
theorem Searches.keeps {s₁ : PathFinder} {p p' : Point} (h : Searches t q s s₁ p p') :
    SameMap s s₁ ∧ SameOptions q s₁ := by
  cases h with
  | first _ => exact ⟨⟨rfl, rfl, rfl⟩, rfl, rfl⟩
  | forward _ hstage _ => exact ⟨hstage.keeps.toSameMap, hstage.keeps.toSameOptions⟩
  | reverse _ hstage _ _ => exact ⟨hstage.keeps.toSameMap, hstage.keeps.toSameOptions⟩
  | nearest _ hstage _ _ => exact ⟨hstage.keeps.toSameMap, hstage.keeps.toSameOptions⟩

/-- A block returns if its search does. -/
theorem searchStage_returns {k : Nat} {nReverse : Bool} {b : Search}
    {search : PathFinder → Option (Bool × PathFinder)}
    (h : b.bFindMore = true → ∃ r, search b.finder = some r) :
    ∃ b', searchStage t q k nReverse search b = some b' := by
  unfold searchStage
  split
  · rename_i hmore
    obtain ⟨⟨ret, s'⟩, hr⟩ := h hmore
    rw [hr]
    cases ret <;> exact ⟨_, rfl⟩
  · exact ⟨_, rfl⟩

/-- `FindPath` returns when its searches do. -/
theorem findPath_returns_of_core (hf : s.Answers f anywhere) (hstart : q.ptStart.InRange)
    (hend : q.ptEnd.InRange)
    (hcore : ∀ s₁ p p', Searches t q s s₁ p p' → ∃ r, findPathCore t s₁ p p' = some r) :
    ∃ r, findPath t s q = some r := by
  have hforward : ∀ {b : Search} {k : Nat}, StageKeeps q s b →
      (b.bFindMore = true → Searches t q s b.finder q.ptStart q.ptEnd) →
      ∃ b', forwardStage t q k b = some b' := fun hkeeps hsearch =>
    searchStage_returns fun hmore => forwardSearch_returns (hkeeps.answers hf) hstart
      hkeeps.optimize
      (hcore _ _ _ (hsearch hmore))
  have hreverse : ∀ {b : Search} {k : Nat}, StageKeeps q s b →
      (b.bFindMore = true → Searches t q s b.finder q.ptEnd q.ptStart) →
      ∃ b', reverseStage t q k b = some b' := fun hkeeps hsearch =>
    searchStage_returns fun hmore => reverseSearch_returns (hkeeps.answers hf) hstart hend
      hkeeps.optimize (hcore _ _ _ (hsearch hmore))
  by_cases honly : hasOption q.nOption optionOnlyAStar = true
  -- the four blocks are skipped, only `FindAStar` runs
  · have hmap := beginSearch_sameMap s q
    obtain ⟨r, hr⟩ := aStarPath_returns (t := t) (hmap.answers hf) hstart q.ptEnd
    unfold findPath
    dsimp only
    rw [if_pos honly]
    exact ⟨r, hr⟩
  · have hoff := Bool.eq_false_iff.2 honly
    obtain ⟨b₁, h₁⟩ := hforward (k := 0) (Stage.first (t := t)).keeps fun _ => .first hoff
    have hstage₁ : Stage t q s 1 b₁ := .second .first h₁
    have hinput : aStarInput t q s =
        if b₁.bFindMore && hasOption q.nOption optionAStar then some b₁.finder else none := by
      unfold aStarInput
      rw [if_neg honly, h₁]
    unfold findPath
    dsimp only
    rw [if_neg honly]
    unfold beginSearch at h₁
    rw [h₁]
    dsimp only [Option.bind_some, bind]
    split
    · exact aStarPath_returns (hstage₁.keeps.answers hf) hstart q.ptEnd
    · rename_i hastar
      rw [if_neg hastar] at hinput
      -- each block starts from what the one before it left behind
      obtain ⟨b₂, h₂⟩ := hreverse (k := 1) hstage₁.keeps (.reverse hinput hstage₁ (.inl rfl))
      have hstage₂ : Stage t q s 2 (switchStraightway b₂) := .third hstage₁ h₂
      obtain ⟨b₃, h₃⟩ := hforward (k := 2) hstage₂.keeps (.forward hinput hstage₂)
      have hstage₃ : Stage t q s 3 b₃ := .fourth hstage₂ h₃
      obtain ⟨b₄, h₄⟩ := hreverse (k := 3) hstage₃.keeps (.reverse hinput hstage₃ (.inr rfl))
      have hstage₄ : Stage t q s 4 b₄ := .fifth hstage₃ h₄
      rw [h₂]
      dsimp only [Option.bind_some]
      rw [h₃]
      dsimp only [Option.bind_some]
      rw [h₄]
      dsimp only [Option.bind_some]
      unfold finish
      split
      · rename_i hnone
        split
        · rename_i hnear
          obtain ⟨r, hr⟩ := hcore _ _ _ (.nearest hinput hstage₄ hnone hnear)
          rw [hr]
          exact ⟨_, rfl⟩
        · exact ⟨_, rfl⟩
      · exact ⟨_, rfl⟩

/-- No stage has two outcomes. -/
theorem Stage.unique {k : Nat} {b b' : Search} (h : Stage t q s k b) (h' : Stage t q s k b') :
    b = b' := by
  -- stage by stage, since each is a function of the one before
  induction h generalizing b' with
  | first =>
    cases h' with
    | first => rfl
  | second _ hr ih =>
    cases h' with
    | second hb hr' =>
      obtain rfl := ih hb
      exact Option.some.inj (hr.symm.trans hr')
  | third _ hr ih =>
    cases h' with
    | third hb hr' =>
      obtain rfl := ih hb
      rw [Option.some.inj (hr.symm.trans hr')]
  | fourth _ hr ih =>
    cases h' with
    | fourth hb hr' =>
      obtain rfl := ih hb
      exact Option.some.inj (hr.symm.trans hr')
  | fifth _ hr ih =>
    cases h' with
    | fifth hb hr' =>
      obtain rfl := ih hb
      exact Option.some.inj (hr.symm.trans hr')

/-- A block that has to search has searched. -/
theorem searchStage_core {k : Nat} {nReverse : Bool} {b b' : Search} {p p' : Point}
    {g : Bool × PathFinder → Option (Bool × PathFinder)} (hmore : b.bFindMore = true)
    (h : searchStage t q k nReverse (fun s => (findPathCore t s p p').bind g) b = some b') :
    ∃ r, findPathCore t b.finder p p' = some r := by
  have hrun : ∃ r, (findPathCore t b.finder p p').bind g = some r := by
    cases searchStage_turn h with
    | settled hdone => exact nomatch hmore.symm.trans hdone
    | failed _ hrun => exact ⟨_, hrun⟩
    | found _ hrun => exact ⟨_, hrun⟩
  obtain ⟨r, hr⟩ := hrun
  obtain ⟨r', hr', -⟩ := Option.bind_eq_some_iff.1 hr
  exact ⟨r', hr'⟩

/-- Every search of a call that returns has returned. -/
theorem findPath_core {r : Found} (h : findPath t s q = some r) {s₁ : PathFinder} {p p' : Point}
    (hsearch : Searches t q s s₁ p p') : ∃ r, findPathCore t s₁ p p' = some r := by
  have hstages : aStarInput t q s = none → ∃ b, Stage t q s 4 b ∧ finish t q b = some r := by
    intro hinput
    cases findPath_cases h with
    | inl hastar =>
      obtain ⟨s', hs', -⟩ := hastar
      exact nomatch hinput.symm.trans hs'
    | inr hstages => exact hstages.2
  -- a search belongs to the block whose input is its state, and the blocks are reached one way only
  cases hsearch with
  | first hoff =>
    obtain ⟨b, hb⟩ := findPath_first hoff h
    exact searchStage_core rfl hb
  | forward hinput hstage hmore =>
    obtain ⟨b₄, hstage₄, -⟩ := hstages hinput
    cases hstage₄ with
    | fifth hstage₃ h₄ =>
      cases hstage₃ with
      | fourth hstage₂ h₃ =>
        obtain rfl := hstage.unique hstage₂
        exact searchStage_core hmore h₃
  | reverse hinput hstage hk hmore =>
    obtain ⟨b₄, hstage₄, -⟩ := hstages hinput
    cases hstage₄ with
    | fifth hstage₃ h₄ =>
      cases hk with
      | inr hk =>
        subst hk
        obtain rfl := hstage.unique hstage₃
        exact searchStage_core hmore h₄
      | inl hk =>
        subst hk
        cases hstage₃ with
        | fourth hstage₂ h₃ =>
          cases hstage₂ with
          | third hstage₁ h₂ =>
            obtain rfl := hstage.unique hstage₁
            exact searchStage_core hmore h₂
  | nearest hinput hstage hnone hnear =>
    obtain ⟨b₄, hstage₄, hfinish⟩ := hstages hinput
    obtain rfl := hstage.unique hstage₄
    cases finish_turn hfinish with
    | nearest _ _ hcore => exact ⟨_, hcore⟩
    | nothing _ hoff => exact nomatch hnear.symm.trans hoff
    | kept hbest => exact nomatch hnone.symm.trans hbest

end XGame3.PathFinder
