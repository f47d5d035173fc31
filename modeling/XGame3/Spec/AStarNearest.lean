import XGame3.ForStd.Cheapest
import XGame3.Spec.AStarLinks

/-!
# The nearest tile of the A* search

`FindAStar` points `m_pNearestTile` at the nearest tile it has found.  The start is not
found: its distance is not compared with, and the first tile found takes the place of a
distance of 10000000.  So the tile is the nearest of those found after the start, and the
start itself may be nearer.

Key results:
- `expandDir_nearest`: one direction offers at most one tile.
- `findAStar_cheapest`: `m_pNearestTile` when the search returns.
- `findAStar_promise`: when no tile expanded is nearer, the start included.
-/

namespace XGame3.PathFinder

open FixedInt

variable {t : Params} {s s' s₀ s₁ : PathFinder} {f : Point → Bool} {ptStart ptEnd ptTile : Point}
  {pCurrent step dir root : Nat} {e e' : Expansion}

/-! ## Distances -/

/-- The distance of two tiles in straight steps. -/
def manhattan (p q : Point) : Nat := (p.x - q.x).natAbs + (p.y - q.y).natAbs

/-- The distance as `FindAStar` compares it. -/
def comparedDist (t : Params) (ptEnd p : Point) : Nat := t.dword.wrap (distance p ptEnd)

/-- From every tile of the map the target is less than `2 ^ 31` away along each axis, so that
    the subtractions do not overflow. -/
def Measured (s : PathFinder) (ptEnd : Point) : Prop :=
  ∀ p, s.OnMap p → p.x - ptEnd.x < 2147483648 ∧ p.y - ptEnd.y < 2147483648

/-- The tile that `m_pNearestTile` points to. -/
def nearestPoint (t : Params) (s : PathFinder) : Option Point :=
  s.pNearestTile.map (s.tileToPoint t)

/-- The absolute value of a number that fits is its distance from zero. -/
theorem abs_int32 {x : Int} (h : -2147483648 < x ∧ x < 2147483648) :
    abs (int32 x) = (x.natAbs : Nat) := by
  have hx : int32 x = x := int32_of_isInt32 (by omega)
  unfold abs
  rw [hx]
  split
  · rw [int32_of_isInt32 (by omega)]
    omega
  · omega

/-- A distance of `2 ^ 31` or more overflows, and is compared as a number that is not smaller. -/
theorem comparedDist_cases {p : Point} (hend : ptEnd.InRange) (hmeasured : Measured s ptEnd)
    (hp : s.OnMap p) : comparedDist t ptEnd p = manhattan p ptEnd ∨
      2147483648 ≤ comparedDist t ptEnd p ∧ 2147483648 ≤ manhattan p ptEnd := by
  obtain ⟨hx, hy⟩ := hmeasured p hp
  obtain ⟨⟨hx₀, -⟩, hy₀, -⟩ := And.intro hp.x hp.y
  have hex := hend.x
  have hey := hend.y
  have hdist : distance p ptEnd = int32 (manhattan p ptEnd : Nat) := by
    unfold distance manhattan
    rw [abs_int32 (by omega), abs_int32 (by omega), Int.natCast_add]
  have hle : manhattan p ptEnd < 4294967296 := by
    unfold manhattan
    omega
  unfold comparedDist
  rw [hdist]
  by_cases hlt : manhattan p ptEnd < 2147483648
  · have hmod := t.dword.le_modulus
    rw [int32_of_isInt32 (by omega), SizeT.wrap_natCast (by omega)]
    exact .inl rfl
  · -- the sum has become negative
    have hneg : int32 (manhattan p ptEnd : Nat) = (manhattan p ptEnd : Nat) - 4294967296 := by
      rw [int32_congr (y := (manhattan p ptEnd : Nat) - 4294967296) (by omega)]
      exact int32_of_isInt32 (by omega)
    right
    rw [hneg]
    unfold SizeT.wrap
    cases t.dword <;> simp only [SizeT.modulus] <;> omega

/-! ## One direction -/

/-- One direction offers at most one tile, and takes it as the nearest if it is strictly nearer. -/
theorem expandDir_nearest (h : expandDir t ptTile ptEnd pCurrent step dir e = some e') :
    e'.found = e.found ∧ e'.nNearestDist = e.nNearestDist ∧
        e'.finder.pNearestTile = e.finder.pNearestTile ∨
      ∃ q tag, Ahead t e.finder ptTile dir q tag ∧
        e'.found = e.found ++ [(dir, distance q ptEnd, q)] ∧
        e'.nNearestDist = min e.nNearestDist (comparedDist t ptEnd q) ∧
        e'.finder.pNearestTile =
          if comparedDist t ptEnd q < e.nNearestDist then some tag else e.finder.pNearestTile := by
  have hkept : ∀ tag, (e.finder.relinkKnown tag pCurrent step).pNearestTile =
      e.finder.pNearestTile := by
    intro tag
    unfold relinkKnown
    split <;> rfl
  cases expandDir_turn h with
  -- a known or refused tile is not measured
  | outside _ _ => exact .inl ⟨rfl, rfl, rfl⟩
  | back _ _ => exact .inl ⟨rfl, rfl, rfl⟩
  | known _ _ _ => exact .inl ⟨rfl, rfl, rfl⟩
  | refused _ _ => exact .inl ⟨rfl, rfl, hkept _⟩
  -- the distance is the new least one
  | @nearer ptNext tag _ _ tested _ hlt =>
    have hlt' : comparedDist t ptEnd ptNext < e.nNearestDist := hlt
    refine .inr ⟨ptNext, tag, tested.toAhead, rfl, ?_, ?_⟩
    · rw [min_eq_right (Nat.le_of_lt hlt')]
      rfl
    · rw [if_pos hlt']
  -- the old one stays the least
  | @farther ptNext tag _ _ tested _ hle =>
    have hle' : ¬ comparedDist t ptEnd ptNext < e.nNearestDist := hle
    refine .inr ⟨ptNext, tag, tested.toAhead, rfl, ?_, ?_⟩
    · rw [min_eq_left (Nat.le_of_not_lt hle')]
    · rw [if_neg hle']
      exact hkept tag

/-- The tiles found, all but the start. -/
def FoundAfter (t : Params) (ptStart : Point) (s : PathFinder) (p : Point) : Prop :=
  Visited t s p ∧ p ≠ ptStart

/-- What holds of the nearest tile after every direction. -/
structure NearestFound (t : Params) (ptStart ptEnd : Point) (root : Nat) (s : PathFinder)
    (nNearestDist : Nat) : Prop where
  start : s.getTileTag t ptStart = some root
  carries : s.Carries root
  zero : stepOf s root = 0
  cheapest : Cheapest (comparedDist t ptEnd) 10000000 (FoundAfter t ptStart s) nNearestDist
    (nearestPoint t s)

/-- The nearest point is read from `pNearestTile` and the window. -/
theorem SameSearch.nearestPoint (h : SameSearch s s') (hnear : s'.pNearestTile = s.pNearestTile) :
    nearestPoint t s' = nearestPoint t s := by
  unfold PathFinder.nearestPoint
  rw [hnear]
  exact congrArg (Option.map · _) (funext fun tag => h.tileToPoint tag)

/-- The same tiles were found. -/
theorem NearestFound.same {n : Nat} (h : NearestFound t ptStart ptEnd root s n)
    (hsame : SameSearch s s') (hnear : s'.pNearestTile = s.pNearestTile)
    (hcarries : ∀ i, s'.Carries i ↔ s.Carries i) (hzero : s'.tileTags root = s.tileTags root) :
    NearestFound t ptStart ptEnd root s' n where
  start := (hsame.getTileTag ptStart).trans h.start
  carries := (hcarries root).2 h.carries
  zero := (stepOf_congr hzero).trans h.zero
  cheapest := by
    rw [hsame.nearestPoint hnear]
    apply h.cheapest.congr
    intro p
    unfold FoundAfter Visited
    simp only [hsame.getTileTag, hcarries]

/-- A tile that is tagged anew is another one than the start. -/
theorem NearestFound.ne_root {n tag : Nat} (h : NearestFound t ptStart ptEnd root s n)
    (hnew : s.Carries tag → step < stepOf s tag) : root ≠ tag := by
  rintro rfl
  have hlt := hnew h.carries
  rw [h.zero] at hlt
  exact Nat.not_lt_zero _ hlt

/-- A tile other than the root is not the start. -/
theorem NearestFound.ne_start {n tag : Nat} {p : Point}
    (h : NearestFound t ptStart ptEnd root s n) (htag : s.getTileTag t p = some tag)
    (hne : root ≠ tag) : p ≠ ptStart := by
  rintro rfl
  exact hne (Option.some.inj (h.start.symm.trans htag))

/-- A tile is added to those found. -/
theorem foundAfter_relinked {p q : Point} {tag : Nat} {d : Int}
    (hrep : Relinked s s' tag pCurrent step) (ahead : Ahead t s ptTile d q tag)
    (hne : q ≠ ptStart) : FoundAfter t ptStart s' p ↔ FoundAfter t ptStart s p ∨ p = q := by
  have hsame := hrep.toSameSearch
  constructor
  · rintro ⟨⟨hin, i, hi, hc⟩, hp⟩
    rw [hsame.getTileTag] at hi
    -- a carried tile was so before, or is the one linked
    cases hrep.carries_iff.1 hc with
    | inl heq =>
      subst heq
      exact .inr (getTileTag_inj hin ahead.inRange hi ahead.tag)
    | inr hold => exact .inl ⟨⟨hin, i, hi, hold⟩, hp⟩
  · intro h
    cases h with
    | inl hold =>
      obtain ⟨⟨hin, i, hi, hc⟩, hp⟩ := hold
      exact ⟨⟨hin, i, (hsame.getTileTag p).trans hi, hrep.carries_iff.2 (.inr hc)⟩, hp⟩
    | inr heq =>
      subst heq
      exact ⟨⟨ahead.inRange, tag, (hsame.getTileTag _).trans ahead.tag, hrep.carries⟩, hne⟩

/-- Trying one direction keeps the distance recorded the least so far. -/
theorem NearestFound.next (h : NearestFound t ptStart ptEnd root e.finder e.nNearestDist)
    (hf : e.finder.Pure f) (hin : ptTile.InRange)
    (hr : expandDir t ptTile ptEnd pCurrent step dir e = some e') :
    NearestFound t ptStart ptEnd root e'.finder e'.nNearestDist := by
  have hnearest := expandDir_nearest hr
  have hlonger : ∀ {x : Nat × Int × Point}, e.found ≠ e.found ++ [x] := fun heq =>
    nomatch List.self_eq_append_right.1 heq
  cases expandDir_link hf hin hr with
  | outside _ _ => exact h
  | back _ _ => exact h
  | known _ _ _ => exact h
  | blocked _ _ _ => exact h
  | @reopened ptNext tag s' _ _ hc hgt hrep =>
    -- a tile that was found before is not compared again
    cases hnearest with
    | inl hkept =>
      apply h.same hrep.toSameSearch hkept.2.2 _ (hrep.other root (h.ne_root fun _ => hgt))
      intro i
      rw [hrep.carries_iff]
      exact or_iff_right_of_imp fun heq => heq ▸ hc
    | inr hfound =>
      obtain ⟨_, _, -, hlist, -⟩ := hfound
      exact absurd hlist hlonger
  | @found ptNext tag n s' ahead _ hnew hrep =>
    -- a new tile is one more item for the cheapest so far
    have hsame := hrep.toSameSearch
    have hne := h.ne_root hnew
    cases hnearest with
    | inl hkept => exact absurd hkept.1.symm hlonger
    | inr hfound =>
      obtain ⟨q, i, ahead', -, hdist, hnear⟩ := hfound
      obtain ⟨rfl, rfl⟩ := ahead.unique ahead'
      have hpoint : s'.tileToPoint t tag = ptNext :=
        (hsame.tileToPoint tag).trans (tileToPoint_getTileTag ahead.inRange ahead.tag)
      constructor
      · exact (hsame.getTileTag ptStart).trans h.start
      · exact hrep.carries_iff.2 (.inr h.carries)
      · exact (stepOf_congr (hrep.other root hne)).trans h.zero
      · have hbest : nearestPoint t s' = if comparedDist t ptEnd ptNext < e.nNearestDist then
            some ptNext else nearestPoint t e.finder := by
          unfold nearestPoint
          rw [hnear]
          split
          · exact congrArg some hpoint
          · exact congrArg (Option.map · _) (funext fun i => hsame.tileToPoint i)
        dsimp only at hdist
        rw [hbest, hdist]
        exact h.cheapest.offer fun p => foundAfter_relinked hrep ahead (h.ne_start ahead.tag hne)

/-- The eight directions. -/
theorem NearestFound.expand {dirs : List Nat}
    (h : NearestFound t ptStart ptEnd root e.finder e.nNearestDist) (hf : e.finder.Pure f)
    (hin : ptTile.InRange) (hr : expand t ptTile ptEnd pCurrent step dirs e = some e') :
    NearestFound t ptStart ptEnd root e'.finder e'.nNearestDist := by
  have hrun : NearestFound t ptStart ptEnd root e'.finder e'.nNearestDist ∧ e'.finder.Pure f := by
    apply expand_run (I := fun _ e => NearestFound t ptStart ptEnd root e.finder e.nNearestDist ∧
      e.finder.Pure f) [] _ ⟨h, hf⟩ hr
    rintro tried dir e e' ⟨h, hf⟩ hdir
    exact ⟨h.next hf hin hdir, (expandDir_sameMap hdir).blockFunc.trans hf⟩
  exact hrun.1

/-! ## Every turn of the loop -/

/-- The invariant with the nearest tile. -/
structure AStarNearest (t : Params) (f : Point → Bool) (s₁ : PathFinder) (ptStart ptEnd : Point)
    (a : AStar) : Prop extends AStarInv t f s₁ ptStart ptEnd a where
  nearest : ∀ root, s₁.getTileTag t ptStart = some root →
    NearestFound t ptStart ptEnd root a.finder a.nNearestDist

/-- What was found is a fact about the tags. -/
theorem NearestFound.sameTags {n : Nat} (h : NearestFound t ptStart ptEnd root s n)
    (hsame : SameTags s s') : NearestFound t ptStart ptEnd root s' n :=
  h.same hsame.toSameSearch hsame.pNearestTile (fun _ => hsame.carries)
    (congrFun hsame.tileTags root)

/-- One turn of A* keeps the record of the nearest tile. -/
theorem AStarNearest.turn {a a' : AStar} (h : AStarNearest t f s₁ ptStart ptEnd a) (hf : s₁.Pure f)
    (hend : ptEnd.InRange) (hbody : aStarBody t ptEnd a = some (.inl a')) :
    AStarNearest t f s₁ ptStart ptEnd a' := by
  have hcount := counted_sameTags a.finder
  constructor
  · exact aStarBody_inv h.toAStarInv hf hend hbody
  · intro root hroot
    have hnear := (h.nearest root hroot).sameTags hcount
    obtain ⟨-, k, p, openList, hlist, hcases⟩ := aStarBody_inl hbody
    cases hcases with
    -- a dropped tile was never found
    | inl hskip =>
      obtain ⟨-, rfl⟩ := hskip
      exact hnear
    | inr hexpand =>
      obtain ⟨tag, e, he⟩ := hexpand
      obtain ⟨_, -, hin, -⟩ := h.expanding hf hlist he.tagged he.run
      rw [he.next]
      exact NearestFound.expand (e := ⟨a.finder.counted, a.nNearestDist, 0, 0, []⟩) hnear
        (h.same.toSameSearch.pure hf) hin he.run

/-- The loop begins with nothing found. -/
theorem aStarStart_nearest (ptEnd : Point) (hstart : ptStart.InRange) (hunused : Unused t s) :
    AStarNearest t f (aStarStart t s ptStart ptEnd).finder ptStart ptEnd
      (aStarStart t s ptStart ptEnd) := by
  constructor
  · exact aStarStart_inv ptEnd hstart hunused
  · intro root hroot
    obtain ⟨_, -, hgraded⟩ :=
      (aStarStart_graded (f := f) ptEnd hstart hunused).graded root hroot
    obtain ⟨⟨-, hcarries⟩, -, hzero⟩ := hgraded.begins
    -- nothing is near before the first tile is found
    have hnone : nearestPoint t (aStarStart t s ptStart ptEnd).finder = none := by
      unfold nearestPoint aStarStart
      dsimp only
      split <;> rfl
    refine ⟨hroot, hcarries, hzero, ?_⟩
    rw [hnone]
    -- and none is found but the start
    apply Cheapest.init
    intro p ⟨⟨hin, i, hi, hc⟩, hne⟩
    obtain ⟨hi', -⟩ := aStarStart_touched ptEnd hstart hunused ⟨getTileTag_lt hi, hc⟩
    exact hne (getTileTag_inj hin hstart hi hi')

/-- A tile that the loop takes off the open list and expands. -/
def ExpandedBy (t : Params) (s : PathFinder) (ptStart ptEnd p : Point) : Prop :=
  ∃ a a' k tag openList e, AStarReached t s ptStart ptEnd a ∧
    aStarBody t ptEnd a = some (.inl a') ∧ a.openList = (k, p) :: openList ∧
    Expands t ptEnd a a' p tag openList e

/-- A tile that is tagged between two turns of the loop. -/
def FoundBy (t : Params) (s : PathFinder) (ptStart ptEnd p : Point) : Prop :=
  ∃ a, AStarReached t s ptStart ptEnd a ∧ Visited t a.finder p

/-- So every state that A* reaches has the record. -/
theorem AStarReached.nearest {a : AStar} (hf : s.Pure f) (hstart : ptStart.InRange)
    (hend : ptEnd.InRange) (hunused : Unused t s) (h : AStarReached t s ptStart ptEnd a) :
    AStarNearest t f (aStarStart t s ptStart ptEnd).finder ptStart ptEnd a := by
  obtain ⟨n, hn⟩ := h
  exact Loop.run_inl (fun _ _ ha hbody => ha.turn (aStarStart_pure ptStart ptEnd hf) hend hbody)
    (aStarStart_nearest ptEnd hstart hunused) hn

/-- A tile found stays found. -/
theorem AStarInv.visited {a a' : AStar} {p : Point} (h : AStarInv t f s₁ ptStart ptEnd a)
    (hf : s₁.Pure f) (hbody : aStarBody t ptEnd a = some (.inl a')) (hp : Visited t a.finder p) :
    Visited t a'.finder p := by
  have hp' := (counted_sameTags a.finder).visited.2 hp
  obtain ⟨-, k, q, openList, hlist, hcases⟩ := aStarBody_inl hbody
  cases hcases with
  | inl hskip =>
    obtain ⟨-, rfl⟩ := hskip
    exact hp'
  | inr hexpand =>
    obtain ⟨tag, e, he⟩ := hexpand
    obtain ⟨_, -, -, -, hexp⟩ := h.expanding hf hlist he.tagged he.run
    rw [he.next]
    exact hexp.visited.2 (.inl hp')

/-- What is expanded was found. -/
theorem ExpandedBy.found {p : Point} (hf : s.Pure f) (hstart : ptStart.InRange)
    (hend : ptEnd.InRange) (hunused : Unused t s) (h : ExpandedBy t s ptStart ptEnd p) :
    FoundBy t s ptStart ptEnd p := by
  obtain ⟨a, a', k, tag, openList, e, hreach, hbody, hlist, he⟩ := h
  have ha := hreach.nearest hf hstart hend hunused
  obtain ⟨_, -, hin, hc, -⟩ :=
    ha.expanding (aStarStart_pure ptStart ptEnd hf) hlist he.tagged he.run
  exact ⟨a, hreach, (counted_sameTags a.finder).visited.1 ⟨hin, tag, he.tagged, hc⟩⟩

/-! ## The whole search -/

/-- Everything found is found in the end. -/
theorem FoundBy.visited {r : Bool × PathFinder} {p : Point} (hf : s.Pure f)
    (hstart : ptStart.InRange) (hend : ptEnd.InRange) (hunused : Unused t s)
    (h : FoundBy t s ptStart ptEnd p) (hr : findAStar t s ptStart ptEnd = some r) :
    Visited t r.2 p := by
  obtain ⟨a, hreach, hp⟩ := h
  have ha := (hreach.nearest hf hstart hend hunused).toAStarInv
  have hf₁ := aStarStart_pure (t := t) ptStart ptEnd hf
  obtain ⟨n, hn⟩ := hreach
  obtain ⟨m, hm⟩ := Loop.run_inr_of_inl hn (loopResult_eq_some hr)
  apply Loop.run_inr (I := fun b => AStarInv t f (aStarStart t s ptStart ptEnd).finder ptStart
    ptEnd b ∧ Visited t b.finder p) _ _ ⟨ha, hp⟩ hm
  · exact fun b b' hb hbody => ⟨aStarBody_inv hb.1 hf₁ hend hbody, hb.1.visited hf₁ hbody hb.2⟩
  · intro b r hb hbody
    cases aStarBody_step hbody with
    | limit _ => exact hb.2
    | empty _ => exact hb.2
    | arrived _ _ => exact hb.2

/-- A search that fails leaves `m_pNearestTile` at the nearest of the tiles found. -/
theorem findAStar_cheapest (hf : s.Pure f) (hstart : ptStart.InRange) (hend : ptEnd.InRange)
    (hunused : Unused t s) (h : findAStar t s ptStart ptEnd = some (false, s')) :
    ∃ a, AStarReached t s ptStart ptEnd a ∧ SameTags a.finder s' ∧
      ∀ root, (aStarStart t s ptStart ptEnd).finder.getTileTag t ptStart = some root →
        NearestFound t ptStart ptEnd root s' a.nNearestDist := by
  obtain ⟨n, a, hrun, hexit⟩ := Loop.run_last (loopResult_eq_some h)
  have ha : AStarReached t s ptStart ptEnd a := ⟨n, hrun⟩
  have hsame : SameTags a.finder s' := by
    cases aStarBody_step hexit with
    | limit _ => exact counted_sameTags a.finder
    | empty _ => exact counted_sameTags a.finder
  exact ⟨a, ha, hsame, fun root hroot =>
    ((ha.nearest hf hstart hend hunused).nearest root hroot).sameTags hsame⟩

/-- The start is expanded first, or nothing is found. -/
theorem expandedBy_start {r : Bool × PathFinder} (hret : r.1 = false)
    (hinside : ∃ root, (aStarStart t s ptStart ptEnd).finder.getTileTag t ptStart = some root)
    (h : findAStar t s ptStart ptEnd = some r) (hnear : r.2.pNearestTile ≠ none) :
    ExpandedBy t s ptStart ptEnd ptStart := by
  have hlist : (aStarStart t s ptStart ptEnd).openList = [(0, ptStart)] := rfl
  have hnone : (aStarStart t s ptStart ptEnd).finder.pNearestTile = none := by
    unfold aStarStart
    dsimp only
    split <;> rfl
  cases Loop.cases_of_run_inr (loopResult_eq_some h) with
  -- a search that ends at once has no nearest tile
  | inl hexited =>
    cases aStarBody_step hexited with
    | limit _ => exact absurd hnone hnear
    | empty _ => exact absurd hnone hnear
    | arrived _ _ => exact nomatch hret
  | inr hwent =>
    -- otherwise the first turn took the start off the list
    obtain ⟨a', hbody, -⟩ := hwent
    obtain ⟨-, k, p, openList, hlist', hcases⟩ := aStarBody_inl hbody
    obtain ⟨heq, -⟩ := List.cons.inj (hlist.symm.trans hlist')
    obtain ⟨-, rfl⟩ := Prod.mk.inj heq
    cases hcases with
    | inl hskip =>
      obtain ⟨root, hroot⟩ := hinside
      exact nomatch hskip.1.symm.trans hroot
    | inr hexpand =>
      obtain ⟨tag, e, he⟩ := hexpand
      exact ⟨_, a', k, tag, openList, e, ⟨0, rfl⟩, hbody, hlist', he⟩

/-- Whether the distances of a map fit depends on the map only. -/
theorem SameMap.measured (h : SameMap s s') (hs : Measured s ptEnd) : Measured s' ptEnd := by
  have hback : SameMap s' s := ⟨h.nMapWidth.symm, h.nMapHeight.symm, h.blockFunc.symm⟩
  exact fun p hp => hs p (hback.onMap hp)

/-- None of the tiles found after the start is nearer than the one `m_pNearestTile` points to. -/
theorem NearestFound.le_manhattan {n : Nat} {last p : Point}
    (h : NearestFound t ptStart ptEnd root s n) (hend : ptEnd.InRange)
    (hmeasured : Measured s ptEnd)
    (hnear : nearestPoint t s = some last) (hp : FoundAfter t ptStart s p) :
    manhattan last ptEnd ≤ manhattan p ptEnd := by
  have hcheapest := hnear ▸ h.cheapest
  have hmap : ∀ {p : Point}, FoundAfter t ptStart s p → s.OnMap p := by
    rintro p ⟨⟨hin, i, hi, -⟩, -⟩
    exact onMap_of_getTileTag hin hi
  have hle := hcheapest.le_of_seen hp
  obtain ⟨hlast, hcost⟩ := hcheapest.kept last rfl
  have hcap := hcheapest.le_cap
  have hdist := comparedDist_cases (t := t) hend hmeasured (hmap hlast)
  have hdist' := comparedDist_cases (t := t) hend hmeasured (hmap hp)
  omega

/-- What `FindAStar` promises of the tile it ends at.  No tile it has expanded is nearer to the
    target just when another tile than the start was found that is no farther than the start. -/
theorem findAStar_promise {r : Bool × PathFinder} {last : Point} (hf : s.Pure f)
    (hstart : ptStart.InRange) (hend : ptEnd.InRange) (hunused : Unused t s)
    (hmeasured : Measured s ptEnd) (h : findAStar t s ptStart ptEnd = some r)
    (hnear : nearestPoint t r.2 = some last) (hne : last ≠ ptEnd) :
    (∀ p, ExpandedBy t s ptStart ptEnd p → ¬ manhattan p ptEnd < manhattan last ptEnd) ↔
      ∃ p, FoundBy t s ptStart ptEnd p ∧ p ≠ ptStart ∧
        manhattan p ptEnd ≤ manhattan ptStart ptEnd := by
  obtain ⟨ret, s₂⟩ := r
  have hresult := findAStar_result hf hstart hend hunused h
  obtain ⟨tag, htag, hpoint⟩ := Option.map_eq_some_iff.1 hnear
  have hsome : s₂.pNearestTile ≠ none := fun hnone => nomatch hnone.symm.trans htag
  obtain ⟨root, hroot⟩ : ∃ root,
      (aStarStart t s ptStart ptEnd).finder.getTileTag t ptStart = some root :=
    Option.ne_none_iff_exists'.1 fun hnone => hsome (hresult.outside hnone)
  match ret with
  | true =>
    -- the search ended at the target
    obtain ⟨-, i, hi, hi'⟩ := hresult.found rfl
    obtain rfl := Option.some.inj (htag.symm.trans hi')
    have hi₂ := (hresult.same.toSameSearch.getTileTag ptEnd).trans hi
    exact absurd (hpoint.symm.trans (tileToPoint_getTileTag hend hi₂)) hne
  | false =>
    obtain ⟨a, ha, hsame, hfound⟩ := findAStar_cheapest hf hstart hend hunused h
    have hmap := (aStarStart_sameMap s ptStart ptEnd).trans hresult.same.toSameSearch.sameMap
    have hle : ∀ p, FoundBy t s ptStart ptEnd p → p ≠ ptStart →
        manhattan last ptEnd ≤ manhattan p ptEnd := fun p hp hne =>
      (hfound root hroot).le_manhattan hend (hmap.measured hmeasured) hnear
        ⟨hp.visited hf hstart hend hunused h, hne⟩
    constructor
    · intro hpromise
      obtain ⟨⟨hvisited, hne'⟩, -⟩ := (hnear ▸ (hfound root hroot).cheapest).kept last rfl
      have hfirst := hpromise ptStart (expandedBy_start rfl ⟨root, hroot⟩ h hsome)
      exact ⟨last, ⟨a, ha, hsame.visited.1 hvisited⟩, hne', Nat.le_of_not_lt hfirst⟩
    · rintro ⟨p₀, hp₀, hne₀, hle₀⟩ p hp
      have hlast := Nat.le_trans (hle p₀ hp₀ hne₀) hle₀
      by_cases hp' : p = ptStart
      · rw [hp']
        exact Nat.not_lt.2 hlast
      · exact Nat.not_lt.2 (hle p (hp.found hf hstart hend hunused) hp')

end XGame3.PathFinder
