import XGame3.Spec.PathFinderOpen

/-!
# The straight way

`Approach` walks from tile to tile in the direction of `GetDir`, and in straight-way mode `Around`
is over when `IsOnStraightWay` finds the detour back on that walk.  The test knows the walk in
closed form: one leg that is straight or diagonal, or two legs that meet where the diagonal one
reaches the row or the column of the target.

Key results:
- `straightWalk_eq`: the walk in closed form
- `isOnStraightWay_iff`: between the start and the target the test accepts the tiles of the walk,
  and the start only when the target is ahead of it in neither coordinate
- `detourOver_iff`: where a detour ends in straight-way mode
- `straightWay_covers`: the test accepts the whole walk, and no call of it needs more than one
  level of recursion
-/

namespace XGame3.PathFinder

open FixedInt

variable {p : Point} {q : Query} {k : Nat}

/-! ## The walk -/

/-- The tile after so many steps from `ptStart`, each in the direction of `ptEnd`. -/
def straightWalk (ptStart ptEnd : Point) : Nat → Option Point
  | 0 => some ptStart
  | k + 1 => (straightWalk ptStart ptEnd k).bind fun ptTile =>
    moveNext ptTile (getDir ptTile ptEnd)

/-- Up to the target the walk is diagonal until one coordinate is that of the target, then
    straight. -/
theorem straightWalk_eq (hstart : q.ptStart.InRange) (hend : q.ptEnd.InRange) (hk : k ≤ reach q) :
    straightWalk q.ptStart q.ptEnd k = some (openPoint q k) := by
  induction k with
  | zero => rw [openPoint_zero]; rfl
  | succ k ih =>
    rw [straightWalk, ih (Nat.le_of_succ_le hk), Option.bind_some]
    exact moveNext_openPoint hstart hend hk

/-! ## The test between the start and the target -/

/-- The tiles that the test should accept: the walk, with the start in it when the target is ahead
    of it in neither coordinate. -/
def OnWay (q : Query) (p : Point) : Prop :=
  ∃ k ≤ reach q, openPoint q k = p ∧
    (k = 0 → q.ptEnd.x ≤ q.ptStart.x ∧ q.ptEnd.y ≤ q.ptStart.y)

/-- So many steps lead so far, up to the target. -/
theorem towards_natAbs (c d : Int) (k : Nat) :
    (towards c d k - c).natAbs = min k (d - c).natAbs := by
  have h := towards_cases c d k
  omega

/-- A coordinate on the way is reached after as many steps as it is away. -/
theorem towards_of_between {c d e : Int} (he : min c d ≤ e ∧ e ≤ max c d) :
    towards c d (e - c).natAbs = e := by
  have h := towards_cases c d (e - c).natAbs
  omega

/-- Between the start and the target the walk is where both coordinates are equally far from the
    start, or where one is that of the target and the other further. -/
theorem onWay_iff (hp : InRect q.ptStart q.ptEnd p) : OnWay q p ↔
    ((p.x - q.ptStart.x).natAbs = (p.y - q.ptStart.y).natAbs ∨
      q.ptEnd.x = p.x ∧ (p.x - q.ptStart.x).natAbs < (p.y - q.ptStart.y).natAbs ∨
      q.ptEnd.y = p.y ∧ (p.y - q.ptStart.y).natAbs < (p.x - q.ptStart.x).natAbs) ∧
    (p = q.ptStart → q.ptEnd.x ≤ q.ptStart.x ∧ q.ptEnd.y ≤ q.ptStart.y) := by
  constructor
  · rintro ⟨k, hk, rfl, hzero⟩
    constructor
    · -- both coordinates advance until one is there
      unfold openPoint
      dsimp only
      rw [towards_natAbs, towards_natAbs, eq_comm (a := q.ptEnd.x), eq_comm (a := q.ptEnd.y),
        towards_eq_iff, towards_eq_iff]
      clear hp hzero
      omega
    · intro hstart
      rw [← openPoint_zero] at hstart
      exact hzero (openPoint_inj hk (Nat.zero_le _) hstart)
  · rintro ⟨hway, hstart⟩
    have hx := towards_of_between hp.x
    have hy := towards_of_between hp.y
    -- the coordinate that is further from the start tells the number of steps
    refine ⟨max (p.x - q.ptStart.x).natAbs (p.y - q.ptStart.y).natAbs, ?_, ?_, ?_⟩
    · have hpx := hp.x
      have hpy := hp.y
      unfold reach
      omega
    · unfold openPoint
      rcases hway with hsame | ⟨hend, hlt⟩ | ⟨hend, hlt⟩
      · rw [hsame, Nat.max_self, hy, ← hsame, hx]
      · -- the column of the target, where only the other coordinate counts
        rw [Nat.max_eq_right hlt.le, hy, towards_eq_iff.2 (by omega), hend]
      · rw [Nat.max_eq_left hlt.le, hx, towards_eq_iff.2 (by omega), hend]
    · intro hzero
      exact hstart (Point.ext (by omega) (by omega))

/-- A coordinate on the way, counted from the start. -/
theorem between_cases {c d e : Int} (he : min c d ≤ e ∧ e ≤ max c d) :
    ∃ u w : Nat, (e - c).natAbs = u ∧ (d - c).natAbs = w ∧ u ≤ w ∧
      (e = c + u ∧ d = c + w ∨ e = c - u ∧ d = c - w) :=
  ⟨_, _, rfl, rfl, by omega, by omega⟩

/-- A straight or diagonal way. -/
theorem onLeg_iff (hleg : q.ptEnd.x = q.ptStart.x ∨ q.ptEnd.y = q.ptStart.y ∨
      (q.ptEnd.x - q.ptStart.x).natAbs = (q.ptEnd.y - q.ptStart.y).natAbs)
    (hp : InRect q.ptStart q.ptEnd p) : OnLeg q.ptStart q.ptEnd p ↔ OnWay q p := by
  rw [onWay_iff hp, Point.ext_iff]
  obtain ⟨u, w, hu, hw, huw, hxs⟩ := between_cases hp.x
  obtain ⟨v, z, hv, hz, hvz, hys⟩ := between_cases hp.y
  rw [hw, hz] at hleg
  rw [hu, hv]
  by_cases hx : q.ptEnd.x = q.ptStart.x
  · rw [onLeg_column hx]
    rcases hys with ⟨hpy, hqy⟩ | ⟨hpy, hqy⟩ <;> omega
  · by_cases hy : q.ptEnd.y = q.ptStart.y
    · rw [onLeg_row hx hy]
      rcases hxs with ⟨hpx, hqx⟩ | ⟨hpx, hqx⟩ <;> omega
    · rw [onLeg_diagonal hx hy, hu, hv]
      clear hu hv hw hz hp
      rcases hxs with ⟨hpx, hqx⟩ | ⟨hpx, hqx⟩ <;> rcases hys with ⟨hpy, hqy⟩ | ⟨hpy, hqy⟩ <;> omega

/-- A way with two legs, that turns at the middle point. -/
theorem onLegs_iff (hclose : Close q.ptStart q.ptEnd) (hstart : q.ptStart.InRange)
    (hend : q.ptEnd.InRange) (hx : q.ptEnd.x ≠ q.ptStart.x) (hy : q.ptEnd.y ≠ q.ptStart.y)
    (hne : (q.ptEnd.x - q.ptStart.x).natAbs ≠ (q.ptEnd.y - q.ptStart.y).natAbs)
    (hp : InRect q.ptStart q.ptEnd p) :
    (middle q.ptStart q.ptEnd = p ∨ OnLeg q.ptStart (middle q.ptStart q.ptEnd) p ∨
      OnLeg (middle q.ptStart q.ptEnd) q.ptEnd p) ↔ OnWay q p := by
  have hmiddle := middle_inRect hclose hstart hend
  rw [onWay_iff hp, Point.ext_iff, Point.ext_iff]
  obtain ⟨u, w, hu, hw, huw, hxs⟩ := between_cases hp.x
  obtain ⟨v, z, hv, hz, hvz, hys⟩ := between_cases hp.y
  rw [hw, hz] at hne
  rw [hu, hv]
  by_cases hlt : w < z
  · -- diagonally to the column of the target, then along it
    obtain ⟨hcolumn, hfar⟩ := middle_column hclose hstart hend (by omega)
    obtain ⟨m, z', hm, hz', hmz, hms⟩ := between_cases hmiddle.y
    rw [onLeg_diagonal (by omega) (by omega), onLeg_column hcolumn.symm, hcolumn, hu, hv]
    obtain rfl : m = w := by omega
    obtain rfl : z' = z := by omega
    clear hne hu hv hw hz hm hz' hp hmiddle hfar
    rcases hxs with ⟨hpx, hqx⟩ | ⟨hpx, hqx⟩ <;> rcases hys with ⟨hpy, hqy⟩ | ⟨hpy, hqy⟩ <;> omega
  · -- diagonally to the row of the target, then along it
    obtain ⟨hrow, hfar⟩ := middle_row hclose hstart hend (by omega)
    obtain ⟨m, w', hm, hw', hmw, hms⟩ := between_cases hmiddle.x
    rw [onLeg_diagonal (by omega) (by omega), onLeg_row (by omega) hrow.symm, hrow, hu, hv]
    obtain rfl : m = z := by omega
    obtain rfl : w' = w := by omega
    clear hu hv hw hz hm hw' hp hmiddle hfar
    rcases hxs with ⟨hpx, hqx⟩ | ⟨hpx, hqx⟩ <;> rcases hys with ⟨hpy, hqy⟩ | ⟨hpy, hqy⟩ <;> omega

/-- Between the start and the target the test accepts the tiles of the walk, and the start only when
    the target is ahead of it in neither coordinate. -/
theorem isOnStraightWay_iff (hclose : Close q.ptStart q.ptEnd) (hstart : q.ptStart.InRange)
    (hend : q.ptEnd.InRange) (hp : InRect q.ptStart q.ptEnd p) (n : Nat) :
    isOnStraightWay (n + 2) p q.ptStart q.ptEnd = some true ↔ OnWay q p := by
  by_cases hleg : OneLeg q.ptStart q.ptEnd
  · have hp' := hclose.of_inRect (inRect_left q.ptStart q.ptEnd) hp
    rw [isOnStraightWay_leg hclose hp' hleg (n + 1)]
    exact onLeg_iff ((oneLeg_iff hclose).1 hleg) hp
  · rw [isOnStraightWay_legs_iff hclose hstart hend hleg hp n]
    rw [oneLeg_iff hclose, not_or, not_or] at hleg
    exact onLegs_iff hclose hstart hend hleg.1 hleg.2.1 hleg.2.2 hp

/-- In straight-way mode a detour that stays between its start and the target ends on the walk. -/
theorem detourOver_iff (t : Params) {s : PathFinder}
    (hmode : hasOption s.nSearchOption optionStraightway = true) (hclose : Close q.ptStart q.ptEnd)
    (hstart : q.ptStart.InRange) (hend : q.ptEnd.InRange) (hp : InRect q.ptStart q.ptEnd p) :
    detourOver t s q.ptStart q.ptEnd p = some true ↔ OnWay q p := by
  unfold detourOver
  rw [if_pos hmode]
  exact isOnStraightWay_iff hclose hstart hend hp 0

/-- A tile of the walk is between the start and the target. -/
theorem openPoint_inRect (q : Query) (k : Nat) : InRect q.ptStart q.ptEnd (openPoint q k) := by
  have h := openPoint_between q k
  constructor
  · exact h.1
  · exact h.2

/-- The test accepts every tile of the walk after the start, and answers for every tile without
    calling itself below the second call. -/
theorem straightWay_covers (ptStart ptEnd : Point) (hstart : ptStart.InRange) (hend : ptEnd.InRange)
    (hx : (ptEnd.x - ptStart.x).natAbs < 2147483648)
    (hy : (ptEnd.y - ptStart.y).natAbs < 2147483648) :
    (∀ k, 1 ≤ k → k ≤ max (ptEnd.x - ptStart.x).natAbs (ptEnd.y - ptStart.y).natAbs →
      ∃ ptTile, straightWalk ptStart ptEnd k = some ptTile ∧
        ∀ depth, isOnStraightWay (depth + 2) ptTile ptStart ptEnd = some true) ∧
    ∀ ptTile, ∃ r, ∀ depth, isOnStraightWay (depth + 2) ptTile ptStart ptEnd = some r := by
  constructor
  · intro k hpos hk
    have hwalk := straightWalk_eq (q := ⟨ptStart, ptEnd, 0, 0⟩) hstart hend hk
    refine ⟨_, hwalk, fun depth => ?_⟩
    apply (isOnStraightWay_iff (q := ⟨ptStart, ptEnd, 0, 0⟩) ⟨hx, hy⟩ hstart hend
      (openPoint_inRect _ k) depth).2
    exact ⟨k, hk, rfl, fun hzero => absurd hzero (by omega)⟩
  · exact fun ptTile => isOnStraightWay_depth ptTile ptStart ptEnd

/-- The third of five steps. -/
theorem straightWay_covers_bent :
    ∃ ptTile, straightWalk ⟨0, 0⟩ ⟨5, -2⟩ 3 = some ptTile ∧
      ∀ depth, isOnStraightWay (depth + 2) ptTile ⟨0, 0⟩ ⟨5, -2⟩ = some true :=
  (straightWay_covers ⟨0, 0⟩ ⟨5, -2⟩ ⟨by decide, by decide⟩ ⟨by decide, by decide⟩ (by decide)
    (by decide)).1 3 (by decide) (by decide)

end XGame3.PathFinder
