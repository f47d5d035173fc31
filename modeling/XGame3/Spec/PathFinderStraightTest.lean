import Mathlib.Tactic.SplitIfs
import XGame3.Spec.PathFinderMoves

/-!
# The test for the straight way

`IsOnStraightWay` answers at once when the way has one leg, that is when it is straight or diagonal.
Otherwise it asks about the point where the diagonal leg meets the row or the column of the target,
and then about each leg: one call below the first is as deep as it gets.

Key results:
- `isOnStraightWay_depth`: the answer, with any depth from two on
- `isOnStraightWay_leg`, `isOnStraightWay_legs_iff`: the answer on one leg and on two, without the
  wraps
-/

namespace XGame3.PathFinder

open FixedInt

variable {p ptStart ptEnd : Point} {n : Nat}

/-! ## Legs -/

/-- The way is straight or diagonal. -/
def OneLeg (ptStart ptEnd : Point) : Prop :=
  int32 (ptEnd.x - ptStart.x) = 0 ∨ int32 (ptEnd.y - ptStart.y) = 0 ∨
    abs (int32 (ptEnd.x - ptStart.x)) = abs (int32 (ptEnd.y - ptStart.y))

/-- `ptMiddle`, where two legs meet. -/
def middle (ptStart ptEnd : Point) : Point :=
  let dx := int32 (ptEnd.x - ptStart.x)
  let dy := int32 (ptEnd.y - ptStart.y)
  if abs dx < abs dy then
    ⟨ptEnd.x, int32 (ptStart.y + (if dy > 0 then abs dx else int32 (-abs dx)))⟩
  else
    ⟨int32 (ptStart.x + (if dx > 0 then abs dy else int32 (-abs dy))), ptEnd.y⟩

/-- The length of a leg and its sign survive the wraps. -/
theorem abs_leg {x : Int} (hx : IsInt32 x) {v : Int} (hv : v = abs x ∨ v = int32 (-abs x)) :
    int32 v = v ∧ abs v = abs x := by
  have h1 := int32_emod (-x)
  have h2 := isInt32_int32 (-x)
  have h3 := int32_emod (-abs x)
  have h4 := isInt32_int32 (-abs x)
  have h5 := int32_emod v
  have h6 := isInt32_int32 v
  have h7 := int32_emod (-v)
  have h8 := isInt32_int32 (-v)
  unfold abs at *
  rcases hv with rfl | rfl <;> (constructor <;> split_ifs at * <;> omega)

/-- The second leg begins where the first ends. -/
theorem int32_leg (a v : Int) : int32 (int32 (a + v) - a) = int32 v := by
  apply int32_congr
  have h := int32_emod (a + v)
  omega

/-- Both ways over the middle point have one leg. -/
theorem oneLeg_middle (ptStart ptEnd : Point) :
    OneLeg ptStart (middle ptStart ptEnd) ∧ OneLeg (middle ptStart ptEnd) ptEnd := by
  have hzero : ∀ a : Int, int32 (a - a) = 0 := by simp [int32]
  have hx : IsInt32 (int32 (ptEnd.x - ptStart.x)) := isInt32_int32 _
  have hy : IsInt32 (int32 (ptEnd.y - ptStart.y)) := isInt32_int32 _
  unfold middle
  dsimp only
  split
  · -- diagonally to the column of the target, then along it
    refine ⟨.inr (.inr ?_), .inl (hzero _)⟩
    have hleg := abs_leg hx (v := if int32 (ptEnd.y - ptStart.y) > 0 then
      abs (int32 (ptEnd.x - ptStart.x)) else int32 (-abs (int32 (ptEnd.x - ptStart.x)))) (by
        split
        · exact .inl rfl
        · exact .inr rfl)
    rw [int32_leg, hleg.1, hleg.2]
  · -- diagonally to the row of the target, then along it
    refine ⟨.inr (.inr ?_), .inr (.inl (hzero _))⟩
    have hleg := abs_leg hy (v := if int32 (ptEnd.x - ptStart.x) > 0 then
      abs (int32 (ptEnd.y - ptStart.y)) else int32 (-abs (int32 (ptEnd.y - ptStart.y)))) (by
        split
        · exact .inl rfl
        · exact .inr rfl)
    rw [int32_leg, hleg.1, hleg.2]

/-! ## Depth -/

/-- With one leg the test does not call itself. -/
theorem isOnStraightWay_oneLeg (h : OneLeg ptStart ptEnd) (p : Point) :
    ∃ r, ∀ n, isOnStraightWay (n + 1) p ptStart ptEnd = some r := by
  by_cases hx : int32 (ptEnd.x - ptStart.x) = 0
  · exact ⟨_, fun n => if_pos hx⟩
  · by_cases hy : int32 (ptEnd.y - ptStart.y) = 0
    · exact ⟨_, fun n => (if_neg hx).trans (if_pos hy)⟩
    · have hdiag := (h.resolve_left hx).resolve_left hy
      by_cases hoff : abs (int32 (p.x - ptStart.x)) ≠ abs (int32 (p.y - ptStart.y))
      · exact ⟨_, fun n => (if_neg hx).trans
          ((if_neg hy).trans ((if_pos hdiag).trans (if_pos hoff)))⟩
      · exact ⟨_, fun n => (if_neg hx).trans
          ((if_neg hy).trans ((if_pos hdiag).trans (if_neg hoff)))⟩

/-- With two it asks about the middle point and about each leg. -/
theorem isOnStraightWay_bent (h : ¬ OneLeg ptStart ptEnd) (p : Point) (n : Nat) :
    isOnStraightWay (n + 1) p ptStart ptEnd =
      if middle ptStart ptEnd = p then some true
      else
        match isOnStraightWay n p ptStart (middle ptStart ptEnd) with
        | some false => isOnStraightWay n p (middle ptStart ptEnd) ptEnd
        | r => r := by
  unfold OneLeg at h
  rw [not_or, not_or] at h
  exact (if_neg h.1).trans ((if_neg h.2.1).trans (if_neg h.2.2))

/-- What the two legs answer is what the test answers. -/
theorem isOnStraightWay_legs {r₁ r₂ : Bool} (h : ¬ OneLeg ptStart ptEnd)
    (h₁ : isOnStraightWay n p ptStart (middle ptStart ptEnd) = some r₁)
    (h₂ : isOnStraightWay n p (middle ptStart ptEnd) ptEnd = some r₂) :
    isOnStraightWay (n + 1) p ptStart ptEnd =
      some (decide (middle ptStart ptEnd = p) || (r₁ || r₂)) := by
  rw [isOnStraightWay_bent h, h₁, h₂]
  split
  · rename_i hmiddle
    rw [decide_eq_true hmiddle]
    rfl
  · rename_i hmiddle
    rw [decide_eq_false hmiddle]
    cases r₁ <;> rfl

/-- The test calls itself once below the first call, and no deeper. -/
theorem isOnStraightWay_depth (p ptStart ptEnd : Point) :
    ∃ r, ∀ n, isOnStraightWay (n + 2) p ptStart ptEnd = some r := by
  by_cases hleg : OneLeg ptStart ptEnd
  · obtain ⟨r, hr⟩ := isOnStraightWay_oneLeg hleg p
    exact ⟨r, fun n => hr (n + 1)⟩
  · -- the calls for the two legs find one leg each
    obtain ⟨hfirst, hsecond⟩ := oneLeg_middle ptStart ptEnd
    obtain ⟨r₁, hr₁⟩ := isOnStraightWay_oneLeg hfirst p
    obtain ⟨r₂, hr₂⟩ := isOnStraightWay_oneLeg hsecond p
    exact ⟨_, fun n => isOnStraightWay_legs hleg (hr₁ n) (hr₂ n)⟩

/-! ## Without the wraps -/

/-- The coordinates differ by less than `2 ^ 31`. -/
structure Close (p q : Point) : Prop where
  x : (q.x - p.x).natAbs < 2147483648
  y : (q.y - p.y).natAbs < 2147483648

/-- The absolute value of a number that fits is its distance from zero. -/
theorem abs_int32_eq {x : Int} (h : x.natAbs < 2147483648) : abs (int32 x) = x.natAbs := by
  have hneg : int32 (-x) = -x := int32_of_isInt32 (by omega)
  rw [int32_of_isInt32 (by omega), abs, hneg]
  split <;> omega

/-- A coordinate of the middle point that is an `int`. -/
theorem int32_offset {a d v : Int} (hd : d = 0 → v = 0) (h : IsInt32 (a + d.sign * v)) :
    int32 (a + (if d > 0 then v else int32 (-v))) = a + d.sign * v := by
  rcases Int.lt_trichotomy d 0 with hneg | hzero | hpos
  · rw [Int.sign_eq_neg_one_of_neg hneg] at h ⊢
    rw [if_neg (by omega), int32_add_int32, int32_of_isInt32 (by omega)]
    omega
  · rw [hzero, Int.sign_zero] at h ⊢
    rw [if_neg (by omega), hd hzero]
    simpa [int32] using int32_of_isInt32 h
  · rw [Int.sign_eq_one_of_pos hpos] at h ⊢
    rw [if_pos hpos, Int.one_mul]
    exact int32_of_isInt32 (by omega)

/-- What the test asks of a tile when the way has one leg. -/
def OnLeg (ptStart ptEnd p : Point) : Prop :=
  if ptEnd.x = ptStart.x then ptEnd.x = p.x ∧ (p.y > ptStart.y ↔ ptEnd.y > ptStart.y)
  else if ptEnd.y = ptStart.y then ptEnd.y = p.y ∧ (p.x > ptStart.x ↔ ptEnd.x > ptStart.x)
  else (p.x - ptStart.x).natAbs = (p.y - ptStart.y).natAbs ∧
    (ptEnd.x > ptStart.x ↔ p.x > ptStart.x) ∧ (ptEnd.y > ptStart.y ↔ p.y > ptStart.y)

/-- Along a column. -/
theorem onLeg_column (h : ptEnd.x = ptStart.x) :
    OnLeg ptStart ptEnd p ↔ ptEnd.x = p.x ∧ (p.y > ptStart.y ↔ ptEnd.y > ptStart.y) := by
  unfold OnLeg
  rw [if_pos h]

/-- Along a row. -/
theorem onLeg_row (hx : ptEnd.x ≠ ptStart.x) (hy : ptEnd.y = ptStart.y) :
    OnLeg ptStart ptEnd p ↔ ptEnd.y = p.y ∧ (p.x > ptStart.x ↔ ptEnd.x > ptStart.x) := by
  unfold OnLeg
  rw [if_neg hx, if_pos hy]

/-- Along a diagonal. -/
theorem onLeg_diagonal (hx : ptEnd.x ≠ ptStart.x) (hy : ptEnd.y ≠ ptStart.y) :
    OnLeg ptStart ptEnd p ↔ (p.x - ptStart.x).natAbs = (p.y - ptStart.y).natAbs ∧
      (ptEnd.x > ptStart.x ↔ p.x > ptStart.x) ∧ (ptEnd.y > ptStart.y ↔ p.y > ptStart.y) := by
  unfold OnLeg
  rw [if_neg hx, if_neg hy]

section Close

variable (hclose : Close ptStart ptEnd)

include hclose

/-- One leg is a row, a column or a diagonal. -/
theorem oneLeg_iff : OneLeg ptStart ptEnd ↔ ptEnd.x = ptStart.x ∨ ptEnd.y = ptStart.y ∨
    (ptEnd.x - ptStart.x).natAbs = (ptEnd.y - ptStart.y).natAbs := by
  have hx := hclose.x
  have hy := hclose.y
  unfold OneLeg
  rw [abs_int32_eq hx, abs_int32_eq hy, int32_of_isInt32 (by omega), int32_of_isInt32 (by omega)]
  omega

/-- The middle point is as far from the start in both coordinates as the target is in the nearer
    one. -/
theorem middle_eq (hstart : ptStart.InRange) (hend : ptEnd.InRange) :
    middle ptStart ptEnd =
      if (ptEnd.x - ptStart.x).natAbs < (ptEnd.y - ptStart.y).natAbs then
        ⟨ptEnd.x, ptStart.y + (ptEnd.y - ptStart.y).sign * (ptEnd.x - ptStart.x).natAbs⟩
      else
        ⟨ptStart.x + (ptEnd.x - ptStart.x).sign * (ptEnd.y - ptStart.y).natAbs, ptEnd.y⟩ := by
  -- the differences fit, so none of the four wraps matters
  have hx := hclose.x
  have hy := hclose.y
  have hstartx := hstart.x
  have hstarty := hstart.y
  have hendx := hend.x
  have hendy := hend.y
  unfold middle
  dsimp only
  rw [abs_int32_eq hx, abs_int32_eq hy,
    int32_of_isInt32 (show IsInt32 (ptEnd.x - ptStart.x) by omega),
    int32_of_isInt32 (show IsInt32 (ptEnd.y - ptStart.y) by omega)]
  simp only [Int.ofNat_lt]
  -- the shorter leg decides the corner
  split
  · rw [int32_offset (by omega)]
    rcases sign_sub_cases ptStart.y ptEnd.y with h | h | h <;> rw [h.2] <;> omega
  · rw [int32_offset (by omega)]
    rcases sign_sub_cases ptStart.x ptEnd.x with h | h | h <;> rw [h.2] <;> omega

/-- The answer on one leg. -/
theorem isOnStraightWay_leg (hp : Close ptStart p) (hleg : OneLeg ptStart ptEnd) (n : Nat) :
    isOnStraightWay (n + 1) p ptStart ptEnd = some true ↔ OnLeg ptStart ptEnd p := by
  rw [oneLeg_iff hclose] at hleg
  have hx := hclose.x
  have hy := hclose.y
  unfold isOnStraightWay OnLeg
  dsimp only
  rw [abs_int32_eq hx, abs_int32_eq hy, abs_int32_eq hp.x, abs_int32_eq hp.y,
    int32_of_isInt32 (show IsInt32 (ptEnd.x - ptStart.x) by omega),
    int32_of_isInt32 (show IsInt32 (ptEnd.y - ptStart.y) by omega)]
  by_cases hdx : ptEnd.x = ptStart.x
  · -- along a column
    rw [if_pos (by omega), if_pos hdx]
    simp only [Option.some.injEq, Bool.and_eq_true, beq_iff_eq, decide_eq_decide]
  · rw [if_neg (by omega), if_neg hdx]
    by_cases hdy : ptEnd.y = ptStart.y
    · -- along a row
      rw [if_pos (by omega), if_pos hdy]
      simp only [Option.some.injEq, Bool.and_eq_true, beq_iff_eq, decide_eq_decide]
    · -- along a diagonal, where the offsets are compared before their signs
      rw [if_neg (by omega), if_neg hdy, if_pos (by omega)]
      split
      · rename_i hoff
        have hfar : ¬ (p.x - ptStart.x).natAbs = (p.y - ptStart.y).natAbs := by omega
        simp [hfar]
      · rename_i hon
        have hdiag : (p.x - ptStart.x).natAbs = (p.y - ptStart.y).natAbs := by omega
        simp only [Option.some.injEq, Bool.and_eq_true, beq_iff_eq, decide_eq_decide, hdiag,
          true_and]

end Close

/-- The tile is in the rectangle between two others. -/
structure InRect (p q r : Point) : Prop where
  x : min p.x q.x ≤ r.x ∧ r.x ≤ max p.x q.x
  y : min p.y q.y ≤ r.y ∧ r.y ≤ max p.y q.y

/-- A rectangle holds the first of its corners -/
theorem inRect_left (p q : Point) : InRect p q p := by
  constructor <;> omega

/-- and the second. -/
theorem inRect_right (p q : Point) : InRect p q q := by
  constructor <;> omega

/-- Tiles between close ones are close. -/
theorem Close.of_inRect {p q r r' : Point} (h : Close p q) (hr : InRect p q r)
    (hr' : InRect p q r') : Close r r' := by
  have hx := h.x
  have hy := h.y
  have hrx := hr.x
  have hry := hr.y
  have hrx' := hr'.x
  have hry' := hr'.y
  constructor <;> omega

/-- The middle point is between the start and the target, in the column or the row of the target. -/
theorem middle_inRect (hclose : Close ptStart ptEnd) (hstart : ptStart.InRange)
    (hend : ptEnd.InRange) : InRect ptStart ptEnd (middle ptStart ptEnd) := by
  rw [middle_eq hclose hstart hend]
  split
  · constructor <;> dsimp only
    · omega
    · rcases sign_sub_cases ptStart.y ptEnd.y with h | h | h <;> rw [h.2] <;> omega
  · constructor <;> dsimp only
    · rcases sign_sub_cases ptStart.x ptEnd.x with h | h | h <;> rw [h.2] <;> omega
    · omega

/-- The middle point of a steep line is in the column of the end, -/
theorem middle_column (hclose : Close ptStart ptEnd) (hstart : ptStart.InRange)
    (hend : ptEnd.InRange) (hlt : (ptEnd.x - ptStart.x).natAbs < (ptEnd.y - ptStart.y).natAbs) :
    (middle ptStart ptEnd).x = ptEnd.x ∧
      ((middle ptStart ptEnd).y - ptStart.y).natAbs = (ptEnd.x - ptStart.x).natAbs := by
  rw [middle_eq hclose hstart hend, if_pos hlt]
  refine ⟨rfl, ?_⟩
  dsimp only
  rcases sign_sub_cases ptStart.y ptEnd.y with h | h | h <;> rw [h.2] <;> omega

/-- that of a flat line in its row. -/
theorem middle_row (hclose : Close ptStart ptEnd) (hstart : ptStart.InRange)
    (hend : ptEnd.InRange) (hle : (ptEnd.y - ptStart.y).natAbs ≤ (ptEnd.x - ptStart.x).natAbs) :
    (middle ptStart ptEnd).y = ptEnd.y ∧
      ((middle ptStart ptEnd).x - ptStart.x).natAbs = (ptEnd.y - ptStart.y).natAbs := by
  rw [middle_eq hclose hstart hend, if_neg (Nat.not_lt.2 hle)]
  refine ⟨rfl, ?_⟩
  dsimp only
  rcases sign_sub_cases ptStart.x ptEnd.x with h | h | h <;> rw [h.2] <;> omega

/-- The answer on two legs. -/
theorem isOnStraightWay_legs_iff (hclose : Close ptStart ptEnd) (hstart : ptStart.InRange)
    (hend : ptEnd.InRange) (hbent : ¬ OneLeg ptStart ptEnd) (hp : InRect ptStart ptEnd p)
    (n : Nat) :
    isOnStraightWay (n + 2) p ptStart ptEnd = some true ↔
      middle ptStart ptEnd = p ∨ OnLeg ptStart (middle ptStart ptEnd) p ∨
        OnLeg (middle ptStart ptEnd) ptEnd p := by
  have hmiddle := middle_inRect hclose hstart hend
  have hleft := inRect_left ptStart ptEnd
  have hright := inRect_right ptStart ptEnd
  obtain ⟨hfirst, hsecond⟩ := oneLeg_middle ptStart ptEnd
  obtain ⟨r₁, hr₁⟩ := isOnStraightWay_oneLeg hfirst p
  obtain ⟨r₂, hr₂⟩ := isOnStraightWay_oneLeg hsecond p
  rw [← isOnStraightWay_leg (hclose.of_inRect hleft hmiddle) (hclose.of_inRect hleft hp) hfirst n,
    ← isOnStraightWay_leg (hclose.of_inRect hmiddle hright) (hclose.of_inRect hmiddle hp) hsecond n,
    isOnStraightWay_legs hbent (hr₁ n) (hr₂ n), hr₁, hr₂]
  simp only [Option.some.injEq, Bool.or_eq_true, decide_eq_true_eq]

end XGame3.PathFinder
