import XGame3.Spec.PathFinderBuffer
import XGame3.Spec.PathFinderReturns

/-!
# The path over open ground

Where nothing is blocked between the start and the target `Approach` walks there without a
detour: diagonally until one coordinate is that of the target, then straight.  The path that
`BuildPath` makes of the walk has every tile of it, since each step is one further along the
longer axis, and it is short enough for `FindPath` to be content with it.

Key results:
- `approachBody_open`: one step of the walk
- `findPath_open`: the path that is returned
-/

namespace XGame3.PathFinder

open FixedInt ParentChain

variable {s s' : PathFinder} {f : Point → Bool} {q : Query} {k : Nat} {dword : SizeT}

/-! ## The way -/

/-- One coordinate after `k` steps from `a` to `b`. -/
def towards (a b : Int) (k : Nat) : Int := a + (b - a).sign * (min k (b - a).natAbs : Nat)

/-- Upwards to the bound, or downwards. -/
theorem towards_cases (a b : Int) (k : Nat) :
    a ≤ b ∧ towards a b k = min (a + k) b ∨ b < a ∧ towards a b k = max (a - k) b := by
  unfold towards
  rcases sign_sub_cases a b with h | h | h
  all_goals
    rw [h.2]
    omega

/-- One more step. -/
theorem towards_succ (a b : Int) (k : Nat) :
    towards a b k + (b - towards a b k).sign = towards a b (k + 1) := by
  have hk := towards_cases a b k
  have hk' := towards_cases a b (k + 1)
  rcases sign_sub_cases (towards a b k) b with h | h | h <;> omega

/-- The bound is reached after the distance. -/
theorem towards_eq_iff {a b : Int} : towards a b k = b ↔ (b - a).natAbs ≤ k := by
  have hk := towards_cases a b k
  omega

/-- Until the target each step leads one further. -/
theorem towards_far {a b : Int} {i j : Nat} (hij : i ≤ j) (hj : j ≤ (b - a).natAbs) :
    (towards a b j - towards a b i).natAbs = j - i := by
  have hi := towards_cases a b i
  have hj' := towards_cases a b j
  omega

/-- No step is wider than one. -/
theorem towards_near (a b : Int) (k n : Nat) :
    (towards a b (k + n) - towards a b k).natAbs ≤ n := by
  have hk := towards_cases a b k
  have hn := towards_cases a b (k + n)
  omega

/-- The steps from the start to the target. -/
def reach (q : Query) : Nat :=
  max (q.ptEnd.x - q.ptStart.x).natAbs (q.ptEnd.y - q.ptStart.y).natAbs

/-- The tile after `k` steps: diagonally until one coordinate is that of the target, then
    straight. -/
def openPoint (q : Query) (k : Nat) : Point :=
  ⟨towards q.ptStart.x q.ptEnd.x k, towards q.ptStart.y q.ptEnd.y k⟩

/-- The way from the start to the target. -/
def openPath (q : Query) : List Point := (List.range (reach q + 1)).map (openPoint q)

/-- The walk begins at the start. -/
theorem openPoint_zero (q : Query) : openPoint q 0 = q.ptStart := by
  have hx := towards_cases q.ptStart.x q.ptEnd.x 0
  have hy := towards_cases q.ptStart.y q.ptEnd.y 0
  apply Point.ext
  · unfold openPoint
    dsimp only
    omega
  · unfold openPoint
    dsimp only
    omega

/-- It reaches the target with its last step, -/
theorem openPoint_eq_end (h : k ≤ reach q) : openPoint q k = q.ptEnd ↔ k = reach q := by
  unfold reach at h ⊢
  rw [Point.ext_iff]
  unfold openPoint
  dsimp only
  rw [towards_eq_iff, towards_eq_iff]
  omega

/-- Along the longer axis each step leads one further. -/
theorem openPoint_far {i j : Nat} (hij : i ≤ j) (hj : j ≤ reach q) :
    (j - i : Nat) ≤ max ((openPoint q j).x - (openPoint q i).x).natAbs
      ((openPoint q j).y - (openPoint q i).y).natAbs := by
  unfold openPoint
  dsimp only
  -- the longer axis is the one that is not yet done
  cases le_max_iff.1 hj with
  | inl hx => exact Nat.le_trans (Nat.le_of_eq (towards_far hij hx).symm) (Nat.le_max_left _ _)
  | inr hy => exact Nat.le_trans (Nat.le_of_eq (towards_far hij hy).symm) (Nat.le_max_right _ _)

/-- visits no tile twice -/
theorem openPoint_inj {i j : Nat} (hi : i ≤ reach q) (hj : j ≤ reach q)
    (h : openPoint q i = openPoint q j) : i = j := by
  rcases Nat.le_total i j with hij | hji
  · have hfar := openPoint_far hij hj
    rw [h] at hfar
    omega
  · have hfar := openPoint_far hji hi
    rw [h] at hfar
    omega

/-- and stays between its ends. -/
theorem openPoint_between (q : Query) (k : Nat) :
    (min q.ptStart.x q.ptEnd.x ≤ (openPoint q k).x ∧
      (openPoint q k).x ≤ max q.ptStart.x q.ptEnd.x) ∧
    (min q.ptStart.y q.ptEnd.y ≤ (openPoint q k).y ∧
      (openPoint q k).y ≤ max q.ptStart.y q.ptEnd.y) := by
  have hx := towards_cases q.ptStart.x q.ptEnd.x k
  have hy := towards_cases q.ptStart.y q.ptEnd.y k
  unfold openPoint
  dsimp only
  omega

section Range

variable (hstart : q.ptStart.InRange) (hend : q.ptEnd.InRange)

include hstart hend

/-- Its tiles are points. -/
theorem openPoint_inRange (k : Nat) : (openPoint q k).InRange := by
  obtain ⟨hx, hy⟩ := openPoint_between q k
  have hstartx := hstart.x
  have hstarty := hstart.y
  have hendx := hend.x
  have hendy := hend.y
  constructor <;> omega

/-- Each tile of the way is the next one in the direction of the target. -/
theorem moveNext_openPoint (hk : k < reach q) :
    moveNext (openPoint q k) (getDir (openPoint q k) q.ptEnd) = some (openPoint q (k + 1)) := by
  have hne : openPoint q k ≠ q.ptEnd := fun heq =>
    absurd ((openPoint_eq_end (Nat.le_of_lt hk)).1 heq) (Nat.ne_of_lt hk)
  have hin := openPoint_inRange hstart hend (k + 1)
  have hx := hin.x
  have hy := hin.y
  unfold openPoint at hx hy
  rw [moveNext_getDir_eq hne]
  unfold openPoint
  dsimp only
  rw [towards_succ, towards_succ, int32_of_isInt32 hx, int32_of_isInt32 hy]

end Range

/-! ## Open ground -/

/-- The start and the target lie on the map, not too far apart for the window or the steps, and
    nothing in the rectangle between them is blocked. -/
structure OpenGround (f : Point → Bool) (s : PathFinder) (q : Query) : Prop where
  start : s.OnMap q.ptStart
  target : s.OnMap q.ptEnd
  x : -256 ≤ q.ptEnd.x - q.ptStart.x ∧ q.ptEnd.x - q.ptStart.x ≤ 255
  y : -256 ≤ q.ptEnd.y - q.ptStart.y ∧ q.ptEnd.y - q.ptStart.y ≤ 255
  free : ∀ p : Point, min q.ptStart.x q.ptEnd.x ≤ p.x → p.x ≤ max q.ptStart.x q.ptEnd.x →
    min q.ptStart.y q.ptEnd.y ≤ p.y → p.y ≤ max q.ptStart.y q.ptEnd.y → ¬ Blocked f p
  steps : (reach q : Int) ≤ q.nMaxStep

/-- The ground stays open on the same map. -/
theorem SameMap.openGround (h : SameMap s s') (hopen : OpenGround f s q) : OpenGround f s' q :=
  { hopen with start := h.onMap hopen.start, target := h.onMap hopen.target }

/-- The tag of the tile after `k` steps. -/
def openTag (q : Query) (k : Nat) : Nat :=
  ((openPoint q k).y - q.ptStart.y + 256).toNat * 512 +
    ((openPoint q k).x - q.ptStart.x + 256).toNat

/-- The tiles of the walk are on the map, -/
theorem OpenGround.onMap (h : OpenGround f s q) (k : Nat) : s.OnMap (openPoint q k) := by
  obtain ⟨hx, hy⟩ := openPoint_between q k
  have hbetween : ∀ {a b c n : Int}, 0 ≤ a ∧ a < n → 0 ≤ b ∧ b < n →
      min a b ≤ c ∧ c ≤ max a b → 0 ≤ c ∧ c < n := by
    omega
  exact ⟨openPoint_inRange h.start.inRange h.target.inRange k,
    hbetween h.start.x h.target.x hx, hbetween h.start.y h.target.y hy⟩

/-- and no move between them is refused. -/
theorem OpenGround.not_refused (h : OpenGround f s q) (i j : Nat) :
    ¬ Refused f (openPoint q i) (openPoint q j) := by
  obtain ⟨hix, hiy⟩ := openPoint_between q i
  obtain ⟨hjx, hjy⟩ := openPoint_between q j
  rintro (hblocked | ⟨-, -, hblocked | hblocked⟩)
  · exact h.free _ hjx.1 hjx.2 hjy.1 hjy.2 hblocked
  · exact h.free ⟨(openPoint q j).x, (openPoint q i).y⟩ hjx.1 hjx.2 hiy.1 hiy.2 hblocked
  · exact h.free ⟨(openPoint q i).x, (openPoint q j).y⟩ hix.1 hix.2 hjy.1 hjy.2 hblocked

/-- The way stays inside the window. -/
theorem OpenGround.getTileTag (h : OpenGround f s q) (hmap : SameMap s s')
    (hstart : s'.ptStart = q.ptStart) (k : Nat) :
    s'.getTileTag (defaultParams dword) (openPoint q k) = some (openTag q k) := by
  have hon := h.onMap k
  -- the points of the walk lie between the ends, so no difference wraps
  obtain ⟨hbx, hby⟩ := openPoint_between q k
  have hx := h.x
  have hy := h.y
  have hmx := hon.x
  have hmy := hon.y
  have hdx : IsInt32 ((openPoint q k).x - q.ptStart.x) ∧
      IsInt32 ((openPoint q k).x - q.ptStart.x + (256 : Nat)) := by
    unfold IsInt32
    omega
  have hdy : IsInt32 ((openPoint q k).y - q.ptStart.y) ∧
      IsInt32 ((openPoint q k).y - q.ptStart.y + (256 : Nat)) := by
    unfold IsInt32
    omega
  unfold PathFinder.getTileTag
  rw [hmap.nMapWidth, hmap.nMapHeight, hstart, if_neg (by omega), if_neg (by omega)]
  -- the window reaches 256 tiles to each side
  have harea : (defaultParams dword).maxSearchArea = 512 := rfl
  have hhalf : (defaultParams dword).maxSearchArea / 2 = 256 := congrArg (· / 2) harea
  dsimp only
  rw [hhalf, harea, int32_of_isInt32 hdx.1, int32_of_isInt32 hdx.2, int32_of_isInt32 hdy.1,
    int32_of_isInt32 hdy.2, if_neg (by omega)]
  rfl

/-- They have different tags. -/
theorem OpenGround.openTag_inj (h : OpenGround f s q) {i j : Nat} (hi : i ≤ reach q)
    (hj : j ≤ reach q) (heq : openTag q i = openTag q j) : i = j := by
  have htag : ∀ k, { s with ptStart := q.ptStart }.getTileTag (defaultParams .four)
      (openPoint q k) = some (openTag q k) := h.getTileTag ⟨rfl, rfl, rfl⟩ rfl
  apply openPoint_inj hi hj
  exact getTileTag_inj (h.onMap i).inRange (h.onMap j).inRange (htag i)
    ((htag j).trans (congrArg some heq.symm))

/-! ## The walk -/

/-- The search `s₀` after `k` steps: the tags of the tiles passed hang from each other, those of
    the tiles ahead are untouched. -/
structure OpenWalk (q : Query) (s₀ : PathFinder) (k : Nat) (s : PathFinder) : Prop
    extends SameSearch s₀ s where
  steps : s.nStepCount = k
  carried : ∀ j ≤ k, s.Carries (openTag q j)
  ahead : ∀ j, k < j → j ≤ reach q → ¬ s.Carries (openTag q j)
  root : (s.tileTags (openTag q 0)).pParent = none
  parent : ∀ j < k, (s.tileTags (openTag q (j + 1))).pParent = some (openTag q j)
  nearest : 0 < k → s.pNearestTile = some (openTag q k)

/-- A step takes the next tag into the search and hangs it from the one before. -/
theorem OpenWalk.stepOnto {s₀ : PathFinder} (h : OpenWalk q s₀ k s) (hopen : OpenGround f s₀ q)
    (hk : k < reach q) (dir : Int) :
    OpenWalk q s₀ (k + 1)
      (s.counted.stepOnto (openTag q (k + 1)) dir (some (openTag q k)) 0) := by
  have hne : ∀ j ≤ k, openTag q j ≠ openTag q (k + 1) := fun j hj heq => by
    have hinj := hopen.openTag_inj (by omega) (by omega) heq
    omega
  have hfresh : ¬ s.counted.Carries (openTag q (k + 1)) := h.ahead (k + 1) (by omega) (by omega)
  have hext := stepOnto_extends s.counted (openTag q (k + 1)) 0 dir (some (openTag q k))
  constructor
  · exact h.toSameSearch.trans ((counted_sameTags s).toSameSearch.trans hext.toSameSearch)
  · exact congrArg (· + 1) h.steps
  · -- the tags passed, and the one stepped onto
    intro j hj
    rw [stepOnto_carries]
    by_cases hlast : j = k + 1
    · exact .inl (hlast ▸ rfl)
    · exact .inr (h.carried j (by omega))
  · -- the tags ahead are other ones
    intro j hj hjr
    rw [stepOnto_carries]
    rintro (heq | hold)
    · have hinj := hopen.openTag_inj hjr (by omega) heq
      omega
    · exact h.ahead j (by omega) hjr hold
  · rw [stepOnto_pParent, if_neg fun hcond => hne 0 (by omega) hcond.1]
    exact h.root
  · -- it hangs from the one before, its first parent
    intro j hj
    rw [stepOnto_pParent]
    by_cases hlast : j = k
    · subst hlast
      rw [if_pos ⟨rfl, hfresh⟩]
    · rw [if_neg fun hcond => hne (j + 1) (by omega) hcond.1]
      exact h.parent j (by omega)
  · exact fun _ => rfl

/-- One step of `Approach` over open ground. -/
theorem approachBody_open {s₀ : PathFinder} (h : OpenWalk q s₀ k s) (hopen : OpenGround f s₀ q)
    (hf : s₀.Pure f) (hstart : s₀.ptStart = q.ptStart) (hmax : s₀.nMaxStep = q.nMaxStep)
    (hk : k < reach q) :
    ∃ s', OpenWalk q s₀ (k + 1) s' ∧
      approachBody (defaultParams dword) q.ptEnd ⟨s, openPoint q k, some (openTag q k)⟩ =
        some (if k + 1 = reach q then .inr (true, s')
          else .inl ⟨s', openPoint q (k + 1), some (openTag q (k + 1))⟩) := by
  have hsame := h.toSameSearch.trans (counted_sameTags s).toSameSearch
  have hmap : SameMap s₀ s.counted := hsame.sameMap
  have hpure : s.counted.Pure f := hsame.blockFunc.trans hf
  have htag : s.counted.getTileTag (defaultParams dword) (openPoint q (k + 1)) =
      some (openTag q (k + 1)) := hopen.getTileTag hmap (hsame.ptStart.trans hstart) (k + 1)
  have hfresh : s.counted.isTileVisited (openTag q (k + 1))
      (getDir (openPoint q k) q.ptEnd) = false := by
    have hnot : ¬ s.counted.Carries (openTag q (k + 1)) := h.ahead (k + 1) (by omega) (by omega)
    unfold isTileVisited
    rw [beq_eq_false_iff_ne.2 hnot, Bool.false_and]
  have hrefuses := hopen.not_refused k (k + 1)
  -- the way is shorter than the budget
  have htime : s.counted.nStepCount ≤ s.counted.nMaxStep := by
    have hsteps := hopen.steps
    have hcount : s.counted.nStepCount = k + 1 := congrArg (· + 1) h.steps
    rw [hcount, hsame.nMaxStep, hmax]
    omega
  refine ⟨_, h.stepOnto hopen hk (getDir (openPoint q k) q.ptEnd), ?_⟩
  unfold approachBody
  dsimp only
  rw [if_pos htime, moveNext_openPoint hopen.start.inRange hopen.target.inRange hk]
  dsimp only [Option.bind_some, bind]
  rw [htag]
  dsimp only
  rw [if_neg (Bool.eq_false_iff.1 hfresh), isBevelBlock_eq hpure (hopen.onMap k).inRange
    (hopen.onMap (k + 1)).inRange, isBlock_eq hpure]
  dsimp only [Option.bind_some]
  rw [if_neg fun hcond => hrefuses (refused_iff.1 hcond)]
  by_cases hlast : k + 1 = reach q
  · rw [if_pos ((openPoint_eq_end hk).2 hlast), if_pos hlast]
  · rw [if_neg fun heq => hlast ((openPoint_eq_end hk).1 heq), if_neg hlast]

/-- Where `Approach` is after `k` steps. -/
structure OpenAt (q : Query) (s₀ : PathFinder) (k : Nat) (w : Walk) : Prop where
  tile : w.ptTile = openPoint q k
  parent : w.pParent = some (openTag q k)
  walk : OpenWalk q s₀ k w.finder

/-- `Approach` reaches the target. -/
theorem approach_open (dword : SizeT) {s₀ : PathFinder} (hopen : OpenGround f s₀ q) (hf : s₀.Pure f)
    (hne : q.ptStart ≠ q.ptEnd) (hstart : s₀.ptStart = q.ptStart) (hmax : s₀.nMaxStep = q.nMaxStep)
    (hzero : s₀.nStepCount = 0) (hnone : ∀ j, ¬ s₀.Carries (openTag q j)) :
    ∃ s', approach (defaultParams dword) s₀ q.ptStart q.ptEnd = some (true, s') ∧
      OpenWalk q s₀ (reach q) s' := by
  have htag : s₀.getTileTag (defaultParams dword) (openPoint q 0) = some (openTag q 0) :=
    hopen.getTileTag (.refl s₀) hstart 0
  rw [openPoint_zero] at htag
  have hpos : 0 < reach q := Nat.pos_of_ne_zero fun hreach =>
    hne ((openPoint_zero q).symm.trans ((openPoint_eq_end (Nat.zero_le _)).2 hreach.symm))
  -- the start is a root without marks
  have hroot := makeRoot_of_not_carries (hnone 0)
  have hext := (makeRoot_extends s₀ (openTag q 0)).toSameSearch
  have hcarries : ∀ i, (s₀.makeRoot (openTag q 0)).Carries i ↔ i = openTag q 0 ∨ s₀.Carries i := by
    intro i
    rw [hroot]
    exact modifyTag_carries rfl
  have hwalk : OpenWalk q s₀ 0 (s₀.makeRoot (openTag q 0)) := by
    constructor
    · exact hext
    · rw [hroot]
      exact hzero
    · intro j hj
      obtain rfl := Nat.le_zero.1 hj
      exact (hcarries _).2 (.inl rfl)
    · intro j hj hjr hc
      cases (hcarries _).1 hc with
      | inl heq =>
        have hinj := hopen.openTag_inj hjr (Nat.zero_le _) heq
        omega
      | inr hold => exact hnone j hold
    · rw [hroot, modifyTag_self]
    · exact fun j hj => absurd hj (Nat.not_lt_zero j)
    · exact fun h => absurd h (Nat.lt_irrefl 0)
  have hleft : reach q - 1 < (s₀.makeRoot (openTag q 0)).stepsLeft := by
    have hsteps := hopen.steps
    unfold stepsLeft
    rw [hwalk.steps, hext.nMaxStep, hmax]
    omega
  -- the step onto the target is the last one
  have hnext : ∀ (k : Nat) (w : Walk), k < reach q - 1 → OpenAt q s₀ k w →
      ∃ w', approachBody (defaultParams dword) q.ptEnd w = some (.inl w') ∧
        OpenAt q s₀ (k + 1) w' := by
    rintro k ⟨s, p, parent⟩ hk ⟨rfl, rfl, hs⟩
    obtain ⟨s', hs', hbody⟩ := approachBody_open hs hopen hf hstart hmax (by omega)
    rw [if_neg (by omega)] at hbody
    exact ⟨_, hbody, rfl, rfl, hs'⟩
  have hlast : ∀ w : Walk, OpenAt q s₀ (reach q - 1) w →
      ∃ r, approachBody (defaultParams dword) q.ptEnd w = some (.inr r) ∧
        (r.1 = true ∧ OpenWalk q s₀ (reach q) r.2) := by
    rintro ⟨s, p, parent⟩ ⟨rfl, rfl, hs⟩
    obtain ⟨s', hs', hbody⟩ := approachBody_open hs hopen hf hstart hmax (by omega)
    rw [if_pos (by omega)] at hbody
    rw [show reach q - 1 + 1 = reach q by omega] at hs'
    exact ⟨_, hbody, rfl, hs'⟩
  have hbegin : OpenAt q s₀ 0 ⟨s₀.makeRoot (openTag q 0), q.ptStart, some (openTag q 0)⟩ :=
    ⟨(openPoint_zero q).symm, rfl, hwalk⟩
  obtain ⟨⟨ret, s'⟩, hrun, rfl, hs'⟩ := Loop.run_stages hnext hlast hbegin (Nat.zero_le _)
    (show reach q - 1 < 0 + (s₀.makeRoot (openTag q 0)).stepsLeft by omega)
  refine ⟨s', ?_, hs'⟩
  unfold approach
  rw [if_neg hne, htag]
  dsimp only
  rw [hrun]
  rfl

/-- The search ends with its first call of `Approach`. -/
theorem findPathCore_open (dword : SizeT) (hopen : OpenGround f s q) (hf : s.Pure f)
    (hne : q.ptStart ≠ q.ptEnd)
    (hmax : s.nMaxStep = q.nMaxStep) (hunused : Unused (defaultParams dword) s) :
    ∃ s', findPathCore (defaultParams dword) s q.ptStart q.ptEnd = some (true, s') ∧
      OpenWalk q (coreStart (defaultParams dword) s q.ptStart q.ptEnd) (reach q) s' := by
  have hbegin : CoreBegins s (coreStart (defaultParams dword) s q.ptStart q.ptEnd) q.ptStart :=
    coreStart_begins s q.ptStart q.ptEnd
  have hmap := hbegin.sameMap
  have hopen' := hmap.openGround hopen
  -- the search begins with no step and no tile
  have hzero : (coreStart (defaultParams dword) s q.ptStart q.ptEnd).nStepCount = 0 := by
    unfold coreStart
    dsimp only
    split <;> rfl
  have hnone : ∀ j, ¬ (coreStart (defaultParams dword) s q.ptStart q.ptEnd).Carries (openTag q j) :=
    fun j => hbegin.not_carries hunused
      (getTileTag_lt (hopen'.getTileTag (.refl _) hbegin.ptStart j))
  -- the first `Approach` walks all the way
  obtain ⟨s', happroach, hs'⟩ := approach_open dword hopen'
    (hbegin.blockFunc.trans hf) hne hbegin.ptStart (hbegin.nMaxStep.trans hmax) hzero hnone
  refine ⟨s', ?_, hs'⟩
  unfold findPathCore
  dsimp only
  -- so the loop ends in its first turn
  have hbody : coreBody (defaultParams dword) q.ptEnd
      (q.ptStart, coreStart (defaultParams dword) s q.ptStart q.ptEnd) =
        some (.inr (true, s')) := by
    unfold coreBody
    dsimp only
    rw [happroach]
    rfl
  unfold stepsLeft
  rw [Loop.run_succ_of_inr hbody]
  rfl

/-! ## The path -/

/-- The tags of the way, from the target back. -/
def openTags (q : Query) : Nat → List Nat
  | 0 => []
  | k + 1 => openTag q k :: openTags q k

/-- As many tags as are asked for. -/
theorem length_openTags (q : Query) (k : Nat) : (openTags q k).length = k := by
  induction k with
  | zero => rfl
  | succ k ih => rw [openTags, List.length_cons, ih]

/-- The parents lead back along the walk. -/
theorem OpenWalk.trail {s₀ : PathFinder} (h : OpenWalk q s₀ (reach q) s) (hk : k ≤ reach q) :
    Trail (fun tag => (s.tileTags tag).pParent) (some (openTag q k)) (openTags q (k + 1)) := by
  induction k with
  | zero =>
    apply Trail.cons
    rw [h.root]
    exact .nil
  | succ k ih =>
    apply Trail.cons
    rw [h.parent k (by omega)]
    exact ih (by omega)

/-- Two steps on is too far for the shortcut. -/
theorem not_isNear_openPoint (hk : k + 2 ≤ reach q) :
    isNear (openPoint q (k + 2)) (openPoint q k) = false := by
  -- two steps lead two tiles away, in one coordinate at least
  have hfar := openPoint_far (Nat.le_add_right k 2) hk
  have hx := towards_near q.ptStart.x q.ptEnd.x k 2
  have hy := towards_near q.ptStart.y q.ptEnd.y k 2
  -- where being near allows one
  have habs : ∀ d : Int, d.natAbs ≤ 2 → abs (int32 d) ≤ 1 → d.natAbs ≤ 1 := by
    intro d hbound hle
    rw [int32_of_isInt32 (show IsInt32 d by unfold IsInt32; omega)] at hle
    unfold abs at hle
    rw [int32_of_isInt32 (show IsInt32 (-d) by unfold IsInt32; omega)] at hle
    split at hle <;> omega
  unfold openPoint at hfar ⊢
  unfold isNear
  dsimp only at hfar ⊢
  rw [Bool.and_eq_false_iff, decide_eq_false_iff_not, decide_eq_false_iff_not]
  by_contra hboth
  rw [not_or, not_not, not_not] at hboth
  have hdx := habs _ hx hboth.1
  have hdy := habs _ hy hboth.2
  omega

/-- The points from the `k`-th on. -/
def openRest (q : Query) (k : Nat) : List Point :=
  (List.range' k (reach q + 1 - k)).map (openPoint q)

/-- What is left of the walk after one more step. -/
theorem openRest_succ (hk : k ≤ reach q) : openRest q k = openPoint q k :: openRest q (k + 1) := by
  unfold openRest
  rw [show reach q + 1 - k = reach q + 1 - (k + 1) + 1 by omega, List.range'_succ, List.map_cons]

/-- At the start all of it is left. -/
theorem openRest_zero (q : Query) : openRest q 0 = openPath q := by
  unfold openRest openPath
  rw [Nat.sub_zero, List.range_eq_range']

/-- No point of the way is dropped. -/
theorem OpenWalk.traced (dword : SizeT) {s₀ : PathFinder} (h : OpenWalk q s₀ (reach q) s)
    (hopen : OpenGround f s₀ q) (hstart : s₀.ptStart = q.ptStart) (optmize : Bool)
    (hk : k ≤ reach q + 1) :
    traced (defaultParams dword) s optmize (openTags q k) (openRest q k) = openPath q := by
  induction k with
  | zero => exact openRest_zero q
  | succ k ih =>
    have hmap : SameMap s₀ s := h.toSameSearch.sameMap
    have hpoint : s.tileToPoint (defaultParams dword) (openTag q k) = openPoint q k :=
      tileToPoint_getTileTag (hopen.onMap k).inRange
        (hopen.getTileTag hmap (h.ptStart.trans hstart) k)
    rw [openTags, PathFinder.traced, hpoint]
    cases shortcut_cases optmize (openPoint q k) (openRest q (k + 1))
      (s.tileTags (openTag q k)).bAround with
    | inl hgrow =>
      rw [hgrow, ← openRest_succ (by omega)]
      exact ih (by omega)
    | inr hjoin =>
      -- the point next but one stands two steps on
      obtain ⟨p₁, p₂, rest, hrest, hnear, -, -⟩ := hjoin
      have hlen : (openRest q (k + 1)).length = reach q - k := by
        unfold openRest
        rw [List.length_map, List.length_range']
        omega
      rw [hrest, List.length_cons, List.length_cons] at hlen
      rw [openRest_succ (by omega), openRest_succ (by omega)] at hrest
      obtain ⟨-, htail⟩ := List.cons.inj hrest
      obtain ⟨rfl, -⟩ := List.cons.inj htail
      rw [not_isNear_openPoint (by omega)] at hnear
      exact absurd hnear Bool.false_ne_true

/-! ## FindPath -/

/-- The limit is the length of the walk and five. -/
theorem nPathLenLimit_open (hopen : OpenGround f s q) : q.nPathLenLimit = (reach q : Int) + 5 := by
  have hx := hopen.x
  have hy := hopen.y
  have habs : ∀ d : Int, -512 ≤ d → d ≤ 512 → abs (int32 d) = d.natAbs := by
    intro d hlow hhigh
    rw [int32_of_isInt32 (show IsInt32 d by unfold IsInt32; omega)]
    unfold abs
    rw [int32_of_isInt32 (show IsInt32 (-d) by unfold IsInt32; omega)]
    split <;> omega
  unfold Query.nPathLenLimit reach
  dsimp only
  rw [habs _ (by omega) (by omega), habs _ (by omega) (by omega), habs _ (by omega) (by omega),
    int32_of_isInt32]
  · omega
  · unfold IsInt32
    omega

/-- `BuildPath` stores the whole way. -/
theorem buildPath_open (dword : SizeT) {s₀ : PathFinder} (h : OpenWalk q s₀ (reach q) s)
    (hopen : OpenGround f s₀ q) (hstart : s₀.ptStart = q.ptStart) (hpos : 0 < reach q) :
    (s.buildPath (defaultParams dword) 0 true true).1 = reach q + 1 ∧
      (s.buildPath (defaultParams dword) 0 true true).2.pathPoints 0
        (pathOffset (defaultParams dword) true (s.buildPath (defaultParams dword) 0 true true).1)
        (s.buildPath (defaultParams dword) 0 true true).1 = openPath q := by
  have htrail := h.trail (Nat.le_refl _)
  rw [← h.nearest hpos] at htrail
  have hfit : (openTags q (reach q + 1)).length < (defaultParams dword).maxPathLen := by
    have hx := hopen.x
    have hy := hopen.y
    have hmax : (defaultParams dword).maxPathLen = 1024 := rfl
    rw [length_openTags, hmax]
    unfold reach
    omega
  -- no shortcut leaves a tile of the way out
  have htraced := h.traced dword hopen hstart true (Nat.le_refl _)
  have hnil : openRest q (reach q + 1) = [] := by
    unfold openRest
    rw [Nat.sub_self]
    rfl
  rw [hnil] at htraced
  have hlength : (openPath q).length = reach q + 1 := by
    unfold openPath
    rw [List.length_map, List.length_range]
  obtain ⟨buf, hbuild, -⟩ := buildInto_of_trail (defaultParams dword) (s.pathTemp 0) true true hfit
    htrail
  rw [htraced, hlength] at hbuild
  have hlen : (s.buildPath (defaultParams dword) 0 true true).1 = reach q + 1 :=
    congrArg Prod.fst hbuild
  have hne : 0 < (s.buildPath (defaultParams dword) 0 true true).1 := by omega
  obtain ⟨tags, htags, -, -, hpoints⟩ := buildPath_points hne
  rw [htags.unique htrail, htraced] at hpoints
  exact ⟨hlen, hpoints⟩

/-- Over open ground the path that is returned is the way to the target, after one search. -/
theorem findPath_open (dword : SizeT) (f : Point → Bool) (s : PathFinder) (q : Query)
    (hf : s.Pure f) (hunused : Unused (defaultParams dword) s) (hopen : OpenGround f s q)
    (hne : q.ptStart ≠ q.ptEnd) (honly : hasOption q.nOption optionOnlyAStar = false) :
    ∃ r, findPath (defaultParams dword) s q = some r ∧ r.ret = true ∧ r.path = openPath q ∧
      r.finder.nFind = (s.nFind + 1) % 65536 := by
  have hpos : 0 < reach q := Nat.pos_of_ne_zero fun hreach =>
    hne ((openPoint_zero q).symm.trans ((openPoint_eq_end (Nat.zero_le _)).2 hreach.symm))
  have hmap := beginSearch_sameMap s q
  obtain ⟨s', hcore, hs'⟩ := findPathCore_open dword (hmap.openGround hopen) hf hne rfl hunused
  generalize hs₀ : coreStart (defaultParams dword) (beginSearch s q).finder q.ptStart q.ptEnd = s₀
    at hs'
  have hbegin : CoreBegins (beginSearch s q).finder s₀ q.ptStart := hs₀ ▸ coreStart_begins _ _ _
  have hmap₀ : SameMap s s₀ := hmap.trans hbegin.sameMap
  obtain ⟨hlen, hpath⟩ := buildPath_open dword hs' (hmap₀.openGround hopen)
    hbegin.ptStart hpos
  have hlimit := nPathLenLimit_open hopen
  -- the search was too short for the corners to be connected
  have hoptimize : optimizeCorners (defaultParams dword) q s' q.ptStart = some s' := by
    apply if_neg
    rintro ⟨hlong, -⟩
    rw [hs'.steps, hlimit] at hlong
    omega
  have hsearch : forwardSearch (defaultParams dword) q (beginSearch s q).finder =
      some (true, s') := by
    unfold forwardSearch
    rw [hcore]
    dsimp only [Option.bind_some, bind]
    rw [if_pos rfl, hoptimize]
    rfl
  have hkeep : keepPath (defaultParams dword) q 0 true none s' =
      { finder := { (s'.buildPath (defaultParams dword) 0 true true).2 with nMaxStep := q.nMaxStep }
        best := some ⟨0, reach q + 1, pathOffset (defaultParams dword) true (reach q + 1)⟩
        bFindMore := false } := by
    have hfirst : 0 < reach q + 1 ∧ ∀ b ∈ (none : Option Shortest), reach q + 1 < b.nPathLen :=
      ⟨Nat.succ_pos _, fun b hb => nomatch hb⟩
    have hshort : decide (((reach q + 1 : Nat) : Int) > (reach q : Int) + 5) = false :=
      decide_eq_false (by omega)
    unfold keepPath
    dsimp only
    rw [hlen, if_pos hfirst, hlimit, hshort, Bool.false_and]
  have hstage : forwardStage (defaultParams dword) q 0 (beginSearch s q) = some
      { finder := { (s'.buildPath (defaultParams dword) 0 true true).2 with nMaxStep := q.nMaxStep }
        best := some ⟨0, reach q + 1, pathOffset (defaultParams dword) true (reach q + 1)⟩
        bFindMore := false } := by
    have hfirst : (beginSearch s q).bFindMore = true := rfl
    unfold forwardStage searchStage
    rw [if_pos hfirst, hsearch, ← hkeep]
    rfl
  refine ⟨⟨true, openPath q,
    { (s'.buildPath (defaultParams dword) 0 true true).2 with nMaxStep := q.nMaxStep }⟩, ?_, rfl,
    rfl, ?_⟩
  · rw [findPath_settled honly hstage rfl]
    dsimp only [finish]
    rw [hlen] at hpath
    simp only [Option.some.injEq, Found.mk.injEq, and_true]
    exact ⟨decide_eq_true (Nat.succ_pos _), hpath⟩
  · have hfind : (coreStart (defaultParams dword) (beginSearch s q).finder q.ptStart
        q.ptEnd).nFind = (s.nFind + 1) % 65536 := hs₀ ▸ hbegin.nFind
    exact hs'.nFind.trans (hs₀ ▸ hfind)

/-- Past a blocked tile that is not in the way. -/
theorem findPath_open_small : ∃ r, findPath (defaultParams .eight)
    ((new (defaultParams .eight)).setMapInfo 4 4 fun p => some (blockedAt [⟨0, 3⟩] p))
    ⟨⟨0, 0⟩, ⟨3, 1⟩, optionOptimize, 3⟩ = some r ∧ r.ret = true ∧
    r.path = [⟨0, 0⟩, ⟨1, 1⟩, ⟨2, 1⟩, ⟨3, 1⟩] := by
  have hfree : ∀ p : Point, min (0 : Int) 3 ≤ p.x → p.x ≤ max (0 : Int) 3 → min (0 : Int) 1 ≤ p.y →
      p.y ≤ max (0 : Int) 1 → ¬ Blocked (blockedAt [⟨0, 3⟩]) p := by
    rintro ⟨x, y⟩ hx hx' hy hy'
    dsimp only at hx hx' hy hy'
    have hxs : x = 0 ∨ x = 1 ∨ x = 2 ∨ x = 3 := by omega
    have hys : y = 0 ∨ y = 1 := by omega
    rcases hxs with rfl | rfl | rfl | rfl <;> rcases hys with rfl | rfl <;> decide
  obtain ⟨r, hrun, hret, hpath, -⟩ := findPath_open .eight (blockedAt [⟨0, 3⟩])
    ((new (defaultParams .eight)).setMapInfo 4 4 fun p => some (blockedAt [⟨0, 3⟩] p))
    ⟨⟨0, 0⟩, ⟨3, 1⟩, optionOptimize, 3⟩ rfl (fun _ _ h => nomatch h)
    ⟨⟨⟨by decide, by decide⟩, by decide, by decide⟩, ⟨⟨by decide, by decide⟩, by decide, by decide⟩,
      by decide, by decide, hfree, by decide⟩ (by decide) (by decide)
  exact ⟨r, hrun, hret, hpath.trans (by decide)⟩

end XGame3.PathFinder
