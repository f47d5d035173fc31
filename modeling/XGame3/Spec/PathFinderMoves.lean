import XGame3.Native.PathFinderTiles

/-!
# Legal moves of the path finder

What a path may do on a map, apart from any search: `LegalMove f p q` is a step from a
tile to one of its eight neighbours that is not blocked and cuts no corner.  The lemmas
below read the functions on tiles and tags in these terms, for a pure `IsBlock`.

Key results:
- `tileToPoint_getTileTag`: `TileToPoint` is the inverse of `GetTileTag`.
- `isBevelBlock_eq`: `IsBevelBlock` decides whether a move cuts a corner.
- `moveNext_neighbour`: `MoveNext` to a tile of the map leads to a neighbour.
- `turnDir_cardinal`: a detour only goes in the four straight directions.
-/

namespace XGame3

open FixedInt

/-! ## Tiles -/

/-- Both coordinates are `int`s. -/
structure Point.InRange (p : Point) : Prop where
  x : IsInt32 p.x
  y : IsInt32 p.y

/-- The eight tiles around a tile. -/
structure Neighbour (p q : Point) : Prop where
  ne : p ≠ q
  x_le : p.x ≤ q.x + 1
  le_x : q.x ≤ p.x + 1
  y_le : p.y ≤ q.y + 1
  le_y : q.y ≤ p.y + 1

instance (p q : Point) : Decidable (Neighbour p q) :=
  decidable_of_iff (p ≠ q ∧ p.x ≤ q.x + 1 ∧ q.x ≤ p.x + 1 ∧ p.y ≤ q.y + 1 ∧ q.y ≤ p.y + 1)
    ⟨fun ⟨hne, h1, h2, h3, h4⟩ => ⟨hne, h1, h2, h3, h4⟩,
      fun h => ⟨h.ne, h.x_le, h.le_x, h.y_le, h.le_y⟩⟩

/-- `IsBlock` at a tile. -/
def Blocked (f : Point → Bool) (p : Point) : Prop := f (p.mul PathFinder.wayUnit) = true

instance (f : Point → Bool) (p : Point) : Decidable (Blocked f p) :=
  inferInstanceAs (Decidable (_ = true))

/-- A diagonal move beside a blocked tile. -/
def CutsCorner (f : Point → Bool) (p q : Point) : Prop :=
  p.x ≠ q.x ∧ p.y ≠ q.y ∧ (Blocked f ⟨q.x, p.y⟩ ∨ Blocked f ⟨p.x, q.y⟩)

instance (f : Point → Bool) (p q : Point) : Decidable (CutsCorner f p q) :=
  inferInstanceAs (Decidable (_ ∧ _ ∧ _))

/-- Entering `q` from `p` is refused. -/
def Refused (f : Point → Bool) (p q : Point) : Prop := Blocked f q ∨ CutsCorner f p q

instance (f : Point → Bool) (p q : Point) : Decidable (Refused f p q) :=
  inferInstanceAs (Decidable (_ ∨ _))

/-- A step to a neighbour that is not refused. -/
structure LegalMove (f : Point → Bool) (p q : Point) : Prop where
  near : Neighbour p q
  free : ¬ Blocked f q
  corner : ¬ CutsCorner f p q

/-- A move to a neighbour that is not refused is legal. -/
theorem LegalMove.of_not_refused {f : Point → Bool} {p q : Point} (h : Neighbour p q)
    (hfree : ¬ Refused f p q) : LegalMove f p q where
  near := h
  free := fun hb => hfree (.inl hb)
  corner := fun hc => hfree (.inr hc)

/-- Neighbours are so for each other. -/
theorem Neighbour.symm {p q : Point} (h : Neighbour p q) : Neighbour q p :=
  ⟨h.ne.symm, h.le_x, h.x_le, h.le_y, h.y_le⟩

/-- A straight move cuts no corner. -/
theorem not_cutsCorner_of_straight {f : Point → Bool} {p q : Point} (h : p.x = q.x ∨ p.y = q.y) :
    ¬ CutsCorner f p q := by
  intro hc
  cases h with
  | inl hx => exact hc.1 hx
  | inr hy => exact hc.2.1 hy

/-- A move cuts the corners that the move back does. -/
theorem cutsCorner_comm {f : Point → Bool} {p q : Point} : CutsCorner f p q ↔ CutsCorner f q p := by
  unfold CutsCorner
  rw [ne_comm, @ne_comm _ p.y, or_comm]

namespace PathFinder

variable {t : Params} {s s' : PathFinder} {f : Point → Bool}

/-! ## Blocks -/

/-- `m_BlockFunc` is the pure predicate `f`. -/
def Pure (s : PathFinder) (f : Point → Bool) : Prop := s.blockFunc = fun p => some (f p)

/-- A pure `IsBlock` always answers. -/
theorem isBlock_eq (hf : s.Pure f) (p : Point) : s.isBlock p = some (decide (Blocked f p)) := by
  have hdec : decide (Blocked f p) = f (p.mul wayUnit) := Bool.decide_eq_true
  unfold isBlock
  rw [hf, hdec]

/-- A difference that wraps is zero for equal numbers only. -/
theorem int32_sub_eq_zero {a b : Int} (ha : IsInt32 a) (hb : IsInt32 b) :
    int32 (a - b) = 0 ↔ a = b := by
  have hmod := int32_emod (a - b)
  have hrange := isInt32_int32 (a - b)
  omega

/-! ## Directions -/

/-- `MoveNext` computes with `int`. -/
theorem moveNext_inRange {p q : Point} {dir : Int} (h : moveNext p dir = some q) : q.InRange := by
  unfold moveNext at h
  split at h
  · obtain ⟨d, _, rfl⟩ := Option.map_eq_some_iff.1 h
    exact ⟨isInt32_int32 _, isInt32_int32 _⟩
  · exact nomatch h

/-- The eight offsets. -/
theorem mem_dirNextTable {dir : Nat} {d : Int × Int} (h : dirNextTable[dir]? = some d) :
    dir < 8 ∧ (d.1 = -1 ∨ d.1 = 0 ∨ d.1 = 1) ∧ (d.2 = -1 ∨ d.2 = 0 ∨ d.2 = 1) ∧
      (d.1 ≠ 0 ∨ d.2 ≠ 0) ∧ (dir % 2 = 0 → d.1 = 0 ∨ d.2 = 0) := by
  obtain ⟨hlt, rfl⟩ := List.getElem?_eq_some_iff.1 h
  have hlen : dir < 8 := hlt
  have hall : ∀ i : Fin 8,
      (dirNextTable[i].1 = -1 ∨ dirNextTable[i].1 = 0 ∨ dirNextTable[i].1 = 1) ∧
      (dirNextTable[i].2 = -1 ∨ dirNextTable[i].2 = 0 ∨ dirNextTable[i].2 = 1) ∧
      (dirNextTable[i].1 ≠ 0 ∨ dirNextTable[i].2 ≠ 0) ∧
      (i.val % 2 = 0 → dirNextTable[i].1 = 0 ∨ dirNextTable[i].2 = 0) := by decide
  exact ⟨hlen, hall ⟨dir, hlen⟩⟩

/-- Between tiles of the map no coordinate wraps. -/
theorem moveNext_neighbour {p q : Point} {dir : Int} (h : moveNext p dir = some q)
    (hp : p.InRange) (hpx : 0 ≤ p.x) (hpy : 0 ≤ p.y) (hqx : 0 ≤ q.x) (hqy : 0 ≤ q.y) :
    Neighbour p q := by
  unfold moveNext at h
  split at h
  · obtain ⟨d, hd, rfl⟩ := Option.map_eq_some_iff.1 h
    obtain ⟨-, h1, h2, h0, -⟩ := mem_dirNextTable hd
    have hx := hp.x
    have hy := hp.y
    -- both points are on the map, so no coordinate wraps
    have ex : int32 (p.x + d.1) = p.x + d.1 := by
      have hmod := int32_emod (p.x + d.1)
      have hrange := isInt32_int32 (p.x + d.1)
      dsimp only at hqx
      omega
    have ey : int32 (p.y + d.2) = p.y + d.2 := by
      have hmod := int32_emod (p.y + d.2)
      have hrange := isInt32_int32 (p.y + d.2)
      dsimp only at hqy
      omega
    rw [ex, ey]
    constructor
    -- the offset is not zero in both
    · intro heq
      rw [Point.ext_iff] at heq
      dsimp only at heq
      omega
    all_goals dsimp only; omega
  · exact nomatch h

/-- There is a tile in each of the eight directions. -/
theorem moveNext_exists {p : Point} {dir : Nat} (h : dir < 8) :
    ∃ q, moveNext p (dir : Nat) = some q := by
  unfold moveNext
  rw [if_pos (Int.natCast_nonneg _), Int.toNat_natCast,
    List.getElem?_eq_getElem (show dir < dirNextTable.length from h)]
  exact ⟨_, rfl⟩

/-- Each neighbour lies in one of the eight directions. -/
theorem exists_moveNext {p q : Point} (h : Neighbour p q) (hq : q.InRange) :
    ∃ dir < 8, moveNext p (dir : Nat) = some q := by
  -- the table has every offset but none at all
  have hall : ∀ dx dy : Fin 3, dx ≠ 1 ∨ dy ≠ 1 →
      ∃ dir : Fin 8, dirNextTable[dir] = ((dx : Int) - 1, (dy : Int) - 1) := by decide
  have hx := h.x_le
  have hx' := h.le_x
  have hy := h.y_le
  have hy' := h.le_y
  have hne : q.x - p.x ≠ 0 ∨ q.y - p.y ≠ 0 := by
    by_contra hboth
    exact h.ne (Point.ext (by omega) (by omega))
  have hdx : (q.x - p.x + 1).toNat < 3 := by omega
  have hdy : (q.y - p.y + 1).toNat < 3 := by omega
  obtain ⟨dir, hdir⟩ := hall ⟨_, hdx⟩ ⟨_, hdy⟩ (by
    simp only [ne_eq, Fin.ext_iff]
    change ¬ (q.x - p.x + 1).toNat = 1 ∨ ¬ (q.y - p.y + 1).toNat = 1
    omega)
  have hget : dirNextTable[dir.val]? = some (q.x - p.x, q.y - p.y) := by
    rw [List.getElem?_eq_getElem dir.isLt]
    apply congrArg some
    apply hdir.trans
    rw [Prod.mk.injEq]
    dsimp only
    omega
  apply Exists.intro dir.val
  apply And.intro dir.isLt
  unfold moveNext
  rw [if_pos (Int.natCast_nonneg _), Int.toNat_natCast, hget, Option.map_some]
  dsimp only
  rw [show p.x + (q.x - p.x) = q.x by omega, show p.y + (q.y - p.y) = q.y by omega,
    int32_of_isInt32 hq.x, int32_of_isInt32 hq.y]

/-- A move in an even direction keeps a coordinate. -/
theorem moveNext_straight {p q : Point} {dir : Int} (h : moveNext p dir = some q) (hp : p.InRange)
    (hdir : dir % 2 = 0) : p.x = q.x ∨ p.y = q.y := by
  unfold moveNext at h
  split at h
  · obtain ⟨d, hd, rfl⟩ := Option.map_eq_some_iff.1 h
    obtain ⟨-, -, -, -, h0⟩ := mem_dirNextTable hd
    cases h0 (by omega) with
    | inl hx => left; rw [hx, Int.add_zero, int32_of_isInt32 hp.x]
    | inr hy => right; rw [hy, Int.add_zero, int32_of_isInt32 hp.y]
  · exact nomatch h

/-- A turn ends in a straight direction, from a diagonal one by 45 degrees and from a straight
    one by 90. -/
theorem turnDir_cardinal (dir : Int) (turn : Turn) : turnDir dir turn % 2 = 0 := by
  unfold turnDir
  cases turn <;> dsimp only <;> split <;> split <;> omega

/-- The way along one axis. -/
theorem sign_sub_cases (a b : Int) :
    b < a ∧ (b - a).sign = -1 ∨ b = a ∧ (b - a).sign = 0 ∨ a < b ∧ (b - a).sign = 1 := by
  rcases Int.lt_trichotomy b a with hlt | heq | hgt
  · exact .inl ⟨hlt, Int.sign_eq_neg_one_of_neg (by omega)⟩
  · rw [heq, Int.sub_self]
    exact .inr (.inl ⟨rfl, Int.sign_zero⟩)
  · exact .inr (.inr ⟨hgt, Int.sign_eq_one_of_pos (by omega)⟩)

/-- A step along one axis does not wrap. -/
theorem int32_toward {a b : Int} (ha : IsInt32 a) (hb : IsInt32 b) :
    int32 (a + (b - a).sign) = a + (b - a).sign := by
  rcases sign_sub_cases a b with h | h | h <;> exact int32_of_isInt32 (by omega)

/-- The place of a coordinate in `s_DirTable` is the way along its axis. -/
theorem dirIndex_cases (a b : Int) :
    dirIndex a b = 0 ∧ (b - a).sign = -1 ∨ dirIndex a b = 1 ∧ (b - a).sign = 0 ∧ b = a ∨
      dirIndex a b = 2 ∧ (b - a).sign = 1 := by
  unfold dirIndex
  rcases sign_sub_cases a b with ⟨hlt, hsign⟩ | ⟨heq, hsign⟩ | ⟨hgt, hsign⟩
  · rw [if_neg (show ¬ b > a by omega), if_neg (show ¬ b = a by omega)]
    exact .inl ⟨rfl, hsign⟩
  · rw [if_neg (show ¬ b > a by omega), if_pos heq]
    exact .inr (.inl ⟨rfl, hsign, heq⟩)
  · rw [if_pos hgt]
    exact .inr (.inr ⟨rfl, hsign⟩)

/-- `GetDir` between different tiles is the way to the tile that is nearer on each axis. -/
theorem moveNext_getDir_eq {p q : Point} (h : p ≠ q) :
    moveNext p (getDir p q) =
      some ⟨int32 (p.x + (q.x - p.x).sign), int32 (p.y + (q.y - p.y).sign)⟩ := by
  unfold getDir
  rcases dirIndex_cases p.x q.x with ⟨hx, hsign⟩ | ⟨hx, hsign, hcolumn⟩ | ⟨hx, hsign⟩
    <;> rw [hx, hsign]
  · -- to the west
    rcases dirIndex_cases p.y q.y with ⟨hy, hsign⟩ | ⟨hy, hsign, -⟩ | ⟨hy, hsign⟩
      <;> rw [hy, hsign] <;> rfl
  · -- in the column of `q`, where only the entry in the middle is no direction
    rcases dirIndex_cases p.y q.y with ⟨hy, hsign⟩ | ⟨-, -, hrow⟩ | ⟨hy, hsign⟩
    · rw [hy, hsign]
      rfl
    · exact absurd (Point.ext hcolumn.symm hrow.symm) h
    · rw [hy, hsign]
      rfl
  · -- to the east
    rcases dirIndex_cases p.y q.y with ⟨hy, hsign⟩ | ⟨hy, hsign, -⟩ | ⟨hy, hsign⟩
      <;> rw [hy, hsign] <;> rfl

/-- A turn stays among the eight directions. -/
theorem turnDir_range {dir : Int} (turn : Turn) (h0 : 0 ≤ dir) (h8 : dir < 8) :
    0 ≤ turnDir dir turn ∧ turnDir dir turn < 8 := by
  unfold turnDir
  cases turn <;> dsimp only <;> split <;> split <;> omega

/-! ## Tags -/

/-- What `GetTileTag` tells about a tile. -/
theorem getTileTag_inside {p : Point} {tag : Nat} (h : s.getTileTag t p = some tag) :
    (0 ≤ p.x ∧ p.x < s.nMapWidth) ∧ 0 ≤ p.y ∧ p.y < s.nMapHeight := by
  unfold getTileTag at h
  split at h
  · exact nomatch h
  · split at h
    · exact nomatch h
    · omega

/-- The tag of a tile is its place in the window. -/
theorem getTileTag_window {p : Point} {tag : Nat} (h : s.getTileTag t p = some tag) :
    ∃ x y : Nat, x < t.maxSearchArea ∧ y < t.maxSearchArea ∧ tag = y * t.maxSearchArea + x ∧
      int32 (int32 (p.x - s.ptStart.x) + (t.maxSearchArea / 2 : Nat)) = x ∧
      int32 (int32 (p.y - s.ptStart.y) + (t.maxSearchArea / 2 : Nat)) = y := by
  unfold getTileTag at h
  split at h
  · exact nomatch h
  · split at h
    · exact nomatch h
    · dsimp only at h
      split at h
      · exact nomatch h
      · rename_i hwin
        obtain rfl := Option.some.inj h
        generalize int32 (int32 (p.x - s.ptStart.x) + (t.maxSearchArea / 2 : Nat)) = x at hwin ⊢
        generalize int32 (int32 (p.y - s.ptStart.y) + (t.maxSearchArea / 2 : Nat)) = y at hwin ⊢
        exact ⟨x.toNat, y.toNat, by omega, by omega, rfl, by omega, by omega⟩

/-- A tag is inside the array. -/
theorem getTileTag_lt {p : Point} {tag : Nat} (h : s.getTileTag t p = some tag) :
    tag < t.maxSearchArea * t.maxSearchArea := by
  obtain ⟨x, y, hx, hy, rfl, -, -⟩ := getTileTag_window h
  calc y * t.maxSearchArea + x
      < y * t.maxSearchArea + t.maxSearchArea := by omega
    _ = (y + 1) * t.maxSearchArea := by rw [Nat.succ_mul]
    _ ≤ t.maxSearchArea * t.maxSearchArea := Nat.mul_le_mul_right _ hy

/-- Going to the window and back again. -/
theorem int32_window {a c h : Int} (ha : IsInt32 a) :
    int32 (int32 (c - h) + int32 (int32 (a - c) + h)) = a := by
  have h1 := int32_emod (a - c)
  have h2 := int32_emod (int32 (a - c) + h)
  have h3 := int32_emod (c - h)
  have h4 := int32_emod (int32 (c - h) + int32 (int32 (a - c) + h))
  have hrange := isInt32_int32 (int32 (c - h) + int32 (int32 (a - c) + h))
  omega

/-- `TileToPoint` is the inverse of `GetTileTag`. -/
theorem tileToPoint_getTileTag {p : Point} {tag : Nat} (hp : p.InRange)
    (h : s.getTileTag t p = some tag) : s.tileToPoint t tag = p := by
  obtain ⟨x, y, hx, hy, rfl, ex, ey⟩ := getTileTag_window h
  have hmod : (y * t.maxSearchArea + x) % t.maxSearchArea = x := by
    rw [Nat.mul_comm, Nat.mul_add_mod, Nat.mod_eq_of_lt hx]
  have hdiv : (y * t.maxSearchArea + x) / t.maxSearchArea = y := by
    rw [Nat.mul_comm, Nat.mul_add_div (by omega), Nat.div_eq_of_lt hx, Nat.add_zero]
  unfold tileToPoint
  rw [hmod, hdiv, ← ex, ← ey, int32_window hp.x, int32_window hp.y]

/-- The window is at most 46340 tiles wide. -/
theorem area_le (t : Params) : t.maxSearchArea ≤ 46340 := by
  by_contra hgt
  have hsq := Nat.mul_le_mul (Nat.lt_of_not_le hgt) (Nat.lt_of_not_le hgt)
  have harea := t.area_lt
  omega

/-- Two tiles of the window are less than its width apart. -/
theorem getTileTag_near {p q : Point} {i j : Nat} (hp : p.InRange) (hq : q.InRange)
    (hi : s.getTileTag t p = some i) (hj : s.getTileTag t q = some j) :
    (-46340 < p.x - q.x ∧ p.x - q.x < 46340) ∧ -46340 < p.y - q.y ∧ p.y - q.y < 46340 := by
  obtain ⟨x, y, hx, hy, -, ex, ey⟩ := getTileTag_window hi
  obtain ⟨x', y', hx', hy', -, ex', ey'⟩ := getTileTag_window hj
  obtain ⟨⟨hpx, -⟩, hpy, -⟩ := getTileTag_inside hi
  obtain ⟨⟨hqx, -⟩, hqy, -⟩ := getTileTag_inside hj
  have harea := area_le t
  have hpx' := hp.x
  have hpy' := hp.y
  have hqx' := hq.x
  have hqy' := hq.y
  have residue : ∀ a c h : Int,
      int32 (int32 (a - c) + h) % 4294967296 = (a - c + h) % 4294967296 := by
    intro a c h
    have h1 := int32_emod (a - c)
    have h2 := int32_emod (int32 (a - c) + h)
    omega
  -- the places in the window differ as the coordinates do, modulo `2 ^ 32`
  constructor
  · have h1 := residue p.x s.ptStart.x (t.maxSearchArea / 2 : Nat)
    have h2 := residue q.x s.ptStart.x (t.maxSearchArea / 2 : Nat)
    rw [ex] at h1
    rw [ex'] at h2
    omega
  · have h1 := residue p.y s.ptStart.y (t.maxSearchArea / 2 : Nat)
    have h2 := residue q.y s.ptStart.y (t.maxSearchArea / 2 : Nat)
    rw [ey] at h1
    rw [ey'] at h2
    omega

/-- Different tiles have different tags. -/
theorem getTileTag_inj {p q : Point} {tag : Nat} (hp : p.InRange) (hq : q.InRange)
    (h : s.getTileTag t p = some tag) (h' : s.getTileTag t q = some tag) : p = q :=
  (tileToPoint_getTileTag hp h).symm.trans (tileToPoint_getTileTag hq h')

/-! ## Questions about the map -/

/-- The tile lies on the map. -/
structure OnMap (s : PathFinder) (p : Point) : Prop where
  inRange : p.InRange
  x : 0 ≤ p.x ∧ p.x < s.nMapWidth
  y : 0 ≤ p.y ∧ p.y < s.nMapHeight

/-- Only tiles of the map have tags. -/
theorem onMap_of_getTileTag {p : Point} {tag : Nat} (hp : p.InRange)
    (h : s.getTileTag t p = some tag) : s.OnMap p :=
  ⟨hp, (getTileTag_inside h).1, (getTileTag_inside h).2⟩

/-- The point stands for a tile of a map of this size. -/
def MapPoint (nMapWidth nMapHeight : Nat) (p : Point) : Prop :=
  ∃ x < nMapWidth, ∃ y < nMapHeight, p = Point.mul ⟨(x : Nat), (y : Nat)⟩ wayUnit

instance (nMapWidth nMapHeight : Nat) (p : Point) : Decidable (MapPoint nMapWidth nMapHeight p) :=
  inferInstanceAs (Decidable (∃ _, _ ∧ _))

/-- `IsBlock` may be asked about the tile: about any, or about those whose points stand for a
    tile of the map. -/
def Askable (s : PathFinder) (anywhere : Prop) (p : Point) : Prop :=
  anywhere ∨ MapPoint s.nMapWidth s.nMapHeight (p.mul wayUnit)

/-- `m_BlockFunc` answers such questions with `f`. -/
def Answers (s : PathFinder) (f : Point → Bool) (anywhere : Prop) : Prop :=
  ∀ p, s.Askable anywhere p → s.isBlock p = some (decide (Blocked f p))

/-- A pure `IsBlock` answers everywhere. -/
theorem Pure.answers (hf : s.Pure f) : s.Answers f True := fun p _ => isBlock_eq hf p

variable {anywhere : Prop}

/-- The tiles beside a diagonal move. -/
theorem Askable.corner {p q : Point} (hp : s.Askable anywhere p) (hq : s.Askable anywhere q) :
    s.Askable anywhere ⟨q.x, p.y⟩ := by
  cases hp with
  | inl h => exact .inl h
  | inr hp =>
    cases hq with
    | inl h => exact .inl h
    | inr hq =>
      obtain ⟨_, _, y, hy, hpy⟩ := hp
      obtain ⟨x, hx, _, _, hqx⟩ := hq
      simp only [Point.mul, Point.mk.injEq] at hpy hqx
      refine .inr ⟨x, hx, y, hy, ?_⟩
      simp only [Point.mul, Point.mk.injEq]
      exact ⟨hqx.1, hpy.2⟩

/-- `IsBlock` answers about tiles of the map. -/
theorem OnMap.askable {p : Point} (h : s.OnMap p) : s.Askable anywhere p := by
  obtain ⟨hx, hx'⟩ := h.x
  obtain ⟨hy, hy'⟩ := h.y
  refine .inr ⟨p.x.toNat, by omega, p.y.toNat, by omega, ?_⟩
  rw [Int.toNat_of_nonneg hx, Int.toNat_of_nonneg hy]

/-- Between tiles that it answers about `IsBevelBlock` finds the corners that are cut. -/
theorem Answers.isBevelBlock (h : s.Answers f anywhere) {p q : Point} (hpin : p.InRange)
    (hqin : q.InRange) (hp : s.Askable anywhere p) (hq : s.Askable anywhere q) :
    s.isBevelBlock p q = some (decide (CutsCorner f p q)) := by
  unfold PathFinder.isBevelBlock
  rw [h _ (hp.corner hq), h _ (hq.corner hp)]
  simp only [eq_comm (a := (0 : Int)), int32_sub_eq_zero hpin.x hqin.x,
    int32_sub_eq_zero hpin.y hqin.y]
  unfold CutsCorner
  by_cases hx : p.x = q.x
  · simp [hx]
  · by_cases hy : p.y = q.y
    · simp [hy]
    · -- the second test is only made when the first tile is free
      by_cases hb : Blocked f ⟨q.x, p.y⟩ <;> simp [hx, hy, hb]

/-- So it does everywhere with a pure `IsBlock`. -/
theorem isBevelBlock_eq (hf : s.Pure f) {p q : Point} (hp : p.InRange) (hq : q.InRange) :
    s.isBevelBlock p q = some (decide (CutsCorner f p q)) :=
  hf.answers.isBevelBlock hp hq (.inl trivial) (.inl trivial)

/-- The same map. -/
structure SameMap (s s' : PathFinder) : Prop where
  nMapWidth : s'.nMapWidth = s.nMapWidth
  nMapHeight : s'.nMapHeight = s.nMapHeight
  blockFunc : s'.blockFunc = s.blockFunc

namespace SameMap

variable {s₁ : PathFinder}

/-- Nothing has changed. -/
theorem refl (s : PathFinder) : SameMap s s := ⟨rfl, rfl, rfl⟩

/-- One change after the other. -/
theorem trans (h : SameMap s s') (h' : SameMap s' s₁) : SameMap s s₁ :=
  ⟨h'.nMapWidth.trans h.nMapWidth, h'.nMapHeight.trans h.nMapHeight, h'.blockFunc.trans h.blockFunc⟩

/-- The other way round. -/
theorem symm (h : SameMap s s') : SameMap s' s :=
  ⟨h.nMapWidth.symm, h.nMapHeight.symm, h.blockFunc.symm⟩

/-- The tiles of the map are the same, -/
theorem onMap {p : Point} (h : SameMap s s') (hp : s.OnMap p) : s'.OnMap p := by
  refine ⟨hp.inRange, ?_, ?_⟩
  · rw [h.nMapWidth]
    exact hp.x
  · rw [h.nMapHeight]
    exact hp.y

/-- so are those that may be asked about -/
theorem askable {p : Point} (h : SameMap s s') (hp : s.Askable anywhere p) :
    s'.Askable anywhere p := by
  unfold Askable
  rw [h.nMapWidth, h.nMapHeight]
  exact hp

/-- and the answers. -/
theorem answers (h : SameMap s s') (hf : s.Answers f anywhere) : s'.Answers f anywhere := by
  intro p hp
  unfold isBlock
  rw [h.blockFunc]
  exact hf p (h.symm.askable hp)

end SameMap

/-- `IsBlock(ptNext)` and `IsBevelBlock(ptTile, ptNext)`, both of which are called. -/
def refuses (s : PathFinder) (ptTile ptNext : Point) : Option Bool := do
  let isBevel ← s.isBevelBlock ptTile ptNext
  let block ← s.isBlock ptNext
  some (block || isBevel)

/-- Between tiles that are answered about, a refusal is a block or a corner. -/
theorem Answers.refuses (h : s.Answers f anywhere) {p q : Point} (hpin : p.InRange)
    (hqin : q.InRange) (hp : s.Askable anywhere p) (hq : s.Askable anywhere q) :
    s.refuses p q = some (decide (Refused f p q)) := by
  unfold PathFinder.refuses
  rw [h.isBevelBlock hpin hqin hp hq, h q hq]
  exact congrArg some (Bool.decide_or _ _).symm

/-! ## Small maps -/

/-- A path finder with a window of eight tiles. -/
def smallParams : Params where
  maxPathLen := 16
  maxSearchArea := 8
  dword := .eight
  pathLen_lt := by decide
  area_lt := by decide

/-- `IsBlock` of a list of blocked tiles. -/
def blockedAt (tiles : List Point) (p : Point) : Bool :=
  tiles.contains ⟨p.x / wayUnit, p.y / wayUnit⟩

/-- A new path finder on a map of four by four tiles. -/
def smallMap (tiles : List Point) : PathFinder :=
  (new smallParams).setMapInfo 4 4 fun p => some (blockedAt tiles p)

/-- A small map answers for its list of tiles. -/
theorem smallMap_pure (tiles : List Point) : (smallMap tiles).Pure (blockedAt tiles) := rfl

end PathFinder

end XGame3
