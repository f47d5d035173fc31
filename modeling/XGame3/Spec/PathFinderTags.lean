import XGame3.Spec.AStarLinks
import XGame3.Spec.PathFinderForest

/-!
# Tags and tiles

`GetTileTag` takes a tile of the map to its place in the window around `m_ptStart`, row by row, and
`TileToPoint` recovers row and column by division.  Both compute modulo `2 ^ 32`, so that what wraps
on the way to the window wraps back on the way out of it, wherever the window lies.

Key results:
- `getTileTag_tileToPoint`: a tag whose tile is on the map is the tag of that tile
- `OneSearch.ptStart_eq`: the window stays where it is during a search
- `tileTags_inverse`: the two functions are inverse to each other, and no two tiles have the same
  tag in one search
-/

namespace XGame3.PathFinder

open FixedInt

variable {t : Params} {s s₁ s₂ : PathFinder} {ptStart ptEnd : Point}

/-! ## From a tag to its tile and back -/

/-- Out of the window and back again. -/
theorem int32_window_back {c h m : Int} (hm : IsInt32 m) :
    int32 (int32 (int32 (int32 (c - h) + m) - c) + h) = m := by
  have h1 := int32_emod (c - h)
  have h2 := int32_emod (int32 (c - h) + m)
  have h3 := int32_emod (int32 (int32 (c - h) + m) - c)
  have h4 := int32_emod (int32 (int32 (int32 (c - h) + m) - c) + h)
  have hrange := isInt32_int32 (int32 (int32 (int32 (c - h) + m) - c) + h)
  omega

/-- Rows and columns of the window are `int`s. -/
theorem isInt32_of_area {n : Nat} (h : n < t.maxSearchArea) : IsInt32 (n : Nat) := by
  have harea := area_le t
  omega

/-- A tag whose tile is on the map is the tag of that tile. -/
theorem getTileTag_tileToPoint {tag : Nat} (htag : tag < t.maxSearchArea * t.maxSearchArea)
    (hmap : s.OnMap (s.tileToPoint t tag)) :
    s.getTileTag t (s.tileToPoint t tag) = some tag := by
  have hpos : 0 < t.maxSearchArea := by
    by_contra hzero
    simp [Nat.eq_zero_of_not_pos hzero] at htag
  -- row and column of the tag, both less than the width of the window
  have hcol : tag % t.maxSearchArea < t.maxSearchArea := Nat.mod_lt _ hpos
  have hrow : tag / t.maxSearchArea < t.maxSearchArea := Nat.div_lt_of_lt_mul htag
  have hplace : tag / t.maxSearchArea * t.maxSearchArea + tag % t.maxSearchArea = tag :=
    Nat.div_add_mod' _ _
  have hx : int32 (int32 ((s.tileToPoint t tag).x - s.ptStart.x) + (t.maxSearchArea / 2 : Nat)) =
      (tag % t.maxSearchArea : Nat) := int32_window_back (isInt32_of_area hcol)
  have hy : int32 (int32 ((s.tileToPoint t tag).y - s.ptStart.y) + (t.maxSearchArea / 2 : Nat)) =
      (tag / t.maxSearchArea : Nat) := int32_window_back (isInt32_of_area hrow)
  have hmapx := hmap.x
  have hmapy := hmap.y
  generalize tag % t.maxSearchArea = col at *
  generalize tag / t.maxSearchArea = row at *
  unfold getTileTag
  rw [if_neg (by omega), if_neg (by omega)]
  dsimp only
  rw [hx, hy, if_neg (by omega), Int.toNat_natCast, Int.toNat_natCast, hplace]

/-- Tags of different tiles are different wherever the window is the same. -/
theorem getTileTag_inj_of_ptStart (hsame : s₁.ptStart = s₂.ptStart) {p q : Point} {tag : Nat}
    (hp : p.InRange) (hq : q.InRange) (h : s₁.getTileTag t p = some tag)
    (h' : s₂.getTileTag t q = some tag) : p = q := by
  have hpoint : s₁.tileToPoint t tag = s₂.tileToPoint t tag := by
    unfold tileToPoint
    rw [hsame]
  calc p = s₁.tileToPoint t tag := (tileToPoint_getTileTag hp h).symm
    _ = s₂.tileToPoint t tag := hpoint
    _ = q := tileToPoint_getTileTag hq h'

/-! ## One search -/

/-- The states of one search from `ptStart`, by `FindPathCore` or by `FindAStar`. -/
inductive OneSearch (t : Params) (s : PathFinder) (ptStart ptEnd : Point) : PathFinder → Prop
  | core {c : CorePoint} : CoreReach t s ptStart ptEnd c → OneSearch t s ptStart ptEnd c.finder
  | aStar {a : AStar} : AStarReached t s ptStart ptEnd a → OneSearch t s ptStart ptEnd a.finder
  | found {r : Bool × PathFinder} : findAStar t s ptStart ptEnd = some r →
      OneSearch t s ptStart ptEnd r.2

/-- A* takes its start as the finder's, -/
theorem aStarStart_ptStart (s : PathFinder) (ptStart ptEnd : Point) :
    (aStarStart t s ptStart ptEnd).finder.ptStart = ptStart := by
  unfold aStarStart
  dsimp only
  split <;> rfl

/-- A turn of `FindAStar` leaves the window where it is. -/
theorem AStarStep.ptStart_eq {a a' : AStar} (h : AStarStep t ptEnd a (.inl a')) :
    a'.finder.ptStart = a.finder.ptStart := by
  cases h with
  | skip _ _ => rfl
  | expanded _ _ _ he =>
    exact expand_observe PathFinder.ptStart (fun _ _ _ => rfl) (fun _ _ => rfl) he

/-- and keeps it. -/
theorem AStarReached.ptStart_eq {a : AStar} (h : AStarReached t s ptStart ptEnd a) :
    a.finder.ptStart = ptStart := by
  obtain ⟨n, hrun⟩ := h
  apply Loop.run_inl (I := fun a : AStar => a.finder.ptStart = ptStart) _
    (aStarStart_ptStart s ptStart ptEnd) hrun
  intro a a' ha hbody
  exact (aStarBody_step hbody).ptStart_eq.trans ha

/-- The window lies around the start during the whole search. -/
theorem OneSearch.ptStart_eq (h : OneSearch t s ptStart ptEnd s₁) : s₁.ptStart = ptStart := by
  cases h with
  | core hreach =>
    -- no transition assigns to `m_ptStart`
    have hbegin : CoreBegins s (coreStart t s ptStart ptEnd) ptStart :=
      coreStart_begins s ptStart ptEnd
    exact (extends_of_steps hreach).ptStart.trans hbegin.ptStart
  | aStar hreached => exact hreached.ptStart_eq
  | found hfound =>
    obtain ⟨a, hreached, hsame, -⟩ := findAStar_last hfound
    exact hsame.ptStart.trans hreached.ptStart_eq

/-- `TileToPoint` takes the tag of a tile back to the tile, `GetTileTag` takes the tile of a tag
    back to the tag if it is on the map, and two tiles that have the same tag in one search are one
    tile. -/
theorem tileTags_inverse (t : Params) (s : PathFinder) :
    (∀ (p : Point) (tag : Nat), p.InRange → s.getTileTag t p = some tag →
      s.tileToPoint t tag = p) ∧
    (∀ tag < t.maxSearchArea * t.maxSearchArea, s.OnMap (s.tileToPoint t tag) →
      s.getTileTag t (s.tileToPoint t tag) = some tag) ∧
    ∀ (ptStart ptEnd : Point) (s₁ s₂ : PathFinder), OneSearch t s ptStart ptEnd s₁ →
      OneSearch t s ptStart ptEnd s₂ → ∀ (p q : Point) (tag : Nat), p.InRange → q.InRange →
        s₁.getTileTag t p = some tag → s₂.getTileTag t q = some tag → p = q := by
  refine ⟨fun p tag => tileToPoint_getTileTag, fun tag => getTileTag_tileToPoint, ?_⟩
  intro ptStart ptEnd s₁ s₂ h₁ h₂ p q tag hp hq
  exact getTileTag_inj_of_ptStart (h₁.ptStart_eq.trans h₂.ptStart_eq.symm) hp hq

/-- On a small map the last tile of the third row has tag `55` in a search from the first one. -/
theorem tileTags_inverse_small :
    (smallMap []).tileToPoint smallParams 55 = ⟨3, 2⟩ ∧
      (smallMap []).getTileTag smallParams ((smallMap []).tileToPoint smallParams 55) = some 55 ∧
      (⟨3, 2⟩ : Point) =
        (coreStart smallParams (smallMap []) ⟨0, 0⟩ ⟨3, 0⟩).tileToPoint smallParams 55 := by
  obtain ⟨hpoint, htag, hsearch⟩ := tileTags_inverse smallParams (smallMap [])
  have hbegin : OneSearch smallParams (smallMap []) ⟨0, 0⟩ ⟨3, 0⟩
      (coreStart smallParams (smallMap []) ⟨0, 0⟩ ⟨3, 0⟩) := .core .refl
  refine ⟨?_, ?_, ?_⟩
  · exact hpoint ⟨3, 2⟩ 55 ⟨by decide, by decide⟩ (by decide)
  · exact htag 55 (by decide) ⟨⟨by decide, by decide⟩, by decide, by decide⟩
  · exact hsearch ⟨0, 0⟩ ⟨3, 0⟩ _ _ hbegin hbegin _ _ 55 ⟨by decide, by decide⟩
      ⟨by decide, by decide⟩ (by decide) (by decide)

end XGame3.PathFinder
