import XGame3.Spec.PathFinderWalk

/-!
# Path finders that cannot be told apart

Tags are never cleared, so two path finders that begin the same search may hold different
tags from before.  `Alike` says what they have in common while they do the same: all that
is not kept in the tags, the tags that carry the number of the search, and the `bAround`
of the tags that a path can run through.

Key results:
- `Alike.modify`: the same assignment to one tag on both sides.
- `Alike.stepOnto`, `Alike.mark`, `Alike.makeRoot`: what the searches do to tags.
-/

namespace XGame3.PathFinder

variable {t : Params} {s s' : PathFinder} {W W' : Nat → Prop}

/-- A path finder without its tags, queue and buffers. -/
def seen (s : PathFinder) : PathFinder :=
  { s with
    tileTags := fun _ => ⟨none, 0, 0, 0⟩
    pathTemp := fun _ _ => ⟨0, 0⟩
    nFind := 0
    aroundQueue := []
    corners := fun _ => ⟨0, 0⟩
    nCornerFlag := fun _ => 0 }

/-- The tag every search begins at. -/
def centralTag (t : Params) : Nat :=
  t.maxSearchArea / 2 * t.maxSearchArea + t.maxSearchArea / 2

/-- The tag is in the window. -/
def InWindow (t : Params) (tag : Nat) : Prop := tag < t.maxSearchArea * t.maxSearchArea

/-- Two path finders in the same search.  `W` are tags with the same `bAround`; it contains the
    parents of all that was touched. -/
structure Alike (t : Params) (W : Nat → Prop) (s s' : PathFinder) : Prop where
  seen : s'.seen = s.seen
  carries : ∀ i, InWindow t i → (s'.Carries i ↔ s.Carries i)
  tag : ∀ i, InWindow t i → s.Carries i →
    (s'.tileTags i).pParent = (s.tileTags i).pParent ∧
      (s'.tileTags i).nMoveDir = (s.tileTags i).nMoveDir
  around : ∀ i, W i → (s'.tileTags i).bAround = (s.tileTags i).bAround
  parent : ∀ i, InWindow t i → s.Carries i → ∀ j, (s.tileTags i).pParent = some j →
    W j ∧ s.Carries j
  placed : ∀ i, W i → s.Carries i → s.getTileTag t (s.tileToPoint t i) = some i

/-- The tile a search stands on, or turns around: its tag may become a parent. -/
def Footing (t : Params) (W : Nat → Prop) (s : PathFinder) (p : Point) : Prop :=
  ∀ i, s.getTileTag t p = some i → W i ∧ s.Carries i

/-- `m_pNearestTile` may become a parent. -/
def NearestKnown (W : Nat → Prop) (s : PathFinder) : Prop :=
  ∀ i, s.pNearestTile = some i → W i ∧ s.Carries i

namespace Alike

/-! ## What both see -/

/-- What does not depend on the tags and buffers is the same on both sides. -/
theorem observe (h : Alike t W s s') {α : Type} (g : PathFinder → α)
    (hs : ∀ r : PathFinder, g r.seen = g r) : g s' = g s :=
  calc g s' = g s'.seen := (hs s').symm
    _ = g s.seen := congrArg g h.seen
    _ = g s := hs s

/-- Both have counted the same steps, -/
theorem nStepCount (h : Alike t W s s') : s'.nStepCount = s.nStepCount :=
  h.observe PathFinder.nStepCount fun _ => rfl

/-- with the same limit, -/
theorem nMaxStep (h : Alike t W s s') : s'.nMaxStep = s.nMaxStep :=
  h.observe PathFinder.nMaxStep fun _ => rfl

/-- the same options -/
theorem nSearchOption (h : Alike t W s s') : s'.nSearchOption = s.nSearchOption :=
  h.observe PathFinder.nSearchOption fun _ => rfl

/-- and the same nearest tile. -/
theorem pNearestTile (h : Alike t W s s') : s'.pNearestTile = s.pNearestTile :=
  h.observe PathFinder.pNearestTile fun _ => rfl

/-- A tile has the same tag, -/
theorem getTileTag (h : Alike t W s s') (p : Point) : s'.getTileTag t p = s.getTileTag t p :=
  h.observe (fun r => PathFinder.getTileTag t r p) fun _ => rfl

/-- and a tag the same tile. -/
theorem tileToPoint (h : Alike t W s s') (tag : Nat) : s'.tileToPoint t tag = s.tileToPoint t tag :=
  h.observe (fun r => PathFinder.tileToPoint t r tag) fun _ => rfl

/-- Both ask the same map, -/
theorem isBlock (h : Alike t W s s') (p : Point) : s'.isBlock p = s.isBlock p :=
  h.observe (fun r => PathFinder.isBlock r p) fun _ => rfl

/-- also about a diagonal move. -/
theorem isBevelBlock (h : Alike t W s s') (p q : Point) :
    s'.isBevelBlock p q = s.isBevelBlock p q :=
  h.observe (fun r => PathFinder.isBevelBlock r p q) fun _ => rfl

/-- The loops have the same number of turns left. -/
theorem stepsLeft (h : Alike t W s s') : s'.stepsLeft = s.stepsLeft :=
  h.observe PathFinder.stepsLeft fun _ => rfl

/-- A tag of the window is marked on both sides or on neither. -/
theorem isTileVisited (h : Alike t W s s') {i : Nat} (hi : InWindow t i) (dir : Int) :
    s'.isTileVisited i dir = s.isTileVisited i dir := by
  have hc := h.carries i hi
  unfold Carries at hc
  unfold PathFinder.isTileVisited
  by_cases hs : (s.tileTags i).nFindID = s.nFind
  -- the directions agree on tags of the search, the others count as not visited on both sides
  · rw [hs, hc.2 hs, (h.tag i hi hs).2, beq_self_eq_true, beq_self_eq_true]
  · rw [beq_eq_false_iff_ne.2 hs, beq_eq_false_iff_ne.2 fun hs' => hs (hc.1 hs'), Bool.false_and,
      Bool.false_and]

/-- `IsCanApproach` looks at the map and at tags of the window. -/
theorem isCanApproach (h : Alike t W s s') (p q : Point) :
    s'.isCanApproach t p q = s.isCanApproach t p q := by
  unfold PathFinder.isCanApproach
  congr 1
  funext ptNext
  rw [h.isBevelBlock, h.isBlock, h.getTileTag]
  match htag : s.getTileTag t ptNext with
  | none => rfl
  | some i =>
    have hfind : ((s'.tileTags i).nFindID != s'.nFind) = ((s.tileTags i).nFindID != s.nFind) := by
      have hc := h.carries i (getTileTag_lt htag)
      unfold Carries at hc
      rw [Bool.eq_iff_iff, bne_iff_ne, bne_iff_ne, ne_eq, ne_eq, hc]
    dsimp only
    rw [hfind]

/-! ## What is not kept in the tags -/

/-- A step is counted on both sides. -/
theorem counted (h : Alike t W s s') : Alike t W s.counted s'.counted :=
  ⟨h.observe (fun r => r.counted.seen) fun _ => rfl, h.carries, h.tag, h.around, h.parent,
    h.placed⟩

/-- A detour is added on both sides. -/
theorem pushAround (h : Alike t W s s') (p : Point) (dir : Int) :
    Alike t W (s.pushAround p dir) (s'.pushAround p dir) :=
  ⟨h.seen, h.carries, h.tag, h.around, h.parent, h.placed⟩

/-- A detour is taken on both sides. -/
theorem setQueue (h : Alike t W s s') (queue : List AroundPoint) :
    Alike t W { s with aroundQueue := queue } { s' with aroundQueue := queue } :=
  ⟨h.seen, h.carries, h.tag, h.around, h.parent, h.placed⟩

/-- The nearest tile is set on both sides. -/
theorem setNearest (h : Alike t W s s') (nearest : Option Nat) :
    Alike t W { s with pNearestTile := nearest } { s' with pNearestTile := nearest } :=
  ⟨h.observe (fun r => { r.seen with pNearestTile := nearest }) fun _ => rfl, h.carries, h.tag,
    h.around, h.parent, h.placed⟩

/-- The corners are recorded on both sides. -/
theorem recordCorner (h : Alike t W s s') (p : Point) :
    Alike t W (s.recordCorner t p) (s'.recordCorner t p) := by
  have hseen : ∀ r : PathFinder, (r.recordCorner t p).seen = r.seen := fun r =>
    recordCorner_reads PathFinder.seen (fun _ _ _ => rfl) r p
  have hsame := recordCorner_sameTags (t := t) s p
  have hsame' := recordCorner_sameTags (t := t) s' p
  constructor
  · rw [hseen, hseen, h.seen]
  · exact fun i hi => hsame'.carries.trans ((h.carries i hi).trans hsame.carries.symm)
  -- a corner changes no tag, so what the tags say stays
  · rw [hsame.tileTags, hsame'.tileTags]
    exact fun i hi hc => h.tag i hi (hsame.carries.1 hc)
  · rw [hsame.tileTags, hsame'.tileTags]
    exact h.around
  · rw [hsame.tileTags]
    exact fun i hi hc j hj =>
      (h.parent i hi (hsame.carries.1 hc) j hj).imp_right hsame.carries.2
  · intro i hi hc
    rw [hsame.toSameSearch.tileToPoint, hsame.toSameSearch.getTileTag]
    exact h.placed i hi (hsame.carries.1 hc)

/-! ## Tags -/

/-- Both sides take a tag into the search and leave it with the same direction and parent. -/
theorem modify (h : Alike t W s s') {i : Nat} {g g' : TileTag → TileTag}
    (hfind : (g (s.tileTags i)).nFindID = s.nFind)
    (hfind' : (g' (s'.tileTags i)).nFindID = s'.nFind)
    (hparent : (g' (s'.tileTags i)).pParent = (g (s.tileTags i)).pParent)
    (hdir : (g' (s'.tileTags i)).nMoveDir = (g (s.tileTags i)).nMoveDir)
    (hknown : ∀ j, (g (s.tileTags i)).pParent = some j → W j ∧ s.Carries j)
    (hsub : ∀ j, W j → W' j) (hadd : ∀ j, W' j → W j ∨ j = i)
    (haround : W' i → (g' (s'.tileTags i)).bAround = (g (s.tileTags i)).bAround)
    (hplaced : s.getTileTag t (s.tileToPoint t i) = some i) :
    Alike t W' (s.modifyTag i g) (s'.modifyTag i g') := by
  have hcarries : ∀ j, (s.modifyTag i g).Carries j ↔ j = i ∨ s.Carries j := fun _ =>
    modifyTag_carries hfind
  constructor
  · exact h.seen
  · intro j hj
    rw [hcarries, modifyTag_carries hfind', h.carries j hj]
  · -- the tag itself, then the others
    intro j hj hc
    rw [modifyTag_tileTags, modifyTag_tileTags]
    split
    · exact ⟨hparent, hdir⟩
    · rename_i hne
      exact h.tag j hj (((hcarries j).1 hc).resolve_left hne)
  · intro j hj
    rw [modifyTag_tileTags, modifyTag_tileTags]
    split
    · rename_i heq
      exact haround (heq ▸ hj)
    · rename_i hne
      exact h.around j ((hadd j hj).resolve_right hne)
  · -- parents stay known, as no tag leaves the search
    intro j hj hc k hk
    rw [hcarries]
    rw [modifyTag_tileTags] at hk
    split at hk
    · exact ⟨hsub k (hknown k hk).1, .inr (hknown k hk).2⟩
    · rename_i hne
      have hold := h.parent j hj (((hcarries j).1 hc).resolve_left hne) k hk
      exact ⟨hsub k hold.1, .inr hold.2⟩
  · -- only the tag itself may be new to `W'`
    intro j hj hc
    by_cases heq : j = i
    · subst heq
      exact hplaced
    · exact h.placed j ((hadd j hj).resolve_right heq) (((hcarries j).1 hc).resolve_left heq)

/-- Both sides give a tag the same parent, whether it was touched or not. -/
theorem setParent (h : Alike t W s s') (i : Nat) {parent : Option Nat}
    (hknown : ∀ j, parent = some j → W j ∧ s.Carries j) :
    Alike t W (s.modifyTag i fun old => { old with pParent := parent })
      (s'.modifyTag i fun old => { old with pParent := parent }) := by
  have hids : ∀ (r : PathFinder) (j : Nat),
      (r.modifyTag i fun old => { old with pParent := parent }).Carries j ↔ r.Carries j := by
    intro r j
    unfold Carries
    rw [setParent_nFindID]
    rfl
  constructor
  · exact h.seen
  · intro j hj
    rw [hids, hids, h.carries j hj]
  -- the tags agree: only the parent was written
  · intro j hj hc
    have hold := h.tag j hj ((hids s j).1 hc)
    rw [modifyTag_tileTags, modifyTag_tileTags]
    split
    · rename_i heq
      exact ⟨rfl, heq ▸ hold.2⟩
    · exact hold
  -- so do the detour marks
  · intro j hj
    rw [modifyTag_tileTags, modifyTag_tileTags]
    split
    · rename_i heq
      exact heq ▸ h.around j hj
    · exact h.around j hj
  -- the new parent is one both know
  · intro j hj hc k hk
    rw [hids]
    rw [modifyTag_tileTags] at hk
    split at hk
    · exact hknown k hk
    · exact h.parent j hj ((hids s j).1 hc) k hk
  · exact fun j hj hc => h.placed j hj ((hids s j).1 hc)

/-- `MarkTileVisited` with a parent that is known on both sides. -/
theorem mark (h : Alike t W s s') {i : Nat} (dir : Int) {parent : Option Nat} (hi : InWindow t i)
    (hplaced : s.getTileTag t (s.tileToPoint t i) = some i)
    (hparent : ∀ j, parent = some j → W j ∧ s.Carries j) :
    Alike t W (s.markTileVisited i dir parent) (s'.markTileVisited i dir parent) := by
  have hc := h.carries i hi
  unfold PathFinder.markTileVisited
  unfold Carries at hc
  by_cases hs : (s.tileTags i).nFindID = s.nFind
  · -- visited before: only the direction is added
    have hs' := hc.2 hs
    obtain ⟨hpar, hdir⟩ := h.tag i hi hs
    apply h.modify _ _ _ _ _ (fun _ hj => hj) (fun _ hj => .inl hj) _ hplaced
    · rw [if_neg (not_not_intro hs)]
      exact hs
    · rw [if_neg (not_not_intro hs')]
      exact hs'
    · rw [if_neg (not_not_intro hs), if_neg (not_not_intro hs')]
      exact hpar
    · rw [if_neg (not_not_intro hs), if_neg (not_not_intro hs')]
      exact congrArg (· ||| 1 <<< dir.toNat) hdir
    · rw [if_neg (not_not_intro hs)]
      exact h.parent i hi hs
    · rw [if_neg (not_not_intro hs), if_neg (not_not_intro hs')]
      exact h.around i
  · -- new to both searches: what was left in the tag is overwritten
    have hs' : (s'.tileTags i).nFindID ≠ s'.nFind := fun hs' => hs (hc.1 hs')
    apply h.modify _ _ _ _ _ (fun _ hj => hj) (fun _ hj => .inl hj) _ hplaced
    · rw [if_pos hs]
    · rw [if_pos hs']
    · rw [if_pos hs, if_pos hs']
    · rw [if_pos hs, if_pos hs']
    · rw [if_pos hs]
      exact hparent
    · rw [if_pos hs, if_pos hs']
      exact h.around i

/-- `bAround` is assigned to a tag of the search. -/
theorem setAround (h : Alike t W s s') {i : Nat} (hi : InWindow t i) (hc : s.Carries i)
    (hplaced : s.getTileTag t (s.tileToPoint t i) = some i) (bAround : Nat) :
    Alike t (fun j => W j ∨ j = i) (s.modifyTag i fun old => { old with bAround := bAround })
      (s'.modifyTag i fun old => { old with bAround := bAround }) := by
  apply h.modify _ _ _ _ _ (fun _ hj => .inl hj) (fun _ hj => hj) (fun _ => rfl) hplaced
  · exact hc
  · exact (h.carries i hi).2 hc
  · exact (h.tag i hi hc).1
  · exact (h.tag i hi hc).2
  · exact h.parent i hi hc

/-- Both step onto a tile, whose tag is known from then on. -/
theorem stepOnto (h : Alike t W s s') {i : Nat} {dir : Int} {parent : Option Nat}
    (hi : InWindow t i) (hplaced : s.getTileTag t (s.tileToPoint t i) = some i)
    (hparent : ∀ j, parent = some j → W j ∧ s.Carries j) (bAround : Nat) :
    Alike t (fun j => W j ∨ j = i) (s.stepOnto i dir parent bAround)
      (s'.stepOnto i dir parent bAround) :=
  ((h.mark dir hi hplaced hparent).setAround hi (markTileVisited_carries.2 (.inl rfl)) hplaced
    bAround).setNearest (some i)

/-- A root is made of a tag with the same `bAround`. -/
theorem makeRoot (h : Alike t W s s') {i : Nat} (hi : InWindow t i) (hW : W i)
    (hplaced : s.getTileTag t (s.tileToPoint t i) = some i) :
    Alike t W (s.makeRoot i) (s'.makeRoot i) := by
  by_cases hc : s.Carries i
  · -- a tag of the search is left alone, on both sides
    rw [makeRoot_of_carries hc, makeRoot_of_carries ((h.carries i hi).2 hc)]
    exact h
  · rw [makeRoot_of_not_carries hc, makeRoot_of_not_carries fun hc' => hc ((h.carries i hi).1 hc')]
    exact h.modify rfl rfl rfl rfl (fun _ hj => nomatch hj) (fun _ hj => hj) (fun _ hj => .inl hj)
      (fun _ => h.around i hW) hplaced

end Alike

/-! ## What may become a parent -/

/-- A footing stays one as more tags are known. -/
theorem Footing.mono {p : Point} (h : Footing t W s p) (hW : ∀ i, W i → W' i)
    (hsame : SameSearch s s') (hc : ∀ i, s.Carries i → s'.Carries i) : Footing t W' s' p := by
  intro i hi
  have hold := h i ((hsame.getTileTag p).symm.trans hi)
  exact ⟨hW i hold.1, hc i hold.2⟩

end XGame3.PathFinder
