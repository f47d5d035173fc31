import XGame3.Spec.PathFinderLockstep
import XGame3.Spec.PathFinderStages

/-!
# Searches that do not depend on earlier ones

After a search the corners are connected, the start is linked and the path is built.  None
of it looks at what an earlier search has left in the tags, except for the `bAround` of the
tag every search begins at.

Key results:
- `Joining.connectCorners`, `Together.linkStart`: what happens to the parents after a search
-/

namespace XGame3.PathFinder

open FixedInt Loop

variable {t : Params} {s s' s₀ s₀' s₁ s₁' : PathFinder} {W W' : Nat → Prop} {ptEnd : Point}

/-! ## Between a search and its path -/

/-- The nearest tile, which need not be touched, and its parent. -/
def TipKnown (t : Params) (W : Nat → Prop) (s s' : PathFinder) : Prop :=
  ∀ i, s.pNearestTile = some i → InWindow t i ∧
    (s'.tileTags i).pParent = (s.tileTags i).pParent ∧
    ∀ j, (s.tileTags i).pParent = some j → W j ∧ s.Carries j

/-- Two path finders between a search and the path that is built from it. -/
structure Joining (t : Params) (s₀ s₀' : PathFinder) (W : Nat → Prop) (s s' : PathFinder) : Prop
    where
  alike : Alike t W s s'
  central : InWindow t (centralTag t) → W (centralTag t)
  ids : SameIds s₀ s
  ids' : SameIds s₀' s'
  corners : CornersKnown t W s s'
  tip : TipKnown t W s s'

/-- A search that has begun on both sides. -/
theorem Together.joining (h : Together t s₀ s₀' W s s') : Joining t s₀ s₀' W s s' where
  alike := h.alike
  central := h.central
  ids := h.ids
  ids' := h.ids'
  corners := h.corners
  tip := fun i hi => by
    have hnear := h.nearest i hi
    have hin : InWindow t i := getTileTag_lt (h.alike.placed i hnear.1 hnear.2)
    exact ⟨hin, (h.alike.tag i hin hnear.2).1, h.alike.parent i hin hnear.2⟩

/-- A change that leaves the parents of untouched tags alone. -/
structure Retouched (s s' : PathFinder) : Prop extends Kept s s' where
  carries : ∀ i, s.Carries i → s'.Carries i
  untouched : ∀ i, ¬ s'.Carries i → (s'.tileTags i).pParent = (s.tileTags i).pParent

namespace Retouched

/-- Nothing has changed. -/
theorem refl (s : PathFinder) : Retouched s s := ⟨.refl s, fun _ hc => hc, fun _ _ => rfl⟩

/-- One change after the other. -/
theorem trans {s'' : PathFinder} (h : Retouched s s') (h' : Retouched s' s'') :
    Retouched s s'' where
  toKept := h.toKept.trans h'.toKept
  carries := fun i hi => h'.carries i (h.carries i hi)
  untouched := fun i hi =>
    (h'.untouched i hi).trans (h.untouched i fun hc => hi (h'.carries i hc))

/-- A step is counted. -/
theorem counted (s : PathFinder) : Retouched s s.counted :=
    ⟨.counted s, fun _ hc => hc, fun _ _ => rfl⟩

/-- A tag that keeps its marks. -/
theorem modifyTag {tag : Nat} {g : TileTag → TileTag}
    (hg : (g (s.tileTags tag)).nFindID = s.nFind) :
    Retouched s (s.modifyTag tag g) where
  toKept := .modifyTag hg
  carries := fun _ hi => (modifyTag_carries hg).2 (.inr hi)
  untouched := fun i hi => by
    rw [modifyTag_carries hg, not_or] at hi
    rw [modifyTag_tileTags, if_neg hi.1]

/-- A mark is added. -/
theorem markTileVisited (s : PathFinder) (tag : Nat) (dir : Int) (parent : Option Nat) :
    Retouched s (s.markTileVisited tag dir parent) := by
  apply modifyTag
  split
  · rfl
  · rename_i hc
    exact not_not.1 hc

/-- The first tile of a line. -/
theorem makeRoot (s : PathFinder) (tag : Nat) : Retouched s (s.makeRoot tag) := by
  unfold PathFinder.makeRoot
  split
  · exact modifyTag rfl
  · exact refl s

end Retouched

namespace Joining

/-- A change of both sides. -/
theorem next (h : Joining t s₀ s₀' W s s') (ha : Alike t W' s₁ s₁') (hW : ∀ i, W i → W' i)
    (hre : Retouched s s₁) (hre' : Retouched s' s₁') : Joining t s₀ s₀' W' s₁ s₁' where
  alike := ha
  central := fun hin => hW _ (h.central hin)
  ids := h.ids.trans hre.toSameIds
  ids' := h.ids'.trans hre'.toSameIds
  corners := h.corners.next hW hre.toSameSearch hre.carries ⟨hre.corners, hre.flags⟩
    ⟨hre'.corners, hre'.flags⟩
  tip := fun i hi => by
    obtain ⟨hin, hsame, hknown⟩ := h.tip i (hre.pNearestTile ▸ hi)
    apply And.intro hin
    by_cases hc : s₁.Carries i
    · exact ⟨(ha.tag i hin hc).1, ha.parent i hin hc⟩
    · have hc' : ¬ s₁'.Carries i := fun hc' => hc ((ha.carries i hin).1 hc')
      rw [hre.untouched i hc, hre'.untouched i hc']
      exact ⟨hsame, fun j hj => ⟨hW j (hknown j hj).1, hre.carries j (hknown j hj).2⟩⟩

/-- A step is counted on both sides. -/
theorem counted (h : Joining t s₀ s₀' W s s') : Joining t s₀ s₀' W s.counted s'.counted :=
  h.next h.alike.counted (fun _ hi => hi) (.counted s) (.counted s')

/-- The first thing `ConnectDirect` does with a tag. -/
theorem reparent (h : Joining t s₀ s₀' W s s') {i : Nat} (hi : InWindow t i) {parent : Option Nat}
    (hparent : ∀ j, parent = some j → W j ∧ s.Carries j) :
    let s₁ := if (s.tileTags i).nFindID = s.nFind then
      s.modifyTag i fun old => { old with pParent := parent } else s
    let s₁' := if (s'.tileTags i).nFindID = s'.nFind then
      s'.modifyTag i fun old => { old with pParent := parent } else s'
    Joining t s₀ s₀' W s₁ s₁' ∧ Retouched s s₁ := by
  dsimp only
  -- the tile belongs to both searches or to neither
  have hiff := h.alike.carries i hi
  unfold Carries at hiff
  by_cases hc : (s.tileTags i).nFindID = s.nFind
  · have hc' := hiff.2 hc
    rw [if_pos hc, if_pos hc']
    have hre : Retouched s (s.modifyTag i fun old => { old with pParent := parent }) :=
      .modifyTag hc
    exact ⟨h.next (h.alike.setParent i hparent) (fun _ hj => hj) hre (.modifyTag hc'), hre⟩
  · rw [if_neg hc, if_neg fun hc' => hc (hiff.1 hc')]
    exact ⟨h, .refl s⟩

/-- The last thing `ConnectDirect` does with a tag. -/
theorem markConnected (h : Joining t s₀ s₀' W s s') {i : Nat} {p : Point} (dir : Int)
    {parent : Option Nat} (hp : p.InRange) (hi : s.getTileTag t p = some i)
    (hparent : ∀ j, parent = some j → W j ∧ s.Carries j) :
    let s₁ := (s.markTileVisited i dir parent).modifyTag i fun old => { old with bAround := 0 }
    let s₁' := (s'.markTileVisited i dir parent).modifyTag i fun old => { old with bAround := 0 }
    Joining t s₀ s₀' (fun j => W j ∨ j = i) s₁ s₁' ∧ s₁.Carries i := by
  dsimp only
  have hplaced := (Placed.of_tag hp hi).tag
  -- the mark makes it one of the search in both
  have hc : ∀ r : PathFinder, (r.markTileVisited i dir parent).Carries i := fun _ =>
    markTileVisited_carries.2 (.inl rfl)
  have hmark := h.alike.mark dir (getTileTag_lt hi) hplaced hparent
  have hre : ∀ r : PathFinder, Retouched r
      ((r.markTileVisited i dir parent).modifyTag i fun old => { old with bAround := 0 }) :=
    fun r => (Retouched.markTileVisited r i dir parent).trans (.modifyTag (hc r))
  constructor
  · exact h.next (hmark.setAround (getTileTag_lt hi) (hc s) hplaced 0) (fun _ hj => .inl hj) (hre s)
      (hre s')
  · apply (modifyTag_carries _).2 (.inl rfl)
    exact hc s

end Joining

/-! ## Connecting the corners -/

/-- Two lines of `ConnectDirect` that stand on the same tile. -/
structure LineTogether (t : Params) (s₀ s₀' : PathFinder) (W : Nat → Prop) (w w' : Walk) :
    Prop where
  finder : Joining t s₀ s₀' W w.finder w'.finder
  tile : w'.ptTile = w.ptTile
  pParent : w'.pParent = w.pParent
  parent : ∀ j, w.pParent = some j → W j ∧ w.finder.Carries j

/-- The same result, from lines in lockstep. -/
def SameLine (t : Params) (s₀ s₀' : PathFinder) (r r' : Bool × PathFinder) : Prop :=
  r'.1 = r.1 ∧ ∃ W, Joining t s₀ s₀' W r.2 r'.2

/-- One iteration of `ConnectDirect` on both sides. -/
theorem connectBody_together {w w' : Walk} (h : LineTogether t s₀ s₀' W w w') :
    Option.Rel (Sum.LiftRel (fun v v' => ∃ W, LineTogether t s₀ s₀' W v v') (SameLine t s₀ s₀'))
      (connectBody t ptEnd w) (connectBody t ptEnd w') := by
  have hcount := h.finder.counted
  have hparent : ∀ j, w.pParent = some j → W j ∧ w.finder.counted.Carries j := h.parent
  have hstop : Option.Rel (Sum.LiftRel (fun v v' => ∃ W, LineTogether t s₀ s₀' W v v')
      (SameLine t s₀ s₀')) (some (.inr (false, w.finder.counted)))
      (some (.inr (false, w'.finder.counted))) := .some (.inr ⟨rfl, W, hcount⟩)
  unfold connectBody
  dsimp only
  rw [h.tile, h.pParent, hcount.alike.nStepCount, hcount.alike.nMaxStep]
  split
  · apply rel_bind_same
    intro ptNext hmove
    rw [hcount.alike.getTileTag]
    match htag : w.finder.counted.getTileTag t ptNext with
    | none => exact hstop
    | some i =>
      dsimp only
      have hin : ptNext.InRange := moveNext_inRange hmove
      have hfirst := hcount.reparent (getTileTag_lt htag) hparent
      dsimp only at hfirst
      -- the parent is changed before the tile is tested, in the same way on both sides
      generalize (if (w.finder.counted.tileTags i).nFindID = w.finder.counted.nFind then
        w.finder.counted.modifyTag i fun old => { old with pParent := w.pParent }
        else w.finder.counted) = s₁ at hfirst ⊢
      generalize (if (w'.finder.counted.tileTags i).nFindID = w'.finder.counted.nFind then
        w'.finder.counted.modifyTag i fun old => { old with pParent := w.pParent }
        else w'.finder.counted) = s₁' at hfirst ⊢
      obtain ⟨hjoin, hre⟩ := hfirst
      have htag₁ : s₁.getTileTag t ptNext = some i := (hre.toSameSearch.getTileTag _).trans htag
      have hparent₁ : ∀ j, w.pParent = some j → W j ∧ s₁.Carries j := fun j hj =>
        (hparent j hj).imp_right (hre.carries j)
      rw [hjoin.alike.isBevelBlock, hjoin.alike.isBlock]
      apply rel_bind_same
      intro bNextBlock _
      apply rel_bind_same
      intro block _
      split
      · exact .some (.inr ⟨rfl, W, hjoin⟩)
      · -- the tile is connected to the one before
        obtain ⟨hmark, hcarries⟩ :=
          hjoin.markConnected (getDir w.ptTile ptEnd) hin htag₁ hparent₁
        split
        · exact .some (.inr ⟨rfl, _, hmark⟩)
        · refine .some (.inl ⟨_, hmark, rfl, rfl, ?_⟩)
          intro j hj
          obtain rfl := Option.some.inj hj
          exact ⟨.inr rfl, hcarries⟩
  · exact hstop

namespace Joining

/-- A line begins on both sides. -/
theorem makeRoot (h : Joining t s₀ s₀' W s s') {i : Nat} (hi : InWindow t i) (hW : W i)
    (hplaced : s.getTileTag t (s.tileToPoint t i) = some i) :
    Joining t s₀ s₀' W (s.makeRoot i) (s'.makeRoot i) :=
  h.next (h.alike.makeRoot hi hW hplaced) (fun _ hj => hj) (.makeRoot s i) (.makeRoot s' i)

/-- `ConnectDirect` from a tile with the same `bAround`. -/
theorem connectDirect (h : Joining t s₀ s₀' W s s') {p : Point}
    (hp : ∀ i, s.getTileTag t p = some i → W i ∧ s.getTileTag t (s.tileToPoint t i) = some i) :
    Option.Rel (SameLine t s₀ s₀') (PathFinder.connectDirect t s p ptEnd)
      (PathFinder.connectDirect t s' p ptEnd) := by
  unfold PathFinder.connectDirect
  split
  · exact .some ⟨rfl, W, h⟩
  · rw [h.alike.getTileTag]
    match htag : s.getTileTag t p with
    | none => exact .some ⟨rfl, W, h⟩
    | some i =>
      obtain ⟨hW, hplaced⟩ := hp i htag
      -- both lines start from the same root
      have hroot := h.makeRoot (getTileTag_lt htag) hW hplaced
      have hknown : ∀ j, some i = some j → W j ∧ (s.makeRoot i).Carries j := by
        intro j hj
        obtain rfl := Option.some.inj hj
        exact ⟨hW, makeRoot_carries s i⟩
      dsimp only
      rw [hroot.alike.stepsLeft]
      -- and stay together turn by turn
      apply rel_loopResult (R := fun v v' => ∃ W, LineTogether t s₀ s₀' W v v')
      apply run_rel _ ⟨W, hroot, rfl, rfl, hknown⟩
      exact fun _ _ ⟨_, hw⟩ => connectBody_together hw

/-- The corners are visited in the same order. -/
theorem nextCorner (h : Joining t s₀ s₀' W s s')
    (hopt : hasOption s.nSearchOption optionOptimize = true) (dwVisited : Nat) :
    s'.nextCorner dwVisited = s.nextCorner dwVisited := by
  unfold PathFinder.nextCorner
  rw [(h.corners hopt).1.flags]

/-- The lines between the corners on both sides. -/
theorem connectFrom {left dwVisited : Nat} {p : Point} (h : Joining t s₀ s₀' W s s')
    (hopt : hasOption s.nSearchOption optionOptimize = true)
    (hp : ∀ i, s.getTileTag t p = some i → W i ∧ s.getTileTag t (s.tileToPoint t i) = some i) :
    Option.Rel (fun r r' => ∃ W, Joining t s₀ s₀' W r r')
      (PathFinder.connectFrom t left s p dwVisited)
        (PathFinder.connectFrom t left s' p dwVisited) := by
  induction left generalizing s s' W p dwVisited with
  | zero => exact .none
  | succ left ih =>
    unfold PathFinder.connectFrom
    rw [h.nextCorner hopt]
    rcases hcorner : s.nextCorner dwVisited with ⟨_ | index, dwMinCorner⟩
    · -- no corner is left
      exact .some ⟨W, h⟩
    · dsimp only
      rw [(h.corners hopt).1.corners]
      apply rel_bind (rel_returned (h.connectDirect hp))
      rintro ⟨ret, r⟩ ⟨ret', r'⟩ ⟨hr, -, rfl, W₁, h₁⟩
      have hkept := connectDirect_kept hr
      dsimp only at h₁ hkept ⊢
      have hopt₁ : hasOption r.nSearchOption optionOptimize = true := hkept.nSearchOption ▸ hopt
      apply ih h₁ hopt₁
      -- the line ends at a corner, a tile of the search
      intro i hi
      have hcorner' : r.nCornerFlag index < invalidCornerFlag :=
        hkept.flags ▸ nextCorner_recorded hcorner
      have hknown := (h₁.corners hopt₁).2 index hcorner' i (hkept.corners ▸ hi)
      exact ⟨hknown.1, h₁.alike.placed i hknown.1 hknown.2⟩

/-- `ConnectCorners` from the tile the search began at. -/
theorem connectCorners (h : Joining t s₀ s₀' W s s')
    (hopt : hasOption s.nSearchOption optionOptimize = true) {p : Point} (hp : p.InRange)
    (hstart : s.ptStart = p) :
    Option.Rel (fun r r' => ∃ W, Joining t s₀ s₀' W r r') (PathFinder.connectCorners t s p)
      (PathFinder.connectCorners t s' p) := by
  apply h.connectFrom hopt
  intro i hi
  have hcentral := getTileTag_start hstart hi
  exact ⟨hcentral ▸ h.central (hcentral ▸ getTileTag_lt hi), (Placed.of_tag hp hi).tag⟩

/-- The corners are connected on both sides or on neither. -/
theorem optimizeCorners (h : Joining t s₀ s₀' W s s') {q : Query}
    (hopt : hasOption s.nSearchOption optionOptimize = hasOption q.nOption optionOptimize)
    {p : Point} (hp : p.InRange) (hstart : s.ptStart = p) :
    Option.Rel (fun r r' => ∃ W, Joining t s₀ s₀' W r r') (PathFinder.optimizeCorners t q s p)
      (PathFinder.optimizeCorners t q s' p) := by
  unfold PathFinder.optimizeCorners
  rw [h.alike.nStepCount]
  split
  · rename_i hcond
    exact h.connectCorners (hopt.trans hcond.2) hp hstart
  · exact .some ⟨W, h⟩

end Joining

/-- The start is put in front of a reversed search, on both sides. -/
theorem Together.linkStart (h : Together t s₀ s₀' W s s') (p : Point) :
    Option.Rel (fun r r' => ∃ W, Joining t s₀ s₀' W r r') (PathFinder.linkStart t s p)
      (PathFinder.linkStart t s' p) := by
  unfold PathFinder.linkStart
  rw [h.alike.pNearestTile]
  match hnear : s.pNearestTile with
  | none => exact .some ⟨W, h.joining⟩
  | some nearest =>
    dsimp only
    rw [h.alike.getTileTag]
    split
    · exact .some ⟨W, h.joining⟩
    · -- the start need not be a tile of the search, so its tag may keep an old number
      apply rel_bind_same
      intro i hi
      have hknown : ∀ j, some nearest = some j → W j ∧ s.Carries j := by
        intro j hj
        obtain rfl := Option.some.inj hj
        exact h.nearest _ hnear
      have hids : ∀ r : PathFinder, SameIds r
          { r.modifyTag i fun old => { old with pParent := some nearest } with
            pNearestTile := some i } := fun r =>
        ⟨⟨rfl, rfl, rfl, rfl, rfl, rfl, rfl, rfl, rfl⟩, fun j => .inl (setParent_nFindID r i j _)⟩
      have hcarries : ∀ j, s.Carries j →
          (s.modifyTag i fun old => { old with pParent := some nearest }).Carries j := fun j hj =>
        (setParent_nFindID s i j _).trans hj
      refine .some ⟨W, ?_⟩
      constructor
      · exact (h.alike.setParent i hknown).setNearest (some i)
      · exact h.central
      · exact h.ids.trans (hids s)
      · exact h.ids'.trans (hids s')
      · exact h.corners.next (fun _ hj => hj) (hids s).toSameSearch hcarries ⟨rfl, rfl⟩ ⟨rfl, rfl⟩
      · intro j hj
        obtain rfl := Option.some.inj hj
        apply And.intro (getTileTag_lt hi)
        dsimp only
        rw [modifyTag_tileTags, modifyTag_tileTags, if_pos rfl, if_pos rfl]
        exact ⟨rfl, fun k hk => (hknown k hk).imp_right (hcarries k)⟩

/-! ## Building the path -/

/-- A tile that `BuildPath` may come to as the `n`-th. -/
structure TileKnown (W : Nat → Prop) (s s' : PathFinder) (n tag : Nat) : Prop where
  pParent : (s'.tileTags tag).pParent = (s.tileTags tag).pParent
  parent : ∀ j, (s.tileTags tag).pParent = some j → W j ∧ s.Carries j
  around : 2 ≤ n → (s'.tileTags tag).bAround = (s.tileTags tag).bAround

/-- A tag of the search is known on both sides. -/
theorem Alike.tileKnown (h : Alike t W s s') {i n : Nat} (hW : W i) (hc : s.Carries i) :
    TileKnown W s s' n i := by
  have hin : InWindow t i := getTileTag_lt (h.placed i hW hc)
  exact ⟨(h.tag i hin hc).1, h.parent i hin hc, fun _ => h.around i hW⟩

/-- The loop of `BuildPath` reads the buffer only where it has written. -/
theorem Alike.buildLoop (h : Alike t W s s') (nBufSize left : Nat) (nReverse optmize : Bool)
    {n : Nat} {o : Option Nat} {buf buf' : Nat → Point}
    (ho : ∀ i, o = some i → TileKnown W s s' n i)
    (hbuf : ∀ k < n, buf' (pathIndex nBufSize nReverse k) = buf (pathIndex nBufSize nReverse k)) :
    let r := PathFinder.buildLoop t s nBufSize nReverse optmize left o n buf
    let r' := PathFinder.buildLoop t s' nBufSize nReverse optmize left o n buf'
    r'.1 = r.1 ∧ r'.2.2 = r.2.2 ∧
      ∀ k < r.1, r'.2.1 (pathIndex nBufSize nReverse k) =
        r.2.1 (pathIndex nBufSize nReverse k) := by
  -- the buffers agree below the length, which the shortcut only lowers
  induction left generalizing o n buf buf' with
  | zero => exact ⟨rfl, rfl, hbuf⟩
  | succ left ih =>
    unfold PathFinder.buildLoop
    cases o with
    | none => exact ⟨rfl, rfl, hbuf⟩
    | some i =>
      have htile := ho i rfl
      dsimp only
      rw [h.tileToPoint, htile.pParent]
      split
      · -- both sides take the shortcut or neither does
        have hcond : (optmize ∧ (s'.tileTags i).bAround ≠ 0 ∧ n ≥ 2 ∧
            isNear (buf' (pathIndex nBufSize nReverse (n - 2))) (s.tileToPoint t i)) ↔
            (optmize ∧ (s.tileTags i).bAround ≠ 0 ∧ n ≥ 2 ∧
              isNear (buf (pathIndex nBufSize nReverse (n - 2))) (s.tileToPoint t i)) := by
          by_cases hn : 2 ≤ n
          · rw [htile.around hn, hbuf (n - 2) (by omega)]
          · simp [show ¬ n ≥ 2 from hn]
        rw [if_congr hcond rfl rfl]
        generalize hk : (if optmize ∧ (s.tileTags i).bAround ≠ 0 ∧ n ≥ 2 ∧
          isNear (buf (pathIndex nBufSize nReverse (n - 2))) (s.tileToPoint t i)
        then n - 1 else n) = k
        have hkn : k ≤ n := by
          rw [← hk]
          split <;> omega
        have hwritten : ∀ j < k + 1,
            Function.update buf' (pathIndex nBufSize nReverse k) (s.tileToPoint t i)
              (pathIndex nBufSize nReverse j) =
            Function.update buf (pathIndex nBufSize nReverse k) (s.tileToPoint t i)
              (pathIndex nBufSize nReverse j) := by
          intro j hj
          rw [Function.update_apply, Function.update_apply]
          split
          · rfl
          · rename_i hne
            have hjk : j ≠ k := fun heq => hne (heq ▸ rfl)
            exact hbuf j (by omega)
        split
        · -- at the barrier the length is zero
          exact ⟨rfl, rfl, fun _ hj => absurd hj (Nat.not_lt_zero _)⟩
        · exact ih (fun j hj => h.tileKnown (htile.parent j hj).1 (htile.parent j hj).2) hwritten
      · exact ⟨rfl, rfl, hbuf⟩

/-- The points that are stored depend on the cells that are written. -/
theorem stored_congr {nBufSize n : Nat} {nReverse : Bool} {buf buf' : Nat → Point}
    (h : ∀ k < n, buf' (pathIndex nBufSize nReverse k) = buf (pathIndex nBufSize nReverse k)) :
    stored nBufSize nReverse buf' n = stored nBufSize nReverse buf n := by
  induction n with
  | zero => rfl
  | succ n ih => rw [stored, stored, h n (Nat.lt_succ_self n), ih fun k hk => h k (by omega)]

/-- `BuildPath` on both sides: the length, and the points that were written. -/
theorem Alike.buildPath (h : Alike t W s s') (htip : TipKnown t W s s') (k : Nat)
    (nReverse optmize : Bool) :
    let p := s.buildPath t k nReverse optmize
    let p' := s'.buildPath t k nReverse optmize
    p'.1 = p.1 ∧ p'.2.pathPoints k (pathOffset t nReverse p.1) p.1 =
      p.2.pathPoints k (pathOffset t nReverse p.1) p.1 := by
  -- the first tag is one both know, and no point is written yet
  have hfirst : ∀ i, s.pNearestTile = some i → TileKnown W s s' 0 i := by
    intro i hi
    obtain ⟨-, hsame, hknown⟩ := htip i hi
    exact ⟨hsame, hknown, fun hn => absurd hn (by decide)⟩
  have hempty : ∀ j < 0, s'.pathTemp k (pathIndex t.maxPathLen nReverse j) =
      s.pathTemp k (pathIndex t.maxPathLen nReverse j) := fun _ hj => absurd hj (Nat.not_lt_zero _)
  obtain ⟨hlen, -, hbuf⟩ := h.buildLoop t.maxPathLen t.maxPathLen nReverse optmize hfirst hempty
  have hlen' : (s'.buildPath t k nReverse optmize).1 = (s.buildPath t k nReverse optmize).1 := by
    unfold PathFinder.buildPath
    rw [h.pNearestTile]
    exact hlen
  apply And.intro hlen'
  -- where a path was built the points of both were written in this call
  by_cases hpos : 0 < (s.buildPath t k nReverse optmize).1
  · obtain ⟨_, -, -, hle, -⟩ := buildPath_traced hpos
    rw [pathPoints_ordered hle, pathPoints_ordered hle]
    congr 1
    apply stored_congr
    intro j hj
    unfold PathFinder.buildPath at hj ⊢
    dsimp only at hj ⊢
    rw [Function.update_self, Function.update_self, h.pNearestTile]
    exact hbuf j hj
  · rw [Nat.eq_zero_of_not_pos hpos]
    rfl

/-- The same result and the same points. -/
def SameFound (r r' : Found) : Prop := r'.ret = r.ret ∧ r'.path = r.path

/-- The paths that are built on both sides. -/
theorem Alike.builtPath (h : Alike t W s s') (htip : TipKnown t W s s') (optmize : Bool) :
    SameFound (builtPath t s optmize) (PathFinder.builtPath t s' optmize) := by
  obtain ⟨hlen, hpoints⟩ := h.buildPath htip 0 true optmize
  unfold PathFinder.builtPath
  dsimp only
  rw [hlen]
  exact ⟨rfl, hpoints⟩

end XGame3.PathFinder
