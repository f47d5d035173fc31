import Mathlib.Algebra.Group.Nat.Defs
import XGame3.Spec.PathFinderBuild
import XGame3.Spec.PathFinderCorners

/-!
# The searches of FindPath

`FindPath` runs up to four searches and keeps the shortest path that was built.  A search
that succeeds hands to `BuildPath` a chain of parents that hangs from the tile it began
at; what is known of every path that can be built from it is known of the path kept.

Key results:
- `forwardSearch_outcome` / `reverseSearch_outcome`: what a search hands to `BuildPath`.
- `StageInv.stage`: one block keeps what is known of the path kept so far.
-/

namespace XGame3.PathFinder

open FixedInt ParentChain

variable {t : Params} {s s' : PathFinder} {f : Point → Bool} {q : Query}

/-! ## Numbers not yet used -/

/-- No tag carries one of the next `n` numbers. -/
def Fresh (t : Params) (s : PathFinder) (n : Nat) : Prop :=
  ∀ k, 1 ≤ k → k ≤ n → ∀ tag < t.maxSearchArea * t.maxSearchArea,
    (s.tileTags tag).nFindID ≠ (s.nFind + k) % 65536

/-- No tag carries the number of the next search. -/
theorem Fresh.unused {n : Nat} (h : Fresh t s n) (hn : 1 ≤ n) : Unused t s :=
  h 1 (Nat.le_refl 1) hn

/-- A search uses up one number. -/
theorem NextSearch.fresh {n : Nat} (h : NextSearch s s') (hfresh : Fresh t s (n + 1))
    (hn : n < 65535) : Fresh t s' n := by
  intro k hk hkn tag hlt
  have hold := hfresh (k + 1) (by omega) (by omega) tag hlt
  have hfind := h.nFind
  cases h.ids tag with
  | inl hkept =>
    rw [hkept]
    omega
  | inr hc =>
    unfold Carries at hc
    omega

/-- `IsBlock` is the same in the next search. -/
theorem NextSearch.pure (h : NextSearch s s') (hf : s.Pure f) : s'.Pure f := h.blockFunc.trans hf

/-- What follows a search and touches no number. -/
theorem NextSearch.sameIds {s'' : PathFinder} (h : NextSearch s s') (hs : SameIds s' s'') :
    NextSearch s s'' where
  nMapWidth := hs.nMapWidth.trans h.nMapWidth
  nMapHeight := hs.nMapHeight.trans h.nMapHeight
  blockFunc := hs.blockFunc.trans h.blockFunc
  nSearchOption := hs.nSearchOption.trans h.nSearchOption
  nMaxStep := hs.nMaxStep.trans h.nMaxStep
  pathTemp := hs.pathTemp.trans h.pathTemp
  nFind := hs.nFind.trans h.nFind
  ids := fun tag => by
    cases hs.ids tag with
    | inl hkept =>
      cases h.ids tag with
      | inl hold => exact .inl (hkept.trans hold)
      | inr hc => exact .inr (hkept.trans (hc.trans hs.nFind.symm))
    | inr hc => exact .inr hc

/-! ## The state handed to BuildPath -/

/-- If there is a nearest tile, its parents hang from the tile the search began at. -/
def HangsFrom (t : Params) (f : Point → Bool) (s : PathFinder) (exempt : Point → Prop)
    (ptStart : Point) : Prop :=
  ∀ i, s.pNearestTile = some i → ∃ root tags, s.getTileTag t ptStart = some root ∧
    Hanging t f s exempt root tags ∧ tags i

/-- More tiles may be exempt. -/
theorem Hanging.exempt {exempt exempt' : Point → Prop} {root : Nat} {tags : Nat → Prop}
    (h : Hanging t f s exempt root tags) (hsub : ∀ p, exempt p → exempt' p) :
    Hanging t f s exempt' root tags :=
  ⟨h.root, h.parent, h.placed, fun i hi => (h.free i hi).imp_left (hsub _)⟩

/-- So it is for a whole chain. -/
theorem HangsFrom.exempt {exempt exempt' : Point → Prop} {p : Point}
    (h : HangsFrom t f s exempt p) (hsub : ∀ p, exempt p → exempt' p) :
    HangsFrom t f s exempt' p := by
  intro i hi
  obtain ⟨root, tags, hroot, hhang, hmem⟩ := h i hi
  exact ⟨root, tags, hroot, hhang.exempt hsub, hmem⟩

/-- The nearest tile of a search and all tiles walked hang from its start. -/
theorem Searched.walked {ptStart ptEnd : Point} {ret : Bool} {i : Nat}
    (h : Searched t f s s' ptStart ptEnd ret) (hi : s'.pNearestTile = some i) :
    ∃ root, s'.getTileTag t ptStart = some root ∧
      Hanging t f s' (fun p => p = ptStart) root (Walked t f s') ∧ Walked t f s' i := by
  have hw := h.forest.nearest i hi
  obtain ⟨root, hroot, -⟩ := hw.root
  rw [← h.start_eq]
  exact ⟨root, hroot, h.forest.hanging hroot, hw⟩

/-- After a search its tags hang below the start. -/
theorem Searched.hangs {ptStart ptEnd : Point} {ret : Bool}
    (h : Searched t f s s' ptStart ptEnd ret) :
    HangsFrom t f s' (fun p => p = ptStart) ptStart := by
  intro i hi
  obtain ⟨root, hroot, hhang, hw⟩ := h.walked hi
  exact ⟨root, _, hroot, hhang, hw⟩

/-- After a search with the optimise option every place to connect from is walked. -/
theorem Searched.anchors {ptStart ptEnd : Point} {ret : Bool} {i : Nat}
    (h : Searched t f s s' ptStart ptEnd ret)
    (hopt : hasOption s.nSearchOption optionOptimize = true) (hi : s'.pNearestTile = some i) :
    ∀ p, Anchor s' p → p.InRange ∧
      ∃ tag, s'.getTileTag t p = some tag ∧ Walked t f s' tag := by
  intro p hp
  cases hp with
  | inl hstart =>
    subst hstart
    obtain ⟨root, hroot, hw⟩ := (h.forest.nearest i hi).root
    exact ⟨h.forest.start, root, hroot, hw⟩
  | inr hcorner =>
    obtain ⟨c, hflag, rfl⟩ := hcorner
    exact h.corners hopt c hflag

/-- `ConnectCorners` writes to tags only. -/
theorem optimizeCorners_kept {p : Point} (h : optimizeCorners t q s p = some s') : Kept s s' := by
  unfold optimizeCorners at h
  split at h
  · exact connectFrom_kept h
  · obtain rfl := Option.some.inj h
    exact .refl _

/-- Optimising keeps the nearest tile hanging. -/
theorem optimizeCorners_hangs {exempt : Point → Prop} {ptStart : Point} {root i : Nat}
    {tags : Nat → Prop} (hf : s.Pure f) (hstart : s.ptStart = ptStart)
    (hroot : s.getTileTag t ptStart = some root) (hhang : Hanging t f s exempt root tags)
    (hi : s.pNearestTile = some i) (htags : tags i)
    (hanchors : hasOption q.nOption optionOptimize = true → ∀ p, Anchor s p → p.InRange ∧
      ∃ tag, s.getTileTag t p = some tag ∧ tags tag ∧ s.Carries tag)
    (h : optimizeCorners t q s ptStart = some s') : HangsFrom t f s' exempt ptStart := by
  -- corners change links, and neither tags nor the nearest tile
  have hkept := optimizeCorners_kept h
  intro j hj
  obtain rfl := Option.some.inj (hi.symm.trans (hkept.pNearestTile.symm.trans hj))
  have hroot' : s'.getTileTag t ptStart = some root :=
    (hkept.toSameSearch.getTileTag _).trans hroot
  unfold optimizeCorners at h
  split at h
  -- with OPTIMIZE the lines of `ConnectCorners` hang their tiles from the chain
  · rename_i hopt
    have hnear : ∀ j, s.pNearestTile = some j → tags j := fun j hj =>
      Option.some.inj (hi.symm.trans hj) ▸ htags
    have hconn : Connecting t f s exempt root tags := ⟨hhang, hnear, hanchors hopt.2⟩
    subst hstart
    obtain ⟨tags', hconn'⟩ := connectCorners_hanging hf hconn h
    exact ⟨root, tags', hroot', hconn'.hanging, hconn'.nearest i hj⟩
  · obtain rfl := Option.some.inj h
    exact ⟨root, tags, hroot', hhang, htags⟩

/-- The nearest tile stays at its end. -/
theorem Kept.endsAt {ptStart ptEnd : Point} (h : Kept s s') (hends : EndsAt t f s ptStart ptEnd) :
    EndsAt t f s' ptStart ptEnd := by
  unfold EndsAt
  simp only [h.pNearestTile, h.toSameSearch.tileToPoint]
  exact hends

/-- What a search from `ptStart` hands to `BuildPath`. -/
structure ForwardOutcome (t : Params) (f : Point → Bool) (q : Query) (s s' : PathFinder)
    (ret : Bool) : Prop extends NextSearch s s' where
  start_eq : s'.ptStart = q.ptStart
  endsAt : ret = true → q.ptStart ≠ q.ptEnd → EndsAt t f s' q.ptStart q.ptEnd
  hangs : HangsFrom t f s' (fun p => p = q.ptStart) q.ptStart

/-- What a block that searches from `ptStart` leaves. -/
theorem forwardSearch_outcome {r : Bool × PathFinder} (hf : s.Pure f) (hstart : q.ptStart.InRange)
    (hunused : Unused t s)
    (hopt : hasOption s.nSearchOption optionOptimize = hasOption q.nOption optionOptimize)
    (h : forwardSearch t q s = some r) : ForwardOutcome t f q s r.2 r.1 := by
  obtain ⟨⟨ret, s₁⟩, hcore, h⟩ := Option.bind_eq_some_iff.1 h
  have hsearched := findPathCore_searched hf hstart hunused hcore
  have hstart_eq : s₁.ptStart = q.ptStart := hsearched.start_eq
  match ret with
  | true =>
    -- the corners may be connected, which leaves the nearest tile and the map alone
    obtain ⟨s₂, hoptimize, h⟩ := Option.bind_eq_some_iff.1 h
    obtain rfl := Option.some.inj h
    have hkept := optimizeCorners_kept hoptimize
    constructor
    · exact hsearched.toNextSearch.sameIds hkept.toSameIds
    · exact hkept.ptStart.trans hstart_eq
    · exact fun _ hne => hkept.endsAt (hsearched.endsAt rfl hne)
    · intro i hi
      have hi₁ : s₁.pNearestTile = some i := hkept.pNearestTile.symm.trans hi
      obtain ⟨root, hroot, hhang, hw⟩ := hsearched.walked hi₁
      have hanchors : hasOption q.nOption optionOptimize = true → ∀ p, Anchor s₁ p → p.InRange ∧
          ∃ tag, s₁.getTileTag t p = some tag ∧ Walked t f s₁ tag ∧ s₁.Carries tag := by
        intro hon p hp
        obtain ⟨hin, tag, htag, hwt⟩ := hsearched.anchors (hopt.trans hon) hi₁ p hp
        exact ⟨hin, tag, htag, hwt, hwt.carries⟩
      exact optimizeCorners_hangs (hsearched.toNextSearch.pure hf) hstart_eq hroot hhang hi₁ hw
        hanchors hoptimize i hi
  | false =>
    obtain rfl := Option.some.inj h
    constructor
    · exact hsearched.toNextSearch
    · exact hstart_eq
    · exact fun hret => nomatch hret
    · exact hsearched.hangs

/-- The three ways of `linkStart`. -/
theorem linkStart_cases {p : Point} (h : linkStart t s p = some s') :
    s.pNearestTile = none ∧ s' = s ∨
    ∃ nearest, s.pNearestTile = some nearest ∧ (s.getTileTag t p = some nearest ∧ s' = s ∨
      ∃ tag, s.getTileTag t p = some tag ∧ tag ≠ nearest ∧
        s' = { s.modifyTag tag fun old => { old with pParent := some nearest } with
          pNearestTile := some tag }) := by
  unfold linkStart at h
  split at h
  -- nothing was walked
  · rename_i hnone
    obtain rfl := Option.some.inj h
    exact .inl ⟨hnone, rfl⟩
  -- the start is walked already, or is hung from the nearest tile
  · rename_i nearest hnear
    right
    apply Exists.intro nearest
    apply And.intro hnear
    split at h
    · rename_i heq
      obtain rfl := Option.some.inj h
      exact .inl ⟨heq.symm, rfl⟩
    · rename_i hne
      obtain ⟨tag, htag, h⟩ := Option.bind_eq_some_iff.1 h
      obtain rfl := Option.some.inj h
      exact .inr ⟨tag, htag, fun heq => hne (heq ▸ htag.symm), rfl⟩

/-- What a search from `ptEnd` hands to `BuildPath`. -/
structure ReverseOutcome (t : Params) (f : Point → Bool) (q : Query) (s s' : PathFinder)
    (ret : Bool) : Prop extends NextSearch s s' where
  start_eq : s'.ptStart = q.ptEnd
  tip : ret = true → q.ptStart ≠ q.ptEnd → ∀ i, s'.pNearestTile = some i →
    s'.tileToPoint t i = q.ptStart
  hangs : ret = true → q.ptStart ≠ q.ptEnd →
    HangsFrom t f s' (fun p => p = q.ptEnd ∨ p = q.ptStart) q.ptEnd

/-- Linking the start changes a parent and the nearest tile. -/
theorem linkStart_sameIds {p : Point} (h : linkStart t s p = some s') : SameIds s s' ∧
    s'.corners = s.corners ∧ s'.nCornerFlag = s.nCornerFlag ∧
    ∀ i, (s'.tileTags i).nFindID = (s.tileTags i).nFindID := by
  have hrefl : SameIds s s ∧ s.corners = s.corners ∧ s.nCornerFlag = s.nCornerFlag ∧
      ∀ i, (s.tileTags i).nFindID = (s.tileTags i).nFindID :=
    ⟨.refl s, rfl, rfl, fun _ => rfl⟩
  -- one parent is written at most
  cases linkStart_cases h with
  | inl hnone => exact hnone.2 ▸ hrefl
  | inr hsome =>
    obtain ⟨nearest, -, hcases⟩ := hsome
    cases hcases with
    | inl hat => exact hat.2 ▸ hrefl
    | inr hlink =>
      obtain ⟨tag, -, -, rfl⟩ := hlink
      have hids : ∀ i, _ = (s.tileTags i).nFindID :=
        fun i => setParent_nFindID s tag i (some nearest)
      exact ⟨⟨⟨rfl, rfl, rfl, rfl, rfl, rfl, rfl, rfl, rfl⟩, fun i => .inl (hids i)⟩, rfl, rfl,
        hids⟩

/-- A reversed search after `linkStart`: the nearest tile is `ptStart`, and its parents hang from
    `ptEnd`. -/
def Linked (t : Params) (f : Point → Bool) (q : Query) (s s' : PathFinder) : Prop :=
  ∀ i, s'.pNearestTile = some i → s'.tileToPoint t i = q.ptStart ∧
    (∃ j, s.pNearestTile = some j) ∧ ∃ root tags, s'.getTileTag t q.ptEnd = some root ∧
      Hanging t f s' (fun p => p = q.ptEnd ∨ p = q.ptStart) root tags ∧ tags i ∧
      ∀ j, Walked t f s j → tags j

/-- The link to the start hangs it below the nearest tile. -/
theorem linkStart_linked {s₀ : PathFinder} (hsearched : Searched t f s₀ s q.ptEnd q.ptStart true)
    (hstart : q.ptStart.InRange) (hne : q.ptStart ≠ q.ptEnd)
    (h : linkStart t s q.ptStart = some s') : Linked t f q s s' := by
  have hends := hsearched.endsAt rfl hne.symm
  intro i hi
  cases linkStart_cases h with
  | inl hnone =>
    obtain ⟨hnear, rfl⟩ := hnone
    exact nomatch hnear.symm.trans hi
  | inr hsome =>
    obtain ⟨nearest, hnear, hcases⟩ := hsome
    obtain ⟨root, hroot, hhang, hw⟩ := hsearched.walked hnear
    have hhang : Hanging t f s (fun p => p = q.ptEnd ∨ p = q.ptStart) root (Walked t f s) :=
      hhang.exempt fun _ hp => .inl hp
    cases hcases with
    | inl hat =>
      -- the search has come to `ptStart` itself
      obtain ⟨htag, rfl⟩ := hat
      obtain rfl := Option.some.inj (hnear.symm.trans hi)
      exact ⟨tileToPoint_getTileTag hstart htag, ⟨_, hnear⟩, root, _, hroot, hhang, hw,
        fun _ hj => hj⟩
    | inr hlink =>
      -- it has stopped beside `ptStart`
      obtain ⟨tag, htag, hne, rfl⟩ := hlink
      obtain rfl := Option.some.inj hi
      have hpoint : s.tileToPoint t tag = q.ptStart := tileToPoint_getTileTag hstart htag
      have hnearby : Neighbour (s.tileToPoint t nearest) (s.tileToPoint t tag) := by
        rw [hpoint]
        cases hends with
        | inl hnone => exact nomatch hnear.symm.trans hnone.1
        | inr hat =>
          obtain ⟨j, hj, hat⟩ := hat
          obtain rfl := Option.some.inj (hnear.symm.trans hj)
          cases hat with
          | inl heq =>
            -- then it would be the tag of `ptStart`
            have hplaced := (hhang.placed nearest hw).tag
            rw [heq, htag] at hplaced
            exact absurd (Option.some.inj hplaced) hne
          | inr hbeside => exact hbeside.1
      have hsame : SameSearch s
        { s.modifyTag tag fun old => { old with pParent := some nearest } with
          pNearestTile := some tag } := ⟨rfl, rfl, rfl, rfl, rfl, rfl, rfl, rfl, rfl⟩
      have hsub : ∀ j, Walked t f s j → Walked t f s j ∨ j = tag := fun _ hj => .inl hj
      have hhang' := hhang.reparent hsame (setParent_pParent s tag · _) hw hnearby hsub fun j hj =>
        hj.imp_right fun heq => ⟨heq, .of_tag hstart htag, .inl (.inr hpoint)⟩
      exact ⟨hpoint, ⟨_, hnear⟩, root, _, hroot, hhang', .inr rfl, hsub⟩

/-- What a block that searches from `ptEnd` leaves. -/
theorem reverseSearch_outcome {r : Bool × PathFinder} (hf : s.Pure f) (hstart : q.ptStart.InRange)
    (hend : q.ptEnd.InRange) (hunused : Unused t s)
    (hopt : hasOption s.nSearchOption optionOptimize = hasOption q.nOption optionOptimize)
    (h : reverseSearch t q s = some r) : ReverseOutcome t f q s r.2 r.1 := by
  obtain ⟨⟨ret, s₁⟩, hcore, h⟩ := Option.bind_eq_some_iff.1 h
  have hsearched := findPathCore_searched hf hend hunused hcore
  match ret with
  | true =>
    obtain ⟨s₂, hlink, h⟩ := Option.bind_eq_some_iff.1 h
    obtain ⟨s₃, hoptimize, h⟩ := Option.bind_eq_some_iff.1 h
    obtain rfl := Option.some.inj h
    have hkept := optimizeCorners_kept hoptimize
    obtain ⟨hids, hcorners, hflags, hcarried⟩ := linkStart_sameIds hlink
    have hstart₂ : s₂.ptStart = q.ptEnd := hids.ptStart.trans hsearched.start_eq
    have hlinked : q.ptStart ≠ q.ptEnd → Linked t f q s₁ s₂ := fun hne =>
      linkStart_linked hsearched hstart hne hlink
    constructor
    · exact (hsearched.toNextSearch.sameIds hids).sameIds hkept.toSameIds
    · exact hkept.ptStart.trans hstart₂
    · intro _ hne i hi
      rw [hkept.toSameSearch.tileToPoint]
      exact (hlinked hne i (hkept.pNearestTile.symm.trans hi)).1
    · -- `linkStart` records no corner, so that the corners are those of the search
      intro _ hne i hi
      have hi₂ : s₂.pNearestTile = some i := hkept.pNearestTile.symm.trans hi
      obtain ⟨-, ⟨j, hj⟩, root, tags, hroot, hhang, hmem, hwalked⟩ := hlinked hne i hi₂
      have hanchors : hasOption q.nOption optionOptimize = true → ∀ p, Anchor s₂ p → p.InRange ∧
          ∃ tag, s₂.getTileTag t p = some tag ∧ tags tag ∧ s₂.Carries tag := by
        intro hon p hp
        have hp₁ : Anchor s₁ p := by
          unfold Anchor at hp ⊢
          rw [hids.ptStart, hcorners, hflags] at hp
          exact hp
        obtain ⟨hin, tag, htag, hw⟩ := hsearched.anchors (hopt.trans hon) hj p hp₁
        have hc : s₂.Carries tag := (hcarried tag).trans (hw.carries.trans hids.nFind.symm)
        exact ⟨hin, tag, (hids.toSameSearch.getTileTag p).trans htag, hwalked tag hw, hc⟩
      have hf₂ : s₂.Pure f := hids.toSameSearch.pure (hsearched.toNextSearch.pure hf)
      exact optimizeCorners_hangs hf₂ hstart₂ hroot hhang hi₂ hmem hanchors hoptimize i hi
  | false =>
    obtain rfl := Option.some.inj h
    constructor
    · exact hsearched.toNextSearch
    · exact hsearched.start_eq
    · exact fun hret => nomatch hret
    · exact fun hret => nomatch hret

/-! ## Options -/

/-- An option is a bit of the word. -/
theorem hasOption_two_pow (option i : Nat) : hasOption option (2 ^ i) = option.testBit i := by
  unfold hasOption
  -- the bit alone remains of the option
  by_cases hbit : option.testBit i = true
  · have hne : option &&& 2 ^ i ≠ 0 := by
      intro hzero
      have hand := congrArg (Nat.testBit · i) hzero
      rw [Nat.testBit_and, Nat.testBit_two_pow_self, hbit, Nat.zero_testBit] at hand
      exact nomatch hand
    rw [hbit, bne_iff_ne]
    exact hne
  -- nothing remains
  · have hzero : option &&& 2 ^ i = 0 := by
      apply Nat.eq_of_testBit_eq
      intro j
      rw [Nat.testBit_and, Nat.testBit_two_pow, Nat.zero_testBit]
      by_cases hj : i = j
      · rw [← hj, Bool.eq_false_iff.2 hbit, Bool.false_and]
      · rw [decide_eq_false hj, Bool.and_false]
    rw [hzero, Bool.eq_false_iff.2 hbit]
    rfl

/-- Changing the straight-way option leaves the others as they are. -/
theorem switchStraightway_hasOption (b : Search) (i : Nat) (hi : i < 2) :
    hasOption (switchStraightway b).finder.nSearchOption (2 ^ i) =
      hasOption b.finder.nSearchOption (2 ^ i) := by
  unfold switchStraightway
  split
  · dsimp only
    rw [show optionStraightway = 2 ^ 2 from rfl, hasOption_two_pow, hasOption_two_pow,
      hasOption_two_pow, Nat.testBit_eq_decide_div_mod_eq, Nat.testBit_eq_decide_div_mod_eq,
      Nat.testBit_eq_decide_div_mod_eq]
    -- adding or taking away `4` leaves the two lower bits
    apply decide_eq_decide.2
    have hcases : i = 0 ∨ i = 1 := by omega
    split
    · rename_i hset
      rw [decide_eq_true_iff] at hset
      rcases hcases with rfl | rfl <;> omega
    · rename_i hset
      rw [decide_eq_true_iff] at hset
      rcases hcases with rfl | rfl <;> omega
  · rfl

/-! ## The blocks one after the other -/

/-- The locals of `FindPath` before its first search. -/
def beginSearch (s : PathFinder) (q : Query) : Search where
  finder := { s with nSearchOption := q.nOption, nMaxStep := q.nMaxStep }
  best := none
  bFindMore := true

/-- The beginning of a call leaves the map alone. -/
theorem beginSearch_sameMap (s : PathFinder) (q : Query) : SameMap s (beginSearch s q).finder :=
  ⟨rfl, rfl, rfl⟩

/-- The ways through a block. -/
inductive StageTurn (t : Params) (q : Query) (k : Nat) (nReverse : Bool)
    (search : PathFinder → Option (Bool × PathFinder)) (b : Search) : Search → Prop
  | settled : b.bFindMore = false → StageTurn t q k nReverse search b b
  | failed {s' : PathFinder} : b.bFindMore = true → search b.finder = some (false, s') →
      StageTurn t q k nReverse search b { b with finder := s' }
  | found {s' : PathFinder} : b.bFindMore = true → search b.finder = some (true, s') →
      StageTurn t q k nReverse search b (keepPath t q k nReverse b.best s')

section

variable {k : Nat} {nReverse : Bool} {b b' : Search}
  {search : PathFinder → Option (Bool × PathFinder)}

/-- A block takes one of its turns. -/
theorem searchStage_turn (h : searchStage t q k nReverse search b = some b') :
    StageTurn t q k nReverse search b b' := by
  unfold searchStage at h
  split at h
  · rename_i hmore
    obtain ⟨⟨ret, s'⟩, hrun, h⟩ := Option.bind_eq_some_iff.1 h
    cases ret with
    | true =>
      obtain rfl := Option.some.inj h
      exact .found hmore hrun
    | false =>
      obtain rfl := Option.some.inj h
      exact .failed hmore hrun
  · rename_i hdone
    obtain rfl := Option.some.inj h
    exact .settled (Bool.eq_false_iff.2 hdone)

/-- A block that need not search leaves everything as it is. -/
theorem searchStage_idle (h : b.bFindMore = false) :
    searchStage t q k nReverse search b = some b := by
  unfold searchStage
  rw [if_neg (Bool.eq_false_iff.1 h)]

/-- Keeping a path touches the buffers, `m_pNearestTile` and the step budget only. -/
theorem keepPath_finder (best : Option Shortest) (s' : PathFinder) : ∃ buffers nearest nMaxStep,
    (keepPath t q k nReverse best s').finder =
      { s' with pathTemp := buffers, pNearestTile := nearest, nMaxStep := nMaxStep } := by
  unfold keepPath
  dsimp only
  split
  · exact ⟨_, _, q.nMaxStep, rfl⟩
  · exact ⟨_, _, s'.nMaxStep, rfl⟩

/-- A block leaves the other members as its search does. -/
theorem searchStage_finder (h : searchStage t q k nReverse search b = some b') :
    b' = b ∨ ∃ r, search b.finder = some r ∧ ∃ buffers nearest nMaxStep,
      b'.finder =
        { r.2 with pathTemp := buffers, pNearestTile := nearest, nMaxStep := nMaxStep } := by
  cases searchStage_turn h with
  | settled _ => exact .inl rfl
  | @failed s' _ hrun => exact .inr ⟨_, hrun, s'.pathTemp, s'.pNearestTile, s'.nMaxStep, rfl⟩
  | @found s' _ hrun => exact .inr ⟨_, hrun, keepPath_finder b.best s'⟩

/-- The ways through the end of `FindPath`. -/
inductive FinishTurn (t : Params) (q : Query) (b : Search) : Found → Prop
  | nearest {r : Bool × PathFinder} : b.best = none →
      hasOption b.finder.nSearchOption optionNearest = true →
      findPathCore t b.finder q.ptStart q.ptEnd = some r → FinishTurn t q b (builtPath t r.2 true)
  | nothing : b.best = none → hasOption b.finder.nSearchOption optionNearest = false →
      FinishTurn t q b ⟨false, [], b.finder⟩
  | kept {best : Shortest} : b.best = some best →
      FinishTurn t q b ⟨0 < best.nPathLen,
        b.finder.pathPoints best.nShortest best.offset best.nPathLen, b.finder⟩

/-- The end of a call takes one of its turns. -/
theorem finish_turn {r : Found} (h : finish t q b = some r) : FinishTurn t q b r := by
  unfold finish at h
  split at h
  · rename_i hnone
    split at h
    · rename_i hnear
      obtain ⟨r', hcore, h⟩ := Option.bind_eq_some_iff.1 h
      obtain rfl := Option.some.inj h
      exact .nearest hnone hnear hcore
    · rename_i hnear
      obtain rfl := Option.some.inj h
      exact .nothing hnone (Bool.eq_false_iff.2 hnear)
  · rename_i best hbest
    obtain rfl := Option.some.inj h
    exact .kept hbest

/-- A call that returns and does not begin with A* has made its first search. -/
theorem findPath_first {r : Found} (honly : hasOption q.nOption optionOnlyAStar = false)
    (h : findPath t s q = some r) : ∃ b, forwardStage t q 0 (beginSearch s q) = some b := by
  unfold findPath at h
  dsimp only at h
  rw [if_neg (Bool.eq_false_iff.1 honly)] at h
  obtain ⟨b, hb, -⟩ := Option.bind_eq_some_iff.1 h
  exact ⟨b, hb⟩

/-- The other searches are left out when the first settles the call. -/
theorem findPath_settled (honly : hasOption q.nOption optionOnlyAStar = false)
    (hb : forwardStage t q 0 (beginSearch s q) = some b) (hdone : b.bFindMore = false) :
    findPath t s q = finish t q b := by
  have hswitch : switchStraightway b = b := by
    unfold switchStraightway
    rw [if_neg (Bool.eq_false_iff.1 hdone)]
  unfold findPath
  dsimp only
  rw [if_neg (Bool.eq_false_iff.1 honly)]
  unfold beginSearch at hb
  rw [hb]
  dsimp only [Option.bind_some, bind]
  rw [hdone, Bool.false_and, if_neg Bool.false_ne_true]
  -- none of the other blocks searches
  unfold reverseStage forwardStage
  rw [searchStage_idle hdone]
  dsimp only [Option.bind_some]
  rw [hswitch, searchStage_idle hdone]
  dsimp only [Option.bind_some]
  rw [searchStage_idle hdone]
  rfl

end

/-- The locals before block `k`, and after the last. -/
inductive Stage (t : Params) (q : Query) (s : PathFinder) : Nat → Search → Prop
  | first : Stage t q s 0 (beginSearch s q)
  | second {b b' : Search} : Stage t q s 0 b → forwardStage t q 0 b = some b' → Stage t q s 1 b'
  | third {b b' : Search} : Stage t q s 1 b → reverseStage t q 1 b = some b' →
      Stage t q s 2 (switchStraightway b')
  | fourth {b b' : Search} : Stage t q s 2 b → forwardStage t q 2 b = some b' → Stage t q s 3 b'
  | fifth {b b' : Search} : Stage t q s 3 b → reverseStage t q 3 b = some b' → Stage t q s 4 b'

section

variable {α : Type}

/-- What is collected from a block, if it searches, and from those behind it. -/
def collect (own : PathFinder → List α) (block : Search → Option Search)
    (rest : Search → List α) (b : Search) : List α :=
  (if b.bFindMore then own b.finder else []) ++
    match block b with
    | some b => rest b
    | none => []

variable {own : PathFinder → List α} {block : Search → Option Search} {rest : Search → List α}
  {b b' : Search} {x : α}

/-- What a block collects, -/
theorem mem_collect_of_own (hmore : b.bFindMore = true) (hx : x ∈ own b.finder) :
    x ∈ collect own block rest b := by
  simp only [collect, hmore, if_true, List.mem_append]
  exact .inl hx

/-- and what those behind it do. -/
theorem mem_collect_of_rest (hb : block b = some b') (hx : x ∈ rest b') :
    x ∈ collect own block rest b := by
  simp only [collect, hb, List.mem_append]
  exact .inr hx

/-- What holds of both parts holds of all. -/
theorem forall_mem_collect {P : α → Prop} (hown : b.bFindMore = true → ∀ x ∈ own b.finder, P x)
    (hrest : ∀ b', block b = some b' → ∀ x ∈ rest b', P x) :
    ∀ x ∈ collect own block rest b, P x := by
  intro x hx
  simp only [collect, List.mem_append] at hx
  cases hx with
  | inl hx =>
    split at hx
    · rename_i hmore
      exact hown hmore x hx
    · exact absurd hx List.not_mem_nil
  | inr hx =>
    split at hx
    · rename_i b' hb
      exact hrest b' hb x hx
    · exact absurd hx List.not_mem_nil

variable (t q) (forward reverse : Nat → PathFinder → List α) (last : Search → List α)

/-- From the fourth block on. -/
def collectFourth : Search → List α := collect (reverse 3) (reverseStage t q 3) last

/-- From the third block on. -/
def collectThird : Search → List α :=
  collect (forward 2) (forwardStage t q 2) (collectFourth t q reverse last)

/-- From the second block on. -/
def collectSecond : Search → List α :=
  collect (reverse 1) (reverseStage t q 1) fun b =>
    collectThird t q forward reverse last (switchStraightway b)

/-- From the first block on, if A* is not called. -/
def collectFirst : Search → List α :=
  collect (forward 0) (forwardStage t q 0) (collectSecond t q forward reverse last)

end

/-- The states handed to `BuildPath`, and whether the path is stored from its end. -/
inductive Handed (t : Params) (q : Query) (s : PathFinder) : Bool → PathFinder → Prop
  | forward {k : Nat} {b : Search} {s' : PathFinder} : Stage t q s k b → k = 0 ∨ k = 2 →
      b.bFindMore = true → forwardSearch t q b.finder = some (true, s') → Handed t q s true s'
  | reverse {k : Nat} {b : Search} {s' : PathFinder} : Stage t q s k b → k = 1 ∨ k = 3 →
      b.bFindMore = true → reverseSearch t q b.finder = some (true, s') → Handed t q s false s'
  | nearest {b : Search} {r : Bool × PathFinder} : Stage t q s 4 b → b.best = none →
      hasOption q.nOption optionNearest = true →
      findPathCore t b.finder q.ptStart q.ptEnd = some r → Handed t q s true r.2

/-- What the searches of one call have in common. -/
structure StageFrame (t : Params) (f : Point → Bool) (q : Query) (s : PathFinder) (n : Nat)
    (b : Search) : Prop where
  nMapWidth : b.finder.nMapWidth = s.nMapWidth
  nMapHeight : b.finder.nMapHeight = s.nMapHeight
  pure : b.finder.Pure f
  optimize : hasOption b.finder.nSearchOption optionOptimize = hasOption q.nOption optionOptimize
  nearest : hasOption b.finder.nSearchOption optionNearest = hasOption q.nOption optionNearest
  fresh : Fresh t b.finder n

/-- The change of the option between the blocks. -/
theorem StageFrame.switch {n : Nat} {b : Search} (h : StageFrame t f q s n b) :
    StageFrame t f q s n (switchStraightway b) := by
  have hoptimize := (switchStraightway_hasOption b 0 (by decide)).trans h.optimize
  have hnearest := (switchStraightway_hasOption b 1 (by decide)).trans h.nearest
  unfold switchStraightway at hoptimize hnearest ⊢
  split
  · rename_i hmore
    rw [if_pos hmore] at hoptimize hnearest
    exact ⟨h.nMapWidth, h.nMapHeight, h.pure, hoptimize, hnearest, h.fresh⟩
  · exact h

/-- A block changes none of it and uses up at most one number. -/
theorem StageFrame.stage {n k : Nat} {nReverse : Bool} {b b' : Search}
    {search : PathFinder → Option (Bool × PathFinder)} (h : StageFrame t f q s (n + 1) b)
    (hn : n < 65535)
    (hsearch : ∀ r, search b.finder = some r → NextSearch b.finder r.2)
    (hr : searchStage t q k nReverse search b = some b') : StageFrame t f q s n b' := by
  obtain rfl | ⟨r, hrun, _, _, _, hfinder⟩ := searchStage_finder hr
  · -- the number stays fresh
    exact ⟨h.nMapWidth, h.nMapHeight, h.pure, h.optimize, h.nearest,
      fun j hj hjn => h.fresh j hj (by omega)⟩
  · have hnext := hsearch r hrun
    constructor
    · rw [hfinder]
      exact hnext.nMapWidth.trans h.nMapWidth
    · rw [hfinder]
      exact hnext.nMapHeight.trans h.nMapHeight
    · rw [hfinder]
      exact hnext.pure h.pure
    · rw [hfinder]
      exact (congrArg (hasOption · optionOptimize) hnext.nSearchOption).trans h.optimize
    · rw [hfinder]
      exact (congrArg (hasOption · optionNearest) hnext.nSearchOption).trans h.nearest
    · rw [hfinder]
      exact hnext.fresh h.fresh hn

/-- The path kept so far is stored in one of the first `k` buffers and has the property. -/
def BestHas (P : List Point → Prop) (k : Nat) (b : Search) : Prop :=
  ∀ best, b.best = some best → best.nShortest < k ∧ 0 < best.nPathLen ∧
    P (b.finder.pathPoints best.nShortest best.offset best.nPathLen)

/-- It is no change to the path kept. -/
theorem BestHas.switch {P : List Point → Prop} {k : Nat} {b : Search} (h : BestHas P k b) :
    BestHas P k (switchStraightway b) := by
  unfold switchStraightway
  split <;> exact h

/-- A block writes to its own buffer only. -/
theorem BestHas.stage {P : List Point → Prop} {k : Nat} {nReverse : Bool} {b b' : Search}
    {search : PathFinder → Option (Bool × PathFinder)} (h : BestHas P k b)
    (hsearch : ∀ r, search b.finder = some r → r.2.pathTemp = b.finder.pathTemp)
    (hP : ∀ s', b.bFindMore = true → search b.finder = some (true, s') → ∀ tags,
      Trail (fun tag => (s'.tileTags tag).pParent) s'.pNearestTile tags →
      tags.length < t.maxPathLen → tags ≠ [] →
      P (ordered nReverse (traced t s' true tags [])))
    (hr : searchStage t q k nReverse search b = some b') : BestHas P (k + 1) b' := by
  -- a path kept before stands in another buffer
  have hold : ∀ s' : PathFinder, (∀ j, j ≠ k → s'.pathTemp j = b.finder.pathTemp j) →
      ∀ best, b.best = some best → best.nShortest < k + 1 ∧ 0 < best.nPathLen ∧
        P (s'.pathPoints best.nShortest best.offset best.nPathLen) := by
    intro s' hs' best hbest
    obtain ⟨hlt, hpos, hpath⟩ := h best hbest
    rw [pathPoints_congr (hs' best.nShortest (by omega))]
    exact ⟨by omega, hpos, hpath⟩
  cases searchStage_turn hr with
  | settled _ => exact hold b.finder fun _ _ => rfl
  | @failed s' _ hrun => exact hold s' fun j _ => congrFun (hsearch _ hrun) j
  | @found s' hmore hrun =>
    unfold keepPath
    dsimp only
    split
    · -- the new path is the shortest
      rename_i hkeep
      intro best hbest
      obtain rfl := Option.some.inj hbest
      obtain ⟨tags, htags, hfits, hne, hpoints⟩ := buildPath_points hkeep.1
      have hpath := hP s' hmore hrun tags htags hfits hne
      rw [← hpoints] at hpath
      exact ⟨Nat.lt_succ_self k, hkeep.1, hpath⟩
    · apply hold
      intro j hj
      exact (Function.update_of_ne hj _ _).trans (congrFun (hsearch _ hrun) j)

section

variable (hf : s.Pure f) (hstart : q.ptStart.InRange) (hend : q.ptEnd.InRange) {n : Nat}
  (hfresh : Fresh t s n) (hn : n < 65535)

include hf hstart hend hfresh hn

/-- What holds before every block. -/
theorem Stage.frame (hn4 : 4 ≤ n) {k : Nat} {b : Search} (h : Stage t q s k b) :
    StageFrame t f q s (n - k) b := by
  induction h with
  -- one search takes one number
  | first => exact ⟨rfl, rfl, hf, rfl, rfl, hfresh⟩
  | @second b b' _ hr ih =>
    have hframe : StageFrame t f q s (n - 1 + 1) b := (show n - 1 + 1 = n - 0 by omega) ▸ ih
    exact hframe.stage (by omega) (fun r hrun => (forwardSearch_outcome ih.pure hstart
      (ih.fresh.unused (by omega)) ih.optimize hrun).toNextSearch) hr
  | @third b b' _ hr ih =>
    have hframe : StageFrame t f q s (n - 2 + 1) b := (show n - 2 + 1 = n - 1 by omega) ▸ ih
    have hframe' := hframe.stage (by omega) (fun r hrun =>
      (reverseSearch_outcome ih.pure hstart hend
      (ih.fresh.unused (by omega)) ih.optimize hrun).toNextSearch) hr
    exact hframe'.switch
  | @fourth b b' _ hr ih =>
    have hframe : StageFrame t f q s (n - 3 + 1) b := (show n - 3 + 1 = n - 2 by omega) ▸ ih
    exact hframe.stage (by omega) (fun r hrun => (forwardSearch_outcome ih.pure hstart
      (ih.fresh.unused (by omega)) ih.optimize hrun).toNextSearch) hr
  | @fifth b b' _ hr ih =>
    have hframe : StageFrame t f q s (n - 4 + 1) b := (show n - 4 + 1 = n - 3 by omega) ▸ ih
    exact hframe.stage (by omega) (fun r hrun => (reverseSearch_outcome ih.pure hstart hend
      (ih.fresh.unused (by omega)) ih.optimize hrun).toNextSearch) hr

/-- What holds of every path that can be built from a state handed to `BuildPath` holds of the
    path kept. -/
theorem Stage.best {P : List Point → Prop} (hn4 : 4 ≤ n)
    (hP : ∀ nReverse s', Handed t q s nReverse s' → ∀ tags,
      Trail (fun tag => (s'.tileTags tag).pParent) s'.pNearestTile tags →
      tags.length < t.maxPathLen → tags ≠ [] →
      P (ordered nReverse (traced t s' true tags [])))
    {k : Nat} {b : Search} (h : Stage t q s k b) : BestHas P k b := by
  -- the path of a forward stage is handed over by its search
  have hforward : ∀ {k : Nat} {b b' : Search}, Stage t q s k b → k = 0 ∨ k = 2 →
      forwardStage t q k b = some b' → BestHas P k b → BestHas P (k + 1) b' := by
    intro k b b' hstage hk hr hbest
    have hframe := Stage.frame hf hstart hend hfresh hn hn4 hstage
    exact hbest.stage (fun r hrun => (forwardSearch_outcome hframe.pure hstart
      (hframe.fresh.unused (by omega)) hframe.optimize hrun).pathTemp)
      (fun s' hmore hrun => hP true s' (.forward hstage hk hmore hrun)) hr
  -- and so is that of a reversed one
  have hreverse : ∀ {k : Nat} {b b' : Search}, Stage t q s k b → k = 1 ∨ k = 3 →
      reverseStage t q k b = some b' → BestHas P k b → BestHas P (k + 1) b' := by
    intro k b b' hstage hk hr hbest
    have hframe := Stage.frame hf hstart hend hfresh hn hn4 hstage
    exact hbest.stage (fun r hrun => (reverseSearch_outcome hframe.pure hstart hend
      (hframe.fresh.unused (by omega)) hframe.optimize hrun).pathTemp)
      (fun s' hmore hrun => hP false s' (.reverse hstage hk hmore hrun)) hr
  induction h with
  | first => exact fun _ hbest => nomatch hbest
  | second hb hr ih => exact hforward hb (.inl rfl) hr ih
  | third hb hr ih => exact (hreverse hb (.inl rfl) hr ih).switch
  | fourth hb hr ih => exact hforward hb (.inr rfl) hr ih
  | fifth hb hr ih => exact hreverse hb (.inr rfl) hr ih

/-- It holds of the path returned when no A* block returns. -/
theorem Stage.found {P : List Point → Prop} (hn4 : 4 ≤ n)
    (hP : ∀ nReverse s', Handed t q s nReverse s' → ∀ tags,
      Trail (fun tag => (s'.tileTags tag).pParent) s'.pNearestTile tags →
      tags.length < t.maxPathLen → tags ≠ [] →
      P (ordered nReverse (traced t s' true tags [])))
    {b : Search} {r : Found} (h : Stage t q s 4 b) (hr : finish t q b = some r)
    (hret : r.ret = true) : P r.path := by
  have hframe := Stage.frame hf hstart hend hfresh hn hn4 h
  cases finish_turn hr with
  -- a last search for the nearest tile
  | @nearest r' hnone hnear hcore =>
    obtain ⟨tags, htags, hfits, hne, hpoints⟩ := buildPath_points (of_decide_eq_true hret)
    have hhanded : Handed t q s true r'.2 := .nearest h hnone (hframe.nearest ▸ hnear) hcore
    have hpath := hP true r'.2 hhanded tags htags hfits hne
    rw [← hpoints] at hpath
    exact hpath
  | nothing _ _ => exact nomatch hret
  -- a path kept from one of the four stages
  | @kept best hbest =>
    have hbest := Stage.best hf hstart hend hfresh hn hn4 hP h best hbest
    exact hbest.2.2

end

end XGame3.PathFinder
