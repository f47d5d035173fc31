import XGame3.Spec.AStarBudget
import XGame3.Spec.PathFinderNearest
import XGame3.Spec.PathFinderOptions

/-!
# A* as a fallback

With the A* option the first search is the one without it.  If that search settles the call
the same path is returned; else A* answers in place of the other three searches.  It takes
legal moves in the window around `ptStart` only and counts a turn for every tile it takes
from its list, so it can miss a target that one of the others comes to.

Key results:
- `findPath_withAStar_settled`: a call that the first search settles.
- `Handed.start_onMap`: a call that finds a path begins on the map.
- `findPath_withAStar`: when the path is not lost.
- `not_findPath_withAStar`: a target that A* cannot reach, and one that it has no turns for.
-/

namespace XGame3.PathFinder

open FixedInt ParentChain Relation

variable {t : Params} {s s' : PathFinder} {f : Point → Bool} {q : Query}

/-! ## The option -/

/-- The query with A* as a fallback. -/
def Query.withAStar (q : Query) : Query := { q with nOption := q.nOption ||| optionAStar }

/-- Adding the A* option changes no other option, -/
theorem hasOption_or_aStar (nOption : Nat) {i : Nat} (hi : i ≠ 3) :
    hasOption (nOption ||| optionAStar) (2 ^ i) = hasOption nOption (2 ^ i) := by
  rw [hasOption_two_pow, hasOption_two_pow, show optionAStar = 2 ^ 3 from rfl, Nat.testBit_or,
    Nat.testBit_two_pow_of_ne hi.symm, Bool.or_false]

/-- and is seen itself. -/
theorem hasOption_aStar (nOption : Nat) :
    hasOption (nOption ||| optionAStar) optionAStar = true := by
  rw [show optionAStar = 2 ^ 3 from rfl, hasOption_two_pow, Nat.testBit_or,
    Nat.testBit_two_pow_self, Bool.or_true]

/-- So the stages before A* make the same tests with it and without. -/
theorem sameTests_aStar (nOption : Nat) : SameTests nOption (nOption ||| optionAStar) :=
  ⟨hasOption_or_aStar nOption (show 0 ≠ 3 by decide),
    hasOption_or_aStar nOption (show 2 ≠ 3 by decide)⟩

/-- The first search does not test for A*. -/
theorem firstStage_withAStar {b : Search} (hb : forwardStage t q 0 (beginSearch s q) = some b) :
    ∃ b', forwardStage t q.withAStar 0 (beginSearch s q.withAStar) = some b' ∧
      SearchRespelled q.nOption (q.nOption ||| optionAStar) b b' := by
  have hbegin : SearchRespelled q.nOption (q.nOption ||| optionAStar) (beginSearch s q)
      (beginSearch s q.withAStar) := ⟨⟨rfl, rfl⟩, rfl, rfl⟩
  have hrel := hbegin.forwardStage (t := t) (k := 0) (sameTests_aStar q.nOption)
  rw [hb] at hrel
  generalize hb' : forwardStage t { q with nOption := q.nOption ||| optionAStar } 0
    (beginSearch s q.withAStar) = o at hrel
  cases hrel with
  | some hrel => exact ⟨_, hb', hrel⟩

/-! ## A call that the first search settles -/

/-- A block that has to search goes on, or has found a path. -/
theorem searchStage_best {k : Nat} {nReverse : Bool} {b b' : Search}
    {search : PathFinder → Option (Bool × PathFinder)} (hmore : b.bFindMore = true)
    (h : searchStage t q k nReverse search b = some b') (hdone : b'.bFindMore = false) :
    ∃ best, b'.best = some best := by
  cases searchStage_turn h with
  | settled hdone' => exact nomatch hmore.symm.trans hdone'
  | failed _ _ => exact nomatch hmore.symm.trans hdone
  | found _ _ =>
    unfold keepPath at hdone ⊢
    dsimp only at hdone ⊢
    split
    · exact ⟨_, rfl⟩
    · rename_i hkeep
      rw [if_neg hkeep] at hdone
      exact nomatch hdone

/-- With A* the same path is returned. -/
theorem findPath_withAStar_settled {b : Search} {r : Found}
    (honly : hasOption q.nOption optionOnlyAStar = false)
    (hb : forwardStage t q 0 (beginSearch s q) = some b) (hdone : b.bFindMore = false)
    (h : findPath t s q = some r) :
    ∃ r', findPath t s q.withAStar = some r' ∧ r'.ret = r.ret ∧ r'.path = r.path := by
  obtain ⟨b', hb', hrel⟩ := firstStage_withAStar hb
  have honly' : hasOption q.withAStar.nOption optionOnlyAStar = false :=
    (hasOption_or_aStar q.nOption (show 4 ≠ 3 by decide)).trans honly
  obtain ⟨best, hbest⟩ := searchStage_best rfl hb hdone
  rw [findPath_settled honly hb hdone] at h
  rw [findPath_settled honly' hb' (hrel.bFindMore.trans hdone)]
  unfold finish at h ⊢
  rw [hrel.best, hrel.finder.2]
  rw [hbest] at h ⊢
  dsimp only at h ⊢
  obtain rfl := Option.some.inj h
  exact ⟨_, rfl, rfl, rfl⟩

/-! ## The start of a path -/

/-- The start has the middle tag of the window around it. -/
theorem getTileTag_center {p : Point} (hp : s.OnMap p) (harea : 0 < t.maxSearchArea) :
    { s with ptStart := p }.getTileTag t p = some (centralTag t) := by
  have hzero : ∀ x : Int, int32 (int32 (x - x) + (t.maxSearchArea / 2 : Nat)) =
      (t.maxSearchArea / 2 : Nat) := by
    intro x
    have hle := area_le t
    rw [Int.sub_self, show int32 0 = 0 by decide, Int.zero_add]
    apply int32_of_isInt32
    omega
  have hx := hp.x
  have hy := hp.y
  unfold getTileTag
  dsimp only
  rw [hzero, hzero, if_neg (by omega), if_neg (by omega), if_neg (by omega)]
  rfl

/-- The start has a tag in the window around it. -/
def StartTagged (t : Params) (s : PathFinder) (p : Point) : Prop :=
  ∃ i, { s with ptStart := p }.getTileTag t p = some i

/-- A tile with a tag in one window has one in the window around it. -/
theorem startTagged_of_tag {p : Point} {i : Nat} (hp : p.InRange)
    (hwidth : s'.nMapWidth = s.nMapWidth)
    (hheight : s'.nMapHeight = s.nMapHeight) (hi : s'.getTileTag t p = some i) :
    StartTagged t s p := by
  have hon := onMap_of_getTileTag hp hi
  have hlt := getTileTag_lt hi
  have harea : 0 < t.maxSearchArea := by
    apply Nat.pos_of_ne_zero
    intro hzero
    rw [hzero] at hlt
    omega
  exact ⟨_, getTileTag_center ⟨hp, hwidth ▸ hon.x, hheight ▸ hon.y⟩ harea⟩

/-- A search that leaves a nearest tile for `BuildPath` has seen the start on the map. -/
theorem Handed.startTagged {nReverse : Bool} {i : Nat} (h : Handed t q s nReverse s')
    (hf : s.Pure f) (hstart : q.ptStart.InRange) (hend : q.ptEnd.InRange)
    (hne : q.ptStart ≠ q.ptEnd) (hfresh : Fresh t s 5) (hi : s'.pNearestTile = some i) :
    StartTagged t s q.ptStart := by
  have hframe : ∀ {k : Nat} {b : Search}, Stage t q s k b → StageFrame t f q s (5 - k) b :=
    fun hstage => hstage.frame hf hstart hend hfresh (by omega) (by omega)
  cases h with
  | forward hstage hk _ hrun =>
    have hb := hframe hstage
    have hout := forwardSearch_outcome hb.pure hstart (hb.fresh.unused (by omega)) hb.optimize hrun
    obtain ⟨root, -, hroot, -⟩ := hout.hangs i hi
    exact startTagged_of_tag hstart (hout.nMapWidth.trans hb.nMapWidth)
      (hout.nMapHeight.trans hb.nMapHeight) hroot
  | reverse hstage hk _ hrun =>
    -- the nearest tile is the start, which has a tag in the window around the target
    have hb := hframe hstage
    have hout :=
      reverseSearch_outcome hb.pure hstart hend (hb.fresh.unused (by omega)) hb.optimize hrun
    obtain ⟨_, _, -, hhang, hmem⟩ := hout.hangs rfl hne i hi
    have htag := (hhang.placed i hmem).tag
    rw [hout.tip rfl hne i hi] at htag
    exact startTagged_of_tag hstart (hout.nMapWidth.trans hb.nMapWidth)
      (hout.nMapHeight.trans hb.nMapHeight) htag
  | nearest hstage _ _ hrun =>
    have hb := hframe hstage
    have hsearched := findPathCore_searched hb.pure hstart (hb.fresh.unused (by omega)) hrun
    obtain ⟨root, -, hroot, -⟩ := hsearched.hangs i hi
    exact startTagged_of_tag hstart (hsearched.nMapWidth.trans hb.nMapWidth)
      (hsearched.nMapHeight.trans hb.nMapHeight) hroot

/-- Without A* a path begins on the map. -/
theorem findPath_startTagged {r : Found} (hf : s.Pure f) (hstart : q.ptStart.InRange)
    (hend : q.ptEnd.InRange) (hne : q.ptStart ≠ q.ptEnd) (hfresh : Fresh t s 5)
    (hinput : aStarInput t q s = none) (h : findPath t s q = some r) (hret : r.ret = true) :
    StartTagged t s q.ptStart := by
  cases findPath_cases h with
  | inl hastar =>
    obtain ⟨_, hs₁, -⟩ := hastar
    exact nomatch hinput.symm.trans hs₁
  | inr hstages =>
    obtain ⟨-, b, hstage, hfinish⟩ := hstages
    apply hstage.found (P := fun _ => StartTagged t s q.ptStart) hf hstart hend hfresh (by omega)
      (by omega) _ hfinish hret
    intro nReverse s' hhanded tags htags _ htags_ne
    obtain ⟨tip, rest, htip, -⟩ := htags.exists_cons htags_ne
    exact hhanded.startTagged hf hstart hend hne hfresh htip

/-! ## The answer of A* -/

/-- The forward stage leaves the limit of steps as the query set it. -/
theorem forwardStage_nMaxStep {k : Nat} {b b' : Search} (hmax : b.finder.nMaxStep = q.nMaxStep)
    (h : forwardStage t q k b = some b') : b'.finder.nMaxStep = q.nMaxStep := by
  cases searchStage_turn h with
  | settled _ => exact hmax
  | failed _ hrun => exact (forwardSearch_next hrun).nMaxStep.trans hmax
  | found _ hrun =>
    have hkept := (forwardSearch_next hrun).nMaxStep.trans hmax
    unfold keepPath
    dsimp only
    split
    · rfl
    · exact hkept

/-- A* has all the turns of the call. -/
theorem aStarInput_nMaxStep {s₁ : PathFinder} (h : aStarInput t q s = some s₁) :
    s₁.nMaxStep = q.nMaxStep := by
  obtain rfl | ⟨b, hb, rfl⟩ := aStarInput_cases h
  · rfl
  · exact forwardStage_nMaxStep rfl hb

/-- The window of a finder depends on its map and start only. -/
theorem SameMap.window {p : Point} (h : SameMap s s') (r : Point) :
    { s' with ptStart := p }.getTileTag t r = { s with ptStart := p }.getTileTag t r := by
  unfold getTileTag
  dsimp only
  rw [h.nMapWidth, h.nMapHeight]

/-- A* returned before its turns were used up. -/
def AStarSettles (t : Params) (s : PathFinder) (q : Query) : Prop :=
  ∃ s₁ r, aStarInput t q s = some s₁ ∧ findAStar t s₁ q.ptStart q.ptEnd = some r ∧
    r.2.nStepCount ≤ r.2.nMaxStep

/-- The moves of A* lead to the target. -/
def AStarReaches (t : Params) (f : Point → Bool) (s : PathFinder) (q : Query) (p : Point) : Prop :=
  ReflTransGen (AStarMove t f { s with ptStart := q.ptStart }) q.ptStart p

section

variable {s₁ : PathFinder} {r : Found} {r' : Bool × PathFinder} (hf : s₁.Pure f)
  (hunused : Unused t s₁) (hstart : q.ptStart.InRange) (hend : q.ptEnd.InRange)

include hf hunused hstart hend

/-- A path returned after A* has reached the target. -/
theorem aStarPath_last (hr' : findAStar t s₁ q.ptStart q.ptEnd = some r') (htrue : r'.1 = true)
    (h : aStarPath t s₁ q.ptStart q.ptEnd = some r) (hret : r.ret = true) :
    r.path.getLast? = some q.ptEnd := by
  obtain ⟨-, last, hlast, hreached⟩ := aStarPath_endpoints hf hstart hend hunused h hret
  cases hreached with
  | inl heq => exact heq ▸ hlast
  | inr hfailed =>
    obtain ⟨s₂, hs₂⟩ := hfailed
    obtain rfl := Option.some.inj (hr'.symm.trans hs₂)
    exact nomatch htrue

variable (htagged : StartTagged t s₁ q.ptStart) (hreach : AStarReaches t f s₁ q q.ptEnd)

include htagged hreach

/-- With the turns it needs A* reaches the target. -/
theorem findAStar_settled (hr' : findAStar t s₁ q.ptStart q.ptEnd = some r')
    (hle : r'.2.nStepCount ≤ r'.2.nMaxStep) : r'.1 = true := by
  obtain ⟨ret, s₂⟩ := r'
  cases ret with
  | true => rfl
  | false => exact absurd hreach (findAStar_exhausted hf hstart hend hunused hr' hle htagged)

/-- Turns for the square of the number of tiles within reach are enough, and then the way is short
    enough for `BuildPath` too. -/
theorem aStarPath_finds {tiles : Finset Point} (hwithin : ∀ p, AStarReaches t f s₁ q p → p ∈ tiles)
    (hint : s₁.nMaxStep < 2147483648) (hmax : (tiles.card * tiles.card : Nat) ≤ s₁.nMaxStep)
    (hlen : tiles.card < t.maxPathLen) (h : aStarPath t s₁ q.ptStart q.ptEnd = some r) :
    r.ret = true ∧ r.path.getLast? = some q.ptEnd := by
  obtain ⟨r', hr', hbuilt⟩ := Option.bind_eq_some_iff.1 h
  obtain ⟨root, hroot⟩ := htagged
  have hitems : Within t f { s₁ with ptStart := q.ptStart } q.ptStart
      (tiles.image fun p => ({ s₁ with ptStart := q.ptStart }.getTileTag t p).getD 0) := by
    intro p i hp hi
    exact Finset.mem_image.2 ⟨p, hwithin p hp, by rw [hi]; rfl⟩
  have hcard : (tiles.image fun p =>
      ({ s₁ with ptStart := q.ptStart }.getTileTag t p).getD 0).card ≤ tiles.card :=
    Finset.card_image_le
  have hsquare := Nat.mul_le_mul hcard hcard
  -- the square of a larger number does not fit into an `int`
  have hsmall : tiles.card ≤ 65535 := by
    by_contra hlarge
    have hhuge : 65536 * 65536 ≤ tiles.card * tiles.card :=
      Nat.mul_le_mul (by omega) (by omega)
    omega
  obtain ⟨htrue, tags, htags, hlength⟩ := findAStar_finds hf hstart hend hunused hroot hreach hitems
    (by omega) (by omega) hr'
  have hret : r.ret = true := by
    obtain ⟨-, tag, -, hnear⟩ := (findAStar_result hf hstart hend hunused hr').found htrue
    have hbuild : (r'.2.buildPath t 0 true false).1 = _ := buildPath_length htags
    have hpos : 0 < tags.length := by
      rw [hnear] at htags
      cases htags with
      | cons _ => exact Nat.succ_pos _
    rw [if_pos (by omega)] at hbuild
    obtain rfl := Option.some.inj hbuilt
    exact decide_eq_true (hbuild ▸ hpos)
  exact ⟨hret, aStarPath_last hf hunused hstart hend hr' htrue h hret⟩

end

/-! ## FindPath -/

/-- What A* reaches depends on the map only, -/
theorem SameMap.aStarReaches {p : Point} (h : SameMap s s') :
    AStarReaches t f s' q p ↔ AStarReaches t f s q p := by
  unfold AStarReaches
  rw [aStarMove_congr h.window]

/-- and so does whether the start has a tag. -/
theorem SameMap.startTagged {p : Point} (h : SameMap s s') (hs : StartTagged t s p) :
    StartTagged t s' p :=
  hs.imp fun _ hi => (h.window p).trans hi

/-- When A* does not lose a path.  If the first search settles the call, the path is the one
    returned without A*.  Else the answer is that of A*, and if its moves lead to the target, a
    path returned ends there as long as the turns are not used up; that there are enough, and that
    a path is returned, is certain when they are as many as the square of the number of tiles within
    reach and all these fit into a path. -/
theorem findPath_withAStar (t : Params) (f : Point → Bool) (s : PathFinder) (q : Query) (r : Found)
    (hf : s.Pure f) (hfresh : Fresh t s 5) (hstart : q.ptStart.InRange) (hend : q.ptEnd.InRange)
    (hne : q.ptStart ≠ q.ptEnd) (hint : q.nMaxStep < 2147483648)
    (hastar : hasOption q.nOption optionAStar = false)
    (honly : hasOption q.nOption optionOnlyAStar = false) (h : findPath t s q = some r)
    (hret : r.ret = true) (hlast : r.path.getLast? = some q.ptEnd) :
    ∃ b r', forwardStage t q 0 (beginSearch s q) = some b ∧ findPath t s q.withAStar = some r' ∧
      (b.bFindMore = false → r'.ret = true ∧ r'.path = r.path ∧
        r'.path.getLast? = some q.ptEnd) ∧
      (b.bFindMore = true → AStarReaches t f s q q.ptEnd →
        (AStarSettles t s q.withAStar → r'.ret = true → r'.path.getLast? = some q.ptEnd) ∧
        ∀ tiles : Finset Point, (∀ p, AStarReaches t f s q p → p ∈ tiles) →
          (tiles.card * tiles.card : Nat) ≤ q.nMaxStep → tiles.card < t.maxPathLen →
            r'.ret = true ∧ r'.path.getLast? = some q.ptEnd) := by
  obtain ⟨b, hb⟩ := findPath_first honly h
  apply Exists.intro b
  match hmore : b.bFindMore with
  | false =>
    obtain ⟨r', hr', hret', hpath⟩ := findPath_withAStar_settled honly hb hmore h
    refine ⟨r', hb, hr', fun _ => ⟨hret'.trans hret, hpath, ?_⟩, fun hmore => nomatch hmore⟩
    rw [hpath]
    exact hlast
  | true =>
    -- A* begins where the first search has ended
    obtain ⟨b', hb', hrel⟩ := firstStage_withAStar hb
    have honly' : hasOption q.withAStar.nOption optionOnlyAStar = false :=
      (hasOption_or_aStar q.nOption (show 4 ≠ 3 by decide)).trans honly
    have hinput : aStarInput t q.withAStar s = some b'.finder := by
      unfold aStarInput
      rw [if_neg (Bool.eq_false_iff.1 honly'), hb']
      dsimp only
      rw [hrel.bFindMore, hmore, show hasOption q.withAStar.nOption optionAStar = true from
        hasOption_aStar q.nOption]
      rfl
    obtain ⟨hmap, hunused⟩ := aStarInput_ready hfresh hinput
    have hf' : b'.finder.Pure f := hmap.blockFunc.trans hf
    have hturns := aStarInput_nMaxStep hinput
    have hmax : b'.finder.nMaxStep = q.nMaxStep := hturns
    have hnone : aStarInput t q s = none := by
      unfold aStarInput
      rw [if_neg (Bool.eq_false_iff.1 honly), hb]
      dsimp only
      rw [hastar, Bool.and_false]
      rfl
    have htagged := findPath_startTagged hf hstart hend hne hfresh hnone h hret
    obtain ⟨r', hr'⟩ := aStarPath_returns (t := t) hf'.answers hstart q.ptEnd
    refine ⟨r', hb, (findPath_of_aStarInput hinput).trans hr', (fun hmore => nomatch hmore), ?_⟩
    intro _ hreach
    have hreach' := hmap.aStarReaches.2 hreach
    constructor
    · rintro ⟨s₁, a, hinput', ha, hle⟩ hret'
      obtain rfl := Option.some.inj (hinput.symm.trans hinput')
      have htrue := findAStar_settled hf' hunused hstart hend (hmap.startTagged htagged) hreach' ha
        hle
      exact aStarPath_last hf' hunused hstart hend ha htrue hr' hret'
    · intro tiles hwithin hsquare hlen
      rw [← hmax] at hint hsquare
      exact aStarPath_finds hf' hunused hstart hend (hmap.startTagged htagged) hreach'
        (fun p hp => hwithin p (hmap.aStarReaches.1 hp)) hint hsquare hlen hr'

/-- The tiles of a map of four by four that are not blocked. -/
def freeTiles (tiles : List Point) : Finset Point :=
  ((Finset.range 4 ×ˢ Finset.range 4).image fun c => (⟨(c.1 : Nat), (c.2 : Nat)⟩ : Point)).filter
    fun p => ¬ Blocked (blockedAt tiles) p

/-- A* reaches only the free tiles of the small map. -/
theorem mem_freeTiles {tiles : List Point} {p : Point} (hstart : q.ptStart ∈ freeTiles tiles)
    (h : AStarReaches smallParams (blockedAt tiles) (smallMap tiles) q p) :
    p ∈ freeTiles tiles := by
  cases h with
  | refl => exact hstart
  | tail _ hmove =>
    -- a tile moved to has a tag, so it is one of the sixteen
    obtain ⟨i, hi⟩ := hmove.tagged
    obtain ⟨hx, hy⟩ := getTileTag_inside hi
    have hsize : (smallMap tiles).nMapWidth = 4 ∧ (smallMap tiles).nMapHeight = 4 := ⟨rfl, rfl⟩
    rw [hsize.1] at hx
    rw [hsize.2] at hy
    apply Finset.mem_filter.2
    refine ⟨Finset.mem_image.2 ⟨(p.x.toNat, p.y.toNat), ?_, ?_⟩, hmove.free⟩
    · rw [Finset.mem_product, Finset.mem_range, Finset.mem_range]
      dsimp only
      omega
    · apply Point.ext
      · exact Int.toNat_of_nonneg hx.1
      · exact Int.toNat_of_nonneg hy.1

/-- Where the first search fails A* comes to the target, with turns for the fourteen free tiles. -/
theorem findPath_withAStar_detour :
    ∃ r', findPath smallParams (smallMap [⟨0, 1⟩, ⟨2, 1⟩])
        (Query.withAStar ⟨⟨0, 0⟩, ⟨3, 1⟩, 0, 256⟩) = some r' ∧
      r'.ret = true ∧ r'.path.getLast? = some ⟨3, 1⟩ := by
  -- the path without A*, that it is not complete at once, and that A* finds the target
  have hret : (findPath smallParams (smallMap [⟨0, 1⟩, ⟨2, 1⟩]) ⟨⟨0, 0⟩, ⟨3, 1⟩, 0, 256⟩).map
      (fun r => (r.ret, r.path.getLast?)) = some (true, some ⟨3, 1⟩) := by
    decide +kernel
  have hmore : (forwardStage smallParams ⟨⟨0, 0⟩, ⟨3, 1⟩, 0, 256⟩ 0
      (beginSearch (smallMap [⟨0, 1⟩, ⟨2, 1⟩]) ⟨⟨0, 0⟩, ⟨3, 1⟩, 0, 256⟩)).map Search.bFindMore =
      some true := by
    decide +kernel
  have hfound : (findAStar smallParams (smallMap [⟨0, 1⟩, ⟨2, 1⟩]) ⟨0, 0⟩ ⟨3, 1⟩).map Prod.fst =
      some true := by
    decide +kernel
  have hstart : Point.InRange ⟨0, 0⟩ := ⟨by decide, by decide⟩
  have hend : Point.InRange ⟨3, 1⟩ := ⟨by decide, by decide⟩
  obtain ⟨r, hrun, hr⟩ := Option.map_eq_some_iff.1 hret
  obtain ⟨hret, hlast⟩ := Prod.mk.inj hr
  obtain ⟨⟨ret, s'⟩, hastar, htrue⟩ := Option.map_eq_some_iff.1 hfound
  obtain rfl : ret = true := htrue
  have hunused : Unused smallParams (smallMap [⟨0, 1⟩, ⟨2, 1⟩]) := fun _ _ h => nomatch h
  have hreach := findAStar_found (smallMap_pure [⟨0, 1⟩, ⟨2, 1⟩]) hstart hend hunused hastar
  obtain ⟨b, r', hb, hr', -, hfallback⟩ := findPath_withAStar smallParams
    (blockedAt [⟨0, 1⟩, ⟨2, 1⟩]) (smallMap [⟨0, 1⟩, ⟨2, 1⟩]) ⟨⟨0, 0⟩, ⟨3, 1⟩, 0, 256⟩ r
    (smallMap_pure [⟨0, 1⟩, ⟨2, 1⟩]) (new_fresh 4 4 _) hstart hend (by decide) (by decide)
    (by decide) (by decide) hrun hret hlast
  rw [hb] at hmore
  -- the fourteen free tiles bound the steps
  have hbound := (hfallback (Option.some.inj hmore) hreach).2 (freeTiles [⟨0, 1⟩, ⟨2, 1⟩])
    (fun p hp => mem_freeTiles (by decide) hp) (by decide) (by decide)
  exact ⟨r', hr', hbound⟩

/-- From a start closed in by two blocked tiles the reversed search leads to the target across a
    corner, and A* nowhere.  And with eight turns A* gets within one tile of a target that the
    reversed search reaches. -/
theorem not_findPath_withAStar :
    (findPath smallParams (smallMap [⟨0, 1⟩, ⟨1, 0⟩]) ⟨⟨0, 0⟩, ⟨2, 2⟩, 0, 16⟩).map
      (fun r => (r.ret, r.path)) = some (true, [⟨0, 0⟩, ⟨1, 1⟩, ⟨2, 2⟩]) ∧
    (findPath smallParams (smallMap [⟨0, 1⟩, ⟨1, 0⟩])
      (Query.withAStar ⟨⟨0, 0⟩, ⟨2, 2⟩, 0, 16⟩)).map (fun r => (r.ret, r.path)) =
      some (false, []) ∧
    (findPath smallParams (smallMap [⟨0, 0⟩, ⟨1, 1⟩]) ⟨⟨0, 2⟩, ⟨1, 0⟩, 0, 8⟩).map
      (fun r => (r.ret, r.path)) =
      some (true, [⟨0, 2⟩, ⟨1, 2⟩, ⟨2, 1⟩, ⟨2, 0⟩, ⟨1, 0⟩]) ∧
    (findPath smallParams (smallMap [⟨0, 0⟩, ⟨1, 1⟩])
      (Query.withAStar ⟨⟨0, 2⟩, ⟨1, 0⟩, 0, 8⟩)).map (fun r => (r.ret, r.path)) =
      some (true, [⟨0, 2⟩, ⟨1, 2⟩, ⟨2, 2⟩, ⟨2, 1⟩, ⟨2, 0⟩]) := by
  decide +kernel

end XGame3.PathFinder
