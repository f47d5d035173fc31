import XGame3.Spec.AStarReachable
import XGame3.Spec.PathFinderStages

/-!
# Where the returned paths begin and end

Every path that `FindPath` returns begins at `ptStart`.  Without A* it ends at `ptEnd` or
beside it, at a tile from which `ptEnd` cannot be entered; with A* it ends at `ptEnd` if
`FindAStar` reached it.

Key results:
- `findPath_endpoints`: both ends of a path returned without the nearest option.
- `not_findPath_reaches`: a path that stops beside a free target.
-/

namespace XGame3.PathFinder

open FixedInt ParentChain

variable {t : Params} {s s' : PathFinder} {f : Point → Bool} {q : Query} {optmize : Bool}

/-! ## The two ends of a trace -/

/-- The trace of a chain begins at its root if only the root is without a parent. -/
theorem traced_root {tags : List Nat} {root : Nat} {P : Nat → Prop}
    (htrail : Trail (fun tag => (s.tileTags tag).pParent) s.pNearestTile tags) (hne : tags ≠ [])
    (hfirst : ∀ i, s.pNearestTile = some i → P i)
    (hstep : ∀ i p, P i → (s.tileTags i).pParent = some p → P p)
    (hroot : ∀ i, P i → (s.tileTags i).pParent = none → i = root) :
    (traced t s optmize tags []).head? = some (s.tileToPoint t root) := by
  have hlast : tags.getLast? = some (tags.getLast hne) := List.getLast?_eq_some_getLast hne
  have hP := htrail.forall_mem hfirst hstep _ (List.getLast_mem hne)
  have heq := hroot _ hP (htrail.getLast?_root hlast)
  rw [heq] at hlast
  exact traced_head? hlast

/-- The traced points of a chain begin at its root -/
theorem HangsFrom.traced_root {exempt : Point → Prop} {p : Point} {tags : List Nat}
    (h : HangsFrom t f s exempt p) (hp : p.InRange)
    (htrail : Trail (fun tag => (s.tileTags tag).pParent) s.pNearestTile tags) (hne : tags ≠ []) :
    (traced t s optmize tags []).head? = some p := by
  obtain ⟨tip, rest, htip, -⟩ := htrail.exists_cons hne
  obtain ⟨root, hanging, hroot, hhang, hmem⟩ := h tip htip
  rw [← tileToPoint_getTileTag hp hroot]
  apply PathFinder.traced_root htrail hne
  · intro i hi
    exact Option.some.inj (htip.symm.trans hi) ▸ hmem
  · exact fun i j hi hj => (hhang.parent i hi j hj).1
  · exact hhang.root

/-- and end at the nearest tile. -/
theorem traced_nearest {tags : List Nat} {tip : Nat}
    (htrail : Trail (fun tag => (s.tileTags tag).pParent) s.pNearestTile tags) (hne : tags ≠ [])
    (htip : s.pNearestTile = some tip) :
    (traced t s optmize tags []).getLast? = some (s.tileToPoint t tip) := by
  obtain ⟨tip', rest, htip', rfl⟩ := htrail.exists_cons hne
  obtain rfl := Option.some.inj (htip.symm.trans htip')
  exact traced_tip tip rest

/-- Both ends of a path. -/
def Endpoints (q : Query) (P : Point → Prop) (path : List Point) : Prop :=
  path.head? = some q.ptStart ∧ ∃ last, path.getLast? = some last ∧ P last

/-- At the target, or beside it where it cannot be entered. -/
def AtEnd (f : Point → Bool) (ptEnd last : Point) : Prop :=
  last = ptEnd ∨ Neighbour last ptEnd ∧ Refused f last ptEnd

/-! ## The searches -/

/-- So the forward search's path has the endpoints it should. -/
theorem ForwardOutcome.endpoints {tags : List Nat} (h : ForwardOutcome t f q s s' true)
    (hstart : q.ptStart.InRange) (hne : q.ptStart ≠ q.ptEnd)
    (htrail : Trail (fun tag => (s'.tileTags tag).pParent) s'.pNearestTile tags)
    (htags : tags ≠ []) :
    Endpoints q (AtEnd f q.ptEnd) (ordered true (traced t s' true tags [])) := by
  obtain ⟨tip, rest, htip, -⟩ := htrail.exists_cons htags
  constructor
  · exact h.hangs.traced_root hstart htrail htags
  · apply Exists.intro (s'.tileToPoint t tip)
    constructor
    · exact traced_nearest htrail htags htip
    · cases h.endsAt rfl hne with
      | inl hnone => exact nomatch htip.symm.trans hnone.1
      | inr hat =>
        obtain ⟨i, hi, hat⟩ := hat
        obtain rfl := Option.some.inj (htip.symm.trans hi)
        exact hat

/-- A reversed search is returned from its tip to its root. -/
theorem ReverseOutcome.endpoints {tags : List Nat} (h : ReverseOutcome t f q s s' true)
    (hend : q.ptEnd.InRange) (hne : q.ptStart ≠ q.ptEnd)
    (htrail : Trail (fun tag => (s'.tileTags tag).pParent) s'.pNearestTile tags)
    (htags : tags ≠ []) :
    Endpoints q (AtEnd f q.ptEnd) (ordered false (traced t s' true tags [])) := by
  obtain ⟨tip, rest, htip, -⟩ := htrail.exists_cons htags
  have htip' : (traced t s' true tags []).getLast? = some (s'.tileToPoint t tip) :=
    traced_nearest htrail htags htip
  have hroot : (traced t s' true tags []).head? = some q.ptEnd :=
    (h.hangs rfl hne).traced_root hend htrail htags
  unfold ordered
  rw [if_neg Bool.false_ne_true]
  constructor
  · rw [List.head?_reverse, htip', h.tip rfl hne tip htip]
  · exact ⟨q.ptEnd, List.getLast?_reverse.trans hroot, .inl rfl⟩

/-- A* from a start inside the map. -/
theorem AStarResult.endpoints {s₁ : PathFinder} {ret : Bool} {tags : List Nat}
    (h : AStarResult t f s₁ q.ptStart q.ptEnd (ret, s')) (hstart : q.ptStart.InRange)
    (hend : q.ptEnd.InRange)
    (htrail : Trail (fun tag => (s'.tileTags tag).pParent) s'.pNearestTile tags)
    (htags : tags ≠ []) :
    Endpoints q (fun last => ret = true → last = q.ptEnd)
      (ordered true (traced t s' false tags [])) := by
  obtain ⟨tip, rest, htip, -⟩ := htrail.exists_cons htags
  match hroot : s₁.getTileTag t q.ptStart with
  -- from outside the map there is no nearest tile, and no path
  | none => exact nomatch htip.symm.trans (h.outside hroot)
  | some root =>
    have htree := h.tree root hroot
    have hpoint : s'.tileToPoint t root = q.ptStart :=
      tileToPoint_getTileTag hstart ((h.same.toSameSearch.getTileTag _).trans hroot)
    constructor
    · rw [← hpoint]
      apply traced_root htrail htags htree.nearest
      · exact fun i j hi hj => (htree.closed i hi).2 j hj
      · exact fun i hi hnone => (htree.closed i hi).1 hnone
    · apply Exists.intro (s'.tileToPoint t tip)
      constructor
      · exact traced_nearest htrail htags htip
      · intro hret
        obtain ⟨-, tag, htag, hnear⟩ := h.found hret
        obtain rfl := Option.some.inj (htip.symm.trans hnear)
        exact tileToPoint_getTileTag hend ((h.same.toSameSearch.getTileTag _).trans htag)

/-! ## FindPath -/

/-- The state in which `FindPath` calls `FindAStar`, if it does. -/
def aStarInput (t : Params) (q : Query) (s : PathFinder) : Option PathFinder :=
  if hasOption q.nOption optionOnlyAStar then
    some (beginSearch s q).finder
  else
    match forwardStage t q 0 (beginSearch s q) with
    | some b => if b.bFindMore && hasOption q.nOption optionAStar then some b.finder else none
    | none => none

/-- A* begins the call, or where the first search has ended. -/
theorem aStarInput_cases {s₁ : PathFinder} (h : aStarInput t q s = some s₁) :
    s₁ = (beginSearch s q).finder ∨
      ∃ b, forwardStage t q 0 (beginSearch s q) = some b ∧ s₁ = b.finder := by
  unfold aStarInput at h
  split at h
  · exact .inl (Option.some.inj h).symm
  · split at h
    · rename_i b hb
      split at h
      · exact .inr ⟨b, hb, (Option.some.inj h).symm⟩
      · exact nomatch h
    · exact nomatch h

/-- A call of A* is the last thing `FindPath` does. -/
theorem findPath_of_aStarInput {s₁ : PathFinder} (h : aStarInput t q s = some s₁) :
    findPath t s q = aStarPath t s₁ q.ptStart q.ptEnd := by
  unfold findPath
  unfold aStarInput at h
  dsimp only
  split at h
  -- A* alone
  · rename_i honly
    rw [if_pos honly]
    obtain rfl := Option.some.inj h
    rfl
  · rename_i honly
    rw [if_neg honly]
    split at h
    -- A* in place of the other stages, after the first search
    · rename_i b hb
      unfold beginSearch at hb
      rw [hb]
      dsimp only [Option.bind_some, bind]
      split at h
      · rename_i hastar
        rw [if_pos hastar]
        obtain rfl := Option.some.inj h
        rfl
      · exact nomatch h
    · exact nomatch h

/-- Either A* is called or the four blocks are run to their end. -/
theorem findPath_cases {r : Found} (h : findPath t s q = some r) :
    (∃ s', aStarInput t q s = some s' ∧ aStarPath t s' q.ptStart q.ptEnd = some r) ∨
    aStarInput t q s = none ∧ ∃ b, Stage t q s 4 b ∧ finish t q b = some r := by
  unfold findPath at h
  unfold aStarInput
  dsimp only at h
  split at h
  · -- A* alone
    rename_i honly
    rw [if_pos honly]
    exact .inl ⟨_, rfl, h⟩
  · rename_i honly
    rw [if_neg honly]
    obtain ⟨b, hb, h⟩ := Option.bind_eq_some_iff.1 h
    have hb' : forwardStage t q 0 (beginSearch s q) = some b := hb
    rw [hb']
    dsimp only
    split at h
    · -- A* after a first search that has failed
      rename_i hastar
      rw [if_pos hastar]
      exact .inl ⟨_, rfl, h⟩
    · rename_i hastar
      rw [if_neg hastar]
      obtain ⟨b₂, h₂, h⟩ := Option.bind_eq_some_iff.1 h
      obtain ⟨b₃, h₃, h⟩ := Option.bind_eq_some_iff.1 h
      obtain ⟨b₄, h₄, h⟩ := Option.bind_eq_some_iff.1 h
      have hstage := Stage.fifth (.fourth (.third (.second .first hb') h₂) h₃) h₄
      exact .inr ⟨rfl, b₄, hstage, h⟩

/-- A path of A*: it ends at the target if A* reached it. -/
theorem aStarPath_endpoints {s₁ : PathFinder} {r : Found} (hf : s₁.Pure f)
    (hstart : q.ptStart.InRange) (hend : q.ptEnd.InRange) (hunused : Unused t s₁)
    (h : aStarPath t s₁ q.ptStart q.ptEnd = some r) (hret : r.ret = true) :
    Endpoints q (fun last => last = q.ptEnd ∨
      ∃ s₂, findAStar t s₁ q.ptStart q.ptEnd = some (false, s₂)) r.path := by
  obtain ⟨⟨ret, s₂⟩, hastar, h⟩ := Option.bind_eq_some_iff.1 h
  obtain rfl := Option.some.inj h
  -- the path is the chain from the nearest tile, unoptimised
  obtain ⟨tags, htags, -, hne, hpoints⟩ := buildPath_points (of_decide_eq_true hret)
  have hresult := findAStar_result hf hstart hend hunused hastar
  obtain ⟨hhead, last, hlast, hreached⟩ := hresult.endpoints hstart hend htags hne
  have hpath : (builtPath t s₂ false).path = ordered true (traced t s₂ false tags []) := hpoints
  rw [hpath]
  apply And.intro hhead
  apply Exists.intro last
  apply And.intro hlast
  -- it ends at the target, or A* found none
  cases ret with
  | true => exact .inl (hreached rfl)
  | false => exact .inr ⟨s₂, hastar⟩

/-- Without the nearest option a path begins at `ptStart`.  It ends at `ptEnd`, or beside it
    where it cannot be entered, or it was built after `FindAStar` had failed. -/
theorem findPath_endpoints (t : Params) (f : Point → Bool) (s : PathFinder) (q : Query) (r : Found)
    (hf : s.Pure f) (hstart : q.ptStart.InRange) (hend : q.ptEnd.InRange)
    (hne : q.ptStart ≠ q.ptEnd) (hoption : hasOption q.nOption optionNearest = false)
    (hfresh : Fresh t s 4) (h : findPath t s q = some r) (hret : r.ret = true) :
    r.path.head? = some q.ptStart ∧ ∃ last, r.path.getLast? = some last ∧
      (last = q.ptEnd ∨
        aStarInput t q s = none ∧ Neighbour last q.ptEnd ∧ Refused f last q.ptEnd ∨
        ∃ s₁ s₂, aStarInput t q s = some s₁ ∧
          findAStar t s₁ q.ptStart q.ptEnd = some (false, s₂)) := by
  have hframe : ∀ {k : Nat} {b : Search}, Stage t q s k b → StageFrame t f q s (4 - k) b :=
    fun hstage => hstage.frame hf hstart hend hfresh (by omega) (Nat.le_refl 4)
  cases findPath_cases h with
  | inl hastar =>
    -- A* alone, or A* after a search that found nothing
    obtain ⟨s₁, hs₁, h⟩ := hastar
    have hpure : s₁.Pure f ∧ Unused t s₁ := by
      obtain rfl | ⟨b, hb, rfl⟩ := aStarInput_cases hs₁
      · exact ⟨hf, hfresh.unused (by omega)⟩
      · have hb := hframe (.second .first hb)
        exact ⟨hb.pure, hb.fresh.unused (by omega)⟩
    obtain ⟨hhead, last, hlast, hreached⟩ :=
      aStarPath_endpoints hpure.1 hstart hend hpure.2 h hret
    exact ⟨hhead, last, hlast, hreached.imp_right fun ⟨s₂, hs₂⟩ => .inr ⟨s₁, s₂, hs₁, hs₂⟩⟩
  | inr hstages =>
    obtain ⟨hnone, b, hstage, hfinish⟩ := hstages
    have hends : Endpoints q (AtEnd f q.ptEnd) r.path := by
      apply hstage.found hf hstart hend hfresh (by omega) (Nat.le_refl 4) _ hfinish hret
      intro nReverse s' hhanded tags htags _ htags_ne
      -- the search whose path is returned
      cases hhanded with
      | forward hstage hk hmore hrun =>
        have hb := hframe hstage
        have hout := forwardSearch_outcome hb.pure hstart (hb.fresh.unused (by omega)) hb.optimize
          hrun
        exact hout.endpoints hstart hne htags htags_ne
      | reverse hstage hk hmore hrun =>
        have hb := hframe hstage
        have hout :=
          reverseSearch_outcome hb.pure hstart hend (hb.fresh.unused (by omega)) hb.optimize hrun
        exact hout.endpoints hend hne htags htags_ne
      | nearest _ _ hnearest _ => exact absurd (hoption.symm.trans hnearest) (by decide)
    obtain ⟨hhead, last, hlast, hat⟩ := hends
    exact ⟨hhead, last, hlast, hat.imp_right fun hbeside => .inl ⟨hnone, hbeside⟩⟩

/-- Around a wall of two tiles both ends are reached. -/
theorem findPath_endpoints_wall :
    ∃ r, findPath smallParams (smallMap [⟨1, 1⟩, ⟨1, 2⟩]) ⟨⟨0, 1⟩, ⟨3, 1⟩, 0, 16⟩ = some r ∧
      r.path.head? = some ⟨0, 1⟩ ∧ r.path.getLast? = some ⟨3, 1⟩ := by
  have hret : (findPath smallParams (smallMap [⟨1, 1⟩, ⟨1, 2⟩]) ⟨⟨0, 1⟩, ⟨3, 1⟩, 0, 16⟩).map
      (fun r => (r.ret, r.path.getLast?)) = some (true, some ⟨3, 1⟩) := by
    decide +kernel
  obtain ⟨r, hrun, hr⟩ := Option.map_eq_some_iff.1 hret
  obtain ⟨hret, hlast⟩ := Prod.mk.inj hr
  have hfresh : Fresh smallParams (smallMap [⟨1, 1⟩, ⟨1, 2⟩]) 4 := by
    intro k hk hk4 tag _
    have hold : ((smallMap [⟨1, 1⟩, ⟨1, 2⟩]).tileTags tag).nFindID = 0 := rfl
    have hfind : (smallMap [⟨1, 1⟩, ⟨1, 2⟩]).nFind = 0 := rfl
    omega
  have hends := findPath_endpoints smallParams _ _ ⟨⟨0, 1⟩, ⟨3, 1⟩, 0, 16⟩ r
    (smallMap_pure [⟨1, 1⟩, ⟨1, 2⟩]) ⟨by decide, by decide⟩ ⟨by decide, by decide⟩ (by decide)
    (by decide) hfresh hrun hret
  exact ⟨r, hrun, hends.1, hlast⟩

/-- A* alone stops at a wall before the target, and without A* a path stops beside a target
    that can only be entered across a corner.  Both targets are free. -/
theorem not_findPath_reaches :
    ¬ Blocked (blockedAt [⟨2, 0⟩, ⟨2, 1⟩, ⟨2, 2⟩, ⟨2, 3⟩]) ⟨3, 0⟩ ∧
    (findPath smallParams (smallMap [⟨2, 0⟩, ⟨2, 1⟩, ⟨2, 2⟩, ⟨2, 3⟩])
      ⟨⟨0, 0⟩, ⟨3, 0⟩, optionOnlyAStar, 16⟩).map (fun r => (r.ret, r.path)) =
      some (true, [⟨0, 0⟩, ⟨1, 0⟩]) ∧
    ¬ Blocked (blockedAt [⟨2, 1⟩]) ⟨2, 2⟩ ∧
    (findPath smallParams (smallMap [⟨2, 1⟩]) ⟨⟨0, 0⟩, ⟨2, 2⟩, 0, 16⟩).map
      (fun r => (r.ret, r.path)) = some (true, [⟨0, 0⟩, ⟨1, 1⟩]) := by
  decide +kernel

end XGame3.PathFinder
