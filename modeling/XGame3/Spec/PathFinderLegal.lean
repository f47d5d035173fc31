import Mathlib.Data.List.Chain
import XGame3.Spec.PathFinderBuffer
import XGame3.Spec.PathFinderEndpoints
import XGame3.Spec.PathFinderUntested

/-!
# When the returned path is legal

`BuildPath` follows parent pointers, but where a tile was reached by `Around` it may join
it to the tile before the last one, and does not ask `IsBevelBlock` for that step.  Apart
from these shortcuts, from the parents that `ConnectDirect` and `FindPath` itself set before
a test, and from a blocked target that a reversed search begins at, every returned path is
legal.

Key results:
- `traced_corners_iff`: a trace cuts no corner if neither the links nor the shortcuts that
  stay in it do
- `findPath_legal`: a path returned without A* is legal if all that was assigned without a
  test is harmless
-/

namespace XGame3.PathFinder

open FixedInt ParentChain

variable {t : Params} {s s' : PathFinder} {f : Point → Bool} {q : Query}

/-! ## The steps of a trace -/

/-- The next tile takes the place of the first point. -/
def takesPlace (t : Params) (s : PathFinder) (tag : Nat) : List Point → Bool
  | _ :: q₂ :: _ => (s.tileTags tag).bAround != 0 && isNear q₂ (s.tileToPoint t tag)
  | _ => false

/-- What the next tile is put in front of. -/
def behind (t : Params) (s : PathFinder) (tag : Nat) (acc : List Point) : List Point :=
  if takesPlace t s tag acc then acc.tail else acc

/-- A shortcut keeps the tile and what lies behind it, -/
theorem shortcut_eq_behind {tag : Nat} {acc : List Point} :
    shortcut true (s.tileTags tag).bAround (s.tileToPoint t tag) acc =
      s.tileToPoint t tag :: behind t s tag acc := by
  unfold behind takesPlace
  cases acc with
  | nil => rfl
  | cons q₁ rest =>
    cases rest with
    | nil => rfl
    | cons q₂ rest =>
      rw [shortcut_cons_cons]
      simp only [Bool.and_eq_true, bne_iff_ne, true_and, List.tail_cons]
      split <;> rfl

/-- which gives the traced points one tag at a time. -/
theorem traced_cons {tag : Nat} {tags : List Nat} {acc : List Point} :
    traced t s true (tag :: tags) acc =
      traced t s true tags (s.tileToPoint t tag :: behind t s tag acc) := by
  rw [traced, shortcut_eq_behind]

/-- The next tile takes the place of the one put in front last. -/
def undone (t : Params) (s : PathFinder) (acc : List Point) : List Nat → Bool
  | [] => false
  | tag :: _ => takesPlace t s tag acc

/-- The steps that stay in the path and were made by a shortcut, or else by a link, cut no
    corner. -/
def stepsSafe (t : Params) (f : Point → Bool) (s : PathFinder) (byShortcut : Bool) :
    List Nat → List Point → Prop
  | [], _ => True
  | tag :: tags, acc =>
    (takesPlace t s tag acc = byShortcut →
      undone t s (s.tileToPoint t tag :: behind t s tag acc) tags = false →
      ∀ p ∈ (behind t s tag acc).head?, ¬ CutsCorner f (s.tileToPoint t tag) p) ∧
    stepsSafe t f s byShortcut tags (s.tileToPoint t tag :: behind t s tag acc)

/-- A trace cuts no corner if neither the links nor the shortcuts that stay do. -/
theorem traced_corners_iff {tags : List Nat} {acc : List Point} :
    (traced t s true tags acc).IsChain (fun p q => ¬ CutsCorner f p q) ↔
      (if undone t s acc tags then acc.tail else acc).IsChain (fun p q => ¬ CutsCorner f p q) ∧
        stepsSafe t f s true tags acc ∧ stepsSafe t f s false tags acc := by
  induction tags generalizing acc with
  | nil => simp [traced, undone, stepsSafe]
  | cons tag tags ih =>
    have hbehind : (if undone t s acc (tag :: tags) then acc.tail else acc) = behind t s tag acc :=
      rfl
    rw [traced_cons, ih, hbehind, stepsSafe, stepsSafe]
    -- the step to the tile is in the path unless the next one takes its place
    cases undone t s (s.tileToPoint t tag :: behind t s tag acc) tags with
    | true => simp
    | false =>
      have hchain : (if false = true then (s.tileToPoint t tag :: behind t s tag acc).tail
          else s.tileToPoint t tag :: behind t s tag acc).IsChain (fun p q => ¬ CutsCorner f p q) ↔
          (∀ p ∈ (behind t s tag acc).head?, ¬ CutsCorner f (s.tileToPoint t tag) p) ∧
            (behind t s tag acc).IsChain fun p q => ¬ CutsCorner f p q := List.isChain_cons
      rw [hchain]
      cases takesPlace t s tag acc with
      | true =>
        simp only [forall_const, reduceCtorEq, false_implies, true_and]
        tauto
      | false =>
        simp only [forall_const, reduceCtorEq, false_implies, true_and]
        tauto

/-- What lies behind a tile was there before. -/
theorem mem_behind {tag : Nat} {acc : List Point} {p : Point} (h : p ∈ behind t s tag acc) :
    p ∈ acc := by
  unfold behind at h
  split at h
  · exact List.mem_of_mem_tail h
  · exact h

/-- Every point of a trace is that of a tag traced. -/
theorem mem_traced {tags : List Nat} {acc : List Point} {p : Point}
    (h : p ∈ traced t s true tags acc) : p ∈ acc ∨ ∃ tag ∈ tags, s.tileToPoint t tag = p := by
  induction tags generalizing acc with
  | nil => exact .inl h
  | cons tag tags ih =>
    rw [traced_cons] at h
    cases ih h with
    | inl hmem =>
      cases List.mem_cons.1 hmem with
      | inl heq => exact .inr ⟨tag, List.mem_cons_self, heq.symm⟩
      | inr hold => exact .inl (mem_behind hold)
    | inr hlater =>
      obtain ⟨i, hi, hp⟩ := hlater
      exact .inr ⟨i, List.mem_cons_of_mem tag hi, hp⟩

/-- Where no parent lies across a corner, no link of the trace does. -/
theorem stepsSafe_links {tags : List Nat} {acc : List Point}
    (hlinks : tags.IsChain fun a p => ¬ CutsCorner f (s.tileToPoint t p) (s.tileToPoint t a))
    (hhead : ∀ a ∈ tags.head?, ∀ p ∈ acc.head?, ¬ CutsCorner f (s.tileToPoint t a) p) :
    stepsSafe t f s false tags acc := by
  induction tags generalizing acc with
  | nil => trivial
  | cons tag tags ih =>
    obtain ⟨hnext, hlinks⟩ := List.isChain_cons.1 hlinks
    constructor
    · intro hlink _ p hp
      have hbehind : behind t s tag acc = acc := by simp [behind, hlink]
      rw [hbehind] at hp
      exact hhead tag rfl p hp
    · apply ih hlinks
      intro a ha p hp
      obtain rfl := Option.some.inj hp
      exact hnext a ha

section

variable {nBufSize n : Nat} {nReverse : Bool} {buf : Nat → Point} {tag : Nat}

/-- The condition of the shortcut in `BuildPath`. -/
theorem takesPlace_stored : takesPlace t s tag (stored nBufSize nReverse buf n) = true ↔
    (s.tileTags tag).bAround ≠ 0 ∧ n ≥ 2 ∧
      isNear (buf (pathIndex nBufSize nReverse (n - 2))) (s.tileToPoint t tag) = true := by
  rcases n with _ | _ | n
  · simp [stored, takesPlace]
  · simp [stored, takesPlace]
  · simp [stored, takesPlace]

/-- The shortcut leads to the last point but one. -/
theorem head?_behind_stored (h : takesPlace t s tag (stored nBufSize nReverse buf n) = true) :
    (behind t s tag (stored nBufSize nReverse buf n)).head? =
      some (buf (pathIndex nBufSize nReverse (n - 2))) := by
  unfold behind
  rw [if_pos h]
  rcases n with _ | _ | n
  · exact absurd (takesPlace_stored.1 h).2.1 (by decide)
  · exact absurd (takesPlace_stored.1 h).2.1 (by decide)
  · rfl

/-- The turns of `BuildPath` list every shortcut that is taken. -/
theorem stepsSafe_shortcuts {ptStart : Point} {left : Nat} {nearest : Option Nat} {tags : List Nat}
    (htrail : Trail (fun tag => (s.tileTags tag).pParent) nearest tags)
    (hfits : tags.length ≤ left) (hn : n + left ≤ nBufSize)
    (hharmless : ∀ u ∈ buildUntested t s nBufSize nReverse left nearest n buf,
      u.Harmless f ptStart) :
    stepsSafe t f s true tags (stored nBufSize nReverse buf n) := by
  induction left generalizing nearest tags n buf with
  | zero =>
    obtain rfl := List.eq_nil_of_length_eq_zero (Nat.le_zero.1 hfits)
    trivial
  | succ left ih =>
    cases htrail with
    | nil => trivial
    | @cons tag tags htrail =>
      have hlt : n < nBufSize := by omega
      have hlen : tags.length ≤ left := Nat.le_of_succ_le_succ hfits
      have hstored := shortcut_stored nReverse true buf (s.tileToPoint t tag)
        (s.tileTags tag).bAround hlt
      rw [shortcut_eq_behind] at hstored
      simp only [true_and] at hstored
      unfold buildUntested at hharmless
      dsimp only at hharmless
      rw [if_pos hlt] at hharmless
      rw [stepsSafe, takesPlace_stored]
      split at hharmless
      · -- the next tile takes the place of the last
        rename_i hnear
        rw [if_pos hnear] at hstored
        have hwrite := hharmless _ List.mem_cons_self
        constructor
        · intro _ _ p hp
          rw [head?_behind_stored (takesPlace_stored.2 hnear), Option.mem_some_iff] at hp
          subst hp
          exact fun hcut => hwrite (cutsCorner_comm.1 hcut)
        · rw [← hstored]
          exact ih htrail hlen (by omega) fun u hu => hharmless u (List.mem_cons_of_mem _ hu)
      · rename_i hfar
        rw [if_neg hfar] at hstored
        constructor
        · exact fun hnear => absurd hnear hfar
        · rw [← hstored]
          exact ih htrail hlen (by omega) hharmless

end

/-! ## The states handed to BuildPath -/

/-- A search from a tile to itself walks nothing. -/
theorem findPathCore_self {p : Point} {r : Bool × PathFinder} (h : findPathCore t s p p = some r) :
    r.2.pNearestTile = none := by
  have hbody : coreBody t p (p, coreStart t s p p) = some (.inr (true, coreStart t s p p)) := by
    simp [coreBody, approach]
  unfold findPathCore at h
  dsimp only at h
  rw [show (coreStart t s p p).stepsLeft = ((coreStart t s p p).nMaxStep -
    (coreStart t s p p).nStepCount).toNat + 1 from rfl, Loop.run_succ_of_inr hbody] at h
  obtain rfl := Option.some.inj h
  exact (coreStart_begins s p p).pNearestTile

/-- A reversed search from a point to itself walks nowhere. -/
theorem reverseSearch_self {r : Bool × PathFinder} (hq : q.ptStart = q.ptEnd)
    (h : reverseSearch t q s = some r) : r.2.pNearestTile = none := by
  obtain ⟨⟨ret, s₁⟩, hcore, h⟩ := Option.bind_eq_some_iff.1 h
  rw [hq] at hcore
  have hnone : s₁.pNearestTile = none := findPathCore_self hcore
  match ret with
  | true =>
    obtain ⟨s₂, hlink, h⟩ := Option.bind_eq_some_iff.1 h
    obtain ⟨s₃, hoptimize, h⟩ := Option.bind_eq_some_iff.1 h
    obtain rfl := Option.some.inj h
    -- there is nothing to link to, so nothing is linked
    cases linkStart_cases hlink with
    | inl hkeep =>
      obtain ⟨-, rfl⟩ := hkeep
      exact (optimizeCorners_kept hoptimize).pNearestTile.trans hnone
    | inr hsome =>
      obtain ⟨nearest, hnear, -⟩ := hsome
      exact nomatch hnone.symm.trans hnear
  | false =>
    obtain rfl := Option.some.inj h
    exact hnone

/-- Where the search began whose path is stored so. -/
def Query.origin (q : Query) (nReverse : Bool) : Point := if nReverse then q.ptStart else q.ptEnd

/-- A state handed to `BuildPath`: only the two ends of the path can be blocked. -/
structure HandedOutcome (t : Params) (f : Point → Bool) (q : Query) (s : PathFinder)
    (nReverse : Bool) (s' : PathFinder) : Prop where
  nMapWidth : s'.nMapWidth = s.nMapWidth
  nMapHeight : s'.nMapHeight = s.nMapHeight
  hangs : HangsFrom t f s' (fun p => p = q.ptStart ∨ nReverse = false ∧ p = q.ptEnd)
    (q.origin nReverse)

/-- What a search hands to `BuildPath` has one of the outcomes. -/
theorem Handed.outcome {nReverse : Bool} (hf : s.Pure f) (hstart : q.ptStart.InRange)
    (hend : q.ptEnd.InRange) (hfresh : Fresh t s 5) (h : Handed t q s nReverse s') :
    HandedOutcome t f q s nReverse s' := by
  have hframe : ∀ {k : Nat} {b : Search}, Stage t q s k b → StageFrame t f q s (5 - k) b :=
    fun hstage => hstage.frame hf hstart hend hfresh (by omega) (by omega)
  cases h with
  | forward hstage hk _ hrun =>
    have hb := hframe hstage
    have hout := forwardSearch_outcome hb.pure hstart (hb.fresh.unused (by omega)) hb.optimize hrun
    constructor
    · exact hout.nMapWidth.trans hb.nMapWidth
    · exact hout.nMapHeight.trans hb.nMapHeight
    · exact hout.hangs.exempt fun _ hp => .inl hp
  | reverse hstage hk _ hrun =>
    have hb := hframe hstage
    have hout :=
      reverseSearch_outcome hb.pure hstart hend (hb.fresh.unused (by omega)) hb.optimize hrun
    have hends : ∀ i, s'.pNearestTile = some i → q.ptStart ≠ q.ptEnd := fun i hi heq =>
      nomatch (reverseSearch_self heq hrun).symm.trans hi
    constructor
    · exact hout.nMapWidth.trans hb.nMapWidth
    · exact hout.nMapHeight.trans hb.nMapHeight
    · intro i hi
      exact (hout.hangs rfl (hends i hi)).exempt (fun _ hp => hp.symm.imp_right fun hp => ⟨rfl, hp⟩)
        i hi
  | nearest hstage _ _ hcore =>
    -- the corners are not connected here
    have hb := hframe hstage
    have hsearched := findPathCore_searched hb.pure hstart (hb.fresh.unused (by omega)) hcore
    constructor
    · exact hsearched.nMapWidth.trans hb.nMapWidth
    · exact hsearched.nMapHeight.trans hb.nMapHeight
    · exact hsearched.hangs.exempt fun _ hp => .inl hp

/-! ## Legal paths -/

/-- Apart from `ptStart` every point is a free tile of the map, and consecutive points are
    neighbours with no corner cut between them. -/
structure LegalPath (f : Point → Bool) (nMapWidth nMapHeight : Nat) (ptStart : Point)
    (path : List Point) : Prop where
  inside : ∀ p ∈ path, p ≠ ptStart → (0 ≤ p.x ∧ p.x < nMapWidth) ∧ 0 ≤ p.y ∧ p.y < nMapHeight
  free : ∀ p ∈ path, p ≠ ptStart → ¬ Blocked f p
  near : path.IsChain Neighbour
  corners : path.IsChain fun p q => ¬ CutsCorner f p q

/-- Reversing a path keeps its points. -/
theorem mem_ordered {nReverse : Bool} {points : List Point} {p : Point} :
    p ∈ ordered nReverse points ↔ p ∈ points := by
  unfold ordered
  split
  · exact Iff.rfl
  · exact List.mem_reverse

/-- The order of the points does not matter for a relation that goes both ways. -/
theorem isChain_ordered {R : Point → Point → Prop} (hsymm : ∀ p q, R p q → R q p) {nReverse : Bool}
    {points : List Point} : (ordered nReverse points).IsChain R ↔ points.IsChain R := by
  have hswap : (fun p q => R q p) = R := by
    funext p q
    exact propext ⟨hsymm q p, hsymm p q⟩
  unfold ordered
  split
  · exact Iff.rfl
  · rw [List.isChain_reverse, hswap]

/-- Every point of the returned path is the tile of some tag of the chain. -/
theorem mem_ordered_traced {nReverse : Bool} {tags : List Nat} {p : Point}
    (h : p ∈ ordered nReverse (traced t s true tags [])) :
    ∃ tag ∈ tags, s.tileToPoint t tag = p := by
  cases mem_traced (mem_ordered.1 h) with
  | inl hnil => exact absurd hnil List.not_mem_nil
  | inr htag => exact htag

section

variable {nReverse : Bool} {tags : List Nat} (h : HandedOutcome t f q s nReverse s')
  (htrail : Trail (fun tag => (s'.tileTags tag).pParent) s'.pNearestTile tags)

include h htrail

/-- All tags of the chain hang from the tile the search began at. -/
theorem HandedOutcome.hanging (hne : tags ≠ []) : ∃ root hanging,
    Hanging t f s' (fun p => p = q.ptStart ∨ nReverse = false ∧ p = q.ptEnd) root hanging ∧
      ∀ i ∈ tags, hanging i := by
  obtain ⟨tip, rest, htip, -⟩ := htrail.exists_cons hne
  obtain ⟨root, hanging, -, hhang, hmem⟩ := h.hangs tip htip
  refine ⟨root, hanging, hhang, htrail.forall_mem ?_ fun i j hi hj => (hhang.parent i hi j hj).1⟩
  exact fun i hi => Option.some.inj (htip.symm.trans hi) ▸ hmem

/-- Every point is a tile of the map, and each is a neighbour of the next. -/
theorem HandedOutcome.inside_near (hne : tags ≠ []) :
    (∀ p ∈ ordered nReverse (traced t s' true tags []),
      (0 ≤ p.x ∧ p.x < s.nMapWidth) ∧ 0 ≤ p.y ∧ p.y < s.nMapHeight) ∧
    (ordered nReverse (traced t s' true tags [])).IsChain Neighbour := by
  obtain ⟨root, hanging, hhang, htags⟩ := h.hanging htrail hne
  constructor
  · intro p hp
    -- every point is the tile of a tag inside the window
    obtain ⟨i, hi, rfl⟩ := mem_ordered_traced hp
    rw [← h.nMapWidth, ← h.nMapHeight]
    exact getTileTag_inside (hhang.placed i (htags i hi)).tag
  · apply (isChain_ordered fun _ _ hn => hn.symm).2
    -- two points beside each other are a link, or what a shortcut left beside each other
    apply traced_neighbours
    · exact fun i hi => getTileTag_lt (hhang.placed i (htags i hi)).tag
    · apply htrail.isChain.imp_of_mem_imp
      intro a p ha _ hparent
      exact (hhang.parent a (htags a ha) p hparent).2
    · exact htrail.nodup
    · exact .nil
    · simp
    · simp

/-- The only point that may be blocked is the target, where a reversed search began. -/
theorem HandedOutcome.free (hne : tags ≠ []) (htarget : nReverse = false → ¬ Blocked f q.ptEnd) :
    ∀ p ∈ ordered nReverse (traced t s' true tags []), p ≠ q.ptStart → ¬ Blocked f p := by
  obtain ⟨root, hanging, hhang, htags⟩ := h.hanging htrail hne
  intro p hp hps
  obtain ⟨i, hi, rfl⟩ := mem_ordered_traced hp
  cases hhang.free i (htags i hi) with
  | inl hexempt =>
    cases hexempt with
    | inl hs => exact absurd hs hps
    | inr ht => exact ht.2 ▸ htarget ht.1
  | inr hfree => exact hfree

/-- After harmless assignments no parent on the path lies across a corner. -/
theorem HandedOutcome.links_safe (hne : tags ≠ []) (htested : Tested t f q nReverse s') :
    stepsSafe t f s' false tags [] := by
  obtain ⟨root, hanging, hhang, htags⟩ := h.hanging htrail hne
  obtain ⟨tip, rest, htip, hcons⟩ := htrail.exists_cons hne
  have huncut := htested.uncut tip htip
  have hlink : ∀ i, hanging i → s'.Carries i ∨ s'.pNearestTile = some i →
      ∀ p, (s'.tileTags i).pParent = some p →
        s'.Carries p ∧ ¬ CutsCorner f (s'.tileToPoint t p) (s'.tileToPoint t i) := by
    intro i hi hpassed
    have hplaced := (hhang.placed i hi).tag
    apply huncut i (getTileTag_lt hplaced) hpassed
    -- a blocked tile is the start, since the target was tested
    intro hblocked
    cases hhang.free i hi with
    | inl hexempt =>
      cases hexempt with
      | inl hs => exact hs ▸ hplaced
      | inr ht => exact absurd (ht.2 ▸ hblocked) (htested.target ht.1)
    | inr hfree => exact absurd hblocked hfree
  -- every tag of the chain hangs, and all but the last are passed by a later one
  have hpassed : ∀ i ∈ tags, hanging i ∧ (s'.Carries i ∨ s'.pNearestTile = some i) := by
    apply htrail.forall_mem (P := fun i => hanging i ∧ (s'.Carries i ∨ s'.pNearestTile = some i))
    · intro i hi
      obtain rfl := Option.some.inj (htip.symm.trans hi)
      exact ⟨htags tip (hcons ▸ List.mem_cons_self), .inr hi⟩
    · intro i p ⟨hi, hpass⟩ hp
      exact ⟨(hhang.parent i hi p hp).1, .inl (hlink i hi hpass p hp).1⟩
  -- so each two neighbours on it are a tested link
  apply stepsSafe_links
  · apply htrail.isChain.imp_of_mem_imp
    intro i p hi _ hp
    exact (hlink i (hpassed i hi).1 (hpassed i hi).2 p hp).2
  · simp

/-- A path from a handed state is legal if nothing that was assigned without a test did harm. -/
theorem HandedOutcome.legal (hfits : tags.length < t.maxPathLen) (hne : tags ≠ [])
    (htested : Tested t f q nReverse s') :
    LegalPath f s.nMapWidth s.nMapHeight q.ptStart
      (ordered nReverse (traced t s' true tags [])) := by
  obtain ⟨hinside, hnear⟩ := h.inside_near htrail hne
  constructor
  · exact fun p hp _ => hinside p hp
  · exact h.free htrail hne htested.target
  · exact hnear
  · have hsymm : ∀ p q, ¬ CutsCorner f p q → ¬ CutsCorner f q p := fun p q hc hc' =>
      hc (cutsCorner_comm.1 hc')
    obtain ⟨k, hshort⟩ := htested.shortcuts
    apply (isChain_ordered hsymm).2
    apply traced_corners_iff.2
    refine ⟨by simp, ?_, h.links_safe htrail hne htested⟩
    exact stepsSafe_shortcuts htrail (Nat.le_of_lt hfits) (Nat.le_of_eq (Nat.zero_add _)) hshort

end

/-! ## FindPath -/

/-- A new path finder has all numbers still to use. -/
theorem new_fresh (nMapWidth nMapHeight : Nat) (blockFunc : Point → Option Bool) :
    Fresh t ((new t).setMapInfo nMapWidth nMapHeight blockFunc) 5 := by
  intro k hk hk5 tag _
  have hold : (((new t).setMapInfo nMapWidth nMapHeight blockFunc).tileTags tag).nFindID = 0 := rfl
  have hfind : ((new t).setMapInfo nMapWidth nMapHeight blockFunc).nFind = 0 := rfl
  omega

/-- A path returned without A* by a new path finder is legal if the target of every reversed
    search that succeeds is free, and no link of `ptStart`, no parent that `ConnectDirect` sets
    before its test and no shortcut leads across a corner onto a tile that a path can enter. -/
theorem findPath_legal (t : Params) (f : Point → Bool) (nMapWidth nMapHeight : Nat) (q : Query)
    (r : Found) (hstart : q.ptStart.InRange) (hend : q.ptEnd.InRange)
    (hastar : hasOption q.nOption optionAStar = false)
    (honly : hasOption q.nOption optionOnlyAStar = false)
    (hharmless : ∀ u ∈ untested t q ((new t).setMapInfo nMapWidth nMapHeight fun p => some (f p)),
      u.Harmless f q.ptStart)
    (h : findPath t ((new t).setMapInfo nMapWidth nMapHeight fun p => some (f p)) q = some r)
    (hret : r.ret = true) : LegalPath f nMapWidth nMapHeight q.ptStart r.path := by
  have hfresh := new_fresh (t := t) nMapWidth nMapHeight fun p => some (f p)
  have hf : ((new t).setMapInfo nMapWidth nMapHeight fun p => some (f p)).Pure f := rfl
  cases findPath_cases h with
  | inl hcall =>
    -- `FindAStar` is not called without its options
    obtain ⟨s₁, hinput, -⟩ := hcall
    unfold aStarInput at hinput
    simp only [honly, hastar, Bool.and_false, Bool.false_eq_true, if_false] at hinput
    split at hinput <;> exact nomatch hinput
  | inr hstages =>
    obtain ⟨-, b, hstage, hfinish⟩ := hstages
    apply hstage.found (P := LegalPath f nMapWidth nMapHeight q.ptStart) hf hstart hend hfresh
      (by omega) (by omega) _ hfinish hret
    intro nReverse s hhanded tags htrail hfits hne
    have htested := handed_tested hf hstart hend hfresh hharmless hhanded
    exact (hhanded.outcome hf hstart hend hfresh).legal htrail hfits hne htested

/-- A search from `(3, 3)` whose corners are connected, and one from the target back to the
    blocked `(2, 0)`: both shortcuts, the parent that the line sets and the link of the start are
    harmless. -/
theorem findPath_legal_walls :
    untested smallParams ⟨⟨3, 3⟩, ⟨0, 0⟩, 3, 16⟩ (smallMap [⟨1, 1⟩, ⟨3, 1⟩, ⟨2, 3⟩]) =
      [.reparent ⟨3, 3⟩ ⟨2, 3⟩, .shortcut ⟨0, 2⟩ ⟨1, 2⟩] ∧
    LegalPath (blockedAt [⟨1, 1⟩, ⟨3, 1⟩, ⟨2, 3⟩]) 4 4 ⟨3, 3⟩
      [⟨3, 3⟩, ⟨3, 2⟩, ⟨2, 2⟩, ⟨1, 2⟩, ⟨0, 2⟩, ⟨0, 1⟩, ⟨0, 0⟩] ∧
    untested smallParams ⟨⟨2, 0⟩, ⟨2, 3⟩, 7, 16⟩
        (smallMap [⟨0, 0⟩, ⟨2, 0⟩, ⟨3, 0⟩, ⟨3, 1⟩, ⟨2, 2⟩, ⟨3, 3⟩]) =
      [.target ⟨2, 3⟩, .startLink ⟨2, 1⟩ ⟨2, 0⟩, .shortcut ⟨2, 0⟩ ⟨1, 1⟩] ∧
    LegalPath (blockedAt [⟨0, 0⟩, ⟨2, 0⟩, ⟨3, 0⟩, ⟨3, 1⟩, ⟨2, 2⟩, ⟨3, 3⟩]) 4 4 ⟨2, 0⟩
      [⟨2, 0⟩, ⟨1, 1⟩, ⟨1, 2⟩, ⟨1, 3⟩, ⟨2, 3⟩] := by
  -- one reparented link and one shortcut, neither across a corner
  have hconnected : untested smallParams ⟨⟨3, 3⟩, ⟨0, 0⟩, 3, 16⟩
      (smallMap [⟨1, 1⟩, ⟨3, 1⟩, ⟨2, 3⟩]) =
        [.reparent ⟨3, 3⟩ ⟨2, 3⟩, .shortcut ⟨0, 2⟩ ⟨1, 2⟩] := by
    decide +kernel
  -- a target beside the start, linked without a test, and one shortcut
  have hreversed : untested smallParams ⟨⟨2, 0⟩, ⟨2, 3⟩, 7, 16⟩
      (smallMap [⟨0, 0⟩, ⟨2, 0⟩, ⟨3, 0⟩, ⟨3, 1⟩, ⟨2, 2⟩, ⟨3, 3⟩]) =
        [.target ⟨2, 3⟩, .startLink ⟨2, 1⟩ ⟨2, 0⟩, .shortcut ⟨2, 0⟩ ⟨1, 1⟩] := by
    decide +kernel
  have hpath : (findPath smallParams (smallMap [⟨1, 1⟩, ⟨3, 1⟩, ⟨2, 3⟩])
      ⟨⟨3, 3⟩, ⟨0, 0⟩, 3, 16⟩).map (fun r => (r.ret, r.path)) =
        some (true, [⟨3, 3⟩, ⟨3, 2⟩, ⟨2, 2⟩, ⟨1, 2⟩, ⟨0, 2⟩, ⟨0, 1⟩, ⟨0, 0⟩]) := by
    decide +kernel
  have hpath' : (findPath smallParams (smallMap [⟨0, 0⟩, ⟨2, 0⟩, ⟨3, 0⟩, ⟨3, 1⟩, ⟨2, 2⟩, ⟨3, 3⟩])
      ⟨⟨2, 0⟩, ⟨2, 3⟩, 7, 16⟩).map (fun r => (r.ret, r.path)) =
        some (true, [⟨2, 0⟩, ⟨1, 1⟩, ⟨1, 2⟩, ⟨1, 3⟩, ⟨2, 3⟩]) := by
    decide +kernel
  -- in both calls the path is legal
  refine ⟨hconnected, ?_, hreversed, ?_⟩
  · obtain ⟨r, hrun, hr⟩ := Option.map_eq_some_iff.1 hpath
    obtain ⟨hret, hpoints⟩ := Prod.mk.inj hr
    rw [← hpoints]
    apply findPath_legal smallParams (blockedAt [⟨1, 1⟩, ⟨3, 1⟩, ⟨2, 3⟩]) 4 4
      ⟨⟨3, 3⟩, ⟨0, 0⟩, 3, 16⟩ r ⟨by decide, by decide⟩ ⟨by decide, by decide⟩ (by decide)
        (by decide)
      _ hrun hret
    exact hconnected ▸ by decide
  · obtain ⟨r, hrun, hr⟩ := Option.map_eq_some_iff.1 hpath'
    obtain ⟨hret, hpoints⟩ := Prod.mk.inj hr
    rw [← hpoints]
    apply findPath_legal smallParams
      (blockedAt [⟨0, 0⟩, ⟨2, 0⟩, ⟨3, 0⟩, ⟨3, 1⟩, ⟨2, 2⟩, ⟨3, 3⟩]) 4 4 ⟨⟨2, 0⟩, ⟨2, 3⟩, 7, 16⟩ r
      ⟨by decide, by decide⟩ ⟨by decide, by decide⟩ (by decide) (by decide) _ hrun hret
    exact hreversed ▸ by decide

/-- Around a single tile a shortcut cuts the corner that the links went around, and a reversed
    search enters a blocked target. -/
theorem not_findPath_legal :
    (findPath smallParams (smallMap [⟨0, 1⟩]) ⟨⟨0, 0⟩, ⟨0, 2⟩, 0, 16⟩).map
      (fun r => (r.ret, r.path)) = some (true, [⟨0, 0⟩, ⟨1, 0⟩, ⟨1, 1⟩, ⟨0, 2⟩]) ∧
    ¬ LegalPath (blockedAt [⟨0, 1⟩]) 4 4 ⟨0, 0⟩ [⟨0, 0⟩, ⟨1, 0⟩, ⟨1, 1⟩, ⟨0, 2⟩] ∧
    (findPath smallParams (smallMap [⟨1, 0⟩]) ⟨⟨0, 0⟩, ⟨1, 0⟩, 0, 16⟩).map
      (fun r => (r.ret, r.path)) = some (true, [⟨0, 0⟩, ⟨1, 0⟩]) ∧
    ¬ LegalPath (blockedAt [⟨1, 0⟩]) 4 4 ⟨0, 0⟩ [⟨0, 0⟩, ⟨1, 0⟩] := by
  have hcut : ¬ [⟨0, 0⟩, ⟨1, 0⟩, ⟨1, 1⟩, ⟨0, 2⟩].IsChain
      fun p q => ¬ CutsCorner (blockedAt [⟨0, 1⟩]) p q := by decide
  have hblocked : Blocked (blockedAt [⟨1, 0⟩]) ⟨1, 0⟩ := by decide
  refine ⟨by decide +kernel, fun hlegal => hcut hlegal.corners, by decide +kernel, ?_⟩
  intro hlegal
  exact hlegal.free ⟨1, 0⟩ (by simp) (by decide) hblocked

end XGame3.PathFinder
