import XGame3.ForStd.ParentChain
import XGame3.Native.PathFinder
import XGame3.Spec.PathFinderMoves

/-!
# What BuildPath builds

`BuildPath` writes into a fixed buffer from either end.  Read back from the end it is
writing at, the buffer holds a list to which every tile is added in front, `traced`; the
shortcut replaces the first point of that list.

Key results:
- `buildPath_traced`: a path that was built is the trace of the whole chain of parents.
- `segment_eq` / `pathPoints_ordered`: the points `FindPath` returns are that list, or its
  reverse.
-/

namespace XGame3.PathFinder

open FixedInt ParentChain

variable {t : Params} {s : PathFinder} {nBufSize n m : Nat} {nReverse optmize : Bool}
  {buf : Nat → Point} {p : Point}

/-! ## The list in the buffer -/

/-- The `n` points in the buffer, the last one written first. -/
def stored (nBufSize : Nat) (nReverse : Bool) (buf : Nat → Point) : Nat → List Point
  | 0 => []
  | n + 1 => buf (pathIndex nBufSize nReverse n) :: stored nBufSize nReverse buf n

/-- As many points as were stored. -/
@[simp] theorem length_stored : (stored nBufSize nReverse buf n).length = n := by
  induction n with
  | zero => rfl
  | succ n ih => rw [stored, List.length_cons, ih]

/-- No cell is written twice. -/
theorem pathIndex_ne (hn : n < m) (hm : m < nBufSize) :
    pathIndex nBufSize nReverse n ≠ pathIndex nBufSize nReverse m := by
  unfold pathIndex
  split <;> omega

/-- A point behind the stored ones does not change them. -/
theorem stored_update (hn : n ≤ m) (hm : m < nBufSize) :
    stored nBufSize nReverse (Function.update buf (pathIndex nBufSize nReverse m) p) n =
      stored nBufSize nReverse buf n := by
  induction n with
  | zero => rfl
  | succ n ih =>
    rw [stored, stored, ih (by omega), Function.update_of_ne (pathIndex_ne (by omega) hm)]

/-- The next point is put in front. -/
theorem stored_succ_update (hn : n < nBufSize) :
    stored nBufSize nReverse (Function.update buf (pathIndex nBufSize nReverse n) p) (n + 1) =
      p :: stored nBufSize nReverse buf n := by
  rw [stored, stored_update (Nat.le_refl n) hn, Function.update_self]

/-- They stand in the order of their writing, turned round. -/
theorem stored_eq_reverse : stored nBufSize nReverse buf n =
    ((List.range n).map fun i => buf (pathIndex nBufSize nReverse i)).reverse := by
  induction n with
  | zero => rfl
  | succ n ih =>
    rw [stored, ih, List.range_succ, List.map_append, List.reverse_append]
    rfl

/-- `len` points of a buffer from `off` on. -/
def segment (buf : Nat → Point) (off len : Nat) : List Point :=
  (List.range len).map fun i => buf (off + i)

/-- Where a path of `len` points begins in the buffer. -/
def segmentStart (nBufSize : Nat) (nReverse : Bool) (len : Nat) : Nat :=
  if nReverse then nBufSize - len else 0

/-- The traced points in the order in which they are returned. -/
def ordered (nReverse : Bool) (points : List Point) : List Point :=
  if nReverse then points else points.reverse

/-- The path stands in the buffer from the root on, at its end, or from the tip on, at its
    beginning. -/
theorem segment_eq (hn : n ≤ nBufSize) :
    segment buf (segmentStart nBufSize nReverse n) n =
      ordered nReverse (stored nBufSize nReverse buf n) := by
  rw [stored_eq_reverse]
  unfold segment segmentStart ordered pathIndex
  cases nReverse with
  | true =>
    -- reversed, the path lies at the end of the buffer
    simp only [if_true]
    apply List.ext_getElem
    · simp
    · intro i hi _
      simp only [List.length_map, List.length_range] at hi
      simp only [List.getElem_map, List.getElem_range, List.getElem_reverse, List.length_map,
        List.length_range]
      congr 1
      omega
  | false =>
    -- forwards, at its beginning
    simp only [Bool.false_eq_true, if_false, List.reverse_reverse, Nat.zero_add]

/-- The path is read from where `BuildPath` has stored it. -/
theorem pathPoints_ordered {k : Nat} (hn : n ≤ t.maxPathLen) :
    s.pathPoints k (pathOffset t nReverse n) n =
      ordered nReverse (stored t.maxPathLen nReverse (s.pathTemp k) n) :=
  segment_eq hn

/-! ## The trace of a chain -/

/-- The next point is put in front, in place of the first one if it is near the second. -/
def shortcut (optmize : Bool) (bAround : Nat) (p : Point) : List Point → List Point
  | q₁ :: q₂ :: rest =>
    if optmize ∧ bAround ≠ 0 ∧ isNear q₂ p then p :: q₂ :: rest else p :: q₁ :: q₂ :: rest
  | rest => p :: rest

/-- The points of the tags put in front one after the other. -/
def traced (t : Params) (s : PathFinder) (optmize : Bool) : List Nat → List Point → List Point
  | [], acc => acc
  | tag :: tags, acc =>
    traced t s optmize tags (shortcut optmize (s.tileTags tag).bAround (s.tileToPoint t tag) acc)

/-- A point is left out between two that are near each other. -/
theorem shortcut_cons_cons {q₁ q₂ : Point} {rest : List Point} {bAround : Nat} :
    shortcut optmize bAround p (q₁ :: q₂ :: rest) =
      if optmize ∧ bAround ≠ 0 ∧ isNear q₂ p then p :: q₂ :: rest else p :: q₁ :: q₂ :: rest :=
  rfl

/-- Either the list grows by the point, or it takes the place of the first one. -/
theorem shortcut_cases (optmize : Bool) (p : Point) (acc : List Point) (bAround : Nat) :
    shortcut optmize bAround p acc = p :: acc ∨
      ∃ q₁ q₂ rest, acc = q₁ :: q₂ :: rest ∧ isNear q₂ p = true ∧ bAround ≠ 0 ∧
        shortcut optmize bAround p acc = p :: q₂ :: rest := by
  match acc with
  | [] => exact .inl rfl
  | [_] => exact .inl rfl
  | q₁ :: q₂ :: rest =>
    rw [shortcut_cons_cons]
    split
    · rename_i hnear
      exact .inr ⟨q₁, q₂, rest, rfl, hnear.2.2, hnear.2.1, rfl⟩
    · exact .inl rfl

/-- The new point comes first, -/
theorem shortcut_head? (optmize : Bool) (p : Point) (acc : List Point) (bAround : Nat) :
    (shortcut optmize bAround p acc).head? = some p := by
  cases shortcut_cases optmize p acc bAround with
  | inl hgrow => rw [hgrow]; rfl
  | inr hjoin =>
    obtain ⟨_, _, _, -, -, -, heq⟩ := hjoin
    rw [heq]
    rfl

/-- The first point written stays. -/
theorem shortcut_getLast? {acc : List Point} (bAround : Nat) (hacc : acc ≠ []) :
    (shortcut optmize bAround p acc).getLast? = acc.getLast? := by
  cases shortcut_cases optmize p acc bAround with
  | inl hgrow => rw [hgrow, List.getLast?_cons_of_ne_nil hacc]
  | inr hjoin =>
    obtain ⟨_, _, _, hold, -, -, heq⟩ := hjoin
    rw [heq, hold, List.getLast?_cons_cons, List.getLast?_cons_cons]

/-- so the root comes first in the end, -/
theorem traced_head? {tags : List Nat} {root : Nat} {acc : List Point}
    (hroot : tags.getLast? = some root) :
    (traced t s optmize tags acc).head? = some (s.tileToPoint t root) := by
  induction tags generalizing acc with
  | nil => exact nomatch hroot
  | cons tag tags ih =>
    cases tags with
    | nil =>
      rw [← Option.some.inj hroot]
      exact shortcut_head? optmize _ acc _
    | cons tag' tags =>
      rw [List.getLast?_cons_cons] at hroot
      exact ih hroot

/-- and what was last stays last. -/
theorem traced_getLast? {tags : List Nat} {acc : List Point} (hacc : acc ≠ []) :
    (traced t s optmize tags acc).getLast? = acc.getLast? := by
  induction tags generalizing acc with
  | nil => rfl
  | cons tag tags ih =>
    have hne : shortcut optmize (s.tileTags tag).bAround (s.tileToPoint t tag) acc ≠ [] := by
      intro hnil
      have hhead := shortcut_head? optmize (s.tileToPoint t tag) acc (s.tileTags tag).bAround
      rw [hnil] at hhead
      exact nomatch hhead
    rw [traced, ih hne, shortcut_getLast? _ hacc]

/-- The trace of a chain ends with its first tag. -/
theorem traced_tip (tag : Nat) (tags : List Nat) :
    (traced t s optmize (tag :: tags) []).getLast? = some (s.tileToPoint t tag) := by
  rw [traced]
  exact traced_getLast? (List.cons_ne_nil _ _)

/-! ## The loop -/

/-- Where the next point is written and what the list is then. -/
theorem shortcut_stored (nReverse optmize : Bool) (buf : Nat → Point) (p : Point) (bAround : Nat)
    (hn : n < nBufSize) :
    let k := if optmize ∧ bAround ≠ 0 ∧ n ≥ 2 ∧
        isNear (buf (pathIndex nBufSize nReverse (n - 2))) p then n - 1 else n
    stored nBufSize nReverse (Function.update buf (pathIndex nBufSize nReverse k) p) (k + 1) =
      shortcut optmize bAround p (stored nBufSize nReverse buf n) := by
  match n with
  -- the first two points are written without a test
  | 0 =>
    rw [if_neg (fun h => absurd h.2.2.1 (by decide))]
    exact stored_succ_update hn
  | 1 =>
    rw [if_neg (fun h => absurd h.2.2.1 (by decide))]
    exact stored_succ_update hn
  | n + 2 =>
    dsimp only
    have htwo : n + 2 - 2 = n := by omega
    have hone : n + 2 - 1 = n + 1 := by omega
    have hlist : stored nBufSize nReverse buf (n + 2) =
        buf (pathIndex nBufSize nReverse (n + 1)) :: buf (pathIndex nBufSize nReverse n) ::
          stored nBufSize nReverse buf n := rfl
    rw [htwo, hone, hlist, shortcut_cons_cons]
    by_cases hnear : optmize ∧ bAround ≠ 0 ∧ isNear (buf (pathIndex nBufSize nReverse n)) p
    · -- the last point is overwritten
      rw [if_pos ⟨hnear.1, hnear.2.1, by omega, hnear.2.2⟩, if_pos hnear,
        stored_succ_update (by omega)]
      rfl
    · rw [if_neg fun h => hnear ⟨h.1, h.2.1, h.2.2.2⟩, if_neg hnear, stored_succ_update hn]
      rfl

/-- A loop that does not end with length zero has followed the parents to the last before it
    came to its barrier, and traced them. -/
theorem buildLoop_traced {left : Nat} {nearest o : Option Nat} {buf' : Nat → Point}
    (hn : n + left ≤ nBufSize) (hleft : 0 < left ∨ n = 0)
    (h : buildLoop t s nBufSize nReverse optmize left nearest n buf = (m, buf', o)) (hm : 0 < m) :
    ∃ tags, Trail (fun tag => (s.tileTags tag).pParent) nearest tags ∧ tags.length < left ∧
      m ≤ nBufSize ∧ stored nBufSize nReverse buf' m =
        traced t s optmize tags (stored nBufSize nReverse buf n) := by
  induction left generalizing nearest n buf with
  | zero =>
    obtain ⟨rfl, -⟩ := Prod.mk.inj h
    omega
  | succ left ih =>
    unfold buildLoop at h
    match nearest with
    | none =>
      obtain ⟨rfl, hrest⟩ := Prod.mk.inj h
      obtain ⟨rfl, -⟩ := Prod.mk.inj hrest
      exact ⟨[], .nil, Nat.succ_pos left, by omega, rfl⟩
    | some tag =>
      dsimp only at h
      rw [if_pos (show n < nBufSize by omega)] at h
      have hstored := shortcut_stored nReverse optmize buf (s.tileToPoint t tag)
        (s.tileTags tag).bAround (show n < nBufSize by omega)
      dsimp only at hstored
      generalize hk : (if optmize ∧ (s.tileTags tag).bAround ≠ 0 ∧ n ≥ 2 ∧
        isNear (buf (pathIndex nBufSize nReverse (n - 2))) (s.tileToPoint t tag)
        then n - 1 else n) =
        k at h hstored
      have hkn : k ≤ n := by
        rw [← hk]
        split <;> omega
      split at h
      · -- the barrier
        obtain ⟨rfl, -⟩ := Prod.mk.inj h
        omega
      · rename_i hne
        obtain ⟨tags, htags, hfits, hle, heq⟩ := ih (by omega) (.inl (by omega)) h
        exact ⟨tag :: tags, .cons htags, Nat.succ_lt_succ hfits, hle,
          heq.trans (congrArg _ hstored)⟩

/-- A path of positive length is the trace of the whole chain of parents. -/
theorem buildPath_traced {k : Nat} (h : 0 < (s.buildPath t k nReverse optmize).1) :
    ∃ tags, Trail (fun tag => (s.tileTags tag).pParent) s.pNearestTile tags ∧
      tags.length < t.maxPathLen ∧ (s.buildPath t k nReverse optmize).1 ≤ t.maxPathLen ∧
      stored t.maxPathLen nReverse ((s.buildPath t k nReverse optmize).2.pathTemp k)
        (s.buildPath t k nReverse optmize).1 = traced t s optmize tags [] := by
  unfold buildPath at h ⊢
  dsimp only at h ⊢
  generalize hr : buildLoop t s t.maxPathLen nReverse optmize t.maxPathLen s.pNearestTile 0
    (s.pathTemp k) = r at h ⊢
  rw [Function.update_self]
  exact buildLoop_traced (by omega) (.inr rfl) hr h

/-- Without the shortcut the loop counts the tags, unless there are too many for it. -/
theorem buildLoop_length {left : Nat} {nearest : Option Nat} {tags : List Nat}
    (h : Trail (fun tag => (s.tileTags tag).pParent) nearest tags) (hn : n + left = nBufSize)
    (hleft : 0 < left) : (buildLoop t s nBufSize nReverse false left nearest n buf).1 =
      if tags.length < left then n + tags.length else 0 := by
  induction left generalizing nearest tags n buf with
  | zero => omega
  | succ left ih =>
    unfold buildLoop
    cases h with
    | nil => rfl
    | cons htags =>
      rename_i tag tags
      dsimp only
      rw [if_pos (show n < nBufSize by omega), List.length_cons]
      simp only [Bool.false_eq_true, false_and, if_false]
      split
      · -- the barrier
        rename_i hzero
        subst hzero
        rw [if_neg (by omega)]
      · rw [ih htags (by omega) (by omega)]
        split
        · rw [if_pos (by omega)]
          omega
        · rw [if_neg (by omega)]

/-- Without shortcuts every tag of the chain gives a point, if the buffer has one more. -/
theorem buildPath_length {k : Nat} {tags : List Nat}
    (h : Trail (fun tag => (s.tileTags tag).pParent) s.pNearestTile tags) :
    (s.buildPath t k nReverse false).1 =
      if tags.length < t.maxPathLen then tags.length else 0 := by
  unfold buildPath
  dsimp only
  by_cases hpos : 0 < t.maxPathLen
  · rw [buildLoop_length h (Nat.zero_add _) hpos, Nat.zero_add]
  · obtain hzero : t.maxPathLen = 0 := by omega
    rw [hzero]
    rfl

/-- The path is in its buffer. -/
theorem pathPoints_congr {s s' : PathFinder} {k offset : Nat} (h : s'.pathTemp k = s.pathTemp k) :
    s'.pathPoints k offset n = s.pathPoints k offset n := by
  unfold pathPoints
  rw [h]

/-- The points returned for a path of positive length. -/
theorem buildPath_points {k : Nat} (h : 0 < (s.buildPath t k nReverse optmize).1) :
    ∃ tags, Trail (fun tag => (s.tileTags tag).pParent) s.pNearestTile tags ∧
      tags.length < t.maxPathLen ∧ tags ≠ [] ∧
      (s.buildPath t k nReverse optmize).2.pathPoints k
        (pathOffset t nReverse (s.buildPath t k nReverse optmize).1)
        (s.buildPath t k nReverse optmize).1 = ordered nReverse (traced t s optmize tags []) := by
  obtain ⟨tags, htags, hfits, hle, hstored⟩ := buildPath_traced h
  have hne : tags ≠ [] := by
    rintro rfl
    have hlen := congrArg List.length hstored
    rw [length_stored] at hlen
    exact absurd hlen (Nat.pos_iff_ne_zero.1 h)
  exact ⟨tags, htags, hfits, hne, (pathPoints_ordered hle).trans (congrArg _ hstored)⟩

end XGame3.PathFinder
