import Mathlib.Data.List.Chain
import XGame3.Native.PathFinder
import XGame3.Spec.PathFinderBuild

/-!
# BuildPath on chains that fit

`buildLoop` writes to a buffer without an end.  `checkedLoop` is the same loop with every
access at the index the source computes and a fault outside the buffer; it never faults.
On a chain of tiles that ends before the closed-loop barrier the loop returns the trace of
the chain, so what is left is what a trace is: without the shortcut all points, with it a
connected part of them.

Key results:
- `checkedLoop_eq`: no access is outside the buffer
- `buildLoop_of_trail`: a chain shorter than the buffer is traced to its end
- `buildInto_whole_iff`: without the shortcut the whole chain is returned unless it fills
  the buffer
- `traced_neighbours`: a trace of neighbours is a list of neighbours, shortcuts or not
- `buildInto_shortcut`: with it, a connected part with the same ends
-/

namespace XGame3.PathFinder

open FixedInt ParentChain

variable {t : Params} {s : PathFinder} {nBufSize n m : Nat} {nReverse optmize : Bool}
  {buf : Nat → Point} {tags : List Nat} {p q : Point}

/-! ## Accesses -/

/-- `pPathBuffer[i]`, a fault outside the buffer. -/
def readBuffer (nBufSize : Nat) (buf : Nat → Point) (i : Int) : Option Point :=
  if 0 ≤ i ∧ i < nBufSize then some (buf i.toNat) else none

/-- `pPathBuffer[i] = p`, a fault outside the buffer. -/
def writeBuffer (nBufSize : Nat) (buf : Nat → Point) (i : Int) (p : Point) :
    Option (Nat → Point) :=
  if 0 ≤ i ∧ i < nBufSize then some (Function.update buf i.toNat p) else none

/-- The loop of `BuildPath` with checked accesses, at the indices the source computes. -/
def checkedLoop (t : Params) (s : PathFinder) (nBufSize : Nat) (nReverse optmize : Bool) :
    Nat → Option Nat → Nat → (Nat → Point) → Option (Nat × (Nat → Point) × Option Nat)
  | 0, pNearestTile, nPathLen, buf => some (nPathLen, buf, pNearestTile)
  | left + 1, pNearestTile, nPathLen, buf =>
    match pNearestTile with
    | none => some (nPathLen, buf, none)
    | some tag =>
      if nPathLen < nBufSize then do
        let ptTile := s.tileToPoint t tag
        let near ← (if optmize ∧ (s.tileTags tag).bAround ≠ 0 ∧ nPathLen ≥ 2 then do
            let ptPreTile ← readBuffer nBufSize buf
              (if nReverse then (nBufSize : Int) - 1 - nPathLen + 2 else (nPathLen : Int) - 2)
            some (isNear ptPreTile ptTile)
          else some false)
        let nPathLen := if near then nPathLen - 1 else nPathLen
        let buf ← writeBuffer nBufSize buf
          (if nReverse then (nBufSize : Int) - 1 - nPathLen else (nPathLen : Int)) ptTile
        if left = 0 then some (0, buf, (s.tileTags tag).pParent)
        else
          checkedLoop t s nBufSize nReverse optmize left (s.tileTags tag).pParent (nPathLen + 1) buf
      else
        some (nPathLen, buf, some tag)

/-- The point two places back is read inside the buffer, -/
theorem readBuffer_eq (hn : n < nBufSize) (htwo : n ≥ 2) :
    readBuffer nBufSize buf
        (if nReverse then (nBufSize : Int) - 1 - n + 2 else (n : Int) - 2) =
      some (buf (pathIndex nBufSize nReverse (n - 2))) := by
  unfold readBuffer pathIndex
  cases nReverse with
  | true =>
    simp only [if_true]
    rw [if_pos (by omega),
      show ((nBufSize : Int) - 1 - n + 2).toNat = nBufSize - 1 - (n - 2) by omega]
  | false =>
    simp only [Bool.false_eq_true, if_false]
    rw [if_pos (by omega), show ((n : Int) - 2).toNat = n - 2 by omega]

/-- and the new point is written inside it. -/
theorem writeBuffer_eq (hn : n < nBufSize) :
    writeBuffer nBufSize buf (if nReverse then (nBufSize : Int) - 1 - n else (n : Int)) p =
      some (Function.update buf (pathIndex nBufSize nReverse n) p) := by
  unfold writeBuffer pathIndex
  cases nReverse with
  | true =>
    simp only [if_true]
    rw [if_pos (by omega), show ((nBufSize : Int) - 1 - n).toNat = nBufSize - 1 - n by omega]
  | false =>
    simp only [Bool.false_eq_true, if_false]
    rw [if_pos (by omega), Int.toNat_natCast]

/-- No access of `BuildPath` is outside its buffer, whatever the parents are. -/
theorem checkedLoop_eq (t : Params) (s : PathFinder) (nBufSize : Nat) (nReverse optmize : Bool)
    (left : Nat) (nearest : Option Nat) (n : Nat) (buf : Nat → Point) :
    checkedLoop t s nBufSize nReverse optmize left nearest n buf =
      some (buildLoop t s nBufSize nReverse optmize left nearest n buf) := by
  induction left generalizing nearest n buf with
  | zero => rfl
  | succ left ih =>
    unfold checkedLoop buildLoop
    cases nearest with
    | none => rfl
    | some tag =>
      dsimp only
      by_cases hn : n < nBufSize
      · rw [if_pos hn, if_pos hn]
        -- the test reads only where two points are stored
        have hnear : (if optmize ∧ (s.tileTags tag).bAround ≠ 0 ∧ n ≥ 2 then
              (readBuffer nBufSize buf (if nReverse then (nBufSize : Int) - 1 - n + 2
                else (n : Int) - 2)).bind fun ptPreTile =>
                  some (isNear ptPreTile (s.tileToPoint t tag))
            else some false) =
            some (decide (optmize ∧ (s.tileTags tag).bAround ≠ 0 ∧ n ≥ 2 ∧
              isNear (buf (pathIndex nBufSize nReverse (n - 2))) (s.tileToPoint t tag))) := by
          by_cases htest : optmize ∧ (s.tileTags tag).bAround ≠ 0 ∧ n ≥ 2
          · rw [if_pos htest, readBuffer_eq hn htest.2.2, Option.bind_some]
            simp [htest.1, htest.2.1, htest.2.2]
          · rw [if_neg htest, decide_eq_false fun h => htest ⟨h.1, h.2.1, h.2.2.1⟩]
        simp only [bind]
        rw [hnear]
        simp only [Option.bind_some, decide_eq_true_iff]
        generalize hk : (if optmize ∧ (s.tileTags tag).bAround ≠ 0 ∧ n ≥ 2 ∧
          isNear (buf (pathIndex nBufSize nReverse (n - 2))) (s.tileToPoint t tag) then n - 1
          else n) = k
        have hkn : k ≤ n := by
          rw [← hk]
          split <;> omega
        rw [writeBuffer_eq (by omega), Option.bind_some]
        by_cases hleft : left = 0
        · rw [if_pos hleft, if_pos hleft]
        · rw [if_neg hleft, if_neg hleft, ih]
      · rw [if_neg hn, if_neg hn]

/-! ## Chains that fit -/

/-- A chain that ends before the closed-loop barrier is traced to its end. -/
theorem buildLoop_of_trail (t : Params) (nReverse optmize : Bool) (buf : Nat → Point) {left : Nat}
    {nearest : Option Nat} (h : Trail (fun tag => (s.tileTags tag).pParent) nearest tags)
    (hn : n + left ≤ nBufSize) (hlen : tags.length < left) :
    ∃ m buf', buildLoop t s nBufSize nReverse optmize left nearest n buf = (m, buf', none) ∧
      stored nBufSize nReverse buf' m =
        traced t s optmize tags (stored nBufSize nReverse buf n) := by
  induction left generalizing nearest tags n buf with
  | zero => omega
  | succ left ih =>
    unfold buildLoop
    cases h with
    | nil => exact ⟨n, buf, rfl, rfl⟩
    | @cons tag tags htags =>
      rw [List.length_cons] at hlen
      dsimp only
      -- the barrier counts tiles, so that a shortcut does not bring it nearer
      rw [if_pos (show n < nBufSize by omega)]
      have hstored := shortcut_stored nReverse optmize buf (s.tileToPoint t tag)
        (s.tileTags tag).bAround (show n < nBufSize by omega)
      dsimp only at hstored
      generalize hk : (if optmize ∧ (s.tileTags tag).bAround ≠ 0 ∧ n ≥ 2 ∧
        isNear (buf (pathIndex nBufSize nReverse (n - 2))) (s.tileToPoint t tag)
        then n - 1 else n) =
        k at hstored ⊢
      have hkn : k ≤ n := by
        rw [← hk]
        split <;> omega
      rw [if_neg (show left ≠ 0 by omega), traced, ← hstored]
      exact ih _ htags (by omega) (by omega)

/-- The traced points are no more than the tags. -/
theorem length_traced_le (t : Params) (s : PathFinder) (optmize : Bool) (tags : List Nat)
    (acc : List Point) : (traced t s optmize tags acc).length ≤ tags.length + acc.length := by
  induction tags generalizing acc with
  | nil => exact Nat.le_of_eq (Nat.zero_add _).symm
  | cons tag tags ih =>
    rw [traced, List.length_cons]
    apply Nat.le_trans (ih _)
    cases shortcut_cases optmize (s.tileToPoint t tag) acc (s.tileTags tag).bAround with
    | inl hgrow =>
      rw [hgrow, List.length_cons]
      omega
    | inr hjoin =>
      obtain ⟨q₁, q₂, rest, hacc, -, -, heq⟩ := hjoin
      rw [heq, hacc]
      simp only [List.length_cons]
      omega

/-- What `BuildPath` returns and stores for a chain that fits. -/
theorem buildInto_of_trail (t : Params) (buf : Nat → Point) (nReverse optmize : Bool)
    (hfit : tags.length < nBufSize)
    (h : Trail (fun tag => (s.tileTags tag).pParent) s.pNearestTile tags) :
    ∃ buf', s.buildInto t buf nBufSize nReverse optmize =
        ((traced t s optmize tags []).length, buf', none) ∧
      segment buf' (segmentStart nBufSize nReverse (traced t s optmize tags []).length)
          (traced t s optmize tags []).length =
        ordered nReverse (traced t s optmize tags []) := by
  -- the loop stores the traced points, from the end the order asks for
  obtain ⟨m, buf', hloop, hstored⟩ := buildLoop_of_trail t nReverse optmize buf h
    (Nat.le_of_eq (Nat.zero_add nBufSize)) hfit
  have hlist : stored nBufSize nReverse buf' m = traced t s optmize tags [] := hstored
  have hm : m = (traced t s optmize tags []).length := by
    rw [← hlist, length_stored]
  have hle : m ≤ nBufSize := by
    have hlen := length_traced_le t s optmize tags []
    simp only [List.length_nil] at hlen
    omega
  refine ⟨buf', ?_, ?_⟩
  · rw [← hm]
    exact hloop
  · rw [← hm, segment_eq hle, hlist]

/-! ## Without the shortcut -/

/-- Without optimising every tile of the chain is kept. -/
theorem traced_false {acc : List Point} :
    traced t s false tags acc = (tags.map (s.tileToPoint t)).reverse ++ acc := by
  induction tags generalizing acc with
  | nil => rfl
  | cons tag tags ih =>
    have hgrow : shortcut false (s.tileTags tag).bAround (s.tileToPoint t tag) acc =
        s.tileToPoint t tag :: acc := by
      cases shortcut_cases false (s.tileToPoint t tag) acc (s.tileTags tag).bAround with
      | inl hgrow => exact hgrow
      | inr hjoin =>
        obtain ⟨q₁, q₂, rest, rfl, -, -, -⟩ := hjoin
        rw [shortcut_cons_cons, if_neg (fun h => Bool.false_ne_true h.1)]
    rw [traced, hgrow, ih, List.map_cons, List.reverse_cons, List.append_assoc]
    rfl

/-- `BuildPath` returns the length of the chain and has stored its points: from the tip on, or
    from the root on at the end of the buffer. -/
def WholeChain (t : Params) (s : PathFinder) (buf : Nat → Point) (nBufSize : Nat) (nReverse : Bool)
    (tags : List Nat) : Prop :=
  (s.buildInto t buf nBufSize nReverse false).1 = tags.length ∧
    segment (s.buildInto t buf nBufSize nReverse false).2.1
        (segmentStart nBufSize nReverse tags.length) tags.length =
      if nReverse then (tags.map (s.tileToPoint t)).reverse else tags.map (s.tileToPoint t)

instance : Decidable (WholeChain t s buf nBufSize nReverse tags) :=
  inferInstanceAs (Decidable (_ ∧ _))

/-- A chain that fills the buffer runs into the closed-loop barrier, as a closed loop does; every
    shorter chain is returned whole. -/
theorem buildInto_whole_iff (t : Params) (s : PathFinder) (buf : Nat → Point) (nBufSize : Nat)
    (nReverse : Bool) (hpos : 0 < nBufSize) :
    (∀ tags, Trail (fun tag => (s.tileTags tag).pParent) s.pNearestTile tags → 1 ≤ tags.length →
      tags.length ≤ nBufSize →
      (WholeChain t s buf nBufSize nReverse tags ↔ tags.length < nBufSize)) ∧
    (Cyclic (fun tag => (s.tileTags tag).pParent) s.pNearestTile →
      (s.buildInto t buf nBufSize nReverse false).1 = 0) := by
  constructor
  · intro tags htags hone _
    constructor
    · intro hwhole
      by_contra hfull
      -- a length of zero is returned
      have hlen : (s.buildInto t buf nBufSize nReverse false).1 = _ :=
        buildLoop_length htags (Nat.zero_add nBufSize) hpos
      rw [if_neg hfull] at hlen
      exact absurd (hwhole.1.symm.trans hlen) (by omega)
    · intro hfit
      obtain ⟨buf', hbuild, hsegment⟩ := buildInto_of_trail t buf nReverse false hfit htags
      rw [traced_false, List.append_nil, List.length_reverse, List.length_map] at hbuild hsegment
      unfold WholeChain
      rw [hbuild]
      refine ⟨rfl, hsegment.trans ?_⟩
      unfold ordered
      split
      · rfl
      · rw [List.reverse_reverse]
  · intro hcyclic
    by_contra hlen
    -- only a chain that ends has a length
    obtain ⟨tags, htags, -⟩ := buildLoop_traced (t := t) (s := s)
      (Nat.le_of_eq (Nat.zero_add nBufSize)) (.inr rfl)
      (show s.buildInto t buf nBufSize nReverse false = (_, _, _) from rfl)
        (Nat.pos_of_ne_zero hlen)
    exact hcyclic.not_trail htags

/-- A straight path of four tiles in a buffer of four points: nothing is returned. -/
theorem not_buildInto_whole : ∃ s', findAStar smallParams (smallMap []) ⟨0, 0⟩ ⟨3, 0⟩ =
      some (true, s') ∧
    ∃ tags, Trail (fun tag => (s'.tileTags tag).pParent) s'.pNearestTile tags ∧ tags.length = 4 ∧
      (s'.buildInto smallParams (s'.pathTemp 0) 4 true false).1 = 0 ∧
      ¬ WholeChain smallParams s' (s'.pathTemp 0) 4 true tags := by
  have hrun : (findAStar smallParams (smallMap []) ⟨0, 0⟩ ⟨3, 0⟩).map (fun r => (r.1,
      (follow (fun tag => (r.2.tileTags tag).pParent) 5 r.2.pNearestTile).length,
      (r.2.buildInto smallParams (r.2.pathTemp 0) 4 true false).1)) = some (true, 4, 0) := by
    decide +kernel
  obtain ⟨⟨ret, s'⟩, hsearch, heq⟩ := Option.map_eq_some_iff.1 hrun
  simp only [Prod.mk.injEq] at heq
  obtain ⟨rfl, hfour, hzero⟩ := heq
  refine ⟨s', hsearch, _, trail_follow (by rw [hfour]; decide), hfour, hzero, ?_⟩
  intro hwhole
  exact absurd (hzero.symm.trans (hwhole.1.trans hfour)) (by decide)

/-- In a buffer of five points they are stored. -/
theorem buildInto_whole_iff_five : ∃ s', findAStar smallParams (smallMap []) ⟨0, 0⟩ ⟨3, 0⟩ =
      some (true, s') ∧
    ∃ tags, tags.length = 4 ∧ WholeChain smallParams s' (s'.pathTemp 0) 5 true tags := by
  have hrun : (findAStar smallParams (smallMap []) ⟨0, 0⟩ ⟨3, 0⟩).map (fun r => (r.1,
      (follow (fun tag => (r.2.tileTags tag).pParent) 5 r.2.pNearestTile).length)) =
      some (true, 4) := by
    decide +kernel
  obtain ⟨⟨ret, s'⟩, hsearch, heq⟩ := Option.map_eq_some_iff.1 hrun
  simp only [Prod.mk.injEq] at heq
  obtain ⟨rfl, hfour⟩ := heq
  have hwhole := (buildInto_whole_iff smallParams s' (s'.pathTemp 0) 5 true (by decide)).1 _
    (trail_follow (by rw [hfour]; decide)) (by rw [hfour]; decide) (by rw [hfour]; decide)
  exact ⟨s', hsearch, _, hfour, hwhole.2 (by rw [hfour]; decide)⟩

/-! ## With the shortcut -/

/-- Small numbers stay apart under wrapped addition. -/
theorem int32_add_inj {c : Int} {x y : Nat} (hx : x < 46340) (hy : y < 46340)
    (h : int32 (c + x) = int32 (c + y)) : x = y := by
  have hx' := int32_emod (c + x)
  have hy' := int32_emod (c + y)
  omega

/-- Different tags of the window are those of different points. -/
theorem tileToPoint_inj {i j : Nat} (hi : i < t.maxSearchArea * t.maxSearchArea)
    (hj : j < t.maxSearchArea * t.maxSearchArea) (h : s.tileToPoint t i = s.tileToPoint t j) :
    i = j := by
  have harea := area_le t
  have hpos : 0 < t.maxSearchArea := by
    apply Nat.pos_of_ne_zero
    intro hzero
    rw [hzero] at hi
    omega
  rw [Point.ext_iff] at h
  -- the coordinates are below 46340, so wrapped addition keeps them apart
  have hmod : i % t.maxSearchArea = j % t.maxSearchArea := by
    have hi' := Nat.mod_lt i hpos
    have hj' := Nat.mod_lt j hpos
    exact int32_add_inj (by omega) (by omega) h.1
  have hdiv : i / t.maxSearchArea = j / t.maxSearchArea := by
    have hi' := Nat.div_lt_of_lt_mul hi
    have hj' := Nat.div_lt_of_lt_mul hj
    exact int32_add_inj (by omega) (by omega) h.2
  rw [← Nat.mod_add_div i t.maxSearchArea, hmod, hdiv, Nat.mod_add_div]

/-- Two steps away `isNear` does not wrap. -/
theorem isNear_neighbour {r : Point} (hp : Neighbour p q) (hr : Neighbour q r) (hne : r ≠ p)
    (h : isNear r p = true) : Neighbour p r := by
  have habs : ∀ x : Int, -2 ≤ x ∧ x ≤ 2 → abs (int32 x) ≤ 1 → -1 ≤ x ∧ x ≤ 1 := by
    intro x hx hle
    rw [int32_of_isInt32 (show IsInt32 x by unfold IsInt32; omega)] at hle
    unfold abs at hle
    split at hle
    · rw [int32_of_isInt32 (show IsInt32 (-x) by unfold IsInt32; omega)] at hle
      omega
    · omega
  obtain ⟨-, h1, h2, h3, h4⟩ := hp
  obtain ⟨-, h5, h6, h7, h8⟩ := hr
  simp only [isNear, Bool.and_eq_true, decide_eq_true_eq] at h
  have hx := habs (r.x - p.x) (by omega) h.1
  have hy := habs (r.y - p.y) (by omega) h.2
  exact ⟨hne.symm, by omega, by omega, by omega, by omega⟩

/-- A trace along neighbours is a list of neighbours, also where a tile has taken the place of the
    one before. -/
theorem traced_neighbours {acc : List Point}
    (htags : ∀ i ∈ tags, i < t.maxSearchArea * t.maxSearchArea)
    (hlinks : tags.IsChain fun a p => Neighbour (s.tileToPoint t p) (s.tileToPoint t a))
    (hnodup : tags.Nodup) (hacc : acc.IsChain Neighbour)
    (hhead : ∀ a ∈ tags.head?, ∀ p ∈ acc.head?, Neighbour (s.tileToPoint t a) p)
    (hold : ∀ p ∈ acc, ∃ i, i < t.maxSearchArea * t.maxSearchArea ∧ i ∉ tags ∧
      s.tileToPoint t i = p) :
    (traced t s optmize tags acc).IsChain Neighbour := by
  induction tags generalizing acc with
  | nil => exact hacc
  | cons tag tags ih =>
    obtain ⟨hnext, hlinks⟩ := List.isChain_cons.1 hlinks
    obtain ⟨hnew, hnodup⟩ := List.nodup_cons.1 hnodup
    have htag := htags tag List.mem_cons_self
    have hlater : ∀ i ∈ tags, i < t.maxSearchArea * t.maxSearchArea := fun i hi =>
      htags i (List.mem_cons_of_mem tag hi)
    have hself : ∃ i, i < t.maxSearchArea * t.maxSearchArea ∧ i ∉ tags ∧
        s.tileToPoint t i = s.tileToPoint t tag := ⟨tag, htag, hnew, rfl⟩
    have hold' : ∀ p ∈ acc, ∃ i, i < t.maxSearchArea * t.maxSearchArea ∧ i ∉ tags ∧
        s.tileToPoint t i = p := by
      intro p hp
      obtain ⟨i, hi, hnot, hpoint⟩ := hold p hp
      exact ⟨i, hi, fun hmem => hnot (List.mem_cons_of_mem tag hmem), hpoint⟩
    have hfront : ∀ a ∈ tags.head?, ∀ p ∈ (s.tileToPoint t tag :: acc).head?,
        Neighbour (s.tileToPoint t a) p := by
      intro a ha p hp
      obtain rfl := Option.some.inj hp
      exact hnext a ha
    rw [traced]
    cases shortcut_cases optmize (s.tileToPoint t tag) acc (s.tileTags tag).bAround with
    | inl hgrow =>
      rw [hgrow]
      apply ih hlater hlinks hnodup (List.isChain_cons.2 ⟨hhead tag rfl, hacc⟩) hfront
      exact List.forall_mem_cons.2 ⟨hself, hold'⟩
    | inr hjoin =>
      obtain ⟨q₁, q₂, rest, rfl, hnear, -, heq⟩ := hjoin
      obtain ⟨hstep, hrest⟩ := List.isChain_cons_cons.1 hacc
      -- the point two back is that of another tag
      have hne : q₂ ≠ s.tileToPoint t tag := by
        obtain ⟨i, hi, hnot, hpoint⟩ := hold q₂ (List.mem_cons_of_mem _ List.mem_cons_self)
        rw [← hpoint]
        intro hsame
        exact hnot (tileToPoint_inj hi htag hsame ▸ List.mem_cons_self)
      have hjoined := isNear_neighbour (hhead tag rfl q₁ rfl) hstep hne hnear
      rw [heq]
      apply ih hlater hlinks hnodup (.cons_cons hjoined hrest) hfront
      exact List.forall_mem_cons.2
        ⟨hself, fun p hp => hold' p (List.mem_cons_of_mem _ hp)⟩

/-- A shortcut only drops points. -/
theorem shortcut_sublist (optmize : Bool) (p : Point) (acc : List Point) (bAround : Nat) :
    (shortcut optmize bAround p acc).Sublist (p :: acc) := by
  cases shortcut_cases optmize p acc bAround with
  | inl hgrow => rw [hgrow]
  | inr hjoin =>
    obtain ⟨q₁, q₂, rest, rfl, -, -, heq⟩ := hjoin
    rw [heq]
    exact (List.sublist_cons_self q₁ _).cons_cons p

/-- The shortcut only leaves points out. -/
theorem traced_sublist (t : Params) (s : PathFinder) (optmize : Bool) (tags : List Nat)
    (acc : List Point) :
    (traced t s optmize tags acc).Sublist ((tags.map (s.tileToPoint t)).reverse ++ acc) := by
  induction tags generalizing acc with
  | nil => exact List.Sublist.refl _
  | cons tag tags ih =>
    rw [traced, List.map_cons, List.reverse_cons, List.append_assoc]
    exact (ih _).trans ((shortcut_sublist optmize _ acc _).append_left _)

/-- `BuildPath` with checked accesses. -/
def checkedInto (t : Params) (s : PathFinder) (buf : Nat → Point) (nBufSize : Nat)
    (nReverse optmize : Bool) : Option (Nat × (Nat → Point) × Option Nat) :=
  checkedLoop t s nBufSize nReverse optmize nBufSize s.pNearestTile 0 buf

/-- What the shortcut leaves of a chain of tiles is a part of the chain that begins and ends with
    the same tiles and is still connected; it is stored in either order, and no access to the
    buffer is outside of it. -/
theorem buildInto_shortcut (t : Params) (s : PathFinder) (buf : Nat → Point) (nBufSize : Nat)
    (tags : List Nat) (htrail : Trail (fun tag => (s.tileTags tag).pParent) s.pNearestTile tags)
    (hfit : tags.length < nBufSize) (htags : ∀ i ∈ tags, i < t.maxSearchArea * t.maxSearchArea)
    (hlinks : tags.IsChain fun a p => Neighbour (s.tileToPoint t a) (s.tileToPoint t p)) :
    ∃ path : List Point,
      (∀ nReverse, ∃ buf',
        s.checkedInto t buf nBufSize nReverse true = some (path.length, buf', none) ∧
        segment buf' (segmentStart nBufSize nReverse path.length) path.length =
          if nReverse then path.reverse else path) ∧
      path.Sublist (tags.map (s.tileToPoint t)) ∧
      path.head? = (tags.map (s.tileToPoint t)).head? ∧
      path.getLast? = (tags.map (s.tileToPoint t)).getLast? ∧
      path.length ≤ tags.length ∧ path.IsChain Neighbour := by
  have hsub : (traced t s true tags []).Sublist (tags.map (s.tileToPoint t)).reverse := by
    have hsub := traced_sublist t s true tags []
    rwa [List.append_nil] at hsub
  have hchain : (traced t s true tags []).IsChain Neighbour := by
    apply traced_neighbours htags (hlinks.imp fun _ _ hn => hn.symm) htrail.nodup .nil
    · simp
    · simp
  refine ⟨(traced t s true tags []).reverse, ?_, ?_, ?_, ?_, ?_, ?_⟩
  · intro nReverse
    obtain ⟨buf', hbuild, hsegment⟩ := buildInto_of_trail t buf nReverse true hfit htrail
    rw [List.length_reverse, List.reverse_reverse]
    exact ⟨buf', (checkedLoop_eq ..).trans (congrArg some hbuild), hsegment⟩
  · exact List.reverse_sublist.1 (by rwa [List.reverse_reverse])
  · -- the first tile of the chain is the last one traced
    rw [List.head?_reverse]
    cases tags with
    | nil => rfl
    | cons tag tags => exact traced_tip tag tags
  · rw [List.getLast?_reverse]
    cases hroot : tags.getLast? with
    | none =>
      rw [List.getLast?_eq_none_iff.1 hroot]
      rfl
    | some root => rw [traced_head? hroot, List.getLast?_map, hroot, Option.map_some]
  · have hlen := hsub.length_le
    rw [List.length_reverse, List.length_map] at hlen
    exact List.length_reverse.trans_le hlen
  · rw [List.isChain_reverse]
    exact hchain.imp fun _ _ hn => hn.symm

/-- Around a blocked tile the shortcut leaves four of the five tiles. -/
theorem buildInto_shortcut_block :
    ∃ s', findPathCore smallParams (smallMap [⟨0, 1⟩]) ⟨0, 0⟩ ⟨0, 2⟩ =
      some (true, s') ∧
    ∃ (path : List Point) (buf' : Nat → Point),
      s'.checkedInto smallParams (s'.pathTemp 0) 16 true true = some (path.length, buf', none) ∧
      path.length = 4 ∧ path.IsChain Neighbour := by
  -- four links around the block, and one shortcut that leaves four points
  have hrun : (findPathCore smallParams (smallMap [⟨0, 1⟩]) ⟨0, 0⟩ ⟨0, 2⟩).map (fun r => (r.1,
      follow (fun tag => (r.2.tileTags tag).pParent) 6 r.2.pNearestTile,
      decide ((follow (fun tag => (r.2.tileTags tag).pParent) 6 r.2.pNearestTile).IsChain fun a p =>
        Neighbour (r.2.tileToPoint smallParams a) (r.2.tileToPoint smallParams p)),
      (r.2.checkedInto smallParams (r.2.pathTemp 0) 16 true true).map Prod.fst)) =
      some (true, [52, 53, 45, 37, 36], true, some 4) := by
    decide +kernel
  obtain ⟨⟨ret, s'⟩, hsearch, heq⟩ := Option.map_eq_some_iff.1 hrun
  simp only [Prod.mk.injEq] at heq
  obtain ⟨rfl, htags, hlinks, hfour⟩ := heq
  have htrail : Trail (fun tag => (s'.tileTags tag).pParent) s'.pNearestTile _ :=
    trail_follow (show (follow _ 6 _).length < 6 by rw [htags]; decide)
  rw [htags] at htrail hlinks
  obtain ⟨path, hbuild, -, -, -, -, hchain⟩ := buildInto_shortcut smallParams s' (s'.pathTemp 0) 16
    _ htrail (by decide) (by decide) (of_decide_eq_true hlinks)
  obtain ⟨buf', hbuild, -⟩ := hbuild true
  rw [hbuild] at hfour
  exact ⟨s', hsearch, path, buf', hbuild, Option.some.inj hfour, hchain⟩

end XGame3.PathFinder
