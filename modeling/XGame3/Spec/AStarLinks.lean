import XGame3.ForStd.ParentChain
import XGame3.Spec.AStarReachable
import XGame3.Spec.PathFinderBuild

/-!
# The links of the A* search

The step counts in the tags fall along the parents, so the parents of a tagged tile lead
to the start.  `FindAStar` gives a tile it knows a new parent whenever it comes to it in
fewer steps, and the tiles it has led to keep their old counts until they are met again;
that the counts fall is not lost by either.

Key results:
- `expand_expanded`: what an expansion does to each tag.
- `AStarGraded.turn`: a turn of the loop keeps the step counts falling along the links.
- `findAStar_steps`: the links lead to the start, and `BuildPath` follows them there.
-/

namespace XGame3.PathFinder

open FixedInt ParentChain

variable {t : Params} {s s' s₀ s₁ : PathFinder} {f : Point → Bool} {ptStart ptEnd ptTile : Point}
  {pCurrent step dir root : Nat} {e e' : Expansion} {tried : List Nat}

/-! ## One expansion -/

/-- The tag got the expanded tile as its parent: it is new, or had a longer way. -/
structure Relit (t : Params) (f : Point → Bool) (s₀ : PathFinder) (ptTile : Point)
    (pCurrent step : Nat) (e : Expansion) (i : Nat) : Prop where
  carries : e.finder.Carries i
  parent : (e.finder.tileTags i).pParent = some pCurrent
  stepOf : stepOf e.finder i = step
  longer : s₀.Carries i → step < PathFinder.stepOf s₀ i
  place : ∃ dir q, Ahead t s₀ ptTile dir q i ∧
    (s₀.Carries i ∧ Refused f ptTile q ∨ ¬ Refused f ptTile q ∧ ∃ g ∈ e.found, g.2.2 = q)

/-- The tags after some directions. -/
structure Expanded (t : Params) (f : Point → Bool) (s₀ : PathFinder) (ptTile : Point)
    (pCurrent step : Nat) (tried : List Nat) (e : Expansion) : Prop where
  same : SameIds s₀ e.finder
  count : e.finder.nStepCount = s₀.nStepCount
  current : e.finder.tileTags pCurrent = s₀.tileTags pCurrent
  tag : ∀ i, e.finder.tileTags i = s₀.tileTags i ∨ Relit t f s₀ ptTile pCurrent step e i
  covered : ∀ dir ∈ tried, ∀ q i, Ahead t s₀ ptTile dir q i → s₀.Carries i ∨ ¬ Refused f ptTile q →
    (s₀.tileTags pCurrent).pParent = some i ∨
      e.finder.Carries i ∧ stepOf e.finder i ≤ step

/-- The steps of a tile are read from its own tag. -/
theorem stepOf_congr {i : Nat} (h : s'.tileTags i = s.tileTags i) : stepOf s' i = stepOf s i :=
  congrArg TileTag.nStep h

/-- A tile whose tag did not change is carried in the same search or not, as before. -/
theorem SameSearch.carries_congr {i : Nat} (h : SameSearch s s')
    (htag : s'.tileTags i = s.tileTags i) : s'.Carries i ↔ s.Carries i := by
  unfold Carries
  rw [htag, h.nFind]

/-- What lies ahead of a tile depends on the map and the window only. -/
theorem SameSearch.ahead {q : Point} {d : Int} {i : Nat} (h : SameSearch s s') :
    Ahead t s' ptTile d q i ↔ Ahead t s ptTile d q i :=
  ⟨fun ha => ⟨ha.move, (h.getTileTag q).symm.trans ha.tag⟩,
    fun ha => ⟨ha.move, (h.getTileTag q).trans ha.tag⟩⟩

/-- A neighbour that has its link keeps it while its own tag stays and the found list grows. -/
theorem Relit.mono {i : Nat} (h : Relit t f s₀ ptTile pCurrent step e i)
    (hsame : SameSearch e.finder e'.finder) (htag : e'.finder.tileTags i = e.finder.tileTags i)
    (hfound : ∀ g ∈ e.found, g ∈ e'.found) : Relit t f s₀ ptTile pCurrent step e' i where
  carries := (hsame.carries_congr htag).2 h.carries
  parent := by
    rw [htag]
    exact h.parent
  stepOf := (stepOf_congr htag).trans h.stepOf
  longer := h.longer
  place := by
    obtain ⟨d, q, ahead, hq⟩ := h.place
    apply Exists.intro d
    apply Exists.intro q
    exact ⟨ahead, hq.imp_right fun hfree =>
      ⟨hfree.1, hfree.2.imp fun g hg => ⟨hfound g hg.1, hg.2⟩⟩⟩

/-- What a tag carried before the expansion it still carries. -/
theorem Expanded.carries {i : Nat} (h : Expanded t f s₀ ptTile pCurrent step tried e)
    (hc : s₀.Carries i) : e.finder.Carries i := by
  cases h.tag i with
  | inl hkept => exact (h.same.toSameSearch.carries_congr hkept).2 hc
  | inr hrelit => exact hrelit.carries

/-- A direction in which no tag changes. -/
theorem Expanded.skip {n m : Nat} (h : Expanded t f s₀ ptTile pCurrent step tried e)
    (hcovered : ∀ q i, Ahead t s₀ ptTile dir q i → s₀.Carries i ∨ ¬ Refused f ptTile q →
      (s₀.tileTags pCurrent).pParent = some i ∨
        e.finder.Carries i ∧ stepOf e.finder i ≤ step) :
    Expanded t f s₀ ptTile pCurrent step (dir :: tried)
      { e with blockNum := n, visitedNum := m } where
  same := h.same
  count := h.count
  current := h.current
  tag := fun i => (h.tag i).imp_right fun hrelit => hrelit.mono (.refl _) rfl fun _ hg => hg
  covered := fun d hd q i ahead hfree => by
    cases List.mem_cons.1 hd with
    | inl heq => exact hcovered q i (heq ▸ ahead) hfree
    | inr hold => exact h.covered d hold q i ahead hfree

/-- A direction in which a tag is given the expanded tile as its parent. -/
theorem Expanded.relink {q : Point} {tag : Nat}
    (h : Expanded t f s₀ ptTile pCurrent step tried e) (hc : s₀.Carries pCurrent)
    (hstep : stepOf s₀ pCurrent < step) (hlt : step < 65536)
    (ahead : Ahead t e.finder ptTile dir q tag)
    (hlonger : e.finder.Carries tag → step < stepOf e.finder tag)
    (hplace : e.finder.Carries tag ∧ Refused f ptTile q ∨
      ¬ Refused f ptTile q ∧ ∃ g ∈ e'.found, g.2.2 = q)
    (hrep : Relinked e.finder e'.finder tag pCurrent step)
    (hfound : ∀ g ∈ e.found, g ∈ e'.found) :
    Expanded t f s₀ ptTile pCurrent step (dir :: tried) e' := by
  have hnew : stepOf e'.finder tag = step := hrep.stepOf.trans (Nat.mod_eq_of_lt hlt)
  have hcurrent : tag ≠ pCurrent := by
    rintro rfl
    -- its own step count is smaller
    have hgt := hlonger (h.carries hc)
    rw [stepOf_congr h.current] at hgt
    omega
  have hkept : e.finder.Carries tag → e.finder.tileTags tag = s₀.tileTags tag := by
    intro hct
    cases h.tag tag with
    | inl heq => exact heq
    | inr hrelit =>
      have hgt := hlonger hct
      rw [hrelit.stepOf] at hgt
      omega
  have hold : ∀ {i : Nat}, s₀.Carries i → e.finder.Carries i := fun hci => h.carries hci
  have ahead₀ : Ahead t s₀ ptTile dir q tag := h.same.toSameSearch.ahead.1 ahead
  constructor
  · exact h.same.trans hrep.toSameIds
  · exact hrep.count.trans h.count
  · rw [hrep.other pCurrent hcurrent.symm]
    exact h.current
  · -- the tag is the one that was relinked, the others are as before
    intro i
    by_cases hi : i = tag
    · subst hi
      right
      constructor
      · exact hrep.carries
      · exact hrep.parent
      · exact hnew
      · intro hci
        have hgt := hlonger (hold hci)
        rw [stepOf_congr (hkept (hold hci))] at hgt
        exact hgt
      · apply Exists.intro (dir : Int)
        apply Exists.intro q
        apply And.intro ahead₀
        apply hplace.imp_left
        intro ⟨hci, href⟩
        exact ⟨(h.same.toSameSearch.carries_congr (hkept hci)).1 hci, href⟩
    · cases h.tag i with
      | inl heq => exact .inl ((hrep.other i hi).trans heq)
      | inr hrelit => exact .inr (hrelit.mono hrep.toSameSearch (hrep.other i hi) hfound)
  · -- so the direction is covered, and those before it stay so
    intro d hd q' i ahead' hfree
    by_cases hi : i = tag
    · subst hi
      exact .inr ⟨hrep.carries, Nat.le_of_eq hnew⟩
    · rw [stepOf_congr (hrep.other i hi), hrep.toSameSearch.carries_congr (hrep.other i hi)]
      cases List.mem_cons.1 hd with
      | inl heq =>
        -- the tile in this direction has the tag that was relinked
        subst heq
        obtain rfl := Option.some.inj (ahead₀.move.symm.trans ahead'.move)
        exact absurd (Option.some.inj (ahead'.tag.symm.trans ahead₀.tag)) hi
      | inr hmem => exact h.covered d hmem q' i ahead' hfree

/-- Trying one more direction adds that direction to the expanded ones. -/
theorem Expanded.next (h : Expanded t f s₀ ptTile pCurrent step tried e) (hf : s₀.Pure f)
    (hin : ptTile.InRange) (hc : s₀.Carries pCurrent) (hstep : stepOf s₀ pCurrent < step)
    (hlt : step < 65536) (hr : expandDir t ptTile ptEnd pCurrent step dir e = some e') :
    Expanded t f s₀ ptTile pCurrent step (dir :: tried) e' := by
  have hsame := h.same.toSameSearch
  have hahead : ∀ {q q' : Point} {i tag : Nat}, Ahead t e.finder ptTile dir q tag →
      Ahead t s₀ ptTile dir q' i → q' = q ∧ i = tag := by
    intro q q' i tag ahead ahead'
    obtain rfl := Option.some.inj (ahead.move.symm.trans ahead'.move)
    exact ⟨rfl, Option.some.inj (ahead'.tag.symm.trans (hsame.ahead.1 ahead).tag)⟩
  cases expandDir_link (hsame.pure hf) hin hr with
  | outside hmove htag =>
    apply h.skip
    intro q i ahead' _
    obtain rfl := Option.some.inj (hmove.symm.trans ahead'.move)
    rw [hsame.getTileTag] at htag
    exact nomatch htag.symm.trans ahead'.tag
  | back ahead hparent =>
    -- the parent of the tile keeps its step count
    apply h.skip
    intro q i ahead' _
    obtain ⟨rfl, rfl⟩ := hahead ahead ahead'
    rw [h.current] at hparent
    exact .inl hparent
  | known ahead hct hle =>
    apply h.skip
    intro q i ahead' _
    obtain ⟨rfl, rfl⟩ := hahead ahead ahead'
    exact .inr ⟨hct, hle⟩
  | blocked ahead href hct =>
    apply h.skip
    intro q i ahead' hfree
    obtain ⟨rfl, rfl⟩ := hahead ahead ahead'
    cases hfree with
    | inl hci => exact absurd (h.carries hci) hct
    | inr hfree => exact absurd href hfree
  | reopened ahead href hct hgt hrep =>
    exact h.relink hc hstep hlt ahead (fun _ => hgt) (.inl ⟨hct, href⟩) hrep fun _ hg => hg
  | found ahead href hgt hrep =>
    apply h.relink hc hstep hlt ahead hgt _ hrep fun _ hg => List.mem_append_left _ hg
    exact .inr ⟨href, _, List.mem_append_right _ (List.mem_singleton_self _), rfl⟩

/-- What the eight directions do to the tags. -/
theorem expand_expanded {dirs : List Nat} (h : Expanded t f s₀ ptTile pCurrent step tried e)
    (hf : s₀.Pure f) (hin : ptTile.InRange) (hc : s₀.Carries pCurrent)
    (hstep : stepOf s₀ pCurrent < step) (hlt : step < 65536)
    (hr : expand t ptTile ptEnd pCurrent step dirs e = some e') :
    Expanded t f s₀ ptTile pCurrent step (dirs.reverse ++ tried) e' := by
  apply expand_run tried _ h hr
  intro tried dir e e' h hdir
  exact h.next hf hin hc hstep hlt hdir

/-- Trying a direction never gets stuck where the map answers. -/
theorem expandDir_exists {anywhere : Prop} (hf : e.finder.Answers f anywhere) (hin : ptTile.InRange)
    (hp : e.finder.Askable anywhere ptTile) (hdir : dir < 8) :
    ∃ e', expandDir t ptTile ptEnd pCurrent step dir e = some e' := by
  obtain ⟨ptNext, hmove⟩ := moveNext_exists (p := ptTile) hdir
  have hnext := moveNext_inRange hmove
  unfold expandDir
  rw [hmove]
  dsimp only [Option.bind_some, bind]
  split
  · exact ⟨_, rfl⟩
  · split
    · exact ⟨_, rfl⟩
    · split
      · exact ⟨_, rfl⟩
      -- a new link, or none, leaves the map that is asked
      · rename_i tag htag _ _
        have hmap : SameMap e.finder (if (e.finder.tileTags tag).nFindID = e.finder.nFind then
            e.finder.modifyTag tag fun old => { old with pParent := some pCurrent }.setStep step
            else e.finder) := by
          split <;> exact ⟨rfl, rfl, rfl⟩
        generalize (if (e.finder.tileTags tag).nFindID = e.finder.nFind then
            e.finder.modifyTag tag fun old => { old with pParent := some pCurrent }.setStep step
            else e.finder) = s₁ at hmap
        have hask : s₁.Askable anywhere ptNext :=
          hmap.askable (onMap_of_getTileTag hnext htag).askable
        rw [(hmap.answers hf).isBevelBlock hin hnext (hmap.askable hp) hask, hmap.answers hf _ hask]
        dsimp only [Option.bind_some]
        split
        · exact ⟨_, rfl⟩
        · split <;> exact ⟨_, rfl⟩

/-- An expansion does not fault. -/
theorem expand_exists {anywhere : Prop} {dirs : List Nat} (hf : e.finder.Answers f anywhere)
    (hin : ptTile.InRange) (hp : e.finder.Askable anywhere ptTile) (hdirs : ∀ d ∈ dirs, d < 8) :
    ∃ e', expand t ptTile ptEnd pCurrent step dirs e = some e' := by
  induction dirs generalizing e with
  | nil => exact ⟨e, rfl⟩
  | cons dir dirs ih =>
    have hfirst : ∃ e', expandDir t ptTile ptEnd pCurrent step dir e = some e' :=
      expandDir_exists hf hin hp (hdirs dir List.mem_cons_self)
    obtain ⟨e₁, hone⟩ := hfirst
    have hmap := expandDir_sameMap hone
    obtain ⟨e', he'⟩ := ih (hmap.answers hf) (hmap.askable hp) fun d hd =>
      hdirs d (List.mem_cons_of_mem _ hd)
    apply Exists.intro e'
    unfold expand
    rw [hone]
    exact he'

/-! ## Step counts along the links -/

/-- Every touched tag but the root has a touched parent with a smaller step count; no count is
    above the bound. -/
structure Graded (t : Params) (s : PathFinder) (root bound : Nat) : Prop where
  begins : Touched t s root ∧ (s.tileTags root).pParent = none ∧ stepOf s root = 0
  graded : ∀ i, Touched t s i → i ≠ root →
    ∃ p, (s.tileTags i).pParent = some p ∧ Touched t s p ∧ PathFinder.stepOf s p < stepOf s i
  bounded : ∀ i, Touched t s i → stepOf s i ≤ bound

/-- Grading is a fact about the tags. -/
theorem SameTags.graded {bound : Nat} (h : SameTags s s') (hs : Graded t s root bound) :
    Graded t s' root bound := by
  have htouched : ∀ i, Touched t s' i ↔ Touched t s i := fun i =>
    and_congr_right fun _ => h.carries
  have hstep : ∀ i, stepOf s' i = stepOf s i := fun i => stepOf_congr (by rw [h.tileTags])
  constructor
  · rw [htouched, hstep, h.tileTags]
    exact hs.begins
  · intro i hi hne
    obtain ⟨p, hp, hpt, hlt⟩ := hs.graded i ((htouched i).1 hi) hne
    rw [h.tileTags]
    exact ⟨p, hp, (htouched p).2 hpt, by rw [hstep, hstep]; exact hlt⟩
  · intro i hi
    rw [hstep]
    exact hs.bounded i ((htouched i).1 hi)

/-- Step counts only fall. -/
theorem Expanded.stepOf_le {i : Nat} (h : Expanded t f s₀ ptTile pCurrent step tried e)
    (hc : s₀.Carries i) : stepOf e.finder i ≤ stepOf s₀ i := by
  cases h.tag i with
  | inl hkept => exact Nat.le_of_eq (stepOf_congr hkept)
  | inr hrelit =>
    have hlt := hrelit.longer hc
    rw [hrelit.stepOf]
    omega

/-- Expanding a tile of a graded search raises the bound of the grades by at most one. -/
theorem Expanded.graded {bound : Nat} (h : Expanded t f s₀ ptTile pCurrent step tried e)
    (hs : Graded t s₀ root bound) (hc : Touched t s₀ pCurrent)
    (hstep : step = stepOf s₀ pCurrent + 1) : Graded t e.finder root (bound + 1) := by
  have hsame := h.same.toSameSearch
  have htouched : ∀ {i : Nat}, Touched t s₀ i → Touched t e.finder i := fun hi =>
    ⟨hi.1, h.carries hi.2⟩
  have hold : ∀ {i : Nat}, e.finder.tileTags i = s₀.tileTags i → Touched t e.finder i →
      Touched t s₀ i := fun hkept hi => ⟨hi.1, (hsame.carries_congr hkept).1 hi.2⟩
  have hcurrent : stepOf e.finder pCurrent = stepOf s₀ pCurrent := stepOf_congr h.current
  constructor
  · -- the root is not reached by fewer steps
    obtain ⟨hroot, hnone, hzero⟩ := hs.begins
    cases h.tag root with
    | inl hkept =>
      rw [hkept, stepOf_congr hkept]
      exact ⟨htouched hroot, hnone, hzero⟩
    | inr hrelit =>
      have hlt := hrelit.longer hroot.2
      omega
  · -- a relinked tag hangs from the tile that is expanded
    intro i hi hne
    cases h.tag i with
    | inl hkept =>
      obtain ⟨p, hp, hpt, hlt⟩ := hs.graded i (hold hkept hi) hne
      have hle := h.stepOf_le hpt.2
      rw [hkept, stepOf_congr hkept]
      exact ⟨p, hp, htouched hpt, by omega⟩
    | inr hrelit =>
      have hi' := hrelit.stepOf
      exact ⟨pCurrent, hrelit.parent, htouched hc, by omega⟩
  · -- and counts one step more than it
    intro i hi
    cases h.tag i with
    | inl hkept =>
      have hle := hs.bounded i (hold hkept hi)
      rw [stepOf_congr hkept]
      omega
    | inr hrelit =>
      have hle := hs.bounded pCurrent hc
      rw [hrelit.stepOf]
      omega

/-- The parents of a touched tag lead to the root in at most as many links as it counts steps. -/
theorem Graded.trail {bound i : Nat} (h : Graded t s root bound) (hi : Touched t s i) :
    ∃ tags, Trail (fun tag => (s.tileTags tag).pParent) (some i) tags ∧
      tags.getLast? = some root ∧ tags.length ≤ stepOf s i + 1 := by
  induction hn : stepOf s i using Nat.strongRecOn generalizing i with
  | ind n ih =>
    -- by the steps of the tile: the root alone, or the trail of the parent and the tile
    by_cases heq : i = root
    · subst heq
      have htrail : Trail (fun tag => (s.tileTags tag).pParent) (s.tileTags i).pParent [] := by
        rw [h.begins.2.1]
        exact .nil
      exact ⟨[i], .cons htrail, rfl, by rw [List.length_singleton]; omega⟩
    · obtain ⟨p, hp, hpt, hlt⟩ := h.graded i hi heq
      obtain ⟨tags, htags, hlast, hlen⟩ := ih (stepOf s p) (hn ▸ hlt) hpt rfl
      have htrail : Trail (fun tag => (s.tileTags tag).pParent) (s.tileTags i).pParent tags := by
        rw [hp]
        exact htags
      have hne : tags ≠ [] := by
        rintro rfl
        exact nomatch hlast
      refine ⟨i :: tags, .cons htrail, ?_, ?_⟩
      · rw [List.getLast?_cons_of_ne_nil hne]
        exact hlast
      · rw [List.length_cons]
        omega

/-! ## Every turn of the loop -/

/-- The eight directions. -/
def allDirs : List Nat := [0, 1, 2, 3, 4, 5, 6, 7]

/-- The expansion of the first open tile `p`. -/
structure Expands (t : Params) (ptEnd : Point) (a a' : AStar) (p : Point) (tag : Nat)
    (openList : List (Nat × Point)) (e : Expansion) : Prop where
  tagged : a.finder.counted.getTileTag t p = some tag
  ne_end : p ≠ ptEnd
  run : expand t p ptEnd tag (stepOf a.finder.counted tag + 1) allDirs
    ⟨a.finder.counted, a.nNearestDist, 0, 0, []⟩ = some e
  next : a' = ⟨e.finder, pushFound e (stepOf a.finder.counted tag + 1) openList, e.nNearestDist⟩

/-- A turn that goes on. -/
theorem aStarBody_inl {a a' : AStar} (h : aStarBody t ptEnd a = some (.inl a')) :
    a.finder.counted.nStepCount ≤ a.finder.nMaxStep ∧
    ∃ k p openList, a.openList = (k, p) :: openList ∧
      (a.finder.counted.getTileTag t p = none ∧ a' = ⟨a.finder.counted, openList, a.nNearestDist⟩ ∨
        ∃ tag e, Expands t ptEnd a a' p tag openList e) := by
  unfold aStarBody at h
  dsimp only at h
  split at h
  · rename_i hle
    apply And.intro hle
    split at h
    · exact nomatch h
    · rename_i k p openList hlist
      refine ⟨k, p, openList, hlist, ?_⟩
      split at h
      -- a tile outside the window is dropped
      · rename_i htag
        obtain rfl := Sum.inl.inj (Option.some.inj h)
        exact .inl ⟨htag, rfl⟩
      · rename_i tag htag
        split at h
        · exact nomatch h
        · rename_i hne
          -- any other than the target is expanded
          obtain ⟨e, he, h⟩ := Option.bind_eq_some_iff.1 h
          obtain rfl := Sum.inl.inj (Option.some.inj h)
          exact .inr ⟨tag, e, htag, hne, he, rfl⟩
  · exact nomatch h

/-- The invariant with the step counts. -/
structure AStarGraded (t : Params) (f : Point → Bool) (s₁ : PathFinder) (ptStart ptEnd : Point)
    (a : AStar) : Prop extends AStarInv t f s₁ ptStart ptEnd a where
  graded : ∀ root, s₁.getTileTag t ptStart = some root →
    ∃ bound : Nat, (bound : Int) ≤ a.finder.nStepCount ∧ Graded t a.finder root bound

/-- What the expansion of the first open tile does, as long as its step count does not wrap. -/
theorem AStarInv.expanded {a a' : AStar} {k tag : Nat} {p : Point} {openList : List (Nat × Point)}
    (h : AStarInv t f s₁ ptStart ptEnd a) (hf : s₁.Pure f) (hlist : a.openList = (k, p) :: openList)
    (he : Expands t ptEnd a a' p tag openList e)
    (hlt : ∀ root, s₁.getTileTag t ptStart = some root → Touched t a.finder.counted tag →
      stepOf a.finder.counted tag + 1 < 65536) :
    ∃ root, s₁.getTileTag t ptStart = some root ∧ p.InRange ∧ Touched t a.finder.counted tag ∧
      Expanded t f a.finder.counted p tag (stepOf a.finder.counted tag + 1) allDirs.reverse e := by
  have hsame : SameIds s₁ a.finder.counted := h.same.trans (counted_sameTags a.finder).toSameIds
  obtain ⟨root, hstart, hin, hc, -⟩ := h.expanding hf hlist he.tagged he.run
  have htouched : Touched t a.finder.counted tag := ⟨getTileTag_lt he.tagged, hc⟩
  have hbegin : Expanded t f a.finder.counted p tag (stepOf a.finder.counted tag + 1) []
      ⟨a.finder.counted, a.nNearestDist, 0, 0, []⟩ :=
    ⟨.refl _, rfl, rfl, fun _ => .inl rfl, fun _ hd => absurd hd List.not_mem_nil⟩
  have hexp := expand_expanded hbegin (hsame.toSameSearch.pure hf) hin hc (Nat.lt_succ_self _)
    (hlt root hstart htouched) he.run
  rw [List.append_nil] at hexp
  exact ⟨root, hstart, hin, htouched, hexp⟩

/-- What is known when the first open tile is expanded. -/
theorem AStarGraded.expansion {a a' : AStar} {k tag : Nat} {p : Point}
    {openList : List (Nat × Point)} (h : AStarGraded t f s₁ ptStart ptEnd a) (hf : s₁.Pure f)
    (hmax : s₁.nMaxStep ≤ 65535) (hle : a.finder.counted.nStepCount ≤ a.finder.nMaxStep)
    (hlist : a.openList = (k, p) :: openList) (he : Expands t ptEnd a a' p tag openList e) :
    ∃ root, ∃ bound : Nat, s₁.getTileTag t ptStart = some root ∧
      (bound : Int) ≤ a.finder.nStepCount ∧ Graded t a.finder.counted root bound ∧ p.InRange ∧
      Touched t a.finder.counted tag ∧
      Expanded t f a.finder.counted p tag (stepOf a.finder.counted tag + 1) allDirs.reverse e := by
  have hcount := counted_sameTags a.finder
  have hmax' : a.finder.nMaxStep = s₁.nMaxStep := h.same.nMaxStep
  have hcounted : a.finder.counted.nStepCount = a.finder.nStepCount + 1 := rfl
  have hgraded' : ∀ root, s₁.getTileTag t ptStart = some root → ∃ bound : Nat,
      (bound : Int) ≤ a.finder.nStepCount ∧ Graded t a.finder.counted root bound :=
    fun root hroot =>
      (h.graded root hroot).imp fun _ hbound => hbound.imp_right hcount.graded
  obtain ⟨root, hstart, hin, htouched, hexp⟩ := h.expanded hf hlist he fun root hroot htouched => by
    -- the step counts stay below the number of turns, so they do not wrap
    obtain ⟨bound, hbound, hgraded⟩ := hgraded' root hroot
    have hstep := hgraded.bounded tag htouched
    omega
  obtain ⟨bound, hbound, hgraded⟩ := hgraded' root hstart
  exact ⟨root, bound, hstart, hbound, hgraded, hin, htouched, hexp⟩

/-- One turn of A* keeps the search graded. -/
theorem AStarGraded.turn {a a' : AStar} (h : AStarGraded t f s₁ ptStart ptEnd a) (hf : s₁.Pure f)
    (hend : ptEnd.InRange) (hmax : s₁.nMaxStep ≤ 65535)
    (hbody : aStarBody t ptEnd a = some (.inl a')) : AStarGraded t f s₁ ptStart ptEnd a' := by
  constructor
  · exact aStarBody_inv h.toAStarInv hf hend hbody
  · intro root hroot
    have hcount := counted_sameTags a.finder
    have hcounted : a.finder.counted.nStepCount = a.finder.nStepCount + 1 := rfl
    obtain ⟨hle, k, p, openList, hlist, hcases⟩ := aStarBody_inl hbody
    cases hcases with
    -- a dropped tile leaves the tags
    | inl hskip =>
      obtain ⟨-, rfl⟩ := hskip
      obtain ⟨bound, hbound, hgraded⟩ := h.graded root hroot
      exact ⟨bound, by dsimp only; omega, hcount.graded hgraded⟩
    | inr hexpand =>
      obtain ⟨tag, e, he⟩ := hexpand
      obtain ⟨root', bound, hroot', hbound, hgraded, -, htouched, hexp⟩ :=
        h.expansion hf hmax hle hlist he
      obtain rfl := Option.some.inj (hroot.symm.trans hroot')
      rw [he.next]
      have hkept := hexp.count
      exact ⟨bound + 1, by dsimp only; omega, hexp.graded hgraded htouched rfl⟩

/-- A single tag without a parent. -/
theorem Graded.init {g : TileTag → TileTag}
    (hnone : ∀ tag < t.maxSearchArea * t.maxSearchArea, ¬ s.Carries tag)
    (hlt : root < t.maxSearchArea * t.maxSearchArea)
    (hparent : (g (s.tileTags root)).pParent = none)
    (hfind : (g (s.tileTags root)).nFindID = s.nFind) (hzero : (g (s.tileTags root)).nStep = 0) :
    Graded t (s.modifyTag root g) root 0 := by
  -- only the root is touched, and it has no steps
  have htag : (s.modifyTag root g).tileTags root = g (s.tileTags root) := modifyTag_self s root g
  have htouched : ∀ i, Touched t (s.modifyTag root g) i → i = root := by
    intro i hi
    exact ((modifyTag_carries hfind).1 hi.2).resolve_right (hnone i hi.1)
  have hstep : stepOf (s.modifyTag root g) root = 0 := (congrArg TileTag.nStep htag).trans hzero
  constructor
  · rw [htag]
    exact ⟨⟨hlt, (congrArg TileTag.nFindID htag).trans hfind⟩, hparent, hstep⟩
  · exact fun i hi hne => absurd (htouched i hi) hne
  · intro i hi
    rw [htouched i hi]
    exact Nat.le_of_eq hstep

/-- The loop begins with the start alone, at step zero. -/
theorem aStarStart_graded (ptEnd : Point) (hstart : ptStart.InRange) (hunused : Unused t s) :
    AStarGraded t f (aStarStart t s ptStart ptEnd).finder ptStart ptEnd
      (aStarStart t s ptStart ptEnd) := by
  constructor
  · exact aStarStart_inv ptEnd hstart hunused
  · unfold aStarStart
    dsimp only
    split
    · rename_i hnone
      exact fun root hroot => nomatch hnone.symm.trans hroot
    · rename_i tag htag
      intro root hroot
      obtain rfl := Option.some.inj (htag.symm.trans hroot)
      exact ⟨0, Int.le_refl 0, .init hunused (getTileTag_lt htag) rfl rfl (nStep_setStep _ _)⟩

/-- A* begins to count at zero. -/
theorem aStarStart_nStepCount (s : PathFinder) (ptStart ptEnd : Point) :
    (aStarStart t s ptStart ptEnd).finder.nStepCount = 0 := by
  unfold aStarStart
  dsimp only
  split <;> rfl

/-- No other tile than the start is tagged. -/
theorem aStarStart_touched {i : Nat} (ptEnd : Point) (hstart : ptStart.InRange)
    (hunused : Unused t s) (hi : Touched t (aStarStart t s ptStart ptEnd).finder i) :
    (aStarStart t s ptStart ptEnd).finder.getTileTag t ptStart = some i ∧
      stepOf (aStarStart t s ptStart ptEnd).finder i = 0 := by
  match hroot : (aStarStart t s ptStart ptEnd).finder.getTileTag t ptStart with
  -- with no root the search touches nothing
  | none =>
    unfold aStarStart at hi hroot
    dsimp only at hi hroot
    split at hi
    · exact absurd hi.2 (hunused i hi.1)
    · rename_i root htag
      split at hroot
      · rename_i hnone
        exact nomatch hnone.symm.trans htag
      · exact nomatch hroot.symm.trans htag
  | some root =>
    -- with one the bound of the grades is zero
    obtain ⟨bound, hbound, hgraded⟩ :=
      (aStarStart_graded (f := fun _ => false) ptEnd hstart hunused).graded root hroot
    rw [aStarStart_nStepCount] at hbound
    have hle := hgraded.bounded i hi
    by_cases hne : i = root
    · exact ⟨hne ▸ rfl, by omega⟩
    · obtain ⟨j, -, -, hlt⟩ := hgraded.graded i hi hne
      omega

/-- The states between the turns of the loop. -/
def AStarReached (t : Params) (s : PathFinder) (ptStart ptEnd : Point) (a : AStar) : Prop :=
  ∃ n, Loop.run (aStarBody t ptEnd) n (aStarStart t s ptStart ptEnd) = some (.inl a)

/-- The start of A* leaves the limit of steps alone. -/
theorem aStarStart_nMaxStep (s : PathFinder) (ptStart ptEnd : Point) :
    (aStarStart t s ptStart ptEnd).finder.nMaxStep = s.nMaxStep := by
  unfold aStarStart
  dsimp only
  split <;> rfl

/-- So every state that A* reaches is graded. -/
theorem AStarReached.graded {a : AStar} (hf : s.Pure f) (hstart : ptStart.InRange)
    (hend : ptEnd.InRange) (hmax : s.nMaxStep ≤ 65535) (hunused : Unused t s)
    (h : AStarReached t s ptStart ptEnd a) :
    AStarGraded t f (aStarStart t s ptStart ptEnd).finder ptStart ptEnd a := by
  obtain ⟨n, hn⟩ := h
  apply Loop.run_inl (I := AStarGraded t f (aStarStart t s ptStart ptEnd).finder ptStart ptEnd) _
    (aStarStart_graded ptEnd hstart hunused) hn
  intro a a' ha hbody
  rw [← aStarStart_nMaxStep s ptStart ptEnd] at hmax
  exact ha.turn (aStarStart_pure ptStart ptEnd hf) hend hmax hbody

/-! ## Step counts and BuildPath -/

/-- What is left of a search that has returned is the last state between two turns, up to the step
    counter and `m_pNearestTile`. -/
theorem findAStar_last {r : Bool × PathFinder} (h : findAStar t s ptStart ptEnd = some r) :
    ∃ a, AStarReached t s ptStart ptEnd a ∧ SameSearch a.finder r.2 ∧
      r.2.tileTags = a.finder.tileTags := by
  obtain ⟨n, a, hrun, hexit⟩ := Loop.run_last (loopResult_eq_some h)
  apply Exists.intro a
  apply And.intro ⟨n, hrun⟩
  cases aStarBody_step hexit with
  | limit _ => exact ⟨⟨rfl, rfl, rfl, rfl, rfl, rfl, rfl, rfl, rfl⟩, rfl⟩
  | empty _ => exact ⟨⟨rfl, rfl, rfl, rfl, rfl, rfl, rfl, rfl, rfl⟩, rfl⟩
  | arrived _ _ => exact ⟨⟨rfl, rfl, rfl, rfl, rfl, rfl, rfl, rfl, rfl⟩, rfl⟩

/-- The step counts of `FindAStar` grow from a parent to its child.  So the parents of a tagged
    tile lead to the start in at most as many links as it counts, and without the shortcut
    `BuildPath` gives up on a path for its length only. -/
theorem findAStar_steps (t : Params) (f : Point → Bool) (s : PathFinder) (ptStart ptEnd : Point)
    (hf : s.Pure f) (hstart : ptStart.InRange) (hend : ptEnd.InRange) (hmax : s.nMaxStep ≤ 65535)
    (hunused : Unused t s) :
    (∀ a, AStarReached t s ptStart ptEnd a →
      ∀ root, a.finder.getTileTag t ptStart = some root → ∀ i, Touched t a.finder i →
        (i ≠ root → ∃ p, (a.finder.tileTags i).pParent = some p ∧ Touched t a.finder p ∧
          stepOf a.finder p + 1 ≤ stepOf a.finder i) ∧
        ∃ tags, Trail (fun tag => (a.finder.tileTags tag).pParent) (some i) tags ∧
          tags.getLast? = some root ∧ tags.length ≤ stepOf a.finder i + 1) ∧
    (∀ r, findAStar t s ptStart ptEnd = some r →
      ∃ tags, Trail (fun tag => (r.2.tileTags tag).pParent) r.2.pNearestTile tags ∧ tags.Nodup ∧
        ∀ k nReverse, (r.2.buildPath t k nReverse false).1 =
          if tags.length < t.maxPathLen then tags.length else 0) := by
  have hgraded : ∀ a, AStarReached t s ptStart ptEnd a →
      AStarGraded t f (aStarStart t s ptStart ptEnd).finder ptStart ptEnd a := fun a ha =>
    ha.graded hf hstart hend hmax hunused
  constructor
  · intro a ha root hroot i hi
    have h := hgraded a ha
    obtain ⟨bound, -, hg⟩ :=
      h.graded root ((h.same.toSameSearch.getTileTag ptStart).symm.trans hroot)
    exact ⟨hg.graded i hi, hg.trail hi⟩
  · -- the tags of the result are those of the last turn
    intro r hr
    obtain ⟨a, ha, hsame, htags⟩ := findAStar_last hr
    have h := hgraded a ha
    have hresult := findAStar_result hf hstart hend hunused hr
    have htrail : ∃ tags, Trail (fun tag => (r.2.tileTags tag).pParent) r.2.pNearestTile tags := by
      match hnear : r.2.pNearestTile with
      | none => exact ⟨[], .nil⟩
      | some i =>
        match hroot : (aStarStart t s ptStart ptEnd).finder.getTileTag t ptStart with
        | none => exact nomatch hnear.symm.trans (hresult.outside hroot)
        | some root =>
          obtain ⟨bound, -, hg⟩ := h.graded root hroot
          have hi := (hresult.tree root hroot).nearest i hnear
          have hi' : Touched t a.finder i := ⟨hi.1, (hsame.carries_congr (by rw [htags])).1 hi.2⟩
          obtain ⟨tags, htrail, -⟩ := hg.trail hi'
          rw [htags]
          exact ⟨tags, htrail⟩
    obtain ⟨tags, htrail⟩ := htrail
    exact ⟨tags, htrail, htrail.nodup, fun k nReverse => buildPath_length htrail⟩

/-- From the way around a wall `BuildPath` is not kept by a loop. -/
theorem findAStar_steps_wall :
    ∃ r tags, findAStar smallParams (smallMap [⟨1, 1⟩, ⟨1, 2⟩]) ⟨0, 1⟩ ⟨3, 1⟩ = some r ∧
      Trail (fun tag => (r.2.tileTags tag).pParent) r.2.pNearestTile tags ∧ tags.Nodup := by
  have hret : (findAStar smallParams (smallMap [⟨1, 1⟩, ⟨1, 2⟩]) ⟨0, 1⟩ ⟨3, 1⟩).map Prod.fst =
      some true := by
    decide +kernel
  obtain ⟨r, hrun, -⟩ := Option.map_eq_some_iff.1 hret
  have hunused : Unused smallParams (smallMap [⟨1, 1⟩, ⟨1, 2⟩]) := fun _ _ h => nomatch h
  have hsteps := findAStar_steps smallParams _ _ ⟨0, 1⟩ ⟨3, 1⟩ (smallMap_pure [⟨1, 1⟩, ⟨1, 2⟩])
    ⟨by decide, by decide⟩ ⟨by decide, by decide⟩ (by decide) hunused
  obtain ⟨tags, htrail, hnodup, -⟩ := hsteps.2 r hrun
  exact ⟨r, tags, hrun, htrail, hnodup⟩

end XGame3.PathFinder
