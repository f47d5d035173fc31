import XGame3.Spec.AStarLockstep
import XGame3.Spec.PathFinderFrame

/-!
# Histories of calls

A `PathFinder` is used for many searches.  What one call of `FindPath` returns does not
depend on the calls before it, as long as the number of a search has not come round again
while a tag still carries it, and the tag every search begins at was not left with
`bAround` set.

Key results:
- `SearchTogether.stage`: one block of `FindPath` on two path finders
- `findPath_independent`: a call after a history, and after the same history without its
  searches
-/

namespace XGame3.PathFinder

open Loop

variable {t : Params} {s s' s₁ s₂ r r' : PathFinder} {W : Nat → Prop} {q : Query}

/-! ## After a search -/

/-- After the searches from `s` and `s'`, when the path can be built. -/
structure AfterSearch (t : Params) (s s' r r' : PathFinder) : Prop where
  between : Between t r r'
  next : NextSearch s r
  next' : NextSearch s' r'
  tip : ∃ W, Alike t W r r' ∧ TipKnown t W r r'

/-- Finders that are alike have the same map, window and limits. -/
theorem Alike.sameSetup (h : Alike t W s s') : SameSetup s s' where
  nMapWidth := h.observe PathFinder.nMapWidth fun _ => rfl
  nMapHeight := h.observe PathFinder.nMapHeight fun _ => rfl
  blockFunc := h.observe PathFinder.blockFunc fun _ => rfl
  nSearchOption := h.nSearchOption
  nMaxStep := h.nMaxStep

/-- Two searches that joined from the two starts leave the finders as an ended search does. -/
theorem Joining.after {ptStart ptEnd : Point}
    (h : Joining t (coreStart t s ptStart ptEnd) (coreStart t s' ptStart ptEnd) W r r') :
    AfterSearch t s s' r r' where
  between := ⟨h.alike.sameSetup, fun hin => h.alike.around _ (h.central hin)⟩
  next := (coreStart_begins s ptStart ptEnd).next h.ids
  next' := (coreStart_begins s' ptStart ptEnd).next h.ids'
  tip := ⟨W, h.alike, h.tip⟩

section

variable (h : Between t s s') (hunused : Unused t s) (hunused' : Unused t s')
  (hopt : hasOption s.nSearchOption optionOptimize = hasOption q.nOption optionOptimize)

include h hunused hunused' hopt

/-- The forward search of two finders between calls gives the same answer, -/
theorem Between.forwardSearch (hstart : q.ptStart.InRange) :
    Option.Rel (fun r r' => r'.1 = r.1 ∧ AfterSearch t s s' r.2 r'.2)
      (PathFinder.forwardSearch t q s) (PathFinder.forwardSearch t q s') := by
  apply rel_bind (h.findPathCore hunused hunused' hstart)
  rintro ⟨ret, r⟩ ⟨ret', r'⟩ ⟨rfl, W, h₁⟩
  have hbegin := coreStart_begins (t := t) s q.ptStart q.ptEnd
  dsimp only at h₁ ⊢
  split
  · -- the corners are connected, or not, on both sides
    have hopt₁ : hasOption r.nSearchOption optionOptimize = hasOption q.nOption optionOptimize := by
      rw [h₁.ids.nSearchOption, hbegin.nSearchOption, hopt]
    apply rel_bind (h₁.joining.optimizeCorners hopt₁ hstart (h₁.ids.ptStart.trans hbegin.ptStart))
    intro s₂ s₂' ⟨_, h₂⟩
    exact .some ⟨rfl, h₂.after⟩
  · exact .some ⟨rfl, h₁.joining.after⟩

/-- and so does the reversed one. -/
theorem Between.reverseSearch (hend : q.ptEnd.InRange) :
    Option.Rel (fun r r' => r'.1 = r.1 ∧ AfterSearch t s s' r.2 r'.2)
      (PathFinder.reverseSearch t q s) (PathFinder.reverseSearch t q s') := by
  apply rel_bind (h.findPathCore hunused hunused' hend)
  rintro ⟨ret, r⟩ ⟨ret', r'⟩ ⟨rfl, W, h₁⟩
  have hbegin := coreStart_begins (t := t) s q.ptEnd q.ptStart
  dsimp only at h₁ ⊢
  split
  · -- the start is linked, then the corners are connected
    apply rel_bind (h₁.linkStart q.ptStart)
    intro s₂ s₂' ⟨_, h₂⟩
    have hopt₂ : hasOption s₂.nSearchOption optionOptimize =
      hasOption q.nOption optionOptimize := by
      rw [h₂.ids.nSearchOption, hbegin.nSearchOption, hopt]
    apply rel_bind (h₂.optimizeCorners hopt₂ hend (h₂.ids.ptStart.trans hbegin.ptStart))
    intro s₃ s₃' ⟨_, h₃⟩
    exact .some ⟨rfl, h₃.after⟩
  · exact .some ⟨rfl, h₁.joining.after⟩

end

/-! ## The blocks of FindPath -/

/-- The locals of `FindPath` on both sides, before block `k`, with `n` numbers left. -/
structure SearchTogether (t : Params) (q : Query) (k n : Nat) (b b' : Search) : Prop where
  between : Between t b.finder b'.finder
  optimize : hasOption b.finder.nSearchOption optionOptimize = hasOption q.nOption optionOptimize
  fresh : Fresh t b.finder n
  fresh' : Fresh t b'.finder n
  best : b'.best = b.best
  bFindMore : b'.bFindMore = b.bFindMore
  path : ∀ best, b.best = some best → best.nShortest < k ∧
    b'.finder.pathPoints best.nShortest best.offset best.nPathLen =
      b.finder.pathPoints best.nShortest best.offset best.nPathLen

namespace SearchTogether

variable {k n : Nat} {b b' : Search}

/-- Switching the straight way on or off keeps two searches together. -/
theorem switch (h : SearchTogether t q k n b b') :
    SearchTogether t q k n (switchStraightway b) (switchStraightway b') := by
  have hoptimize := (switchStraightway_hasOption b 0 (by decide)).trans h.optimize
  unfold switchStraightway at hoptimize ⊢
  rw [h.bFindMore]
  split
  · rename_i hmore
    rw [if_pos hmore] at hoptimize
    obtain ⟨hsetup, hcentral⟩ := h.between
    refine ⟨⟨⟨hsetup.nMapWidth, hsetup.nMapHeight, hsetup.blockFunc, ?_, hsetup.nMaxStep⟩,
      hcentral⟩, hoptimize, h.fresh, h.fresh', h.best, rfl, h.path⟩
    dsimp only
    rw [hsetup.nSearchOption]
  · exact h

/-- A search uses up one number and leaves the buffers alone. -/
theorem advance (h : SearchTogether t q k (n + 1) b b') (hn : n < 65535)
    (ha : AfterSearch t b.finder b'.finder r r') :
    SearchTogether t q k n { b with finder := r } { b' with finder := r' } where
  between := ha.between
  optimize := by
    dsimp only
    rw [ha.next.nSearchOption]
    exact h.optimize
  fresh := ha.next.fresh h.fresh hn
  fresh' := ha.next'.fresh h.fresh' hn
  best := h.best
  bFindMore := h.bFindMore
  path := fun best hbest => by
    dsimp only
    rw [pathPoints_congr (congrFun ha.next.pathTemp _),
      pathPoints_congr (congrFun ha.next'.pathTemp _)]
    exact h.path best hbest

/-- The next block has a buffer of its own. -/
theorem mono (h : SearchTogether t q k n b b') : SearchTogether t q (k + 1) n b b' :=
  { h with path := fun best hbest => (h.path best hbest).imp_left fun hlt => by omega }

/-- A path that was built is kept on both sides or on neither. -/
theorem keep (h : SearchTogether t q k n b b') (nReverse : Bool) {W : Nat → Prop}
    (halike : Alike t W b.finder b'.finder) (htip : TipKnown t W b.finder b'.finder) :
    SearchTogether t q (k + 1) n (keepPath t q k nReverse b.best b.finder)
      (keepPath t q k nReverse b'.best b'.finder) := by
  obtain ⟨hlen, hpoints⟩ := halike.buildPath htip k nReverse true
  obtain ⟨hsetup, hcentral⟩ := h.between
  -- the paths kept before are in other buffers
  have hother : ∀ (r : PathFinder) (best : Shortest), best.nShortest < k →
      (r.buildPath t k nReverse true).2.pathPoints best.nShortest best.offset best.nPathLen =
        r.pathPoints best.nShortest best.offset best.nPathLen := fun r best hlt =>
    pathPoints_congr (Function.update_of_ne (Nat.ne_of_lt hlt) _ _)
  unfold keepPath
  dsimp only
  rw [h.best, hlen]
  split
  · refine ⟨⟨⟨hsetup.nMapWidth, hsetup.nMapHeight, hsetup.blockFunc, hsetup.nSearchOption, rfl⟩,
      hcentral⟩, h.optimize, h.fresh, h.fresh', rfl, rfl, ?_⟩
    intro best hbest
    obtain rfl := Option.some.inj hbest
    exact ⟨Nat.lt_succ_self k, hpoints⟩
  · refine ⟨⟨⟨hsetup.nMapWidth, hsetup.nMapHeight, hsetup.blockFunc, hsetup.nSearchOption,
      hsetup.nMaxStep⟩, hcentral⟩, h.optimize, h.fresh, h.fresh', rfl, rfl, ?_⟩
    intro best hbest
    obtain ⟨hlt, hpath⟩ := h.path best hbest
    dsimp only
    rw [hother _ best hlt, hother _ best hlt]
    exact ⟨by omega, hpath⟩

/-- A block does the same on both sides. -/
theorem stage {nReverse : Bool} {search : PathFinder → Option (Bool × PathFinder)}
    (h : SearchTogether t q k (n + 1) b b') (hn : n < 65535)
    (hsearch : Option.Rel (fun r r' => r'.1 = r.1 ∧ AfterSearch t b.finder b'.finder r.2 r'.2)
      (search b.finder) (search b'.finder)) :
    Option.Rel (SearchTogether t q (k + 1) n) (searchStage t q k nReverse search b)
      (searchStage t q k nReverse search b') := by
  unfold searchStage
  rw [h.bFindMore]
  split
  · apply rel_bind hsearch
    rintro ⟨ret, r⟩ ⟨ret', r'⟩ ⟨rfl, ha⟩
    have hnext := h.advance hn ha
    obtain ⟨W, halike, htip⟩ := ha.tip
    dsimp only at hnext halike htip ⊢
    split
    · exact .some (hnext.keep nReverse halike htip)
    · exact .some { hnext.mono with bFindMore := rfl }
  · -- the block is skipped and the number stays fresh
    exact .some { h.mono with
      fresh := fun j hj hjn => h.fresh j hj (by omega)
      fresh' := fun j hj hjn => h.fresh' j hj (by omega) }

/-- The forward stage keeps them together and takes at most one search number, -/
theorem forwardStage (h : SearchTogether t q k (n + 1) b b') (hn : n < 65535)
    (hstart : q.ptStart.InRange) :
    Option.Rel (SearchTogether t q (k + 1) n) (PathFinder.forwardStage t q k b)
      (PathFinder.forwardStage t q k b') :=
  h.stage hn (h.between.forwardSearch (h.fresh.unused (by omega)) (h.fresh'.unused (by omega))
    h.optimize hstart)

/-- as does the reversed stage. -/
theorem reverseStage (h : SearchTogether t q k (n + 1) b b') (hn : n < 65535)
    (hend : q.ptEnd.InRange) :
    Option.Rel (SearchTogether t q (k + 1) n) (PathFinder.reverseStage t q k b)
      (PathFinder.reverseStage t q k b') :=
  h.stage hn (h.between.reverseSearch (h.fresh.unused (by omega)) (h.fresh'.unused (by omega))
    h.optimize hend)

/-- The end of `FindPath`, with one more search for the nearest option. -/
theorem finish (h : SearchTogether t q k (n + 1) b b') (hstart : q.ptStart.InRange) :
    Option.Rel SameFound (PathFinder.finish t q b) (PathFinder.finish t q b') := by
  unfold PathFinder.finish
  rw [h.best]
  match hbest : b.best with
  | some best => exact .some ⟨rfl, (h.path best hbest).2⟩
  | none =>
    dsimp only
    rw [h.between.nSearchOption]
    split
    · -- the path to the nearest tile is built anew
      apply rel_bind (h.between.findPathCore (h.fresh.unused (by omega))
        (h.fresh'.unused (by omega)) hstart)
      rintro ⟨ret, r⟩ ⟨ret', r'⟩ ⟨rfl, W, h₁⟩
      exact .some (h₁.alike.builtPath h₁.joining.tip true)
    · exact .some ⟨rfl, rfl⟩

end SearchTogether

/-! ## FindPath -/

/-- Only A* is asked for, or the tag every search begins at has the same `bAround`. -/
def SameAround (t : Params) (q : Query) (s s' : PathFinder) : Prop :=
  hasOption q.nOption optionOnlyAStar = true ∨
    (s'.tileTags (centralTag t)).bAround = (s.tileTags (centralTag t)).bAround

/-- `FindPath` on two path finders with the same map. -/
theorem findPath_together (hwidth : s'.nMapWidth = s.nMapWidth)
    (hheight : s'.nMapHeight = s.nMapHeight)
    (hblock : s'.blockFunc = s.blockFunc) (haround : SameAround t q s s') (hfresh : Fresh t s 5)
    (hfresh' : Fresh t s' 5) (hstart : q.ptStart.InRange) (hend : q.ptEnd.InRange) :
    Option.Rel SameFound (findPath t s q) (findPath t s' q) := by
  have hsetup : SameSetup (beginSearch s q).finder (beginSearch s' q).finder :=
    ⟨hwidth, hheight, hblock, rfl, rfl⟩
  unfold findPath
  dsimp only
  split
  · exact hsetup.aStarPath (hfresh.unused (by decide)) (hfresh'.unused (by decide)) hstart
  · rename_i honly
    have hbegin : SearchTogether t q 0 5 (beginSearch s q) (beginSearch s' q) :=
      ⟨⟨hsetup, fun _ => haround.resolve_left honly⟩, rfl, hfresh, hfresh', rfl, rfl,
        fun _ hbest => nomatch hbest⟩
    -- at most five searches: four blocks and the one for the nearest tile
    apply rel_bind (hbegin.forwardStage (by decide) hstart)
    intro b₁ b₁' h₁
    rw [h₁.bFindMore]
    split
    · exact h₁.between.toSameSetup.aStarPath (h₁.fresh.unused (by decide))
        (h₁.fresh'.unused (by decide)) hstart
    · apply rel_bind (h₁.reverseStage (by decide) hend)
      intro b₂ b₂' h₂
      apply rel_bind (h₂.switch.forwardStage (by decide) hstart)
      intro b₃ b₃' h₃
      apply rel_bind (h₃.reverseStage (by decide) hend)
      intro b₄ b₄' h₄
      exact h₄.finish hstart

/-! ## Histories -/

/-- The calls on a `PathFinder`. -/
inductive Call where
  | setMapInfo (nMapWidth nMapHeight : Nat) (blockFunc : Point → Option Bool)
  | findPath (q : Query)

/-- The path finder after a call. -/
def Call.run (t : Params) (s : PathFinder) : Call → Option PathFinder
  | setMapInfo nMapWidth nMapHeight blockFunc => some (s.setMapInfo nMapWidth nMapHeight blockFunc)
  | findPath q => (PathFinder.findPath t s q).map Found.finder

/-- The path finder after a history of calls. -/
def runCalls (t : Params) : PathFinder → List Call → Option PathFinder
  | s, [] => some s
  | s, call :: calls => do
    let s ← call.run t s
    runCalls t s calls

/-- A call of `SetMapInfo`, made; a call of `FindPath`, left out. -/
def Call.mapOnly (s : PathFinder) : Call → PathFinder
  | setMapInfo nMapWidth nMapHeight blockFunc => s.setMapInfo nMapWidth nMapHeight blockFunc
  | findPath _ => s

/-- A freshly constructed path finder with the map of a history. -/
def freshWith (t : Params) (calls : List Call) : PathFinder := calls.foldl Call.mapOnly (new t)

/-- A run of calls leaves the map as the calls' own map changes make it. -/
theorem runCalls_sameMap {calls : List Call} (hmap : SameMap s s')
    (h : runCalls t s' calls = some r) :
    SameMap (calls.foldl Call.mapOnly s) r := by
  induction calls generalizing s s' with
  | nil =>
    obtain rfl := Option.some.inj h
    exact hmap
  | cons call calls ih =>
    obtain ⟨s₁, hcall, h⟩ := Option.bind_eq_some_iff.1 h
    rw [List.foldl_cons]
    cases call with
    | setMapInfo nMapWidth nMapHeight blockFunc =>
      -- whatever the map was, it is replaced
      obtain rfl := Option.some.inj hcall
      have hset : SameMap (s.setMapInfo nMapWidth nMapHeight blockFunc)
          (s'.setMapInfo nMapWidth nMapHeight blockFunc) := ⟨rfl, rfl, rfl⟩
      exact ih hset h
    | findPath q =>
      obtain ⟨found, hfound, rfl⟩ := Option.map_eq_some_iff.1 hcall
      exact ih (hmap.trans (findPath_sameMap hfound)) h

/-- `SetMapInfo` does not touch the tags. -/
theorem foldl_mapOnly (calls : List Call) (s : PathFinder) :
    (calls.foldl Call.mapOnly s).tileTags = s.tileTags ∧
      (calls.foldl Call.mapOnly s).nFind = s.nFind := by
  induction calls generalizing s with
  | nil => exact ⟨rfl, rfl⟩
  | cons call calls ih =>
    rw [List.foldl_cons]
    have hcall : (call.mapOnly s).tileTags = s.tileTags ∧ (call.mapOnly s).nFind = s.nFind := by
      cases call <;> exact ⟨rfl, rfl⟩
    exact ⟨(ih _).1.trans hcall.1, (ih _).2.trans hcall.2⟩

/-- As long as the search numbers have not come round they are fresh. -/
theorem Fresh.of_le {n : Nat} (hle : ∀ tag < t.maxSearchArea * t.maxSearchArea,
    (s.tileTags tag).nFindID ≤ s.nFind) (hn : s.nFind + n < 65536) : Fresh t s n := by
  intro k hk hkn tag htag
  have := hle tag htag
  omega

/-- A finder given a map by some calls is as fresh as a new one. -/
theorem freshWith_fresh (t : Params) (calls : List Call) : Fresh t (freshWith t calls) 5 := by
  obtain ⟨htags, hfind⟩ := foldl_mapOnly calls (new t)
  apply Fresh.of_le
  · intro tag _
    unfold freshWith
    rw [htags, hfind]
    exact Nat.le_refl _
  · unfold freshWith
    rw [hfind]
    exact (by decide : 0 + 5 < 65536)

/-- After any history of calls on one path finder, `FindPath` returns the same result and the same
    points as on a fresh one with the same map, if no tag carries one of the next five search
    numbers, and the tag every search begins at was not left with `bAround` set or only A* is asked
    for. -/
theorem findPath_independent (t : Params) (calls : List Call) (s : PathFinder) (q : Query)
    (hcalls : runCalls t (new t) calls = some s) (hstart : q.ptStart.InRange)
    (hend : q.ptEnd.InRange) (hfresh : Fresh t s 5)
    (haround : hasOption q.nOption optionOnlyAStar = true ∨
      (s.tileTags (centralTag t)).bAround = 0) :
    (findPath t s q).map (fun r => (r.ret, r.path)) =
      (findPath t (freshWith t calls) q).map (fun r => (r.ret, r.path)) := by
  -- the calls leave the map they set
  have hmap : SameMap (freshWith t calls) s := runCalls_sameMap (.refl _) hcalls
  have hcentral : SameAround t q (freshWith t calls) s := by
    apply haround.imp_right
    intro hzero
    unfold freshWith
    rw [(foldl_mapOnly calls (new t)).1]
    exact hzero
  -- so both finders answer together
  have hboth := findPath_together hmap.nMapWidth hmap.nMapHeight hmap.blockFunc hcentral
    (freshWith_fresh t calls) hfresh hstart hend
  generalize findPath t (freshWith t calls) q = o at hboth ⊢
  generalize findPath t s q = o' at hboth ⊢
  cases hboth with
  | none => rfl
  | some hsame =>
    rw [Option.map_some, Option.map_some, hsame.1, hsame.2]

/-- A map of four by four tiles is set and one search made on it. -/
def searched (tiles : List Point) (q : Query) : List Call :=
  [.setMapInfo 4 4 fun p => some (blockedAt tiles p), .findPath q]

/-- There and back on one path finder. -/
theorem findPath_independent_back : ∃ s,
    runCalls smallParams (new smallParams) (searched [⟨1, 1⟩, ⟨1, 2⟩] ⟨⟨0, 1⟩, ⟨3, 1⟩, 0, 16⟩) =
      some s ∧
    (findPath smallParams s ⟨⟨3, 1⟩, ⟨0, 1⟩, 0, 16⟩).map (fun r => (r.ret, r.path)) =
      (findPath smallParams (freshWith smallParams
        (searched [⟨1, 1⟩, ⟨1, 2⟩] ⟨⟨0, 1⟩, ⟨3, 1⟩, 0, 16⟩)) ⟨⟨3, 1⟩, ⟨0, 1⟩, 0, 16⟩).map
        (fun r => (r.ret, r.path)) := by
  -- after one search no tile has a later number, and the central tile is no detour
  have hrun : (runCalls smallParams (new smallParams)
      (searched [⟨1, 1⟩, ⟨1, 2⟩] ⟨⟨0, 1⟩, ⟨3, 1⟩, 0, 16⟩)).map
      (fun s => (s.nFind, (List.range 64).all fun i => (s.tileTags i).nFindID ≤ 1,
        (s.tileTags (centralTag smallParams)).bAround)) = some (1, true, 0) := by
    decide +kernel
  obtain ⟨s, hs, hfields⟩ := Option.map_eq_some_iff.1 hrun
  simp only [Prod.mk.injEq, List.all_eq_true, List.mem_range, decide_eq_true_eq] at hfields
  obtain ⟨hfind, hids, haround⟩ := hfields
  have hfresh : Fresh smallParams s 5 := by
    apply Fresh.of_le
    · intro tag htag
      rw [hfind]
      exact hids tag htag
    · omega
  exact ⟨s, hs, findPath_independent smallParams _ s ⟨⟨3, 1⟩, ⟨0, 1⟩, 0, 16⟩ hs
    ⟨by decide, by decide⟩ ⟨by decide, by decide⟩ hfresh (.inr haround)⟩

/-- A search that comes by its start again leaves `bAround` set there.  The next search takes a
    shortcut from the same tag that a new path finder does not take. -/
theorem not_findPath_independent :
    ((runCalls smallParams (new smallParams)
      (searched [⟨1, 0⟩, ⟨2, 1⟩] ⟨⟨3, 0⟩, ⟨0, 0⟩, 0, 16⟩)).bind fun s =>
        (findPath smallParams s ⟨⟨0, 0⟩, ⟨2, 1⟩, 0, 16⟩).map fun r => (r.ret, r.path)) =
      some (true, [⟨0, 0⟩, ⟨1, 1⟩]) ∧
    (findPath smallParams (freshWith smallParams
      (searched [⟨1, 0⟩, ⟨2, 1⟩] ⟨⟨3, 0⟩, ⟨0, 0⟩, 0, 16⟩)) ⟨⟨0, 0⟩, ⟨2, 1⟩, 0, 16⟩).map
      (fun r => (r.ret, r.path)) = some (true, [⟨0, 0⟩, ⟨0, 1⟩, ⟨1, 1⟩]) := by
  decide +kernel

end XGame3.PathFinder
