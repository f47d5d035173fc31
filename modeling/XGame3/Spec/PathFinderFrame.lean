import XGame3.Spec.AStarSteps
import XGame3.Spec.PathFinderStages

/-!
# What searching leaves alone

None of the functions behind `FindPath` assigns to the members that `SetMapInfo` sets.

Key results:
- `loop_sameMap`: what the body of a loop leaves alone, the loop does
- `findPath_sameMap`: the map after a call of `FindPath`
-/

namespace XGame3.PathFinder

open Loop

variable {t : Params} {s s' s₁ : PathFinder} {q : Query}

namespace SameMap

/-- A corner is recorded in members of its own. -/
theorem recordCorner (s : PathFinder) (p : Point) : SameMap s (s.recordCorner t p) := by
  exact (recordCorner_sameTags s p).toSameSearch.sameMap

/-- What keeps the corners and the nearest tile keeps the map. -/
theorem kept (h : Kept s s') : SameMap s s' := h.toSameIds.toSameSearch.sameMap

end SameMap

/-- `Approach` assigns to tags, counters and the queue. -/
theorem approachBody_sameMap {ptEnd : Point} {w : Walk} {r : Walk ⊕ (Bool × PathFinder)}
    (h : approachBody t ptEnd w = some r) : SameMap w.finder (r.elim Walk.finder Prod.snd) := by
  cases approachBody_turn h <;> exact ⟨rfl, rfl, rfl⟩

/-- So does `Around`. -/
theorem aroundBody_sameMap {ptLoc ptEnd : Point} {turn : Turn} {d : Detour}
    {r : Detour ⊕ (Bool × PathFinder)} (h : aroundBody t ptLoc turn ptEnd d = some r) :
    SameMap d.finder (r.elim (fun d' => d'.finder) Prod.snd) := by
  cases aroundBody_turn h <;> exact ⟨rfl, rfl, rfl⟩

/-- What the body of a loop leaves alone, the loop does. -/
theorem loop_sameMap {σ : Type} {body : σ → Option (σ ⊕ (Bool × PathFinder))}
    (finder : σ → PathFinder)
    (hbody : ∀ w r, body w = some r → SameMap (finder w) (r.elim finder Prod.snd)) {n : Nat} {w : σ}
    {r : Bool × PathFinder} (h : loopResult (run body n w) = some r) : SameMap (finder w) r.2 := by
  apply run_inr (I := fun w' => SameMap (finder w) (finder w')) _ _ (.refl _) (loopResult_eq_some h)
  · exact fun w₁ w₂ hw hb => hw.trans (hbody w₁ (.inl w₂) hb)
  · exact fun w₁ r hw hb => hw.trans (hbody w₁ (.inr r) hb)

/-- A call of `Approach`. -/
theorem approach_sameMap {p ptEnd : Point} {r : Bool × PathFinder}
    (h : approach t s p ptEnd = some r) : SameMap s r.2 := by
  unfold approach at h
  split at h
  · obtain rfl := Option.some.inj h
    exact .refl s
  · split at h
    · obtain rfl := Option.some.inj h
      exact .refl s
    · exact (SameMap.kept (makeRoot_kept s _)).trans
        (loop_sameMap Walk.finder (fun _ _ => approachBody_sameMap) h)

/-- The detours of the queue, one after the other. -/
theorem drainAround_sameMap {ptEnd : Point} {queue : List AroundPoint}
    {r : Option Point × PathFinder} (h : drainAround t ptEnd queue s = some r) : SameMap s r.2 := by
  induction queue generalizing s with
  | nil =>
    obtain rfl := Option.some.inj h
    exact .refl s
  | cons a queue ih =>
    -- one detour, and after a failed one the rest of the queue
    obtain ⟨⟨ret, s₁⟩, haround, h⟩ := Option.bind_eq_some_iff.1 h
    have hqueue := (setAroundQueue_sameTags s queue).toSameSearch.sameMap
    have hmap : SameMap s s₁ :=
      hqueue.trans (loop_sameMap (fun d => d.finder) (fun _ _ => aroundBody_sameMap) haround)
    split at h
    · obtain ⟨i, -, h⟩ := Option.bind_eq_some_iff.1 h
      obtain rfl := Option.some.inj h
      dsimp only
      split
      · exact hmap.trans (.recordCorner s₁ _)
      · exact hmap
    · exact hmap.trans (ih h)

/-- An iteration of the outer loop of `FindPathCore`. -/
theorem coreBody_sameMap {ptEnd : Point} {c : Point × PathFinder}
    {r : (Point × PathFinder) ⊕ (Bool × PathFinder)} (h : coreBody t ptEnd c = some r) :
    SameMap c.2 (r.elim Prod.snd Prod.snd) := by
  obtain ⟨⟨ret, s₁⟩, happroach, h⟩ := Option.bind_eq_some_iff.1 h
  have hmap := approach_sameMap happroach
  split at h
  · obtain rfl := Option.some.inj h
    exact hmap
  · obtain ⟨⟨o, s₂⟩, hdrain, h⟩ := Option.bind_eq_some_iff.1 h
    have hmap' := hmap.trans (drainAround_sameMap hdrain)
    split at h
    all_goals
      obtain rfl := Option.some.inj h
      exact hmap'

/-- A call of `FindPathCore`. -/
theorem findPathCore_sameMap {ptStart ptEnd : Point} {r : Bool × PathFinder}
    (h : findPathCore t s ptStart ptEnd = some r) : SameMap s r.2 :=
  (coreStart_begins (t := t) s ptStart ptEnd).sameMap.trans
    (loop_sameMap Prod.snd (fun _ _ => coreBody_sameMap) h)

/-- An iteration of `FindAStar`, which assigns to tags and to its own lists. -/
theorem aStarBody_sameMap {ptEnd : Point} {a : AStar} {r : AStar ⊕ (Bool × PathFinder)}
    (h : aStarBody t ptEnd a = some r) : SameMap a.finder (r.elim AStar.finder Prod.snd) := by
  unfold aStarBody at h
  dsimp only at h
  split at h
  · split at h
    · obtain rfl := Option.some.inj h
      exact ⟨rfl, rfl, rfl⟩
    · split at h
      · obtain rfl := Option.some.inj h
        exact ⟨rfl, rfl, rfl⟩
      · split at h
        · obtain rfl := Option.some.inj h
          exact ⟨rfl, rfl, rfl⟩
        -- only an expansion writes more than the counter
        · obtain ⟨e, he, h⟩ := Option.bind_eq_some_iff.1 h
          obtain rfl := Option.some.inj h
          exact (counted_sameMap a.finder).trans (expand_sameMap he)
  · obtain rfl := Option.some.inj h
    exact ⟨rfl, rfl, rfl⟩

/-- The A* search and the path that is built from it. -/
theorem aStarPath_sameMap {ptStart ptEnd : Point} {r : Found}
    (h : aStarPath t s ptStart ptEnd = some r) : SameMap s r.finder := by
  obtain ⟨⟨ret, s₁⟩, hastar, h⟩ := Option.bind_eq_some_iff.1 h
  obtain rfl := Option.some.inj h
  have hmap := (aStarStart_sameMap s ptStart ptEnd).trans
    (loop_sameMap AStar.finder (fun _ _ => aStarBody_sameMap) hastar)
  exact hmap.trans ⟨rfl, rfl, rfl⟩

/-- `ConnectCorners`, if it is called. -/
theorem optimizeCorners_sameMap {p : Point} (h : optimizeCorners t q s p = some s') :
    SameMap s s' :=
  .kept (optimizeCorners_kept h)

/-- The search of a block from `ptStart`. -/
theorem forwardSearch_sameMap {r : Bool × PathFinder} (h : forwardSearch t q s = some r) :
    SameMap s r.2 := by
  obtain ⟨⟨ret, s₁⟩, hcore, h⟩ := Option.bind_eq_some_iff.1 h
  have hmap := findPathCore_sameMap hcore
  split at h
  · obtain ⟨s₂, hoptimize, h⟩ := Option.bind_eq_some_iff.1 h
    obtain rfl := Option.some.inj h
    exact hmap.trans (optimizeCorners_sameMap hoptimize)
  · obtain rfl := Option.some.inj h
    exact hmap

/-- The search of a block from `ptEnd`. -/
theorem reverseSearch_sameMap {r : Bool × PathFinder} (h : reverseSearch t q s = some r) :
    SameMap s r.2 := by
  obtain ⟨⟨ret, s₁⟩, hcore, h⟩ := Option.bind_eq_some_iff.1 h
  have hmap := findPathCore_sameMap hcore
  split at h
  · obtain ⟨s₂, hlink, h⟩ := Option.bind_eq_some_iff.1 h
    obtain ⟨s₃, hoptimize, h⟩ := Option.bind_eq_some_iff.1 h
    obtain rfl := Option.some.inj h
    -- `linkStart` assigns to a parent and to `pNearestTile`
    have hids := (linkStart_sameIds hlink).1
    exact (hmap.trans hids.toSameSearch.sameMap).trans (optimizeCorners_sameMap hoptimize)
  · obtain rfl := Option.some.inj h
    exact hmap

/-- A block of `FindPath` keeps what its search keeps. -/
theorem searchStage_sameMap {k : Nat} {nReverse : Bool} {b b' : Search}
    {search : PathFinder → Option (Bool × PathFinder)}
    (hsearch : ∀ r, search b.finder = some r → SameMap b.finder r.2)
    (h : searchStage t q k nReverse search b = some b') : SameMap b.finder b'.finder := by
  obtain rfl | ⟨r, hr, _, _, _, hfinder⟩ := searchStage_finder h
  · exact .refl _
  · rw [hfinder]
    exact (hsearch r hr).trans ⟨rfl, rfl, rfl⟩

/-- The option word is not part of the map. -/
theorem switchStraightway_sameMap (b : Search) : SameMap b.finder (switchStraightway b).finder := by
  unfold switchStraightway
  split <;> exact ⟨rfl, rfl, rfl⟩

/-- What is left of a call after its blocks. -/
theorem finish_sameMap {b : Search} {r : Found} (h : finish t q b = some r) :
    SameMap b.finder r.finder := by
  cases finish_turn h with
  | nearest _ _ hcore => exact (findPathCore_sameMap hcore).trans ⟨rfl, rfl, rfl⟩
  | nothing _ _ => exact .refl _
  | kept _ => exact .refl _

/-- `FindPath` leaves the map as it is. -/
theorem findPath_sameMap {r : Found} (h : findPath t s q = some r) : SameMap s r.finder := by
  have hbegin := beginSearch_sameMap s q
  have hforward : ∀ {k : Nat} {b b' : Search}, forwardStage t q k b = some b' →
      SameMap b.finder b'.finder := searchStage_sameMap fun _ => forwardSearch_sameMap
  have hreverse : ∀ {k : Nat} {b b' : Search}, reverseStage t q k b = some b' →
      SameMap b.finder b'.finder := searchStage_sameMap fun _ => reverseSearch_sameMap
  -- the blocks, one after another
  unfold findPath at h
  dsimp only at h
  split at h
  · exact hbegin.trans (aStarPath_sameMap h)
  · obtain ⟨b₁, h₁, h⟩ := Option.bind_eq_some_iff.1 h
    have hmap₁ := hbegin.trans (hforward h₁)
    split at h
    · exact hmap₁.trans (aStarPath_sameMap h)
    · obtain ⟨b₂, h₂, h⟩ := Option.bind_eq_some_iff.1 h
      obtain ⟨b₃, h₃, h⟩ := Option.bind_eq_some_iff.1 h
      obtain ⟨b₄, h₄, h⟩ := Option.bind_eq_some_iff.1 h
      have hmap₃ := (hmap₁.trans (hreverse h₂)).trans
        ((switchStraightway_sameMap b₂).trans (hforward h₃))
      exact (hmap₃.trans (hreverse h₄)).trans (finish_sameMap h)

end XGame3.PathFinder
