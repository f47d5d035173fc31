import XGame3.Spec.PathFinderQuestions
import XGame3.Spec.PathFinderReturns
import XGame3.Spec.PathFinderTags

/-!
# Where the path finder asks

`Approach`, `ConnectDirect` and `FindAStar` look up the tag of the next tile before they ask
about it, so they ask about a step between two tiles of the window.  `Around` asks about more.
What holds of the questions of all such steps, and of all turns of `Around`, holds of every
question of a call.

Key results:
- `findPathCoreAsks_forall`: the questions of a search
- `findPathAsks_forall`: the questions of a call
-/

namespace XGame3.PathFinder

open FixedInt

variable {t : Params} {s s' : PathFinder} {q : Query} {c ptStart ptEnd : Point} {P : Point → Prop}

/-! ## Steps of a window -/

/-- What the step from one tile to the next asks about has the property, in the window around
    `c`. -/
def AskedInSteps (t : Params) (s : PathFinder) (c : Point) (P : Point → Prop) : Prop :=
  ∀ (s' : PathFinder) (p r : Point) (dir : Int), SameMap s s' → s'.ptStart = c → OnTile t s' p →
    OnTile t s' r → moveNext p dir = some r → ∀ x ∈ s'.stepAsks p r, P x

/-- The steps depend on the map and the place of the window only. -/
theorem AskedInSteps.of_sameMap (h : AskedInSteps t s c P) (hmap : SameMap s s') :
    AskedInSteps t s' c P :=
  fun s₁ p r dir hmap' hc hp hr => h s₁ p r dir (hmap.trans hmap') hc hp hr

/-- The questions about a step to a tile that has a tag. -/
theorem AskedInSteps.step {p r : Point} {dir : Int} {tag : Nat} (h : AskedInSteps t s s.ptStart P)
    (hp : OnTile t s p) (hmove : moveNext p dir = some r) (htag : s.getTileTag t r = some tag) :
    ∀ x ∈ s.stepAsks p r, P x :=
  h s p r dir (.refl s) rfl hp ⟨moveNext_inRange hmove, tag, htag⟩ hmove

/-- One iteration of `Approach`. -/
theorem approachTurnAsks_forall {w : Walk} (h : AskedInSteps t w.finder w.finder.ptStart P)
    (hp : OnTile t w.finder w.ptTile) : ∀ x ∈ approachTurnAsks t ptEnd w, P x := by
  have hcounted := (counted_sameTags w.finder).toSameSearch
  have hsteps : AskedInSteps t w.finder.counted w.finder.counted.ptStart P :=
    h.of_sameMap hcounted.sameMap
  unfold approachTurnAsks
  dsimp only
  split
  · split
    · exact List.forall_mem_nil P
    · rename_i ptNext hmove
      split
      · exact List.forall_mem_nil P
      · rename_i pCurrent htag
        -- a tile walked before is entered without a question
        split
        · exact List.forall_mem_nil P
        -- otherwise the turn asks what one step asks
        · exact hsteps.step (hcounted.onTile hp) hmove htag
  · exact List.forall_mem_nil P

/-- One iteration of `ConnectDirect`. -/
theorem connectTurnAsks_forall {w : Walk} (h : AskedInSteps t w.finder w.finder.ptStart P)
    (hp : OnTile t w.finder w.ptTile) : ∀ x ∈ connectTurnAsks t ptEnd w, P x := by
  have hcounted := (counted_sameTags w.finder).toSameSearch
  have hsteps : AskedInSteps t w.finder.counted w.finder.counted.ptStart P :=
    h.of_sameMap hcounted.sameMap
  unfold connectTurnAsks
  dsimp only
  split
  · split
    · exact List.forall_mem_nil P
    · rename_i ptNext hmove
      split
      · exact List.forall_mem_nil P
      · rename_i pCurrent htag
        exact hsteps.step (hcounted.onTile hp) hmove htag
  · exact List.forall_mem_nil P

/-! ## A search -/

/-- The window lies around the start at every point of a search. -/
theorem CoreReach.ptStart_eq {c : CorePoint} (h : CoreReach t s ptStart ptEnd c) :
    c.finder.ptStart = ptStart :=
  (OneSearch.core h).ptStart_eq

section Core

variable (hstart : ptStart.InRange) (hsteps : AskedInSteps t s ptStart P)

include hstart hsteps

/-- All iterations of a call of `Approach`. -/
theorem CoreReach.approachAsks_forall {p : Point} {s₁ : PathFinder}
    (hreach : CoreReach t s ptStart ptEnd (.call p s₁)) : ∀ x ∈ approachAsks t s₁ p ptEnd, P x := by
  unfold approachAsks
  split
  · exact List.forall_mem_nil P
  · rename_i hne
    split
    · exact List.forall_mem_nil P
    · rename_i tag htag
      have hbegin : CoreReach t s ptStart ptEnd (.approach ⟨s₁.makeRoot tag, p, some tag⟩) :=
        hreach.tail (.approach hne htag)
      refine Loop.forall_mem_trace (I := fun w => CoreReach t s ptStart ptEnd (.approach w))
        ?_ ?_ hbegin
      · intro w hw
        have hwindow : w.finder.ptStart = ptStart := hw.ptStart_eq
        exact approachTurnAsks_forall (hwindow ▸ hsteps.of_sameMap hw.sameMap) (hw.safe hstart).2.1
      · exact fun w w' hw hbody => hw.tail (.approachNext hbody)

variable (haround : ∀ a d, CoreReach t s ptStart ptEnd (.around a d) →
  ∀ x ∈ aroundTurnAsks t a.ptTile a.nTurnDir ptEnd d, P x)

omit hstart hsteps in
include haround in
/-- All iterations of a call of `Around`. -/
theorem CoreReach.aroundAsks_forall {a : AroundPoint} {queue : List AroundPoint} {s₁ : PathFinder}
    (hreach : CoreReach t s ptStart ptEnd (.drain s₁)) (hqueue : s₁.aroundQueue = a :: queue) :
    ∀ x ∈ aroundAsks t { s₁ with aroundQueue := queue } a ptEnd, P x := by
  have hbegin : CoreReach t s ptStart ptEnd (.around a ⟨⟨{ s₁ with aroundQueue := queue }, a.ptTile,
      { s₁ with aroundQueue := queue }.getTileTag t a.ptTile⟩, a.nMoveDir, 0⟩) :=
    hreach.tail (.around hqueue)
  refine Loop.forall_mem_trace (I := fun d => CoreReach t s ptStart ptEnd (.around a d))
    ?_ ?_ hbegin
  · exact fun d hd => haround a d hd
  · exact fun d d' hd hbody => hd.tail (.aroundNext hbody)

omit hstart hsteps in
include haround in
/-- All detours of the queue. -/
theorem CoreReach.drainAsks_forall {queue : List AroundPoint} {s₁ : PathFinder}
    (hreach : CoreReach t s ptStart ptEnd (.drain s₁)) (hqueue : s₁.aroundQueue = queue) :
    ∀ x ∈ drainAsks t ptEnd queue s₁, P x := by
  induction queue generalizing s₁ with
  | nil => exact List.forall_mem_nil P
  | cons a queue ih =>
    unfold drainAsks
    refine List.forall_mem_append.2 ⟨hreach.aroundAsks_forall haround hqueue, ?_⟩
    split
    · rename_i s₂ hr
      -- a detour that failed leaves the rest of the queue
      obtain ⟨hq, hdetour⟩ := around_steps hqueue hr
      exact ih (Relation.ReflTransGen.trans hreach hdetour) hq
    · exact List.forall_mem_nil P

include haround

/-- What holds of all steps, and of all turns of `Around`, holds of the questions of a search. -/
theorem findPathCoreAsks_forall : ∀ x ∈ findPathCoreAsks t s ptStart ptEnd, P x := by
  have hbegin : CoreReach t s ptStart ptEnd (.call ptStart (coreStart t s ptStart ptEnd)) := .refl
  refine Loop.forall_mem_trace (I := fun c : Point × PathFinder => CoreReach t s ptStart ptEnd
    (.call c.1 c.2)) ?_ ?_ hbegin
  · intro c hc
    unfold coreTurnAsks
    refine List.forall_mem_append.2 ⟨hc.approachAsks_forall hstart hsteps, ?_⟩
    split
    · rename_i s₁ happroach
      have happroach := approach_steps happroach
      exact CoreReach.drainAsks_forall haround (Relation.ReflTransGen.trans hc happroach) rfl
    · exact List.forall_mem_nil P
  · exact fun c c' hc hbody => hc.trans (coreBody_steps hbody)

end Core

/-! ## The lines -/

/-- `ConnectDirect` goes on to a tile of the window. -/
theorem connectBody_onTile {w w' : Walk} (h : connectBody t ptEnd w = some (.inl w')) :
    OnTile t w'.finder w'.ptTile := by
  have hsame : SameSearch w.finder w'.finder := (connectBody_kept h).toSameSearch
  have hcounted := (counted_sameTags w.finder).toSameSearch
  unfold connectBody at h
  dsimp only at h
  split at h
  · obtain ⟨ptNext, hmove, h⟩ := Option.bind_eq_some_iff.1 h
    split at h
    · exact nomatch h
    · rename_i tag htag
      obtain ⟨_, -, h⟩ := Option.bind_eq_some_iff.1 h
      obtain ⟨_, -, h⟩ := Option.bind_eq_some_iff.1 h
      split at h
      · exact nomatch h
      · split at h
        · exact nomatch h
        -- the turn goes on from the tile it stepped to, which is inside the window
        · obtain rfl := Sum.inl.inj (Option.some.inj h)
          have hnext : OnTile t w.finder ptNext :=
            ⟨moveNext_inRange hmove, tag, (hcounted.getTileTag ptNext).symm.trans htag⟩
          exact hsame.onTile hnext
  · exact nomatch h

/-- All iterations of a call of `ConnectDirect`. -/
theorem connectDirectAsks_forall {p : Point} (h : AskedInSteps t s s.ptStart P) (hp : p.InRange) :
    ∀ x ∈ connectDirectAsks t s p ptEnd, P x := by
  unfold connectDirectAsks
  split
  · exact List.forall_mem_nil P
  · split
    · exact List.forall_mem_nil P
    · rename_i tag htag
      have hroot : SameSearch s (s.makeRoot tag) := (makeRoot_kept s tag).toSameSearch
      have hbegin : OnTile t (s.makeRoot tag) p := hroot.onTile ⟨hp, tag, htag⟩
      -- every turn of the line starts from a tile of the window
      refine Loop.forall_mem_trace
        (I := fun w : Walk => SameSearch s w.finder ∧ OnTile t w.finder w.ptTile) ?_ ?_
          ⟨hroot, hbegin⟩
      · rintro w ⟨hsame, hw⟩
        have hsteps := h.of_sameMap hsame.sameMap
        rw [← hsame.ptStart] at hsteps
        exact connectTurnAsks_forall hsteps hw
      -- and leaves the map, the window and the search as they are
      · rintro w w' ⟨hsame, -⟩ hbody
        exact ⟨hsame.trans (connectBody_kept hbody).toSameSearch, connectBody_onTile hbody⟩

/-- The lines between the corners, which are points of the search. -/
theorem connectFromAsks_forall {left dwVisited : Nat} {p : Point} (h : AskedInSteps t s s.ptStart P)
    (hp : p.InRange) (hcorners : ∀ i, s.nCornerFlag i < invalidCornerFlag → (s.corners i).InRange) :
    ∀ x ∈ connectFromAsks t left s p dwVisited, P x := by
  induction left generalizing s p dwVisited with
  | zero => exact List.forall_mem_nil P
  | succ left ih =>
    unfold connectFromAsks
    split
    · exact List.forall_mem_nil P
    · rename_i index dwMinCorner hcorner
      have hin := hcorners index (nextCorner_recorded hcorner)
      -- the line to the corner first, then what is left of the chain
      refine List.forall_mem_append.2 ⟨connectDirectAsks_forall h hp, ?_⟩
      split
      · exact List.forall_mem_nil P
      · rename_i r hr
        have hkept := connectDirect_kept hr
        have hsteps := h.of_sameMap hkept.toSameSearch.sameMap
        rw [← hkept.ptStart] at hsteps
        apply ih hsteps hin
        -- the corners are those of before
        rw [hkept.flags, hkept.corners]
        exact hcorners

/-- `ConnectCorners` after a search that has recorded the corners. -/
theorem optimizeAsks_forall {p : Point} (h : AskedInSteps t s s.ptStart P) (hp : p.InRange)
    (hopt : hasOption s.nSearchOption optionOptimize = hasOption q.nOption optionOptimize)
    (hsteady : Steady t s) : ∀ x ∈ optimizeAsks t q s p, P x := by
  unfold optimizeAsks
  split
  · rename_i hlong
    exact connectFromAsks_forall h hp (hsteady.corners (hopt.trans hlong.2))
  · exact List.forall_mem_nil P

/-! ## The A* search -/

/-- One direction of an expansion. -/
theorem expandDirAsks_forall {ptTile : Point} {pCurrent step dir : Nat} {e : Expansion}
    (h : AskedInSteps t e.finder e.finder.ptStart P) (hp : OnTile t e.finder ptTile) :
    ∀ x ∈ expandDirAsks t ptTile pCurrent step dir e, P x := by
  unfold expandDirAsks
  split
  · exact List.forall_mem_nil P
  · rename_i ptNext hmove
    split
    · exact List.forall_mem_nil P
    · rename_i pTag htag
      split
      · exact List.forall_mem_nil P
      · split
        · exact List.forall_mem_nil P
        · exact h.step hp hmove htag

/-- A tile of the window stays one during its expansion. -/
theorem expandDir_onTile {ptTile p : Point} {pCurrent step dir : Nat} {e e' : Expansion}
    (h : expandDir t ptTile ptEnd pCurrent step dir e = some e') (hp : OnTile t e.finder p) :
    OnTile t e'.finder p := by
  have hmap := expandDir_sameMap h
  have hwindow : e'.finder.ptStart = e.finder.ptStart :=
    expandDir_observe PathFinder.ptStart (fun _ _ _ => rfl) (fun _ _ => rfl) h
  obtain ⟨hin, tag, htag⟩ := hp
  refine ⟨hin, tag, ?_⟩
  unfold getTileTag at htag ⊢
  rw [hwindow, hmap.nMapWidth, hmap.nMapHeight]
  exact htag

/-- All directions of an expansion. -/
theorem expandAsks_forall {ptTile : Point} {pCurrent step : Nat} {dirs : List Nat} {e : Expansion}
    (h : AskedInSteps t e.finder e.finder.ptStart P) (hp : OnTile t e.finder ptTile) :
    ∀ x ∈ expandAsks t ptTile ptEnd pCurrent step dirs e, P x := by
  induction dirs generalizing e with
  | nil => exact List.forall_mem_nil P
  | cons dir dirs ih =>
    unfold expandAsks
    refine List.forall_mem_append.2 ⟨expandDirAsks_forall h hp, ?_⟩
    split
    · rename_i e' hdir
      have hsteps := h.of_sameMap (expandDir_sameMap hdir)
      have hwindow : e'.finder.ptStart = e.finder.ptStart :=
        expandDir_observe PathFinder.ptStart (fun _ _ _ => rfl) (fun _ _ => rfl) hdir
      rw [← hwindow] at hsteps
      exact ih hsteps (expandDir_onTile hdir hp)
    · exact List.forall_mem_nil P

/-- A tile that is taken from the open list has a tag if its neighbours are asked about. -/
theorem aStarTurnAsks_forall {a : AStar} (h : AskedInSteps t a.finder a.finder.ptStart P)
    (hopen : ∀ p, Opened a.openList p → p.InRange) : ∀ x ∈ aStarTurnAsks t ptEnd a, P x := by
  have hcounted := (counted_sameTags a.finder).toSameSearch
  have hsteps : AskedInSteps t a.finder.counted a.finder.counted.ptStart P :=
    h.of_sameMap hcounted.sameMap
  unfold aStarTurnAsks
  dsimp only
  split
  · split
    · exact List.forall_mem_nil P
    · rename_i key ptTile openList hlist
      -- what is open lies in the 16-bit range
      have hin : ptTile.InRange := hopen ptTile ⟨key, hlist ▸ List.mem_cons_self⟩
      split
      · exact List.forall_mem_nil P
      · rename_i pCurrent htag
        split
        · exact List.forall_mem_nil P
        -- only an expanded tile is asked about
        · exact expandAsks_forall hsteps ⟨hin, pCurrent, htag⟩
  · exact List.forall_mem_nil P

/-- What is open after a turn are points, as what was open before it. -/
theorem AStarStep.inRange {a a' : AStar} (h : AStarStep t ptEnd a (.inl a'))
    (hopen : ∀ p, Opened a.openList p → p.InRange) : ∀ p, Opened a'.openList p → p.InRange := by
  cases h with
  | skip hlist _ =>
    rintro p ⟨k, hk⟩
    exact hopen p ⟨k, hlist ▸ List.mem_cons_of_mem _ hk⟩
  | expanded hlist _ _ he =>
    intro p hp
    cases opened_pushFound.1 hp with
    | inl hold =>
      obtain ⟨k, hk⟩ := hold
      exact hopen p ⟨k, hlist ▸ List.mem_cons_of_mem _ hk⟩
    | inr hnew =>
      obtain ⟨g, hg, -, rfl⟩ := hnew
      exact expand_found he (fun _ hg => absurd hg List.not_mem_nil) g hg

/-- What holds of all steps holds of the questions of an A* search. -/
theorem findAStarAsks_forall (h : AskedInSteps t s ptStart P) (hstart : ptStart.InRange) :
    ∀ x ∈ findAStarAsks t s ptStart ptEnd, P x := by
  have hmap : SameMap s (aStarStart t s ptStart ptEnd).finder := aStarStart_sameMap s ptStart ptEnd
  have hwindow := aStarStart_ptStart (t := t) s ptStart ptEnd
  have hopen : ∀ p, Opened (aStarStart t s ptStart ptEnd).openList p → p.InRange := by
    rintro p ⟨k, hk⟩
    obtain ⟨-, rfl⟩ := Prod.mk.inj (List.mem_singleton.1 hk)
    exact hstart
  refine Loop.forall_mem_trace (I := fun a : AStar => SameMap s a.finder ∧
    a.finder.ptStart = ptStart ∧ ∀ p, Opened a.openList p → p.InRange) ?_ ?_ ⟨hmap, hwindow, hopen⟩
  · rintro a ⟨hmap, hwindow, hopen⟩
    exact aStarTurnAsks_forall (hwindow ▸ h.of_sameMap hmap) hopen
  · rintro a a' ⟨hmap, hwindow, hopen⟩ hbody
    have hstep := aStarBody_step hbody
    exact ⟨hmap.trans (aStarBody_sameMap hbody), hstep.ptStart_eq.trans hwindow,
      hstep.inRange hopen⟩

/-! ## FindPath -/

section Call

variable (hstart : q.ptStart.InRange) (hend : q.ptEnd.InRange)
  (hsteps : ∀ c ∈ [q.ptStart, q.ptEnd], AskedInSteps t s c P)
  (haround : ∀ s₁ p p' a d, SameMap s s₁ → p ∈ [q.ptStart, q.ptEnd] → p' ∈ [q.ptStart, q.ptEnd] →
    CoreReach t s₁ p p' (.around a d) → ∀ x ∈ aroundTurnAsks t a.ptTile a.nTurnDir p' d, P x)

include hstart hsteps haround

/-- The search from `ptStart` and the lines behind it. -/
theorem forwardAsks_forall (hmap : SameMap s s')
    (hopt : hasOption s'.nSearchOption optionOptimize = hasOption q.nOption optionOptimize) :
    ∀ x ∈ forwardAsks t q s', P x := by
  have hsteps' : AskedInSteps t s' q.ptStart P := (hsteps _ (by simp)).of_sameMap hmap
  unfold forwardAsks
  refine List.forall_mem_append.2 ⟨?_, ?_⟩
  -- the search
  · exact findPathCoreAsks_forall hstart hsteps' fun a d hd =>
      haround s' _ _ a d hmap (by simp) (by simp) hd
  · split
    -- the corners, from where the search left the finder
    · rename_i s₁ hcore
      obtain ⟨c, hreach, hfinder⟩ : ∃ c, CoreReach t s' q.ptStart q.ptEnd c ∧ c.finder = s₁ :=
        ⟨_, findPathCore_reaches hcore, rfl⟩
      have hwindow : s₁.ptStart = q.ptStart := hfinder ▸ hreach.ptStart_eq
      have hoption := (findPathCore_next hcore).nSearchOption
      exact optimizeAsks_forall (hwindow ▸ hsteps'.of_sameMap (findPathCore_sameMap hcore)) hstart
        ((congrArg (hasOption · optionOptimize) hoption).trans hopt)
        (findPathCore_safe hstart hcore).1
    · exact List.forall_mem_nil P

include hend

/-- The search from `ptEnd` and the lines behind it. -/
theorem reverseAsks_forall (hmap : SameMap s s')
    (hopt : hasOption s'.nSearchOption optionOptimize = hasOption q.nOption optionOptimize) :
    ∀ x ∈ reverseAsks t q s', P x := by
  have hsteps' : AskedInSteps t s' q.ptEnd P := (hsteps _ (by simp)).of_sameMap hmap
  unfold reverseAsks
  refine List.forall_mem_append.2 ⟨?_, ?_⟩
  -- the search
  · exact findPathCoreAsks_forall hend hsteps' fun a d hd =>
      haround s' _ _ a d hmap (by simp) (by simp) hd
  · split
    -- the corners, once the link to the start is written
    · rename_i s₁ hcore
      obtain ⟨c, hreach, hfinder⟩ : ∃ c, CoreReach t s' q.ptEnd q.ptStart c ∧ c.finder = s₁ :=
        ⟨_, findPathCore_reaches hcore, rfl⟩
      have hwindow : s₁.ptStart = q.ptEnd := hfinder ▸ hreach.ptStart_eq
      split
      · rename_i s₂ hlink
        have hsame := (linkStart_sameIds hlink).1.toSameSearch
        have hsteps₂ := hsteps'.of_sameMap ((findPathCore_sameMap hcore).trans hsame.sameMap)
        rw [← hwindow, ← hsame.ptStart] at hsteps₂
        have hoption := hsame.nSearchOption.trans (findPathCore_next hcore).nSearchOption
        exact optimizeAsks_forall hsteps₂ hend
          ((congrArg (hasOption · optionOptimize) hoption).trans hopt)
          (linkStart_steady hstart (findPathCore_safe hend hcore).1 hlink)
      · exact List.forall_mem_nil P
    · exact List.forall_mem_nil P

/-- What holds of all steps, and of all turns of `Around`, holds of every question of a call. -/
theorem findPathAsks_forall : ∀ x ∈ findPathAsks t s q, P x := by
  have hforward : ∀ {k : Nat} {b : Search}, Stage t q s k b → ∀ x ∈ forwardAsks t q b.finder, P x :=
    fun hb => forwardAsks_forall hstart hsteps haround hb.keeps.toSameMap hb.keeps.optimize
  have hreverse : ∀ {k : Nat} {b : Search}, Stage t q s k b → ∀ x ∈ reverseAsks t q b.finder, P x :=
    fun hb => reverseAsks_forall hstart hend hsteps haround hb.keeps.toSameMap hb.keeps.optimize
  have hsteps' : ∀ {k : Nat} {b : Search}, Stage t q s k b → AskedInSteps t b.finder q.ptStart P :=
    fun hb => (hsteps _ (by simp)).of_sameMap hb.keeps.toSameMap
  have hnearest : ∀ {b : Search}, Stage t q s 4 b → ∀ x ∈ nearestAsks t q b, P x := by
    intro b hb
    unfold nearestAsks
    split
    · exact List.forall_mem_nil P
    · split
      · exact findPathCoreAsks_forall hstart (hsteps' hb) fun a d hd =>
          haround b.finder _ _ a d hb.keeps.toSameMap (by simp) (by simp) hd
      · exact List.forall_mem_nil P
  unfold findPathAsks
  split
  · exact findAStarAsks_forall (hsteps' .first) hstart
  · apply forall_mem_collect fun _ => hforward .first
    intro b₁ hfirst
    have hstage₁ : Stage t q s 1 b₁ := .second .first hfirst
    split
    · exact findAStarAsks_forall (hsteps' hstage₁) hstart
    · -- each block begins with what the one before it has left behind
      apply forall_mem_collect fun _ => hreverse hstage₁
      intro b₂ hsecond
      have hstage₂ : Stage t q s 2 (switchStraightway b₂) := .third hstage₁ hsecond
      apply forall_mem_collect fun _ => hforward hstage₂
      intro b₃ hthird
      have hstage₃ : Stage t q s 3 b₃ := .fourth hstage₂ hthird
      apply forall_mem_collect fun _ => hreverse hstage₃
      intro b₄ hfourth
      exact hnearest (.fifth hstage₃ hfourth)

end Call

end XGame3.PathFinder
