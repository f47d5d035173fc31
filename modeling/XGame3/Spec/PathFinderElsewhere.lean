import XGame3.Spec.PathFinderAsked

/-!
# What happens elsewhere

A call of `FindPath` asks `IsBlock` about tiles of the windows around `ptStart` and `ptEnd` and
about tiles beside them, and about nothing else.  So it does not notice when the answers change
elsewhere: it returns the same path, or faults as before, whatever blocks the rest of the map and
whatever earlier calls have left in the members.

Key results:
- `findPathAsks_near`: where the questions of a call lie
- `findPath_local`: a call of `FindPath` with other answers elsewhere
-/

namespace XGame3.PathFinder

open FixedInt

variable {t : Params} {s s' : PathFinder} {q : Query} {o c p r ptEnd : Point}

/-! ## Beside a tile -/

/-- A coordinate at most one step away, as an `int` wraps. -/
def StepTo (a b : Int) : Prop := b = a ∨ b = int32 (a + 1) ∨ b = int32 (a - 1)

/-- A tile or one of the eight around it. -/
structure Beside (p q : Point) : Prop where
  x : StepTo p.x q.x
  y : StepTo p.y q.y

/-- A tile is beside itself. -/
theorem Beside.refl (p : Point) : Beside p p := ⟨.inl rfl, .inl rfl⟩

/-- `MoveNext` leads to a tile beside. -/
theorem beside_moveNext {dir : Int} (hp : p.InRange) (h : moveNext p dir = some r) :
    Beside p r := by
  have hstep : ∀ a d : Int, IsInt32 a → d = -1 ∨ d = 0 ∨ d = 1 → StepTo a (int32 (a + d)) := by
    rintro a d ha (rfl | rfl | rfl)
    · exact .inr (.inr (by rw [Int.sub_eq_add_neg]))
    · exact .inl (by rw [Int.add_zero, int32_of_isInt32 ha])
    · exact .inr (.inl rfl)
  unfold moveNext at h
  split at h
  · obtain ⟨d, hd, rfl⟩ := Option.map_eq_some_iff.1 h
    obtain ⟨-, hx, hy, -⟩ := mem_dirNextTable hd
    exact ⟨hstep _ _ hp.x hx, hstep _ _ hp.y hy⟩
  · exact nomatch h

/-- The tiles that a diagonal move passes are beside whatever its ends are beside. -/
theorem bevelAsks_beside (hp : Beside o p) (hr : Beside o r) :
    ∀ x ∈ s.bevelAsks p r, Beside o x := by
  unfold bevelAsks
  split
  · exact List.forall_mem_nil _
  · refine List.forall_mem_cons.2 ⟨⟨hr.x, hp.y⟩, ?_⟩
    split
    · exact List.forall_mem_singleton.2 ⟨hp.x, hr.y⟩
    · exact List.forall_mem_nil _

/-- So is what a step asks about. -/
theorem stepAsks_beside (hp : Beside o p) (hr : Beside o r) : ∀ x ∈ s.stepAsks p r, Beside o x :=
  List.forall_mem_append.2 ⟨bevelAsks_beside hp hr, List.forall_mem_singleton.2 hr⟩

/-! ## Near a window -/

/-- Tiles beside one of the window around `c`. -/
def Near (t : Params) (s : PathFinder) (c p : Point) : Prop :=
  ∃ o, OnTile t { s with ptStart := c } o ∧ Beside o p

/-- Only the map and the place of the window matter. -/
theorem Near.of_beside (hmap : SameMap s s') (hwindow : s'.ptStart = c) (ho : OnTile t s' o)
    (hp : Beside o p) : Near t s c p := by
  subst hwindow
  obtain ⟨hin, tag, htag⟩ := ho
  refine ⟨o, ⟨hin, tag, ?_⟩, hp⟩
  unfold getTileTag at htag ⊢
  rw [hmap.nMapWidth, hmap.nMapHeight] at htag
  exact htag

/-- `Around` after a step asks about the tiles around the one it has stepped onto. -/
theorem landedAsks_beside {ptLoc : Point} {turn : Turn} {dir : Int} (hp : p.InRange) :
    ∀ x ∈ landedAsks t ptLoc turn ptEnd s p dir, Beside p x := by
  unfold landedAsks
  refine List.forall_mem_append.2 ⟨?_, ?_⟩
  -- in straight-way mode nothing is asked here, else about the step to the target
  · split
    · exact List.forall_mem_nil _
    · unfold canApproachAsks
      split
      · exact List.forall_mem_nil _
      · rename_i ptNext hmove
        exact stepAsks_beside (.refl p) (beside_moveNext hp hmove)
  -- then about the tile beside, if there is one
  · split
    · split
      · exact List.forall_mem_nil _
      · rename_i ptAround hmove
        have haround := beside_moveNext hp hmove
        exact List.forall_mem_append.2
          ⟨bevelAsks_beside haround (.refl p), List.forall_mem_singleton.2 haround⟩
    · exact List.forall_mem_nil _

/-- One iteration of `Around`, from a tile of the window. -/
theorem aroundTurnAsks_near {a : AroundPoint} {d : Detour} (hmap : SameMap s d.finder)
    (hwindow : d.finder.ptStart = c) (hp : OnTile t d.finder d.ptTile) :
    ∀ x ∈ aroundTurnAsks t a.ptTile a.nTurnDir ptEnd d, Near t s c x := by
  have hcounted := (counted_sameTags d.finder).toSameSearch
  unfold aroundTurnAsks
  dsimp only
  split
  · split
    · exact List.forall_mem_nil _
    · rename_i ptNext hmove
      split
      · exact List.forall_mem_nil _
      · rename_i pCurrent htag
        split
        · exact List.forall_mem_nil _
        · have hbeside := beside_moveNext hp.inRange hmove
          have hfront : ∀ x, Beside d.ptTile x → Near t s c x :=
            fun x hx => .of_beside hmap hwindow hp hx
          have hnext : OnTile t d.finder ptNext :=
            ⟨moveNext_inRange hmove, pCurrent, (hcounted.getTileTag ptNext).symm.trans htag⟩
          refine List.forall_mem_append.2 ⟨List.forall_mem_cons.2 ⟨hfront _ hbeside, ?_⟩, ?_⟩
          · exact fun x hx => hfront x (bevelAsks_beside (.refl d.ptTile) hbeside x hx)
          · split
            · -- the tile looked at beside the next one may lie outside the window
              intro x hx
              exact .of_beside hmap hwindow hnext (landedAsks_beside hnext.inRange x hx)
            · exact List.forall_mem_nil _
  · exact List.forall_mem_nil _

/-- A call asks about tiles of its two windows and beside them. -/
theorem findPathAsks_near (hstart : q.ptStart.InRange) (hend : q.ptEnd.InRange) :
    ∀ x ∈ findPathAsks t s q, ∃ c ∈ [q.ptStart, q.ptEnd], Near t s c x := by
  apply findPathAsks_forall (P := fun x => ∃ c ∈ [q.ptStart, q.ptEnd], Near t s c x) hstart hend
  · intro c hc s' p r dir hmap hwindow hp hr hmove x hx
    have hbeside := stepAsks_beside (.refl p) (beside_moveNext hp.inRange hmove) x hx
    exact ⟨c, hc, .of_beside hmap hwindow hp hbeside⟩
  · intro s₁ p p' a d hmap hp hp' hreach x hx
    have hin : p.InRange := by
      simp only [List.mem_cons, List.not_mem_nil, or_false] at hp
      rcases hp with rfl | rfl
      · exact hstart
      · exact hend
    have hsafe : CoreSafe t p' (.around a d) := hreach.safe hin
    exact ⟨p, hp, aroundTurnAsks_near (hmap.trans hreach.sameMap) hreach.ptStart_eq hsafe.2.1 x hx⟩

/-! ## FindPath -/

/-- Whatever state the members are in, another `IsBlock` that answers alike about the tiles of the
    windows around `ptStart` and `ptEnd` and about those beside them leads `FindPath` to the same
    result and the same points, or to a fault as before. -/
theorem findPath_local (t : Params) (s : PathFinder) (g : Point → Option Bool) (q : Query)
    (hstart : q.ptStart.InRange) (hend : q.ptEnd.InRange)
    (hagrees : ∀ c ∈ [q.ptStart, q.ptEnd], ∀ p p' : Point, OnTile t { s with ptStart := c } p →
      Beside p p' → s.blockFunc (p'.mul wayUnit) = g (p'.mul wayUnit)) :
    (findPath t { s with blockFunc := g } q).map (fun r => (r.ret, r.path)) =
      (findPath t s q).map fun r => (r.ret, r.path) := by
  have hsame : SameAnswers g s (findPathAsks t s q) := by
    intro p hp
    obtain ⟨c, hc, o, ho, hbeside⟩ := findPathAsks_near hstart hend p hp
    exact (hagrees c hc o p ho hbeside).symm
  show (findPath t (s.on g) q).map _ = _
  rw [findPath_on hsame, Option.map_map]
  rfl

/-- A map of sixty-four by four tiles. -/
def longMap (tiles : List Point) : PathFinder :=
  (new smallParams).setMapInfo 64 4 fun p => some (blockedAt tiles p)

/-- A block forty tiles away does not change the way around a wall. -/
theorem findPath_local_far :
    (findPath smallParams (longMap [⟨1, 1⟩, ⟨1, 2⟩, ⟨40, 1⟩]) ⟨⟨0, 1⟩, ⟨3, 1⟩, 0, 16⟩).map
        (fun r => (r.ret, r.path)) =
      (findPath smallParams (longMap [⟨1, 1⟩, ⟨1, 2⟩]) ⟨⟨0, 1⟩, ⟨3, 1⟩, 0, 16⟩).map
        fun r => (r.ret, r.path) := by
  apply findPath_local smallParams (longMap [⟨1, 1⟩, ⟨1, 2⟩])
    (fun p => some (blockedAt [⟨1, 1⟩, ⟨1, 2⟩, ⟨40, 1⟩] p)) ⟨⟨0, 1⟩, ⟨3, 1⟩, 0, 16⟩
    ⟨by decide, by decide⟩ ⟨by decide, by decide⟩
  intro c hc p p' hp hbeside
  -- the windows end before the eighth column
  have hcx : 0 ≤ c.x ∧ c.x ≤ 3 := by
    simp only [List.mem_cons, List.not_mem_nil, or_false] at hc
    rcases hc with rfl | rfl <;> decide
  obtain ⟨tag, htag⟩ := hp.tag
  obtain ⟨⟨hnonneg, hwidth⟩, -⟩ := getTileTag_inside htag
  obtain ⟨x, -, hx, -, -, hplace, -⟩ := getTileTag_window htag
  have hcol : p.x ≤ 6 := by
    have hwide : p.x < 64 := hwidth
    have hlt : x < 8 := hx
    have heq : int32 (int32 (p.x - c.x) + 4) = x := hplace
    rw [int32_of_isInt32 (show IsInt32 (p.x - c.x) by unfold IsInt32; omega),
      int32_of_isInt32 (by unfold IsInt32; omega)] at heq
    omega
  have hcol' : -1 ≤ p'.x ∧ p'.x ≤ 7 := by
    rcases hbeside.x with heq | heq | heq
    · omega
    · rw [int32_of_isInt32 (by unfold IsInt32; omega)] at heq
      omega
    · rw [int32_of_isInt32 (by unfold IsInt32; omega)] at heq
      omega
  have hask : (p'.mul wayUnit).x / wayUnit = p'.x := by
    show int32 (p'.x * 100) / 100 = p'.x
    rw [int32_of_isInt32 (by unfold IsInt32; omega)]
    omega
  have hne : p'.x ≠ 40 := by omega
  show some (blockedAt _ _) = some (blockedAt _ _)
  simp [blockedAt, hask, hne]

end XGame3.PathFinder
