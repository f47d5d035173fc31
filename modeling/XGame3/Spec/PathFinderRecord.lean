import Mathlib.Data.List.Induction
import XGame3.Native.PathFinderSearch

/-!
# The corners that are recorded

`FindPathCore` marks the corners as not recorded with `memset`, which fills an `unsigned long` with
ones, and `RecordCorner` compares with the 32-bit flag.  They agree for four bytes.  For eight the
corners look recorded at the origin from the start, and only tiles that reach further are taken.

## Key results

- `recordCorner_spec`: what a call does to each of the four corners
- `CornerState.step`: the step lemma, for a corner that has been recorded or not
- `realCorners_iff`: the corners are real exactly for a `DWORD` of four bytes, or when the sequence
  goes through the origin
-/

namespace XGame3.PathFinder

open FixedInt

variable {t : Params} {s : PathFinder} {i : Nat}

/-- A call of `RecordCorner`: the tile and `m_nStepCount`. -/
structure CornerCall where
  tile : Point
  step : Int
  x_nonneg : 0 ≤ tile.x
  y_nonneg : 0 ≤ tile.y
  step_pos : 0 < step
  step_lt : step < 2147483648

/-- `p` reaches at least as far as `c` in the direction of a corner. -/
def Dominates : Nat → Point → Point → Prop
  | 0, p, c => p.x ≤ c.x ∧ p.y ≤ c.y
  | 1, p, c => p.x ≤ c.x ∧ p.y ≥ c.y
  | 2, p, c => p.x ≥ c.x ∧ p.y ≤ c.y
  | 3, p, c => p.x ≥ c.x ∧ p.y ≥ c.y
  | _, _, _ => False

/-- The call, at its step count. -/
def recordCall (t : Params) (s : PathFinder) (call : CornerCall) : PathFinder :=
  { s with nStepCount := call.step }.recordCorner t call.tile

/-- A sequence of calls after the initialisation of the corners. -/
def recordCalls (t : Params) (s : PathFinder) (ptStart ptEnd : Point) (calls : List CornerCall) :
    PathFinder :=
  calls.foldl (recordCall t) (s.coreStart t ptStart ptEnd)

/-- The corner is a tile of the sequence, with the step count of its call, and no later one reaches
    as far. -/
def RealCorner (s : PathFinder) (calls : List CornerCall) (i : Nat) : Prop :=
  ∃ before call after, calls = before ++ call :: after ∧ s.corners i = call.tile ∧
    (s.nCornerFlag i : Int) = call.step ∧ ∀ later ∈ after, ¬ Dominates i later.tile call.tile

/-! ### One call -/

/-- The corner `i` is recorded by the call, or stays. -/
structure CornerTurn (t : Params) (i : Nat) (p : Point) (s s' : PathFinder) : Prop where
  taken : Dominates i p (s.corners i) ∨ s.nCornerFlag i = invalidCornerFlag →
    s'.corners i = p ∧ s'.nCornerFlag i = t.dword.wrap s.nStepCount
  kept : ¬ (Dominates i p (s.corners i) ∨ s.nCornerFlag i = invalidCornerFlag) →
    s'.corners i = s.corners i ∧ s'.nCornerFlag i = s.nCornerFlag i

/-- Nothing that a turn of the corner `i` reads or writes has changed. -/
structure SameCorner (i : Nat) (s s' : PathFinder) : Prop where
  corner : s'.corners i = s.corners i
  flag : s'.nCornerFlag i = s.nCornerFlag i
  nStepCount : s'.nStepCount = s.nStepCount

theorem SameCorner.trans {s₁ s₂ : PathFinder} (h : SameCorner i s s₁) (h' : SameCorner i s₁ s₂) :
    SameCorner i s s₂ :=
  ⟨h'.corner.trans h.corner, h'.flag.trans h.flag, h'.nStepCount.trans h.nStepCount⟩

/-- Recording one corner does not touch the others. -/
private theorem recordCornerAt_ne (s : PathFinder) (p : Point) {corner : Nat}
    (ahead : Point → Point → Bool) (h : i ≠ corner) :
    SameCorner i s (s.recordCornerAt t p corner ahead) := by
  unfold recordCornerAt
  split
  · exact ⟨Function.update_of_ne h _ _, Function.update_of_ne h _ _, rfl⟩
  · exact ⟨rfl, rfl, rfl⟩

/-- Recording the corner itself. -/
private theorem recordCornerAt_self (s : PathFinder) (p : Point) (ahead : Point → Point → Bool)
    (h : ∀ c, ahead p c = true ↔ Dominates i p c) :
    CornerTurn t i p s (s.recordCornerAt t p i ahead) := by
  constructor
  · intro htake
    rw [← h] at htake
    unfold recordCornerAt
    rw [if_pos htake]
    exact ⟨Function.update_self .., Function.update_self ..⟩
  · intro hkeep
    rw [← h] at hkeep
    unfold recordCornerAt
    rw [if_neg hkeep]
    exact ⟨rfl, rfl⟩

/-- The turns of the corners before it do not matter, -/
private theorem CornerTurn.before {p : Point} {s₁ s₂ : PathFinder} (hturn : CornerTurn t i p s₁ s₂)
    (h : SameCorner i s s₁) : CornerTurn t i p s s₂ := by
  obtain ⟨htake, hkeep⟩ := hturn
  rw [h.corner, h.flag] at htake hkeep
  rw [h.nStepCount] at htake
  exact ⟨htake, hkeep⟩

/-- nor do those behind it. -/
private theorem CornerTurn.after {p : Point} {s₁ s₂ : PathFinder} (hturn : CornerTurn t i p s s₁)
    (h : SameCorner i s₁ s₂) : CornerTurn t i p s s₂ := by
  constructor
  · rw [h.corner, h.flag]
    exact hturn.taken
  · rw [h.corner, h.flag]
    exact hturn.kept

/-- A call of `RecordCorner` gives each of the four corners its turn. -/
theorem recordCorner_spec (t : Params) (s : PathFinder) (p : Point) (hi : i < 4) :
    CornerTurn t i p s (s.recordCorner t p) := by
  unfold recordCorner
  -- the turns before and behind the corner's own are peeled off
  match i, hi with
  | 0, _ =>
    apply CornerTurn.after _ (recordCornerAt_ne _ _ _ (by decide))
    apply CornerTurn.after _ (recordCornerAt_ne _ _ _ (by decide))
    apply CornerTurn.after _ (recordCornerAt_ne _ _ _ (by decide))
    exact recordCornerAt_self s p _ fun c => by simp [Dominates]
  | 1, _ =>
    apply CornerTurn.after _ (recordCornerAt_ne _ _ _ (by decide))
    apply CornerTurn.after _ (recordCornerAt_ne _ _ _ (by decide))
    refine (recordCornerAt_self _ p _ fun c => ?_).before (recordCornerAt_ne s p _ (by decide))
    simp [Dominates]
  | 2, _ =>
    apply CornerTurn.after _ (recordCornerAt_ne _ _ _ (by decide))
    refine (recordCornerAt_self _ p _ fun c => ?_).before
      ((recordCornerAt_ne s p _ (by decide)).trans (recordCornerAt_ne _ p _ (by decide)))
    simp [Dominates]
  | 3, _ =>
    refine (recordCornerAt_self _ p _ fun c => ?_).before
      (((recordCornerAt_ne s p _ (by decide)).trans
      (recordCornerAt_ne _ p _ (by decide))).trans (recordCornerAt_ne _ p _ (by decide)))
    simp [Dominates]

/-! ### Sequences of calls -/

/-- A corner that no call has recorded. -/
structure Untouched (t : Params) (s : PathFinder) (calls : List CornerCall) (i : Nat) : Prop where
  corner : s.corners i = ⟨0, 0⟩
  flag : s.nCornerFlag i = t.dword.modulus - 1
  /-- Four bytes of ones are `INVALID_CORNER_FLAG`. -/
  four : t.dword = .four → calls = []
  behind : ∀ call ∈ calls, ¬ Dominates i call.tile ⟨0, 0⟩

/-- A corner is recorded or not. -/
def CornerState (t : Params) (s : PathFinder) (calls : List CornerCall) (i : Nat) : Prop :=
  RealCorner s calls i ∨ Untouched t s calls i

/-- The step count of a call fits a `DWORD` and is no flag. -/
theorem wrap_step (w : SizeT) (call : CornerCall) :
    ((w.wrap call.step : Nat) : Int) = call.step := by
  have hpos := call.step_pos
  have hlt := call.step_lt
  obtain ⟨n, hn⟩ := Int.eq_ofNat_of_zero_le (show 0 ≤ call.step by omega)
  rw [hn, SizeT.wrap_of_lt w (by omega)]

/-- The corner of the last call. -/
private theorem realCorner_last {calls : List CornerCall} {call : CornerCall}
    (h : s.corners i = call.tile ∧ (s.nCornerFlag i : Int) = call.step) :
    RealCorner s (calls ++ [call]) i :=
  ⟨calls, call, [], rfl, h.1, h.2, fun _ hmem => absurd hmem List.not_mem_nil⟩

/-- A corner that has not been recorded is taken when the flag is known or the tile reaches as far
    as the origin, -/
theorem Untouched.taken {calls : List CornerCall} (h : Untouched t s calls i) (hi : i < 4)
    (call : CornerCall) (htake : t.dword = .four ∨ Dominates i call.tile ⟨0, 0⟩) :
    RealCorner (recordCall t s call) (calls ++ [call]) i := by
  have hturn := recordCorner_spec t { s with nStepCount := call.step } call.tile hi
  have hcond : Dominates i call.tile (s.corners i) ∨ s.nCornerFlag i = invalidCornerFlag := by
    rw [h.corner, h.flag]
    exact htake.symm.imp_right fun hfour => by rw [hfour]; rfl
  obtain ⟨hcorner, hflag⟩ := hturn.taken hcond
  exact realCorner_last ⟨hcorner, by rw [recordCall, hflag, wrap_step]⟩

/-- and stays otherwise. -/
theorem Untouched.kept {calls : List CornerCall} (h : Untouched t s calls i) (hi : i < 4)
    (call : CornerCall) (height : t.dword = .eight) (hbehind : ¬ Dominates i call.tile ⟨0, 0⟩) :
    Untouched t (recordCall t s call) (calls ++ [call]) i := by
  have hturn := recordCorner_spec t { s with nStepCount := call.step } call.tile hi
  have hcond : ¬ (Dominates i call.tile (s.corners i) ∨ s.nCornerFlag i = invalidCornerFlag) := by
    rw [h.corner, h.flag, height]
    exact not_or.2 ⟨hbehind, by decide⟩
  obtain ⟨hcorner, hflag⟩ := hturn.kept hcond
  refine ⟨hcorner.trans h.corner, hflag.trans h.flag, ?_, ?_⟩
  · exact fun hfour => nomatch hfour.symm.trans height
  · intro call' hcall'
    obtain hold | hlast := List.mem_append.1 hcall'
    · exact h.behind call' hold
    · rw [List.mem_singleton.1 hlast]
      exact hbehind

/-- A real corner stays real. -/
theorem RealCorner.step {calls : List CornerCall} (h : RealCorner s calls i) (hi : i < 4)
    (call : CornerCall) : RealCorner (recordCall t s call) (calls ++ [call]) i := by
  have hturn := recordCorner_spec t { s with nStepCount := call.step } call.tile hi
  obtain ⟨before, old, after, rfl, hcorner, hflag, hlater⟩ := h
  by_cases htake : Dominates i call.tile (s.corners i) ∨ s.nCornerFlag i = invalidCornerFlag
  · -- the new tile is the corner now
    obtain ⟨hcorner', hflag'⟩ := hturn.taken htake
    exact realCorner_last ⟨hcorner', by rw [recordCall, hflag', wrap_step]⟩
  · -- the new tile is one more that does not reach as far
    obtain ⟨hcorner', hflag'⟩ := hturn.kept htake
    rw [not_or, hcorner] at htake
    refine ⟨before, old, after ++ [call], by simp, hcorner'.trans hcorner, ?_, ?_⟩
    · rw [recordCall, hflag']
      exact hflag
    · intro later hmem
      obtain hold | hlast := List.mem_append.1 hmem
      · exact hlater later hold
      · rw [List.mem_singleton.1 hlast]
        exact htake.1

/-- Every call keeps the state of a corner. -/
theorem CornerState.step {calls : List CornerCall} (h : CornerState t s calls i) (hi : i < 4)
    (call : CornerCall) : CornerState t (recordCall t s call) (calls ++ [call]) i := by
  obtain hreal | huntouched := h
  · exact .inl (hreal.step hi call)
  · by_cases htake : t.dword = .four ∨ Dominates i call.tile ⟨0, 0⟩
    · exact .inl (huntouched.taken hi call htake)
    · rw [not_or] at htake
      have height : t.dword = .eight := by
        cases hw : t.dword with
        | four => exact absurd hw htake.1
        | eight => rfl
      exact .inr (huntouched.kept hi call height htake.2)

/-- `FindPathCore` leaves every corner unrecorded. -/
theorem untouched_coreStart (ptStart ptEnd : Point)
    (hopt : hasOption s.nSearchOption optionOptimize = true) (i : Nat) :
    Untouched t (s.coreStart t ptStart ptEnd) [] i := by
  have hstart : (s.coreStart t ptStart ptEnd).corners = (fun _ => ⟨0, 0⟩) ∧
      (s.coreStart t ptStart ptEnd).nCornerFlag = fun _ => t.dword.modulus - 1 := by
    unfold coreStart
    rw [if_pos hopt]
    exact ⟨rfl, rfl⟩
  exact ⟨by rw [hstart.1], by rw [hstart.2], fun _ => rfl, fun _ h => absurd h List.not_mem_nil⟩

/-- The state of a corner after a sequence of calls. -/
theorem cornerState_recordCalls (ptStart ptEnd : Point)
    (hopt : hasOption s.nSearchOption optionOptimize = true) (hi : i < 4)
    (calls : List CornerCall) :
    CornerState t (s.recordCalls t ptStart ptEnd calls) calls i := by
  induction calls using List.reverseRecOn with
  | nil => exact .inr (untouched_coreStart ptStart ptEnd hopt i)
  | append_singleton calls call ih =>
    unfold recordCalls at ih ⊢
    rw [List.foldl_append]
    exact ih.step hi call

/-- With eight bytes the left top corner is not recorded as long as no tile is the origin. -/
theorem untouched_recordCalls (ptStart ptEnd : Point)
    (hopt : hasOption s.nSearchOption optionOptimize = true) (height : t.dword = .eight)
    (calls : List CornerCall) (horigin : ∀ call ∈ calls, call.tile ≠ ⟨0, 0⟩) :
    Untouched t (s.recordCalls t ptStart ptEnd calls) calls 0 := by
  induction calls using List.reverseRecOn with
  | nil => exact untouched_coreStart ptStart ptEnd hopt 0
  | append_singleton calls call ih =>
    have hprev := ih fun c hc => horigin c (List.mem_append_left _ hc)
    have hne := horigin call (List.mem_append_right _ (List.mem_singleton_self call))
    have hbehind : ¬ Dominates 0 call.tile ⟨0, 0⟩ := by
      -- of the tiles without negative coordinates only the origin reaches as far
      rintro ⟨hx, hy⟩
      exact hne (Point.ext (Int.le_antisymm hx call.x_nonneg) (Int.le_antisymm hy call.y_nonneg))
    unfold recordCalls at hprev ⊢
    rw [List.foldl_append]
    exact hprev.kept (by decide) call height hbehind

/-- The origin reaches as far as the origin. -/
private theorem dominates_origin (hi : i < 4) {p : Point} (hp : p = ⟨0, 0⟩) :
    Dominates i p ⟨0, 0⟩ := by
  subst hp
  match i, hi with
  | 0, _ | 1, _ | 2, _ | 3, _ => exact ⟨Int.le_refl 0, Int.le_refl 0⟩

/-- After a sequence of calls the corners are real exactly when a `DWORD` has four bytes or one of
    the tiles is the origin. -/
theorem realCorners_iff (s : PathFinder) (t : Params) (ptStart ptEnd : Point)
    (hopt : hasOption s.nSearchOption optionOptimize = true) (calls : List CornerCall)
    (hcalls : calls ≠ []) :
    (∀ i < 4, RealCorner (s.recordCalls t ptStart ptEnd calls) calls i) ↔
      t.dword = .four ∨ ∃ call ∈ calls, call.tile = ⟨0, 0⟩ := by
  constructor
  · intro hreal
    by_contra hneither
    rw [not_or, not_exists] at hneither
    have height : t.dword = .eight := by
      cases hw : t.dword with
      | four => exact absurd hw hneither.1
      | eight => rfl
    have horigin : ∀ call ∈ calls, call.tile ≠ ⟨0, 0⟩ := fun call hmem htile =>
      hneither.2 call ⟨hmem, htile⟩
    -- the left top corner is still the origin, which is none of the tiles
    have huntouched := untouched_recordCalls ptStart ptEnd hopt height calls horigin
    obtain ⟨before, call, after, heq, hcorner, -⟩ := hreal 0 (by decide)
    apply horigin call (by rw [heq]; simp)
    rw [← hcorner, huntouched.corner]
  · intro h i hi
    obtain hreal | huntouched := cornerState_recordCalls (t := t) ptStart ptEnd hopt hi calls
    · exact hreal
    · -- the first call, or the one at the origin, has recorded it
      obtain hfour | ⟨call, hmem, htile⟩ := h
      · exact absurd (huntouched.four hfour) hcalls
      · exact absurd (dominates_origin hi htile) (huntouched.behind call hmem)

/-- A call with step count `1`. -/
def firstCall (x y : Nat) : CornerCall where
  tile := ⟨x, y⟩
  step := 1
  x_nonneg := Int.natCast_nonneg x
  y_nonneg := Int.natCast_nonneg y
  step_pos := by decide
  step_lt := by decide

/-- A finder that optimizes. -/
def optimizer (w : SizeT) : PathFinder :=
  { new (defaultParams w) with nSearchOption := optionOptimize }

/-- Calls at three tiles, with growing step counts. -/
def threeCalls : List CornerCall :=
  [firstCall 3 5,
    { firstCall 6 2 with step := 2, step_pos := by decide, step_lt := by decide },
    { firstCall 1 7 with step := 3, step_pos := by decide, step_lt := by decide }]

/-- For a `DWORD` of four bytes every corner is a tile of the calls: two are still the first one,
    the later two took the others, -/
theorem realCorners_four :
    (∀ i < 4, RealCorner
      ((optimizer .four).recordCalls (defaultParams .four) ⟨3, 5⟩ ⟨9, 9⟩ threeCalls) threeCalls i) ∧
    (List.range 4).map
      ((optimizer .four).recordCalls (defaultParams .four) ⟨3, 5⟩ ⟨9, 9⟩ threeCalls).corners =
        [⟨3, 5⟩, ⟨1, 7⟩, ⟨6, 2⟩, ⟨3, 5⟩] :=
  ⟨(realCorners_iff (optimizer .four) (defaultParams .four) ⟨3, 5⟩ ⟨9, 9⟩ (by decide) threeCalls
    (by decide)).2 (.inl rfl), by decide⟩

/-- and for eight bytes it is a tile nobody has been to. -/
theorem realCorners_eight : ¬ ∀ i < 4, RealCorner
    ((optimizer .eight).recordCalls (defaultParams .eight) ⟨3, 5⟩ ⟨9, 9⟩ [firstCall 3 5])
    [firstCall 3 5] i := by
  intro h
  obtain ⟨before, call, after, heq, hcorner, -⟩ := h 0 (by decide)
  have hcall : call = firstCall 3 5 := by
    have hmem : call ∈ [firstCall 3 5] := by rw [heq]; simp
    exact List.mem_singleton.1 hmem
  rw [hcall] at hcorner
  exact absurd hcorner (by decide)

end XGame3.PathFinder
