import XGame3.Spec.ResponseBlobCorrect

/-!
# Where a `ResponseBlob` writes

`FreeSize` is the free space as long as no more is in use than the buffer holds.  `Push` and `Reset`
keep it so, and a `Push` that finds no room never gets to a larger block: its loop does not end,
or ends at the size the block has.  `Realloc` does not look at what is in use.

## Key results

- `Sized.call`: the step lemma
- `staysWithin_iff`: a sequence of operations stays within the buffer exactly when no `Realloc` that
  succeeds asks for less than is in use
-/

namespace XGame3.ResponseBlob

open FixedInt

/-- The public operations, with the outcome of the allocation each would make. -/
inductive Call where
  | reset
  | realloc (bytes : Nat) (hpos : 0 < bytes) (hlt : bytes < SizeT.eight.modulus) (alloc : Alloc)
  | push (data : List UInt8) (hlt : data.length < SizeT.eight.modulus) (alloc : Alloc)

/-- An operation, allowing the loop of `Push` `fuel` iterations; `none` is a copy outside the
    block. -/
def call (fuel : Nat) (b : ResponseBlob) : Call → Option (Nat ⊕ (Bool × ResponseBlob))
  | .reset => some (.inr (true, b.reset))
  | .realloc bytes _ _ alloc => some (.inr (b.realloc bytes alloc))
  | .push data _ alloc => b.push fuel data alloc

/-- The blob after a sequence of operations that all return. -/
inductive After (b : ResponseBlob) : List Call → ResponseBlob → Prop
  | nil : After b [] b
  | snoc {calls : List Call} {b₁ b₂ : ResponseBlob} {c : Call} {fuel : Nat} {ret : Bool}
      (h : After b calls b₁) (hret : b₁.call fuel c = some (.inr (ret, b₂))) :
      After b (calls ++ [c]) b₂

/-- What is in use fits the buffer, and the buffer is as large as it says. -/
structure Within (b : ResponseBlob) : Prop where
  useSize_le : b.useSize ≤ b.buffSize
  length_buff : b.buff.length = b.buffSize

/-- An operation copies nothing past the buffer, leaves what is in use within it, and changes
    nothing when it returns `false`. -/
structure CallWithin (b : ResponseBlob) (c : Call) : Prop where
  noFault : ∀ fuel, b.call fuel c ≠ none
  within : ∀ fuel ret b', b.call fuel c = some (.inr (ret, b')) → Within b'
  unchanged : ∀ fuel b', b.call fuel c = some (.inr (false, b')) →
    b'.useSize = b.useSize ∧ b'.buffSize = b.buffSize ∧ b'.buff = b.buff

/-- Every operation of the sequence that is reached does so. -/
def StaysWithin (b : ResponseBlob) (calls : List Call) : Prop :=
  ∀ pre c b', pre ++ [c] <+: calls → After b pre b' → CallWithin b' c

/-- A `Realloc` that succeeds asks for no less than is in use. -/
def KeepsUse (b : ResponseBlob) : Call → Prop
  | .realloc bytes _ _ alloc => bytes ≠ b.buffSize → alloc ≠ none → b.useSize ≤ bytes
  | _ => True

/-! ## One operation -/

/-- The invariant: the size is a `size_t` as well. -/
structure Sized (b : ResponseBlob) : Prop extends Within b where
  buffSize_lt : b.buffSize < SizeT.eight.modulus

theorem sized_new (block : Nat → UInt8) : Sized (new block) where
  useSize_le := Nat.zero_le _
  length_buff := (contains_new block).length_buff
  buffSize_lt := show defaultBuffSize < SizeT.eight.modulus by decide

/-- The outcomes of `Realloc`. -/
theorem realloc_cases (b : ResponseBlob) (bytes : Nat) (alloc : Alloc) :
    ((bytes = b.buffSize ∨ alloc = none) ∧ b.realloc bytes alloc = (false, b)) ∨
      ∃ b', bytes ≠ b.buffSize ∧ alloc ≠ none ∧ b.realloc bytes alloc = (true, b') ∧
        b'.useSize = b.useSize ∧ b'.buffSize = bytes ∧ b'.buff.length = bytes := by
  unfold realloc
  split
  · rename_i heq
    exact .inl ⟨.inl heq.symm, rfl⟩
  · rename_i hne
    split
    · exact .inl ⟨.inr rfl, rfl⟩
    · refine .inr ⟨_, Ne.symm hne, by simp, rfl, rfl, rfl, ?_⟩
      simp only [List.length_map, List.length_range]

theorem call_realloc {b : ResponseBlob} {bytes : Nat} {hpos : 0 < bytes}
    {hlt : bytes < SizeT.eight.modulus} {alloc : Alloc} {r : Bool × ResponseBlob}
    (h : b.realloc bytes alloc = r) (fuel : Nat) :
    b.call fuel (.realloc bytes hpos hlt alloc) = some (.inr r) := by
  rw [call, h]

/-- The free space is the difference. -/
theorem Sized.freeSize_eq {b : ResponseBlob} (h : Sized b) :
    b.freeSize = b.buffSize - b.useSize := by
  have hle := h.useSize_le
  have hlt := h.buffSize_lt
  rw [freeSize, ← Int.natCast_sub hle]
  exact SizeT.wrap_natCast (by omega)

/-- A push that finds no room is still in its loop, or returns `false`. -/
theorem Sized.push_of_no_room {b : ResponseBlob} (h : Sized b) {data : List UInt8}
    (hlt : data.length < SizeT.eight.modulus) (hroom : b.freeSize < data.length) (fuel : Nat)
    (alloc : Alloc) :
    (∃ newSize, b.push fuel data alloc = some (.inl newSize)) ∨
      b.push fuel data alloc = some (.inr (false, b)) := by
  have hle := h.useSize_le
  have hsize := h.buffSize_lt
  rw [push, if_pos hroom]
  rw [h.freeSize_eq] at hroom
  by_cases hfits : data.length + b.useSize < SizeT.eight.modulus
  · -- the sum is right, and halving does not reach it
    have hwrap : SizeT.eight.wrap ((data.length : Int) + b.useSize) = data.length + b.useSize :=
      SizeT.wrap_natCast (n := data.length + b.useSize) hfits
    obtain ⟨newSize, hrun⟩ := growBody_diverges (data.length + b.useSize) b.buffSize (by omega) fuel
    rw [hwrap, hrun]
    exact .inl ⟨newSize, rfl⟩
  · -- the sum wraps below the size there is, which is then asked for again
    have hwrap : SizeT.eight.wrap ((data.length : Int) + b.useSize) =
        data.length + b.useSize - SizeT.eight.modulus :=
      SizeT.wrap_of_ge (n := data.length + b.useSize) (by omega) (by omega)
    rw [hwrap]
    cases fuel with
    | zero => exact .inl ⟨b.buffSize, rfl⟩
    | succ fuel =>
      have hbody : growBody (data.length + b.useSize - SizeT.eight.modulus) b.buffSize =
          some (.inr b.buffSize) := if_neg (by omega)
      rw [Loop.run_succ_of_inr hbody]
      have hsame : b.realloc b.buffSize alloc = (false, b) := if_pos rfl
      dsimp only
      rw [hsame]
      exact .inr rfl

/-- A push that finds room copies into it. -/
theorem Sized.push_of_room {b : ResponseBlob} (h : Sized b) {data : List UInt8}
    (hroom : ¬ b.freeSize < data.length) (fuel : Nat) (alloc : Alloc) :
    ∃ b', b.push fuel data alloc = some (.inr (true, b')) ∧ Sized b' := by
  have hle := h.useSize_le
  have hsize := h.buffSize_lt
  have hlen := h.length_buff
  rw [push, if_neg hroom]
  rw [h.freeSize_eq] at hroom
  have hwrap : SizeT.eight.wrap ((b.useSize : Int) + data.length) = b.useSize + data.length :=
    SizeT.wrap_natCast (n := b.useSize + data.length) (by omega)
  rw [append, if_pos (by omega), hwrap]
  refine ⟨_, rfl, ⟨?_, ?_⟩, hsize⟩
  · show b.useSize + data.length ≤ b.buffSize
    omega
  · simp only [List.length_append, List.length_take, List.length_drop]
    omega

/-- An operation that changes nothing, or does not return, is within. -/
private theorem callWithin_of_kept {b : ResponseBlob} (h : Sized b) {c : Call}
    (hcall : ∀ fuel, (∃ newSize, b.call fuel c = some (.inl newSize)) ∨
      b.call fuel c = some (.inr (false, b))) :
    CallWithin b c ∧ ∀ fuel ret b', b.call fuel c = some (.inr (ret, b')) → Sized b' := by
  -- whatever the call gives back, the blob is the one before
  have hcases : ∀ fuel ret b', b.call fuel c = some (.inr (ret, b')) → b' = b := by
    intro fuel ret b' hret
    obtain ⟨newSize, hrun⟩ | hfalse := hcall fuel
    · rw [hrun] at hret
      cases hret
    · rw [hfalse] at hret
      cases hret
      rfl
  -- so the size, the content and the refusals are unchanged
  refine ⟨⟨?_, ?_, ?_⟩, ?_⟩
  · intro fuel hnone
    obtain ⟨newSize, hrun⟩ | hfalse := hcall fuel
    · rw [hrun] at hnone
      cases hnone
    · rw [hfalse] at hnone
      cases hnone
  · intro fuel ret b' hret
    rw [hcases fuel ret b' hret]
    exact h.toWithin
  · intro fuel b' hret
    rw [hcases fuel false b' hret]
    exact ⟨rfl, rfl, rfl⟩
  · intro fuel ret b' hret
    rw [hcases fuel ret b' hret]
    exact h

/-- An operation that returns `true` on a sized blob is within. -/
private theorem callWithin_of_done {b : ResponseBlob} {c : Call}
    (hcall : ∀ fuel, ∃ b', b.call fuel c = some (.inr (true, b')) ∧ Sized b') :
    CallWithin b c ∧ ∀ fuel ret b', b.call fuel c = some (.inr (ret, b')) → Sized b' := by
  have hcases : ∀ fuel ret b', b.call fuel c = some (.inr (ret, b')) → ret = true ∧ Sized b' := by
    intro fuel ret b' hret
    obtain ⟨b₁, hdone, hsized⟩ := hcall fuel
    rw [hdone] at hret
    cases hret
    exact ⟨rfl, hsized⟩
  refine ⟨⟨?_, ?_, ?_⟩, ?_⟩
  · intro fuel hnone
    obtain ⟨b', hdone, -⟩ := hcall fuel
    rw [hdone] at hnone
    cases hnone
  · exact fun fuel ret b' hret => (hcases fuel ret b' hret).2.toWithin
  · exact fun fuel b' hret => nomatch (hcases fuel false b' hret).1
  · exact fun fuel ret b' hret => (hcases fuel ret b' hret).2

/-- On a sized blob every operation that keeps what is in use stays within the buffer. -/
theorem Sized.call {b : ResponseBlob} (h : Sized b) {c : Call} (hkeep : KeepsUse b c) :
    CallWithin b c ∧ ∀ fuel ret b', b.call fuel c = some (.inr (ret, b')) → Sized b' := by
  cases c with
  | reset =>
    -- nothing is in use then
    apply callWithin_of_done
    exact fun fuel => ⟨b.reset, rfl, ⟨Nat.zero_le _, h.length_buff⟩, h.buffSize_lt⟩
  | realloc bytes hpos hlt alloc =>
    obtain ⟨-, hfalse⟩ | ⟨b', hne, halloc, htrue, huse, hsize, hlen⟩ := realloc_cases b bytes alloc
    · exact callWithin_of_kept h fun fuel => .inr (call_realloc hfalse fuel)
    · -- the one case the condition is about
      have hle := hkeep hne halloc
      apply callWithin_of_done
      refine fun fuel => ⟨b', call_realloc htrue fuel, ⟨?_, ?_⟩, ?_⟩
      · rw [huse, hsize]
        exact hle
      · rw [hlen, hsize]
      · rw [hsize]
        exact hlt
  | push data hlt alloc =>
    by_cases hroom : b.freeSize < data.length
    · exact callWithin_of_kept h fun fuel => h.push_of_no_room hlt hroom fuel alloc
    · exact callWithin_of_done fun fuel => h.push_of_room hroom fuel alloc

/-! ## Sequences -/

/-- As long as every `Realloc` keeps what is in use, the blob is sized. -/
theorem After.sized {b b' : ResponseBlob} {pre calls : List Call} (hb : Sized b)
    (hkeep : ∀ pre c b', pre ++ [c] <+: calls → After b pre b' → KeepsUse b' c)
    (h : After b pre b') (hpre : pre <+: calls) : Sized b' := by
  -- on the operations made so far, the last one at the end
  induction h with
  | nil => exact hb
  | @snoc pre b₁ b₂ c fuel ret hafter hret ih =>
    have hsized := ih ((List.prefix_append _ _).trans hpre)
    exact (hsized.call (hkeep pre c b₁ hpre hafter)).2 fuel ret b₂ hret

/-- From the constructor on, a sequence of operations stays within the buffer exactly when every
    `Realloc` that succeeds asks for no less than is in use then. -/
theorem staysWithin_iff (block : Nat → UInt8) (calls : List Call) :
    StaysWithin (new block) calls ↔
      ∀ pre c b, pre ++ [c] <+: calls → After (new block) pre b → KeepsUse b c := by
  constructor
  · -- only a `Realloc` can leave more in use than there is
    intro hstays pre c b hpre hafter
    cases c with
    | reset => trivial
    | push data hlt alloc => trivial
    | realloc bytes hpos hlt alloc =>
      intro hne halloc
      obtain ⟨hkept, -⟩ | ⟨b', -, -, htrue, huse, hsize, -⟩ := realloc_cases b bytes alloc
      · exact absurd hkept (not_or.2 ⟨hne, halloc⟩)
      · have hwithin := (hstays pre _ b hpre hafter).within 0 true b' (call_realloc htrue 0)
        rw [← huse, ← hsize]
        exact hwithin.useSize_le
  · intro hkeep pre c b hpre hafter
    have hsized := hafter.sized (sized_new block) hkeep ((List.prefix_append _ _).trans hpre)
    exact (hsized.call (hkeep pre c b hpre hafter)).1

/-- Two bytes in use, a block of one, and a copy behind it. -/
theorem staysWithin_realloc : ¬ StaysWithin (new fun _ => 0)
    [.push [1, 2] (by decide) none, .realloc 1 (by decide) (by decide) (some fun _ => 0),
      .push [3] (by decide) none] := by
  intro h
  have hfits : ([] ++ [1, 2] : List UInt8).length ≤ defaultBuffSize := by decide
  obtain ⟨b₁, hpush, hb₁⟩ := push_of_fits (contains_new fun _ => 0) hfits 0 none
  have hcall : (new fun _ => 0).call 0 (.push [1, 2] (by decide) none) = some (.inr (true, b₁)) :=
    hpush
  have h₁ : After (new fun _ => 0) [.push [1, 2] (by decide) none] b₁ := .snoc .nil hcall
  -- the second operation already leaves two bytes in use of one
  obtain ⟨hkept, -⟩ | ⟨b₂, -, -, htrue, huse, hsize, -⟩ := realloc_cases b₁ 1 (some fun _ => 0)
  · rw [hb₁.buffSize_eq] at hkept
    exact absurd hkept (by decide)
  · have hwithin := (h _ (.realloc 1 (by decide) (by decide) (some fun _ => 0)) b₁
      ⟨[_], rfl⟩ h₁).within 0 true b₂ (call_realloc htrue 0)
    have hle := hwithin.useSize_le
    rw [huse, hsize, hb₁.useSize_eq] at hle
    exact absurd hle (by decide)

end XGame3.ResponseBlob
