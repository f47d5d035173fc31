import Mathlib.Data.List.Induction
import XGame3.Native.ResponseBlob

/-!
# What a `ResponseBlob` accumulates

The growth loop of `Push` halves the candidate size while it is too small, so
it never leaves (`growBody_diverges`): the blob accumulates exactly as long as
everything pushed since the last `Reset` fits in the block of the constructor.

## Key results

- `push_of_fits`: a push that fits appends its bytes
- `push_of_not_fits`: a push that does not fit never returns
- `accumulates_iff`: a sequence of operations accumulates as intended exactly when
  the chunks since the last `Reset` never exceed `defaultBuffSize`
-/

namespace XGame3.ResponseBlob

open FixedInt

/-- The public operations, with the allocation outcome each push would see. -/
inductive Op where
  | reset
  | push (data : List UInt8) (alloc : Alloc)

/-- One operation that returns, and what `Push` returned. -/
def step (fuel : Nat) (b : ResponseBlob) : Op → Option (List Bool × ResponseBlob)
  | .reset => some ([], b.reset)
  | .push data alloc =>
    match b.push fuel data alloc with
    | some (.inr (ret, b)) => some ([ret], b)
    | _ => none

/-- A sequence of operations that all return, with the results of its pushes. -/
def runOps (fuel : Nat) (b : ResponseBlob) : List Op → Option (List Bool × ResponseBlob)
  | [] => some ([], b)
  | op :: ops => do
    let first ← step fuel b op
    let rest ← runOps fuel first.2 ops
    some (first.1 ++ rest.1, rest.2)

/-- The bytes pushed since the last `Reset`, after those in `acc`. -/
def pushed (acc : List UInt8) : List Op → List UInt8
  | [] => acc
  | .reset :: ops => pushed [] ops
  | .push data _ :: ops => pushed (acc ++ data) ops

/-- The bytes of all chunks of a sequence. -/
def totalBytes : List Op → Nat
  | [] => 0
  | .reset :: ops => totalBytes ops
  | .push data _ :: ops => data.length + totalBytes ops

/-- The intended effect of a sequence: it returns, every push returns `true`, and the first
    `getLength` bytes are the chunks since the last `Reset`. -/
def Accumulates (b : ResponseBlob) (ops : List Op) : Prop :=
  ∃ fuel rets b', runOps fuel b ops = some (rets, b') ∧ (∀ ret ∈ rets, ret = true) ∧
    b'.getLength = (pushed [] ops).length ∧ b'.getData.take b'.getLength = pushed [] ops

/-! ## One push -/

/-- The growth loop goes on from every size that is too small. -/
theorem growBody_diverges (need newSize : Nat) (h : newSize < need) (fuel : Nat) :
    ∃ s, Loop.run (growBody need) fuel newSize = some (.inl s) := by
  refine Loop.run_diverges (I := fun s => s < need) (fun s hs => ⟨s >>> 1, ?_, ?_⟩) fuel h
  · rw [growBody, if_pos hs]
  · have hhalf : s >>> 1 = s / 2 := Nat.shiftRight_eq_div_pow s 1
    omega

/-- A blob that holds `acc` in the block of the constructor. -/
structure Contains (b : ResponseBlob) (acc : List UInt8) : Prop where
  buffSize_eq : b.buffSize = defaultBuffSize
  length_buff : b.buff.length = defaultBuffSize
  useSize_eq : b.useSize = acc.length
  fits : acc.length ≤ defaultBuffSize
  take_eq : b.buff.take acc.length = acc

/-- A new blob contains nothing. -/
theorem contains_new (block : Nat → UInt8) : Contains (new block) [] where
  buffSize_eq := rfl
  length_buff := by simp only [new, List.length_map, List.length_range]
  useSize_eq := rfl
  fits := Nat.zero_le _
  take_eq := rfl

/-- `Reset` empties it. -/
theorem Contains.reset {b : ResponseBlob} {acc : List UInt8} (h : Contains b acc) :
    Contains b.reset [] :=
  ⟨h.buffSize_eq, h.length_buff, rfl, Nat.zero_le _, rfl⟩

/-- The free size is what the content leaves of the default buffer. -/
theorem Contains.freeSize_eq {b : ResponseBlob} {acc : List UInt8} (h : Contains b acc) :
    b.freeSize = defaultBuffSize - acc.length := by
  have hfits := h.fits
  have hsmall : defaultBuffSize - acc.length < SizeT.eight.modulus := by
    simp only [defaultBuffSize, SizeT.modulus]
    omega
  rw [freeSize, h.buffSize_eq, h.useSize_eq, ← Int.natCast_sub hfits]
  exact SizeT.wrap_natCast hsmall

/-- A push that fits appends its bytes, whatever the allocator would do. -/
theorem push_of_fits {b : ResponseBlob} {acc data : List UInt8} (h : Contains b acc)
    (hfits : (acc ++ data).length ≤ defaultBuffSize) (fuel : Nat) (alloc : Alloc) :
    ∃ b', b.push fuel data alloc = some (.inr (true, b')) ∧ Contains b' (acc ++ data) := by
  rw [List.length_append] at hfits
  have hbound : defaultBuffSize < SizeT.eight.modulus := by decide
  -- a content that fits is far from wrapping
  have hwrap : SizeT.eight.wrap ((acc.length : Int) + data.length) = acc.length + data.length := by
    rw [← Int.natCast_add]
    exact SizeT.wrap_natCast (by omega)
  have hlen := h.length_buff
  rw [push, h.freeSize_eq, if_neg (by omega), append, h.useSize_eq, if_pos (by omega)]
  -- the bytes are appended behind those of before
  refine ⟨_, rfl, h.buffSize_eq, ?_, ?_, ?_, ?_⟩
  · simp only [h.take_eq, List.length_append, List.length_drop]
    omega
  · simp only [hwrap, List.length_append]
  · simp only [List.length_append]
    omega
  · simp only [h.take_eq]
    exact List.take_left

/-- A push that does not fit is still in its growth loop after any number of iterations. -/
theorem push_of_not_fits {b : ResponseBlob} {acc data : List UInt8} (h : Contains b acc)
    (hfits : defaultBuffSize < (acc ++ data).length)
    (hsize : (acc ++ data).length < SizeT.eight.modulus) (fuel : Nat) (alloc : Alloc) :
    ∃ s, b.push fuel data alloc = some (.inl s) := by
  rw [List.length_append] at hfits hsize
  have hacc := h.fits
  have hwrap : SizeT.eight.wrap ((data.length : Int) + b.useSize) = data.length + acc.length := by
    rw [h.useSize_eq, ← Int.natCast_add]
    exact SizeT.wrap_natCast (by omega)
  obtain ⟨s, hs⟩ := growBody_diverges (data.length + acc.length) defaultBuffSize
    (by omega) fuel
  refine ⟨s, ?_⟩
  rw [push, h.freeSize_eq, if_pos (by omega), hwrap, h.buffSize_eq, hs]

/-! ## Sequences -/

/-- Two runs of operations after one another are the run of both lists. -/
theorem runOps_append (fuel : Nat) (b : ResponseBlob) (ops ops' : List Op) :
    runOps fuel b (ops ++ ops') = (runOps fuel b ops).bind fun first =>
      (runOps fuel first.2 ops').bind fun rest => some (first.1 ++ rest.1, rest.2) := by
  induction ops generalizing b with
  | nil =>
    simp only [List.nil_append, runOps, Option.bind_some]
    cases runOps fuel b ops' <;> rfl
  | cons op ops ih =>
    simp only [List.cons_append, runOps, Option.bind_eq_bind, ih]
    cases step fuel b op with
    | none => rfl
    | some first =>
      simp only [Option.bind_some]
      cases runOps fuel first.2 ops with
      | none => rfl
      | some mid =>
        simp only [Option.bind_some]
        cases runOps fuel mid.2 ops' with
        | none => rfl
        | some rest => simp only [Option.bind_some, List.append_assoc]

/-- The content two lists of operations leave is that of the joined list. -/
theorem pushed_append (acc : List UInt8) (ops ops' : List Op) :
    pushed acc (ops ++ ops') = pushed (pushed acc ops) ops' := by
  induction ops generalizing acc with
  | nil => rfl
  | cons op ops ih => cases op <;> exact ih _

/-- The bytes pushed add up. -/
theorem totalBytes_append (ops ops' : List Op) :
    totalBytes (ops ++ ops') = totalBytes ops + totalBytes ops' := by
  induction ops with
  | nil => simp only [List.nil_append, totalBytes, Nat.zero_add]
  | cons op ops ih => cases op <;> simp only [List.cons_append, totalBytes, ih, Nat.add_assoc]

/-- No more is kept than was pushed. -/
theorem length_pushed_le (acc : List UInt8) (ops : List Op) :
    (pushed acc ops).length ≤ acc.length + totalBytes ops := by
  induction ops generalizing acc with
  | nil => exact Nat.le_add_right _ _
  | cons op ops ih =>
    cases op with
    | reset =>
      have := ih []
      simp only [pushed, totalBytes, List.length_nil] at this ⊢
      omega
    | push data alloc =>
      have := ih (acc ++ data)
      simp only [pushed, totalBytes, List.length_append] at this ⊢
      omega

/-- While everything fits, the blob holds what was pushed. -/
theorem runOps_of_fits (fuel : Nat) (ops : List Op) {b : ResponseBlob} {acc : List UInt8}
    (h : Contains b acc)
    (hfits : ∀ pre, pre <+: ops → (pushed acc pre).length ≤ defaultBuffSize) :
    ∃ rets b', runOps fuel b ops = some (rets, b') ∧ (∀ ret ∈ rets, ret = true) ∧
      Contains b' (pushed acc ops) := by
  induction ops generalizing b acc with
  | nil => exact ⟨[], b, rfl, by simp, h⟩
  | cons op ops ih =>
    have hlater : ∀ pre, pre <+: ops → (pushed acc (op :: pre)).length ≤ defaultBuffSize :=
      fun pre hpre => hfits _ (List.cons_prefix_cons.mpr ⟨rfl, hpre⟩)
    cases op with
    | reset =>
      -- nothing of what was pushed before counts any more
      obtain ⟨rets, b', hrun, htrue, hb'⟩ := ih h.reset hlater
      refine ⟨rets, b', ?_, htrue, hb'⟩
      simp only [runOps, step, Option.bind_eq_bind, Option.bind_some, hrun, List.nil_append]
    | push data alloc =>
      obtain ⟨b₁, hpush, hb₁⟩ := push_of_fits h (hlater [] (List.nil_prefix)) fuel alloc
      obtain ⟨rets, b', hrun, htrue, hb'⟩ := ih hb₁ hlater
      refine ⟨true :: rets, b', ?_, ?_, hb'⟩
      · simp only [runOps, step, hpush, Option.bind_eq_bind, Option.bind_some, hrun,
          List.singleton_append]
      · intro ret hret
        rcases List.mem_cons.mp hret with rfl | hret
        · rfl
        · exact htrue ret hret

/-- A sequence whose last push does not fit does not return. -/
theorem not_accumulates_concat {block : Nat → UInt8} (ops : List Op) {data : List UInt8}
    {alloc : Alloc}
    (hfits : ∀ pre, pre <+: ops → (pushed [] pre).length ≤ defaultBuffSize)
    (hover : defaultBuffSize < (pushed [] ops ++ data).length)
    (hsize : (pushed [] ops ++ data).length < SizeT.eight.modulus) :
    ¬ Accumulates (new block) (ops ++ [.push data alloc]) := by
  rintro ⟨fuel, rets, b', hrun, -⟩
  obtain ⟨rets₁, b₁, hrun₁, -, hb₁⟩ := runOps_of_fits fuel ops (contains_new block) hfits
  obtain ⟨s, hs⟩ := push_of_not_fits hb₁ hover hsize fuel alloc
  rw [runOps_append, hrun₁] at hrun
  simp only [runOps, step, hs, Option.bind_eq_bind, Option.bind_some, Option.bind_none] at hrun
  exact nomatch hrun

/-- A newly constructed blob accumulates through a sequence of operations, at every point of
    it, exactly when the bytes since the last `Reset` never exceed the first block.  What
    the allocator would do does not matter: no call gets as far as asking it. -/
theorem accumulates_iff (block : Nat → UInt8) (ops : List Op)
    (htotal : totalBytes ops < 9223372036854775808) :
    (∀ pre, pre <+: ops → Accumulates (new block) pre) ↔
      ∀ pre, pre <+: ops → (pushed [] pre).length ≤ defaultBuffSize := by
  constructor
  · intro hacc
    induction ops using List.reverseRecOn with
    | nil =>
      intro pre hpre
      rw [List.prefix_nil.mp hpre]
      exact Nat.zero_le _
    | append_singleton ops op ih =>
      have hsmall : totalBytes ops < 9223372036854775808 := by
        rw [totalBytes_append] at htotal
        omega
      have hfits := ih hsmall fun pre hpre => hacc pre (hpre.trans (List.prefix_append _ _))
      intro pre hpre
      rcases List.prefix_concat_iff.mp hpre with rfl | hpre
      · rw [pushed_append]
        cases op with
        | reset => exact Nat.zero_le _
        | push data alloc =>
          refine Nat.le_of_not_lt fun hover => ?_
          -- the whole sequence would not return
          have hlen := length_pushed_le [] (ops ++ [Op.push data alloc])
          rw [pushed_append] at hlen
          simp only [pushed, List.length_nil] at hlen hover
          refine not_accumulates_concat ops hfits (by omega) ?_ (hacc _ (List.prefix_refl _))
          simp only [SizeT.modulus]
          omega
      · exact hfits pre hpre
  · intro hfits pre hpre
    obtain ⟨rets, b', hrun, htrue, hb'⟩ := runOps_of_fits 0 pre (contains_new block)
      fun pre' hpre' => hfits pre' (hpre'.trans hpre)
    refine ⟨0, rets, b', hrun, htrue, hb'.useSize_eq, ?_⟩
    rw [getLength, hb'.useSize_eq, getData, hb'.take_eq]

/-- Two pushes and a reset stay within the block. -/
theorem accumulates_iff_reset :
    Accumulates (new fun _ => 0) [.push [1, 2] none, .reset, .push [3] none] := by
  have hiff := accumulates_iff (fun _ => 0) [.push [1, 2] none, .reset, .push [3] none] (by decide)
  apply hiff.mpr _ _ (List.prefix_refl _)
  intro pre hpre
  have hlen := length_pushed_le [] pre
  obtain ⟨post, hpost⟩ := hpre
  have htotal := totalBytes_append pre post
  rw [hpost] at htotal
  simp only [totalBytes, List.length_cons, List.length_nil] at htotal hlen
  simp only [defaultBuffSize]
  omega

/-- One chunk of 257 bytes on a new blob keeps `Push` in its loop for ever. -/
theorem not_accumulates_257 :
    ¬ Accumulates (new fun _ => 0)
      [.push (List.replicate 257 0) (some fun _ => 0)] := by
  refine not_accumulates_concat [] (fun pre hpre => ?_) ?_ ?_
  · rw [List.prefix_nil.mp hpre]
    exact Nat.zero_le _
  · simp only [pushed, List.nil_append, List.length_replicate, defaultBuffSize]
    omega
  · simp only [pushed, List.nil_append, List.length_replicate, SizeT.modulus]
    omega

end XGame3.ResponseBlob
