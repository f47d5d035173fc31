import Mathlib.Tactic.ByContra
import XGame3.Spec.CircleBufferCorrupt
import XGame3.Spec.CircleBufferQueue

/-!
# Writes of any length

`Write` and `WriteV` take a 64-bit length, but compare, copy and store `int`s.  As long as
the length and its eight bytes of framing fit an `int` the two calls do the same with the
same bytes.  Beyond that the narrowed length decides: a call whose narrowed length still
finds no room is refused as it should be, any other is let through.

## Key results

- `writeV_eq_write`: a gathered write is the write of the concatenation
- `refuses_iff`: which oversized calls are refused
- `Reached.holds`: calls that are refused properly keep the ring a queue
- `oversized_refused`: so in every ring reached by such calls the next one is refused
  properly exactly when its narrowed length finds no room
-/

namespace XGame3.CircleBuffer

open FixedInt LittleEndian Circular

variable {w : SizeT} {cb cb' : TagCircleBuffer}

/-! ## Gathered writes -/

/-- `WriteV` returns what `Write` of the concatenation returns and leaves the same ring, wherever
    the positions are and however the bytes are cut into segments. -/
theorem writeV_eq_write (w : SizeT) (cb : TagCircleBuffer) (hint : IsInt32 cb.maxLength)
    (hread : 0 ≤ cb.readPos ∧ cb.readPos ≤ cb.maxLength)
    (hwrite : 0 ≤ cb.writePos ∧ cb.writePos ≤ cb.maxLength) (iov : List (List UInt8))
    (hiov : iov.flatten.length < 2147483640) :
    ∃ r, write w cb iov.flatten = some r ∧ writeV w cb iov = some r := by
  have hM : cb.maxLength = (cb.maxLength.toNat : Int) := by omega
  have hlt : cb.maxLength.toNat < 2147483648 := by omega
  have hperform : ∀ call : WriteCall, call.message = iov.flatten → call.perform w cb =
      some (if writeCapacity cb.maxLength.toNat cb.readPos cb.writePos.toNat <
          (iov.flatten.length : Int) + 8 then (-1, cb)
        else ((iov.flatten.length : Int),
          push cb cb.maxLength.toNat cb.writePos.toNat iov.flatten)) := by
    intro call hmsg
    have h := call.perform_eq (w := w) hM hlt (by omega)
      (show cb.writePos.toNat ≤ cb.maxLength.toNat by omega) (by omega) (by rwa [hmsg])
    rwa [hmsg] at h
  exact ⟨_, hperform (.write iov.flatten) List.flatten_singleton, hperform (.writeV iov) rfl⟩

/-- The end of the ring falls exactly between two segments. -/
theorem writeV_eq_write_wrap : ∃ r,
    write .eight ⟨20, 10, 13, 0, 0, fun _ => 0⟩ [1, 2, 3, 4] = some r ∧
      writeV .eight ⟨20, 10, 13, 0, 0, fun _ => 0⟩ [[1], [], [2, 3], [4]] = some r :=
  writeV_eq_write .eight ⟨20, 10, 13, 0, 0, fun _ => 0⟩ (by decide) (by decide) (by decide)
    [[1], [], [2, 3], [4]] (by decide)

/-! ## Oversized messages -/

/-- The free space, without overflow. -/
def freeSpace (cb : TagCircleBuffer) : Int :=
  cb.maxLength - 1 - (if cb.readPos ≤ cb.writePos then cb.writePos - cb.readPos
    else cb.writePos + cb.maxLength - cb.readPos)

/-- The capacity `Write` computes is the free space of the ring. -/
theorem Placed.writeCapacity_eq (h : Placed cb) :
    writeCapacity cb.maxLength cb.readPos cb.writePos = freeSpace cb := by
  obtain ⟨hpos, hlt, hr, hr', hw, hw'⟩ := h
  unfold writeCapacity freeSpace
  split <;> split <;> rw [int32_of_isInt32 (by omega)] <;> omega

/-- A ring is never free to the last byte. -/
theorem Placed.freeSpace_lt (h : Placed cb) : freeSpace cb < cb.maxLength := by
  obtain ⟨hpos, hlt, hr, hr', hw, hw'⟩ := h
  unfold freeSpace
  split <;> omega

/-- A message that does not fit is refused and changes nothing, and no write position outside the
    ring is stored. -/
def Refuses (cb : TagCircleBuffer) (call : WriteCall) : Prop :=
  (freeSpace cb < (call.message.length : Int) + 8 → call.perform .eight cb = some (-1, cb)) ∧
  ∀ r, call.perform .eight cb = some r → 0 ≤ r.2.writePos ∧ r.2.writePos ≤ cb.maxLength

/-- The message with its framing fits an `int`, or the length that is left of it when it is narrowed
    to one still finds no room. -/
def NarrowFits (cb : TagCircleBuffer) (call : WriteCall) : Prop :=
  (call.message.length : Int) + 8 < 2147483648 ∨
    freeSpace cb < int32 ((call.message.length : Int) + 8)

/-- The length the admission test compares with, narrowed. -/
theorem WriteCall.realSize_narrow (call : WriteCall)
    (hlen : call.message.length < 18446744073709551616) :
    int32 (SizeT.eight.wrap ((call.length .eight : Int) + 4 + 4)) =
      int32 ((call.message.length : Int) + 8) := by
  rw [int32_wrap, call.length_of_lt_modulus (w := .eight) hlen,
    show (call.message.length : Int) + 4 + 4 = (call.message.length : Int) + 8 by omega]

/-- Counting a message changes the counter. -/
theorem int32_add_one_ne (x : Int) : int32 (x + 1) ≠ x := by
  have hmod := int32_emod (x + 1)
  omega

/-- What does not fit is refused exactly when its length needs no cut to 32 bits, or, cut to them,
    still exceeds the free space. -/
theorem refuses_iff (h : Placed cb) (call : WriteCall)
    (hlen : call.message.length < 18446744073709551616) :
    Refuses cb call ↔ NarrowFits cb call := by
  have hstores := call.perform_eq_stores cb .eight
  rw [call.capacity_write, h.writeCapacity_eq, call.realSize_narrow hlen] at hstores
  have hfree := h.freeSpace_lt
  have hlt := h.lt
  have hunchanged : 0 ≤ cb.writePos ∧ cb.writePos ≤ cb.maxLength := ⟨h.le_writePos, h.writePos_le⟩
  constructor
  · intro hrefuses
    by_contra hnarrow
    unfold NarrowFits at hnarrow
    -- the narrowed length finds room, so the counter or more is changed
    have hrefused := hrefuses.1 (by omega)
    rw [if_neg (by omega), hrefused] at hstores
    obtain ⟨r, -, heq⟩ := Option.map_eq_some_iff.1 hstores.symm
    have hcount := congrArg (fun r => r.2.msgWrite) heq
    exact int32_add_one_ne cb.msgWrite hcount
  · intro hnarrow
    by_cases hfits : (call.message.length : Int) + 8 < 2147483648
    · have hsize := h.hasSize
      have hperform := call.perform_eq (w := .eight) hsize.maxLength_eq hsize.lt
        (by have := h.le_readPos; have := h.readPos_le; omega)
        (show cb.writePos.toNat ≤ cb.maxLength.toNat by omega) (by omega) (by omega)
      rw [← hsize.maxLength_eq, Int.toNat_of_nonneg hunchanged.1, h.writeCapacity_eq] at hperform
      constructor
      · intro hfull
        rw [hperform, if_pos hfull]
      · intro r hr
        rw [hperform] at hr
        obtain rfl := Option.some.inj hr
        split
        · exact hunchanged
        · -- the frame ends inside the ring
          have hadv := advance_le (M := cb.maxLength.toNat) (p := cb.writePos.toNat)
            (n := call.message.length + 8) (by omega) (by omega)
          change 0 ≤ ((advance _ _ _ : Nat) : Int) ∧ ((advance _ _ _ : Nat) : Int) ≤ _
          omega
    · -- what is left of the length finds no room either
      rw [if_pos (by unfold NarrowFits at hnarrow; omega)] at hstores
      constructor
      · exact fun _ => hstores
      · intro r hr
        rw [hstores] at hr
        obtain rfl := Option.some.inj hr
        exact hunchanged

/-! ## Runs -/

/-- The call is a write whose narrowed length is harmless on this ring, or no write. -/
def Op.Narrow (cb : TagCircleBuffer) : Op → Prop
  | .write m => m.length < 18446744073709551616 ∧ NarrowFits cb (.write m)
  | .writeV iov => iov.flatten.length < 18446744073709551616 ∧ NarrowFits cb (.writeV iov)
  | .read _ => True
  | .clear => True
  | .empty => True

/-- The rings reached from a cleared one by such calls. -/
inductive Reached (cb₀ : TagCircleBuffer) : TagCircleBuffer → Prop
  | cleared : Reached cb₀ (clear cb₀).2
  | step {cb cb' : TagCircleBuffer} {op : Op} {res : Result} : Reached cb₀ cb → op.Narrow cb →
      CircleBuffer.step .eight cb op = some (res, cb') → Reached cb₀ cb'

/-- A ring that holds a queue has its positions inside. -/
theorem Holds.placed {M r : Nat} {q : List (List UInt8)} (h : Holds cb M r q) : Placed cb := by
  have hM := h.size.maxLength_eq
  have hpos := h.size.pos
  have hlt := h.size.lt
  obtain ⟨h1, h2, h3, h4⟩ := h.pos_range
  exact ⟨by omega, by omega, h1, by omega, h3, by omega⟩

/-- A write that is harmless leaves a ring that holds a queue. -/
theorem Holds.perform {M r : Nat} {q : List (List UInt8)} {ret : Int} (h : Holds cb M r q)
    {call : WriteCall} (hlen : call.message.length < 18446744073709551616)
    (hnarrow : NarrowFits cb call) (hr : call.perform .eight cb = some (ret, cb')) :
    ∃ r' q', Holds cb' M r' q' := by
  by_cases hfits : call.message.length < 2147483640
  · rw [call.perform_apart h.size h.r_le h.used_lt h.readPos_eq h.writePos_eq hfits] at hr
    split at hr
    · rename_i hroom
      obtain ⟨-, rfl⟩ := Prod.mk.inj (Option.some.inj hr)
      exact ⟨r, _, h.push hroom⟩
    · obtain ⟨-, rfl⟩ := Prod.mk.inj (Option.some.inj hr)
      exact ⟨r, q, h⟩
  · -- such a message is refused
    have hfree := h.placed.freeSpace_lt
    have hlt := h.placed.lt
    have hrefused := ((refuses_iff h.placed call hlen).2 hnarrow).1 (by omega)
    rw [hrefused] at hr
    obtain ⟨-, rfl⟩ := Prod.mk.inj (Option.some.inj hr)
    exact ⟨r, q, h⟩

/-- Every reachable ring holds some queue. -/
theorem Reached.holds {cb₀ : TagCircleBuffer} {M : Nat} (hcb : HasSize cb₀ M)
    (h : Reached cb₀ cb) : ∃ r q, Holds cb M r q := by
  induction h with
  | cleared => exact ⟨0, [], Holds.clear hcb⟩
  | @step cb cb' op res _ hop hstep ih =>
    obtain ⟨r, q, hholds⟩ := ih
    unfold CircleBuffer.step at hstep
    cases op with
    | write m =>
      -- one segment
      have hmsg : (WriteCall.write m).message = m := List.flatten_singleton
      obtain ⟨⟨ret, cb₁⟩, hwrite, heq⟩ := Option.map_eq_some_iff.1 hstep
      obtain ⟨-, rfl⟩ := Prod.mk.inj heq
      obtain ⟨hlen, hnarrow⟩ := hop
      rw [← hmsg] at hlen
      exact hholds.perform hlen hnarrow hwrite
    | writeV iov =>
      obtain ⟨⟨ret, cb₁⟩, hwrite, heq⟩ := Option.map_eq_some_iff.1 hstep
      obtain ⟨-, rfl⟩ := Prod.mk.inj heq
      obtain ⟨hlen, hnarrow⟩ := hop
      have hmsg : (WriteCall.writeV iov).message = iov.flatten := rfl
      rw [← hmsg] at hlen
      exact hholds.perform hlen hnarrow hwrite
    | read buf =>
      obtain ⟨⟨res, cb₁⟩, hread, heq⟩ := Option.map_eq_some_iff.1 hstep
      obtain ⟨-, rfl⟩ := Prod.mk.inj heq
      rw [hholds.read_narrow] at hread
      cases q with
      | nil =>
        obtain ⟨-, rfl⟩ := Prod.mk.inj (Option.some.inj hread)
        exact ⟨r, [], hholds⟩
      | cons m q =>
        dsimp only at hread
        split at hread
        · -- too long for the caller's buffer: it stays
          obtain ⟨-, rfl⟩ := Prod.mk.inj (Option.some.inj hread)
          exact ⟨r, m :: q, hholds⟩
        · obtain ⟨-, rfl⟩ := Prod.mk.inj (Option.some.inj hread)
          exact ⟨_, q, hholds.pop⟩
    | clear =>
      obtain ⟨-, rfl⟩ := Prod.mk.inj (Option.some.inj hstep)
      exact ⟨0, [], Holds.clear hholds.size⟩
    | empty =>
      obtain ⟨-, rfl⟩ := Prod.mk.inj (Option.some.inj hstep)
      exact ⟨r, q, hholds⟩

/-- In every ring reached from a cleared one by calls whose narrowed lengths are harmless, the next
    call of either kind is refused when it has no room, and leaves the write position in the
    ring, exactly when its own narrowed length is. -/
theorem oversized_refused (cb₀ : TagCircleBuffer) (hpos : 0 < cb₀.maxLength)
    (hint : IsInt32 cb₀.maxLength) (cb : TagCircleBuffer) (h : Reached cb₀ cb) (call : WriteCall)
    (hlen : call.message.length < 18446744073709551616) :
    Refuses cb call ↔ NarrowFits cb call := by
  have hsize : HasSize cb₀ cb₀.maxLength.toNat := ⟨by omega, by omega, by omega⟩
  obtain ⟨r, q, hholds⟩ := h.holds hsize
  exact refuses_iff hholds.placed call hlen

/-- A ring of 64 bytes after `Clear`. -/
def cleared64 : TagCircleBuffer := (clear ⟨64, 0, 0, 0, 0, fun _ => 0⟩).2

/-- There is data of every length. -/
theorem exists_bytes (n : Nat) : ∃ data : List UInt8, data.length = n :=
  ⟨List.replicate n 0, List.length_replicate⟩

/-- What is left of `2 ^ 32 + 92` bytes has no room either. -/
theorem oversized_refused_narrow : ∃ data : List UInt8, data.length = 4294967388 ∧
    Refuses cleared64 (.writeV [data]) := by
  obtain ⟨data, hdata⟩ := exists_bytes 4294967388
  have hmsg : (WriteCall.writeV [data]).message.length = 4294967388 := by
    rw [← hdata]
    exact congrArg List.length List.flatten_singleton
  have hiff := oversized_refused ⟨64, 0, 0, 0, 0, fun _ => 0⟩ (by decide) (by decide) cleared64
    .cleared (.writeV [data]) (by rw [hmsg]; decide)
  refine ⟨data, hdata, hiff.2 ?_⟩
  unfold NarrowFits
  rw [hmsg]
  decide

/-- A message of `2 ^ 32 + 1` bytes is taken for one of a single byte. -/
theorem not_refuses : ∃ data : List UInt8, data.length = 4294967297 ∧
    ¬ Refuses cleared64 (.write data) := by
  obtain ⟨data, hdata⟩ := exists_bytes 4294967297
  have hmsg : (WriteCall.write data).message.length = 4294967297 := by
    rw [← hdata]
    exact congrArg List.length List.flatten_singleton
  have hplaced : Placed cleared64 :=
    ⟨by decide, by decide, by decide, by decide, by decide, by decide⟩
  refine ⟨data, hdata, ?_⟩
  rw [refuses_iff hplaced _ (by rw [hmsg]; decide)]
  unfold NarrowFits
  rw [hmsg]
  decide

end XGame3.CircleBuffer
