import Mathlib.Algebra.GroupWithZero.Nat
import XGame3.Spec.CircleBufferCopy

/-!
# The ring is a bounded FIFO of byte strings

`Fifo` says what the ring is for: a queue of byte strings, of which each one
occupies its length plus eight bytes and all together at most `M - 1`.
`Holds cb M r q` ties a ring to such a queue: the unread cells starting at the
raw position `r` are the frames of `q`, and the write position is `r` advanced
by exactly that many cells.  Stating the write position as `advance M r (used q)`
is what keeps `M` and `0` apart: a full and an empty ring can only be confused
when `used q = M`, which admission excludes.

## Key results

- `writeStores_eq`: the stores of an admitted call are those of one frame
- `write_eq` / `writeV_eq` / `read_eq`: one call on a ring that holds a queue
- `step_refines`: every operation refines `Fifo.step`
- `run_refines`: so does every sequence of operations
- `run_clear_refines`: a ring set up by `Clear` is the empty queue, whatever it held before
-/

namespace XGame3.CircleBuffer

open FixedInt LittleEndian Circular

/-! ## Frames -/

/-- The bytes a message occupies in the ring. -/
def frame (m : List UInt8) : List UInt8 := toLE 4 m.length ++ (m ++ toLE 4 checkData)

/-- The frames of a queue, oldest first. -/
def frames (q : List (List UInt8)) : List UInt8 := q.flatMap frame

/-- The bytes a queue occupies. -/
def used (q : List (List UInt8)) : Nat := (q.map fun x => x.length + 8).sum

/-- A frame is eight bytes longer than its message. -/
@[simp] theorem length_frame (m : List UInt8) : (frame m).length = m.length + 8 := by
  simp only [frame, List.length_append, length_toLE]
  omega

/-- An empty queue takes no room. -/
@[simp] theorem used_nil : used [] = 0 := rfl

/-- The frame of one more message. -/
@[simp] theorem used_cons (m : List UInt8) (q : List (List UInt8)) :
    used (m :: q) = m.length + 8 + used q := by
  simp only [used, List.map_cons, List.sum_cons]

/-- Messages in two parts. -/
@[simp] theorem used_append (q q' : List (List UInt8)) : used (q ++ q') = used q + used q' := by
  simp only [used, List.map_append, List.sum_append]

/-- No frame. -/
@[simp] theorem frames_nil : frames [] = [] := rfl

/-- One more frame in front. -/
@[simp] theorem frames_cons (m : List UInt8) (q : List (List UInt8)) :
    frames (m :: q) = frame m ++ frames q := by
  simp only [frames, List.flatMap_cons]

/-- Frames in two parts. -/
@[simp] theorem frames_append (q q' : List (List UInt8)) :
    frames (q ++ q') = frames q ++ frames q' := by
  simp only [frames, List.flatMap_append]

/-- The frames take the room that is used. -/
@[simp] theorem length_frames (q : List (List UInt8)) : (frames q).length = used q := by
  induction q with
  | nil => rfl
  | cons m q ih => simp only [frames_cons, List.length_append, length_frame, ih, used_cons]

/-- Every frame takes room. -/
theorem used_eq_zero_iff (q : List (List UInt8)) : used q = 0 ↔ q = [] := by
  cases q with
  | nil => simp only [used_nil]
  | cons m q =>
    simp only [used_cons, reduceCtorEq, iff_false]
    omega

/-! ## The abstract queue -/

/-- One call: a message, the segments of an iovec, or the caller's read buffer. -/
inductive Op where
  | write (m : List UInt8)
  | writeV (iov : List (List UInt8))
  | read (buf : List UInt8)
  | clear
  | empty

/-- What a call reports. -/
inductive Result where
  | written (ret : Int)
  | read (r : ReadResult)
  | cleared (ret : Int)
  | empty (b : Bool)
  deriving DecidableEq, Repr

/-- The call reported failure. -/
def Result.failed : Result → Prop
  | written ret => ret < 0
  | read r => r.ret < 0
  | cleared _ => False
  | empty _ => False

/-- Sizes the callers keep to: messages and gathered totals below `2 ^ 31 - 8` bytes,
    read buffers below `2 ^ 31`. -/
def Op.Sized : Op → Prop
  | write m => m.length < 2147483640
  | writeV iov => iov.flatten.length < 2147483640
  | read buf => buf.length < 2147483648
  | clear => True
  | empty => True

namespace Fifo

/-- Append `m` when its frame fits under the `M - 1` bytes. -/
def write (M : Nat) (q : List (List UInt8)) (m : List UInt8) : Result × List (List UInt8) :=
  if used q + (m.length + 8) ≤ M - 1 then (.written m.length, q ++ [m]) else (.written (-1), q)

/-- Take the oldest message if the buffer can hold it. -/
def read (q : List (List UInt8)) (buf : List UInt8) : Result × List (List UInt8) :=
  match q with
  | [] => (.read ⟨-1, buf, 0⟩, [])
  | m :: q =>
    if buf.length < m.length then (.read ⟨-2, buf, buf.length⟩, m :: q)
    else (.read ⟨m.length, m ++ buf.drop m.length, m.length⟩, q)

/-- One call on the queue. -/
def step (M : Nat) (q : List (List UInt8)) : Op → Result × List (List UInt8)
  | .write m => write M q m
  | .writeV iov => write M q iov.flatten
  | .read buf => read q buf
  | .clear => (.cleared 0, [])
  | .empty => (.empty q.isEmpty, q)

/-- A sequence of calls on the queue. -/
def run (M : Nat) : List (List UInt8) → List Op → List Result × List (List UInt8)
  | q, [] => ([], q)
  | q, op :: ops =>
    let (res, q) := step M q op
    let (rs, q) := run M q ops
    (res :: rs, q)

end Fifo

/-- One call on the ring. -/
def step (w : SizeT) (cb : TagCircleBuffer) : Op → Option (Result × TagCircleBuffer)
  | .write m => (write w cb m).map fun (ret, cb) => (.written ret, cb)
  | .writeV iov => (writeV w cb iov).map fun (ret, cb) => (.written ret, cb)
  | .read buf => (read w cb buf buf.length).map fun (r, cb) => (.read r, cb)
  | .clear => let (ret, cb) := clear cb; some (.cleared ret, cb)
  | .empty => some (.empty (empty cb), cb)

/-- A sequence of calls on the ring. -/
def run (w : SizeT) : TagCircleBuffer → List Op → Option (List Result × TagCircleBuffer)
  | cb, [] => some ([], cb)
  | cb, op :: ops => do
    let (res, cb) ← step w cb op
    let (rs, cb) ← run w cb ops
    some (res :: rs, cb)

/-! ## One write -/

/-- The ring after the frame of `m` was written at `p` and published. -/
def push (cb : TagCircleBuffer) (M p : Nat) (m : List UInt8) : TagCircleBuffer :=
  { cb with
    data := writeAt cb.data M p (frame m)
    writePos := (advance M p (m.length + 8) : Nat)
    msgWrite := int32 (cb.msgWrite + 1) }

/-- The length loop adds up without wrapping. -/
theorem iovLength_eq {w : SizeT} (iov : List (List UInt8)) (hlen : iov.flatten.length < w.modulus) :
    iovLength w iov = iov.flatten.length := by
  suffices h : ∀ (iov : List (List UInt8)) (acc : Nat), acc + iov.flatten.length < w.modulus →
      iov.foldl (fun length seg => w.wrap (length + seg.length)) acc = acc + iov.flatten.length by
    have := h iov 0 (by omega)
    rwa [Nat.zero_add] at this
  intro iov
  induction iov with
  | nil => intro acc _; rfl
  | cons seg iov ih =>
    intro acc hacc
    simp only [List.flatten_cons, List.length_append] at hacc ⊢
    have hwrap : w.wrap ((acc : Int) + seg.length) = acc + seg.length := by
      rw [← Int.natCast_add]
      exact SizeT.wrap_natCast (by omega)
    rw [List.foldl_cons, hwrap, ih _ (by omega), Nat.add_assoc]

/-- The length a call computes does not wrap, -/
theorem WriteCall.length_of_lt_modulus {w : SizeT} (call : WriteCall)
    (hcall : call.message.length < w.modulus) : call.length w = call.message.length := by
  cases call with
  | write m => simp only [length, message, segments, List.flatten_singleton]
  | writeV iov => exact iovLength_eq iov hcall

/-- where its caller keeps to the size. -/
theorem WriteCall.length_eq {w : SizeT} (call : WriteCall)
    (hcall : call.message.length < 2147483640) : call.length w = call.message.length :=
  call.length_of_lt_modulus (Nat.lt_of_lt_of_le hcall (Nat.le_trans (by decide) w.le_modulus))

/-- The length an admission test compares with. -/
theorem realSize_eq {w : SizeT} (n : Nat) (hn : n < 2147483640) :
    int32 (w.wrap ((n : Int) + 4 + 4)) = (n : Int) + 8 := by
  have h := w.wrap_of_lt (show n + 8 < 4294967296 by omega)
  rw [show (n : Int) + 4 + 4 = ((n + 8 : Nat) : Int) by omega, h, int32_of_isInt32 (by omega)]
  omega

section Calls

variable {w : SizeT} {cb : TagCircleBuffer} {M r u p : Nat}

/-- The two admission tests differ in the order of their terms. -/
theorem WriteCall.capacity_write (call : WriteCall) (maxLength readPos writePos : Int) :
    call.capacity maxLength readPos writePos = writeCapacity maxLength readPos writePos := by
  cases call with
  | write m => rfl
  | writeV iov =>
    unfold WriteCall.capacity writeVCapacity writeCapacity
    rw [show maxLength - writePos + readPos - 1 = readPos + maxLength - writePos - 1 by omega]

/-- The room that either call computes. -/
theorem WriteCall.capacity_eq (call : WriteCall) (hr : r ≤ M) (hu : u < M) (hlt : M < 2147483648) :
    call.capacity M r (advance M r u : Nat) = (M : Int) - 1 - u := by
  rw [call.capacity_write, writeCapacity_eq hr hu hlt]

/-- Header, payload and check word of an admitted call, one behind the other, are the frame
    of its message. -/
theorem writeStores_eq (call : WriteCall) (hp : p ≤ M) (hlt : M < 2147483648)
    (hfit : call.message.length + 8 < M) :
    writeStores w M p call = some (((advance M p (call.message.length + 8) : Nat) : Int),
      stores M p 0 (frame call.message)) := by
  have hp4 := advance_le hp (show 4 ≤ M by omega)
  have hpm := advance_le hp (show 4 + call.message.length ≤ M by omega)
  have hhead : realWriteStores M p (toLE w.bytes (call.length w)) 4 =
      some (((advance M p 4 : Nat) : Int), stores M p 0 (toLE 4 call.message.length)) := by
    have h := realWriteStores_eq 4 (toLE w.bytes (call.length w)) hp (by omega) hlt
      (by rw [length_toLE]; exact w.four_le_bytes)
    rw [take_toLE w.four_le_bytes, call.length_eq (by omega)] at h
    rw [call.length_eq (by omega)]
    exact h
  -- the segments are copied as one message
  have hbody : segmentStores M (advance M p 4 : Nat) call.segments =
      some (((advance M p (4 + call.message.length) : Nat) : Int),
        stores M p 4 call.message) := by
    rw [segmentStores_eq call.segments hp4 (show call.message.length < M by omega) hlt,
      ← WriteCall.message, advance_advance hp (by omega), stores_advance hp _ _ (by omega)]
  have hcheck : realWriteStores M (advance M p (4 + call.message.length) : Nat)
      (toLE 4 checkData) 4 = some (((advance M p (call.message.length + 8) : Nat) : Int),
        stores M p (4 + call.message.length) (toLE 4 checkData)) := by
    have h := realWriteStores_eq 4 (toLE 4 checkData) hpm (by omega) hlt
      (Nat.le_of_eq (length_toLE ..).symm)
    rw [List.take_of_length_le (Nat.le_of_eq (length_toLE ..)), advance_advance hp (by omega),
      stores_advance hp _ _ (by rw [length_toLE]; omega),
      show 4 + call.message.length + 4 = call.message.length + 8 by omega] at h
    exact h
  simp only [writeStores, Option.bind_eq_bind]
  rw [hhead, Option.bind_some, hbody, Option.bind_some, hcheck, Option.bind_some, frame,
    stores_append, stores_append, length_toLE, Nat.zero_add]

/-- There is never room for more than `M - 1` bytes. -/
theorem writeCapacity_le {r p : Int} (hlt : M < 2147483648) (hr : 0 ≤ r ∧ r ≤ M)
    (hp : 0 ≤ p ∧ p ≤ M) : writeCapacity M r p ≤ (M : Int) - 1 := by
  unfold writeCapacity
  split <;> rw [int32_of_isInt32 (by omega)] <;> omega

/-- A call either finds no room and changes nothing, or pushes its message. -/
theorem WriteCall.perform_eq (call : WriteCall) (hM : cb.maxLength = M) (hlt : M < 2147483648)
    (hr : 0 ≤ cb.readPos ∧ cb.readPos ≤ M) (hp : p ≤ M) (hwrite : cb.writePos = p)
    (hlen : call.message.length < 2147483640) :
    call.perform w cb = some (if writeCapacity M cb.readPos p < (call.message.length : Int) + 8 then
      (-1, cb) else ((call.message.length : Int), push cb M p call.message)) := by
  rw [call.perform_eq_stores, call.capacity_write, call.length_eq hlen, realSize_eq _ hlen, hM,
    hwrite]
  have hroom := writeCapacity_le (p := p) hlt hr (by omega)
  split
  · rfl
  · rw [writeStores_eq call hp hlt (by omega), Option.map_some,
      storeAll_stores _ _ hp (by rw [length_frame]; omega), int32_of_isInt32 (by omega), push, hM]

section

variable (hcb : HasSize cb M) (hr : r ≤ M) (hu : u < M) (hread : cb.readPos = r)
  (hwrite : cb.writePos = (advance M r u : Nat))

include hcb hr hu hread hwrite

/-- A call on raw positions `u` cells apart. -/
theorem WriteCall.perform_apart (call : WriteCall) (hlen : call.message.length < 2147483640) :
    call.perform w cb = some (if u + (call.message.length + 8) ≤ M - 1 then
      ((call.message.length : Int), push cb M (advance M r u) call.message) else (-1, cb)) := by
  have hpos := hcb.pos
  rw [call.perform_eq hcb.maxLength_eq hcb.lt (by omega) (advance_le hr (show u ≤ M by omega))
    hwrite hlen, hread, writeCapacity_eq hr hu hcb.lt]
  by_cases hfit : u + (call.message.length + 8) ≤ M - 1
  · rw [if_neg (by omega), if_pos hfit]
  · -- the frame would reach the read position
    rw [if_pos (by omega), if_neg hfit]

/-- `Write` on a ring in order: admitted when the frame fits. -/
theorem write_eq (m : List UInt8) (hm : m.length < 2147483640) :
    write w cb m = some (if u + (m.length + 8) ≤ M - 1 then
      ((m.length : Int), push cb M (advance M r u) m) else (-1, cb)) := by
  have hmsg : (WriteCall.write m).message = m := List.flatten_singleton
  have hperform := WriteCall.perform_apart (w := w) hcb hr hu hread hwrite (.write m)
    (by rwa [hmsg])
  rwa [hmsg] at hperform

/-- `WriteV` is `Write` of the concatenation. -/
theorem writeV_eq (iov : List (List UInt8)) (hiov : iov.flatten.length < 2147483640) :
    writeV w cb iov = some (if u + (iov.flatten.length + 8) ≤ M - 1 then
      ((iov.flatten.length : Int), push cb M (advance M r u) iov.flatten) else (-1, cb)) := by
  have hmsg : (WriteCall.writeV iov).message = iov.flatten := rfl
  have hperform := WriteCall.perform_apart (w := w) hcb hr hu hread hwrite (.writeV iov)
    (by rwa [hmsg])
  rwa [hmsg] at hperform

end

end Calls

/-- The check word survives the trip through the ring. -/
theorem checkSum_checkData : checkSum (ofLE (toLE 4 checkData)) = true := by
  rw [ofLE_toLE_of_lt (by decide), checkSum, beq_self_eq_true]

/-! ## A ring that holds a queue -/

/-- `cb` is a ring of `M` bytes whose unread cells, from raw position `r` on, are the
    frames of `q`. -/
structure Holds (cb : TagCircleBuffer) (M r : Nat) (q : List (List UInt8)) : Prop where
  size : HasSize cb M
  r_le : r ≤ M
  readPos_eq : cb.readPos = r
  writePos_eq : cb.writePos = (advance M r (used q) : Nat)
  used_lt : used q < M
  data_eq : readAt cb.data M r (used q) = frames q
  count_eq : (cb.msgWrite - cb.msgRead - q.length) % 4294967296 = 0

namespace Holds

variable {w : SizeT} {cb : TagCircleBuffer} {M r : Nat} {q : List (List UInt8)}

/-- The positions lie in the ring. -/
theorem pos_range (h : Holds cb M r q) :
    0 ≤ cb.readPos ∧ cb.readPos ≤ M ∧ 0 ≤ cb.writePos ∧ cb.writePos ≤ M := by
  have hr := h.r_le
  have hw := advance_le h.r_le (Nat.le_of_lt h.used_lt)
  rw [h.readPos_eq, h.writePos_eq]
  omega

/-- `Empty` compares raw positions, which only agree on the empty queue. -/
theorem empty_iff (h : Holds cb M r q) : empty cb = q.isEmpty := by
  have hpos := advance_eq_self_iff h.r_le h.used_lt
  rw [used_eq_zero_iff] at hpos
  rw [empty, h.readPos_eq, h.writePos_eq, Bool.eq_iff_iff, beq_iff_eq, List.isEmpty_iff, ← hpos]
  omega

/-- `Clear` leaves an empty queue. -/
theorem clear (hcb : HasSize cb M) : Holds (clear cb).2 M 0 [] where
  size := ⟨hcb.maxLength_eq, hcb.pos, hcb.lt⟩
  r_le := Nat.zero_le _
  readPos_eq := rfl
  writePos_eq := by simp only [used_nil, advance_zero (Nat.zero_le _)]; rfl
  used_lt := hcb.pos
  data_eq := rfl
  count_eq := rfl

/-- Memory that agrees on the unread cells holds the same queue. -/
theorem of_readAt (h : Holds cb M r q) {mem : Nat → UInt8}
    (hmem : readAt mem M r (used q) = readAt cb.data M r (used q)) :
    Holds { cb with data := mem } M r q where
  size := ⟨h.size.maxLength_eq, h.size.pos, h.size.lt⟩
  r_le := h.r_le
  readPos_eq := h.readPos_eq
  writePos_eq := h.writePos_eq
  used_lt := h.used_lt
  data_eq := hmem.trans h.data_eq
  count_eq := h.count_eq

/-- Publishing a frame that stands behind the unread cells appends its message. -/
theorem publish (h : Holds cb M r q) {m : List UInt8} (hfit : used q + (m.length + 8) ≤ M - 1)
    (hframe : readAt cb.data M (advance M r (used q)) (m.length + 8) = frame m) :
    Holds { cb with
      writePos := (advance M (advance M r (used q)) (m.length + 8) : Nat)
      msgWrite := int32 (cb.msgWrite + 1) } M r (q ++ [m]) where
  size := ⟨h.size.maxLength_eq, h.size.pos, h.size.lt⟩
  r_le := h.r_le
  readPos_eq := h.readPos_eq
  writePos_eq := by
    have hpos := h.size.pos
    simp only [used_append, used_cons, used_nil]
    rw [advance_advance h.r_le (by omega), Nat.add_zero]
  used_lt := by
    have hpos := h.size.pos
    simp only [used_append, used_cons, used_nil]
    omega
  data_eq := by
    have hpos := h.size.pos
    simp only [used_append, used_cons, used_nil, frames_append, frames_cons, frames_nil,
      List.append_nil, Nat.add_zero]
    rw [readAt_add _ h.r_le (by omega), h.data_eq, hframe]
  -- the counters may wrap, their difference modulo `2 ^ 32` does not
  count_eq := by
    have hcount := h.count_eq
    have hwrap := int32_emod (cb.msgWrite + 1)
    simp only [List.length_append, List.length_cons, List.length_nil]
    omega

/-- Writing and publishing a frame that fits appends its message. -/
theorem push (h : Holds cb M r q) {m : List UInt8} (hfit : used q + (m.length + 8) ≤ M - 1) :
    Holds (push cb M (advance M r (used q)) m) M r (q ++ [m]) := by
  have hpos := h.size.pos
  have hadv := advance_le h.r_le (show used q ≤ M by omega)
  have hlen := length_frame m
  have hframe := readAt_writeAt cb.data (frame m) hadv (by omega)
  rw [hlen] at hframe
  exact (h.of_readAt (readAt_writeAt_advance cb.data (frame m) h.r_le (by omega))).publish hfit
    hframe

/-- The four parts of the unread cells when the oldest message is `m`. -/
theorem parts {m : List UInt8} (h : Holds cb M r (m :: q)) :
    readAt cb.data M r 4 = toLE 4 m.length ∧
    readAt cb.data M (advance M r 4) m.length = m ∧
    readAt cb.data M (advance M r (4 + m.length)) 4 = toLE 4 checkData ∧
    readAt cb.data M (advance M r (m.length + 8)) (used q) = frames q := by
  have hlt := h.used_lt
  have hdata := h.data_eq
  simp only [used_cons, frames_cons] at hlt hdata
  -- the frame of the oldest message lies before the frames of the others
  obtain ⟨hframe, hrest⟩ := readAt_eq_append (frame m) (frames q) h.r_le
    (by simp only [length_frame, length_frames]; omega)
    (by rw [length_frame, length_frames]; exact hdata)
  rw [length_frame] at hframe
  rw [length_frame, length_frames] at hrest
  -- inside the frame, the length comes first
  obtain ⟨hhead, htail⟩ := readAt_eq_append (toLE 4 m.length) (m ++ toLE 4 checkData)
    h.r_le (by simp only [List.length_append, length_toLE]; omega)
    (by
      rw [length_toLE, List.length_append, length_toLE,
        show 4 + (m.length + 4) = m.length + 8 by omega]
      exact hframe)
  rw [length_toLE] at hhead htail
  -- then the message and the check number
  obtain ⟨hbody, hcheck⟩ := readAt_eq_append m (toLE 4 checkData)
    (advance_le h.r_le (show 4 ≤ M by omega)) (by rw [length_toLE]; omega)
    (by rw [← List.length_append]; exact htail)
  rw [length_toLE, advance_advance h.r_le (by omega)] at hcheck
  exact ⟨hhead, hbody, hcheck, hrest⟩

/-- The ring after the oldest message was consumed. -/
theorem pop {m : List UInt8} (h : Holds cb M r (m :: q)) :
    Holds { cb with
      readPos := (advance M r (m.length + 8) : Nat), msgRead := int32 (cb.msgRead + 1) }
      M (advance M r (m.length + 8)) q where
  size := ⟨h.size.maxLength_eq, h.size.pos, h.size.lt⟩
  r_le := by
    have hlt := h.used_lt
    rw [used_cons] at hlt
    exact advance_le h.r_le (by omega)
  readPos_eq := rfl
  -- the writing position is as far behind the new reading position as the others are long
  writePos_eq := by
    have hlt := h.used_lt
    rw [used_cons] at hlt
    rw [advance_advance h.r_le (by omega), ← used_cons]
    exact h.writePos_eq
  used_lt := by
    have hlt := h.used_lt
    rw [used_cons] at hlt
    omega
  data_eq := h.parts.2.2.2
  count_eq := by
    have hcount := h.count_eq
    have hwrap := int32_emod (cb.msgRead + 1)
    simp only [List.length_cons] at hcount ⊢
    omega

/-- `Read` on a ring that holds a queue; the size of the buffer is narrowed to `int`. -/
theorem read_narrow (h : Holds cb M r q) (buf : List UInt8) :
    read w cb buf buf.length = some (match q with
      | [] => (⟨-1, buf, 0⟩, cb)
      | m :: _ =>
        if int32 buf.length < m.length then (⟨-2, buf, buf.length⟩, cb)
        else (⟨m.length, m ++ buf.drop m.length, m.length⟩,
          { cb with
            readPos := (advance M r (m.length + 8) : Nat),
            msgRead := int32 (cb.msgRead + 1) })) := by
  simp only [read, h.readPos_eq, h.writePos_eq, h.size.maxLength_eq,
    readSize_eq h.r_le h.used_lt h.size.lt]
  cases q with
  | nil => rw [if_pos (by simp)]
  | cons m q =>
    -- the three copies of `Read` meet the three parts of the oldest frame
    obtain ⟨hhead, hbody, hcheck, -⟩ := h.parts
    have hlt := h.used_lt
    have hM := h.size.lt
    rw [used_cons] at hlt
    have hr := h.r_le
    have hr4 := advance_le hr (show 4 ≤ M by omega)
    have hword : realRead cb r (toLE 4 0) 4 =
      some (((advance M r 4 : Nat) : Int), toLE 4 m.length) := by
      have hread := realRead_eq 4 (toLE 4 0) h.size h.r_le (by omega)
        (Nat.le_of_eq (length_toLE ..).symm)
      rw [hhead, List.drop_eq_nil_of_le (Nat.le_of_eq (length_toLE ..)), List.append_nil] at hread
      exact hread
    have hsize : int32 (ofLE (toLE 4 m.length)) = (m.length : Int) := by
      rw [ofLE_toLE_of_lt (by omega), int32_of_isInt32 (by omega)]
    rw [if_neg (by simp only [used_cons]; omega), hword, Option.bind_eq_bind, Option.bind_some,
      hsize]
    simp only [readMsg]
    by_cases hsmall : int32 buf.length < m.length
    · -- the length word alone is read
      rw [if_pos (by omega), if_pos hsmall]
    · -- narrowed or not, the buffer is long enough
      have hfits : m.length ≤ buf.length := by
        have hmod := int32_emod buf.length
        have hrange := isInt32_int32 buf.length
        omega
      have hpay := realRead_eq m.length buf h.size hr4 (by omega) hfits
      rw [hbody, advance_advance h.r_le (by omega)] at hpay
      have hchk : realRead cb (advance M r (4 + m.length) : Nat) (toLE 4 0) 4 =
          some (((advance M r (m.length + 8) : Nat) : Int), toLE 4 checkData) := by
        have hr8 := advance_le hr (show 4 + m.length ≤ M by omega)
        have hread := realRead_eq 4 (toLE 4 0) h.size hr8 (by omega)
          (Nat.le_of_eq (length_toLE ..).symm)
        rw [hcheck, List.drop_eq_nil_of_le (Nat.le_of_eq (length_toLE ..)), List.append_nil,
          advance_advance h.r_le (by omega), show 4 + m.length + 4 = m.length + 8 by omega] at hread
        exact hread
      rw [if_neg (by omega), if_neg hsmall]
      simp only [w.wrap_of_lt (show m.length < 4294967296 by omega),
        int32_of_isInt32 (show IsInt32 (m.length : Int) by omega), hpay, hchk, Option.bind_eq_bind,
        Option.bind_some, checkSum_checkData, ↓reduceIte, h.size.maxLength_eq, h.writePos_eq]

/-- `Read` on a ring in order: the oldest message, if the buffer can hold it. -/
theorem read_eq (h : Holds cb M r q) (buf : List UInt8) (hbuf : buf.length < 2147483648) :
    read w cb buf buf.length = some (match q with
      | [] => (⟨-1, buf, 0⟩, cb)
      | m :: _ =>
        if buf.length < m.length then (⟨-2, buf, buf.length⟩, cb)
        else (⟨m.length, m ++ buf.drop m.length, m.length⟩,
          { cb with
            readPos := (advance M r (m.length + 8) : Nat),
            msgRead := int32 (cb.msgRead + 1) })) := by
  rw [h.read_narrow, int32_of_isInt32 (show IsInt32 (buf.length : Int) by omega)]
  simp only [Int.ofNat_lt]

end Holds

/-! ## Refinement of the queue -/

/-- What one call does to a ring that holds a queue: it reports what the queue reports and
    ends in a ring that holds the new queue; a call that fails leaves the ring alone. -/
theorem step_refines {w : SizeT} {cb : TagCircleBuffer} {M r : Nat} {q : List (List UInt8)}
    (h : Holds cb M r q) (op : Op) (hop : op.Sized) :
    ∃ cb' r', step w cb op = some ((Fifo.step M q op).1, cb') ∧
      Holds cb' M r' (Fifo.step M q op).2 ∧ ((Fifo.step M q op).1.failed → cb' = cb) := by
  cases op with
  | write m =>
    simp only [step, Fifo.step, Fifo.write,
      write_eq h.size h.r_le h.used_lt h.readPos_eq h.writePos_eq m hop, Option.map_some]
    split
    · rename_i hfit
      exact ⟨_, r, rfl, h.push hfit, by simp only [Result.failed]; omega⟩
    · exact ⟨cb, r, rfl, h, fun _ => rfl⟩
  | writeV iov =>
    simp only [step, Fifo.step, Fifo.write,
      writeV_eq h.size h.r_le h.used_lt h.readPos_eq h.writePos_eq iov hop, Option.map_some]
    split
    · rename_i hfit
      exact ⟨_, r, rfl, h.push hfit, by simp only [Result.failed]; omega⟩
    · exact ⟨cb, r, rfl, h, fun _ => rfl⟩
  | read buf =>
    simp only [step, Fifo.step, Fifo.read, h.read_eq buf hop, Option.map_some]
    cases q with
    | nil => exact ⟨cb, r, rfl, h, fun _ => rfl⟩
    | cons m q =>
      dsimp only
      split
      · -- too long for the caller's buffer
        exact ⟨cb, r, rfl, h, fun _ => rfl⟩
      · exact ⟨_, _, rfl, h.pop, by simp only [Result.failed]; omega⟩
  | clear => exact ⟨_, 0, rfl, Holds.clear h.size, fun hf => hf.elim⟩
  | empty =>
    refine ⟨cb, r, ?_, h, fun _ => rfl⟩
    simp only [step, Fifo.step, h.empty_iff]

/-- Calls on the ring are answered as calls on the queue. -/
theorem run_refines {w : SizeT} {M : Nat} (ops : List Op) {cb : TagCircleBuffer} {r : Nat}
    {q : List (List UInt8)} (h : Holds cb M r q) (hops : ∀ op ∈ ops, op.Sized) :
    ∃ cb' r', run w cb ops = some ((Fifo.run M q ops).1, cb') ∧
      Holds cb' M r' (Fifo.run M q ops).2 := by
  induction ops generalizing cb r q with
  | nil => exact ⟨cb, r, rfl, h⟩
  | cons op ops ih =>
    obtain ⟨cb₁, r₁, hstep, h₁, -⟩ := step_refines (w := w) h op (hops op (List.mem_cons_self ..))
    obtain ⟨cb₂, r₂, hrun, h₂⟩ := ih h₁ fun op' hop' => hops op' (List.mem_cons_of_mem _ hop')
    refine ⟨cb₂, r₂, ?_, h₂⟩
    simp only [run, hstep, Option.bind_eq_bind, Option.bind_some, hrun, Fifo.run]

/-- The queue's own reads report `-1`, `-2` or a length. -/
theorem Fifo.run_read_ret {M : Nat} (ops : List Op) {q : List (List UInt8)} {rr : ReadResult}
    (h : Result.read rr ∈ (Fifo.run M q ops).1) : rr.ret = -1 ∨ rr.ret = -2 ∨ 0 ≤ rr.ret := by
  induction ops generalizing q with
  | nil => exact absurd h (List.not_mem_nil)
  | cons op ops ih =>
    -- the reply is that of the first operation or of the others
    rcases List.mem_cons.mp h with heq | htail
    · cases op with
      | read buf =>
        cases q with
        | nil =>
          simp only [Fifo.read, Result.read.injEq] at heq
          exact .inl (by rw [heq])
        | cons m q =>
          simp only [Fifo.read] at heq
          split at heq
          · simp only [Result.read.injEq] at heq
            exact .inr (.inl (by rw [heq]))
          · simp only [Result.read.injEq] at heq
            exact .inr (.inr (by rw [heq]; exact Int.natCast_nonneg _))
      | write m =>
        simp only [Fifo.write] at heq
        split at heq <;> exact nomatch heq
      | writeV iov =>
        simp only [Fifo.write] at heq
        split at heq <;> exact nomatch heq
      | clear => exact nomatch heq
      | empty => exact nomatch heq
    · exact ih htail

/-- A ring set up by `Clear` behaves as the empty bounded queue: after any sequence of calls
    the reports are the queue's, the next call refines the queue's next step and changes
    nothing when it fails, `Read` has not reported a bad check word, `Empty` and the
    counters agree with the queue and the raw positions are in `[0, maxLength]`. -/
theorem run_clear_refines (w : SizeT) (cb₀ : TagCircleBuffer) (hpos : 0 < cb₀.maxLength)
    (hint : IsInt32 cb₀.maxLength) (ops : List Op) (hops : ∀ op ∈ ops, op.Sized) :
    ∃ cb, run w (clear cb₀).2 ops = some ((Fifo.run cb₀.maxLength.toNat [] ops).1, cb) ∧
      (∀ op : Op, op.Sized → ∃ cb',
        step w cb op = some
          ((Fifo.step cb₀.maxLength.toNat (Fifo.run cb₀.maxLength.toNat [] ops).2 op).1, cb') ∧
        ((Fifo.step cb₀.maxLength.toNat (Fifo.run cb₀.maxLength.toNat [] ops).2 op).1.failed →
          cb' = cb)) ∧
      (∀ rr, Result.read rr ∈ (Fifo.run cb₀.maxLength.toNat [] ops).1 → rr.ret ≠ -3) ∧
      (empty cb = true ↔ (Fifo.run cb₀.maxLength.toNat [] ops).2 = []) ∧
      (cb.msgWrite - cb.msgRead - (Fifo.run cb₀.maxLength.toNat [] ops).2.length) % 4294967296 = 0 ∧
      0 ≤ cb.readPos ∧ cb.readPos ≤ cb₀.maxLength ∧ 0 ≤ cb.writePos ∧
        cb.writePos ≤ cb₀.maxLength := by
  have hsize : HasSize cb₀ cb₀.maxLength.toNat := ⟨by omega, by omega, by omega⟩
  obtain ⟨cb, r, hrun, hholds⟩ := run_refines (w := w) ops (Holds.clear hsize) hops
  refine ⟨cb, hrun, fun op hop => ?_, fun rr hrr => ?_, ?_, hholds.count_eq, ?_⟩
  · -- the next call, whatever it is
    obtain ⟨cb', -, hstep, -, hfail⟩ := step_refines (w := w) hholds op hop
    exact ⟨cb', hstep, hfail⟩
  · -- the queue never reports a bad check word
    have := Fifo.run_read_ret ops hrr
    omega
  · rw [hholds.empty_iff, List.isEmpty_iff]
  · have := hholds.pos_range
    omega

/-- Sixteen bytes hold one two-byte message; the second one is refused until it is read. -/
theorem run_clear_refines_sixteen : ∃ cb,
    run .eight (clear ⟨16, 3, 9, 0, 0, fun _ => 0⟩).2
        [.write [1, 2], .writeV [[3], [], [4]], .read [0], .read [0, 0, 0], .empty] =
      some ([.written 2, .written (-1), .read ⟨-2, [0], 1⟩, .read ⟨2, [1, 2, 0], 2⟩, .empty true],
        cb) := by
  obtain ⟨cb, hrun, -⟩ := run_clear_refines .eight ⟨16, 3, 9, 0, 0, fun _ => 0⟩ (by decide)
    (by decide) [.write [1, 2], .writeV [[3], [], [4]], .read [0], .read [0, 0, 0], .empty]
    (by simp [Op.Sized])
  exact ⟨cb, hrun⟩

end XGame3.CircleBuffer
