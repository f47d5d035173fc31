import XGame3.Native.CircleBuffer

/-!
# One writer and one reader on a shared ring

The same calls as in `CircleBuffer`, cut into the accesses other threads can
see: each load and store of `readPos_` and `writePos_` and each byte copied is
one step, sequentially consistent.  A `memcpy` copies its bytes in order.  What
a thread computes from values it has already loaded happens in the step after
them, and the counters, which only their own side touches, change together with
the position they belong to.

`accepted` and `returned` record the messages of the `Write`/`WriteV` calls that
succeeded and of the `Read` calls that succeeded, `codes` what every `Read`
returned.
-/

namespace XGame3.CircleBuffer

open FixedInt LittleEndian

/-! ## The byte copies of `RealWrite` and `RealRead` -/

/-- The stores of `memcpy(cb->data_ + dst, src + off, n)`. -/
def copyInStores (maxLength dst : Int) (src : List UInt8) (off n : Int) :
    Option (List (Nat × UInt8)) :=
  if 0 ≤ dst ∧ 0 ≤ off ∧ 0 ≤ n ∧ dst + n ≤ maxLength ∧ off + n ≤ src.length then
    some (((src.drop off.toNat).take n.toNat).mapIdx fun k b => (dst.toNat + k, b))
  else
    none

/-- The loads of `memcpy(dst + off, cb->data_ + src, n)`, `dst` having `dstLength` bytes. -/
def copyOutLoads (maxLength src : Int) (dstLength : Nat) (off n : Int) : Option (List Nat) :=
  if 0 ≤ src ∧ 0 ≤ off ∧ 0 ≤ n ∧ src + n ≤ maxLength ∧ off + n ≤ dstLength then
    some ((List.range n.toNat).map fun k => src.toNat + k)
  else
    none

/-- `RealWrite`: the new write position and the stores on the way. -/
def realWriteStores (maxLength writePos : Int) (data : List UInt8) (length : Int) :
    Option (Int × List (Nat × UInt8)) := do
  let first := min (int32 (maxLength - writePos)) length
  let head ← (if first > 0 then copyInStores maxLength writePos data 0 first else some [])
  if int32 (length - first) > 0 then
    let writePos := int32 (length - first)
    let tail ← copyInStores maxLength 0 data first writePos
    some (writePos, head ++ tail)
  else
    some (int32 (writePos + length), head)

/-- `RealRead`: the new read position and the loads on the way. -/
def realReadLoads (maxLength readPos : Int) (dstLength : Nat) (length : Int) :
    Option (Int × List Nat) := do
  let first := min (int32 (maxLength - readPos)) length
  let head ← (if first > 0 then copyOutLoads maxLength readPos dstLength 0 first else some [])
  if int32 (length - first) > 0 then
    let readPos := int32 (length - first)
    let tail ← copyOutLoads maxLength 0 dstLength first readPos
    some (readPos, head ++ tail)
  else
    some (int32 (readPos + length), head)

/-! ## The writer -/

/-- A call of the writer. -/
inductive WriteCall where
  | write (data : List UInt8)
  | writeV (iov : List (List UInt8))

namespace WriteCall

/-- The segments the copy loop goes through. -/
def segments : WriteCall → List (List UInt8)
  | write data => [data]
  | writeV iov => iov

/-- The `size_t` length the call works with. -/
def length (w : SizeT) : WriteCall → Nat
  | write data => data.length
  | writeV iov => iovLength w iov

def capacity (maxLength readPos writePos : Int) : WriteCall → Int
  | write _ => writeCapacity maxLength readPos writePos
  | writeV _ => writeVCapacity maxLength readPos writePos

/-- The message the call is about. -/
def message (call : WriteCall) : List UInt8 := call.segments.flatten

/-- The whole call, uninterrupted. -/
def perform (w : SizeT) (cb : TagCircleBuffer) : WriteCall → Option (Int × TagCircleBuffer)
  | write data => CircleBuffer.write w cb data
  | writeV iov => CircleBuffer.writeV w cb iov

end WriteCall

/-- The copy loop over the segments. -/
def segmentStores (maxLength writePos : Int) :
    List (List UInt8) → Option (Int × List (Nat × UInt8))
  | [] => some (writePos, [])
  | seg :: iov => do
    let head ← realWriteStores maxLength writePos seg (int32 seg.length)
    let tail ← segmentStores maxLength head.1 iov
    some (tail.1, head.2 ++ tail.2)

/-- Header, payload and check word of an admitted call. -/
def writeStores (w : SizeT) (maxLength writePos : Int) (call : WriteCall) :
    Option (Int × List (Nat × UInt8)) := do
  let head ← realWriteStores maxLength writePos (toLE w.bytes (call.length w)) 4
  let body ← segmentStores maxLength head.1 call.segments
  let tail ← realWriteStores maxLength body.1 (toLE 4 checkData) 4
  some (tail.1, head.2 ++ (body.2 ++ tail.2))

/-- Where the writer is, with the locals it still needs. -/
inductive Writer where
  | idle
  | loadWritePos (call : WriteCall) (readPos : Int)
  | copy (message : List UInt8) (writePos : Int) (todo : List (Nat × UInt8))
  | fault

/-- The writer after its admission test succeeded. -/
def Writer.accept (w : SizeT) (maxLength writePos : Int) (call : WriteCall) : Writer :=
  match writeStores w maxLength writePos call with
  | some (writePos, todo) => .copy call.message writePos todo
  | none => .fault

/-! ## The reader -/

/-- Which `RealRead` of `Read` is running. -/
inductive Phase where
  | header
  | payload (msgSize : Int)
  | check (msgSize : Int) (data : List UInt8)

/-- Where the reader is.  `got` are the bytes the running copy has loaded. -/
inductive Reader where
  | idle
  | loadReadPos (maxLength : Nat) (writePos : Int)
  | copy (phase : Phase) (maxLength : Nat) (readPos : Int) (got : List UInt8) (todo : List Nat)
  | clearReadPos
  | fault

/-- The reader at the start of a copy. -/
def Reader.start (phase : Phase) (maxLength : Nat) : Option (Int × List Nat) → Reader
  | some (readPos, todo) => .copy phase maxLength readPos [] todo
  | none => .fault

/-! ## The system -/

structure Threads where
  ring : TagCircleBuffer
  writer : Writer
  reader : Reader
  accepted : List (List UInt8)
  returned : List (List UInt8)
  codes : List Int

/-- Both threads idle on a ring nothing was done to yet. -/
def Threads.init (cb : TagCircleBuffer) : Threads :=
  { ring := cb, writer := .idle, reader := .idle, accepted := [], returned := [], codes := [] }

/-- One step of either thread. -/
inductive Step (w : SizeT) : Threads → Threads → Prop
  /-- `int readPos = _cb->readPos_;` of `Write` or `WriteV`. -/
  | writeBegin {s : Threads} (call : WriteCall) (hsize : call.message.length < 2147483640)
      (hpc : s.writer = .idle) :
      Step w s { s with writer := .loadWritePos call s.ring.readPos }
  /-- `int writePos = _cb->writePos_;`, not enough room. -/
  | writeReject {s : Threads} {call : WriteCall} {readPos : Int}
      (hpc : s.writer = .loadWritePos call readPos)
      (hfull : call.capacity s.ring.maxLength readPos s.ring.writePos <
        int32 (w.wrap (call.length w + 4 + 4))) :
      Step w s { s with writer := .idle }
  /-- `int writePos = _cb->writePos_;`, enough room. -/
  | writeAdmit {s : Threads} {call : WriteCall} {readPos : Int}
      (hpc : s.writer = .loadWritePos call readPos)
      (hroom : ¬ call.capacity s.ring.maxLength readPos s.ring.writePos <
        int32 (w.wrap (call.length w + 4 + 4))) :
      Step w s { s with writer := .accept w s.ring.maxLength s.ring.writePos call }
  /-- One byte of a `memcpy` into the ring. -/
  | writeByte {s : Threads} {m : List UInt8} {writePos : Int} {i : Nat} {b : UInt8}
      {todo : List (Nat × UInt8)} (hpc : s.writer = .copy m writePos ((i, b) :: todo)) :
      Step w s { s with
        ring := { s.ring with data := Circular.store s.ring.data i b }
        writer := .copy m writePos todo }
  /-- `_cb->writePos_ = writePos; _cb->msgWrite_++;` and the return. -/
  | writeDone {s : Threads} {m : List UInt8} {writePos : Int}
      (hpc : s.writer = .copy m writePos []) :
      Step w s { s with
        ring := { s.ring with writePos := writePos, msgWrite := int32 (s.ring.msgWrite + 1) }
        writer := .idle
        accepted := s.accepted ++ [m] }
  /-- `int writePos = _cb->writePos_;` of `Read`. -/
  | readBegin {s : Threads} (maxLength : Nat) (hpc : s.reader = .idle) :
      Step w s { s with reader := .loadReadPos maxLength s.ring.writePos }
  /-- `int readPos = _cb->readPos_;`, nothing to read. -/
  | readEmpty {s : Threads} {maxLength : Nat} {writePos : Int}
      (hpc : s.reader = .loadReadPos maxLength writePos)
      (hempty : readSize s.ring.maxLength s.ring.readPos writePos < 4 + 4) :
      Step w s { s with reader := .idle, codes := s.codes ++ [-1] }
  /-- `int readPos = _cb->readPos_;`, a message is there. -/
  | readHeader {s : Threads} {maxLength : Nat} {writePos : Int}
      (hpc : s.reader = .loadReadPos maxLength writePos)
      (hsome : ¬ readSize s.ring.maxLength s.ring.readPos writePos < 4 + 4) :
      Step w s { s with
        reader := .start .header maxLength (realReadLoads s.ring.maxLength s.ring.readPos 4 4) }
  /-- One byte of a `memcpy` out of the ring. -/
  | readByte {s : Threads} {phase : Phase} {maxLength : Nat} {readPos : Int} {got : List UInt8}
      {i : Nat} {todo : List Nat} (hpc : s.reader = .copy phase maxLength readPos got (i :: todo)) :
      Step w s { s with reader := .copy phase maxLength readPos (got ++ [s.ring.data i]) todo }
  /-- The message is too long for the caller. -/
  | readSmall {s : Threads} {maxLength : Nat} {readPos : Int} {got : List UInt8}
      (hpc : s.reader = .copy .header maxLength readPos got [])
      (hsmall : int32 (ofLE got) > int32 maxLength) :
      Step w s { s with reader := .idle, codes := s.codes ++ [-2] }
  /-- The payload copy starts. -/
  | readPayload {s : Threads} {maxLength : Nat} {readPos : Int} {got : List UInt8}
      (hpc : s.reader = .copy .header maxLength readPos got [])
      (hfits : ¬ int32 (ofLE got) > int32 maxLength) :
      Step w s { s with
        reader := .start (.payload (int32 (ofLE got))) maxLength
          (realReadLoads s.ring.maxLength readPos maxLength
            (int32 (w.wrap (int32 (ofLE got))))) }
  /-- The copy of the check word starts. -/
  | readCheck {s : Threads} {maxLength : Nat} {readPos msgSize : Int} {got : List UInt8}
      (hpc : s.reader = .copy (.payload msgSize) maxLength readPos got []) :
      Step w s { s with
        reader := .start (.check msgSize got) maxLength
          (realReadLoads s.ring.maxLength readPos 4 4) }
  /-- `_cb->readPos_ = readPos; _cb->msgRead_++;` and the return. -/
  | readDone {s : Threads} {maxLength : Nat} {readPos msgSize : Int} {data got : List UInt8}
      (hpc : s.reader = .copy (.check msgSize data) maxLength readPos got [])
      (hsum : checkSum (ofLE got) = true) :
      Step w s { s with
        ring := { s.ring with readPos := readPos, msgRead := int32 (s.ring.msgRead + 1) }
        reader := .idle
        returned := s.returned ++ [data]
        codes := s.codes ++ [msgSize] }
  /-- `Clear`: the store of `writePos_`. -/
  | readClear {s : Threads} {maxLength : Nat} {readPos msgSize : Int} {data got : List UInt8}
      (hpc : s.reader = .copy (.check msgSize data) maxLength readPos got [])
      (hsum : ¬ checkSum (ofLE got) = true) :
      Step w s { s with ring := { s.ring with writePos := 0 }, reader := .clearReadPos }
  /-- `Clear`: the store of `readPos_`, the counters and the return. -/
  | readCleared {s : Threads} (hpc : s.reader = .clearReadPos) :
      Step w s { s with
        ring := { s.ring with readPos := 0, msgRead := 0, msgWrite := 0 }
        reader := .idle
        codes := s.codes ++ [-3] }

end XGame3.CircleBuffer
