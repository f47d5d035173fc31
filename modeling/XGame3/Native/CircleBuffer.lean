import XGame3.ForStd.FixedInt
import XGame3.ForStd.LittleEndian
import XGame3.ForStd.Circular

/-!
# The shared-memory message ring (`circle_buffer.cpp`)

A message is stored as a frame: four length bytes, the payload and a four-byte
check word, each of which may straddle the end of `data`.  The functions follow
`circle_buffer.cpp` one by one.  `int` arithmetic wraps modulo `2 ^ 32`, a
`size_t` has either of its two sizes and is little-endian, and a byte copy that
leaves the ring or the caller's memory is a fault, `none`.

`XXZ_ASSERT` and `LOG_WARN` are not part of the repository: they are taken to
have no effect here.
-/

namespace XGame3.CircleBuffer

open FixedInt LittleEndian

/-- `tagCircleBuffer`.  Offsets into `data` below `maxLength` are the ring's own memory. -/
structure TagCircleBuffer where
  maxLength : Int
  readPos : Int
  writePos : Int
  msgWrite : Int
  msgRead : Int
  data : Nat → UInt8

/-- The word stored behind every payload. -/
def checkData : Nat := 0xCDEFFEDC

/-- `memcpy(cb->data_ + dst, src + off, n)`. -/
def copyIn (cb : TagCircleBuffer) (dst : Int) (src : List UInt8) (off n : Int) :
    Option TagCircleBuffer :=
  if 0 ≤ dst ∧ 0 ≤ off ∧ 0 ≤ n ∧ dst + n ≤ cb.maxLength ∧ off + n ≤ src.length then
    some { cb with data := Circular.blit cb.data dst.toNat ((src.drop off.toNat).take n.toNat) }
  else
    none

/-- `memcpy(dst + off, cb->data_ + src, n)`, the new contents of `dst`. -/
def copyOut (cb : TagCircleBuffer) (src : Int) (dst : List UInt8) (off n : Int) :
    Option (List UInt8) :=
  if 0 ≤ src ∧ 0 ≤ off ∧ 0 ≤ n ∧ src + n ≤ cb.maxLength ∧ off + n ≤ dst.length then
    some (dst.take off.toNat ++ (List.range n.toNat).map (fun k => cb.data (src.toNat + k)) ++
      dst.drop (off + n).toNat)
  else
    none

/-- `RealWrite`: the new write position and the ring. -/
def realWrite (cb : TagCircleBuffer) (writePos : Int) (data : List UInt8) (length : Int) :
    Option (Int × TagCircleBuffer) := do
  let first := min (int32 (cb.maxLength - writePos)) length
  let cb ← (if first > 0 then copyIn cb writePos data 0 first else some cb)
  if int32 (length - first) > 0 then
    let writePos := int32 (length - first)
    let cb ← copyIn cb 0 data first writePos
    some (writePos, cb)
  else
    some (int32 (writePos + length), cb)

/-- `RealRead`: the new read position and the caller's memory. -/
def realRead (cb : TagCircleBuffer) (readPos : Int) (data : List UInt8) (length : Int) :
    Option (Int × List UInt8) := do
  let first := min (int32 (cb.maxLength - readPos)) length
  let data ← (if first > 0 then copyOut cb readPos data 0 first else some data)
  if int32 (length - first) > 0 then
    let readPos := int32 (length - first)
    let data ← copyOut cb 0 data first readPos
    some (readPos, data)
  else
    some (int32 (readPos + length), data)

/-- `Clear`. -/
def clear (cb : TagCircleBuffer) : Int × TagCircleBuffer :=
  (0, { cb with readPos := 0, writePos := 0, msgRead := 0, msgWrite := 0 })

/-- `Empty`. -/
def empty (cb : TagCircleBuffer) : Bool := cb.readPos == cb.writePos

/-- The admission test of `Write`, on the positions it has loaded. -/
def writeCapacity (maxLength readPos writePos : Int) : Int :=
  if writePos < readPos then int32 (readPos - writePos - 1)
  else int32 (readPos + maxLength - writePos - 1)

/-- `Write`: the returned value and the ring. -/
def write (w : SizeT) (cb : TagCircleBuffer) (data : List UInt8) :
    Option (Int × TagCircleBuffer) := do
  let length := data.length
  let maxCapacity := writeCapacity cb.maxLength cb.readPos cb.writePos
  let realSize := int32 (w.wrap (length + 4 + 4))
  if maxCapacity < realSize then
    some (-1, cb)
  else
    let head ← realWrite cb cb.writePos (toLE w.bytes length) 4
    let body ← realWrite head.2 head.1 data (int32 length)
    let tail ← realWrite body.2 body.1 (toLE 4 checkData) 4
    some (int32 length,
      { tail.2 with writePos := tail.1, msgWrite := int32 (tail.2.msgWrite + 1) })

/-- The admission test of `WriteV`. -/
def writeVCapacity (maxLength readPos writePos : Int) : Int :=
  if writePos < readPos then int32 (readPos - writePos - 1)
  else int32 (maxLength - writePos + readPos - 1)

/-- The length loop of `WriteV`. -/
def iovLength (w : SizeT) (iov : List (List UInt8)) : Nat :=
  iov.foldl (fun length seg => w.wrap (length + seg.length)) 0

/-- The copy loop of `WriteV`. -/
def writeSegments (cb : TagCircleBuffer) (writePos : Int) :
    List (List UInt8) → Option (Int × TagCircleBuffer)
  | [] => some (writePos, cb)
  | seg :: iov => do
    let head ← realWrite cb writePos seg (int32 seg.length)
    writeSegments head.2 head.1 iov

/-- `WriteV`: the returned value and the ring. -/
def writeV (w : SizeT) (cb : TagCircleBuffer) (iov : List (List UInt8)) :
    Option (Int × TagCircleBuffer) := do
  let maxCapacity := writeVCapacity cb.maxLength cb.readPos cb.writePos
  let length := iovLength w iov
  let realSize := int32 (w.wrap (length + 4 + 4))
  if maxCapacity < realSize then
    some (-1, cb)
  else
    let head ← realWrite cb cb.writePos (toLE w.bytes length) 4
    let body ← writeSegments head.2 head.1 iov
    let tail ← realWrite body.2 body.1 (toLE 4 checkData) 4
    some (int32 length,
      { tail.2 with writePos := tail.1, msgWrite := int32 (tail.2.msgWrite + 1) })

/-- `CheckSum`. -/
def checkSum (check : Nat) : Bool := checkData == check

/-- What `Read` returns, and leaves in the caller's buffer and in `_maxLength`. -/
structure ReadResult where
  ret : Int
  data : List UInt8
  maxLength : Nat
  deriving DecidableEq, Repr

/-- The unread length `Read` computes from the positions it has loaded. -/
def readSize (maxLength readPos writePos : Int) : Int :=
  if readPos ≤ writePos then int32 (writePos - readPos)
  else int32 (writePos + maxLength - readPos)

/-- The part of `Read` after the length word: `readPos` is behind it. -/
def readMsg (w : SizeT) (cb : TagCircleBuffer) (data : List UInt8) (maxLength : Nat)
    (readPos msgSize : Int) : Option (ReadResult × TagCircleBuffer) := do
  if msgSize > int32 maxLength then
    some (⟨-2, data, maxLength⟩, cb)
  else
    let maxLength := w.wrap msgSize
    let body ← realRead cb readPos data (int32 maxLength)
    let check ← realRead cb body.1 (toLE 4 0) 4
    if checkSum (ofLE check.2) then
      some (⟨msgSize, body.2, maxLength⟩,
        { cb with readPos := check.1, msgRead := int32 (cb.msgRead + 1) })
    else
      -- a wrong check word: everything unread is dropped
      some (⟨-3, body.2, maxLength⟩, (clear cb).2)

/-- `Read` into the caller's buffer `data`, of which `maxLength` bytes may be used. -/
def read (w : SizeT) (cb : TagCircleBuffer) (data : List UInt8) (maxLength : Nat) :
    Option (ReadResult × TagCircleBuffer) := do
  let maxSize := readSize cb.maxLength cb.readPos cb.writePos
  if maxSize < 4 + 4 then
    some (⟨-1, data, 0⟩, cb)
  else
    let msgSize ← realRead cb cb.readPos (toLE 4 0) 4
    readMsg w cb data maxLength msgSize.1 (int32 (ofLE msgSize.2))

end XGame3.CircleBuffer
