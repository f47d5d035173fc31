import XGame3.Native.CircleBufferThreads
import XGame3.Native.Ibus

/-!
# Ring calls on the shared region

The calls of `circle_buffer.cpp` on a ring of the bus, as what they store in the
bytes of the region: each returns what the call returns and its stores in program
order, as offsets from the head.  A `data_` offset is counted from `data_`, which
lies `dataOffset` bytes behind the start of the ring.
-/

namespace XGame3.Ibus

open FixedInt LittleEndian CircleBuffer

/-- The stores that assign an `int` of the region. -/
def intStores (off : Nat) (x : Int) : List (Nat × UInt8) :=
  (intBytes x).mapIdx fun k b => (off + k, b)

/-- Stores to `data_` of the ring at `start`. -/
def dataStores (start : Nat) (todo : List (Nat × UInt8)) : List (Nat × UInt8) :=
  todo.map fun c => (start + 20 + c.1, c.2)

/-- `Clear`. -/
def clearRing (start : Nat) : Int × List (Nat × UInt8) :=
  -- `readPos_ = writePos_ = 0` assigns from the right
  (0, intStores (start + 8) 0 ++ intStores (start + 4) 0 ++ intStores (start + 16) 0 ++
    intStores (start + 12) 0)

/-- `Write` and `WriteV`. -/
def writeRing (mem : Nat → UInt8) (start : Nat) (call : WriteCall) :
    Option (Int × List (Nat × UInt8)) :=
  let cb := ringAt mem start
  let length := call.length .eight
  let realSize := int32 (SizeT.eight.wrap (length + 4 + 4))
  if call.capacity cb.maxLength cb.readPos cb.writePos < realSize then
    some (-1, [])
  else do
    let frame ← writeStores .eight cb.maxLength cb.writePos call
    some (int32 length,
      dataStores start frame.2 ++ intStores (start + 8) frame.1 ++
        intStores (start + 12) (int32 (cb.msgWrite + 1)))

/-- The part of `Read` after the length word: `readPos` is behind it. -/
def readMsgRing (mem : Nat → UInt8) (start : Nat) (data : List UInt8) (maxLength : Nat)
    (readPos msgSize : Int) : Option (ReadResult × List (Nat × UInt8)) := do
  let cb := ringAt mem start
  if msgSize > int32 maxLength then
    some (⟨-2, data, maxLength⟩, [])
  else
    let maxLength := SizeT.eight.wrap msgSize
    let body ← realRead cb readPos data (int32 maxLength)
    let check ← realRead cb body.1 (toLE 4 0) 4
    if checkSum (ofLE check.2) then
      some (⟨msgSize, body.2, maxLength⟩,
        intStores (start + 4) check.1 ++ intStores (start + 16) (int32 (cb.msgRead + 1)))
    else
      some (⟨-3, body.2, maxLength⟩, (clearRing start).2)

/-- `Read` into the caller's buffer `data`, of which `maxLength` bytes may be used. -/
def readRing (mem : Nat → UInt8) (start : Nat) (data : List UInt8) (maxLength : Nat) :
    Option (ReadResult × List (Nat × UInt8)) := do
  let cb := ringAt mem start
  let maxSize := readSize cb.maxLength cb.readPos cb.writePos
  if maxSize < 4 + 4 then
    some (⟨-1, data, 0⟩, [])
  else
    let msgSize ← realRead cb cb.readPos (toLE 4 0) 4
    readMsgRing mem start data maxLength msgSize.1 (int32 (ofLE msgSize.2))

end XGame3.Ibus
