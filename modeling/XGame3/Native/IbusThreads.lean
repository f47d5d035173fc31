import Mathlib.Logic.Function.Basic
import XGame3.Native.IbusRing

/-!
# The processes of a bus

Every channel has one writing and one reading process, and all of them work in the one
region at once.  A step of a process is a step of `CircleBufferThreads` on the ring its
channel has in the region; the fields that the step assigns are stored as their bytes.
-/

namespace XGame3.Ibus

open FixedInt CircleBuffer

/-- What the two processes of a channel have of their own. -/
structure ChannelThreads where
  writer : Writer
  reader : Reader
  accepted : List (List UInt8)
  returned : List (List UInt8)
  codes : List Int

/-- The processes of a bus. -/
structure BusThreads where
  mem : Nat → UInt8
  channel : Nat → ChannelThreads

/-- A channel as its two processes see it: the ring at an offset, and their own. -/
def ChannelThreads.onRing (own : ChannelThreads) (mem : Nat → UInt8) (start : Nat) : Threads where
  ring := ringAt mem start
  writer := own.writer
  reader := own.reader
  accepted := own.accepted
  returned := own.returned
  codes := own.codes

/-- The part of a channel that is not in the region. -/
def ChannelThreads.ofThreads (s : Threads) : ChannelThreads where
  writer := s.writer
  reader := s.reader
  accepted := s.accepted
  returned := s.returned
  codes := s.codes

/-- Nothing has been done on the channel yet. -/
def ChannelThreads.idle : ChannelThreads where
  writer := .idle
  reader := .idle
  accepted := []
  returned := []
  codes := []

/-- What one step assigns to a ring, and the bytes it stores for that. -/
inductive RingStores (start : Nat) : TagCircleBuffer → TagCircleBuffer → List (Nat × UInt8) → Prop
  /-- Nothing. -/
  | none (cb : TagCircleBuffer) : RingStores start cb cb []
  /-- A byte of a `memcpy` into the ring. -/
  | byte (cb : TagCircleBuffer) (k : Nat) (b : UInt8) :
      RingStores start cb { cb with data := Circular.store cb.data k b } (dataStores start [(k, b)])
  /-- `_cb->writePos_ = writePos; _cb->msgWrite_++;`. -/
  | published (cb : TagCircleBuffer) (writePos msgWrite : Int) :
      RingStores start cb { cb with writePos := writePos, msgWrite := msgWrite }
        (intStores (start + 8) writePos ++ intStores (start + 12) msgWrite)
  /-- `_cb->readPos_ = readPos; _cb->msgRead_++;`. -/
  | taken (cb : TagCircleBuffer) (readPos msgRead : Int) :
      RingStores start cb { cb with readPos := readPos, msgRead := msgRead }
        (intStores (start + 4) readPos ++ intStores (start + 16) msgRead)
  /-- `Clear`: the store of `writePos_`. -/
  | clearWritePos (cb : TagCircleBuffer) :
      RingStores start cb { cb with writePos := 0 } (intStores (start + 8) 0)
  /-- `Clear`: the store of `readPos_` and the counters. -/
  | clearReadPos (cb : TagCircleBuffer) :
      RingStores start cb { cb with readPos := 0, msgRead := 0, msgWrite := 0 }
        (intStores (start + 4) 0 ++ intStores (start + 16) 0 ++ intStores (start + 12) 0)

/-- One step of a process of a channel. -/
inductive BusStep (head : IBUSHead) : BusThreads → BusThreads → Prop
  | channel {s : BusThreads} {own : Threads} {stores : List (Nat × UInt8)} (i : Nat)
      (hi : (i : Int) < head.count)
      (hstep : Step .eight ((s.channel i).onRing s.mem (head.channeles i).start.toNat) own)
      (hstores : RingStores (head.channeles i).start.toNat
        (ringAt s.mem (head.channeles i).start.toNat) own.ring stores) :
      BusStep head s
        { mem := Circular.storeAll s.mem stores
          channel := Function.update s.channel i (.ofThreads own) }

/-- The processes before any of them does anything. -/
def BusThreads.init (bus : IBUS) : BusThreads where
  mem := bus.mem
  channel := fun _ => .idle

end XGame3.Ibus
