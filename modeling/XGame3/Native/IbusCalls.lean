import XGame3.Native.IbusRing

/-!
# Calls on the bus (`ibusm.cpp`)

A process that has attached the region finds a channel by its two ids and calls
`CircleBuffer` on the ring that the entry leads to, or has the channel cleared.  What the
calls are about is the region alone, so the processes of a bus are not told apart.
-/

namespace XGame3.Ibus

open CircleBuffer

/-- `ClearChannel`. -/
def clearChannel (bus : IBUS) (srcID dstID : Int) : Int × IBUS :=
  match getChannel bus.head srcID dstID with
  | some i =>
    let cleared := clearRing (bus.head.channeles i).start.toNat
    (cleared.1, { bus with mem := Circular.storeAll bus.mem cleared.2 })
  | none => (-1, bus)

end XGame3.Ibus
