import XGame3.ForStd.IStream
import XGame3.Native.CircleBufferThreads

/-!
# A thread that pushes and a thread that pops (`circle_buffer.cpp`, `test`)

`PushMsg` offers its next message to `Write` until it is taken, `PopMsg` calls `Read` until it
returns a message, each of them `_loopNum` times.  Their calls are those of
`CircleBufferThreads`, cut into the same loads and stores; the loops say which call a thread
makes next and when it makes none any more.

What `PopMsg` prints is left out, and a `usleep` is a time in which nothing happens.
-/

namespace XGame3.CircleBuffer

open FixedInt LittleEndian IStream

/-- What `data` holds in `PushMsg` after `i` messages: the initial text or the one of `sprintf`. -/
def pushData : Nat → List UInt8
  | 0 => ascii "firstData"
  | i + 1 => ascii "Num: " ++ ascii (toString (i + 1)) ++ ascii ", ha"

/-- `sizeof(data)` of `PushMsg` and `PopMsg`. -/
def sizeofData : Nat := 128

namespace Threads

/-- `i` of `PushMsg`: the calls of `Write` that returned more than zero. -/
def pushed (s : Threads) : Nat := s.accepted.countP fun m => 0 < int32 m.length

/-- `i` of `PopMsg`: the calls of `Read` that returned at least zero. -/
def popped (s : Threads) : Nat := s.codes.countP fun ret => 0 ≤ ret

end Threads

/-- One step of `PushMsg` or `PopMsg`, with the messages `data`. -/
inductive LoopStep (w : SizeT) (data : Nat → List UInt8) (loopNum : Nat) : Threads → Threads → Prop
  /-- `PushMsg` calls `Write`, which begins by loading the read position. -/
  | push {s : Threads} (hloop : s.pushed < loopNum) (hpc : s.writer = .idle) :
      LoopStep w data loopNum s
        { s with writer := .loadWritePos (.write (data s.pushed)) s.ring.readPos }
  /-- `PopMsg` calls `Read`, which begins by loading the write position. -/
  | pop {s : Threads} (hloop : s.popped < loopNum) (hpc : s.reader = .idle) :
      LoopStep w data loopNum s { s with reader := .loadReadPos sizeofData s.ring.writePos }
  /-- A step inside a call. -/
  | call {s s' : Threads} (hstep : Step w s s') (hwriter : s.writer = .idle → s'.writer = .idle)
      (hreader : s.reader = .idle → s'.reader = .idle) : LoopStep w data loopNum s s'

/-- One step of the threads of `test`. -/
abbrev TestStep (w : SizeT) (loopNum : Nat) : Threads → Threads → Prop :=
  LoopStep w pushData loopNum

/-- `PushMsg` has returned. -/
def Threads.PushDone (loopNum : Nat) (s : Threads) : Prop := s.writer = .idle ∧ loopNum ≤ s.pushed

/-- `PopMsg` has returned. -/
def Threads.PopDone (loopNum : Nat) (s : Threads) : Prop := s.reader = .idle ∧ loopNum ≤ s.popped

/-! ## Running the threads -/

/-- The next step of `PushMsg`, if it has not returned. -/
def Threads.pushTurn (w : SizeT) (data : Nat → List UInt8) (loopNum : Nat) (s : Threads) :
    Option Threads :=
  match s.writer with
  | .idle =>
    if s.pushed < loopNum then
      some { s with writer := .loadWritePos (.write (data s.pushed)) s.ring.readPos }
    else
      none
  | .loadWritePos call readPos =>
    if call.capacity s.ring.maxLength readPos s.ring.writePos <
        int32 (w.wrap (call.length w + 4 + 4)) then
      some { s with writer := .idle }
    else
      some { s with writer := .accept w s.ring.maxLength s.ring.writePos call }
  | .copy m writePos ((i, b) :: todo) =>
    some { s with
      ring := { s.ring with data := Circular.store s.ring.data i b }
      writer := .copy m writePos todo }
  | .copy m writePos [] =>
    some { s with
      ring := { s.ring with writePos := writePos, msgWrite := int32 (s.ring.msgWrite + 1) }
      writer := .idle
      accepted := s.accepted ++ [m] }
  | .fault => none

/-- The next step of `PopMsg`, if it has not returned. -/
def Threads.popTurn (w : SizeT) (loopNum : Nat) (s : Threads) : Option Threads :=
  match s.reader with
  | .idle =>
    if s.popped < loopNum then
      some { s with reader := .loadReadPos sizeofData s.ring.writePos }
    else
      none
  | .loadReadPos maxLength writePos =>
    if readSize s.ring.maxLength s.ring.readPos writePos < 4 + 4 then
      some { s with reader := .idle, codes := s.codes ++ [-1] }
    else
      some { s with
        reader := .start .header maxLength (realReadLoads s.ring.maxLength s.ring.readPos 4 4) }
  | .copy phase maxLength readPos got (i :: todo) =>
    some { s with reader := .copy phase maxLength readPos (got ++ [s.ring.data i]) todo }
  | .copy .header maxLength readPos got [] =>
    if int32 (ofLE got) > int32 maxLength then
      some { s with reader := .idle, codes := s.codes ++ [-2] }
    else
      some { s with
        reader := .start (.payload (int32 (ofLE got))) maxLength
          (realReadLoads s.ring.maxLength readPos maxLength
            (int32 (w.wrap (int32 (ofLE got))))) }
  | .copy (.payload msgSize) maxLength readPos got [] =>
    some { s with
      reader := .start (.check msgSize got) maxLength (realReadLoads s.ring.maxLength readPos 4 4) }
  | .copy (.check msgSize data) _ readPos got [] =>
    if checkSum (ofLE got) then
      some { s with
        ring := { s.ring with readPos := readPos, msgRead := int32 (s.ring.msgRead + 1) }
        reader := .idle
        returned := s.returned ++ [data]
        codes := s.codes ++ [msgSize] }
    else
      some { s with ring := { s.ring with writePos := 0 }, reader := .clearReadPos }
  | .clearReadPos =>
    some { s with
      ring := { s.ring with readPos := 0, msgRead := 0, msgWrite := 0 }
      reader := .idle
      codes := s.codes ++ [-3] }
  | .fault => none

/-- The threads of `test` from its first instruction after `Clear`: at time `n` it is the turn of
    `PushMsg` if `turn n`, else that of `PopMsg`. -/
def test (w : SizeT) (cb : TagCircleBuffer) (loopNum : Nat) (turn : Nat → Bool) : Nat → Threads
  | 0 => .init (clear cb).2
  | n + 1 =>
    let s := test w cb loopNum turn n
    (if turn n then s.pushTurn w pushData loopNum else s.popTurn w loopNum).getD s

end XGame3.CircleBuffer
