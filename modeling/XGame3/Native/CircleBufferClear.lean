import XGame3.Native.CircleBufferThreads

/-!
# One `Write` and one `Read` that may call `Clear`

A single call on either side of the shared ring, cut into its loads, stores and byte copies:
unlike in `CircleBufferThreads`, the counters are loaded and stored in steps of their own,
because `Clear` stores the writer's counter from the reader's side.  Each thread's next step
is a function of the state, so a run is given by the order in which the threads take theirs.
-/

namespace XGame3.CircleBuffer

open FixedInt LittleEndian

deriving instance DecidableEq for WriteCall, Phase

namespace Recovery

/-- Where the writer is. -/
inductive Writer where
  | loadReadPos (call : WriteCall)
  | loadWritePos (call : WriteCall) (readPos : Int)
  | copy (message : List UInt8) (writePos : Int) (todo : List (Nat × UInt8))
  | loadMsgWrite (message : List UInt8)
  | storeMsgWrite (message : List UInt8) (msgWrite : Int)
  | returned (message : Option (List UInt8))
  | fault
deriving DecidableEq

/-- Where the reader is; `cleared` is the return of -3. -/
inductive Reader where
  | loadWritePos (maxLength : Nat)
  | loadReadPos (maxLength : Nat) (writePos : Int)
  | copy (phase : Phase) (maxLength : Nat) (readPos : Int) (got : List UInt8) (todo : List Nat)
  | loadMsgRead (msgSize : Int)
  | storeMsgRead (msgSize msgRead : Int)
  | clearReadPos
  | clearMsgRead
  | clearMsgWrite
  | cleared
  | returned (ret : Int)
  | fault
deriving DecidableEq

/-- The writer after its admission test succeeded. -/
def Writer.accept (w : SizeT) (maxLength writePos : Int) (call : WriteCall) : Writer :=
  match writeStores w maxLength writePos call with
  | some (writePos, todo) => .copy call.message writePos todo
  | none => .fault

/-- The reader at the start of a copy. -/
def Reader.start (phase : Phase) (maxLength : Nat) : Option (Int × List Nat) → Reader
  | some (readPos, todo) => .copy phase maxLength readPos [] todo
  | none => .fault

inductive Thread where
  | writer
  | reader

end Recovery

/-- The ring and the two calls on it. -/
structure Recovery where
  ring : TagCircleBuffer
  writer : Recovery.Writer
  reader : Recovery.Reader

namespace Recovery

/-- Both calls are about to begin. -/
def start (cb : TagCircleBuffer) (call : WriteCall) (maxLength : Nat) : Recovery :=
  { ring := cb, writer := .loadReadPos call, reader := .loadWritePos maxLength }

/-- The next step of `Write` or `WriteV`. -/
def writerStep (w : SizeT) (s : Recovery) : Option Recovery :=
  match s.writer with
  | .loadReadPos call => some { s with writer := .loadWritePos call s.ring.readPos }
  | .loadWritePos call readPos =>
    if call.capacity s.ring.maxLength readPos s.ring.writePos <
        int32 (w.wrap (call.length w + 4 + 4)) then
      some { s with writer := .returned none }
    else
      some { s with writer := .accept w s.ring.maxLength s.ring.writePos call }
  | .copy message writePos ((i, b) :: todo) =>
    some { s with
      ring := { s.ring with data := Circular.store s.ring.data i b }
      writer := .copy message writePos todo }
  | .copy message writePos [] =>
    some { s with ring := { s.ring with writePos := writePos }, writer := .loadMsgWrite message }
  | .loadMsgWrite message => some { s with writer := .storeMsgWrite message s.ring.msgWrite }
  | .storeMsgWrite message msgWrite =>
    some { s with
      ring := { s.ring with msgWrite := int32 (msgWrite + 1) }
      writer := .returned (some message) }
  | .returned _ => none
  | .fault => none

/-- The next step of `Read`. -/
def readerStep (w : SizeT) (s : Recovery) : Option Recovery :=
  match s.reader with
  | .loadWritePos maxLength => some { s with reader := .loadReadPos maxLength s.ring.writePos }
  | .loadReadPos maxLength writePos =>
    if readSize s.ring.maxLength s.ring.readPos writePos < 4 + 4 then
      some { s with reader := .returned (-1) }
    else
      some { s with
        reader := .start .header maxLength (realReadLoads s.ring.maxLength s.ring.readPos 4 4) }
  | .copy phase maxLength readPos got (i :: todo) =>
    some { s with reader := .copy phase maxLength readPos (got ++ [s.ring.data i]) todo }
  | .copy .header maxLength readPos got [] =>
    let msgSize := int32 (ofLE got)
    if msgSize > int32 maxLength then
      some { s with reader := .returned (-2) }
    else
      some { s with
        reader := .start (.payload msgSize) maxLength
          (realReadLoads s.ring.maxLength readPos maxLength (int32 (w.wrap msgSize))) }
  | .copy (.payload msgSize) maxLength readPos got [] =>
    some { s with
      reader := .start (.check msgSize got) maxLength
        (realReadLoads s.ring.maxLength readPos 4 4) }
  | .copy (.check msgSize _) _ readPos got [] =>
    if checkSum (ofLE got) then
      some { s with ring := { s.ring with readPos := readPos }, reader := .loadMsgRead msgSize }
    else
      -- `readPos_ = writePos_ = 0` stores from the right
      some { s with ring := { s.ring with writePos := 0 }, reader := .clearReadPos }
  | .loadMsgRead msgSize => some { s with reader := .storeMsgRead msgSize s.ring.msgRead }
  | .storeMsgRead msgSize msgRead =>
    some { s with
      ring := { s.ring with msgRead := int32 (msgRead + 1) }
      reader := .returned msgSize }
  | .clearReadPos =>
    some { s with ring := { s.ring with readPos := 0 }, reader := .clearMsgRead }
  | .clearMsgRead =>
    some { s with ring := { s.ring with msgRead := 0 }, reader := .clearMsgWrite }
  | .clearMsgWrite => some { s with ring := { s.ring with msgWrite := 0 }, reader := .cleared }
  | .cleared => none
  | .returned _ => none
  | .fault => none

/-- The next step of a thread. -/
def step (w : SizeT) : Thread → Recovery → Option Recovery
  | .writer => writerStep w
  | .reader => readerStep w

/-- The threads take their steps in the given order. -/
def run (w : SizeT) : List Thread → Recovery → Option Recovery
  | [], s => some s
  | t :: ts, s => (step w t s).bind (run w ts)

end Recovery

end XGame3.CircleBuffer
