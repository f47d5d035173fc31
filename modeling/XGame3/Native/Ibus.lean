import Mathlib.Logic.Function.Basic
import XGame3.Native.CircleBuffer

/-!
# The shared-memory message bus (`ibusm_cfg.cpp`, `ibusm.cpp`)

`readIBUSConfig` collects the accepted channels of a configuration file in the
process-wide `sCfgInfo`, `createIBUS` lays them out behind a head and a channel
table in a shared-memory region, each as a ring of `CircleBuffer`.

The layout is that of an LP64 target: `int` 4, `long` and `size_t` 8 bytes.  The
head and its table are a record, the rest of the region is byte memory addressed by
the offset from the head; a ring header that would not lie between the end of the
table and the end of the region is a fault, `none`.  `AscStrToSize` and `CreateShm`
are not part of the repository and are parameters, and so is what `libconfig` reads
from the file.
-/

namespace XGame3.Ibus

open FixedInt LittleEndian CircleBuffer

/-! ## Configuration -/

structure ChannelCfg where
  srcID : Int
  dstID : Int
  maxLength : Int
  deriving DecidableEq, Repr

structure IBusmCfg where
  key : Int
  capacity : Int
  maxLength : Int
  channels : List ChannelCfg
  channelsName : List (String × Int)
  deriving DecidableEq

/-- An element of `channels`: a list of three, or anything else. -/
inductive ChannelSetting where
  | list (srcID dstID : Int) (size : String)
  | other

/-- What `libconfig` returns for a file; `none` where the setting is missing. -/
structure ConfigFile where
  key : Option Int
  size : Option String
  channels : List ChannelSetting
  svrID : List (String × Int)

/-- `std::map::insert`: an existing name keeps its value. -/
def insertName (names : List (String × Int)) (name : String × Int) : List (String × Int) :=
  if names.any (fun n => n.1 == name.1) then names else names ++ [name]

/-- `GetChannelsName`. -/
def getChannelsName (svrID : List (String × Int)) (channelsName : List (String × Int)) :
    List (String × Int) :=
  svrID.foldl insertName channelsName

/-- `GetChannels`: the vector behind its loop and the returned `allocSize`. -/
def getChannels (ascStrToSize : String → Int) (maxSize : Int) :
    List ChannelSetting → List ChannelCfg → Int → List ChannelCfg × Int
  | [], channels, allocSize => (channels, allocSize)
  | .other :: settings, channels, allocSize =>
    getChannels ascStrToSize maxSize settings channels allocSize
  | .list srcID dstID size :: settings, channels, allocSize =>
    let channelSize := ascStrToSize size
    if channelSize > 0 then
      -- the sum is taken with the sizes as they are, before they are aligned
      if int64 (allocSize + channelSize) ≤ maxSize then
        getChannels ascStrToSize maxSize settings (channels ++ [⟨srcID, dstID, channelSize⟩])
          (int32 (int64 (allocSize + channelSize)))
      else
        getChannels ascStrToSize maxSize settings channels allocSize
    else
      getChannels ascStrToSize maxSize settings channels allocSize

/-- `ReadIBUSConfig`: the new `sCfgInfo`, or `none` for the null pointer of a file that does
    not parse, which leaves `sCfgInfo` alone. -/
def readIBUSConfig (ascStrToSize : String → Int) (sCfgInfo : IBusmCfg)
    (file : Option ConfigFile) : Option IBusmCfg :=
  file.map fun conf =>
    let maxLength := int32 (ascStrToSize (conf.size.getD "100M"))
    let channels := (getChannels ascStrToSize maxLength conf.channels sCfgInfo.channels 0).1
    { key := conf.key.getD sCfgInfo.key
      maxLength := maxLength
      channels := channels
      channelsName := getChannelsName conf.svrID sCfgInfo.channelsName
      capacity := int32 channels.length }

/-- `sCfgInfo` at the start of the process. -/
def initialCfg : IBusmCfg :=
  { key := 0, capacity := 0, maxLength := 0, channels := [], channelsName := [] }

/-- `sCfgInfo` after files that parse were read one after another. -/
def readConfigs (ascStrToSize : String → Int) (sCfgInfo : IBusmCfg) (files : List ConfigFile) :
    IBusmCfg :=
  files.foldl (fun cfg conf => (readIBUSConfig ascStrToSize cfg (some conf)).getD cfg) sCfgInfo

/-- `INVALID_CHANNEL_ID`. -/
def invalidChannelID : Int := -1

/-- `std::map::find`. -/
def findName (names : List (String × Int)) (name : String) : Option Int :=
  (names.find? fun n => n.1 == name).map Prod.snd

/-- `GetProcID`. -/
def getProcID (cfg : IBusmCfg) (channelName : String) : Int :=
  (findName cfg.channelsName channelName).getD invalidChannelID

/-- `CheckChannel`. -/
def checkChannel (sCfgInfo : IBusmCfg) (srcID dstID : Int) : Bool :=
  sCfgInfo.channels.any fun cfg => srcID == cfg.srcID && dstID == cfg.dstID

/-! ## The region -/

structure IBUSChannel where
  srcID : Int
  dstID : Int
  start : Int
  maxLength : Int

/-- `IBUSHead`; `channeles` are the entries of the table behind it. -/
structure IBUSHead where
  capacity : Int
  count : Int
  maxLength : Int
  offset : Int
  channeles : Nat → IBUSChannel

def sizeofIBUSChannel : Int := 16

/-- `sizeof(IBUSHead)`: two `int`s, two `long`s and one channel. -/
def sizeofIBUSHead : Int := 24 + sizeofIBUSChannel

/-- The offset of `data_` in a `tagCircleBuffer`. -/
def dataOffset : Int := 20

/-- `sizeof(tagCircleBuffer)`: the five `int`s, `data_[1]` and the padding behind it. -/
def sizeofTagCircleBuffer : Int := 24

/-- `ALIGN_SIZE`. -/
def alignSize (size align : Int) : Int := (align - 1 + size) - (align - 1 + size) % align

/-- The shared region: the head with its table, and all bytes by offset from the head. -/
structure IBUS where
  head : IBUSHead
  mem : Nat → UInt8

/-- The `int` stored at an offset. -/
def loadInt (mem : Nat → UInt8) (off : Nat) : Int :=
  int32 (ofLE ((List.range 4).map fun k => mem (off + k)))

/-- The bytes of an `int`. -/
def intBytes (x : Int) : List UInt8 := toLE 4 (x % 4294967296).toNat

/-- The ring whose header is at an offset. -/
def ringAt (mem : Nat → UInt8) (start : Nat) : TagCircleBuffer :=
  { maxLength := loadInt mem start
    readPos := loadInt mem (start + 4)
    writePos := loadInt mem (start + 8)
    msgWrite := loadInt mem (start + 12)
    msgRead := loadInt mem (start + 16)
    data := fun k => mem (start + 20 + k) }

/-- Store the five fields in front of `data_`. -/
def storeHeader (mem : Nat → UInt8) (start : Nat) (cb : TagCircleBuffer) : Nat → UInt8 :=
  Circular.blit mem start (intBytes cb.maxLength ++ intBytes cb.readPos ++ intBytes cb.writePos ++
    intBytes cb.msgWrite ++ intBytes cb.msgRead)

/-- `cb->maxLength_ = maxLength; CircleBuffer::Clear(cb);` for the ring at `start`. -/
def initRing (headSize totalSize : Int) (mem : Nat → UInt8) (start maxLength : Int) :
    Option (Nat → UInt8) :=
  if headSize ≤ start ∧ start + dataOffset ≤ totalSize then
    let cb := { ringAt mem start.toNat with maxLength := maxLength }
    some (storeHeader mem start.toNat (clear cb).2)
  else
    none

/-- The `headSize` of `CreateIBUS`. -/
def headSize (capacity : Int) : Nat :=
  SizeT.eight.wrap (sizeofIBUSHead + int32 (capacity - 1) * sizeofIBUSChannel)

/-- The channel loop of `CreateIBUS`. -/
def layChannels (headSize : Nat) : IBUS → List ChannelCfg → Option IBUS
  | bus, [] => some bus
  | bus, first :: channels => do
    let channel : IBUSChannel :=
      { srcID := first.srcID
        dstID := first.dstID
        start := int32 bus.head.offset
        maxLength := int32 (alignSize first.maxLength 16) }
    let head : IBUSHead := { bus.head with
      channeles := Function.update bus.head.channeles bus.head.count.toNat channel
      offset := int64 (bus.head.offset + channel.maxLength) }
    if head.offset ≤ head.maxLength then
      -- the ring gets what its header leaves of the channel, as an `int` again
      let mem ← initRing headSize head.maxLength bus.mem channel.start
        (int32 (SizeT.eight.wrap (channel.maxLength - sizeofTagCircleBuffer)))
      layChannels headSize { head := { head with count := int32 (head.count + 1) }, mem := mem }
        channels
    else
      -- the entry is written and not counted
      some { head := head, mem := bus.mem }

/-- `CreateIBUS` on a fresh region: the null pointer is the inner `none`. -/
def createIBUS (ascStrToSize : String → Int) (createShm : Int → Nat → Option (Nat → UInt8))
    (sCfgInfo : IBusmCfg) (file : Option ConfigFile) : Option (Option IBUS) :=
  match readIBUSConfig ascStrToSize sCfgInfo file with
  | none => some none
  | some cfg =>
    let headSize := headSize cfg.capacity
    let totalSize := SizeT.eight.wrap (headSize + cfg.maxLength)
    match createShm cfg.key totalSize with
    | none => some none
    | some mem =>
      let head : IBUSHead :=
        { capacity := cfg.capacity
          count := 0
          maxLength := int64 totalSize
          offset := int64 (alignSize headSize 16)
          channeles := fun _ => ⟨0, 0, 0, 0⟩ }
      (layChannels headSize { head := head, mem := mem } cfg.channels).map some

/-- `GetChannel`: the index of the entry pointed to. -/
def getChannel (head : IBUSHead) (srcID dstID : Int) : Option Nat :=
  (List.range head.count.toNat).find? fun i =>
    srcID == (head.channeles i).srcID && dstID == (head.channeles i).dstID

end XGame3.Ibus
