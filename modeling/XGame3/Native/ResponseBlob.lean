import XGame3.ForStd.FixedInt
import XGame3.ForStd.Loop

/-!
# The response accumulator (`response_blob.cpp`)

`malloc` and `realloc` are the environment's: each operation that may allocate
is given the outcome, `none` for a null pointer and otherwise the indeterminate
bytes the fresh part of the block happens to hold.  `size_t` has 64 bits.  The
growth loop of `Push` is a `Loop` body; an unfinished call shows as `.inl`.
-/

namespace XGame3

open FixedInt

/-- The outcome of an allocation: the bytes of a new block, or a null pointer. -/
abbrev Alloc := Option (Nat → UInt8)

/-- `ResponseBlob`; `buff` is the allocated block. -/
structure ResponseBlob where
  buff : List UInt8
  buffSize : Nat
  useSize : Nat
  contentType : List UInt8

namespace ResponseBlob

/-- `DefaultBuffSize`. -/
def defaultBuffSize : Nat := 256

/-- The constructor, with the block `malloc` returned. -/
def new (block : Nat → UInt8) : ResponseBlob :=
  { buff := (List.range defaultBuffSize).map block
    buffSize := defaultBuffSize
    useSize := 0
    contentType := [] }

/-- `Reset`. -/
def reset (b : ResponseBlob) : ResponseBlob := { b with useSize := 0 }

/-- `GetLength`. -/
def getLength (b : ResponseBlob) : Nat := b.useSize

/-- `GetData`. -/
def getData (b : ResponseBlob) : List UInt8 := b.buff

/-- `SetContentType`. -/
def setContentType (b : ResponseBlob) (contentType : List UInt8) : ResponseBlob :=
  { b with contentType := contentType }

/-- `FreeSize`, an unsigned difference. -/
def freeSize (b : ResponseBlob) : Nat := SizeT.eight.wrap (b.buffSize - b.useSize)

/-- `Realloc`. -/
def realloc (b : ResponseBlob) (bytes : Nat) (alloc : Alloc) : Bool × ResponseBlob :=
  if b.buffSize = bytes then (false, b)
  else
    match alloc with
    | none => (false, b)
    | some block =>
      -- realloc keeps the common prefix of the old block
      (true, { b with
        buff := (List.range bytes).map fun i => (b.buff[i]?).getD (block i)
        buffSize := bytes })

/-- One iteration of the growth loop of `Push`. -/
def growBody (need : Nat) (newSize : Nat) : Option (Nat ⊕ Nat) :=
  if newSize < need then some (.inl (newSize >>> 1)) else some (.inr newSize)

/-- The copy at the end of `Push`; a copy past the block is a fault. -/
def append (b : ResponseBlob) (data : List UInt8) : Option (Bool × ResponseBlob) :=
  if b.useSize + data.length ≤ b.buff.length then
    some (true, { b with
      buff := b.buff.take b.useSize ++ data ++ b.buff.drop (b.useSize + data.length)
      useSize := SizeT.eight.wrap (b.useSize + data.length) })
  else none

/-- `Push`, allowing its loop `fuel` iterations. -/
def push (fuel : Nat) (b : ResponseBlob) (data : List UInt8) (alloc : Alloc) :
    Option (Nat ⊕ (Bool × ResponseBlob)) :=
  if b.freeSize < data.length then
    match Loop.run (growBody (SizeT.eight.wrap (data.length + b.useSize))) fuel b.buffSize with
    | none => none
    | some (.inl newSize) => some (.inl newSize)
    | some (.inr newSize) =>
      match b.realloc newSize alloc with
      | (false, b) => some (.inr (false, b))
      | (true, b) => (b.append data).map .inr
  else
    (b.append data).map .inr

end ResponseBlob

end XGame3
