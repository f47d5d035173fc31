import XGame3.Native.IbusRing
import XGame3.Spec.CircleBufferQueue
import XGame3.Spec.IbusLayout

/-!
# Channels do not reach each other's bytes

`ringStep` is a call on a ring of the bus as its stores to the region, and
`ringStep_eq` that the ring read back from the region afterwards is the one of
`CircleBuffer`.  A store is either to the header behind `maxLength_` or to
`data_[0..maxLength_)`, so what is left is where the layout put the ring.

## Key results

- `ringStep_eq`: the calls on the region are the calls on the ring
- `ringStep_within`: where they store
- `RingReached.holds`: the ring holds a queue whatever happens to the other bytes
- `isolated_iff`: the channels are isolated exactly when no size overflows an `int` when it
  is aligned
-/

namespace XGame3.Ibus

open FixedInt LittleEndian CircleBuffer Circular Layout

/-! ## The ring in the region -/

section Region

variable (mem : Nat → UInt8) (start : Nat)

/-- An `int` has four bytes. -/
theorem length_intBytes (x : Int) : (intBytes x).length = 4 := length_toLE ..

/-- An `int` is what its four bytes say. -/
theorem loadInt_congr {mem mem' : Nat → UInt8} {a : Nat}
    (h : ∀ k, k < 4 → mem (a + k) = mem' (a + k)) :
    loadInt mem a = loadInt mem' a := by
  rw [loadInt, loadInt, List.map_congr_left fun k hk => h k (List.mem_range.mp hk)]

/-- A copy that ends before an `int` leaves it. -/
theorem loadInt_blit_of_ge {off a : Nat} {bs : List UInt8} (h : off + bs.length ≤ a) :
    loadInt (blit mem off bs) a = loadInt mem a :=
  loadInt_congr fun _ _ => blit_of_ge mem bs (by omega)

/-- The four stores of an `int` are a copy. -/
theorem storeAll_intStores (off : Nat) (x : Int) :
    storeAll mem (intStores off x) = blit mem off (intBytes x) := (blit_eq_storeAll ..).symm

/-- What was stored is loaded. -/
theorem loadInt_storeAll_intStores (off : Nat) (x : Int) :
    loadInt (storeAll mem (intStores off x)) off = int32 x := by
  have hload := loadInt_blit_intBytes mem off x []
  rwa [List.append_nil, ← storeAll_intStores] at hload

/-- An `int` beside the stored one stays. -/
theorem loadInt_storeAll_of_apart {off a : Nat} (x : Int) (h : a + 4 ≤ off ∨ off + 4 ≤ a) :
    loadInt (storeAll mem (intStores off x)) a = loadInt mem a := by
  rw [storeAll_intStores]
  rcases h with hbefore | hbehind
  · exact loadInt_blit_of_le hbefore
  · exact loadInt_blit_of_ge mem (by rwa [length_intBytes])

/-- `data_` lies behind every header field. -/
theorem data_storeAll_intStores {off : Nat} (x : Int) (h : off + 4 ≤ start + 20) (k : Nat) :
    storeAll mem (intStores off x) (start + 20 + k) = mem (start + 20 + k) := by
  rw [storeAll_intStores]
  exact blit_of_ge mem _ (by rw [length_intBytes]; omega)

/-- The stores to `readPos_` change nothing else of the ring, -/
theorem ringAt_readPos (x : Int) : ringAt (storeAll mem (intStores (start + 4) x)) start =
    { ringAt mem start with readPos := int32 x } := by
  simp only [ringAt, loadInt_storeAll_intStores, TagCircleBuffer.mk.injEq, true_and]
  exact ⟨loadInt_storeAll_of_apart mem x (by omega), loadInt_storeAll_of_apart mem x (by omega),
    loadInt_storeAll_of_apart mem x (by omega), loadInt_storeAll_of_apart mem x (by omega),
    funext fun k => data_storeAll_intStores mem start x (by omega) k⟩

/-- nor do those to `writePos_`, -/
theorem ringAt_writePos (x : Int) : ringAt (storeAll mem (intStores (start + 8) x)) start =
    { ringAt mem start with writePos := int32 x } := by
  simp only [ringAt, loadInt_storeAll_intStores, TagCircleBuffer.mk.injEq, true_and]
  exact ⟨loadInt_storeAll_of_apart mem x (by omega), loadInt_storeAll_of_apart mem x (by omega),
    loadInt_storeAll_of_apart mem x (by omega), loadInt_storeAll_of_apart mem x (by omega),
    funext fun k => data_storeAll_intStores mem start x (by omega) k⟩

/-- to `msgWrite_` -/
theorem ringAt_msgWrite (x : Int) : ringAt (storeAll mem (intStores (start + 12) x)) start =
    { ringAt mem start with msgWrite := int32 x } := by
  simp only [ringAt, loadInt_storeAll_intStores, TagCircleBuffer.mk.injEq, true_and]
  exact ⟨loadInt_storeAll_of_apart mem x (by omega), loadInt_storeAll_of_apart mem x (by omega),
    loadInt_storeAll_of_apart mem x (by omega), loadInt_storeAll_of_apart mem x (by omega),
    funext fun k => data_storeAll_intStores mem start x (by omega) k⟩

/-- and to `msgRead_`. -/
theorem ringAt_msgRead (x : Int) : ringAt (storeAll mem (intStores (start + 16) x)) start =
    { ringAt mem start with msgRead := int32 x } := by
  simp only [ringAt, loadInt_storeAll_intStores, TagCircleBuffer.mk.injEq, true_and]
  exact ⟨loadInt_storeAll_of_apart mem x (by omega), loadInt_storeAll_of_apart mem x (by omega),
    loadInt_storeAll_of_apart mem x (by omega), loadInt_storeAll_of_apart mem x (by omega),
    funext fun k => data_storeAll_intStores mem start x (by omega) k⟩

/-- Stores to the data leave the positions. -/
theorem ringAt_data (todo : List (Nat × UInt8)) :
    ringAt (storeAll mem (dataStores start todo)) start =
      { ringAt mem start with data := storeAll (ringAt mem start).data todo } := by
  have hheader : ∀ a, a + 4 ≤ start + 20 →
      loadInt (storeAll mem (dataStores start todo)) a = loadInt mem a := by
    intro a ha
    refine loadInt_congr fun k hk => storeAll_of_not_mem mem fun c hc => ?_
    obtain ⟨d, -, rfl⟩ := List.mem_map.mp hc
    dsimp only
    omega
  simp only [ringAt, TagCircleBuffer.mk.injEq]
  exact ⟨hheader _ (by omega), hheader _ (by omega), hheader _ (by omega), hheader _ (by omega),
    hheader _ (by omega), funext fun k => storeAll_map_add mem (start + 20) k todo⟩

/-- The stores of `Clear` do what `Clear` does. -/
theorem ringAt_clearRing :
    ringAt (storeAll mem (clearRing start).2) start = (clear (ringAt mem start)).2 := by
  simp only [clearRing, storeAll_append, ringAt_readPos, ringAt_writePos, ringAt_msgRead,
    ringAt_msgWrite, show int32 0 = 0 by decide, clear]

end Region

/-! ## Calls -/

/-- One call on the ring at `start`: what it reports and what it stores. -/
def ringStep (mem : Nat → UInt8) (start : Nat) : Op → Option (Result × List (Nat × UInt8))
  | .write m => (writeRing mem start (.write m)).map fun r => (.written r.1, r.2)
  | .writeV iov => (writeRing mem start (.writeV iov)).map fun r => (.written r.1, r.2)
  | .read buf => (readRing mem start buf buf.length).map fun r => (.read r.1, r.2)
  | .clear => some (.cleared (clearRing start).1, (clearRing start).2)
  | .empty => some (.empty (empty (ringAt mem start)), [])

section Calls

variable {mem : Nat → UInt8} {start : Nat}

/-- The position behind a copy is an `int`. -/
theorem isInt32_realRead {cb : TagCircleBuffer} {readPos : Int} {data : List UInt8} {length : Int}
    {r : Int × List UInt8} (h : realRead cb readPos data length = some r) : IsInt32 r.1 := by
  rw [realRead_eq_loads] at h
  obtain ⟨r', hloads, rfl⟩ := Option.map_eq_some_iff.mp h
  unfold realReadLoads at hloads
  simp only [Option.bind_eq_bind] at hloads
  obtain ⟨head, -, hloads⟩ := Option.bind_eq_some_iff.mp hloads
  split at hloads
  · obtain ⟨tail, -, hloads⟩ := Option.bind_eq_some_iff.mp hloads
    obtain rfl := Option.some.inj hloads
    exact isInt32_int32 _
  · obtain rfl := Option.some.inj hloads
    exact isInt32_int32 _

/-- A copy into the ring stays below `maxLength_`. -/
theorem copyInStores_lt {maxLength dst : Int} {src : List UInt8} {off n : Int}
    {todo : List (Nat × UInt8)} (h : copyInStores maxLength dst src off n = some todo) :
    ∀ c ∈ todo, (c.1 : Int) < maxLength := by
  unfold copyInStores at h
  split at h
  · rename_i hbounds
    obtain rfl := Option.some.inj h
    intro c hc
    obtain ⟨k, hk, rfl⟩ := List.mem_mapIdx.mp hc
    rw [List.length_take] at hk
    dsimp only
    omega
  · exact nomatch h

/-- `RealWrite` ends at an `int` and stores below `maxLength_`. -/
theorem realWriteStores_spec {maxLength writePos : Int} {data : List UInt8} {length : Int}
    {r : Int × List (Nat × UInt8)} (h : realWriteStores maxLength writePos data length = some r) :
    IsInt32 r.1 ∧ ∀ c ∈ r.2, (c.1 : Int) < maxLength := by
  unfold realWriteStores at h
  simp only [Option.bind_eq_bind] at h
  obtain ⟨head, hhead, h⟩ := Option.bind_eq_some_iff.mp h
  have hfirst : ∀ c ∈ head, (c.1 : Int) < maxLength := by
    split at hhead
    · exact copyInStores_lt hhead
    · obtain rfl := Option.some.inj hhead
      exact fun c hc => absurd hc List.not_mem_nil
  split at h
  · -- the rest is copied to the start of the ring
    obtain ⟨tail, htail, h⟩ := Option.bind_eq_some_iff.mp h
    obtain rfl := Option.some.inj h
    refine ⟨isInt32_int32 _, fun c hc => ?_⟩
    rcases List.mem_append.mp hc with hc | hc
    · exact hfirst c hc
    · exact copyInStores_lt htail c hc
  · obtain rfl := Option.some.inj h
    exact ⟨isInt32_int32 _, hfirst⟩

/-- The segments of a message are stored in the data. -/
theorem segmentStores_lt {maxLength : Int} (iov : List (List UInt8)) :
    ∀ {writePos : Int} {r : Int × List (Nat × UInt8)},
      segmentStores maxLength writePos iov = some r → ∀ c ∈ r.2, (c.1 : Int) < maxLength := by
  induction iov with
  | nil =>
    intro writePos r h
    obtain rfl := Option.some.inj h
    exact fun c hc => absurd hc List.not_mem_nil
  | cons seg iov ih =>
    intro writePos r h
    simp only [segmentStores, Option.bind_eq_bind] at h
    obtain ⟨head, hhead, h⟩ := Option.bind_eq_some_iff.mp h
    obtain ⟨tail, htail, h⟩ := Option.bind_eq_some_iff.mp h
    obtain rfl := Option.some.inj h
    intro c hc
    -- a byte of this segment or of a later one
    rcases List.mem_append.mp hc with hc | hc
    · exact (realWriteStores_spec hhead).2 c hc
    · exact ih htail c hc

/-- A frame ends at an `int`, and all its bytes are stored below `maxLength_`. -/
theorem writeStores_spec {w : SizeT} {maxLength writePos : Int} {call : WriteCall}
    {r : Int × List (Nat × UInt8)} (h : writeStores w maxLength writePos call = some r) :
    IsInt32 r.1 ∧ ∀ c ∈ r.2, (c.1 : Int) < maxLength := by
  unfold writeStores at h
  simp only [Option.bind_eq_bind] at h
  obtain ⟨head, hhead, h⟩ := Option.bind_eq_some_iff.mp h
  obtain ⟨body, hbody, h⟩ := Option.bind_eq_some_iff.mp h
  obtain ⟨tail, htail, h⟩ := Option.bind_eq_some_iff.mp h
  obtain ⟨hpos, hlt⟩ := realWriteStores_spec htail
  obtain rfl := Option.some.inj h
  refine ⟨hpos, fun c hc => ?_⟩
  rcases List.mem_append.mp hc with hc | hc
  · exact (realWriteStores_spec hhead).2 c hc
  · rcases List.mem_append.mp hc with hc | hc
    · exact segmentStores_lt _ hbody c hc
    · exact hlt c hc

/-- `Write` and `WriteV` leave the ring that they leave outside the region. -/
theorem writeRing_eq (mem : Nat → UInt8) (start : Nat) (call : WriteCall) :
    call.perform .eight (ringAt mem start) = (writeRing mem start call).map fun r =>
      (r.1, ringAt (storeAll mem r.2) start) := by
  rw [call.perform_eq_stores]
  by_cases hfull : call.capacity (ringAt mem start).maxLength (ringAt mem start).readPos
      (ringAt mem start).writePos < int32 (SizeT.eight.wrap ((call.length .eight : Int) + 4 + 4))
  · -- a refused call stores nothing
    simp only [writeRing, hfull, ↓reduceIte, Option.map_some, storeAll_nil]
  · simp only [writeRing, hfull, ↓reduceIte, Option.bind_eq_bind]
    cases hframe : writeStores .eight (ringAt mem start).maxLength (ringAt mem start).writePos
      call with
    | none => rw [Option.map_none, Option.bind_none, Option.map_none]
    | some frame =>
      have hpos := int32_of_isInt32 (writeStores_spec hframe).1
      have hcount := int32_of_isInt32 (isInt32_int32 ((ringAt mem start).msgWrite + 1))
      simp only [Option.map_some, Option.bind_some, storeAll_append, ringAt_data, ringAt_writePos,
        ringAt_msgWrite, hpos, hcount]

/-- `Read` behind the length word, on the shared memory. -/
theorem readMsgRing_eq (mem : Nat → UInt8) (start : Nat) (data : List UInt8) (maxLength : Nat)
    (readPos msgSize : Int) :
    readMsg .eight (ringAt mem start) data maxLength readPos msgSize =
      (readMsgRing mem start data maxLength readPos msgSize).map fun r =>
        (r.1, ringAt (storeAll mem r.2) start) := by
  by_cases hsmall : msgSize > int32 maxLength
  · simp only [readMsg, readMsgRing, hsmall, ↓reduceIte, Option.map_some, storeAll_nil]
  · simp only [readMsg, readMsgRing, hsmall, ↓reduceIte, Option.bind_eq_bind]
    rw [Option.map_bind]
    apply Option.bind_congr
    intro body _
    rw [Function.comp_apply, Option.map_bind]
    apply Option.bind_congr
    intro check hcheck
    rw [Function.comp_apply]
    have hpos := int32_of_isInt32 (isInt32_realRead hcheck)
    have hcount := int32_of_isInt32 (isInt32_int32 ((ringAt mem start).msgRead + 1))
    by_cases hsum : checkSum (ofLE check.2) = true
    · -- the message is taken
      rw [if_pos hsum, if_pos hsum]
      simp only [Option.map_some, storeAll_append, ringAt_readPos, ringAt_msgRead, hpos, hcount]
    · -- a wrong check word clears the ring
      rw [if_neg hsum, if_neg hsum]
      simp only [Option.map_some, ringAt_clearRing]

/-- `Read` leaves the ring that it leaves outside the region. -/
theorem readRing_eq (mem : Nat → UInt8) (start : Nat) (data : List UInt8) (maxLength : Nat) :
    CircleBuffer.read .eight (ringAt mem start) data maxLength =
      (readRing mem start data maxLength).map fun r =>
        (r.1, ringAt (storeAll mem r.2) start) := by
  by_cases hsmall : readSize (ringAt mem start).maxLength (ringAt mem start).readPos
      (ringAt mem start).writePos < 4 + 4
  · simp only [CircleBuffer.read, readRing, hsmall, ↓reduceIte, Option.map_some, storeAll_nil]
  · simp only [CircleBuffer.read, readRing, hsmall, ↓reduceIte, Option.bind_eq_bind]
    cases realRead (ringAt mem start) (ringAt mem start).readPos (toLE 4 0) 4 with
    | none => rw [Option.bind_none, Option.bind_none, Option.map_none]
    | some msgSize =>
      rw [Option.bind_some, Option.bind_some]
      exact readMsgRing_eq ..

/-- The calls on the region are the calls on the ring in it. -/
theorem ringStep_eq (mem : Nat → UInt8) (start : Nat) (op : Op) :
    step .eight (ringAt mem start) op = (ringStep mem start op).map fun r =>
      (r.1, ringAt (storeAll mem r.2) start) := by
  -- each call stores the bytes that its specification stores
  cases op with
  | write m =>
    have hwrite := writeRing_eq mem start (.write m)
    simp only [WriteCall.perform] at hwrite
    simp only [step, ringStep, hwrite, Option.map_map]
    rfl
  | writeV iov =>
    have hwrite := writeRing_eq mem start (.writeV iov)
    simp only [WriteCall.perform] at hwrite
    simp only [step, ringStep, hwrite, Option.map_map]
    rfl
  | read buf =>
    simp only [step, ringStep, readRing_eq, Option.map_map]
    rfl
  | clear =>
    simp only [step, ringStep, Option.map_some, ringAt_clearRing]
    rfl
  | empty => rfl

/-! ## Where a call stores -/

/-- The bytes the calls on a ring of `length` bytes may change: its header behind
    `maxLength_`, and its data. -/
def RingByte (start : Nat) (length : Int) (a : Nat) : Prop :=
  start + 4 ≤ a ∧ (a < start + 20 ∨ (a : Int) < start + 20 + length)

/-- The positions and counters are bytes of the ring, -/
theorem ringByte_intStores {length : Int} {off : Nat} {x : Int} {c : Nat × UInt8}
    (hc : c ∈ intStores off x) (hoff : start + 4 ≤ off ∧ off + 4 ≤ start + 20) :
    RingByte start length c.1 := by
  obtain ⟨k, hk, rfl⟩ := List.mem_mapIdx.mp hc
  rw [length_intBytes] at hk
  exact ⟨by dsimp only; omega, .inl (by dsimp only; omega)⟩

/-- and so are the data. -/
theorem ringByte_dataStores {length : Int} {todo : List (Nat × UInt8)} {c : Nat × UInt8}
    (hc : c ∈ dataStores start todo) (htodo : ∀ d ∈ todo, (d.1 : Int) < length) :
    RingByte start length c.1 := by
  obtain ⟨d, hd, rfl⟩ := List.mem_map.mp hc
  have hlt := htodo d hd
  exact ⟨by dsimp only; omega, .inr (by dsimp only; omega)⟩

/-- `Clear` stores to positions and counters only. -/
theorem ringByte_clearRing {length : Int} {c : Nat × UInt8} (hc : c ∈ (clearRing start).2) :
    RingByte start length c.1 := by
  simp only [clearRing, List.mem_append] at hc
  rcases hc with ((hc | hc) | hc) | hc
  · exact ringByte_intStores hc (by omega)
  · exact ringByte_intStores hc (by omega)
  · exact ringByte_intStores hc (by omega)
  · exact ringByte_intStores hc (by omega)

/-- A write stores to its ring only. -/
theorem writeRing_within {call : WriteCall} {r : Int × List (Nat × UInt8)}
    (h : writeRing mem start call = some r) :
    ∀ c ∈ r.2, RingByte start (ringAt mem start).maxLength c.1 := by
  simp only [writeRing] at h
  split at h
  · obtain rfl := Option.some.inj h
    exact fun c hc => absurd hc List.not_mem_nil
  · simp only [Option.bind_eq_bind] at h
    obtain ⟨frame, hframe, h⟩ := Option.bind_eq_some_iff.mp h
    obtain rfl := Option.some.inj h
    intro c hc
    rcases List.mem_append.mp hc with hc | hc
    · rcases List.mem_append.mp hc with hc | hc
      · exact ringByte_dataStores hc (writeStores_spec hframe).2
      · exact ringByte_intStores hc (by omega)
    · exact ringByte_intStores hc (by omega)

/-- So does a read behind the length word, -/
theorem readMsgRing_within {data : List UInt8} {maxLength : Nat} {readPos msgSize length : Int}
    {r : ReadResult × List (Nat × UInt8)}
    (h : readMsgRing mem start data maxLength readPos msgSize = some r) :
    ∀ c ∈ r.2, RingByte start length c.1 := by
  simp only [readMsgRing] at h
  split at h
  -- a bad length stores nothing
  · obtain rfl := Option.some.inj h
    exact fun c hc => absurd hc List.not_mem_nil
  · simp only [Option.bind_eq_bind] at h
    obtain ⟨body, -, h⟩ := Option.bind_eq_some_iff.mp h
    obtain ⟨check, -, h⟩ := Option.bind_eq_some_iff.mp h
    split at h
    -- a good check stores the two counters, a bad one clears
    · obtain rfl := Option.some.inj h
      intro c hc
      rcases List.mem_append.mp hc with hc | hc
      · exact ringByte_intStores hc (by omega)
      · exact ringByte_intStores hc (by omega)
    · obtain rfl := Option.some.inj h
      exact fun c hc => ringByte_clearRing hc

/-- and the whole of it. -/
theorem readRing_within {data : List UInt8} {maxLength : Nat} {length : Int}
    {r : ReadResult × List (Nat × UInt8)} (h : readRing mem start data maxLength = some r) :
    ∀ c ∈ r.2, RingByte start length c.1 := by
  simp only [readRing] at h
  split at h
  · obtain rfl := Option.some.inj h
    exact fun c hc => absurd hc List.not_mem_nil
  · simp only [Option.bind_eq_bind] at h
    obtain ⟨msgSize, -, h⟩ := Option.bind_eq_some_iff.mp h
    exact readMsgRing_within h

/-- Whatever stands in the ring, a call stores to its header and its data alone. -/
theorem ringStep_within {op : Op} {r : Result × List (Nat × UInt8)}
    (h : ringStep mem start op = some r) :
    ∀ c ∈ r.2, RingByte start (ringAt mem start).maxLength c.1 := by
  -- the bytes of each call are those of its ring
  cases op with
  | write m =>
    rw [ringStep] at h
    obtain ⟨r', hwrite, rfl⟩ := Option.map_eq_some_iff.mp h
    exact writeRing_within hwrite
  | writeV iov =>
    rw [ringStep] at h
    obtain ⟨r', hwrite, rfl⟩ := Option.map_eq_some_iff.mp h
    exact writeRing_within hwrite
  | read buf =>
    rw [ringStep] at h
    obtain ⟨r', hread, rfl⟩ := Option.map_eq_some_iff.mp h
    exact readRing_within hread
  | clear =>
    obtain rfl := Option.some.inj h
    exact fun c hc => ringByte_clearRing hc
  | empty =>
    obtain rfl := Option.some.inj h
    exact fun c hc => absurd hc List.not_mem_nil

end Calls

/-! ## Runs -/

/-- Messages and gathered totals stay below `2 ^ 31 - 8` bytes; a read buffer has any size. -/
def TotalsFit : Op → Prop
  | .write m => m.length < 2147483640
  | .writeV iov => iov.flatten.length < 2147483640
  | .read _ => True
  | .clear => True
  | .empty => True

/-- The memories reached from `mem₀` while only the calls on the ring at `start` change its
    bytes, the header and `length` bytes of data; the others change at any time. -/
inductive RingReached (start : Nat) (length : Int) (mem₀ : Nat → UInt8) : (Nat → UInt8) → Prop
  | created : RingReached start length mem₀ mem₀
  | call {mem : Nat → UInt8} {op : Op} {r : Result × List (Nat × UInt8)} :
      RingReached start length mem₀ mem → TotalsFit op → ringStep mem start op = some r →
      RingReached start length mem₀ (storeAll mem r.2)
  | outside {mem mem' : Nat → UInt8} : RingReached start length mem₀ mem →
      (∀ a : Nat, start ≤ a → (a : Int) < start + dataOffset + length → mem' a = mem a) →
      RingReached start length mem₀ mem'

section Runs

variable {mem mem' mem₀ : Nat → UInt8} {start M r : Nat} {q : List (List UInt8)}

/-- The calls of a ring that holds a queue succeed, with a buffer of any size. -/
theorem holds_step {cb : TagCircleBuffer} (h : Holds cb M r q) {op : Op} (hop : TotalsFit op) :
    ∃ s r' q', step .eight cb op = some s ∧ Holds s.2 M r' q' := by
  cases op with
  | write m =>
    obtain ⟨cb', r', hstep, hcb', -⟩ := step_refines (w := .eight) h (.write m) hop
    exact ⟨_, r', _, hstep, hcb'⟩
  | writeV iov =>
    obtain ⟨cb', r', hstep, hcb', -⟩ := step_refines (w := .eight) h (.writeV iov) hop
    exact ⟨_, r', _, hstep, hcb'⟩
  -- a read takes the oldest message or leaves the queue as it is
  | read buf =>
    simp only [step, h.read_narrow, Option.map_some]
    cases q with
    | nil => exact ⟨_, r, [], rfl, h⟩
    | cons m q =>
      dsimp only
      split
      · exact ⟨_, r, m :: q, rfl, h⟩
      · exact ⟨_, _, q, rfl, h.pop⟩
  | clear => exact ⟨_, 0, [], rfl, Holds.clear h.size⟩
  | empty => exact ⟨_, r, q, rfl, h⟩

/-- A ring sees its header and its data alone. -/
theorem holds_of_agree (h : Holds (ringAt mem start) M r q)
    (hagree : ∀ a, start ≤ a → a < start + 20 + M → mem' a = mem a) :
    Holds (ringAt mem' start) M r q := by
  have hload : ∀ off, off + 4 ≤ 20 → loadInt mem' (start + off) = loadInt mem (start + off) :=
    fun off hoff => loadInt_congr fun k hk => hagree _ (by omega) (by omega)
  have hring : ringAt mem' start =
      { ringAt mem start with data := fun k => mem' (start + 20 + k) } := by
    simp only [ringAt, TagCircleBuffer.mk.injEq, and_true]
    exact ⟨hload 0 (by omega), hload 4 (by omega), hload 8 (by omega), hload 12 (by omega),
      hload 16 (by omega)⟩
  rw [hring]
  refine h.of_readAt (readAt_congr fun k hk => ?_)
  have hslot := slot_lt h.r_le (Nat.lt_trans hk h.used_lt)
  exact hagree _ (by omega) (by omega)

/-- Whatever happens to the other bytes, the ring holds a queue. -/
theorem RingReached.holds (h : RingReached start M mem₀ mem)
    (hcreated : ∃ r q, Holds (ringAt mem₀ start) M r q) :
    ∃ r q, Holds (ringAt mem start) M r q := by
  induction h with
  | created => exact hcreated
  | @call mem op s _ hop hstep ih =>
    -- the call's stores leave the ring the call leaves
    obtain ⟨r, q, hholds⟩ := ih
    obtain ⟨s', r', q', hs', hholds'⟩ := holds_step hholds hop
    rw [ringStep_eq, hstep, Option.map_some] at hs'
    obtain rfl := Option.some.inj hs'
    exact ⟨r', q', hholds'⟩
  | outside _ hagree ih =>
    -- what changed is none of the bytes the ring reads
    obtain ⟨r, q, hholds⟩ := ih
    refine ⟨r, q, holds_of_agree hholds fun a ha ha' => hagree a ha ?_⟩
    rw [dataOffset]
    omega

end Runs

/-! ## Rings as the loop leaves them -/

/-- The rings of the first `k` channels are as `Clear` leaves them, where no later header lies
    in theirs. -/
def Cleared (channels : List ChannelCfg) (k : Nat) (mem : Nat → UInt8) : Prop :=
  ∀ j, j < k →
    (∀ i, j < i → i < k → storedStart channels j + dataOffset ≤ storedStart channels i) →
    (clear (ringAt mem (storedStart channels j).toNat)).2 =
      ringAt mem (storedStart channels j).toNat

section Loop

variable {channels : List ChannelCfg} {total : Int} {k : Nat} {bus bus' : IBUS} {c : ChannelCfg}

/-- A header is five `int`s, one after the other. -/
theorem storeHeader_eq (mem : Nat → UInt8) (start : Nat) (cb : TagCircleBuffer) :
    storeHeader mem start cb =
      storeAll (storeAll (storeAll (storeAll (storeAll mem (intStores start cb.maxLength))
        (intStores (start + 4) cb.readPos)) (intStores (start + 8) cb.writePos))
        (intStores (start + 12) cb.msgWrite)) (intStores (start + 16) cb.msgRead) := by
  simp only [storeHeader, blit_append, List.length_append, length_intBytes, storeAll_intStores]

/-- The header of a cleared ring reads as that of a cleared ring. -/
theorem clear_ringHeader (channels : List ChannelCfg) (k : Nat) (c : ChannelCfg)
    (mem : Nat → UInt8) :
    (clear (ringAt (ringHeader channels k c mem) (storedStart channels k).toNat)).2 =
      ringAt (ringHeader channels k c mem) (storedStart channels k).toNat := by
  simp only [ringHeader, storeHeader_eq, ringAt_readPos, ringAt_writePos, ringAt_msgWrite,
    ringAt_msgRead, clear, show int32 0 = 0 by decide]

/-- A header behind the ring's own leaves a cleared ring cleared. -/
theorem clear_ringAt_blit {mem : Nat → UInt8} {start off : Nat} {bs : List UInt8}
    (h : (clear (ringAt mem start)).2 = ringAt mem start) (hoff : start + 20 ≤ off) :
    (clear (ringAt (blit mem off bs) start)).2 = ringAt (blit mem off bs) start := by
  have hring : ringAt (blit mem off bs) start =
      { ringAt mem start with data := fun k => blit mem off bs (start + 20 + k) } := by
    simp only [ringAt, TagCircleBuffer.mk.injEq, and_true]
    exact ⟨loadInt_blit_of_le (by omega), loadInt_blit_of_le (by omega),
      loadInt_blit_of_le (by omega), loadInt_blit_of_le (by omega), loadInt_blit_of_le (by omega)⟩
  rw [hring]
  exact congrArg (fun cb : TagCircleBuffer =>
    { cb with data := fun k => blit mem off bs (start + 20 + k) }) h

/-- Another channel leaves the rings before it cleared, and its own. -/
theorem Cleared.step (h : Cleared channels k bus.mem) (hbus : Laid channels total k bus)
    (c : ChannelCfg) :
    Cleared channels (k + 1) (ringHeader channels k c bus.mem) := by
  intro j hj hafter
  rcases Nat.lt_or_eq_of_le (Nat.le_of_lt_succ hj) with hlt | rfl
  · -- the new header lies behind the one of `j`
    have hbefore := hafter k hlt (Nat.lt_succ_self k)
    have hpos := (hbus.placed j hlt).1
    rw [tableEnd_eq] at hpos
    rw [dataOffset] at hbefore
    exact clear_ringAt_blit (h j hlt fun i hi hik => hafter i hi (by omega)) (by omega)
  · exact clear_ringHeader ..

/-- The loop of `CreateIBUS` clears one ring after the other. -/
theorem layChannels_cleared (hn : channels.length < 2147483648) (rest : List ChannelCfg) :
    ∀ {k : Nat} {bus : IBUS}, channels.drop k = rest → Laid channels total k bus →
      bus.head.offset = storedOffset channels k → Cleared channels k bus.mem →
      layChannels (tableEnd channels.length).toNat bus rest = some bus' →
      ∃ k', bus'.head.count = (k' : Nat) ∧ Cleared channels k' bus'.mem := by
  induction rest with
  | nil =>
    intro k bus _ hbus _ hcleared hlay
    obtain rfl := Option.some.inj hlay
    exact ⟨k, hbus.count_eq, hcleared⟩
  | cons c rest ih =>
    intro k bus hdrop hbus hoffset hcleared hlay
    have hc : channels[k]? = some c := by
      rw [← List.head?_drop, hdrop, List.head?_cons]
    rw [layChannels_cons hn hbus hoffset hc] at hlay
    split at hlay
    · rename_i hfits
      split at hlay
      · rename_i hplaced
        refine ih ?_ (hbus.step hc hfits hplaced) rfl (hcleared.step hbus c) hlay
        rw [← List.tail_drop, hdrop, List.tail_cons]
      · -- a header without a place is no region
        exact nomatch hlay
    · -- the channel does not fit, and nothing is stored for it
      obtain rfl := Option.some.inj hlay
      exact ⟨k, hbus.count_eq, hcleared⟩

end Loop

/-! ## Isolation -/

/-- A byte of the head or of its table, or one allotted to another channel than `i`. -/
def Foreign (cfg : IBusmCfg) (bus : IBUS) (i a : Nat) : Prop :=
  (a : Int) < tableEnd cfg.channels.length ∨
    ∃ j : Nat, j < bus.head.count ∧ j ≠ i ∧ (bus.head.channeles j).start ≤ a ∧
      (a : Int) < (bus.head.channeles j).start + (bus.head.channeles j).maxLength

/-- While only the calls on a ring change its bytes, each of them succeeds, stores to the bytes
    allotted to its channel, and leaves those of the head, the table and the other channels
    as they are. -/
def Isolated (cfg : IBusmCfg) (bus : IBUS) : Prop :=
  ∀ i : Nat, i < bus.head.count → 0 < ringLength bus i →
    ∀ (mem : Nat → UInt8) (op : Op),
      RingReached (bus.head.channeles i).start.toNat (ringLength bus i) bus.mem mem →
      TotalsFit op →
      ∃ r, ringStep mem (bus.head.channeles i).start.toNat op = some r ∧
        (∀ c ∈ r.2, (bus.head.channeles i).start ≤ c.1 ∧
          (c.1 : Int) < (bus.head.channeles i).start + (bus.head.channeles i).maxLength) ∧
        ∀ a, Foreign cfg bus i a → storeAll mem r.2 a = mem a

section Isolation

variable {cfg : IBusmCfg} {bus : IBUS} {k i : Nat} {c : ChannelCfg}

/-- A ring of positive length was created empty, and its data ends four bytes before its channel
    does. -/
theorem Laid.ring_holds (hbus : Laid cfg.channels (regionSize cfg) k bus)
    (hcleared : Cleared cfg.channels k bus.mem) (h : Accepted cfg)
    (hmax : ∀ c ∈ cfg.channels, c.maxLength ≤ 2147483632) (hi : i < k)
    (hc : cfg.channels[i]? = some c) (hpos : 0 < ringLength bus i) :
    ringLength bus i + 24 = (bus.head.channeles i).maxLength ∧
      Holds (ringAt bus.mem (bus.head.channeles i).start.toNat) (ringLength bus i).toNat 0 [] := by
  have hbounds := alignSize_bounds c.maxLength
  have hsize := hmax c (List.mem_of_getElem? hc)
  have hring := hbus.ringLength_aligned h hmax hi hc
  have hlength := (hbus.channel_eq h hmax hi hc).2
  have hM₀ : 0 < (ringLength bus i).toNat := by omega
  have hlt : (ringLength bus i).toNat < 2147483648 := by omega
  refine ⟨by omega, ?_⟩
  -- the channel is larger than a header, so no later one reaches its header
  have hempty := hcleared i hi fun j hij hj => by
    have hbefore := hbus.before h hmax hij hj hc
    rw [dataOffset]
    omega
  have hM : (ringAt bus.mem (bus.head.channeles i).start.toNat).maxLength =
      ((ringLength bus i).toNat : Nat) := by
    rw [Int.toNat_of_nonneg (Int.le_of_lt hpos), ringLength]
  have hstart : (bus.head.channeles i).start = storedStart cfg.channels i := by
    rw [hbus.entry i c hi hc]
  rw [← hstart] at hempty
  rw [← hempty]
  exact Holds.clear ⟨hM, hM₀, hlt⟩

/-- Without an overflowing size the channels are isolated. -/
theorem Laid.isolated (hbus : Laid cfg.channels (regionSize cfg) k bus)
    (hcleared : Cleared cfg.channels k bus.mem) (h : Accepted cfg) (hk : k ≤ cfg.channels.length)
    (hmax : ∀ c ∈ cfg.channels, c.maxLength ≤ 2147483632) : Isolated cfg bus := by
  intro i hi hpos mem op hreached hop
  rw [hbus.count_eq] at hi
  have hik : i < k := by omega
  have hchannel : ∀ j, j < k → ∃ c, cfg.channels[j]? = some c ∧
      (bus.head.channeles j).start = storedStart cfg.channels j ∧
      (bus.head.channeles j).maxLength = alignSize c.maxLength 16 := by
    intro j hj
    have hc := List.getElem?_eq_getElem (show j < cfg.channels.length by omega)
    exact ⟨_, hc, by rw [hbus.entry j _ hj hc], (hbus.channel_eq h hmax hj hc).2⟩
  obtain ⟨c, hc, hstart, hsize⟩ := hchannel i hik
  obtain ⟨hlength, hcreated⟩ := hbus.ring_holds hcleared h hmax hik hc hpos
  have htable : tableEnd cfg.channels.length ≤ (bus.head.channeles i).start :=
    hstart ▸ (hbus.placed i hik).1
  have hnonneg : 0 ≤ (bus.head.channeles i).start := by
    rw [tableEnd_eq] at htable
    omega
  have hM : ringLength bus i = ((ringLength bus i).toNat : Nat) :=
    (Int.toNat_of_nonneg (Int.le_of_lt hpos)).symm
  rw [hM] at hreached
  obtain ⟨r, q, hholds⟩ := hreached.holds ⟨0, [], hcreated⟩
  obtain ⟨s, r', q', hstep, -⟩ := holds_step hholds hop
  rw [ringStep_eq] at hstep
  obtain ⟨res, hres, -⟩ := Option.map_eq_some_iff.mp hstep
  -- its stores are to the header behind `maxLength_` and to the data
  have hwithin : ∀ s ∈ res.2, (bus.head.channeles i).start ≤ s.1 ∧
      (s.1 : Int) < (bus.head.channeles i).start + (bus.head.channeles i).maxLength := by
    intro s hs
    obtain ⟨hlo, hhi⟩ := ringStep_within hres s hs
    rw [hholds.size.maxLength_eq] at hhi
    omega
  refine ⟨res, hres, hwithin, fun a ha => storeAll_of_not_mem mem fun s hs hsa => ?_⟩
  have hrange := hwithin s hs
  rcases ha with hhead | ⟨j, hj, hji, hlo, hhi⟩
  · -- head and table end where the first channel starts, or before
    omega
  · rw [hbus.count_eq] at hj
    obtain ⟨c', hc', hstart', hsize'⟩ := hchannel j (by omega)
    rcases Nat.lt_or_gt_of_ne hji with hlt | hgt
    · have hbefore := hbus.before h hmax hlt hik hc'
      omega
    · have hbefore := hbus.before h hmax hgt (by omega) hc
      omega

/-- An overflowing channel is allotted no bytes and gets a ring of nearly 2 GiB. -/
theorem Laid.size_le_of_isolated (hbus : Laid cfg.channels (regionSize cfg) k bus)
    (h : Accepted cfg) (hk : k ≤ cfg.channels.length)
    (hfull : k < cfg.channels.length → ¬ Fits cfg.channels (regionSize cfg) k)
    (hiso : Isolated cfg bus) : ∀ c ∈ cfg.channels, c.maxLength ≤ 2147483632 := by
  intro c hc
  refine Int.le_of_not_gt fun hover => ?_
  obtain ⟨pre, post, hsplit⟩ := List.append_of_mem hc
  obtain ⟨hend, hstored⟩ := hbus.eq_of_overflow h hk hfull hsplit hover
  have hget : cfg.channels[pre.length]? = some c := by
    rw [hsplit, List.getElem?_append_right (Nat.le_refl _), Nat.sub_self,
      List.getElem?_cons_zero]
  have hlt : pre.length < k := by omega
  have hentry := hbus.entry pre.length c hlt hget
  have hring : ringLength bus pre.length = 2147483624 := by
    rw [ringLength, hentry, hbus.ring pre.length c hlt hget fun i hi hik => by omega, hstored]
    decide
  have hplaced := (hbus.placed pre.length hlt).1
  rw [tableEnd_eq] at hplaced
  obtain ⟨r, hr, hwithin, -⟩ := hiso pre.length (by rw [hbus.count_eq]; omega) (by omega)
    bus.mem .clear .created trivial
  obtain rfl := Option.some.inj hr
  -- the header is not among the allotted bytes
  have hbytes : intBytes 0 = [0, 0, 0, 0] := by decide
  obtain ⟨hlo, hhi⟩ := hwithin ((bus.head.channeles pre.length).start.toNat + 8, 0)
    (by simp [clearRing, intStores, hbytes])
  rw [hentry, hstored] at hhi
  dsimp only at hhi
  omega

/-- What a created region looks like. -/
theorem createIBUS_laid {ascStrToSize : String → Int} {createShm : Int → Nat → Option (Nat → UInt8)}
    {sCfgInfo : IBusmCfg} {conf : ConfigFile}
    (hread : readIBUSConfig ascStrToSize sCfgInfo (some conf) = some cfg) (h : Accepted cfg)
    (hcreate : createIBUS ascStrToSize createShm sCfgInfo (some conf) = some (some bus)) :
    ∃ k, k ≤ cfg.channels.length ∧ Laid cfg.channels (regionSize cfg) k bus ∧
      (k < cfg.channels.length → ¬ Fits cfg.channels (regionSize cfg) k) ∧
      Cleared cfg.channels k bus.mem := by
  have hlen := h.length_le
  have hint := h.isInt32
  have hn : cfg.channels.length < 2147483648 := by omega
  obtain ⟨mem, hshm⟩ : ∃ mem,
      createShm cfg.key (SizeT.eight.wrap (headSize cfg.capacity + cfg.maxLength)) = some mem := by
    cases hshm : createShm cfg.key (SizeT.eight.wrap (headSize cfg.capacity + cfg.maxLength)) with
    | none => simp only [createIBUS, hread, hshm, Option.some.injEq, reduceCtorEq] at hcreate
    | some mem => exact ⟨mem, rfl⟩
  rw [createIBUS_eq hread h hshm] at hcreate
  obtain ⟨bus', hlay, hbus'⟩ := Option.map_eq_some_iff.mp hcreate
  obtain rfl := Option.some.inj hbus'
  have hend := layChannels_spec hn _ (List.drop_zero ..) (Nat.zero_le _) (laid_emptyBus cfg mem) rfl
  rw [hlay] at hend
  obtain ⟨k, hk, hbus, hfull⟩ := hend.laid
  -- both descriptions are about the channels that were counted
  obtain ⟨k', hcount, hcleared⟩ := layChannels_cleared hn _ (List.drop_zero ..)
    (laid_emptyBus cfg mem) rfl (fun j hj => absurd hj (Nat.not_lt_zero j)) hlay
  rw [hbus.count_eq] at hcount
  obtain rfl : k = k' := by omega
  exact ⟨k, hk, hbus, hfull, hcleared⟩

/-- Of every region created from a configuration with positive sizes within its total, the
    channels are isolated exactly when no size overflows an `int` when it is aligned. -/
theorem isolated_iff (ascStrToSize : String → Int) (createShm : Int → Nat → Option (Nat → UInt8))
    (sCfgInfo : IBusmCfg) (conf : ConfigFile) (cfg : IBusmCfg) (bus : IBUS)
    (hread : readIBUSConfig ascStrToSize sCfgInfo (some conf) = some cfg)
    (hpos : ∀ c ∈ cfg.channels, 0 < c.maxLength)
    (hsum : (cfg.channels.map ChannelCfg.maxLength).sum ≤ cfg.maxLength)
    (hcreate : createIBUS ascStrToSize createShm sCfgInfo (some conf) = some (some bus)) :
    Isolated cfg bus ↔ ∀ c ∈ cfg.channels, c.maxLength ≤ 2147483632 := by
  have h := accepted_of_pos hread hpos hsum
  obtain ⟨k, hk, hbus, hfull, hcleared⟩ := createIBUS_laid hread h hcreate
  constructor
  · exact hbus.size_le_of_isolated h hk hfull
  · exact hbus.isolated hcleared h hk

/-- Two channels of 48 and 32 bytes. -/
theorem isolated_iff_two : ∃ bus,
    createIBUS (fun size => if size = "48" then 48 else if size = "32" then 32 else 96)
      (fun _ _ => some fun _ => 0) initialCfg
      (some ⟨some 7, some "96", [.list 1 2 "48", .list 2 1 "32"], []⟩) = some (some bus) ∧
    Isolated ⟨7, 2, 96, [⟨1, 2, 48⟩, ⟨2, 1, 32⟩], []⟩ bus := by
  have hsome : ((createIBUS (fun size => if size = "48" then 48 else if size = "32" then 32 else 96)
      (fun _ _ => some fun _ => 0) initialCfg
      (some ⟨some 7, some "96", [.list 1 2 "48", .list 2 1 "32"], []⟩)).bind id).isSome = true := by
    decide +kernel
  obtain ⟨bus, hbus⟩ := Option.isSome_iff_exists.mp hsome
  obtain ⟨_, hcreate, rfl⟩ := Option.bind_eq_some_iff.mp hbus
  exact ⟨bus, hcreate, (isolated_iff _ _ _ _ ⟨7, 2, 96, [⟨1, 2, 48⟩, ⟨2, 1, 32⟩], []⟩ bus
    (by decide) (by decide) (by decide) hcreate).mpr (by decide)⟩

/-- A channel of 2147483640 bytes is stored with the length -2147483648, and its `Clear`
    stores to the offsets from 52 to 67. -/
theorem not_isolated_overflow : ∃ bus,
    createIBUS (fun size => if size = "2147483640" then 2147483640 else 2147483647)
      (fun _ _ => some fun _ => 0) initialCfg
      (some ⟨some 7, some "2147483647", [.list 1 2 "2147483640"], []⟩) = some (some bus) ∧
    ¬ Isolated ⟨7, 1, 2147483647, [⟨1, 2, 2147483640⟩], []⟩ bus := by
  have hvalues : (createIBUS (fun size => if size = "2147483640" then 2147483640 else 2147483647)
      (fun _ _ => some fun _ => 0) initialCfg
      (some ⟨some 7, some "2147483647", [.list 1 2 "2147483640"], []⟩)).map (Option.map fun bus =>
        (bus.head.count, (bus.head.channeles 0).start, (bus.head.channeles 0).maxLength,
          ringLength bus 0)) = some (some (1, 48, -2147483648, 2147483624)) := by
    decide +kernel
  obtain ⟨created, hcreate, hbus⟩ := Option.map_eq_some_iff.mp hvalues
  obtain ⟨bus, rfl, hbus'⟩ := Option.map_eq_some_iff.mp hbus
  refine ⟨bus, hcreate, fun hiso => ?_⟩
  simp only [Prod.mk.injEq] at hbus'
  obtain ⟨hcount, hstart, hlength, hring⟩ := hbus'
  -- clearing stores at offset 56, and the stored start says the ring begins far below
  obtain ⟨r, hr, hwithin, -⟩ := hiso 0 (by omega) (by omega) bus.mem .clear .created trivial
  obtain rfl := Option.some.inj hr
  have hrange := hwithin (56, 0) (by rw [hstart]; decide)
  omega

end Isolation

end XGame3.Ibus
