import Mathlib.Logic.Relation
import XGame3.Spec.CircleBufferQueue

/-!
# One writer and one reader never disturb each other

`Inv s M r q` says what holds between any two steps of `CircleBufferThreads`: the
ring holds the messages accepted and not yet returned, a writer that has loaded a
read position may only underestimate the free cells, a copying writer has its
finished bytes in the free cells behind the unread run, and a reading reader is
somewhere inside the oldest frame.  No clause of the reader mentions the memory:
what it has copied is a prefix of the part it is copying, and the bytes still to
come are in the unread run, which no store of the writer touches.

## Key results

- `write_solo` / `read_solo`: a call that nobody interrupts is the sequential call
- `step_inv`: every step of either thread preserves `Inv`
- `reachable_inv`: so it holds in every state of every interleaving
- `interleaving_safe`: the reads return a prefix of the accepted messages, nothing
  unread is overwritten and everything undelivered is whole in the ring
-/

namespace XGame3.CircleBuffer

open FixedInt LittleEndian Circular Relation

/-! ## Uninterrupted calls -/

section Solo

variable {w : SizeT} {s : Threads}

private theorem stores_solo (m : List UInt8) (writePos : Int) (todo : List (Nat × UInt8))
    (s : Threads) :
    ReflTransGen (Step w) { s with writer := .copy m writePos todo }
      { s with
        ring := { s.ring with data := storeAll s.ring.data todo }
        writer := .copy m writePos [] } := by
  induction todo generalizing s with
  | nil => exact .refl
  | cons c todo ih =>
    refine .head (Step.writeByte rfl) ?_
    exact ih { s with ring := { s.ring with data := store s.ring.data c.1 c.2 } }

private theorem loads_solo (phase : Phase) (maxLength : Nat) (readPos : Int) (got : List UInt8)
    (todo : List Nat) :
    ReflTransGen (Step w) { s with reader := .copy phase maxLength readPos got todo }
      { s with reader := .copy phase maxLength readPos (got ++ todo.map s.ring.data) [] } := by
  induction todo generalizing got with
  | nil =>
    rw [List.map_nil, List.append_nil]
  | cons i todo ih =>
    refine .head (Step.readByte rfl) ?_
    have hrest := ih (got ++ [s.ring.data i])
    rw [List.append_assoc, List.singleton_append] at hrest
    exact hrest

/-- An admitted call that nobody interrupts performs its stores and publishes them. -/
private theorem admitted_solo (call : WriteCall) {r : Int × List (Nat × UInt8)}
    (hidle : s.writer = .idle) (hsize : call.message.length < 2147483640)
    (hroom : ¬ call.capacity s.ring.maxLength s.ring.readPos s.ring.writePos <
      int32 (w.wrap (call.length w + 4 + 4)))
    (hstores : writeStores w s.ring.maxLength s.ring.writePos call = some r) :
    ReflTransGen (Step w) s { s with
      ring := { s.ring with
        data := storeAll s.ring.data r.2, writePos := r.1, msgWrite := int32 (s.ring.msgWrite + 1) }
      accepted := s.accepted ++ [call.message] } := by
  obtain ⟨ring, writer, reader, accepted, returned, codes⟩ := s
  cases hidle
  refine .head (Step.writeBegin call hsize rfl) (.head (Step.writeAdmit rfl hroom) ?_)
  unfold Writer.accept
  simp only [hstores]
  exact .tail (stores_solo call.message r.1 r.2 ⟨ring, .idle, reader, accepted, returned, codes⟩)
    (Step.writeDone rfl)

/-- A refused call that nobody interrupts changes nothing. -/
private theorem refused_solo (call : WriteCall) (hidle : s.writer = .idle)
    (hsize : call.message.length < 2147483640)
    (hfull : call.capacity s.ring.maxLength s.ring.readPos s.ring.writePos <
      int32 (w.wrap (call.length w + 4 + 4))) : ReflTransGen (Step w) s s := by
  obtain ⟨ring, writer, reader, accepted, returned, codes⟩ := s
  cases hidle
  exact .tail (.single (Step.writeBegin call hsize rfl)) (Step.writeReject rfl hfull)

/-- A `Write` that nobody interrupts is the sequential call. -/
theorem write_solo {m : List UInt8} {ret : Int} {cb : TagCircleBuffer}
    (hidle : s.writer = .idle) (hm : m.length < 2147483640)
    (h : write w s.ring m = some (ret, cb)) :
    ReflTransGen (Step w) s { s with
      ring := cb, accepted := if ret = -1 then s.accepted else s.accepted ++ [m] } := by
  have hmsg : (WriteCall.write m).message = m := List.flatten_singleton
  rw [write_eq_stores] at h
  split at h
  · rename_i hfull
    obtain ⟨rfl, rfl⟩ := Prod.mk.inj (Option.some.inj h)
    exact refused_solo (.write m) hidle (by rwa [hmsg]) hfull
  · rename_i hroom
    obtain ⟨r, hstores, heq⟩ := Option.map_eq_some_iff.mp h
    obtain ⟨rfl, rfl⟩ := Prod.mk.inj heq
    rw [if_neg (by rw [int32_of_isInt32 (by omega)]; omega)]
    have hrun := admitted_solo (.write m) hidle (by rwa [hmsg]) hroom hstores
    rwa [hmsg] at hrun

/-- A copy of `Read` that nobody interrupts ends with the bytes at its loads. -/
private theorem start_solo {phase : Phase} {maxLength : Nat} {r : Int × List Nat}
    {start : Option (Int × List Nat)} (h : start = some r) :
    ReflTransGen (Step w) { s with reader := .start phase maxLength start }
      { s with reader := .copy phase maxLength r.1 (r.2.map s.ring.data) [] } := by
  rw [h]
  exact loads_solo phase maxLength r.1 [] r.2

/-- A `Read` that nobody interrupts is the sequential call; what it returns to its caller's
    buffer is the message it is recorded to have returned. -/
theorem read_solo {buf : List UInt8} {res : ReadResult} {cb : TagCircleBuffer}
    (hidle : s.reader = .idle) (h : read w s.ring buf buf.length = some (res, cb)) :
    ∃ out, ReflTransGen (Step w) s { s with
        ring := cb, returned := s.returned ++ out, codes := s.codes ++ [res.ret] } ∧
      ∀ d ∈ out, res.data = d ++ buf.drop d.length := by
  obtain ⟨ring, writer, reader, accepted, returned, codes⟩ := s
  cases hidle
  -- a short read leaves the upper bytes of the word zero
  have hword : ∀ cells : List Nat, ofLE (cells.map ring.data ++ (toLE 4 0).drop cells.length) =
      ofLE (cells.map ring.data) := by
    intro cells
    have hpad := ofLE_append_drop_toLE (cells.map ring.data) 4
    rwa [List.length_map] at hpad
  simp only [read, Option.bind_eq_bind] at h
  split at h
  · -- empty
    rename_i hempty
    obtain ⟨rfl, rfl⟩ := Prod.mk.inj (Option.some.inj h)
    refine ⟨[], ?_, fun d hd => absurd hd List.not_mem_nil⟩
    rw [List.append_nil]
    exact .head (Step.readBegin buf.length rfl) (.single (Step.readEmpty rfl hempty))
  · rename_i hsome
    obtain ⟨header, hheader, h⟩ := Option.bind_eq_some_iff.mp h
    rw [realRead_eq_loads, length_toLE] at hheader
    obtain ⟨hdr, hdrLoads, rfl⟩ := Option.map_eq_some_iff.mp hheader
    have hrun := ReflTransGen.head (Step.readBegin (w := w)
      (s := ⟨ring, writer, .idle, accepted, returned, codes⟩) buf.length rfl)
      (.head (Step.readHeader rfl hsome) (start_solo hdrLoads))
    simp only [hword hdr.2, readMsg] at h
    split at h
    · -- the caller's buffer is too small
      rename_i hsmall
      obtain ⟨rfl, rfl⟩ := Prod.mk.inj (Option.some.inj h)
      refine ⟨[], ?_, fun d hd => absurd hd List.not_mem_nil⟩
      rw [List.append_nil]
      exact hrun.tail (Step.readSmall rfl hsmall)
    · rename_i hfits
      simp only [Option.bind_eq_bind] at h
      obtain ⟨body, hbody, h⟩ := Option.bind_eq_some_iff.mp h
      obtain ⟨check, hcheck, h⟩ := Option.bind_eq_some_iff.mp h
      rw [realRead_eq_loads] at hbody
      rw [realRead_eq_loads, length_toLE] at hcheck
      obtain ⟨pay, payLoads, rfl⟩ := Option.map_eq_some_iff.mp hbody
      obtain ⟨chk, chkLoads, rfl⟩ := Option.map_eq_some_iff.mp hcheck
      have hrun : ReflTransGen (Step w) ⟨ring, writer, .idle, accepted, returned, codes⟩
          ⟨ring, writer, .copy (.check (int32 (ofLE (hdr.2.map ring.data))) (pay.2.map ring.data))
            buf.length chk.1 (chk.2.map ring.data) [], accepted, returned, codes⟩ :=
        ((hrun.tail (Step.readPayload rfl hfits)).trans (start_solo payLoads)).trans
          (.head (Step.readCheck rfl) (start_solo chkLoads))
      rw [hword chk.2] at h
      split at h
      · rename_i hsum
        obtain ⟨rfl, rfl⟩ := Prod.mk.inj (Option.some.inj h)
        refine ⟨[pay.2.map ring.data], ?_, fun d hd => ?_⟩
        · have hend := hrun.tail (Step.readDone rfl hsum)
          dsimp only at hend ⊢
          exact hend
        · rw [List.mem_singleton.mp hd, List.length_map]
      · -- not the check data: the reader clears the ring
        rename_i hsum
        obtain ⟨rfl, rfl⟩ := Prod.mk.inj (Option.some.inj h)
        refine ⟨[], ?_, fun d hd => absurd hd List.not_mem_nil⟩
        rw [List.append_nil]
        exact (hrun.tail (Step.readClear rfl hsum)).tail (Step.readCleared rfl)

end Solo

/-! ## The invariant -/

/-- The writer's locals when the ring's unread cells start at `r` and are the frames of `q`. -/
def Writer.Ok (mem : Nat → UInt8) (M r : Nat) (q : List (List UInt8)) : Writer → Prop
  | .idle => True
  | .loadWritePos call readPos =>
    -- the loaded position is `u₀` consumed cells behind the current one
    call.message.length < 2147483640 ∧
      ∃ r₀ u₀ : Nat, r₀ ≤ M ∧ readPos = r₀ ∧ r = advance M r₀ u₀ ∧ u₀ + used q < M
  | .copy m writePos todo =>
    used q + (m.length + 8) ≤ M - 1 ∧
      writePos = (advance M (advance M r (used q)) (m.length + 8) : Nat) ∧
      ∃ done rest, frame m = done ++ rest ∧
        todo = stores M (advance M r (used q)) done.length rest ∧
        readAt mem M (advance M r (used q)) done.length = done
  | .fault => False

/-- Where in the frame of `m` the copy of a phase starts. -/
def Phase.offset (m : List UInt8) : Phase → Nat
  | .header => 0
  | .payload _ => 4
  | .check _ _ => 4 + m.length

/-- The part of the frame of `m` that a phase copies. -/
def Phase.bytes (m : List UInt8) : Phase → List UInt8
  | .header => toLE 4 m.length
  | .payload _ => m
  | .check _ _ => toLE 4 checkData

/-- The results of the earlier phases. -/
def Phase.Knows (m : List UInt8) : Phase → Prop
  | .header => True
  | .payload msgSize => msgSize = m.length
  | .check msgSize data => msgSize = m.length ∧ data = m

/-- The reader's locals when the unread cells start at `r` and are the frames of `q`. -/
def Reader.Ok (M r : Nat) (q : List (List UInt8)) : Reader → Prop
  | .idle => True
  | .loadReadPos _ writePos => ∃ q₁ q₂, q = q₁ ++ q₂ ∧ writePos = (advance M r (used q₁) : Nat)
  | .copy phase _ readPos got todo =>
    ∃ m q' rest, q = m :: q' ∧ phase.Knows m ∧ got ++ rest = phase.bytes m ∧
      todo = slots M (advance M r (phase.offset m)) got.length rest.length ∧
      readPos = (advance M r (phase.offset m + (phase.bytes m).length) : Nat)
  | .clearReadPos => False
  | .fault => False

/-- What holds between any two steps. -/
structure Inv (s : Threads) (M r : Nat) (q : List (List UInt8)) : Prop where
  holds : Holds s.ring M r q
  accepted_eq : s.accepted = s.returned ++ q
  codes : -3 ∉ s.codes
  writer : s.writer.Ok s.ring.data M r q
  reader : s.reader.Ok M r q

section Steps

variable {w : SizeT} {cb : TagCircleBuffer} {s s' : Threads} {M r : Nat} {m : List UInt8}
  {q : List (List UInt8)}

/-! ## Frame lemmas: what one side's step means to the other -/

/-- Consuming the oldest message only widens what the writer may use. -/
theorem Writer.Ok.pop {mem : Nat → UInt8} {writer : Writer} (hr : r ≤ M)
    (hlt : used (m :: q) < M) (h : writer.Ok mem M r (m :: q)) :
    writer.Ok mem M (advance M r (m.length + 8)) q := by
  rw [used_cons] at hlt
  have hpos : advance M (advance M r (m.length + 8)) (used q) = advance M r (used (m :: q)) := by
    rw [advance_advance hr (by omega), used_cons]
  cases writer with
  | idle => trivial
  -- the room seen was seen before the pop, so there is more now
  | loadWritePos call readPos =>
    obtain ⟨hsize, r₀, u₀, hr₀, hread, hr, hroom⟩ := h
    rw [used_cons] at hroom
    refine ⟨hsize, r₀, u₀ + (m.length + 8), hr₀, hread, ?_, by omega⟩
    rw [hr, advance_advance hr₀ (by omega)]
  -- the free bytes it copies into are the same ones
  | copy m' writePos todo =>
    obtain ⟨hfit, hwrite, done, rest, hframe, htodo, hdone⟩ := h
    rw [used_cons] at hfit
    refine ⟨by omega, ?_, done, rest, hframe, ?_, ?_⟩ <;> rw [hpos] <;> assumption
  | fault => exact h

/-- Messages behind the ones it knows about do not concern the reader. -/
theorem Reader.Ok.append {reader : Reader} (h : reader.Ok M r q) (q' : List (List UInt8)) :
    reader.Ok M r (q ++ q') := by
  cases reader with
  | idle => trivial
  | loadReadPos maxLength writePos =>
    obtain ⟨q₁, q₂, rfl, hwrite⟩ := h
    exact ⟨q₁, q₂ ++ q', List.append_assoc .., hwrite⟩
  | copy phase maxLength readPos got todo =>
    obtain ⟨m, q'', rest, rfl, h⟩ := h
    exact ⟨m, q'' ++ q', rest, rfl, h⟩
  | clearReadPos => exact h
  | fault => exact h

/-! ## The writer's steps -/

/-- The next store of a copying writer puts the next byte of the frame in its place. -/
theorem Writer.Ok.next_store {mem : Nat → UInt8} {writePos : Int} {i : Nat} {b : UInt8}
    {todo : List (Nat × UInt8)} (h : (Writer.copy m writePos ((i, b) :: todo)).Ok mem M r q) :
    ∃ done rest, frame m = done ++ b :: rest ∧ done.length < m.length + 8 ∧
      i = slot M (advance M r (used q)) done.length ∧
      todo = stores M (advance M r (used q)) (done.length + 1) rest ∧
      readAt mem M (advance M r (used q)) done.length = done := by
  obtain ⟨-, -, done, rest, hframe, htodo, hdone⟩ := h
  have hlen := congrArg List.length hframe
  cases rest with
  | nil => exact nomatch htodo
  | cons b' rest =>
    simp only [length_frame, List.length_append, List.length_cons] at hlen
    simp only [stores, List.cons.injEq, Prod.mk.injEq] at htodo
    obtain ⟨⟨rfl, rfl⟩, rfl⟩ := htodo
    exact ⟨done, rest, hframe, by omega, rfl, rfl, hdone⟩

/-- A store of a copying writer lies behind the unread cells. -/
theorem Writer.Ok.readAt_store {mem : Nat → UInt8} {writePos : Int} {i : Nat} {b : UInt8}
    {todo : List (Nat × UInt8)} (hr : r ≤ M)
    (h : (Writer.copy m writePos ((i, b) :: todo)).Ok mem M r q) :
    readAt (store mem i b) M r (used q) = readAt mem M r (used q) := by
  obtain ⟨done, -, -, hlen, rfl, -, -⟩ := h.next_store
  have hfit := h.1
  exact readAt_store_advance mem b hr (by omega)

/-- One more byte of the frame is in place. -/
theorem Writer.Ok.store {mem : Nat → UInt8} {writePos : Int} {i : Nat} {b : UInt8}
    {todo : List (Nat × UInt8)} (h : (Writer.copy m writePos ((i, b) :: todo)).Ok mem M r q) :
    (Writer.copy m writePos todo).Ok (store mem i b) M r q := by
  obtain ⟨done, rest, hframe, hlen, rfl, rfl, hdone⟩ := h.next_store
  have hfit := h.1
  refine ⟨hfit, h.2.1, done ++ [b], rest, ?_, ?_, ?_⟩
  · rw [hframe, List.append_assoc, List.singleton_append]
  · rw [List.length_append, List.length_singleton]
  · rw [List.length_append, List.length_singleton, readAt_store_succ _ _ _ (by omega), hdone]

/-- The admission test on a stale read position errs on the safe side. -/
theorem Writer.Ok.accept {call : WriteCall} {readPos : Int} (hring : Holds cb M r q)
    (h : (Writer.loadWritePos call readPos).Ok cb.data M r q)
    (hroom : ¬ call.capacity cb.maxLength readPos cb.writePos <
      int32 (w.wrap (call.length w + 4 + 4))) :
    (Writer.accept w cb.maxLength cb.writePos call).Ok cb.data M r q := by
  obtain ⟨hsize, r₀, u₀, hr₀, rfl, rfl, hlt⟩ := h
  have hpos := advance_le hring.r_le (Nat.le_of_lt hring.used_lt)
  rw [hring.size.maxLength_eq, hring.writePos_eq, advance_advance hr₀ (by omega),
    call.capacity_eq hr₀ hlt hring.size.lt, call.length_eq hsize, realSize_eq _ hsize] at hroom
  unfold Writer.accept
  rw [hring.size.maxLength_eq, hring.writePos_eq,
    writeStores_eq call hpos hring.size.lt (by omega)]
  exact ⟨by omega, rfl, [], frame call.message, rfl, rfl, rfl⟩

/-- The store of `writePos_` publishes the finished frame. -/
theorem Writer.Ok.publish {writePos : Int} (hring : Holds cb M r q)
    (h : (Writer.copy m writePos []).Ok cb.data M r q) :
    Holds { cb with writePos := writePos, msgWrite := int32 (cb.msgWrite + 1) } M r (q ++ [m]) := by
  obtain ⟨hfit, rfl, done, rest, hframe, htodo, hdone⟩ := h
  have hrest : rest = [] := by
    cases rest with
    | nil => rfl
    | cons b rest => exact nomatch htodo
  rw [hrest, List.append_nil] at hframe
  rw [← hframe, length_frame] at hdone
  exact hring.publish hfit hdone

/-! ## The reader's steps -/

/-- The part of the oldest frame a phase copies stands where the phase looks for it. -/
theorem Holds.phase (h : Holds cb M r (m :: q)) (phase : Phase) :
    readAt cb.data M (advance M r (phase.offset m)) (phase.bytes m).length = phase.bytes m ∧
      phase.offset m + (phase.bytes m).length < M := by
  obtain ⟨hhead, hbody, hcheck, -⟩ := h.parts
  have hlt := h.used_lt
  rw [used_cons] at hlt
  cases phase with
  | header =>
    simp only [Phase.offset, Phase.bytes, advance_zero h.r_le, length_toLE]
    exact ⟨hhead, by omega⟩
  | payload msgSize => exact ⟨hbody, by simp only [Phase.offset, Phase.bytes]; omega⟩
  | check msgSize data =>
    simp only [Phase.offset, Phase.bytes, length_toLE]
    exact ⟨hcheck, by omega⟩

/-- A copy that starts where its phase says finds the cells of its part. -/
theorem Reader.ok_start (phase : Phase) (maxLength : Nat) {l : Nat} {n : Int}
    (h : Holds cb M r (m :: q))
    (hknows : phase.Knows m) (hn : n = (phase.bytes m).length) (hl : (phase.bytes m).length ≤ l) :
    (Reader.start phase maxLength
      (realReadLoads cb.maxLength (advance M r (phase.offset m) : Nat) l n)).Ok M r (m :: q) := by
  have hlt := (h.phase phase).2
  have hoff := advance_le h.r_le (show phase.offset m ≤ M by omega)
  rw [hn, h.size.maxLength_eq, realReadLoads_eq hoff (by omega) h.size.lt hl]
  refine ⟨m, q, phase.bytes m, rfl, hknows, rfl, rfl, ?_⟩
  rw [advance_advance h.r_le (by omega)]

/-- The loaded byte is the next one of the part. -/
theorem Reader.Ok.load {phase : Phase} {maxLength i : Nat} {readPos : Int} {got : List UInt8}
    {todo : List Nat} (hring : Holds cb M r q)
    (h : (Reader.copy phase maxLength readPos got (i :: todo)).Ok M r q) :
    (Reader.copy phase maxLength readPos (got ++ [cb.data i]) todo).Ok M r q := by
  obtain ⟨m, q', rest, rfl, hknows, hbytes, htodo, hread⟩ := h
  cases rest with
  | nil => exact nomatch htodo
  -- the next slot holds the next byte of the phase
  | cons b rest =>
    simp only [List.length_cons, slots, List.cons.injEq] at htodo
    obtain ⟨rfl, rfl⟩ := htodo
    have hlen : got.length < (phase.bytes m).length := by
      rw [← hbytes, List.length_append, List.length_cons]
      omega
    have hcell := getElem?_readAt cb.data M (advance M r (phase.offset m)) hlen
    rw [(hring.phase phase).1, ← hbytes, List.getElem?_append_right (Nat.le_refl _), Nat.sub_self,
      List.getElem?_cons_zero, Option.some.injEq] at hcell
    refine ⟨m, q', rest, rfl, hknows, ?_, ?_, hread⟩
    · rw [← hcell, List.append_assoc, List.singleton_append, hbytes]
    · rw [List.length_append, List.length_singleton]

/-- A finished copy has its whole part. -/
theorem Reader.Ok.finished {phase : Phase} {maxLength : Nat} {readPos : Int} {got : List UInt8}
    (h : (Reader.copy phase maxLength readPos got []).Ok M r q) :
    ∃ m q', q = m :: q' ∧ phase.Knows m ∧ got = phase.bytes m ∧
      readPos = (advance M r (phase.offset m + (phase.bytes m).length) : Nat) := by
  obtain ⟨m, q', rest, hq, hknows, hbytes, htodo, hread⟩ := h
  have hrest : rest = [] := by
    cases rest with
    | nil => rfl
    | cons b rest => exact nomatch htodo
  rw [hrest, List.append_nil] at hbytes
  exact ⟨m, q', hq, hknows, hbytes, hread⟩

/-- A loaded write position with eight bytes before it has a message before it. -/
theorem Reader.Ok.nonempty {maxLength : Nat} {writePos : Int} (hring : Holds cb M r q)
    (h : (Reader.loadReadPos maxLength writePos).Ok M r q)
    (hsome : ¬ readSize cb.maxLength cb.readPos writePos < 4 + 4) : ∃ m q', q = m :: q' := by
  obtain ⟨q₁, q₂, rfl, rfl⟩ := h
  have hlt := hring.used_lt
  rw [used_append] at hlt
  rw [hring.size.maxLength_eq, hring.readPos_eq,
    readSize_eq hring.r_le (by omega) hring.size.lt] at hsome
  cases q₁ with
  | nil => simp only [used_nil] at hsome; omega
  | cons m q₁ => exact ⟨m, q₁ ++ q₂, rfl⟩

/-- With a message there, the copy of its length word starts. -/
theorem Reader.Ok.header {maxLength : Nat} {writePos : Int} (hring : Holds cb M r q)
    (h : (Reader.loadReadPos maxLength writePos).Ok M r q)
    (hsome : ¬ readSize cb.maxLength cb.readPos writePos < 4 + 4) :
    (Reader.start .header maxLength (realReadLoads cb.maxLength cb.readPos 4 4)).Ok M r q := by
  obtain ⟨m, q, rfl⟩ := h.nonempty hring hsome
  have hstart := Reader.ok_start .header maxLength hring trivial
    (congrArg Nat.cast (length_toLE 4 m.length).symm) (Nat.le_of_eq (length_toLE ..))
  rw [Phase.offset, advance_zero hring.r_le, ← hring.readPos_eq] at hstart
  exact hstart

/-- The length word is that of the oldest message, so the caller's buffer holds it. -/
theorem Reader.Ok.payload {maxLength : Nat} {readPos : Int} {got : List UInt8}
    (hring : Holds cb M r q) (h : (Reader.copy .header maxLength readPos got []).Ok M r q)
    (hfits : ¬ int32 (ofLE got) > int32 maxLength) :
    ∃ m q', q = m :: q' ∧ int32 (ofLE got) = m.length ∧ m.length < M ∧ m.length ≤ maxLength ∧
      readPos = (advance M r 4 : Nat) := by
  obtain ⟨m, q, rfl, -, rfl, rfl⟩ := h.finished
  have hlt := hring.used_lt
  have hM := hring.size.lt
  rw [used_cons] at hlt
  have hsize : int32 (ofLE (Phase.bytes m .header)) = m.length := by
    rw [Phase.bytes, ofLE_toLE_of_lt (by omega), int32_of_isInt32 (by omega)]
  refine ⟨m, q, rfl, hsize, by omega, ?_, ?_⟩
  · -- a length that is negative as an `int` is below every message
    rw [hsize] at hfits
    have hcaller := isInt32_int32 maxLength
    have hres := int32_emod maxLength
    omega
  · simp only [Phase.bytes, length_toLE, Phase.offset, Nat.zero_add]

theorem Reader.Ok.check {maxLength : Nat} {readPos msgSize : Int} {got : List UInt8}
    (hring : Holds cb M r q)
    (h : (Reader.copy (.payload msgSize) maxLength readPos got []).Ok M r q) :
    (Reader.start (.check msgSize got) maxLength (realReadLoads cb.maxLength readPos 4 4)).Ok M r
      q := by
  obtain ⟨m, q, rfl, hknows, hgot, rfl⟩ := h.finished
  rw [show got = m from hgot]
  exact Reader.ok_start (.check msgSize m) maxLength hring ⟨hknows, rfl⟩
    (congrArg Nat.cast (length_toLE 4 checkData).symm) (Nat.le_of_eq (length_toLE ..))

/-- Behind the check word the oldest message has been read. -/
theorem Reader.Ok.done {maxLength : Nat} {readPos msgSize : Int} {data got : List UInt8}
    (h : (Reader.copy (.check msgSize data) maxLength readPos got []).Ok M r q) :
    ∃ q', q = data :: q' ∧ msgSize = data.length ∧
      readPos = (advance M r (data.length + 8) : Nat) := by
  obtain ⟨m, q, rfl, ⟨rfl, rfl⟩, -, rfl⟩ := h.finished
  refine ⟨q, rfl, rfl, ?_⟩
  simp only [Phase.offset, Phase.bytes, length_toLE]
  congr 2
  omega

/-! ## Every step, every run -/

/-- Every step of either thread preserves the invariant: the writer's steps keep the unread
    cells or append to them, the reader's keep them or consume the oldest frame. -/
theorem step_inv (h : Step w s s') (hi : Inv s M r q) : ∃ r' q', Inv s' M r' q' := by
  obtain ⟨hring, hacc, hcodes, hwriter, hreader⟩ := hi
  have hcodes' : ∀ c : Int, c ≠ -3 → -3 ∉ s.codes ++ [c] := fun c hc hmem => by
    rcases List.mem_append.mp hmem with hold | hnew
    · exact hcodes hold
    · exact hc (List.mem_singleton.mp hnew).symm
  cases h with
  -- the writer
  | writeBegin call hsize hpc =>
    exact ⟨r, q, hring, hacc, hcodes, ⟨hsize, r, 0, hring.r_le, hring.readPos_eq,
      (advance_zero hring.r_le).symm, by have := hring.used_lt; omega⟩, hreader⟩
  | writeReject hpc hfull => exact ⟨r, q, hring, hacc, hcodes, trivial, hreader⟩
  | writeAdmit hpc hroom =>
    rw [hpc] at hwriter
    exact ⟨r, q, hring, hacc, hcodes, hwriter.accept hring hroom, hreader⟩
  | writeByte hpc =>
    rw [hpc] at hwriter
    exact ⟨r, q, hring.of_readAt (hwriter.readAt_store hring.r_le), hacc, hcodes, hwriter.store,
      hreader⟩
  | writeDone hpc =>
    rw [hpc] at hwriter
    refine ⟨r, _, hwriter.publish hring, ?_, hcodes, trivial, hreader.append _⟩
    rw [hacc, List.append_assoc]
  -- the reader
  | readBegin maxLength hpc =>
    exact ⟨r, q, hring, hacc, hcodes, hwriter, q, [], (List.append_nil q).symm, hring.writePos_eq⟩
  | readEmpty hpc hempty => exact ⟨r, q, hring, hacc, hcodes' _ (by decide), hwriter, trivial⟩
  | @readHeader maxLength writePos hpc hsome =>
    rw [hpc] at hreader
    exact ⟨r, q, hring, hacc, hcodes, hwriter, hreader.header hring hsome⟩
  | readByte hpc =>
    rw [hpc] at hreader
    exact ⟨r, q, hring, hacc, hcodes, hwriter, hreader.load hring⟩
  | readSmall hpc hsmall => exact ⟨r, q, hring, hacc, hcodes' _ (by decide), hwriter, trivial⟩
  | @readPayload maxLength readPos got hpc hfits =>
    rw [hpc] at hreader
    obtain ⟨m, q, rfl, hsize, hlt, hle, rfl⟩ := hreader.payload hring hfits
    have hM := hring.size.lt
    refine ⟨r, _, hring, hacc, hcodes, hwriter, ?_⟩
    rw [hsize, w.wrap_of_lt (by omega), int32_of_isInt32 (by omega)]
    exact Reader.ok_start (.payload m.length) maxLength hring rfl rfl hle
  | @readCheck maxLength readPos msgSize got hpc =>
    rw [hpc] at hreader
    exact ⟨r, q, hring, hacc, hcodes, hwriter, hreader.check hring⟩
  | @readDone maxLength readPos msgSize data got hpc hsum =>
    rw [hpc] at hreader
    obtain ⟨q, rfl, rfl, rfl⟩ := hreader.done
    refine ⟨_, q, hring.pop, ?_, hcodes' _ (by omega), hwriter.pop hring.r_le hring.used_lt,
      trivial⟩
    rw [hacc, List.append_assoc, List.singleton_append]
  | readClear hpc hsum =>
    -- a frame of the queue has the right check word
    rw [hpc] at hreader
    obtain ⟨m, q, rfl, -, rfl, -⟩ := hreader.finished
    exact absurd checkSum_checkData hsum
  | readCleared hpc =>
    rw [hpc] at hreader
    exact hreader.elim

/-- No step changes an unread cell. -/
theorem step_unread (h : Step w s s') (hi : Inv s M r q) :
    readAt s'.ring.data M r (used q) = readAt s.ring.data M r (used q) := by
  cases h with
  | writeByte hpc =>
    have hwriter := hi.writer
    rw [hpc] at hwriter
    exact hwriter.readAt_store hi.holds.r_le
  | _ => rfl

theorem init_inv (hcb : HasSize cb M) : Inv (Threads.init (clear cb).2) M 0 [] where
  holds := Holds.clear hcb
  accepted_eq := rfl
  codes := List.not_mem_nil
  writer := trivial
  reader := trivial

/-- The invariant holds in every state of every interleaving. -/
theorem reachable_inv (hcb : HasSize cb M)
    (h : ReflTransGen (Step w) (Threads.init (clear cb).2) s) : ∃ r q, Inv s M r q := by
  induction h with
  | refl => exact ⟨0, [], init_inv hcb⟩
  | tail _ hstep ih =>
    obtain ⟨r, q, hi⟩ := ih
    exact step_inv hstep hi

end Steps

/-- Any interleaving of one writer and one reader on a ring set up by `Clear`: no copy leaves
    its memory, the reads return the accepted messages in order and never a bad check word,
    the accepted messages not yet returned are exactly the unread cells, and no next step
    changes one of these. -/
theorem interleaving_safe (w : SizeT) (cb₀ : TagCircleBuffer) (hpos : 0 < cb₀.maxLength)
    (hint : IsInt32 cb₀.maxLength) {s : Threads}
    (hs : ReflTransGen (Step w) (Threads.init (clear cb₀).2) s) :
    s.writer ≠ .fault ∧ s.reader ≠ .fault ∧ -3 ∉ s.codes ∧
    s.returned <+: s.accepted ∧
    ∃ q, s.accepted = s.returned ++ q ∧
      distance cb₀.maxLength.toNat s.ring.readPos.toNat s.ring.writePos.toNat = used q ∧
      readAt s.ring.data cb₀.maxLength.toNat s.ring.readPos.toNat (used q) = frames q ∧
      ∀ s', Step w s s' →
        readAt s'.ring.data cb₀.maxLength.toNat s.ring.readPos.toNat (used q) = frames q := by
  have hsize : HasSize cb₀ cb₀.maxLength.toNat := ⟨by omega, by omega, by omega⟩
  obtain ⟨r, q, hi⟩ := reachable_inv hsize hs
  -- the invariant speaks of natural numbers, the ring of wrapped ones
  have hread : s.ring.readPos.toNat = r := by rw [hi.holds.readPos_eq, Int.toNat_natCast]
  refine ⟨fun h => ?_, fun h => ?_, hi.codes, ⟨q, hi.accepted_eq.symm⟩, q, hi.accepted_eq, ?_, ?_,
    fun s' hstep => ?_⟩
  · have hwriter := hi.writer
    rwa [h] at hwriter
  · have hreader := hi.reader
    rwa [h] at hreader
  · rw [hread, hi.holds.writePos_eq, Int.toNat_natCast,
      distance_advance hi.holds.r_le hi.holds.used_lt]
  · rw [hread, hi.holds.data_eq]
  -- no step changes the bytes that are unread
  · rw [hread, step_unread hstep hi, hi.holds.data_eq]

/-- A reader that has loaded the positions of the empty ring before a message was published
    still reports an empty ring afterwards. -/
theorem interleaving_safe_stale : ∃ s : Threads,
    s.accepted = [[7]] ∧ s.returned <+: s.accepted ∧ s.codes = [-1] ∧ s.writer ≠ .fault := by
  let cb : TagCircleBuffer := ⟨16, 3, 9, 0, 0, fun _ => 0⟩
  let s₁ : Threads := { Threads.init (clear cb).2 with reader := .loadReadPos 8 0 }
  have hread : Step .eight (Threads.init (clear cb).2) s₁ := Step.readBegin 8 rfl
  have hsize : HasSize (clear cb).2 16 := ⟨rfl, by decide, by decide⟩
  have hwrite := write_eq (w := .eight) (r := 0) (u := 0) hsize (by decide) (by decide) rfl rfl
    [7] (by decide)
  have hrun := write_solo (s := s₁) rfl (by decide) hwrite
  have hempty := hrun.tail (Step.readEmpty rfl (by decide))
  exact ⟨_, rfl, (interleaving_safe .eight cb (by decide) (by decide)
    (.head hread hempty)).2.2.2.1, rfl,
    (interleaving_safe .eight cb (by decide) (by decide) (.head hread hempty)).1⟩

end XGame3.CircleBuffer
