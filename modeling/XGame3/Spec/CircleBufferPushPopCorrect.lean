import Mathlib.Data.Nat.Digits.Defs
import XGame3.ForStd.Progress
import XGame3.Native.CircleBufferPushPop
import XGame3.Spec.CircleBufferThreadsCorrect

/-!
# Pushing and popping comes to an end

`Write` and `Read` give up at once when there is no room or no message, and the loops around
them try again.  Neither thread waits for the other in a way that could last: an empty ring has
room for any message of `PushMsg`, and a ring with a message lets `PopMsg` have it.  A test on a
position loaded too early may fail once more, so the moves until the next message is taken
(`Writer.left`, `Reader.left`) count a stale load as two moves behind a fresh one.

Key results:
- `LoopInv.step`: what the loops have sent and received so far.
- `helped_push`, `helped_pop`: on an empty ring each move of `PushMsg` brings the next message
  nearer, on a ring with a message each move of `PopMsg` does.
- `test_completes`: in a fair run both threads return, and every message came over once.
-/

namespace XGame3.CircleBuffer

open FixedInt LittleEndian Circular IStream Progress

/-! ## The state of the loops -/

/-- Messages that the loops can exchange over a ring of `M` bytes. -/
structure Sendable (data : Nat → List UInt8) (M loopNum : Nat) : Prop where
  nonempty : ∀ i, i < loopNum → 0 < (data i).length
  short : ∀ i, i < loopNum → (data i).length < sizeofData
  fits : ∀ i, i < loopNum → (data i).length + 8 ≤ M - 1

/-- A call of `Write` is about the next message. -/
def Writer.Pushes (data : Nat → List UInt8) (loopNum n : Nat) : Writer → Prop
  | .idle | .fault => True
  | .loadWritePos call _ => call = .write (data n) ∧ n < loopNum
  | .copy m _ _ => m = data n ∧ n < loopNum

/-- `Read` is called when a message is still due. -/
def Reader.Pops (loopNum n : Nat) : Reader → Prop
  | .idle | .clearReadPos | .fault => True
  | .loadReadPos maxLength _ | .copy _ maxLength _ _ _ => maxLength = sizeofData ∧ n < loopNum

/-- What `PushMsg` and `PopMsg` have done so far. -/
structure LoopInv (data : Nat → List UInt8) (M loopNum : Nat) (s : Threads) : Prop where
  ring : ∃ r q, Inv s M r q
  accepted : ∃ n, n ≤ loopNum ∧ s.accepted = (List.range n).map data
  writer : s.writer.Pushes data loopNum s.accepted.length
  reader : s.reader.Pops loopNum s.returned.length
  popped : s.popped = s.returned.length
  codes : ∀ ret ∈ s.codes, ret = -1 ∨ (0 < ret ∧ ret < sizeofData)
  msgWrite : s.ring.msgWrite = int32 s.accepted.length
  msgRead : s.ring.msgRead = int32 s.returned.length

section Steps

variable {w : SizeT} {data : Nat → List UInt8} {M loopNum : Nat} {s s' : Threads}

/-- The writer pushes the same message whether it finds room or not. -/
theorem Writer.Pushes.accept {n : Nat} {call : WriteCall} {readPos : Int}
    (h : (Writer.loadWritePos call readPos).Pushes data loopNum n) (maxLength writePos : Int) :
    (Writer.accept w maxLength writePos call).Pushes data loopNum n := by
  obtain ⟨rfl, hn⟩ := h
  unfold Writer.accept
  split
  · exact ⟨List.flatten_singleton, hn⟩
  · trivial

namespace LoopInv

/-- No more is accepted than the loop pushes, -/
theorem length_le (h : LoopInv data M loopNum s) : s.accepted.length ≤ loopNum := by
  obtain ⟨n, hn, hacc⟩ := h.accepted
  simpa [hacc] using hn

/-- what is accepted are the first messages, -/
theorem accepted_eq (h : LoopInv data M loopNum s) :
    s.accepted = (List.range s.accepted.length).map data := by
  obtain ⟨n, -, hacc⟩ := h.accepted
  simp [hacc]

/-- and no more is returned than accepted. -/
theorem returned_le (h : LoopInv data M loopNum s) : s.returned.length ≤ s.accepted.length := by
  obtain ⟨r, q, hi⟩ := h.ring
  simp [hi.accepted_eq]

/-- What has been read is what was sent first. -/
theorem returned_eq (h : LoopInv data M loopNum s) :
    s.returned = (List.range s.returned.length).map data := by
  obtain ⟨r, q, hi⟩ := h.ring
  have hacc := h.accepted_eq
  have hprefix : s.returned <+: s.accepted := ⟨q, hi.accepted_eq.symm⟩
  rw [List.prefix_iff_eq_take.1 hprefix, hacc, ← List.map_take, List.take_range,
    Nat.min_eq_left (by simpa using h.returned_le)]
  simp

/-- The oldest unread message is the next one to be read. -/
theorem head (h : LoopInv data M loopNum s) {r : Nat} {m : List UInt8} {q : List (List UInt8)}
    (hi : Inv s M r (m :: q)) : m = data s.returned.length := by
  have hlen : s.returned.length < s.accepted.length := by simp [hi.accepted_eq]
  have hget : s.accepted[s.returned.length]? = some m := by simp [hi.accepted_eq]
  rw [h.accepted_eq] at hget
  simpa [hlen] using hget.symm

/-- A copy that starts belongs to the call that is running. -/
theorem start (h : LoopInv data M loopNum s) {maxLength : Nat} (hmax : maxLength = sizeofData)
    (hlt : s.returned.length < loopNum) (phase : Phase) (copy : Option (Int × List Nat))
    (hring : ∃ r q, Inv { s with reader := .start phase maxLength copy } M r q) :
    LoopInv data M loopNum { s with reader := .start phase maxLength copy } := by
  refine ⟨hring, h.accepted, h.writer, ?_, h.popped, h.codes, h.msgWrite, h.msgRead⟩
  cases copy with
  | none => trivial
  | some c => exact ⟨hmax, hlt⟩

/-- `PushMsg` counts the messages accepted: none of them is empty. -/
theorem pushed_eq (h : LoopInv data M loopNum s) (hdata : Sendable data M loopNum) :
    s.pushed = s.accepted.length := by
  refine List.countP_eq_length.2 fun m hm => ?_
  rw [h.accepted_eq] at hm
  obtain ⟨i, hi, rfl⟩ := List.mem_map.1 hm
  have hlt : i < loopNum := Nat.lt_of_lt_of_le (List.mem_range.1 hi) h.length_le
  have hpos := hdata.nonempty i hlt
  have hshort := hdata.short i hlt
  unfold sizeofData at hshort
  rw [decide_eq_true_eq, int32_of_isInt32 (by omega)]
  omega

end LoopInv

/-- A message that the buffer of `PopMsg` holds is not refused. -/
theorem Reader.Ok.not_small {cb : TagCircleBuffer} {r maxLength : Nat} {readPos : Int}
    {m got : List UInt8} {q : List (List UInt8)} (hring : Holds cb M r (m :: q))
    (h : (Reader.copy .header maxLength readPos got []).Ok M r (m :: q))
    (hmax : maxLength = sizeofData) (hshort : m.length < sizeofData) :
    ¬ int32 (ofLE got) > int32 maxLength := by
  obtain ⟨m', q', hq, -, rfl, -⟩ := h.finished
  cases hq
  have hlt := hring.used_lt
  have hM := hring.size.lt
  rw [used_cons] at hlt
  rw [hmax, Phase.bytes, ofLE_toLE_of_lt (by omega), int32_of_isInt32 (by omega),
    show int32 sizeofData = sizeofData from rfl]
  omega

/-- The steps of the loops are steps of one writer and one reader. -/
theorem LoopStep.step (hstep : LoopStep w data loopNum s s') (hdata : Sendable data M loopNum) :
    Step w s s' := by
  cases hstep with
  | push hloop hpc =>
    have hshort := hdata.short _ hloop
    unfold sizeofData at hshort
    exact .writeBegin _ (by simp only [WriteCall.message, WriteCall.segments,
      List.flatten_singleton]; omega) hpc
  | pop hloop hpc => exact .readBegin _ hpc
  | call hstep => exact hstep

/-- Every step of the loops keeps what they have done in order. -/
theorem LoopInv.step (h : LoopInv data M loopNum s) (hdata : Sendable data M loopNum)
    (hstep : LoopStep w data loopNum s s') : LoopInv data M loopNum s' := by
  obtain ⟨r, q, hi⟩ := h.ring
  have hring : ∃ r q, Inv s' M r q := step_inv (hstep.step hdata) hi
  have hhead := fun m q => h.head (r := r) (m := m) (q := q)
  have hpushed := h.pushed_eq hdata
  have hle := h.length_le
  have hloop := h
  obtain ⟨-, hacc, hwriter, hreader, hpopped, hcodes, hmsgWrite, hmsgRead⟩ := h
  have hokReader := hi.reader
  cases hstep with
  | push hloop hpc =>
    rw [hpushed] at hloop
    exact ⟨hring, hacc, ⟨by rw [hpushed], hloop⟩, hreader, hpopped, hcodes, hmsgWrite, hmsgRead⟩
  | pop hloop hpc =>
    rw [hpopped] at hloop
    exact ⟨hring, hacc, hwriter, ⟨rfl, hloop⟩, hpopped, hcodes, hmsgWrite, hmsgRead⟩
  | call hstep hcallWriter hcallReader =>
    cases hstep with
    | writeBegin call hsize hpc => exact nomatch hcallWriter hpc
    | writeReject hpc hfull =>
      exact ⟨hring, hacc, trivial, hreader, hpopped, hcodes, hmsgWrite, hmsgRead⟩
    | writeAdmit hpc hroom =>
      rw [hpc] at hwriter
      exact ⟨hring, hacc, hwriter.accept _ _, hreader, hpopped, hcodes, hmsgWrite, hmsgRead⟩
    | writeByte hpc =>
      rw [hpc] at hwriter
      exact ⟨hring, hacc, hwriter, hreader, hpopped, hcodes, hmsgWrite, hmsgRead⟩
    | @writeDone m writePos hpc =>
      rw [hpc] at hwriter
      obtain ⟨rfl, hlt⟩ := hwriter
      obtain ⟨n, hn, hacc⟩ := hacc
      have hlen : s.accepted.length = n := by simp [hacc]
      refine ⟨hring, ⟨n + 1, by omega, ?_⟩, trivial, hreader, hpopped, hcodes, ?_, hmsgRead⟩
      · simp [List.range_succ, hacc]
      · simp [hmsgWrite, int32_int32_add]
    | readBegin maxLength hpc => exact nomatch hcallReader hpc
    | readEmpty hpc hempty =>
      refine ⟨hring, hacc, hwriter, trivial, ?_, ?_, hmsgWrite, hmsgRead⟩
      · simpa [Threads.popped] using hpopped
      · simpa [or_imp, forall_and] using hcodes
    | @readHeader maxLength writePos hpc hsome =>
      rw [hpc] at hreader
      exact hloop.start hreader.1 hreader.2 _ _ hring
    | readByte hpc =>
      rw [hpc] at hreader
      exact ⟨hring, hacc, hwriter, hreader, hpopped, hcodes, hmsgWrite, hmsgRead⟩
    | @readSmall maxLength readPos got hpc hsmall =>
      -- the length word is that of a message, and those are short
      rw [hpc] at hokReader hreader
      obtain ⟨m, q, rfl, -⟩ := hokReader.finished
      have hshort := hdata.short _ hreader.2
      rw [← hhead _ _ hi] at hshort
      exact absurd hsmall (hokReader.not_small hi.holds hreader.1 hshort)
    | @readPayload maxLength readPos got hpc hfits =>
      rw [hpc] at hreader
      exact hloop.start hreader.1 hreader.2 _ _ hring
    | @readCheck maxLength readPos msgSize got hpc =>
      rw [hpc] at hreader
      exact hloop.start hreader.1 hreader.2 _ _ hring
    | @readDone maxLength readPos msgSize d got hpc hsum =>
      rw [hpc] at hokReader hreader
      obtain ⟨q', rfl, rfl, rfl⟩ := hokReader.done
      obtain rfl := hhead _ _ hi
      have hnonempty := hdata.nonempty _ hreader.2
      have hshort := hdata.short _ hreader.2
      refine ⟨hring, hacc, hwriter, trivial, ?_, ?_, hmsgWrite, ?_⟩
      · simpa [Threads.popped] using hpopped
      · intro ret hret
        obtain hret | hret := List.mem_append.1 hret
        · exact hcodes ret hret
        · rw [List.mem_singleton.1 hret]
          exact .inr ⟨by omega, by omega⟩
      · simp [hmsgRead, int32_int32_add]
    | readClear hpc hsum =>
      rw [hpc] at hokReader
      obtain ⟨m, q, rfl, -, rfl, -⟩ := hokReader.finished
      exact absurd checkSum_checkData hsum
    | readCleared hpc =>
      rw [hpc] at hokReader
      exact hokReader.elim

/-! ## The moves that are left -/

/-- The moves of the writer until a message of `n` bytes is in the ring, if there is room for it. -/
def Writer.left (n : Nat) (readPos : Int) : Writer → Nat
  | .idle => n + 11
  | .loadWritePos _ loaded => if loaded = readPos then n + 10 else n + 12
  | .copy _ _ todo => todo.length + 1
  | .fault => 0

/-- The moves of the reader behind the last load of a phase. -/
def Phase.left (n : Nat) : Phase → Nat
  | .header => n + 7
  | .payload _ => 6
  | .check _ _ => 1

/-- The moves of the reader until it has the oldest message, one of `n` bytes. -/
def Reader.left (n : Nat) (maxLength readPos : Int) : Reader → Nat
  | .idle => n + 13
  | .loadReadPos _ loaded => if readSize maxLength readPos loaded < 4 + 4 then n + 14 else n + 12
  | .copy phase _ _ _ todo => todo.length + phase.left n
  | .clearReadPos | .fault => 0

/-- Everything sent has been read, and message `j` is the next one. -/
def AllRead (data : Nat → List UInt8) (M loopNum j : Nat) (s : Threads) : Prop :=
  LoopInv data M loopNum s ∧ s.returned.length = j ∧ s.accepted.length = j

/-- Message `j` is the oldest in the ring. -/
def Unread (data : Nat → List UInt8) (M loopNum j : Nat) (s : Threads) : Prop :=
  LoopInv data M loopNum s ∧ s.returned.length = j ∧ j < s.accepted.length

/-- The ring is empty when all is read, -/
theorem AllRead.inv {j : Nat} (h : AllRead data M loopNum j s) : ∃ r, Inv s M r [] := by
  obtain ⟨hloop, hret, hacc⟩ := h
  obtain ⟨r, q, hi⟩ := hloop.ring
  have hlen := congrArg List.length hi.accepted_eq
  rw [List.length_append, hret, hacc] at hlen
  have hq : q = [] := List.length_eq_zero_iff.1 (by omega)
  exact ⟨r, hq ▸ hi⟩

/-- and has message `j` first otherwise. -/
theorem Unread.inv {j : Nat} (h : Unread data M loopNum j s) : ∃ r q, Inv s M r (data j :: q) := by
  obtain ⟨hloop, hret, hacc⟩ := h
  obtain ⟨r, q, hi⟩ := hloop.ring
  have hlen := congrArg List.length hi.accepted_eq
  rw [List.length_append, hret] at hlen
  cases q with
  | nil => simp only [List.length_nil] at hlen; omega
  | cons m q =>
    rw [hloop.head hi, hret] at hi
    exact ⟨r, q, hi⟩

/-- An admitted call has the stores of one frame before it. -/
theorem Writer.Ok.left_accept {mem : Nat → UInt8} {r : Nat} {q : List (List UInt8)}
    {maxLength writePos : Int} {call : WriteCall}
    (h : (Writer.accept w maxLength writePos call).Ok mem M r q) (readPos : Int) :
    (Writer.accept w maxLength writePos call).left call.message.length readPos ≤
      call.message.length + 9 := by
  unfold Writer.accept at h ⊢
  split at h
  · obtain ⟨-, -, done, rest, hframe, rfl, -⟩ := h
    have hlen := congrArg List.length hframe
    rw [length_frame, List.length_append] at hlen
    simp only [Writer.left, length_stores]
    omega
  · exact h.elim

/-- An empty ring admits a message that fits. -/
theorem Inv.admits {r : Nat} (hi : Inv s M r []) {call : WriteCall}
    (hsize : call.message.length < 2147483640) (hfits : call.message.length + 8 ≤ M - 1) :
    ¬ call.capacity s.ring.maxLength s.ring.readPos s.ring.writePos <
      int32 (w.wrap (call.length w + 4 + 4)) := by
  rw [hi.holds.size.maxLength_eq, hi.holds.readPos_eq, hi.holds.writePos_eq,
    call.capacity_eq hi.holds.r_le hi.holds.used_lt hi.holds.size.lt, call.length_eq hsize,
    realSize_eq _ hsize, used_nil]
  omega

/-- While everything sent has been read, each move of the writer brings the next message nearer. -/
theorem helped_push (hdata : Sendable data M loopNum) {j : Nat} (hj : j < loopNum) :
    Helped (LoopStep w data loopNum) (fun s s' => s'.writer ≠ s.writer) (AllRead data M loopNum j)
      (Unread data M loopNum j) (fun s => s.writer.left (data j).length s.ring.readPos) := by
  intro s s' hs hstep
  obtain ⟨r, hi⟩ := hs.inv
  obtain ⟨h, hret, hacc⟩ := hs
  have h' := h.step hdata hstep
  have hwriter := h.writer
  have hokWriter := hi.writer
  have hokReader := hi.reader
  have hmsg : (WriteCall.write (data j)).message = data j := List.flatten_singleton
  rw [hacc] at hwriter
  cases hstep with
  | push hloop hpc =>
    refine .inr ⟨⟨h', hret, hacc⟩, ?_, fun _ => ?_⟩ <;> simp [Writer.left, hpc]
  | pop hloop hpc => exact .inr ⟨⟨h', hret, hacc⟩, Nat.le_refl _, fun hmove => absurd rfl hmove⟩
  | call hstep hcallWriter hcallReader =>
    cases hstep with
    | writeBegin call hsize hpc => exact nomatch hcallWriter hpc
    | @writeReject call readPos hpc hfull =>
      -- only a position loaded before the last read is refused
      rw [hpc] at hwriter
      obtain ⟨rfl, -⟩ := hwriter
      have hne : readPos ≠ s.ring.readPos := by
        rintro rfl
        refine hi.admits ?_ ?_ hfull <;> rw [hmsg]
        · exact Nat.lt_trans (hdata.short j hj) (by decide)
        · exact hdata.fits j hj
      refine .inr ⟨⟨h', hret, hacc⟩, ?_, fun _ => ?_⟩ <;> simp [Writer.left, hpc, hne]
    | @writeAdmit call readPos hpc hroom =>
      rw [hpc] at hwriter hokWriter
      obtain ⟨rfl, -⟩ := hwriter
      have hleft := (hokWriter.accept hi.holds hroom).left_accept s.ring.readPos
      rw [hmsg] at hleft
      have hload : (data j).length + 9 < s.writer.left (data j).length s.ring.readPos := by
        rw [hpc, Writer.left]
        split <;> omega
      have hlt := Nat.lt_of_le_of_lt hleft hload
      exact .inr ⟨⟨h', hret, hacc⟩, Nat.le_of_lt hlt, fun _ => hlt⟩
    | writeByte hpc =>
      refine .inr ⟨⟨h', hret, hacc⟩, ?_, fun _ => ?_⟩ <;> simp [Writer.left, hpc]
    | writeDone hpc => exact .inl ⟨h', hret, by simp [hacc]⟩
    | readBegin maxLength hpc => exact nomatch hcallReader hpc
    | readEmpty | readHeader | readByte | readSmall | readPayload | readCheck =>
      exact .inr ⟨⟨h', hret, hacc⟩, Nat.le_refl _, fun hmove => absurd rfl hmove⟩
    | readDone hpc =>
      rw [hpc] at hokReader
      obtain ⟨q, hq, -⟩ := hokReader.done
      exact nomatch hq
    | readClear hpc =>
      rw [hpc] at hokReader
      obtain ⟨m, q, hq, -⟩ := hokReader.finished
      exact nomatch hq
    | readCleared hpc =>
      rw [hpc] at hokReader
      exact hokReader.elim

/-- A copy that starts has the whole of its part before it, which is a step forward. -/
theorem Unread.start {j maxLength : Nat} {phase : Phase} {copy : Option (Int × List Nat)}
    (h : Unread data M loopNum j { s with reader := .start phase maxLength copy })
    (hlt : (phase.bytes (data j)).length + phase.left (data j).length <
      s.reader.left (data j).length s.ring.maxLength s.ring.readPos) :
    (Reader.start phase maxLength copy).left (data j).length s.ring.maxLength s.ring.readPos <
      s.reader.left (data j).length s.ring.maxLength s.ring.readPos := by
  obtain ⟨r, q, hi⟩ := h.inv
  have hok := hi.reader
  cases copy with
  | none => exact hok.elim
  | some c =>
    obtain ⟨m', q', rest, hq, -, hbytes, htodo, -⟩ := hok
    cases hq
    rw [← hbytes, List.nil_append] at hlt
    rw [Reader.start, Reader.left, htodo, length_slots]
    exact hlt

/-- The fresh write position of a ring with a message says so. -/
theorem Inv.readSize_ge {r : Nat} {m : List UInt8} {q : List (List UInt8)}
    (hi : Inv s M r (m :: q)) :
    ¬ readSize s.ring.maxLength s.ring.readPos s.ring.writePos < 4 + 4 := by
  rw [hi.holds.size.maxLength_eq, hi.holds.readPos_eq, hi.holds.writePos_eq,
    readSize_eq hi.holds.r_le hi.holds.used_lt hi.holds.size.lt, used_cons]
  omega

/-- While a message is in the ring, each move of the reader brings it nearer to `PopMsg`. -/
theorem helped_pop (hdata : Sendable data M loopNum) {j : Nat} :
    Helped (LoopStep w data loopNum) (fun s s' => s'.reader ≠ s.reader) (Unread data M loopNum j)
      (fun s => LoopInv data M loopNum s ∧ s.returned.length = j + 1)
      (fun s => s.reader.left (data j).length s.ring.maxLength s.ring.readPos) := by
  intro s s' hs hstep
  obtain ⟨r, q, hi⟩ := hs.inv
  obtain ⟨h, hret, hacc⟩ := hs
  have h' := h.step hdata hstep
  have hreader := h.reader
  have hokReader := hi.reader
  cases hstep with
  -- a push begins: the ring and what is left of the reading stay
  | push hloop hpc => exact .inr ⟨⟨h', hret, hacc⟩, Nat.le_refl _, fun hmove => absurd rfl hmove⟩
  | pop hloop hpc =>
    -- a pop begins: the message is there, so it counts one move less
    refine .inr ⟨⟨h', hret, hacc⟩, ?_, fun _ => ?_⟩ <;>
      simp only [hpc, Reader.left, if_neg hi.readSize_ge] <;> omega
  | call hstep hcallWriter hcallReader =>
    cases hstep with
    | writeBegin call hsize hpc => exact nomatch hcallWriter hpc
    -- the writer's moves change nothing the reader has left
    | writeReject | writeAdmit | writeByte =>
      exact .inr ⟨⟨h', hret, hacc⟩, Nat.le_refl _, fun hmove => absurd rfl hmove⟩
    | writeDone hpc =>
      refine .inr ⟨⟨h', hret, ?_⟩, Nat.le_refl _, fun hmove => absurd rfl hmove⟩
      simp only [List.length_append]
      omega
    | readBegin maxLength hpc => exact nomatch hcallReader hpc
    -- the position loaded was too old: the call returns, and the next one counts again
    | @readEmpty maxLength writePos hpc hempty =>
      refine .inr ⟨⟨h', hret, hacc⟩, ?_, fun _ => ?_⟩ <;>
        simp only [hpc, Reader.left, if_pos hempty] <;> omega
    -- each phase of the read leaves fewer moves than the one before
    | @readHeader maxLength writePos hpc hsome =>
      have hs' := Unread.start ⟨h', hret, hacc⟩ (by
        rw [hpc]
        simp only [Reader.left, Phase.bytes, Phase.left, length_toLE, if_neg hsome]
        omega)
      refine .inr ⟨⟨h', hret, hacc⟩, ?_, fun _ => ?_⟩ <;> dsimp only
      · exact Nat.le_of_lt hs'
      · exact hs'
    | readByte hpc =>
      refine .inr ⟨⟨h', hret, hacc⟩, ?_, fun _ => ?_⟩ <;>
        simp only [hpc, Reader.left, List.length_cons] <;> omega
    | readSmall hpc hsmall =>
      -- a message is never too short to be one of the test's
      rw [hpc] at hokReader hreader
      exact absurd hsmall (hokReader.not_small hi.holds hreader.1
        (hdata.short j (hret ▸ hreader.2)))
    | @readPayload maxLength readPos got hpc hfits =>
      have hs' := Unread.start ⟨h', hret, hacc⟩ (by
        rw [hpc]
        simp only [Reader.left, Phase.bytes, Phase.left, List.length_nil]
        omega)
      refine .inr ⟨⟨h', hret, hacc⟩, ?_, fun _ => ?_⟩ <;> dsimp only
      · exact Nat.le_of_lt hs'
      · exact hs'
    | @readCheck maxLength readPos msgSize got hpc =>
      have hs' := Unread.start ⟨h', hret, hacc⟩ (by
        rw [hpc]
        simp only [Reader.left, Phase.bytes, Phase.left, length_toLE, List.length_nil]
        omega)
      refine .inr ⟨⟨h', hret, hacc⟩, ?_, fun _ => ?_⟩ <;> dsimp only
      · exact Nat.le_of_lt hs'
      · exact hs'
    -- the message is returned
    | readDone hpc => exact .inl ⟨h', by simp [hret]⟩
    | readClear hpc hsum =>
      -- nor is its check number ever wrong
      rw [hpc] at hokReader
      obtain ⟨m, q, hq, -, rfl, -⟩ := hokReader.finished
      exact absurd checkSum_checkData hsum
    | readCleared hpc =>
      rw [hpc] at hokReader
      exact hokReader.elim

/-- What has been received is kept. -/
theorem Step.returned_le (h : Step w s s') : s.returned.length ≤ s'.returned.length := by
  cases h <;> simp

end Steps

/-! ## Fair runs -/

/-- A thread that has not returned goes on. -/
structure LoopFair (loopNum : Nat) (run : Nat → Threads) : Prop where
  push : ∀ n, ¬ (run n).PushDone loopNum → ∃ m, n ≤ m ∧ (run (m + 1)).writer ≠ (run m).writer
  pop : ∀ n, ¬ (run n).PopDone loopNum → ∃ m, n ≤ m ∧ (run (m + 1)).reader ≠ (run m).reader

section Runs

variable {w : SizeT} {data : Nat → List UInt8} {cb : TagCircleBuffer} {M loopNum : Nat}
  {run : Nat → Threads}

/-- The test begins with nothing accepted. -/
theorem LoopInv.init (hcb : HasSize cb M) : LoopInv data M loopNum (Threads.init (clear cb).2) where
  ring := ⟨0, [], init_inv hcb⟩
  accepted := ⟨0, Nat.zero_le _, rfl⟩
  writer := trivial
  reader := trivial
  popped := rfl
  codes := fun _ hret => absurd hret List.not_mem_nil
  msgWrite := by show (0 : Int) = int32 0; decide
  msgRead := by show (0 : Int) = int32 0; decide

/-- The next message comes over. -/
theorem LoopFair.next (hfair : LoopFair loopNum run) (hdata : Sendable data M loopNum)
    (hrun : IsRun (LoopStep w data loopNum) run) {j : Nat} (hj : j < loopNum) :
    LeadsTo run (fun s => LoopInv data M loopNum s ∧ s.returned.length = j)
      (fun s => LoopInv data M loopNum s ∧ s.returned.length = j + 1) := by
  -- what is in the ring is popped in the end, by a fair reader
  have hpop := (helped_pop (w := w) hdata (j := j)).leadsTo hrun (fun _ h => h rfl)
    fun n hn => hfair.pop n fun hdone => by
      have := hdone.2
      rw [hn.1.popped, hn.2.1] at this
      omega
  -- and into an empty ring the next message is pushed, by a fair writer
  have hpush := (helped_push (w := w) hdata hj).leadsTo hrun (fun _ h => h rfl)
    fun n hn => hfair.push n fun hdone => by
      have := hdone.2
      rw [hn.1.pushed_eq hdata, hn.2.2] at this
      omega
  intro n ⟨h, hret⟩
  obtain hlt | heq := Nat.lt_or_eq_of_le h.returned_le
  · exact hpop n ⟨h, hret, hret ▸ hlt⟩
  · exact hpush.trans hpop n ⟨h, hret, heq ▸ hret⟩

/-- All messages come over. -/
theorem LoopFair.all (hfair : LoopFair loopNum run) (hdata : Sendable data M loopNum)
    (hrun : IsRun (LoopStep w data loopNum) run) (hinit : LoopInv data M loopNum (run 0))
    (hnone : (run 0).returned.length = 0) {j : Nat} (hj : j ≤ loopNum) :
    ∃ n, LoopInv data M loopNum (run n) ∧ (run n).returned.length = j := by
  induction j with
  | zero => exact ⟨0, hinit, hnone⟩
  | succ j ih =>
    obtain ⟨n, hn⟩ := ih (by omega)
    obtain ⟨m, -, hm⟩ := hfair.next hdata hrun hj n hn
    exact ⟨m, hm⟩

/-- With all messages over, both threads have returned and the ring is empty. -/
theorem LoopInv.finished {s : Threads} (h : LoopInv data M loopNum s)
    (hdata : Sendable data M loopNum) (hall : loopNum ≤ s.returned.length) :
    s.PushDone loopNum ∧ s.PopDone loopNum ∧ s.returned = (List.range loopNum).map data ∧
      empty s.ring = true ∧ s.ring.msgWrite = int32 loopNum ∧ s.ring.msgRead = int32 loopNum := by
  have hle := h.returned_le
  have hle' := h.length_le
  have hret : s.returned.length = loopNum := by omega
  have hacc : s.accepted.length = loopNum := by omega
  have hreturned := h.returned_eq
  have hpushed := h.pushed_eq hdata
  obtain ⟨⟨r, q, hi⟩, -, hwriter, hreader, hpopped, -, hmsgWrite, hmsgRead⟩ := h
  rw [hret] at hreturned hpopped hreader hmsgRead
  rw [hacc] at hpushed hwriter hmsgWrite
  refine ⟨⟨?_, Nat.le_of_eq hpushed.symm⟩, ⟨?_, Nat.le_of_eq hpopped.symm⟩, hreturned, ?_,
    hmsgWrite, hmsgRead⟩
  -- a writer in a call would still hold a message to push
  · have hok := hi.writer
    cases hpc : s.writer with
    | idle => rfl
    | loadWritePos | copy =>
      rw [hpc] at hwriter
      exact absurd hwriter.2 (Nat.lt_irrefl _)
    | fault =>
      rw [hpc] at hok
      exact hok.elim
  -- a reader in a call would still wait for one
  · have hok := hi.reader
    cases hpc : s.reader with
    | idle => rfl
    | loadReadPos | copy =>
      rw [hpc] at hreader
      exact absurd hreader.2 (Nat.lt_irrefl _)
    | clearReadPos | fault =>
      rw [hpc] at hok
      exact hok.elim
  -- all accepted messages were returned
  · have hlen := congrArg List.length hi.accepted_eq
    rw [List.length_append, hret, hacc] at hlen
    rw [hi.holds.empty_iff, List.length_eq_zero_iff.1 (show q.length = 0 by omega)]
    rfl

end Runs

/-- What `PushMsg` sends fits, with its frame, into 27 bytes. -/
theorem sendable_pushData {M loopNum : Nat} (hM : 28 ≤ M) (hloop : loopNum < 2147483648) :
    Sendable pushData M loopNum := by
  have hlength : ∀ i, i < loopNum → 0 < (pushData i).length ∧ (pushData i).length ≤ 19 := by
    intro i hi
    cases i with
    | zero => decide
    | succ i =>
      have hdigits : (toString (i + 1)).length ≤ 10 :=
        Nat.repr_length (i + 1) 10 (by decide) (by omega)
      simp only [pushData, ascii, List.length_append, List.length_map, String.length_toList,
        show "Num: ".length = 5 from rfl, show ", ha".length = 4 from rfl]
      omega
  exact ⟨fun i hi => (hlength i hi).1, fun i hi => Nat.lt_of_le_of_lt (hlength i hi).2 (by decide),
    fun i hi => by have := (hlength i hi).2; omega⟩

/-! ## Turns -/

/-- A writer in order has not failed, -/
theorem Writer.Ok.ne_fault {mem : Nat → UInt8} {M r : Nat} {q : List (List UInt8)} {writer : Writer}
    (h : writer.Ok mem M r q) : writer ≠ .fault := by
  rintro rfl
  exact h

/-- nor has a reader. -/
theorem Reader.Ok.ne_fault {M r : Nat} {q : List (List UInt8)} {reader : Reader}
    (h : reader.Ok M r q) : reader ≠ .fault := by
  rintro rfl
  exact h

section Turns

variable {w : SizeT} {data : Nat → List UInt8} {loopNum : Nat} {s s' : Threads}

/-- Every step of the loops is a turn of one of the threads. -/
theorem LoopStep.turn (h : LoopStep w data loopNum s s') :
    s.pushTurn w data loopNum = some s' ∨ s.popTurn w loopNum = some s' := by
  cases h with
  | push hloop hpc => exact .inl (by simp only [Threads.pushTurn, hpc, if_pos hloop])
  | pop hloop hpc => exact .inr (by simp only [Threads.popTurn, hpc, if_pos hloop])
  | call hstep hwriter hreader =>
    cases hstep with
    | writeBegin call hsize hpc => exact nomatch hwriter hpc
    | readBegin maxLength hpc => exact nomatch hreader hpc
    | writeReject hpc hfull => exact .inl (by simp only [Threads.pushTurn, hpc, if_pos hfull])
    | writeAdmit hpc hroom => exact .inl (by simp only [Threads.pushTurn, hpc, if_neg hroom])
    | writeByte hpc | writeDone hpc => exact .inl (by simp only [Threads.pushTurn, hpc])
    | readEmpty hpc htest | readSmall hpc htest | readDone hpc htest =>
      exact .inr (by simp only [Threads.popTurn, hpc, if_pos htest])
    | readHeader hpc htest | readPayload hpc htest | readClear hpc htest =>
      exact .inr (by simp only [Threads.popTurn, hpc, if_neg htest])
    | readByte hpc | readCheck hpc | readCleared hpc =>
      exact .inr (by simp only [Threads.popTurn, hpc])

/-- A turn of `PushMsg` is a step that moves it. -/
theorem Threads.pushTurn_spec (h : s.pushTurn w data loopNum = some s') :
    LoopStep w data loopNum s s' ∧ s'.writer ≠ s.writer := by
  unfold Threads.pushTurn at h
  split at h
  -- between two calls
  · rename_i hpc
    split at h
    · rename_i hloop
      cases h
      exact ⟨.push hloop hpc, by simp [hpc]⟩
    · cases h
  -- the room is checked
  · rename_i call readPos hpc
    split at h
    · rename_i hfull
      cases h
      exact ⟨.call (.writeReject hpc hfull) (fun _ => rfl) id, by simp [hpc]⟩
    · rename_i hroom
      cases h
      refine ⟨.call (.writeAdmit hpc hroom) (fun hidle => by simp [hpc] at hidle) id, ?_⟩
      rw [hpc]
      dsimp only [Writer.accept]
      split <;> nofun
  -- a byte is copied
  · rename_i m writePos i b todo hpc
    cases h
    exact ⟨.call (.writeByte hpc) (fun hidle => by simp [hpc] at hidle) id, by simp [hpc]⟩
  -- the position is published
  · rename_i m writePos hpc
    cases h
    exact ⟨.call (.writeDone hpc) (fun _ => rfl) id, by simp [hpc]⟩
  · cases h

/-- A turn of `PopMsg` is a step that moves it. -/
theorem Threads.popTurn_spec (data : Nat → List UInt8) (h : s.popTurn w loopNum = some s') :
    LoopStep w data loopNum s s' ∧ s'.reader ≠ s.reader := by
  unfold Threads.popTurn at h
  split at h
  -- between two calls
  · rename_i hpc
    split at h
    · rename_i hloop
      cases h
      exact ⟨.pop hloop hpc, by simp [hpc]⟩
    · cases h
  -- the two positions are compared
  · rename_i maxLength writePos hpc
    split at h
    · rename_i hempty
      cases h
      exact ⟨.call (.readEmpty hpc hempty) id (fun _ => rfl), by simp [hpc]⟩
    · rename_i hsome
      cases h
      refine ⟨.call (.readHeader hpc hsome) id (fun hidle => by simp [hpc] at hidle), ?_⟩
      rw [hpc]
      dsimp only
      generalize realReadLoads _ _ _ _ = copy
      cases copy <;> nofun
  -- a byte is copied
  · rename_i phase maxLength readPos got i todo hpc
    cases h
    exact ⟨.call (.readByte hpc) id (fun hidle => by simp [hpc] at hidle), by simp [hpc]⟩
  -- the length is read
  · rename_i maxLength readPos got hpc
    split at h
    · rename_i hsmall
      cases h
      exact ⟨.call (.readSmall hpc hsmall) id (fun _ => rfl), by simp [hpc]⟩
    · rename_i hfits
      cases h
      refine ⟨.call (.readPayload hpc hfits) id (fun hidle => by simp [hpc] at hidle), ?_⟩
      rw [hpc]
      dsimp only
      generalize realReadLoads _ _ _ _ = copy
      cases copy <;> nofun
  -- the payload is read
  · rename_i msgSize maxLength readPos got hpc
    cases h
    refine ⟨.call (.readCheck hpc) id (fun hidle => by simp [hpc] at hidle), ?_⟩
    rw [hpc]
    dsimp only
    generalize realReadLoads _ _ _ _ = copy
    cases copy <;> nofun
  -- the check number is read
  · rename_i msgSize d maxLength readPos got hpc
    split at h
    · rename_i hsum
      cases h
      exact ⟨.call (.readDone hpc hsum) id (fun _ => rfl), by simp [hpc]⟩
    · rename_i hsum
      cases h
      exact ⟨.call (.readClear hpc hsum) id (fun hidle => by simp [hpc] at hidle), by simp [hpc]⟩
  -- `Clear` has set one position
  · rename_i hpc
    cases h
    exact ⟨.call (.readCleared hpc) id (fun _ => rfl), by simp [hpc]⟩
  · cases h

/-- While `PushMsg` stands still, it has nothing accepted. -/
theorem LoopStep.push_same (h : LoopStep w data loopNum s s') (hsame : s'.writer = s.writer) :
    s'.accepted = s.accepted := by
  cases h with
  | push | pop => rfl
  | call hstep =>
    cases hstep with
    | writeDone hpc => simp [hpc] at hsame
    | _ => rfl

/-- While `PopMsg` stands still, it gets no answer. -/
theorem LoopStep.pop_same (h : LoopStep w data loopNum s s') (hsame : s'.reader = s.reader) :
    s'.codes = s.codes := by
  cases h with
  | push | pop => rfl
  | call hstep =>
    cases hstep with
    | readEmpty hpc | readSmall hpc | readDone hpc | readCleared hpc => simp [hpc] at hsame
    | _ => rfl

/-- `PushMsg` has a turn until it returns. -/
theorem Threads.pushTurn_isSome (s : Threads) (w : SizeT) (data : Nat → List UInt8)
    (hok : s.writer ≠ .fault) (hdone : ¬ s.PushDone loopNum) :
    (s.pushTurn w data loopNum).isSome := by
  unfold Threads.pushTurn
  split
  · rename_i hpc
    rw [if_pos (Nat.lt_of_not_le fun hle => hdone ⟨hpc, hle⟩)]
    rfl
  · split <;> rfl
  · rfl
  · rfl
  · rename_i hpc
    exact absurd hpc hok

/-- `PopMsg` has a turn until it returns. -/
theorem Threads.popTurn_isSome (s : Threads) (w : SizeT) (hok : s.reader ≠ .fault)
    (hdone : ¬ s.PopDone loopNum) :
    (s.popTurn w loopNum).isSome := by
  unfold Threads.popTurn
  split
  · rename_i hpc
    rw [if_pos (Nat.lt_of_not_le fun hle => hdone ⟨hpc, hle⟩)]
    rfl
  · split <;> rfl
  · rfl
  · split <;> rfl
  · rfl
  · split <;> rfl
  · rfl
  · rename_i hpc
    exact absurd hpc hok

end Turns

/-- In every run of `test` the invariant of the loops holds. -/
theorem loopInv_of_isRun {w : SizeT} {cb : TagCircleBuffer} (hroom : 28 ≤ cb.maxLength)
    (hint : IsInt32 cb.maxLength) {loopNum : Nat} (hloop : loopNum < 2147483648)
    {run : Nat → Threads} (hrun : IsRun (TestStep w loopNum) run)
    (hinit : run 0 = Threads.init (clear cb).2) (n : Nat) :
    LoopInv pushData cb.maxLength.toNat loopNum (run n) := by
  have hdata := sendable_pushData (M := cb.maxLength.toNat) (by omega) hloop
  exact hrun.stable (fun _ _ h hstep => h.step hdata hstep) (Nat.zero_le n)
    (hinit ▸ .init ⟨by omega, by omega, by omega⟩)

section Schedules

variable {w : SizeT} {cb : TagCircleBuffer} {loopNum : Nat} {turn : Nat → Bool}

/-- The test as it is run is a run of its steps. -/
theorem test_isRun : IsRun (TestStep w loopNum) (test w cb loopNum turn) := by
  intro n
  rw [test]
  split
  · cases hturn : (test w cb loopNum turn n).pushTurn w pushData loopNum with
    | none => exact .inl rfl
    | some s' => exact .inr (Threads.pushTurn_spec hturn).1
  · cases hturn : (test w cb loopNum turn n).popTurn w loopNum with
    | none => exact .inl rfl
    | some s' => exact .inr (Threads.popTurn_spec _ hturn).1

/-- Turns for both threads again and again are fair. -/
theorem test_fair (hroom : 28 ≤ cb.maxLength) (hint : IsInt32 cb.maxLength)
    (hloop : loopNum < 2147483648) (hpush : ∀ n, ∃ m, n ≤ m ∧ turn m = true)
    (hpop : ∀ n, ∃ m, n ≤ m ∧ turn m = false) : LoopFair loopNum (test w cb loopNum turn) := by
  have hrun : IsRun (TestStep w loopNum) (test w cb loopNum turn) := test_isRun
  have hinv := loopInv_of_isRun hroom hint hloop hrun rfl
  -- a thread that stood still would still not have returned at its next turn
  constructor <;> intro n hdone <;> by_contra! hsame
  · obtain ⟨m, hnm, hturn⟩ := hpush n
    have hdone' : ¬ (test w cb loopNum turn m).PushDone loopNum :=
      hrun.still (fun s s' => s'.writer ≠ s.writer) (fun s => ¬ s.PushDone loopNum)
        (fun s s' h hstep hstill => by
          have hwriter := not_not.1 hstill
          rwa [Threads.PushDone, Threads.pushed, hwriter, hstep.push_same hwriter])
        hnm (fun k hk => not_not_intro (hsame k hk)) hdone
    obtain ⟨r, q, hi⟩ := (hinv m).ring
    obtain ⟨s', hs'⟩ := Option.isSome_iff_exists.1 ((test w cb loopNum turn m).pushTurn_isSome w
      pushData hi.writer.ne_fault hdone')
    have hmove := hsame m hnm
    rw [test, hturn, if_pos rfl, hs'] at hmove
    exact (Threads.pushTurn_spec hs').2 hmove
  · obtain ⟨m, hnm, hturn⟩ := hpop n
    have hdone' : ¬ (test w cb loopNum turn m).PopDone loopNum :=
      hrun.still (fun s s' => s'.reader ≠ s.reader) (fun s => ¬ s.PopDone loopNum)
        (fun s s' h hstep hstill => by
          have hreader := not_not.1 hstill
          rwa [Threads.PopDone, Threads.popped, hreader, hstep.pop_same hreader])
        hnm (fun k hk => not_not_intro (hsame k hk)) hdone
    obtain ⟨r, q, hi⟩ := (hinv m).ring
    obtain ⟨s', hs'⟩ := Option.isSome_iff_exists.1 ((test w cb loopNum turn m).popTurn_isSome w
      hi.reader.ne_fault hdone')
    have hmove := hsame m hnm
    rw [test, hturn, if_neg nofun, hs'] at hmove
    exact (Threads.popTurn_spec pushData hs').2 hmove

end Schedules

/-- `test` with any room for the messages and any number of them: in every interleaving of the loads
    and stores of both threads `PopMsg` has received the messages of `PushMsg` in order, it finds
    nothing or a message that its buffer holds with a byte to spare, and if a thread that has not
    returned goes on, then both return, with every message received and the ring empty. -/
theorem test_completes (w : SizeT) (cb : TagCircleBuffer) (hroom : 28 ≤ cb.maxLength)
    (hint : IsInt32 cb.maxLength) {loopNum : Nat} (hloop : loopNum < 2147483648)
    {run : Nat → Threads} (hinit : run 0 = Threads.init (clear cb).2)
    (hrun : IsRun (TestStep w loopNum) run) :
    (∀ n, (run n).returned = (List.range (run n).returned.length).map pushData ∧
      ∀ ret ∈ (run n).codes, ret = -1 ∨ (0 < ret ∧ ret < sizeofData)) ∧
    (LoopFair loopNum run → ∃ n, ∀ m, n ≤ m →
      (run m).PushDone loopNum ∧ (run m).PopDone loopNum ∧
      (run m).returned = (List.range loopNum).map pushData ∧ empty (run m).ring = true ∧
      (run m).ring.msgWrite = loopNum ∧ (run m).ring.msgRead = loopNum) := by
  have hdata := sendable_pushData (M := cb.maxLength.toNat) (by omega) hloop
  have hloopInv := loopInv_of_isRun hroom hint hloop hrun hinit
  refine ⟨fun n => ⟨(hloopInv n).returned_eq, (hloopInv n).codes⟩, fun hfair => ?_⟩
  obtain ⟨n, hn⟩ := hfair.all hdata hrun (hloopInv 0) (by rw [hinit]; rfl) (Nat.le_refl loopNum)
  refine ⟨n, fun m hnm => ?_⟩
  -- what was returned once stays returned
  have hall : loopNum ≤ (run m).returned.length :=
    hrun.stable (P := fun s => loopNum ≤ s.returned.length)
      (fun _ _ h hstep => Nat.le_trans h (hstep.step hdata).returned_le) hnm
        (Nat.le_of_eq hn.2.symm)
  have hfinished := (hloopInv m).finished hdata hall
  rwa [int32_of_isInt32 (by omega)] at hfinished

/-- `test` as it stands, with turn and turn about. -/
theorem test_completes_in_turn : ∃ n, ∀ m, n ≤ m →
    (test .eight ⟨1025, 0, 0, 0, 0, fun _ => 0⟩ 100000 (· % 2 == 0) m).returned =
      (List.range 100000).map pushData := by
  have hfair : LoopFair 100000 (test .eight ⟨1025, 0, 0, 0, 0, fun _ => 0⟩ 100000 (· % 2 == 0)) :=
    test_fair (by decide) (by decide) (by decide) (fun n => ⟨2 * n, by omega, by simp⟩)
      (fun n => ⟨2 * n + 1, by omega, by simp⟩)
  obtain ⟨n, hn⟩ := (test_completes .eight ⟨1025, 0, 0, 0, 0, fun _ => 0⟩ (by decide) (by decide)
    (by decide) rfl test_isRun).2 hfair
  exact ⟨n, fun m hm => (hn m hm).2.2.1⟩

end XGame3.CircleBuffer
