import XGame3.Native.CircleBufferClear
import XGame3.Spec.CircleBufferQueue

/-!
# When `Clear` may run beside a writer

`Clear` stores the writer's position and counter.  A writer that has already loaded the
position stores it back as if nothing had happened; one that is about to count its message
counts it in a ring that is empty, or has its count taken away.  `orderly` names the three
steps that must not fall there; a run without them leaves the ring empty, or holding exactly
the frame that was written into the cleared ring.

Key results:
- `Inv.writer`, `Inv.reader`: an orderly step of either thread preserves the invariant
- `run_recovered`: after an orderly run the ring holds whole frames and counts them
- `not_recovered`: a writer that was overtaken between its load and its store breaks the ring
-/

namespace XGame3.CircleBuffer

open FixedInt LittleEndian Circular

namespace Recovery

/-! ### What is promised and asked -/

/-- From `readPos_` to `writePos_` stand the frames of `q`, and the counters count them. -/
structure WholeFrames (M : Nat) (cb : TagCircleBuffer) (q : List (List UInt8)) : Prop where
  positions : ∃ r p : Nat, cb.readPos = r ∧ cb.writePos = p ∧ r ≤ M ∧ p ≤ M ∧
    readAt cb.data M r (distance M r p) = frames q
  counted : cb.msgWrite - cb.msgRead = q.length

/-- The ring is empty, or holds whole frames that were written. -/
def Recovered (M : Nat) (s : Recovery) : Prop :=
  ∃ q, WholeFrames M s.ring q ∧ ∀ m ∈ q, s.writer = .returned (some m)

/-- The reader is between the first and the last store of `Clear`. -/
def Reader.inClear : Reader → Bool
  | .clearReadPos => true
  | .clearMsgRead => true
  | .clearMsgWrite => true
  | _ => false

/-- The writer holds a position it has loaded and not yet stored. -/
def Writer.holdsWritePos : Writer → Bool
  | .copy _ _ _ => true
  | _ => false

/-- `Clear` may end: it does not take back the count of a message, nor come before the count of one
    it has thrown away. -/
def Writer.mayEnd (cb : TagCircleBuffer) : Writer → Bool
  | .loadMsgWrite _ => cb.writePos != 0
  | .storeMsgWrite _ _ => false
  | _ => true

/-- What a step must not fall on, of both sides of the two fields they share. -/
def orderly : Thread → Recovery → Bool
  | .writer, s =>
    match s.writer with
    -- the counter of a frame that stands in the cleared ring is not loaded inside `Clear`
    | .loadMsgWrite _ => !s.reader.inClear || s.ring.writePos == 0
    | _ => true
  | .reader, s =>
    match s.reader with
    -- `Clear` does not begin behind the load of a position that will be stored
    | .copy (.check _ _) _ _ got [] => checkSum (ofLE got) || !s.writer.holdsWritePos
    | .clearMsgWrite => s.writer.mayEnd s.ring
    | _ => true

/-- Every step of a run is orderly. -/
def orderlyRun (w : SizeT) : List Thread → Recovery → Bool
  | [], _ => true
  | t :: ts, s => orderly t s && (step w t s).all (orderlyRun w ts)

/-! ### The invariant -/

/-- The writer works on one call. -/
def Writer.Calls (M : Nat) (call : WriteCall) : Writer → Prop
  | .loadReadPos c => c = call
  | .loadWritePos c readPos => c = call ∧ 0 ≤ readPos ∧ readPos ≤ M
  | _ => True

/-- The frame of a message stands at the start of the ring. -/
structure Framed (M : Nat) (m : List UInt8) (cb : TagCircleBuffer) : Prop where
  fits : m.length + 8 < M
  writePos_eq : cb.writePos = (m.length + 8 : Nat)
  data_eq : readAt cb.data M 0 (m.length + 8) = frame m

/-- A writer that had not loaded a position when `Clear` began; `fin` is whether it has ended. -/
def Writer.Fresh (M : Nat) (fin : Bool) (cb : TagCircleBuffer) : Writer → Prop
  | .copy m writePos todo =>
    cb.writePos = 0 ∧ (fin = true → cb.msgWrite = 0) ∧ m.length + 8 < M ∧
      writePos = (m.length + 8 : Nat) ∧
      ∃ done rest, frame m = done ++ rest ∧ todo = stores M 0 done.length rest ∧
        readAt cb.data M 0 done.length = done
  | .loadMsgWrite m => Framed M m cb ∧ (fin = true → cb.msgWrite = 0)
  | .storeMsgWrite m msgWrite => Framed M m cb ∧ fin = true ∧ msgWrite = 0
  | .returned (some m) => Framed M m cb ∧ fin = true ∧ cb.msgWrite = 1
  | .fault => True
  | _ => cb.writePos = 0 ∧ (fin = true → cb.msgWrite = 0)

/-- A writer that had stored its position when `Clear` began. -/
def Writer.Late (fin : Bool) (cb : TagCircleBuffer) : Writer → Prop
  | .loadMsgWrite _ => cb.writePos = 0 ∧ fin = false
  | .storeMsgWrite _ _ => cb.writePos = 0 ∧ fin = false
  | .returned (some _) => cb.writePos = 0 ∧ (fin = true → cb.msgWrite = 0)
  | _ => False

/-- Either of them. -/
def Writer.Cleared (M : Nat) (fin : Bool) (cb : TagCircleBuffer) (writer : Writer) : Prop :=
  writer.Fresh M fin cb ∨ writer.Late fin cb

/-- What the reader's progress says about the ring. -/
def Reader.Ok (M : Nat) (writer : Writer) (cb : TagCircleBuffer) : Reader → Prop
  | .loadMsgRead _ => True
  | .storeMsgRead _ _ => True
  | .returned _ => True
  | .fault => True
  | .clearReadPos => (0 ≤ cb.readPos ∧ cb.readPos ≤ M) ∧ writer.Cleared M false cb
  | .clearMsgRead => cb.readPos = 0 ∧ writer.Cleared M false cb
  | .clearMsgWrite => cb.readPos = 0 ∧ cb.msgRead = 0 ∧ writer.Cleared M false cb
  | .cleared => cb.readPos = 0 ∧ cb.msgRead = 0 ∧ writer.Cleared M true cb
  | _ => 0 ≤ cb.readPos ∧ cb.readPos ≤ M

/-- The reader is past anything that is promised. -/
def Reader.other : Reader → Bool
  | .loadMsgRead _ => true
  | .storeMsgRead _ _ => true
  | .returned _ => true
  | .fault => true
  | _ => false

/-- What holds between any two steps of an orderly run. -/
structure Inv (M : Nat) (call : WriteCall) (s : Recovery) : Prop where
  maxLength_eq : s.ring.maxLength = M
  calls : s.reader.other = false → s.writer.Calls M call
  ok : s.reader.Ok M s.writer s.ring

/-- A reader that is still of interest leaves the read position in the ring. -/
theorem Reader.Ok.readPos {M : Nat} {writer : Writer} {cb : TagCircleBuffer} {reader : Reader}
    (h : reader.Ok M writer cb) (hother : reader.other = false) :
    0 ≤ cb.readPos ∧ cb.readPos ≤ M := by
  cases reader <;> simp only [Reader.Ok, Reader.other, Bool.true_eq_false] at h hother ⊢ <;> omega

/-! ### The writer's steps -/

section Steps

variable {w : SizeT} {M : Nat} {call : WriteCall} {s s' : Recovery}

/-- The fields a step of the writer leaves alone. -/
theorem writerStep_frame (h : writerStep w s = some s') :
    s'.reader = s.reader ∧ s'.ring.maxLength = s.ring.maxLength ∧
      s'.ring.readPos = s.ring.readPos ∧ s'.ring.msgRead = s.ring.msgRead := by
  unfold writerStep at h
  split at h
  case h_2 =>
    split at h <;> cases h <;> exact ⟨rfl, rfl, rfl, rfl⟩
  all_goals cases h
  all_goals exact ⟨rfl, rfl, rfl, rfl⟩

/-- An admitted call on a cleared ring is about to write its frame from the start. -/
theorem Writer.Fresh.accept {fin : Bool} {cb : TagCircleBuffer} {readPos : Int}
    (hM : cb.maxLength = M) (hlt : M < 2147483648) (hread : 0 ≤ readPos ∧ readPos ≤ M)
    (hsize : call.message.length < 2147483640) (hpos : cb.writePos = 0)
    (hcount : fin = true → cb.msgWrite = 0)
    (hroom : ¬call.capacity cb.maxLength readPos cb.writePos <
      int32 (w.wrap (call.length w + 4 + 4))) :
    (Writer.accept w cb.maxLength cb.writePos call).Fresh M fin cb := by
  have hcap := writeCapacity_le (p := 0) hlt hread (by omega)
  -- there is room, so the message is short enough that nothing wraps
  rw [call.capacity_write, hM, hpos, call.length_eq hsize, realSize_eq _ hsize] at hroom
  have hfit : call.message.length + 8 < M := by omega
  have hend : advance M 0 (call.message.length + 8) = call.message.length + 8 := by
    rw [advance, if_pos (by omega)]
    omega
  -- and its bytes lie from the beginning of the ring
  have hstores : writeStores w M 0 call = some (((call.message.length + 8 : Nat) : Int),
      stores M 0 0 (frame call.message)) := by
    have h := writeStores_eq (w := w) call (Nat.zero_le M) hlt hfit
    rwa [hend] at h
  unfold Writer.accept
  simp only [hM, hpos, hstores]
  exact ⟨hpos, hcount, hfit, rfl, [], frame call.message, rfl, rfl, rfl⟩

/-- A finished frame is published at the start of the ring. -/
theorem Writer.Fresh.publish {fin : Bool} {cb : TagCircleBuffer} {m : List UInt8}
    {writePos : Int} (h : (Writer.copy m writePos []).Fresh M fin cb) :
    (Writer.loadMsgWrite m).Fresh M fin { cb with writePos := writePos } := by
  obtain ⟨-, hcount, hfit, rfl, done, rest, hframe, htodo, hdata⟩ := h
  have hrest : rest = [] := by
    cases rest with
    | nil => rfl
    | cons b rest => cases htodo
  subst hrest
  rw [List.append_nil] at hframe
  have hlen : done.length = m.length + 8 := by rw [← hframe, length_frame]
  refine ⟨⟨hfit, rfl, ?_⟩, hcount⟩
  rw [hframe, ← hlen]
  exact hdata

/-- One byte of the frame. -/
theorem Writer.Fresh.store {fin : Bool} {cb : TagCircleBuffer} {m : List UInt8} {writePos : Int}
    {i : Nat} {b : UInt8} {todo : List (Nat × UInt8)}
    (h : (Writer.copy m writePos ((i, b) :: todo)).Fresh M fin cb) :
    (Writer.copy m writePos todo).Fresh M fin { cb with data := Circular.store cb.data i b } := by
  obtain ⟨hpos, hcount, hfit, hend, done, rest, hframe, htodo, hdata⟩ := h
  cases rest with
  | nil => cases htodo
  | cons b' rest =>
    simp only [stores, List.cons.injEq, Prod.mk.injEq] at htodo
    obtain ⟨⟨rfl, rfl⟩, rfl⟩ := htodo
    have hlen : done.length + (rest.length + 1) = m.length + 8 := by
      rw [← length_frame, hframe, List.length_append, List.length_cons]
    refine ⟨hpos, hcount, hfit, hend, done ++ [b], rest, ?_, ?_, ?_⟩
    · rw [hframe, List.append_assoc, List.singleton_append]
    · rw [List.length_append, List.length_singleton]
    · dsimp only
      rw [List.length_append, List.length_singleton, readAt_store_succ _ _ _ (by omega), hdata]

/-- A step of a writer beside or behind `Clear`. -/
theorem Writer.Cleared.step {fin : Bool} (hM : s.ring.maxLength = M) (hlt : M < 2147483648)
    (hsize : call.message.length < 2147483640) (hcalls : s.writer.Calls M call)
    (hord : ∀ m, s.writer = .loadMsgWrite m → fin = false → s.ring.writePos = 0)
    (h : s.writer.Cleared M fin s.ring) (hstep : writerStep w s = some s') :
    s'.writer.Cleared M fin s'.ring := by
  obtain ⟨ring, writer, reader⟩ := s
  cases writer with
  | loadReadPos c =>
    cases hstep
    rcases h with h | h
    · exact .inl h
    · cases h
  | loadWritePos c readPos =>
    obtain ⟨rfl, hread⟩ := hcalls
    rcases h with ⟨hpos, hcount⟩ | h
    · simp only [writerStep] at hstep
      split at hstep
      · obtain rfl := Option.some.inj hstep
        exact .inl ⟨hpos, hcount⟩
      · rename_i hroom
        obtain rfl := Option.some.inj hstep
        exact .inl (Writer.Fresh.accept hM hlt hread hsize hpos hcount hroom)
    · cases h
  | copy m writePos todo =>
    rcases h with h | h
    · cases todo with
      | nil =>
        cases hstep
        exact .inl h.publish
      | cons c todo =>
        obtain ⟨i, b⟩ := c
        cases hstep
        exact .inl h.store
    · cases h
  | loadMsgWrite m =>
    cases hstep
    rcases h with ⟨hframed, hcount⟩ | h
    · -- `Clear` has ended: the position of the frame is not 0
      have hpos : ring.writePos = (m.length + 8 : Nat) := hframed.writePos_eq
      have hfin : fin = true := by
        cases fin with
        | true => rfl
        | false =>
          have hzero : ring.writePos = 0 := hord m rfl rfl
          omega
      exact .inl ⟨hframed, hfin, hcount hfin⟩
    · exact .inr h
  | storeMsgWrite m msgWrite =>
    cases hstep
    rcases h with ⟨hframed, hfin, rfl⟩ | ⟨hpos, hfin⟩
    · exact .inl ⟨⟨hframed.fits, hframed.writePos_eq, hframed.data_eq⟩, hfin, rfl⟩
    · subst hfin
      exact .inr ⟨hpos, fun h => absurd h (by decide)⟩
  | returned message => cases hstep
  | fault => cases hstep

/-- The call and the position a writer works with. -/
theorem Writer.Calls.step (hread : 0 ≤ s.ring.readPos ∧ s.ring.readPos ≤ M)
    (hcalls : s.writer.Calls M call) (hstep : writerStep w s = some s') :
    s'.writer.Calls M call := by
  obtain ⟨ring, writer, reader⟩ := s
  cases writer with
  -- the position loaded is inside the ring
  | loadReadPos c =>
    cases hstep
    exact ⟨hcalls, hread⟩
  | loadWritePos c readPos =>
    simp only [writerStep] at hstep
    split at hstep
    · obtain rfl := Option.some.inj hstep
      trivial
    -- from here on the call needs nothing more of it
    · obtain rfl := Option.some.inj hstep
      unfold Writer.accept
      split <;> trivial
  | copy m writePos todo =>
    cases todo with
    | nil => cases hstep; trivial
    | cons c todo => cases hstep; trivial
  | loadMsgWrite m => cases hstep; trivial
  | storeMsgWrite m msgWrite => cases hstep; trivial
  | returned message => cases hstep
  | fault => cases hstep

/-- An orderly step of the writer. -/
theorem Inv.writer (hlt : M < 2147483648) (hsize : call.message.length < 2147483640)
    (h : Inv M call s) (hord : orderly .writer s = true) (hstep : writerStep w s = some s') :
    Inv M call s' := by
  obtain ⟨hreader, hlen, hread, hmsg⟩ := writerStep_frame hstep
  have hM : s'.ring.maxLength = M := hlen.trans h.maxLength_eq
  have hcalls : s'.reader.other = false → s'.writer.Calls M call := by
    intro hother
    rw [hreader] at hother
    exact (h.calls hother).step (h.ok.readPos hother) hstep
  -- what the writer does to a cleared ring, for a reader that is in `Clear` or behind it
  have hcleared : ∀ fin : Bool, s.reader.other = false → (fin = false → s.reader.inClear = true) →
      s.writer.Cleared M fin s.ring → s'.writer.Cleared M fin s'.ring := by
    intro fin hother hfin hbefore
    refine hbefore.step h.maxLength_eq hlt hsize (h.calls hother) ?_ hstep
    intro m hm hnot
    simp only [orderly, hm, hfin hnot, Bool.not_true, Bool.false_or, beq_iff_eq] at hord
    exact hord
  have hsame : 0 ≤ s.ring.readPos ∧ s.ring.readPos ≤ M →
      0 ≤ s'.ring.readPos ∧ s'.ring.readPos ≤ M := by
    rw [hread]
    exact id
  refine ⟨hM, hcalls, ?_⟩
  have hok := h.ok
  rw [hreader]
  cases hpc : s.reader with
  | clearReadPos =>
    rw [hpc] at hok hcleared
    exact ⟨hsame hok.1, hcleared false rfl (fun _ => rfl) hok.2⟩
  | clearMsgRead =>
    rw [hpc] at hok hcleared
    exact ⟨hread ▸ hok.1, hcleared false rfl (fun _ => rfl) hok.2⟩
  | clearMsgWrite =>
    rw [hpc] at hok hcleared
    exact ⟨hread ▸ hok.1, hmsg ▸ hok.2.1, hcleared false rfl (fun _ => rfl) hok.2.2⟩
  | cleared =>
    rw [hpc] at hok hcleared
    exact ⟨hread ▸ hok.1, hmsg ▸ hok.2.1,
      hcleared true rfl (fun h => absurd h (by decide)) hok.2.2⟩
  | loadWritePos maxLength => rw [hpc] at hok; exact hsame hok
  | loadReadPos maxLength writePos => rw [hpc] at hok; exact hsame hok
  | copy phase maxLength readPos got todo => rw [hpc] at hok; exact hsame hok
  | loadMsgRead msgSize => trivial
  | storeMsgRead msgSize msgRead => trivial
  | returned ret => trivial
  | fault => trivial

/-! ### The reader's steps -/

/-- A writer that does not hold a position when `Clear` begins. -/
theorem Writer.cleared_of_free {writer : Writer} {cb : TagCircleBuffer}
    (h : writer.holdsWritePos = false) :
    writer.Cleared M false { cb with writePos := 0 } := by
  cases writer with
  | loadReadPos c => exact .inl ⟨rfl, fun h => absurd h (by decide)⟩
  | loadWritePos c readPos => exact .inl ⟨rfl, fun h => absurd h (by decide)⟩
  | copy m writePos todo => cases h
  | loadMsgWrite m => exact .inr ⟨rfl, rfl⟩
  | storeMsgWrite m msgWrite => exact .inr ⟨rfl, rfl⟩
  | returned message =>
    cases message with
    | none => exact .inl ⟨rfl, fun h => absurd h (by decide)⟩
    | some m => exact .inr ⟨rfl, fun h => absurd h (by decide)⟩
  | fault => exact .inl trivial

/-- The counters of the other side and the read position say nothing about the writer. -/
theorem Writer.Cleared.of_counts {fin : Bool} {writer : Writer} {cb cb' : TagCircleBuffer}
    (h : writer.Cleared M fin cb) (hpos : cb'.writePos = cb.writePos)
    (hcount : cb'.msgWrite = cb.msgWrite) (hdata : cb'.data = cb.data) :
    writer.Cleared M fin cb' := by
  have hframed : ∀ {m : List UInt8}, Framed M m cb → Framed M m cb' := by
    intro m h
    exact ⟨h.fits, hpos.trans h.writePos_eq, by rw [hdata]; exact h.data_eq⟩
  rcases h with h | h
  · -- the writer had loaded no position when `Clear` began
    left
    cases writer with
    | loadReadPos c => exact ⟨hpos.trans h.1, fun hf => hcount.trans (h.2 hf)⟩
    | loadWritePos c readPos => exact ⟨hpos.trans h.1, fun hf => hcount.trans (h.2 hf)⟩
    | copy m writePos todo =>
      obtain ⟨hzero, hc, hfit, hend, done, rest, hframe, htodo, hdone⟩ := h
      exact ⟨hpos.trans hzero, fun hf => hcount.trans (hc hf), hfit, hend, done, rest, hframe,
        htodo, by rw [hdata]; exact hdone⟩
    | loadMsgWrite m => exact ⟨hframed h.1, fun hf => hcount.trans (h.2 hf)⟩
    | storeMsgWrite m msgWrite => exact ⟨hframed h.1, h.2⟩
    | returned message =>
      cases message with
      | none => exact ⟨hpos.trans h.1, fun hf => hcount.trans (h.2 hf)⟩
      | some m => exact ⟨hframed h.1, h.2.1, hcount.trans h.2.2⟩
    | fault => trivial
  · -- it had stored its position, and what is left is the counter
    right
    cases writer with
    | loadMsgWrite m => exact ⟨hpos.trans h.1, h.2⟩
    | storeMsgWrite m msgWrite => exact ⟨hpos.trans h.1, h.2⟩
    | returned message =>
      cases message with
      | none => cases h
      | some m => exact ⟨hpos.trans h.1, fun hf => hcount.trans (h.2 hf)⟩
    | loadReadPos c => cases h
    | loadWritePos c readPos => cases h
    | copy m writePos todo => cases h
    | fault => cases h

/-- The reader at the start of a copy. -/
theorem Reader.ok_start {writer : Writer} {cb : TagCircleBuffer} (phase : Phase) (maxLength : Nat)
    (loads : Option (Int × List Nat)) (h : 0 ≤ cb.readPos ∧ cb.readPos ≤ M) :
    (Reader.start phase maxLength loads).Ok M writer cb := by
  cases loads with
  | none => trivial
  | some r => exact h

/-- `Clear` ends on a ring whose counter the writer is not about to touch. -/
theorem Writer.Cleared.finish {writer : Writer} {cb : TagCircleBuffer}
    (h : writer.Cleared M false cb) (hord : writer.mayEnd cb = true) :
    writer.Cleared M true { cb with msgWrite := 0 } := by
  rcases h with h | h
  -- nothing of the call was published before
  · left
    cases writer with
    | loadReadPos c => exact ⟨h.1, fun _ => rfl⟩
    | loadWritePos c readPos => exact ⟨h.1, fun _ => rfl⟩
    | copy m writePos todo =>
      obtain ⟨hpos, -, hrest⟩ := h
      exact ⟨hpos, fun _ => rfl, hrest⟩
    | loadMsgWrite m =>
      exact ⟨⟨h.1.fits, h.1.writePos_eq, h.1.data_eq⟩, fun _ => rfl⟩
    | storeMsgWrite m msgWrite => exact absurd h.2.1 (by decide)
    | returned message =>
      cases message with
      | none => exact ⟨h.1, fun _ => rfl⟩
      | some m => exact absurd h.2.1 (by decide)
    | fault => trivial
  -- or its position was: then the counter is still to come
  · right
    cases writer with
    | loadReadPos c => cases h
    | loadWritePos c readPos => cases h
    | copy m writePos todo => cases h
    | loadMsgWrite m => exact absurd h.1 (by simpa [Writer.mayEnd] using hord)
    | storeMsgWrite m msgWrite => cases hord
    | returned message =>
      cases message with
      | none => cases h
      | some m => exact ⟨h.1, fun _ => rfl⟩
    | fault => cases h

/-- An orderly step of the reader. -/
theorem Inv.reader (h : Inv M call s) (hord : orderly .reader s = true)
    (hstep : readerStep w s = some s') : Inv M call s' := by
  obtain ⟨ring, writer, reader⟩ := s
  have hM := h.maxLength_eq
  have hok := h.ok
  have hno : ∀ {p : Prop}, true = false → p := fun h => absurd h (by decide)
  cases reader with
  | loadWritePos maxLength =>
    cases hstep
    exact ⟨hM, fun _ => h.calls rfl, hok⟩
  | loadReadPos maxLength writePos =>
    simp only [readerStep] at hstep
    split at hstep
    · -- nothing to read
      obtain rfl := Option.some.inj hstep
      exact ⟨hM, hno, trivial⟩
    · obtain rfl := Option.some.inj hstep
      exact ⟨hM, fun _ => h.calls rfl, Reader.ok_start _ _ _ hok⟩
  | copy phase maxLength readPos got todo =>
    cases todo with
    | cons i todo =>
      cases hstep
      exact ⟨hM, fun _ => h.calls rfl, hok⟩
    | nil =>
      cases phase with
      | header =>
        simp only [readerStep] at hstep
        split at hstep
        · -- the caller's buffer is too small
          obtain rfl := Option.some.inj hstep
          exact ⟨hM, hno, trivial⟩
        · generalize realReadLoads _ _ _ _ = loads at hstep
          obtain rfl := Option.some.inj hstep
          exact ⟨hM, fun _ => h.calls rfl, Reader.ok_start _ _ _ hok⟩
      | payload msgSize =>
        cases hstep
        exact ⟨hM, fun _ => h.calls rfl, Reader.ok_start _ _ _ hok⟩
      | check msgSize data =>
        simp only [readerStep] at hstep
        split at hstep
        · obtain rfl := Option.some.inj hstep
          exact ⟨hM, hno, trivial⟩
        · -- the check word is wrong: `Clear` begins, and no writer holds a write position
          rename_i hsum
          obtain rfl := Option.some.inj hstep
          have hfree : writer.holdsWritePos = false := by simpa [orderly, hsum] using hord
          exact ⟨hM, fun _ => h.calls rfl, hok, Writer.cleared_of_free hfree⟩
  | loadMsgRead msgSize =>
    cases hstep
    exact ⟨hM, hno, trivial⟩
  | storeMsgRead msgSize msgRead =>
    cases hstep
    exact ⟨hM, hno, trivial⟩
  | clearReadPos =>
    cases hstep
    exact ⟨hM, fun _ => h.calls rfl, rfl, hok.2.of_counts rfl rfl rfl⟩
  | clearMsgRead =>
    cases hstep
    exact ⟨hM, fun _ => h.calls rfl, hok.1, rfl, hok.2.of_counts rfl rfl rfl⟩
  | clearMsgWrite =>
    cases hstep
    exact ⟨hM, fun _ => h.calls rfl, hok.1, hok.2.1, hok.2.2.finish hord⟩
  | cleared => cases hstep
  | returned ret => cases hstep
  | fault => cases hstep

/-! ### Whole runs -/

/-- An orderly step. -/
theorem Inv.step (hlt : M < 2147483648) (hsize : call.message.length < 2147483640) {t : Thread}
    (h : Inv M call s) (hord : orderly t s = true) (hstep : step w t s = some s') :
    Inv M call s' := by
  cases t with
  | writer => exact h.writer hlt hsize hord hstep
  | reader => exact h.reader hord hstep

/-- An orderly run. -/
theorem Inv.run (hlt : M < 2147483648) (hsize : call.message.length < 2147483640)
    {order : List Thread} (h : Inv M call s) (hord : orderlyRun w order s = true)
    (hrun : run w order s = some s') : Inv M call s' := by
  induction order generalizing s with
  | nil =>
    obtain rfl := Option.some.inj hrun
    exact h
  | cons t ts ih =>
    obtain ⟨s₁, hstep, hrest⟩ := Option.bind_eq_some_iff.1 hrun
    simp only [orderlyRun, hstep, Option.all_some, Bool.and_eq_true] at hord
    exact ih (h.step hlt hsize hord.1 hstep) hord.2 hrest

/-- Once both calls have returned, whole frames stand in the ring and its counters count them. -/
theorem Inv.recovered (h : Inv M call s) (hreader : s.reader = .cleared)
    {message : Option (List UInt8)} (hwriter : s.writer = .returned message) :
    Recovered M s := by
  have hok := h.ok
  rw [hreader, hwriter] at hok
  obtain ⟨hread, hmsgRead, hok⟩ := hok
  -- the ring is empty, or one frame stands at its start
  have hempty : s.ring.writePos = 0 → s.ring.msgWrite = 0 → Recovered M s := by
    intro hpos hcount
    refine ⟨[], ⟨⟨0, 0, hread, hpos, Nat.zero_le M, Nat.zero_le M, ?_⟩, ?_⟩, ?_⟩
    · rfl
    · rw [hcount, hmsgRead]
      rfl
    · intro m hm
      cases hm
  cases message with
  | none =>
    rcases hok with ⟨hpos, hcount⟩ | hlate
    · exact hempty hpos (hcount rfl)
    · cases hlate
  | some m =>
    rcases hok with ⟨hframed, -, hcount⟩ | ⟨hpos, hcount⟩
    · have hfits := hframed.fits
      have hdist : distance M 0 (m.length + 8) = m.length + 8 := by
        rw [distance, if_pos (Nat.zero_le _)]
        rfl
      refine ⟨[m], ⟨⟨0, m.length + 8, hread, hframed.writePos_eq, Nat.zero_le M, by omega, ?_⟩, ?_⟩,
        ?_⟩
      · rw [hdist, hframed.data_eq, frames_cons, frames_nil, List.append_nil]
      · rw [hcount, hmsgRead]
        rfl
      · intro m' hm
        obtain rfl := List.mem_singleton.1 hm
        exact hwriter
    · exact hempty hpos (hcount rfl)

end Steps

/-- Whatever the bytes and the positions in the ring: after a run whose steps are all orderly, with
    both calls returned and the ring cleared, it is empty or holds whole frames that were written,
    and the counters count them. -/
theorem run_recovered (w : SizeT) (cb : TagCircleBuffer) (M : Nat) (call : WriteCall)
    (maxLength : Nat) (order : List Thread) (s : Recovery) (message : Option (List UInt8))
    (hM : cb.maxLength = M) (hlt : M < 2147483648)
    (hread : 0 ≤ cb.readPos ∧ cb.readPos ≤ M) (hsize : call.message.length < 2147483640)
    (hord : orderlyRun w order (start cb call maxLength) = true)
    (hrun : run w order (start cb call maxLength) = some s)
    (hreader : s.reader = .cleared) (hwriter : s.writer = .returned message) :
    Recovered M s := by
  have hstart : Inv M call (start cb call maxLength) := ⟨hM, fun _ => rfl, hread⟩
  exact (hstart.run hlt hsize hord hrun).recovered hreader hwriter

/-- A ring of 32 bytes in which an empty message has lost its check word. -/
def broken : TagCircleBuffer where
  maxLength := 32
  readPos := 0
  writePos := 8
  msgWrite := 1
  msgRead := 0
  data := fun _ => 0

/-- `Read` on that ring, up to `Clear`. -/
def readBroken : List Thread := List.replicate 12 .reader

/-- A write that loads its position inside `Clear` and stores it behind it. -/
def inside : List Thread :=
  readBroken ++ [.reader, .writer, .writer] ++ List.replicate 3 .reader ++
    List.replicate 12 .writer

/-- A write that loads its position before `Clear` and stores it behind it. -/
def overtaken : List Thread :=
  [.writer, .writer] ++ readBroken ++ List.replicate 4 .reader ++ List.replicate 12 .writer

theorem run_recovered_inside :
    ∃ s, run .eight inside (start broken (.write [65]) 16) = some s ∧ Recovered 32 s := by
  have hrun : (run .eight inside (start broken (.write [65]) 16)).map
      (fun s => (s.reader, s.writer)) = some (.cleared, .returned (some [65])) := by
    decide +kernel
  obtain ⟨s, hs, hpcs⟩ := Option.map_eq_some_iff.1 hrun
  obtain ⟨hreader, hwriter⟩ := Prod.mk.inj hpcs
  exact ⟨s, hs, run_recovered .eight broken 32 (.write [65]) 16 inside s (some [65]) rfl (by decide)
    (by decide) (by decide) (by decide +kernel) hs hreader hwriter⟩

/-- The ring then begins with bytes that are no frame. -/
theorem not_recovered :
    ∃ s, run .eight overtaken (start broken (.write [65]) 16) = some s ∧
      s.reader = .cleared ∧ s.writer = .returned (some [65]) ∧ ¬Recovered 32 s := by
  have hrun : (run .eight overtaken (start broken (.write [65]) 16)).map
      (fun s => ((s.reader, s.writer), s.ring.readPos, s.ring.writePos,
        s.ring.msgWrite - s.ring.msgRead, s.ring.data 0)) =
      some ((.cleared, .returned (some [65])), 0, 17, 1, 0) := by
    decide +kernel
  obtain ⟨s, hs, hfields⟩ := Option.map_eq_some_iff.1 hrun
  simp only [Prod.mk.injEq] at hfields
  obtain ⟨⟨hreader, hwriter⟩, hread, hwrite, hnum, hzero⟩ := hfields
  refine ⟨s, hs, hreader, hwriter, ?_⟩
  rintro ⟨q, ⟨⟨r, p, hr, hp, -, -, hdata⟩, hcount⟩, -⟩
  -- one message is counted, but the first of the 17 bytes is not its length
  obtain rfl : r = 0 := by omega
  obtain rfl : p = 17 := by omega
  have hone : q.length = 1 := by omega
  obtain ⟨m, rfl⟩ := List.length_eq_one_iff.1 hone
  rw [frames_cons, frames_nil, List.append_nil] at hdata
  have hlen : m.length + 8 = 17 := by
    rw [← length_frame, ← hdata, length_readAt]
    rfl
  have hnine : m.length = 9 := by omega
  have hhead := congrArg List.head? hdata
  have hfirst : (readAt s.ring.data 32 0 (distance 32 0 17)).head? = some (s.ring.data 0) := rfl
  have hlength : (toLE 4 9 ++ (m ++ toLE 4 checkData)).head? = some 9 := rfl
  rw [hfirst, hzero, frame, hnine, hlength] at hhead
  exact absurd hhead (by decide)

end Recovery

end XGame3.CircleBuffer
