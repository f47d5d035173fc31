import XGame3.Native.CircleBufferThreads

/-!
# `RealWrite` and `RealRead` as circular transfers

`realWriteStores` and `realReadLoads` list the byte accesses that `realWrite`
and `realRead` perform (`realWrite_eq_stores`, `realRead_eq_loads`).  With a
position in `[0, maxLength]` and fewer bytes than the ring has they do not fault
and walk the cells of one circular run, so the whole calls are
`Circular.writeAt` and `Circular.readAt` at that raw position.  Everything above
uses only these equations, the admission tests as `Circular.distance`, and the
frame layout.

## Key results

- `realWriteStores_eq` / `realReadLoads_eq`: the accesses, wherever they wrap
- `segmentStores_eq`: a gathered copy stores the concatenation
- `realRead_eq`: the copy out
- `writeCapacity_eq` / `readSize_eq`: the tests on raw positions
-/

namespace XGame3.CircleBuffer

open FixedInt LittleEndian Circular

/-! ## Calls and their byte accesses -/

section Accesses

variable (cb : TagCircleBuffer)

/-- A copy into the ring is its stores, or a fault. -/
theorem copyIn_eq_stores (dst : Int) (src : List UInt8) (off n : Int) :
    copyIn cb dst src off n = (copyInStores cb.maxLength dst src off n).map fun todo =>
      { cb with data := storeAll cb.data todo } := by
  unfold copyIn copyInStores
  split
  · rw [Option.map_some, blit_eq_storeAll]
  · rfl

/-- A copy out of the ring is its loads, or a fault. -/
theorem copyOut_eq_loads (src : Int) (dst : List UInt8) (off n : Int) :
    copyOut cb src dst off n = (copyOutLoads cb.maxLength src dst.length off n).map fun todo =>
      dst.take off.toNat ++ todo.map cb.data ++ dst.drop (off + n).toNat := by
  unfold copyOut copyOutLoads
  split
  · rw [Option.map_some, List.map_map]
    rfl
  · rfl

/-- A copy that does not fault lies inside its buffer. -/
theorem length_copyOutLoads {maxLength src : Int} {dstLength : Nat} {off n : Int}
    {todo : List Nat} (h : copyOutLoads maxLength src dstLength off n = some todo) :
    todo.length = n.toNat ∧ 0 ≤ off ∧ 0 ≤ n ∧ off + n ≤ dstLength := by
  unfold copyOutLoads at h
  split at h
  · rename_i hbounds
    simp only [Option.some.injEq] at h
    subst h
    exact ⟨by rw [List.length_map, List.length_range], hbounds.2.1, hbounds.2.2.1,
      hbounds.2.2.2.2⟩
  · exact nomatch h

/-- `RealWrite` performs its stores. -/
theorem realWrite_eq_stores (writePos : Int) (data : List UInt8) (length : Int) :
    realWrite cb writePos data length =
      (realWriteStores cb.maxLength writePos data length).map fun r =>
        (r.1, { cb with data := storeAll cb.data r.2 }) := by
  unfold realWrite realWriteStores
  generalize min (int32 (cb.maxLength - writePos)) length = first
  have hhead : (if first > 0 then copyIn cb writePos data 0 first else some cb) =
      (if first > 0 then copyInStores cb.maxLength writePos data 0 first else some []).map
        fun todo => { cb with data := storeAll cb.data todo } := by
    split
    · exact copyIn_eq_stores ..
    · rfl
  simp only [hhead, Option.bind_eq_bind]
  -- the first copy faults, or its stores come before those of the second
  cases (if first > 0 then copyInStores cb.maxLength writePos data 0 first else some []) with
  | none => rfl
  | some head =>
    simp only [Option.map_some, Option.bind_some]
    split
    · rw [copyIn_eq_stores]
      cases copyInStores cb.maxLength 0 data first (int32 (length - first)) with
      | none => rfl
      | some tail => simp only [Option.map_some, Option.bind_some, storeAll_append]
    · rfl

/-- `RealRead` performs its loads. -/
theorem realRead_eq_loads (readPos : Int) (data : List UInt8) (length : Int) :
    realRead cb readPos data length =
      (realReadLoads cb.maxLength readPos data.length length).map fun r =>
        (r.1, r.2.map cb.data ++ data.drop r.2.length) := by
  unfold realRead realReadLoads
  generalize hfirst : min (int32 (cb.maxLength - readPos)) length = first
  by_cases hpos : first > 0
  · -- the second copy goes behind the bytes of the first
    simp only [hpos, ↓reduceIte, Option.bind_eq_bind, copyOut_eq_loads]
    cases hhead : copyOutLoads cb.maxLength readPos data.length 0 first with
    | none => rfl
    | some head =>
      obtain ⟨hlen, -, -, hle⟩ := length_copyOutLoads hhead
      simp only [Option.map_some, Option.bind_some, Int.toNat_zero, List.take_zero,
        List.nil_append, Int.zero_add, ← hlen]
      have hsize : (head.map cb.data ++ data.drop head.length).length = data.length := by
        simp only [List.length_append, List.length_map, List.length_drop]
        omega
      split
      · rw [hsize]
        cases htail : copyOutLoads cb.maxLength 0 data.length first (int32 (length - first)) with
        | none => rfl
        | some tail =>
          obtain ⟨hlen', -, hn, -⟩ := length_copyOutLoads htail
          have hto : (first + int32 (length - first)).toNat = head.length + tail.length := by omega
          simp only [Option.map_some, Option.bind_some, hto]
          rw [List.take_left' (by rw [List.length_map]), ← List.drop_drop,
            List.drop_left' (by rw [List.length_map]), List.drop_drop, List.map_append,
            List.length_append]
      · rfl
  · simp only [hpos, ↓reduceIte, Option.bind_eq_bind, Option.bind_some, copyOut_eq_loads]
    split
    · cases htail : copyOutLoads cb.maxLength 0 data.length first (int32 (length - first)) with
      | none => rfl
      | some tail =>
        obtain ⟨hlen', hoff, hn, -⟩ := length_copyOutLoads htail
        -- the first copy is skipped at the end of the ring
        have h0 : first = 0 := by omega
        subst h0
        simp only [Option.map_some, Option.bind_some, Int.toNat_zero, List.take_zero,
          List.nil_append, Int.zero_add, ← hlen']
    · simp only [Option.map_some, List.map_nil, List.length_nil, List.drop_zero, List.nil_append]

/-- The segments of a message are stored one after the other. -/
theorem writeSegments_eq_stores (iov : List (List UInt8)) (cb : TagCircleBuffer) (writePos : Int) :
    writeSegments cb writePos iov = (segmentStores cb.maxLength writePos iov).map fun r =>
      (r.1, { cb with data := storeAll cb.data r.2 }) := by
  induction iov generalizing cb writePos with
  | nil => rfl
  | cons seg iov ih =>
    simp only [writeSegments, segmentStores, realWrite_eq_stores, Option.bind_eq_bind]
    cases realWriteStores cb.maxLength writePos seg (int32 seg.length) with
    | none => rfl
    | some head =>
      simp only [Option.map_some, Option.bind_some, ih]
      cases segmentStores cb.maxLength head.1 iov with
      | none => rfl
      | some tail => simp only [Option.map_some, Option.bind_some, storeAll_append]

/-- One segment is one copy. -/
theorem segmentStores_singleton (maxLength writePos : Int) (seg : List UInt8) :
    segmentStores maxLength writePos [seg] =
      realWriteStores maxLength writePos seg (int32 seg.length) := by
  simp only [segmentStores, Option.bind_eq_bind]
  cases realWriteStores maxLength writePos seg (int32 seg.length) with
  | none => rfl
  | some head => simp only [Option.bind_some, List.append_nil]

/-- Header, message and trailer are stored one after the other, whichever call copies the
    message. -/
theorem frame_eq_stores (header : List UInt8) (length : Int)
    (copy : TagCircleBuffer → Int → Option (Int × TagCircleBuffer))
    (copyStores : Int → Option (Int × List (Nat × UInt8)))
    (hcopy : ∀ (cb' : TagCircleBuffer) (p : Int), cb'.maxLength = cb.maxLength →
      copy cb' p = (copyStores p).map fun r =>
        (r.1, { cb' with data := storeAll cb'.data r.2 })) :
    ((realWrite cb cb.writePos header 4).bind fun head => (copy head.2 head.1).bind fun body =>
      (realWrite body.2 body.1 (toLE 4 checkData) 4).bind fun tail =>
        some (length, { tail.2 with
          writePos := tail.1, msgWrite := int32 (tail.2.msgWrite + 1) })) =
      ((realWriteStores cb.maxLength cb.writePos header 4).bind fun head =>
        (copyStores head.1).bind fun body =>
          (realWriteStores cb.maxLength body.1 (toLE 4 checkData) 4).bind fun tail =>
            some (tail.1, head.2 ++ (body.2 ++ tail.2))).map fun r =>
        (length, { cb with
          data := storeAll cb.data r.2, writePos := r.1,
          msgWrite := int32 (cb.msgWrite + 1) }) := by
  -- the header, then the message, then the check data, each where the one before it ended
  rw [realWrite_eq_stores]
  cases realWriteStores cb.maxLength cb.writePos header 4 with
  | none => rfl
  | some head =>
    rw [Option.map_some, Option.bind_some, Option.bind_some]
    dsimp only
    rw [hcopy { cb with data := storeAll cb.data head.2 } head.1 rfl]
    cases copyStores head.1 with
    | none => rfl
    | some body =>
      rw [Option.map_some, Option.bind_some, Option.bind_some, realWrite_eq_stores]
      dsimp only
      cases realWriteStores cb.maxLength body.1 (toLE 4 checkData) 4 with
      | none => rfl
      | some tail =>
        rw [Option.map_some, Option.bind_some, Option.bind_some, Option.map_some, storeAll_append,
          storeAll_append]

/-- `Write` performs the stores of its frame once it is admitted. -/
theorem write_eq_stores (w : SizeT) (m : List UInt8) :
    write w cb m =
      if writeCapacity cb.maxLength cb.readPos cb.writePos <
        int32 (w.wrap ((m.length : Int) + 4 + 4))
      then some (-1, cb)
      else (writeStores w cb.maxLength cb.writePos (.write m)).map fun r =>
        (int32 m.length, { cb with
          data := storeAll cb.data r.2, writePos := r.1,
          msgWrite := int32 (cb.msgWrite + 1) }) := by
  by_cases hfull : writeCapacity cb.maxLength cb.readPos cb.writePos <
      int32 (w.wrap ((m.length : Int) + 4 + 4))
  -- no room
  · simp only [write, hfull, ↓reduceIte]
  -- with room the frame is stored around the one segment
  · simp only [write, writeStores, hfull, ↓reduceIte, WriteCall.length, WriteCall.segments,
      segmentStores_singleton, Option.bind_eq_bind]
    apply frame_eq_stores cb (toLE w.bytes m.length) (int32 m.length)
      (fun cb' p => realWrite cb' p m (int32 m.length))
      (fun p => realWriteStores cb.maxLength p m (int32 m.length))
    intro cb' p hlength
    rw [realWrite_eq_stores, hlength]

/-- `WriteV` performs the stores of its frame once it is admitted. -/
theorem writeV_eq_stores (w : SizeT) (iov : List (List UInt8)) :
    writeV w cb iov =
      if writeVCapacity cb.maxLength cb.readPos cb.writePos <
        int32 (w.wrap ((iovLength w iov : Int) + 4 + 4))
      then some (-1, cb)
      else (writeStores w cb.maxLength cb.writePos (.writeV iov)).map fun r =>
        (int32 (iovLength w iov), { cb with
          data := storeAll cb.data r.2, writePos := r.1,
          msgWrite := int32 (cb.msgWrite + 1) }) := by
  by_cases hfull : writeVCapacity cb.maxLength cb.readPos cb.writePos <
      int32 (w.wrap ((iovLength w iov : Int) + 4 + 4))
  -- no room
  · simp only [writeV, hfull, ↓reduceIte]
  -- with room the frame is stored around the segments
  · simp only [writeV, writeStores, hfull, ↓reduceIte, WriteCall.length, WriteCall.segments,
      Option.bind_eq_bind]
    apply frame_eq_stores cb (toLE w.bytes (iovLength w iov)) (int32 (iovLength w iov))
      (fun cb' p => writeSegments cb' p iov) (fun p => segmentStores cb.maxLength p iov)
    intro cb' p hlength
    rw [writeSegments_eq_stores, hlength]

/-- Either call performs the stores of its frame once it is admitted. -/
theorem WriteCall.perform_eq_stores (w : SizeT) (call : WriteCall) :
    call.perform w cb =
      if call.capacity cb.maxLength cb.readPos cb.writePos <
        int32 (w.wrap ((call.length w : Int) + 4 + 4))
      then some (-1, cb)
      else (writeStores w cb.maxLength cb.writePos call).map fun r =>
        (int32 (call.length w), { cb with
          data := storeAll cb.data r.2, writePos := r.1,
          msgWrite := int32 (cb.msgWrite + 1) }) := by
  cases call with
  | write m => exact write_eq_stores cb w m
  | writeV iov => exact writeV_eq_stores cb w iov

end Accesses

/-! ## Copies at a raw position -/

section Positions

variable {M p n : Nat}

/-- A copy inside its bounds stores every byte once. -/
theorem copyInStores_eq {d o : Nat} {src : List UInt8} (hdst : d + n ≤ M)
    (hsrc : o + n ≤ src.length) :
    copyInStores M d src o n = some (((src.drop o).take n).mapIdx fun k b => (d + k, b)) := by
  unfold copyInStores
  rw [if_pos (by omega)]
  simp only [Int.toNat_natCast]

/-- A copy inside its bounds loads every byte once. -/
theorem copyOutLoads_eq {s o l : Nat} (hsrc : s + n ≤ M) (hdst : o + n ≤ l) :
    copyOutLoads M s l o n = some ((List.range n).map fun k => s + k) := by
  unfold copyOutLoads
  rw [if_pos (by omega)]
  simp only [Int.toNat_natCast]

/-- A run that fits before the end is one copy. -/
theorem split_of_fit (hfit : p + n ≤ M) (hlt : M < 2147483648) :
    min (int32 ((M : Int) - p)) (n : Int) = n ∧ ¬ int32 ((n : Int) - n) > 0 := by
  rw [int32_of_isInt32 (x := (M : Int) - p) (by omega), int32_of_isInt32 (x := (n : Int) - n)
    (by omega)]
  omega

/-- Of a run that crosses the end `M - p` bytes are copied there, the rest at the start. -/
theorem split_of_wrap (hwrap : ¬ p + n ≤ M) (hp : p ≤ M) (hn : p + n ≤ 2 * M)
    (hlt : M < 2147483648) :
    min (int32 ((M : Int) - p)) (n : Int) = ((M - p : Nat) : Int) ∧
      int32 ((n : Int) - (M - p : Nat)) = ((n - (M - p) : Nat) : Int) := by
  rw [int32_of_isInt32 (x := (M : Int) - p) (by omega),
    int32_of_isInt32 (x := (n : Int) - (M - p : Nat)) (by omega)]
  omega

/-- The stores of `RealWrite` walk the run of `n` cells at `p`. -/
theorem realWriteStores_eq (n : Nat) (src : List UInt8) (hp : p ≤ M) (hn : n < M)
    (hlt : M < 2147483648) (hsrc : n ≤ src.length) :
    realWriteStores M p src n =
      some (((advance M p n : Nat) : Int), stores M p 0 (src.take n)) := by
  have hlen : (src.take n).length = n := List.length_take_of_le hsrc
  unfold realWriteStores
  by_cases hfit : p + n ≤ M
  · -- the whole run fits before the end
    obtain ⟨hfirst, hrest⟩ := split_of_fit hfit hlt
    have hhead : (if (n : Int) > 0 then copyInStores M p src 0 n else some []) =
        some (stores M p 0 (src.take n)) := by
      rw [stores_of_fit _ _ (by omega)]
      split
      · exact copyInStores_eq (o := 0) hfit (by omega)
      · rw [show n = 0 by omega, List.take_zero, List.mapIdx_nil]
    simp only [hfirst, hhead, Option.bind_eq_bind, Option.bind_some, hrest, ↓reduceIte]
    rw [int32_of_isInt32 (by omega), advance, if_pos hfit]
    rfl
  · -- the run crosses the end: `M - p` bytes there, the rest at the start
    obtain ⟨hfirst, hrest⟩ := split_of_wrap hfit hp (by omega) hlt
    have hsplit : src.take n = src.take (M - p) ++ (src.drop (M - p)).take (n - (M - p)) := by
      rw [← List.take_add]
      congr 1
      omega
    have hheadLen : (src.take (M - p)).length = M - p := List.length_take_of_le (by omega)
    have hhead : (if ((M - p : Nat) : Int) > 0 then copyInStores M p src 0 (M - p : Nat)
        else some []) = some (stores M p 0 (src.take (M - p))) := by
      rw [stores_of_fit _ _ (by omega)]
      split
      · exact copyInStores_eq (o := 0) (by omega) (by omega)
      · rw [show M - p = 0 by omega, List.take_zero, List.mapIdx_nil]
    have htail : copyInStores M 0 src (M - p : Nat) (n - (M - p) : Nat) =
        some (stores M p (M - p) ((src.drop (M - p)).take (n - (M - p)))) := by
      rw [stores_of_wrap _ _ (by omega), show p + (M - p) - M = 0 by omega]
      exact copyInStores_eq (d := 0) (by omega) (by omega)
    simp only [hfirst, hhead, Option.bind_eq_bind, Option.bind_some, hrest, htail]
    rw [if_pos (by omega), hsplit, stores_append, hheadLen, Nat.zero_add, advance, if_neg hfit,
      show n - (M - p) = p + n - M by omega]

/-- The loads of `RealRead` walk the run of `n` cells at `p`. -/
theorem realReadLoads_eq {l : Nat} (hp : p ≤ M) (hn : p + n ≤ 2 * M) (hlt : M < 2147483648)
    (hdst : n ≤ l) :
    realReadLoads M p l n = some (((advance M p n : Nat) : Int), slots M p 0 n) := by
  unfold realReadLoads
  by_cases hfit : p + n ≤ M
  · -- the whole run is before the end
    obtain ⟨hfirst, hrest⟩ := split_of_fit hfit hlt
    have hhead : (if (n : Int) > 0 then copyOutLoads M p l 0 n else some []) =
        some (slots M p 0 n) := by
      rw [slots_of_fit _ _ (by omega)]
      split
      · exact copyOutLoads_eq (o := 0) hfit (by omega)
      · rw [show n = 0 by omega, List.range_zero, List.map_nil]
    simp only [hfirst, hhead, Option.bind_eq_bind, Option.bind_some, hrest, ↓reduceIte]
    rw [int32_of_isInt32 (by omega), advance, if_pos hfit]
    rfl
  · -- the run crosses the end
    obtain ⟨hfirst, hrest⟩ := split_of_wrap hfit hp hn hlt
    have hhead : (if ((M - p : Nat) : Int) > 0 then copyOutLoads M p l 0 (M - p : Nat)
        else some []) = some (slots M p 0 (M - p)) := by
      rw [slots_of_fit _ _ (by omega)]
      split
      · exact copyOutLoads_eq (o := 0) (by omega) (by omega)
      · rw [show M - p = 0 by omega, List.range_zero, List.map_nil]
    have htail : copyOutLoads M 0 l (M - p : Nat) (n - (M - p) : Nat) =
        some (slots M p (M - p) (n - (M - p))) := by
      rw [slots_of_wrap _ _ (by omega), show p + (M - p) - M = 0 by omega]
      exact copyOutLoads_eq (s := 0) (by omega) (by omega)
    have hsplit : slots M p 0 n = slots M p 0 (M - p) ++ slots M p (M - p) (n - (M - p)) := by
      rw [show n = (M - p) + (n - (M - p)) by omega, slots_add, Nat.zero_add,
        Nat.add_sub_cancel_left]
    simp only [hfirst, hhead, Option.bind_eq_bind, Option.bind_some, hrest, htail]
    rw [if_pos (by omega), hsplit, advance, if_neg hfit, show n - (M - p) = p + n - M by omega]

/-- The stores of the copy loop walk one run. -/
theorem segmentStores_eq (iov : List (List UInt8)) (hp : p ≤ M) (hn : iov.flatten.length < M)
    (hlt : M < 2147483648) :
    segmentStores M p iov =
      some (((advance M p iov.flatten.length : Nat) : Int), stores M p 0 iov.flatten) := by
  -- on the segments, each starting where the one before it ended
  induction iov generalizing p with
  | nil => simp only [segmentStores, List.flatten_nil, List.length_nil, advance_zero hp, stores]
  | cons seg iov ih =>
    simp only [List.flatten_cons, List.length_append] at hn ⊢
    have hseg := realWriteStores_eq seg.length seg hp (by omega) hlt (Nat.le_refl _)
    rw [List.take_length] at hseg
    have hrec := ih (advance_le hp (show seg.length ≤ M by omega)) (by omega)
    simp only [segmentStores, int32_of_isInt32 (show IsInt32 (seg.length : Int) by omega), hseg,
      Option.bind_eq_bind, Option.bind_some, hrec]
    rw [advance_advance hp (by omega), stores_append, stores_advance hp _ _ (by omega),
      Nat.add_zero, Nat.zero_add]

end Positions

/-- `cb` is a ring of `M` bytes. -/
structure HasSize (cb : TagCircleBuffer) (M : Nat) : Prop where
  maxLength_eq : cb.maxLength = M
  pos : 0 < M
  lt : M < 2147483648

section Rings

variable {cb : TagCircleBuffer} {M p n : Nat}

/-- `RealRead` of `n` bytes is a circular read. -/
theorem realRead_eq (n : Nat) (dst : List UInt8) (hcb : HasSize cb M) (hp : p ≤ M)
    (hn : p + n ≤ 2 * M) (hdst : n ≤ dst.length) :
    realRead cb p dst n =
      some (((advance M p n : Nat) : Int), readAt cb.data M p n ++ dst.drop n) := by
  rw [realRead_eq_loads, hcb.maxLength_eq, realReadLoads_eq hp hn hcb.lt hdst, Option.map_some,
    map_slots, length_slots]

/-! ## Tests on raw positions -/

variable {r u : Nat}

/-- The room is what is not used, less the byte that keeps full from empty. -/
theorem writeCapacity_eq (hr : r ≤ M) (hu : u < M) (hlt : M < 2147483648) :
    writeCapacity M r (advance M r u : Nat) = (M : Int) - 1 - u := by
  unfold writeCapacity advance
  split <;> split <;> rw [int32_of_isInt32 (by omega)] <;> omega

/-- What is used can be read. -/
theorem readSize_eq (hr : r ≤ M) (hu : u < M) (hlt : M < 2147483648) :
    readSize M r (advance M r u : Nat) = u := by
  unfold readSize advance
  split <;> split <;> rw [int32_of_isInt32 (by omega)] <;> omega

end Rings

end XGame3.CircleBuffer
