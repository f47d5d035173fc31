import XGame3.Spec.CircleBufferCopy

/-!
# `Read` on a corrupted ring

The bytes of the ring are memory that other processes write, so the length word in front
of a message can be anything.  `Read` compares it with the caller's buffer alone: a
negative length takes the position back, one beyond the unread bytes takes it past the
write position, and only the check word, which is itself read there, stands between that
and a result.

## Key results

- `realRead_word` / `realRead_word_behind` / `realRead_payload`: the copies from a position
  that may have been taken anywhere
- `read_survives_iff`: when `Read` stays in the ring and behind the write position
-/

namespace XGame3.CircleBuffer

open FixedInt LittleEndian Circular

/-! ## Positions and words -/

/-- Both positions are in `[0, maxLength]`. -/
structure Placed (cb : TagCircleBuffer) : Prop where
  pos : 0 < cb.maxLength
  lt : cb.maxLength < 2147483648
  le_readPos : 0 ≤ cb.readPos
  readPos_le : cb.readPos ≤ cb.maxLength
  le_writePos : 0 ≤ cb.writePos
  writePos_le : cb.writePos ≤ cb.maxLength

/-- The unread length. -/
def unread (cb : TagCircleBuffer) : Int := readSize cb.maxLength cb.readPos cb.writePos

/-- The position `n` bytes after `p`. -/
def forward (M p n : Int) : Int := if p + n ≤ M then p + n else p + n - M

/-- The four bytes at a position. -/
def wordAt (cb : TagCircleBuffer) (p : Int) : Nat :=
  ofLE (readAt cb.data cb.maxLength.toNat p.toNat 4)

/-- The length in front of the next message. -/
def lengthWord (cb : TagCircleBuffer) : Int := int32 (wordAt cb cb.readPos)

/-- What `Read` loads as a length is a 32-bit number. -/
theorem isInt32_lengthWord (cb : TagCircleBuffer) : IsInt32 (lengthWord cb) := isInt32_int32 _

/-- The position behind the length. -/
def payloadPos (cb : TagCircleBuffer) : Int := forward cb.maxLength cb.readPos 4

/-- The word where the length says the message ends. -/
def checkWord (cb : TagCircleBuffer) : Nat :=
  wordAt cb (forward cb.maxLength (payloadPos cb) (lengthWord cb))

/-- A ring with its positions inside has its size. -/
theorem Placed.hasSize {cb : TagCircleBuffer} (h : Placed cb) : HasSize cb cb.maxLength.toNat where
  maxLength_eq := (Int.toNat_of_nonneg (Int.le_of_lt h.pos)).symm
  pos := by
    have hpos := h.pos
    omega
  lt := by
    have hlt := h.lt
    omega

/-- The unread bytes, with the writing position behind the reading one or before it. -/
theorem Placed.unread_eq {cb : TagCircleBuffer} (h : Placed cb) :
    unread cb = if cb.readPos ≤ cb.writePos then cb.writePos - cb.readPos
      else cb.writePos + cb.maxLength - cb.readPos := by
  obtain ⟨hpos, hlt, hr, hr', hw, hw'⟩ := h
  unfold unread readSize
  split <;> rw [int32_of_isInt32 (by omega)]

/-- Moving forward stays inside the ring -/
theorem forward_le {M p n : Int} (h : p + n ≤ 2 * M) : forward M p n ≤ M := by
  unfold forward
  split <;> omega

/-- and does not go below zero, -/
theorem forward_nonneg {M p n : Int} (h : 0 ≤ p + n) : 0 ≤ forward M p n := by
  unfold forward
  split <;> omega

/-- with one turn around the ring at most. -/
theorem forward_cases (M p n : Int) :
    p + n ≤ M ∧ forward M p n = p + n ∨ M < p + n ∧ forward M p n = p + n - M := by
  unfold forward
  split
  · exact .inl ⟨‹_›, rfl⟩
  · exact .inr ⟨by omega, rfl⟩

/-- On sensible numbers it is the ring's `advance`. -/
theorem advance_toNat {M p n : Int} (hM : 0 ≤ M) (hp : 0 ≤ p) (hn : 0 ≤ n) :
    ((advance M.toNat p.toNat n.toNat : Nat) : Int) = forward M p n := by
  unfold advance forward
  split <;> split <;> omega

/-! ## Copies -/

section Copies

variable {cb : TagCircleBuffer} {p n : Int} {data : List UInt8}

/-- A word at a position in the ring. -/
theorem realRead_word (h : Placed cb) (hM : 4 ≤ cb.maxLength) (hp : 0 ≤ p)
    (hp' : p ≤ cb.maxLength) :
    realRead cb p (toLE 4 0) 4 = some (forward cb.maxLength p 4,
      readAt cb.data cb.maxLength.toNat p.toNat 4) := by
  have hread := realRead_eq (p := p.toNat) 4 (toLE 4 0) h.hasSize (by omega) (by omega)
    (Nat.le_of_eq (length_toLE ..).symm)
  rw [List.drop_eq_nil_of_le (Nat.le_of_eq (length_toLE ..)), List.append_nil,
    Int.toNat_of_nonneg hp] at hread
  rw [← advance_toNat (n := 4) (by omega) hp (by decide)]
  exact hread

/-- A word at a position in front of the ring.  Where `maxLength_ - _readPos` overflows by no more
    than the word has bytes, nothing is copied at all. -/
theorem realRead_word_behind (h : Placed cb) (hM : 4 ≤ cb.maxLength) (hp : p < 0)
    (hp' : -2147483648 ≤ p) :
    realRead cb p (toLE 4 0) 4 =
      if 2147483648 ≤ cb.maxLength - p ∧ cb.maxLength - p ≤ 2147483652 then
        some (int32 (p + 4), toLE 4 0)
      else none := by
  have hlt := h.lt
  unfold realRead
  dsimp only
  by_cases hover : cb.maxLength - p < 2147483648
  · -- the copy begins in front of `data_`
    have hfirst : min (int32 (cb.maxLength - p)) 4 = 4 := by
      rw [int32_of_isInt32 (by omega)]
      omega
    have hout : copyOut cb p (toLE 4 0) 0 4 = none := if_neg (by omega)
    rw [hfirst, if_pos (by decide), hout, if_neg (by omega)]
    rfl
  · -- the distance to the end has become negative
    have hfirst : min (int32 (cb.maxLength - p)) 4 = cb.maxLength - p - 4294967296 := by
      rw [int32_congr (y := cb.maxLength - p - 4294967296) (by omega), int32_of_isInt32 (by omega)]
      omega
    rw [hfirst, if_neg (show ¬ cb.maxLength - p - 4294967296 > 0 by omega), Option.bind_eq_bind,
      Option.bind_some]
    by_cases hwindow : cb.maxLength - p ≤ 2147483652
    · rw [int32_congr (y := 4 - (cb.maxLength - p)) (by omega),
        int32_of_isInt32 (show IsInt32 (4 - (cb.maxLength - p)) by omega),
        if_neg (show ¬ 4 - (cb.maxLength - p) > 0 by omega), if_pos ⟨by omega, hwindow⟩]
    · have hout : copyOut cb 0 (toLE 4 0) (cb.maxLength - p - 4294967296)
          (4 - (cb.maxLength - p - 4294967296)) = none := if_neg (by omega)
      rw [int32_of_isInt32 (show IsInt32 (4 - (cb.maxLength - p - 4294967296)) by omega),
        if_pos (show 4 - (cb.maxLength - p - 4294967296) > 0 by omega), hout,
        if_neg fun hw => hwindow hw.2]
      rfl

/-- A negative length copies nothing and takes the position back. -/
theorem realRead_negative (h : Placed cb) (hp : 0 ≤ p) (hp' : p ≤ cb.maxLength) (hn : n < 0)
    (hn' : -2147483648 ≤ n) : realRead cb p data n = some (p + n, data) := by
  have hlt := h.lt
  have hfirst : min (int32 (cb.maxLength - p)) n = n := by
    rw [int32_of_isInt32 (by omega)]
    omega
  unfold realRead
  dsimp only
  rw [hfirst, if_neg (by omega), Option.bind_eq_bind, Option.bind_some,
    show n - n = 0 from Int.sub_self n, if_neg (by decide), int32_of_isInt32 (by omega)]

/-- The payload as long as it ends in the ring, be it before it has begun. -/
theorem realRead_payload (data : List UInt8) (h : Placed cb) (hp : 0 ≤ p) (hp' : p ≤ cb.maxLength)
    (hn : n ≤ data.length) (hlo : 0 ≤ p + n) (hhi : p + n ≤ 2 * cb.maxLength) :
    ∃ data', realRead cb p data n = some (forward cb.maxLength p n, data') ∧
      data'.length = data.length := by
  have hlt := h.lt
  by_cases hneg : n < 0
  · -- no byte is copied
    have hback : forward cb.maxLength p n = p + n := if_pos (by omega)
    exact ⟨data, by rw [realRead_negative h hp hp' hneg (by omega), hback], rfl⟩
  · have hread := realRead_eq (p := p.toNat) n.toNat data h.hasSize (by omega) (by omega) (by omega)
    rw [Int.toNat_of_nonneg hp, Int.toNat_of_nonneg (by omega),
      advance_toNat (by omega) hp (by omega)]
      at hread
    refine ⟨_, hread, ?_⟩
    rw [List.length_append, length_readAt, List.length_drop]
    omega

/-- A payload that would go around the ring more than once leaves it. -/
theorem realRead_payload_beyond (h : Placed cb) (hp : 0 ≤ p) (hp' : p ≤ cb.maxLength)
    (hn : n < 2147483648) (hhi : 2 * cb.maxLength < p + n) : realRead cb p data n = none := by
  have hlt := h.lt
  have hfirst : min (int32 (cb.maxLength - p)) n = cb.maxLength - p := by
    rw [int32_of_isInt32 (by omega)]
    omega
  have hrest : ∀ data' : List UInt8,
      copyOut cb 0 data' (cb.maxLength - p) (n - (cb.maxLength - p)) = none := fun data' =>
    if_neg (by omega)
  unfold realRead
  dsimp only
  rw [hfirst, int32_of_isInt32 (show IsInt32 (n - (cb.maxLength - p)) by omega)]
  apply Option.bind_eq_none_iff.2
  intro data' _
  rw [hrest, if_pos (show n - (cb.maxLength - p) > 0 by omega)]
  rfl

end Copies

/-! ## `Read` -/

/-- `Read` stays in the ring and in the caller's buffer, leaves both positions in the ring, and does
    not move the read position past the write position. -/
def ReadSurvives (w : SizeT) (cb : TagCircleBuffer) (data : List UInt8) : Prop :=
  ∃ res cb', read w cb data data.length = some (res, cb') ∧ res.data.length = data.length ∧
    Placed cb' ∧ cb'.maxLength = cb.maxLength ∧
    (cb' = cb ∨ cb' = (clear cb).2 ∨
      unread cb' = unread cb - (res.ret + 8) ∧ 0 ≤ unread cb - (res.ret + 8))

/-- The length and the check word of the next message do `Read` no harm.  The last case is that of a
    length so far below zero that `int` overflows and no byte of the check word is read. -/
def Harmless (cb : TagCircleBuffer) (supplied : Nat) : Prop :=
  unread cb < 8 ∨ lengthWord cb > supplied ∨
  0 ≤ payloadPos cb + lengthWord cb ∧ payloadPos cb + lengthWord cb ≤ 2 * cb.maxLength ∧
    (checkWord cb ≠ checkData ∨
      lengthWord cb + 8 ≤ unread cb ∧ unread cb < lengthWord cb + 8 + cb.maxLength) ∨
  2147483648 ≤ cb.maxLength - (payloadPos cb + lengthWord cb) ∧
    cb.maxLength - (payloadPos cb + lengthWord cb) ≤ 2147483652

/-- `Clear` leaves the positions inside. -/
theorem Placed.clear {cb : TagCircleBuffer} (h : Placed cb) : Placed (clear cb).2 where
  pos := h.pos
  lt := h.lt
  le_readPos := Int.le_refl 0
  readPos_le := Int.le_of_lt h.pos
  le_writePos := Int.le_refl 0
  writePos_le := Int.le_of_lt h.pos

section Read

variable {w : SizeT} {cb : TagCircleBuffer} {data : List UInt8}

/-- A ring with eight unread bytes has eight bytes, and the position behind the length is in it. -/
theorem Placed.payloadPos (h : Placed cb) (hsize : ¬ unread cb < 8) :
    8 ≤ cb.maxLength ∧ 0 ≤ payloadPos cb ∧ payloadPos cb ≤ cb.maxLength := by
  rw [h.unread_eq] at hsize
  obtain ⟨hpos, hlt, hr, hr', hw, hw'⟩ := h
  have hM : 8 ≤ cb.maxLength := by
    split at hsize <;> omega
  exact ⟨hM, forward_nonneg (by omega), forward_le (by omega)⟩

/-- The length word is read and the position behind it kept. -/
theorem read_eq_readMsg (h : Placed cb) (hsize : ¬ unread cb < 8) :
    read w cb data data.length =
      readMsg w cb data data.length (payloadPos cb) (lengthWord cb) := by
  obtain ⟨hM, -, -⟩ := h.payloadPos hsize
  have hsize' : ¬ readSize cb.maxLength cb.readPos cb.writePos < 4 + 4 := hsize
  unfold read
  dsimp only
  rw [if_neg hsize', realRead_word h (by omega) h.le_readPos h.readPos_le, Option.bind_eq_bind,
    Option.bind_some]
  unfold CircleBuffer.payloadPos lengthWord wordAt
  rfl

/-- A length that fits the caller's buffer. -/
theorem readMsg_fits {p n : Int} (hlen : data.length < 2147483648) (hn : n ≤ data.length)
    (hn' : IsInt32 n) :
    readMsg w cb data data.length p n = (realRead cb p data n).bind fun body =>
      (realRead cb body.1 (toLE 4 0) 4).bind fun check =>
        if checkSum (ofLE check.2) then
          some (⟨n, body.2, w.wrap n⟩,
            { cb with readPos := check.1, msgRead := int32 (cb.msgRead + 1) })
        else some (⟨-3, body.2, w.wrap n⟩, (clear cb).2) := by
  unfold readMsg
  dsimp only
  rw [int32_of_isInt32 (show IsInt32 (data.length : Int) by omega), if_neg (by omega), int32_wrap,
    int32_of_isInt32 hn']
  rfl

/-- A message that ends in the ring: the check word decides. -/
theorem read_inside (h : Placed cb) (hlen : data.length < 2147483648) (hsize : ¬ unread cb < 8)
    (hn : ¬ lengthWord cb > data.length) (hlo : 0 ≤ payloadPos cb + lengthWord cb)
    (hhi : payloadPos cb + lengthWord cb ≤ 2 * cb.maxLength) :
    ∃ data', data'.length = data.length ∧ read w cb data data.length =
      if checkWord cb = checkData then
        some (⟨lengthWord cb, data', w.wrap (lengthWord cb)⟩, { cb with
          readPos := forward cb.maxLength
            (forward cb.maxLength (payloadPos cb) (lengthWord cb)) 4
          msgRead := int32 (cb.msgRead + 1) })
      else some (⟨-3, data', w.wrap (lengthWord cb)⟩, (clear cb).2) := by
  obtain ⟨hM, hp, hp'⟩ := h.payloadPos hsize
  obtain ⟨data', hbody, hdata'⟩ := realRead_payload data h hp hp' (by omega) hlo hhi
  refine ⟨data', hdata', ?_⟩
  -- the payload and the check word are read where the positions say
  rw [read_eq_readMsg h hsize, readMsg_fits hlen (by omega) (isInt32_lengthWord cb), hbody,
    Option.bind_some,
    realRead_word h (by omega) (forward_nonneg hlo) (forward_le hhi), Option.bind_some]
  have hsum : checkSum (checkWord cb) = true ↔ checkWord cb = checkData := by
    unfold checkSum
    rw [beq_iff_eq, eq_comm]
  change (if checkSum (checkWord cb) = true then _ else _) = _
  simp only [hsum]

/-- A message that ends in front of the ring. -/
theorem read_behind (h : Placed cb) (hlen : data.length < 2147483648) (hsize : ¬ unread cb < 8)
    (hlo : payloadPos cb + lengthWord cb < 0) :
    read w cb data data.length =
      if 2147483648 ≤ cb.maxLength - (payloadPos cb + lengthWord cb) ∧
          cb.maxLength - (payloadPos cb + lengthWord cb) ≤ 2147483652 then
        some (⟨-3, data, w.wrap (lengthWord cb)⟩, (clear cb).2)
      else none := by
  obtain ⟨hM, hp, hp'⟩ := h.payloadPos hsize
  have hn := isInt32_lengthWord cb
  rw [read_eq_readMsg h hsize, readMsg_fits hlen (by omega) hn,
    realRead_negative h hp hp' (by omega) hn.1, Option.bind_some,
    realRead_word_behind h (by omega) hlo (by omega)]
  split
  · rfl
  · rfl

/-- How far a message that ends in the ring moves the read position. -/
theorem unread_forward (h : Placed cb) {n k : Int} (hsize : ¬ unread cb < 8)
    (hlo : 0 ≤ payloadPos cb + n) (hhi : payloadPos cb + n ≤ 2 * cb.maxLength) :
    let cb' := { cb with
      readPos := forward cb.maxLength (forward cb.maxLength (payloadPos cb) n) 4, msgRead := k }
    Placed cb' ∧ 0 < cb'.readPos ∧
      (unread cb' = unread cb - (n + 8) ∧ 0 ≤ unread cb - (n + 8) ↔
        n + 8 ≤ unread cb ∧ unread cb < n + 8 + cb.maxLength) := by
  obtain ⟨hM, hp, hp'⟩ := h.payloadPos hsize
  intro cb'
  -- each of the three moves turns around the ring once at most
  have hbody := forward_cases cb.maxLength (payloadPos cb) n
  have hcheck := forward_cases cb.maxLength (forward cb.maxLength (payloadPos cb) n) 4
  change _ ∧ cb'.readPos = _ ∨ _ ∧ cb'.readPos = _ at hcheck
  have hpos : 0 < cb'.readPos := by omega
  have hplaced : Placed cb' :=
    ⟨h.pos, h.lt, Int.le_of_lt hpos, by change _ ≤ cb.maxLength; omega, h.le_writePos,
      h.writePos_le⟩
  refine ⟨hplaced, hpos, ?_⟩
  have hhead := forward_cases cb.maxLength cb.readPos 4
  change _ ∧ payloadPos cb = _ ∨ _ ∧ payloadPos cb = _ at hhead
  have hw := h.le_writePos
  have hw' := h.writePos_le
  -- on either side of the writing position the unread bytes are a difference
  rw [hplaced.unread_eq, h.unread_eq]
  change ((if cb'.readPos ≤ cb.writePos then cb.writePos - cb'.readPos
    else cb.writePos + cb.maxLength - cb'.readPos) = _ ∧ _) ↔ _
  split <;> split <;> omega

/-- A message longer than the caller's buffer is left where it is. -/
theorem readSurvives_of_long (h : Placed cb) (hlen : data.length < 2147483648)
    (hsize : ¬ unread cb < 8) (hn : lengthWord cb > data.length) : ReadSurvives w cb data := by
  have hread : read w cb data data.length = some (⟨-2, data, data.length⟩, cb) := by
    rw [read_eq_readMsg h hsize]
    unfold readMsg
    rw [int32_of_isInt32 (show IsInt32 (data.length : Int) by omega), if_pos hn]
  exact ⟨_, _, hread, rfl, h, rfl, .inl rfl⟩

/-- In front of the ring only the overflow that reads no check word is survived. -/
theorem readSurvives_behind_iff (h : Placed cb) (hlen : data.length < 2147483648)
    (hsize : ¬ unread cb < 8) (hlo : payloadPos cb + lengthWord cb < 0) :
    ReadSurvives w cb data ↔ 2147483648 ≤ cb.maxLength - (payloadPos cb + lengthWord cb) ∧
      cb.maxLength - (payloadPos cb + lengthWord cb) ≤ 2147483652 := by
  have hread := read_behind (w := w) h hlen hsize hlo
  constructor
  · intro ⟨res, cb', hr, _⟩
    rw [hread] at hr
    split at hr
    · assumption
    · exact nomatch hr
  · intro hwindow
    rw [if_pos hwindow] at hread
    exact ⟨_, _, hread, rfl, h.clear, rfl, .inr (.inl rfl)⟩

/-- The payload of a message that ends behind the ring is not in it. -/
theorem not_readSurvives_beyond (h : Placed cb) (hlen : data.length < 2147483648)
    (hsize : ¬ unread cb < 8) (hn : ¬ lengthWord cb > data.length)
    (hhi : 2 * cb.maxLength < payloadPos cb + lengthWord cb) : ¬ ReadSurvives w cb data := by
  obtain ⟨hM, hp, hp'⟩ := h.payloadPos hsize
  have hread : read w cb data data.length = none := by
    rw [read_eq_readMsg h hsize, readMsg_fits hlen (by omega) (isInt32_lengthWord cb),
      realRead_payload_beyond h hp hp' (by omega) hhi]
    rfl
  intro ⟨res, cb', hr, _⟩
  exact nomatch hread.symm.trans hr

/-- In the ring a wrong check word is survived, and a right one if the message is unread. -/
theorem readSurvives_inside_iff (h : Placed cb) (hlen : data.length < 2147483648)
    (hsize : ¬ unread cb < 8) (hn : ¬ lengthWord cb > data.length)
    (hlo : 0 ≤ payloadPos cb + lengthWord cb)
    (hhi : payloadPos cb + lengthWord cb ≤ 2 * cb.maxLength) :
    ReadSurvives w cb data ↔ checkWord cb ≠ checkData ∨
      lengthWord cb + 8 ≤ unread cb ∧ unread cb < lengthWord cb + 8 + cb.maxLength := by
  obtain ⟨data', hdata', hread⟩ := read_inside (w := w) h hlen hsize hn hlo hhi
  obtain ⟨hplaced, hpos, hmoved⟩ :=
    unread_forward (n := lengthWord cb) (k := int32 (cb.msgRead + 1)) h hsize hlo hhi
  by_cases hcheck : checkWord cb = checkData
  · rw [if_pos hcheck] at hread
    constructor
    · intro ⟨res, cb', hr, _, _, _, hcb'⟩
      obtain ⟨rfl, rfl⟩ := Prod.mk.inj (Option.some.inj (hread.symm.trans hr))
      right
      cases hcb' with
      | inl hsame =>
        -- the counter has moved on
        have hcount := congrArg TagCircleBuffer.msgRead hsame
        have hmod := int32_emod (cb.msgRead + 1)
        dsimp only at hcount
        omega
      | inr hcb' =>
        cases hcb' with
        | inl hclear =>
          -- behind a message the read position is not zero
          have hzero := congrArg TagCircleBuffer.readPos hclear
          unfold clear at hzero
          dsimp only at hzero hpos
          omega
        | inr hshrunk =>
          dsimp only at hshrunk hmoved
          exact hmoved.1 hshrunk
    · intro hfits
      refine ⟨_, _, hread, hdata', hplaced, rfl, .inr (.inr ?_)⟩
      dsimp only at hmoved ⊢
      exact hmoved.2 (hfits.resolve_left fun hwrong => hwrong hcheck)
  · rw [if_neg hcheck] at hread
    exact ⟨fun _ => .inl hcheck, fun _ => ⟨_, _, hread, hdata', h.clear, rfl, .inr (.inl rfl)⟩⟩

/-- `Read` survives a ring with arbitrary bytes if and only if the length and the check word it
    finds are harmless. -/
theorem read_survives_iff (w : SizeT) (cb : TagCircleBuffer) (data : List UInt8) (h : Placed cb)
    (hlen : data.length < 2147483648) : ReadSurvives w cb data ↔ Harmless cb data.length := by
  by_cases hsize : unread cb < 8
  · have hread : read w cb data data.length = some (⟨-1, data, 0⟩, cb) := if_pos hsize
    exact ⟨fun _ => .inl hsize, fun _ => ⟨_, _, hread, rfl, h, rfl, .inl rfl⟩⟩
  by_cases hn : lengthWord cb > data.length
  · exact ⟨fun _ => .inr (.inl hn), fun _ => readSurvives_of_long h hlen hsize hn⟩
  obtain ⟨hM, hp, hp'⟩ := h.payloadPos hsize
  have hlt := h.lt
  unfold Harmless
  -- by where the message ends: in front of the ring, beyond it, or in it
  by_cases hlo : payloadPos cb + lengthWord cb < 0
  · rw [readSurvives_behind_iff h hlen hsize hlo]
    omega
  by_cases hhi : 2 * cb.maxLength < payloadPos cb + lengthWord cb
  · have hnot := not_readSurvives_beyond (w := w) h hlen hsize hn hhi
    constructor
    · exact fun hsurvives => absurd hsurvives hnot
    · intro hharmless
      omega
  · rw [readSurvives_inside_iff h hlen hsize hn (by omega) (by omega)]
    omega

/-- Sixteen bytes, nine of them unread, with a length of minus one hundred in front. -/
def corrupted : TagCircleBuffer where
  maxLength := 16
  readPos := 0
  writePos := 9
  msgWrite := 1
  msgRead := 0
  data := fun i => if i = 0 then 0x9C else 0xFF

/-- A negative length takes `Read` out of the ring. -/
theorem not_readSurvives : ¬ ReadSurvives .eight corrupted (List.replicate 8 0) := by
  have hread : read .eight corrupted (List.replicate 8 0) (List.replicate 8 (0 : UInt8)).length =
      none := by
    decide +kernel
  intro ⟨res, cb', hr, _⟩
  exact nomatch hread.symm.trans hr

/-- The length of a message that is too long for the caller is harmless. -/
theorem read_survives_small :
    ReadSurvives .eight { corrupted with data := fun i => if i = 0 then 9 else 0 }
      (List.replicate 8 0) := by
  apply (read_survives_iff .eight { corrupted with data := fun i => if i = 0 then 9 else 0 }
    (List.replicate 8 0) (by constructor <;> decide) (by decide)).2
  exact .inr (.inl (by decide))

end Read

end XGame3.CircleBuffer
