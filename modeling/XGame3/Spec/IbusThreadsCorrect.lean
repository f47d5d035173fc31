import XGame3.Native.IbusThreads
import XGame3.Spec.CircleBufferThreadsCorrect
import XGame3.Spec.IbusQueues

/-!
# All the processes of a bus at once

The invariant of one writer and one reader on a ring (`Inv`) looks at the ring's own cells
only, so it holds of every channel of a bus while the processes of all channels run at once,
in any interleaving of their loads, stores and byte copies.

Key results:
- `RingStores.ringAt_eq`: the bytes a step stores leave the ring that the step leaves.
- `BusStep.keeps`: one step of any process, seen by all channels.
- `exists_busRun`: what the processes of a channel can do on its ring they can do on the bus.
- `bus_interleaving_safe`: every channel delivers what was accepted on it, in order.
-/

namespace XGame3.Ibus

open FixedInt LittleEndian CircleBuffer Circular Layout Regions Relation

/-! ## One step in the region -/

/-- The fields of a ring are `int`s. -/
structure IntFields (cb : TagCircleBuffer) : Prop where
  readPos : IsInt32 cb.readPos
  writePos : IsInt32 cb.writePos
  msgWrite : IsInt32 cb.msgWrite
  msgRead : IsInt32 cb.msgRead

theorem isInt32_loadInt (mem : Nat → UInt8) (off : Nat) : IsInt32 (loadInt mem off) := by
  rw [loadInt]
  exact isInt32_int32 _

theorem intFields_ringAt (mem : Nat → UInt8) (start : Nat) : IntFields (ringAt mem start) := by
  unfold ringAt
  refine ⟨?_, ?_, ?_, ?_⟩ <;> dsimp only <;> exact isInt32_loadInt ..

/-- The bytes stored for what a step assigns are the ones that are read back. -/
theorem RingStores.ringAt_eq {mem : Nat → UInt8} {start : Nat} {cb : TagCircleBuffer}
    {stores : List (Nat × UInt8)} (h : RingStores start (ringAt mem start) cb stores)
    (hints : IntFields cb) : ringAt (storeAll mem stores) start = cb := by
  cases h with
  | none => rfl
  | byte k b => rw [ringAt_data]; rfl
  | published writePos msgWrite =>
    simp only [storeAll_append, ringAt_writePos, ringAt_msgWrite,
      int32_of_isInt32 hints.writePos, int32_of_isInt32 hints.msgWrite]
  | taken readPos msgRead =>
    simp only [storeAll_append, ringAt_readPos, ringAt_msgRead,
      int32_of_isInt32 hints.readPos, int32_of_isInt32 hints.msgRead]
  | clearWritePos => simp only [ringAt_writePos, show int32 0 = 0 by decide]
  | clearReadPos =>
    simp only [storeAll_append, ringAt_readPos, ringAt_msgRead, ringAt_msgWrite,
      show int32 0 = 0 by decide]

/-- Every step of a process has its stores. -/
theorem exists_ringStores {w : SizeT} {s s' : Threads} (h : Step w s s') (start : Nat) :
    ∃ stores, RingStores start s.ring s'.ring stores := by
  cases h with
  | @writeByte m writePos i b todo hpc => exact ⟨_, .byte s.ring i b⟩
  | @writeDone m writePos hpc => exact ⟨_, .published s.ring writePos _⟩
  | @readDone maxLength readPos msgSize data got hpc hsum => exact ⟨_, .taken s.ring readPos _⟩
  | readClear hpc hsum => exact ⟨_, .clearWritePos s.ring⟩
  | readCleared hpc => exact ⟨_, .clearReadPos s.ring⟩
  | _ => exact ⟨[], .none s.ring⟩

/-- Nothing is stored in front of the ring. -/
theorem RingStores.start_le {start : Nat} {cb cb' : TagCircleBuffer} {stores : List (Nat × UInt8)}
    (h : RingStores start cb cb' stores) : ∀ c ∈ stores, start ≤ c.1 := by
  have hint : ∀ {off : Nat} {x : Int} {c : Nat × UInt8}, c ∈ intStores off x → off ≤ c.1 := by
    intro off x c hc
    obtain ⟨k, -, rfl⟩ := List.mem_mapIdx.mp hc
    exact Nat.le_add_right ..
  intro c hc
  cases h with
  | none => exact absurd hc List.not_mem_nil
  | byte k b =>
    obtain ⟨d, -, rfl⟩ := List.mem_map.mp hc
    dsimp only
    omega
  -- two numbers, each behind the start
  | published writePos msgWrite =>
    rcases List.mem_append.mp hc with hc | hc <;> have := hint hc <;> omega
  | taken readPos msgRead =>
    rcases List.mem_append.mp hc with hc | hc <;> have := hint hc <;> omega
  | clearWritePos =>
    have := hint hc
    omega
  -- three numbers
  | clearReadPos =>
    rcases List.mem_append.mp hc with hc | hc
    · rcases List.mem_append.mp hc with hc | hc <;> have := hint hc <;> omega
    · have := hint hc
      omega

section Steps

variable {w : SizeT} {s s' : Threads} {M r : Nat} {q : List (List UInt8)}

/-- A step that keeps the invariant leaves `int`s. -/
theorem intFields_step (h : Step w s s') (hi : Inv s M r q) (hints : IntFields s.ring) :
    IntFields s'.ring := by
  obtain ⟨r', q', hi'⟩ := step_inv h hi
  obtain ⟨hlo, hhi, hlo', hhi'⟩ := hi'.holds.pos_range
  have hM := hi'.holds.size.lt
  have hzero : IsInt32 0 := by decide
  have hcounts : IsInt32 s'.ring.msgWrite ∧ IsInt32 s'.ring.msgRead := by
    cases h with
    | writeDone hpc => exact ⟨isInt32_int32 _, hints.msgRead⟩
    | readDone hpc hsum => exact ⟨hints.msgWrite, isInt32_int32 _⟩
    | readCleared hpc => exact ⟨hzero, hzero⟩
    | _ => exact ⟨hints.msgWrite, hints.msgRead⟩
  exact ⟨by omega, by omega, hcounts.1, hcounts.2⟩

/-- No step changes a byte behind the ring. -/
theorem step_beyond (h : Step w s s') (hi : Inv s M r q) {k : Nat} (hk : M ≤ k) :
    s'.ring.data k = s.ring.data k := by
  cases h with
  | @writeByte m writePos i b todo hpc =>
    have hwriter := hi.writer
    rw [hpc] at hwriter
    obtain ⟨done, rest, -, hlen, rfl, -, -⟩ := hwriter.next_store
    have hfit := hwriter.1
    -- the byte goes to a slot of the ring
    have hadv := advance_le hi.holds.r_le (Nat.le_of_lt hi.holds.used_lt)
    have hslot := slot_lt hadv (show done.length < M by omega)
    exact if_neg (by omega)
  | _ => rfl

/-- The invariant looks at the bytes of the ring only. -/
theorem inv_of_agree {own : ChannelThreads} {mem mem' : Nat → UInt8} {start : Nat}
    (h : Inv (own.onRing mem start) M r q)
    (hagree : ∀ a, start ≤ a → a < start + 20 + M → mem' a = mem a) :
    Inv (own.onRing mem' start) M r q := by
  -- only the writer's state speaks of bytes not yet published
  refine ⟨holds_of_agree h.holds hagree, h.accepted_eq, h.codes, ?_, h.reader⟩
  have hwriter := h.writer
  have hadv := advance_le h.holds.r_le (Nat.le_of_lt h.holds.used_lt)
  change own.writer.Ok (ringAt mem start).data M r q at hwriter
  change own.writer.Ok (ringAt mem' start).data M r q
  cases hpc : own.writer with
  | idle => trivial
  | loadWritePos call readPos =>
    rw [hpc] at hwriter
    exact hwriter
  | copy m writePos todo =>
    rw [hpc] at hwriter
    obtain ⟨hfit, hpos, done, rest, hframe, htodo, hdone⟩ := hwriter
    refine ⟨hfit, hpos, done, rest, hframe, htodo, Eq.trans ?_ hdone⟩
    have hlen : done.length ≤ m.length + 8 := by
      have := congrArg List.length hframe
      rw [length_frame, List.length_append] at this
      omega
    -- and those are inside the channel
    refine readAt_congr fun k hk => ?_
    have hslot := slot_lt hadv (show k < M by omega)
    exact hagree _ (by omega) (by omega)
  | fault =>
    rw [hpc] at hwriter
    exact hwriter

end Steps

/-! ## All channels -/

section Channels

variable {cfg : IBusmCfg} {bus : IBUS} {s s' : BusThreads}

/-- The invariant of a channel looks at the cells of its ring only. -/
theorem Spaced.inv_of_agree (hbus : Spaced cfg bus) {i : Nat} (hi : i < counted cfg)
    {mem mem' : Nat → UInt8} {own : ChannelThreads} (hagree : Agree (ringCells cfg bus i) mem mem')
    (h : ∃ r q, Inv (own.onRing mem (bus.head.channeles i).start.toNat) (ringSize cfg i) r q) :
    ∃ r q, Inv (own.onRing mem' (bus.head.channeles i).start.toNat) (ringSize cfg i) r q := by
  obtain ⟨r, q, hinv⟩ := h
  have hstart := hbus.start_nonneg hi
  have hoff : dataOffset = 20 := rfl
  exact ⟨r, q, Ibus.inv_of_agree hinv fun a ha ha' => hagree a ⟨hi, by omega, by omega⟩⟩

/-- The processes of channel `i` and its ring keep the invariant. -/
def threadsRegion (cfg : IBusmCfg) (bus : IBUS) (hbus : Spaced cfg bus) (i : Nat) :
    Region Nat UInt8 ChannelThreads where
  own := ringCells cfg bus i
  holds mem own := i < counted cfg →
    ∃ r q, Inv (own.onRing mem (bus.head.channeles i).start.toNat) (ringSize cfg i) r q
  holds_of_agree hagree h hi := hbus.inv_of_agree hi hagree (h hi)

/-- The rings of two channels share no byte. -/
theorem ringCells_apart (hbus : Spaced cfg bus) :
    Pairwise fun i j => Disjoint (ringCells cfg bus i) (ringCells cfg bus j) := by
  intro i j hne
  refine Set.disjoint_left.mpr fun a ⟨hi, hlo, hhi⟩ ⟨hj, hlo', hhi'⟩ => ?_
  rcases Nat.lt_or_gt_of_ne hne with hij | hij
  · have := hbus.before i j hij hj
    omega
  · have := hbus.before j i hij hi
    omega

/-- A step on a ring that keeps the invariant stores to its own cells. -/
theorem RingStores.agree (hbus : Spaced cfg bus) {i r : Nat} {q : List (List UInt8)}
    {mem : Nat → UInt8} {own : ChannelThreads} {t : Threads} {stores : List (Nat × UInt8)}
    (hi : i < counted cfg)
    (hinv : Inv (own.onRing mem (bus.head.channeles i).start.toNat) (ringSize cfg i) r q)
    (hstep : Step .eight (own.onRing mem (bus.head.channeles i).start.toNat) t)
    (hring : ringAt (storeAll mem stores) (bus.head.channeles i).start.toNat = t.ring)
    (hstores : RingStores (bus.head.channeles i).start.toNat
      (ringAt mem (bus.head.channeles i).start.toNat) t.ring stores) :
    Agree (ringCells cfg bus i)ᶜ mem (storeAll mem stores) := by
  intro a ha
  have hstart := hbus.start_nonneg hi
  have hoff : dataOffset = 20 := rfl
  by_cases hfront : a < (bus.head.channeles i).start.toNat
  · exact storeAll_of_not_mem mem fun c hc hca => by
      have := hstores.start_le c hc
      omega
  · -- behind the ring the step assigns nothing
    have hbehind : (bus.head.channeles i).start.toNat + 20 + ringSize cfg i ≤ a := by
      refine Nat.le_of_not_lt fun hlt => ha ⟨hi, by omega, by omega⟩
    obtain ⟨k, rfl⟩ := Nat.exists_eq_add_of_le
      (show (bus.head.channeles i).start.toNat + 20 ≤ a by omega)
    have hbeyond := step_beyond hstep hinv (show ringSize cfg i ≤ k by omega)
    exact (congrFun (congrArg TagCircleBuffer.data hring) k).trans hbeyond

/-- One step of any process keeps the invariant of every channel and the bytes of none. -/
theorem BusStep.keeps (hbus : Spaced cfg bus) (hcount : bus.head.count = counted cfg)
    (h : AllHold (threadsRegion cfg bus hbus) s.mem s.channel) (hstep : BusStep bus.head s s') :
    AllHold (threadsRegion cfg bus hbus) s'.mem s'.channel ∧
      ∀ a : Nat, (a : Int) < tableEnd cfg.channels.length → s'.mem a = s.mem a := by
  cases hstep with
  | @channel t stores i hi hstep hstores =>
    have hlt : i < counted cfg := by omega
    obtain ⟨r, q, hinv⟩ := h i hlt
    have hring := hstores.ringAt_eq (intFields_step hstep hinv (intFields_ringAt _ _))
    obtain ⟨r', q', hinv'⟩ := step_inv hstep hinv
    have hframe := RingStores.agree hbus hlt hinv hstep hring hstores
    refine ⟨h.update (ringCells_apart hbus) hframe fun _ => ⟨r', q', ?_⟩, fun a ha => ?_⟩
    · have hsame : (ChannelThreads.ofThreads t).onRing (storeAll s.mem stores)
          (bus.head.channeles i).start.toNat = t := by
        obtain ⟨ring, writer, reader, accepted, returned, codes⟩ := t
        simp only [ChannelThreads.onRing, ChannelThreads.ofThreads, hring]
      rwa [hsame]
    · -- the table ends before the first channel
      refine hframe a fun ⟨_, hlo, _⟩ => ?_
      have htable := hbus.table_le i hlt
      omega

/-- A created bus, before any process did anything. -/
theorem init_allHold (hbus : Spaced cfg bus) :
    AllHold (threadsRegion cfg bus hbus) (BusThreads.init bus).mem (BusThreads.init bus).channel :=
  fun i hi => ⟨0, [], hbus.empty i hi, rfl, List.not_mem_nil, trivial, trivial⟩

/-- Every run keeps the invariant of every channel, and the head with its table. -/
theorem reachable_allHold (hbus : Spaced cfg bus) (hcount : bus.head.count = counted cfg)
    (hs : ReflTransGen (BusStep bus.head) (BusThreads.init bus) s) :
    AllHold (threadsRegion cfg bus hbus) s.mem s.channel ∧
      ∀ a : Nat, (a : Int) < tableEnd cfg.channels.length → s.mem a = bus.mem a := by
  induction hs with
  | refl => exact ⟨init_allHold hbus, fun a _ => rfl⟩
  | tail _ hstep ih =>
    obtain ⟨hall, hhead⟩ := ih
    obtain ⟨hall', hhead'⟩ := hstep.keeps hbus hcount hall
    exact ⟨hall', fun a ha => (hhead' a ha).trans (hhead a ha)⟩

/-- What a process can do on the ring of its channel it can do on the bus, where nobody else
    moves meanwhile. -/
theorem exists_busStep (hbus : Spaced cfg bus) (hcount : bus.head.count = counted cfg)
    (h : AllHold (threadsRegion cfg bus hbus) s.mem s.channel) {i : Nat} (hi : i < counted cfg)
    {t : Threads}
    (hstep : Step .eight ((s.channel i).onRing s.mem (bus.head.channeles i).start.toNat) t) :
    ∃ s', BusStep bus.head s s' ∧
      (s'.channel i).onRing s'.mem (bus.head.channeles i).start.toNat = t ∧
      ∀ j, j ≠ i → s'.channel j = s.channel j := by
  obtain ⟨r, q, hinv⟩ := h i hi
  obtain ⟨stores, hstores⟩ := exists_ringStores hstep (bus.head.channeles i).start.toNat
  have hring := hstores.ringAt_eq (intFields_step hstep hinv (intFields_ringAt _ _))
  refine ⟨_, .channel i (by omega) hstep hstores, ?_, fun j hj => Function.update_of_ne hj ..⟩
  obtain ⟨ring, writer, reader, accepted, returned, codes⟩ := t
  simp only [ChannelThreads.onRing, ChannelThreads.ofThreads, Function.update_self, hring]

/-- So can its processes with a whole run. -/
theorem exists_busRun (hbus : Spaced cfg bus) (hcount : bus.head.count = counted cfg)
    (h : AllHold (threadsRegion cfg bus hbus) s.mem s.channel) {i : Nat} (hi : i < counted cfg)
    {t : Threads} (hrun : ReflTransGen (Step .eight)
      ((s.channel i).onRing s.mem (bus.head.channeles i).start.toNat) t) :
    ∃ s', ReflTransGen (BusStep bus.head) s s' ∧
      (s'.channel i).onRing s'.mem (bus.head.channeles i).start.toNat = t ∧
      (∀ j, j ≠ i → s'.channel j = s.channel j) ∧
      AllHold (threadsRegion cfg bus hbus) s'.mem s'.channel := by
  induction hrun with
  | refl => exact ⟨s, .refl, rfl, fun _ _ => rfl, h⟩
  | tail _ hstep ih =>
    obtain ⟨s₁, hruns, rfl, hothers, hall⟩ := ih
    obtain ⟨s₂, hbusStep, heq, hothers'⟩ := exists_busStep hbus hcount hall hi hstep
    exact ⟨s₂, hruns.tail hbusStep, heq, fun j hj => (hothers' j hj).trans (hothers j hj),
      (hbusStep.keeps hbus hcount hall).1⟩

end Channels

/-- On every created bus whose channels have room for a ring, with one writer and one reader on
    each channel and their loads, stores and byte copies interleaved in any way: on every
    channel the reads have returned the accepted messages in order, all the others stand whole
    in its ring, no copy left the ring and no check word was bad; and the head with its table is
    as it was created. -/
theorem bus_interleaving_safe {ascStrToSize : String → Int}
    {createShm : Int → Nat → Option (Nat → UInt8)} {sCfgInfo : IBusmCfg} {conf : ConfigFile}
    {cfg : IBusmCfg} {bus : IBUS}
    (hread : readIBUSConfig ascStrToSize sCfgInfo (some conf) = some cfg)
    (hsum : (cfg.channels.map ChannelCfg.maxLength).sum ≤ cfg.maxLength) (hsize : Sizeable cfg)
    (hcreate : createIBUS ascStrToSize createShm sCfgInfo (some conf) = some (some bus))
    {s : BusThreads} (hs : ReflTransGen (BusStep bus.head) (BusThreads.init bus) s) :
    (∀ i : Nat, i < bus.head.count →
      (s.channel i).writer ≠ .fault ∧ (s.channel i).reader ≠ .fault ∧
      -3 ∉ (s.channel i).codes ∧
      ∃ r q, (s.channel i).accepted = (s.channel i).returned ++ q ∧
        Holds (ringAt s.mem (bus.head.channeles i).start.toNat) (ringSize cfg i) r q) ∧
    ∀ a : Nat, (a : Int) < tableEnd cfg.channels.length → s.mem a = bus.mem a := by
  have hbus := createIBUS_spaced hread hsum hsize hcreate
  have hcount := createIBUS_count hread hsum hsize hcreate
  -- every reachable state keeps the invariant in each channel
  obtain ⟨hall, hhead⟩ := reachable_allHold hbus hcount hs
  refine ⟨fun i hi => ?_, hhead⟩
  obtain ⟨r, q, hinv⟩ := hall i (by omega)
  -- no thread in order has failed
  refine ⟨fun hpc => ?_, fun hpc => ?_, hinv.codes, r, q, hinv.accepted_eq, hinv.holds⟩
  · have hwriter := hinv.writer
    change (s.channel i).writer.Ok _ _ _ _ at hwriter
    rwa [hpc] at hwriter
  · have hreader := hinv.reader
    change (s.channel i).reader.Ok _ _ _ at hreader
    rwa [hpc] at hreader

/-- A message is carried through the first of two channels while a call of the writer of the
    second is under way. -/
theorem bus_interleaving_safe_two : ∃ (bus : IBUS) (s : BusThreads),
    ReflTransGen (BusStep bus.head) (BusThreads.init bus) s ∧
      (s.channel 0).returned = [[5]] ∧ (s.channel 0).codes = [1] ∧
      (s.channel 1).writer ≠ .idle ∧ (s.channel 1).writer ≠ .fault := by
  obtain ⟨bus, hcreate⟩ := create_twoChannels
  have hbus := createIBUS_spaced read_twoChannels (by decide) sizeable_twoChannels hcreate
  have hcount := createIBUS_count read_twoChannels (by decide) sizeable_twoChannels hcreate
  have htwo : counted ⟨7, 2, 112, [⟨1, 2, 48⟩, ⟨2, 1, 48⟩], []⟩ = 2 := by decide
  -- the writer of the second channel has loaded the read position
  obtain ⟨s₁, hbegin, hsecond, hothers⟩ := exists_busStep hbus hcount (init_allHold hbus)
    (i := 1) (by omega) (Step.writeBegin (.write [9]) (by decide) rfl)
  have hfirst : s₁.channel 0 = .idle := hothers 0 (by decide)
  obtain ⟨hall, -⟩ := hbegin.keeps hbus hcount (init_allHold hbus)
  -- the first channel is still empty; its processes write and read without interruption
  obtain ⟨r, q, hinv⟩ := hall 0 (by omega)
  obtain rfl : q = [] := by
    have hnothing := hinv.accepted_eq
    rw [hfirst] at hnothing
    exact hnothing.symm
  have hsize : ringSize ⟨7, 2, 112, [⟨1, 2, 48⟩, ⟨2, 1, 48⟩], []⟩ 0 = 24 := by decide
  have hwrite := write_eq (w := .eight) hinv.holds.size hinv.holds.r_le hinv.holds.used_lt
    hinv.holds.readPos_eq hinv.holds.writePos_eq [5] (by decide)
  rw [if_pos (by rw [hsize]; decide)] at hwrite
  have hpushed := hinv.holds.push (m := [5]) (by rw [hsize]; decide)
  have hread := hpushed.read_eq (w := .eight) [0] (by decide)
  have hwriteRun := write_solo
    (s := (s₁.channel 0).onRing s₁.mem (bus.head.channeles 0).start.toNat)
    (by rw [hfirst]; rfl) (by decide) hwrite
  obtain ⟨out, hreadRun, hout⟩ := read_solo (w := .eight)
    (s := { (s₁.channel 0).onRing s₁.mem (bus.head.channeles 0).start.toNat with
      ring := _
      accepted := _ }) (by rw [hfirst]; rfl) hread
  obtain ⟨s₂, hruns, heq, hsame, -⟩ := exists_busRun hbus hcount hall (i := 0) (by omega)
    (hwriteRun.trans hreadRun)
  have hruns' : ReflTransGen (BusStep bus.head) (BusThreads.init bus) s₂ := .head hbegin hruns
  obtain ⟨hsafe, -⟩ := bus_interleaving_safe read_twoChannels (by decide) sizeable_twoChannels
    hcreate hruns'
  have haccepted : (s₂.channel 0).accepted = [[5]] := by
    have hfield := congrArg Threads.accepted heq
    rw [hfirst] at hfield
    exact hfield
  have hcodes : (s₂.channel 0).codes = [1] := by
    have hfield := congrArg Threads.codes heq
    rw [hfirst] at hfield
    exact hfield
  -- the ring is empty again, so what was accepted has been returned
  obtain ⟨-, -, -, r', q', hreturned, hholds⟩ := hsafe 0 (by omega)
  have hring := congrArg Threads.ring heq
  have hempty : q'.isEmpty = true := by
    have hpopped := Holds.pop hpushed
    have hnone := hpopped.empty_iff
    have hq := hholds.empty_iff
    rw [← hq]
    exact (congrArg empty hring).trans hnone
  obtain rfl := List.isEmpty_iff.1 hempty
  rw [haccepted, List.append_nil] at hreturned
  refine ⟨bus, s₂, hruns', hreturned.symm, hcodes, ?_, (hsafe 1 (by omega)).1⟩
  rw [hsame 1 (by decide)]
  have hwriter := congrArg Threads.writer hsecond
  intro hidle
  exact nomatch hidle.symm.trans hwriter

end XGame3.Ibus
