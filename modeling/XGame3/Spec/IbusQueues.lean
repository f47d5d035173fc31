import Mathlib.Data.List.Find
import Mathlib.Data.List.TakeWhile
import XGame3.ForStd.Regions
import XGame3.Native.IbusCalls
import XGame3.Spec.IbusIsolated

/-!
# A bus is one queue for each channel

`runBus` is what any processes do with a bus, one call after another: every call finds its
channel by the ids and works on the ring in the region.  The abstract bus knows the
configuration only: which channels have a place, in which order they are searched, and how
many bytes the queue of each may hold.

Key results:
- `bus_refines`: the calls on the region answer as those on the queues do.
- `replies_independent`: the answers to the calls on a pair of ids are those it gets alone.
-/

namespace XGame3.Ibus

open FixedInt LittleEndian CircleBuffer Circular Layout Regions

/-! ## Calls -/

/-- What is asked of the channel that the ids lead to. -/
inductive ChannelCall where
  | ring (op : Op)
  | clearChannel

/-- One call on the bus: the channel's ids and what is asked of its ring. -/
structure BusCall where
  srcID : Int
  dstID : Int
  call : ChannelCall

/-- The answer: that of the ring, of `ClearChannel`, or that `GetChannel` found nothing. -/
inductive BusReply where
  | noChannel
  | ring (r : Result)
  | cleared (ret : Int)
  deriving DecidableEq, Repr

/-- One call on the bus. -/
def busStep (bus : IBUS) (c : BusCall) : Option (BusReply × IBUS) :=
  match c.call with
  | .ring op =>
    match getChannel bus.head c.srcID c.dstID with
    | none => some (.noChannel, bus)
    | some i => (ringStep bus.mem (bus.head.channeles i).start.toNat op).map fun r =>
        (.ring r.1, { bus with mem := storeAll bus.mem r.2 })
  | .clearChannel =>
    let r := clearChannel bus c.srcID c.dstID
    some (.cleared r.1, r.2)

/-- The replies of a list of calls and the bus after them. -/
def runBus : IBUS → List BusCall → Option (List BusReply × IBUS)
  | bus, [] => some ([], bus)
  | bus, c :: calls => do
    let r ← busStep bus c
    let rs ← runBus r.2 calls
    some (r.1 :: rs.1, rs.2)

/-! ## The abstract bus -/

/-- How many of the configured channels end inside the region. -/
def counted (cfg : IBusmCfg) : Nat :=
  ((List.range cfg.channels.length).takeWhile fun i =>
    decide (channelStart cfg.channels (i + 1) ≤ regionSize cfg)).length

/-- The first of those with the given ids. -/
def slotOf (cfg : IBusmCfg) (srcID dstID : Int) : Option Nat :=
  (List.range (counted cfg)).find? fun i =>
    (cfg.channels[i]?).any fun c => srcID == c.srcID && dstID == c.dstID

/-- The size of the ring of a channel. -/
def ringSize (cfg : IBusmCfg) (i : Nat) : Nat :=
  match cfg.channels[i]? with
  | some c => (alignSize c.maxLength 16 - sizeofTagCircleBuffer).toNat
  | none => 0

/-- A call by what it means for the queue of the channel that the ids lead to. -/
def channelSpec (cfg : IBusmCfg) (ids : Int × Int) (q : List (List UInt8)) :
    ChannelCall → BusReply × List (List UInt8)
  | .ring op =>
    match slotOf cfg ids.1 ids.2 with
    | none => (.noChannel, q)
    | some i => (.ring (Fifo.step (ringSize cfg i) q op).1, (Fifo.step (ringSize cfg i) q op).2)
  | .clearChannel =>
    match slotOf cfg ids.1 ids.2 with
    | none => (.cleared (-1), q)
    | some _ => (.cleared 0, [])

/-- The calls under the ids they go to. -/
def byIds (calls : List BusCall) : List ((Int × Int) × ChannelCall) :=
  calls.map fun c => ((c.srcID, c.dstID), c.call)

/-- The calls on a queue for each pair of ids. -/
def runQueues (cfg : IBusmCfg) (queues : Int × Int → List (List UInt8)) (calls : List BusCall) :
    List BusReply × (Int × Int → List (List UInt8)) :=
  specRun (channelSpec cfg) queues (byIds calls)

/-- The sizes the callers keep to. -/
def ChannelCall.Sized : ChannelCall → Prop
  | .ring op => op.Sized
  | .clearChannel => True

/-- Every channel has room for a ring, and none overflows an `int` when it is aligned. -/
def Sizeable (cfg : IBusmCfg) : Prop :=
  ∀ c ∈ cfg.channels, 16 < c.maxLength ∧ c.maxLength ≤ 2147483632

/-- The channels of a configuration with sensible sizes are not empty. -/
theorem Sizeable.pos {cfg : IBusmCfg} (h : Sizeable cfg) : ∀ c ∈ cfg.channels, 0 < c.maxLength :=
  fun c hc => Int.lt_trans (by decide) (h c hc).1

/-! ## The channels of a bus -/

section Channels

variable {cfg : IBusmCfg} {bus : IBUS} {k i : Nat}

/-- The length of the part of a range where a test holds. -/
theorem length_takeWhile_range (p : Nat → Bool) {n k : Nat} (hk : k ≤ n)
    (hp : ∀ i, i < k → p i = true)
    (hend : k < n → p k = false) : ((List.range n).takeWhile p).length = k := by
  obtain ⟨m, rfl⟩ := Nat.exists_eq_add_of_le hk
  have hfirst : ∀ i ∈ List.range k, p i = true := fun i hi => hp i (List.mem_range.mp hi)
  rw [List.range_add, List.takeWhile_append_of_pos hfirst]
  cases m with
  | zero => simp
  | succ m => simp [List.range_succ_eq_map, hend (by omega)]

/-- The channels the loop counted are those that end inside the region. -/
theorem Laid.counted_eq (hbus : Laid cfg.channels (regionSize cfg) k bus) (h : Accepted cfg)
    (hmax : ∀ c ∈ cfg.channels, c.maxLength ≤ 2147483632) (hk : k ≤ cfg.channels.length)
    (hfull : k < cfg.channels.length → ¬ Fits cfg.channels (regionSize cfg) k) :
    counted cfg = k := by
  refine length_takeWhile_range _ hk (fun i hi => ?_) fun hlt => ?_
  · have hfits := hbus.fits i hi
    rw [Fits, storedOffset_eq h hmax] at hfits
    exact decide_eq_true hfits
  · have hnot := hfull hlt
    rw [Fits, storedOffset_eq h hmax] at hnot
    exact decide_eq_false hnot

/-- `GetChannel` finds the first channel with the ids. -/
theorem Laid.getChannel_eq (hbus : Laid cfg.channels (regionSize cfg) k bus)
    (hcount : counted cfg = k) (hk : k ≤ cfg.channels.length) (srcID dstID : Int) :
    getChannel bus.head srcID dstID = slotOf cfg srcID dstID := by
  rw [getChannel, slotOf, hbus.count_eq, hcount, Int.toNat_natCast]
  refine List.find?_congr fun i hi => ?_
  have hik := List.mem_range.mp hi
  have hc := List.getElem?_eq_getElem (show i < cfg.channels.length by omega)
  rw [hbus.entry i _ hik hc, hc, Option.any_some]

/-- The cells of the ring of a counted channel. -/
def ringCells (cfg : IBusmCfg) (bus : IBUS) (i : Nat) : Set Nat :=
  {a | i < counted cfg ∧ (bus.head.channeles i).start ≤ a ∧
    (a : Int) < (bus.head.channeles i).start + dataOffset + ringSize cfg i}

/-- What is known of a bus whose channels all have room: where they start, and that each has
    a ring of its own behind the table. -/
structure Spaced (cfg : IBusmCfg) (bus : IBUS) : Prop where
  getChannel_eq : ∀ srcID dstID, getChannel bus.head srcID dstID = slotOf cfg srcID dstID
  table_le : ∀ i, i < counted cfg → tableEnd cfg.channels.length ≤ (bus.head.channeles i).start
  before : ∀ i j, i < j → j < counted cfg →
    (bus.head.channeles i).start + dataOffset + ringSize cfg i ≤ (bus.head.channeles j).start
  empty : ∀ i, i < counted cfg →
    Holds (ringAt bus.mem (bus.head.channeles i).start.toNat) (ringSize cfg i) 0 []

/-- Channels start inside the region. -/
theorem Spaced.start_nonneg (hbus : Spaced cfg bus) (hi : i < counted cfg) :
    0 ≤ (bus.head.channeles i).start := by
  have htable := hbus.table_le i hi
  rw [tableEnd_eq] at htable
  omega

/-- A channel found by its ids has a slot below the count. -/
theorem slotOf_lt {srcID dstID : Int} (h : slotOf cfg srcID dstID = some i) : i < counted cfg :=
  List.mem_range.mp (List.mem_of_find?_eq_some h)

/-- A region laid out to its end spaces the channels apart. -/
theorem Laid.spaced (hbus : Laid cfg.channels (regionSize cfg) k bus)
    (hcleared : Cleared cfg.channels k bus.mem) (h : Accepted cfg) (hsize : Sizeable cfg)
    (hk : k ≤ cfg.channels.length)
    (hfull : k < cfg.channels.length → ¬ Fits cfg.channels (regionSize cfg) k) :
    Spaced cfg bus := by
  have hmax : ∀ c ∈ cfg.channels, c.maxLength ≤ 2147483632 := fun c hc => (hsize c hc).2
  have hcount := hbus.counted_eq h hmax hk hfull
  -- each channel laid out: its place and the size of its ring
  have hchannel : ∀ i, i < k → ∃ c, cfg.channels[i]? = some c ∧ 16 < c.maxLength ∧
      (bus.head.channeles i).start = storedStart cfg.channels i ∧
      ringLength bus i = alignSize c.maxLength 16 - 24 ∧
      (ringSize cfg i : Int) = alignSize c.maxLength 16 - 24 ∧
      0 < alignSize c.maxLength 16 - 24 := by
    intro i hi
    have hc := List.getElem?_eq_getElem (show i < cfg.channels.length by omega)
    have hroom := (hsize _ (List.mem_of_getElem? hc)).1
    have hbounds := alignSize_bounds cfg.channels[i].maxLength
    refine ⟨_, hc, hroom, by rw [hbus.entry i _ hi hc], hbus.ringLength_aligned h hmax hi hc, ?_,
      by omega⟩
    simp only [ringSize, hc, sizeofTagCircleBuffer]
    omega
  refine ⟨hbus.getChannel_eq hcount hk, ?_, ?_, ?_⟩
  -- no channel starts before the table's end
  · intro i hi
    obtain ⟨c, -, -, hstart, -⟩ := hchannel i (by omega)
    exact hstart ▸ (hbus.placed i (by omega)).1
  · intro i j hij hj
    obtain ⟨c, hc, -, hstart, -, hring, -⟩ := hchannel i (by omega)
    obtain ⟨d, -, -, hstart', -⟩ := hchannel j (by omega)
    have hbefore := hbus.before h hmax hij (by omega) hc
    rw [hstart, hstart', hring, dataOffset]
    omega
  · intro i hi
    obtain ⟨c, hc, -, -, hlength, hring, hpos⟩ := hchannel i (by omega)
    have hholds := (hbus.ring_holds hcleared h hmax (by omega) hc (by omega)).2
    rwa [hlength, ← hring, Int.toNat_natCast] at hholds

/-- The channels of a created bus. -/
theorem createIBUS_spaced {ascStrToSize : String → Int}
    {createShm : Int → Nat → Option (Nat → UInt8)} {sCfgInfo : IBusmCfg} {conf : ConfigFile}
    (hread : readIBUSConfig ascStrToSize sCfgInfo (some conf) = some cfg)
    (hsum : (cfg.channels.map ChannelCfg.maxLength).sum ≤ cfg.maxLength) (hsize : Sizeable cfg)
    (hcreate : createIBUS ascStrToSize createShm sCfgInfo (some conf) = some (some bus)) :
    Spaced cfg bus := by
  have h := accepted_of_pos hread hsize.pos hsum
  obtain ⟨k, hk, hbus, hfull, hcleared⟩ := createIBUS_laid hread h hcreate
  exact hbus.spaced hcleared h hsize hk hfull

/-- A created bus counts the channels that end inside the region. -/
theorem createIBUS_count {ascStrToSize : String → Int}
    {createShm : Int → Nat → Option (Nat → UInt8)} {sCfgInfo : IBusmCfg} {conf : ConfigFile}
    (hread : readIBUSConfig ascStrToSize sCfgInfo (some conf) = some cfg)
    (hsum : (cfg.channels.map ChannelCfg.maxLength).sum ≤ cfg.maxLength) (hsize : Sizeable cfg)
    (hcreate : createIBUS ascStrToSize createShm sCfgInfo (some conf) = some (some bus)) :
    bus.head.count = counted cfg := by
  have h := accepted_of_pos hread hsize.pos hsum
  obtain ⟨k, hk, hbus, hfull, -⟩ := createIBUS_laid hread h hcreate
  rw [hbus.counted_eq h (fun c hc => (hsize c hc).2) hk hfull, hbus.count_eq]

end Channels

/-! ## The rings as objects -/

section Objects

variable {cfg : IBusmCfg} {bus : IBUS}

/-- A call on the ring of a channel as a call on the memory. -/
def execRing (head : IBUSHead) (mem : Nat → UInt8) (i : Nat) :
    ChannelCall → Option (BusReply × (Nat → UInt8))
  | .ring op => (ringStep mem (head.channeles i).start.toNat op).map fun r =>
      (.ring r.1, storeAll mem r.2)
  | .clearChannel =>
    let cleared := clearRing (head.channeles i).start.toNat
    some (.cleared cleared.1, storeAll mem cleared.2)

/-- The call of a ring that holds a queue. -/
theorem ringStep_holds {mem : Nat → UInt8} {start M r : Nat} {q : List (List UInt8)} {op : Op}
    (h : Holds (ringAt mem start) M r q) (hop : op.Sized) :
    ∃ stores r', ringStep mem start op = some ((Fifo.step M q op).1, stores) ∧
      Holds (ringAt (storeAll mem stores) start) M r' (Fifo.step M q op).2 ∧
      ∀ c ∈ stores, RingByte start M c.1 := by
  obtain ⟨cb', r', hstep, hholds, -⟩ := step_refines (w := .eight) h op hop
  rw [ringStep_eq] at hstep
  obtain ⟨res, hres, heq⟩ := Option.map_eq_some_iff.mp hstep
  obtain ⟨hret, hring⟩ := Prod.mk.inj heq
  refine ⟨res.2, r', by rw [hres, ← hret], by rwa [hring], ?_⟩
  have hwithin := ringStep_within hres
  rwa [h.size.maxLength_eq] at hwithin

/-- Stores to a ring of the bus stay within its cells. -/
theorem agree_of_ringByte {mem : Nat → UInt8} {stores : List (Nat × UInt8)} {i : Nat}
    (hi : i < counted cfg) (hstart : 0 ≤ (bus.head.channeles i).start)
    (h : ∀ c ∈ stores, RingByte (bus.head.channeles i).start.toNat (ringSize cfg i) c.1) :
    Agree (ringCells cfg bus i)ᶜ mem (storeAll mem stores) := by
  intro a ha
  refine storeAll_of_not_mem mem fun c hc hca => ha ?_
  obtain ⟨hlo, hhi⟩ := h c hc
  have hoff : dataOffset = 20 := rfl
  exact ⟨hi, by omega, by omega⟩

/-- The ring of channel `i` keeps a queue. -/
def ringRegion (cfg : IBusmCfg) (bus : IBUS) (hbus : Spaced cfg bus) (i : Nat) :
    Region Nat UInt8 (List (List UInt8)) where
  own := ringCells cfg bus i
  holds mem q := i < counted cfg →
    ∃ r, Holds (ringAt mem (bus.head.channeles i).start.toNat) (ringSize cfg i) r q
  holds_of_agree := by
    intro mem mem' q hagree hq hi
    obtain ⟨r, hr⟩ := hq hi
    have hstart := hbus.start_nonneg hi
    have hoff : dataOffset = 20 := rfl
    exact ⟨r, holds_of_agree hr fun a ha ha' => hagree a ⟨hi, by omega, by omega⟩⟩

/-- A call on the ring of a counted channel. -/
theorem execRing_spec (hbus : Spaced cfg bus) {ids : Int × Int} {i : Nat}
    (hslot : slotOf cfg ids.1 ids.2 = some i) {mem : Nat → UInt8} {q : List (List UInt8)}
    {c : ChannelCall} (hq : (ringRegion cfg bus hbus i).holds mem q) (hc : c.Sized) :
    ∃ mem', execRing bus.head mem i c = some ((channelSpec cfg ids q c).1, mem') ∧
      (ringRegion cfg bus hbus i).holds mem' (channelSpec cfg ids q c).2 ∧
      Agree ((ringRegion cfg bus hbus i).own)ᶜ mem mem' := by
  have hi := slotOf_lt hslot
  obtain ⟨r, hr⟩ := hq hi
  have hstart := hbus.start_nonneg hi
  cases c with
  | ring op =>
    obtain ⟨stores, r', hstep, hholds, hwithin⟩ := ringStep_holds hr hc
    refine ⟨storeAll mem stores, ?_, ?_, agree_of_ringByte hi hstart hwithin⟩
    · simp only [execRing, hstep, Option.map_some, channelSpec, hslot]
    · simp only [channelSpec, hslot]
      exact fun _ => ⟨r', hholds⟩
  | clearChannel =>
    -- what `ClearChannel` stores is what the call `Clear` of the ring does
    have hsized : Op.Sized .clear := trivial
    obtain ⟨stores, r', hstep, hholds, hwithin⟩ := ringStep_holds hr hsized
    obtain ⟨-, rfl⟩ := Prod.mk.inj (Option.some.inj hstep)
    refine ⟨_, ?_, ?_, agree_of_ringByte hi hstart hwithin⟩
    · simp only [execRing, channelSpec, hslot, clearRing]
    · simp only [channelSpec, hslot]
      exact fun _ => ⟨r', hholds⟩

/-- What a pair of ids leads to: a ring, or nothing. -/
def channelObject (cfg : IBusmCfg) (bus : IBUS) (hbus : Spaced cfg bus) (ids : Int × Int) :
    Object Nat UInt8 (List (List UInt8)) ChannelCall BusReply :=
  match hslot : slotOf cfg ids.1 ids.2 with
  | some i => {
      toRegion := ringRegion cfg bus hbus i
      exec := fun mem c => execRing bus.head mem i c
      spec := channelSpec cfg ids
      admits := ChannelCall.Sized
      exec_spec := execRing_spec hbus hslot }
  | none => {
      own := ∅
      holds := fun _ _ => True
      holds_of_agree := fun _ _ => trivial
      exec := fun mem c => some ((channelSpec cfg ids [] c).1, mem)
      spec := channelSpec cfg ids
      admits := ChannelCall.Sized
      exec_spec := fun {mem _ c} _ _ => by
        refine ⟨mem, ?_, trivial, Agree.refl _ mem⟩
        cases c <;> simp only [channelSpec, hslot] }

variable (hbus : Spaced cfg bus) (ids : Int × Int)

/-- The object of a channel is specified by a bounded queue -/
@[simp] theorem channelObject_spec :
    (channelObject cfg bus hbus ids).spec = channelSpec cfg ids := by
  unfold channelObject
  split <;> rfl

/-- and admits the calls of a proper size. -/
@[simp] theorem channelObject_admits :
    (channelObject cfg bus hbus ids).admits = ChannelCall.Sized := by
  unfold channelObject
  split <;> rfl

/-- The cells behind a pair of ids are those of the ring it leads to. -/
theorem mem_channelObject_own {a : Nat} (ha : a ∈ (channelObject cfg bus hbus ids).own) :
    ∃ i, slotOf cfg ids.1 ids.2 = some i ∧ a ∈ ringCells cfg bus i := by
  unfold channelObject at ha
  split at ha
  · rename_i i hslot
    exact ⟨i, hslot, ha⟩
  · exact absurd ha (Set.notMem_empty a)

/-- Two pairs of ids never lead to one channel. -/
theorem ids_eq_of_slotOf {ids' : Int × Int} {i : Nat} (h : slotOf cfg ids.1 ids.2 = some i)
    (h' : slotOf cfg ids'.1 ids'.2 = some i) : ids = ids' := by
  unfold slotOf at h h'
  have hfound := List.find?_some h
  have hfound' := List.find?_some h'
  obtain ⟨c, hget, hids⟩ := (Option.any_eq_true _ _).mp hfound
  obtain ⟨c', hget', hids'⟩ := (Option.any_eq_true _ _).mp hfound'
  obtain rfl := Option.some.inj (hget.symm.trans hget')
  simp only [Bool.and_eq_true, beq_iff_eq] at hids hids'
  exact Prod.ext (hids.1.trans hids'.1.symm) (hids.2.trans hids'.2.symm)

/-- The objects of different channels own different bytes. -/
theorem channelObjects_apart : Pairwise fun ids ids' =>
    Disjoint (channelObject cfg bus hbus ids).own (channelObject cfg bus hbus ids').own := by
  intro ids ids' hne
  refine Set.disjoint_left.mpr fun a ha ha' => hne ?_
  obtain ⟨i, hi, hlt, hlo, hhi⟩ := mem_channelObject_own hbus ids ha
  obtain ⟨j, hj, hlt', hlo', hhi'⟩ := mem_channelObject_own hbus ids' ha'
  rcases Nat.lt_trichotomy i j with hij | rfl | hij
  · have := hbus.before i j hij hlt'
    omega
  · exact ids_eq_of_slotOf ids hi hj
  · have := hbus.before j i hij hlt
    omega

/-- A created bus has an empty queue for every pair of ids. -/
theorem channelObjects_hold :
    AllHold (fun ids => (channelObject cfg bus hbus ids).toRegion) bus.mem fun _ => [] := by
  intro ids
  dsimp only
  unfold channelObject
  split
  · exact fun hi => ⟨0, hbus.empty _ hi⟩
  · trivial

/-- A call on the bus is a call of the object that its ids lead to. -/
theorem busStep_eq (mem : Nat → UInt8) (c : BusCall) :
    busStep { bus with mem := mem } c =
      ((channelObject cfg bus hbus (c.srcID, c.dstID)).exec mem c.call).map fun r =>
        (r.1, { bus with mem := r.2 }) := by
  -- the ids lead to the channel's ring, or to none
  have hget := hbus.getChannel_eq c.srcID c.dstID
  unfold channelObject
  split
  · rename_i i hslot
    dsimp only at hslot
    rw [hslot] at hget
    obtain ⟨srcID, dstID, call⟩ := c
    cases call with
    | ring op =>
      simp only [busStep, hget, execRing, Option.map_map]
      rfl
    | clearChannel => simp only [busStep, clearChannel, hget, execRing, Option.map_some]
  · rename_i hslot
    dsimp only at hslot
    rw [hslot] at hget
    obtain ⟨srcID, dstID, call⟩ := c
    cases call with
    | ring op => simp only [busStep, hget, channelSpec, hslot, Option.map_some]
    | clearChannel => simp only [busStep, clearChannel, hget, channelSpec, hslot, Option.map_some]

/-- So are all of them. -/
theorem runBus_eq (calls : List BusCall) : ∀ mem : Nat → UInt8,
    runBus { bus with mem := mem } calls =
      (Regions.run (channelObject cfg bus hbus) mem (byIds calls)).map fun r =>
        (r.1, { bus with mem := r.2 }) := by
  induction calls with
  | nil => exact fun mem => rfl
  | cons c calls ih =>
    intro mem
    have hcons : byIds (c :: calls) = ((c.srcID, c.dstID), c.call) :: byIds calls := rfl
    simp only [runBus, hcons, Regions.run, busStep_eq hbus mem c, Option.bind_eq_bind]
    cases (channelObject cfg bus hbus (c.srcID, c.dstID)).exec mem c.call with
    | none => rfl
    | some r =>
      simp only [Option.map_some, Option.bind_some, ih]
      cases Regions.run (channelObject cfg bus hbus) r.2 (byIds calls) <;> rfl

/-- The calls on a created bus, one after another in any order, answer as those on the queues. -/
theorem Spaced.refines (hbus : Spaced cfg bus) (calls : List BusCall)
    (hcalls : ∀ c ∈ calls, c.call.Sized) :
    ∃ mem, runBus bus calls = some ((runQueues cfg (fun _ => []) calls).1,
      { bus with mem := mem }) ∧
      ∀ a : Nat, (∀ i, a ∉ ringCells cfg bus i) → mem a = bus.mem a := by
  have hadmits : ∀ c ∈ byIds calls, (channelObject cfg bus hbus c.1).admits c.2 := by
    intro c hc
    obtain ⟨d, hd, rfl⟩ := List.mem_map.mp hc
    simpa using hcalls d hd
  obtain ⟨mem, hrun, -, hframe⟩ := run_refines (channelObject cfg bus hbus) (byIds calls)
    (channelObjects_hold hbus) (channelObjects_apart hbus) hadmits
  have hbusrun := runBus_eq hbus calls bus.mem
  rw [hrun] at hbusrun
  simp only [channelObject_spec, Option.map_some] at hbusrun
  refine ⟨mem, hbusrun, fun a ha => hframe a fun ids hown => ?_⟩
  obtain ⟨i, -, hcell⟩ := mem_channelObject_own hbus ids hown
  exact ha i hcell

end Objects

/-! ## Created buses -/

section Created

variable {ascStrToSize : String → Int} {createShm : Int → Nat → Option (Nat → UInt8)}
  {sCfgInfo : IBusmCfg} {conf : ConfigFile} {cfg : IBusmCfg} {bus : IBUS}

/-- On every bus created from a configuration whose channels all have room for a ring, calls
    through `GetChannel` and `ClearChannel` answer, in any order, as those on one bounded queue
    for each pair of ids do, and leave the head and its table as they are. -/
theorem bus_refines (hread : readIBUSConfig ascStrToSize sCfgInfo (some conf) = some cfg)
    (hsum : (cfg.channels.map ChannelCfg.maxLength).sum ≤ cfg.maxLength) (hsize : Sizeable cfg)
    (hcreate : createIBUS ascStrToSize createShm sCfgInfo (some conf) = some (some bus))
    (calls : List BusCall) (hcalls : ∀ c ∈ calls, c.call.Sized) :
    ∃ mem, runBus bus calls = some ((runQueues cfg (fun _ => []) calls).1,
      { bus with mem := mem }) ∧
      ∀ a : Nat, (a : Int) < tableEnd cfg.channels.length → mem a = bus.mem a := by
  have hbus := createIBUS_spaced hread hsum hsize hcreate
  obtain ⟨mem, hrun, hframe⟩ := hbus.refines calls hcalls
  refine ⟨mem, hrun, fun a ha => hframe a fun i hcell => ?_⟩
  obtain ⟨hi, hlo, -⟩ := hcell
  have htable := hbus.table_le i hi
  omega

/-- A file with two channels of 48 bytes. -/
def twoChannels : ConfigFile :=
  { key := some 7, size := some "112", channels := [.list 1 2 "48", .list 2 1 "48"], svrID := [] }

/-- The sizes of the two-channel file, as numbers. -/
def twoSizes (size : String) : Int := if size = "48" then 48 else 112

/-- The file reads as two channels, one each way. -/
theorem read_twoChannels : readIBUSConfig twoSizes initialCfg (some twoChannels) =
    some ⟨7, 2, 112, [⟨1, 2, 48⟩, ⟨2, 1, 48⟩], []⟩ := by decide

/-- The bus of that file is created -/
theorem create_twoChannels : ∃ bus,
    createIBUS twoSizes (fun _ _ => some fun _ => 0) initialCfg (some twoChannels) =
      some (some bus) := by
  have hsome : ((createIBUS twoSizes (fun _ _ => some fun _ => 0) initialCfg
      (some twoChannels)).bind id).isSome = true := by decide +kernel
  obtain ⟨bus, hbus⟩ := Option.isSome_iff_exists.mp hsome
  obtain ⟨_, hcreate, rfl⟩ := Option.bind_eq_some_iff.mp hbus
  exact ⟨bus, hcreate⟩

/-- and its sizes are sensible. -/
theorem sizeable_twoChannels : Sizeable ⟨7, 2, 112, [⟨1, 2, 48⟩, ⟨2, 1, 48⟩], []⟩ := by
  unfold Sizeable
  decide

/-- A message waits in one channel while the other is cleared. -/
theorem bus_refines_two : ∃ bus mem,
    createIBUS twoSizes (fun _ _ => some fun _ => 0) initialCfg (some twoChannels) =
      some (some bus) ∧
    runBus bus [⟨1, 2, .ring (.write [5])⟩, ⟨3, 1, .ring (.write [5])⟩, ⟨2, 1, .clearChannel⟩,
        ⟨1, 2, .ring (.read [9, 9])⟩] =
      some ([.ring (.written 1), .noChannel, .cleared 0, .ring (.read ⟨1, [5, 9], 1⟩)],
        { bus with mem := mem }) := by
  obtain ⟨bus, hcreate⟩ := create_twoChannels
  obtain ⟨mem, hrun, -⟩ := bus_refines read_twoChannels (by decide) sizeable_twoChannels hcreate
    [⟨1, 2, .ring (.write [5])⟩, ⟨3, 1, .ring (.write [5])⟩, ⟨2, 1, .clearChannel⟩,
      ⟨1, 2, .ring (.read [9, 9])⟩] (by simp [ChannelCall.Sized, Op.Sized])
  have hreplies : (runQueues ⟨7, 2, 112, [⟨1, 2, 48⟩, ⟨2, 1, 48⟩], []⟩ (fun _ => [])
      [⟨1, 2, .ring (.write [5])⟩, ⟨3, 1, .ring (.write [5])⟩, ⟨2, 1, .clearChannel⟩,
        ⟨1, 2, .ring (.read [9, 9])⟩]).1 =
      [.ring (.written 1), .noChannel, .cleared 0, .ring (.read ⟨1, [5, 9], 1⟩)] := by
    decide +kernel
  exact ⟨bus, mem, hcreate, hreplies ▸ hrun⟩

/-- Whether a call goes to the pair of ids. -/
def BusCall.goesTo (ids : Int × Int) (c : BusCall) : Bool := (c.srcID, c.dstID) == ids

/-- The answers to the calls that go to the pair of ids. -/
def answersTo (ids : Int × Int) (calls : List BusCall) (replies : List BusReply) : List BusReply :=
  repliesTo ids (byIds calls) replies

/-- The calls to a channel are those that name its ids. -/
theorem callsTo_byIds (ids : Int × Int) (calls : List BusCall) :
    callsTo ids (byIds calls) = (calls.filter (·.goesTo ids)).map BusCall.call := by
  induction calls with
  | nil => rfl
  | cons c calls ih =>
    unfold callsTo byIds at ih
    by_cases hc : (c.srcID, c.dstID) = ids
    · simp [callsTo, byIds, BusCall.goesTo, hc, ih]
    · simp [callsTo, byIds, BusCall.goesTo, hc, ih]

/-- Whatever else is called on the bus, calls to a pair of ids are answered alike. -/
theorem replies_independent (hread : readIBUSConfig ascStrToSize sCfgInfo (some conf) = some cfg)
    (hsum : (cfg.channels.map ChannelCfg.maxLength).sum ≤ cfg.maxLength) (hsize : Sizeable cfg)
    (hcreate : createIBUS ascStrToSize createShm sCfgInfo (some conf) = some (some bus))
    (ids : Int × Int) (calls calls' : List BusCall) (hcalls : ∀ c ∈ calls, c.call.Sized)
    (hcalls' : ∀ c ∈ calls', c.call.Sized)
    (hsame : calls.filter (·.goesTo ids) = calls'.filter (·.goesTo ids)) :
    ∃ r r', runBus bus calls = some r ∧ runBus bus calls' = some r' ∧
      answersTo ids calls r.1 = answersTo ids calls' r'.1 := by
  have hbus := createIBUS_spaced hread hsum hsize hcreate
  obtain ⟨mem, hrun, -⟩ := hbus.refines calls hcalls
  obtain ⟨mem', hrun', -⟩ := hbus.refines calls' hcalls'
  refine ⟨_, _, hrun, hrun', ?_⟩
  -- both are the answers of the queue alone
  simp only [answersTo, runQueues, repliesTo_specRun, callsTo_byIds, hsame]

/-- A message that the one channel delivers, with and without a second one in the other. -/
theorem replies_independent_two : ∃ (bus : IBUS) (r r' : List BusReply × IBUS),
    runBus bus [⟨2, 1, .ring (.write [7])⟩, ⟨1, 2, .ring (.write [5])⟩, ⟨1, 2, .ring (.read [9])⟩] =
      some r ∧
    runBus bus [⟨1, 2, .ring (.write [5])⟩, ⟨1, 2, .ring (.read [9])⟩] = some r' ∧
    answersTo (1, 2) [⟨2, 1, .ring (.write [7])⟩, ⟨1, 2, .ring (.write [5])⟩,
        ⟨1, 2, .ring (.read [9])⟩] r.1 =
      answersTo (1, 2) [⟨1, 2, .ring (.write [5])⟩, ⟨1, 2, .ring (.read [9])⟩] r'.1 := by
  obtain ⟨bus, hcreate⟩ := create_twoChannels
  exact ⟨bus, replies_independent read_twoChannels (by decide) sizeable_twoChannels hcreate (1, 2)
    _ _ (by simp [ChannelCall.Sized, Op.Sized]) (by simp [ChannelCall.Sized, Op.Sized]) rfl⟩

end Created

/-! ## A bus created again -/

section Again

variable {ascStrToSize : String → Int} {sCfgInfo : IBusmCfg} {conf : ConfigFile} {cfg : IBusmCfg}

/-- Where the header of a ring may lie does not depend on what the region holds. -/
theorem initRing_isSome (headSize totalSize : Int) (mem mem' : Nat → UInt8)
    (start maxLength : Int) :
    (initRing headSize totalSize mem start maxLength).isSome =
      (initRing headSize totalSize mem' start maxLength).isSome := by
  by_cases hplace : headSize ≤ start ∧ start + dataOffset ≤ totalSize
  · simp only [initRing, if_pos hplace, Option.isSome_some]
  · simp only [initRing, if_neg hplace, Option.isSome_none]

/-- Nor does the head that the loop leaves. -/
theorem layChannels_head (headSize : Nat) (channels : List ChannelCfg) :
    ∀ {head : IBUSHead} {mem : Nat → UInt8} {bus : IBUS} (mem' : Nat → UInt8),
      layChannels headSize ⟨head, mem⟩ channels = some bus →
      ∃ bus', layChannels headSize ⟨head, mem'⟩ channels = some bus' ∧ bus'.head = bus.head := by
  induction channels with
  | nil =>
    intro head mem bus mem' h
    obtain rfl := Option.some.inj h
    exact ⟨⟨head, mem'⟩, rfl, rfl⟩
  | cons c channels ih =>
    intro head mem bus mem' h
    unfold layChannels at h ⊢
    -- whether a channel fits depends on the head alone
    dsimp only at h ⊢
    split at h
    · rename_i hfits
      rw [if_pos hfits]
      simp only [Option.bind_eq_bind] at h ⊢
      obtain ⟨mem₁, hring, h⟩ := Option.bind_eq_some_iff.mp h
      obtain ⟨mem₂, hring'⟩ := Option.isSome_iff_exists.mp
        ((initRing_isSome _ _ mem' mem _ _).trans (Option.isSome_of_eq_some hring))
      obtain ⟨bus', hlay, hhead⟩ := ih mem₂ h
      exact ⟨bus', by rw [hring', Option.bind_some, hlay], hhead⟩
    · rename_i hfull
      rw [if_neg hfull]
      obtain rfl := Option.some.inj h
      exact ⟨_, rfl, rfl⟩

/-- A region was there for a bus that was created. -/
theorem createShm_of_created {createShm : Int → Nat → Option (Nat → UInt8)} {bus : IBUS}
    (hread : readIBUSConfig ascStrToSize sCfgInfo (some conf) = some cfg)
    (hcreate : createIBUS ascStrToSize createShm sCfgInfo (some conf) = some (some bus)) :
    ∃ mem, createShm cfg.key (SizeT.eight.wrap (headSize cfg.capacity + cfg.maxLength)) =
      some mem := by
  cases hshm : createShm cfg.key (SizeT.eight.wrap (headSize cfg.capacity + cfg.maxLength)) with
  | none => simp only [createIBUS, hread, hshm, Option.some.injEq, reduceCtorEq] at hcreate
  | some mem => exact ⟨mem, rfl⟩

/-- A bus created again on its region, whatever is in it by then, is the bus as it was at first:
    every process finds its channels where they were, and nothing that was not read yet is there
    any more. -/
theorem createIBUS_again {createShm : Int → Nat → Option (Nat → UInt8)} {bus : IBUS}
    (hread : readIBUSConfig ascStrToSize sCfgInfo (some conf) = some cfg)
    (hsum : (cfg.channels.map ChannelCfg.maxLength).sum ≤ cfg.maxLength) (hsize : Sizeable cfg)
    (hcreate : createIBUS ascStrToSize createShm sCfgInfo (some conf) = some (some bus))
    (mem : Nat → UInt8) :
    ∃ bus', createIBUS ascStrToSize (fun _ _ => some mem) sCfgInfo (some conf) = some (some bus') ∧
      bus'.head = bus.head ∧
      ∀ calls : List BusCall, (∀ c ∈ calls, c.call.Sized) →
        ∃ mem', runBus bus' calls =
          some ((runQueues cfg (fun _ => []) calls).1, { bus' with mem := mem' }) := by
  have h := accepted_of_pos hread hsize.pos hsum
  -- the head is built from the configuration alone
  obtain ⟨bus', hcreate', hhead⟩ : ∃ bus',
      createIBUS ascStrToSize (fun _ _ => some mem) sCfgInfo (some conf) = some (some bus') ∧
        bus'.head = bus.head := by
    obtain ⟨mem₀, hshm⟩ := createShm_of_created hread hcreate
    rw [createIBUS_eq hread h hshm] at hcreate
    obtain ⟨bus₁, hlay, heq⟩ := Option.map_eq_some_iff.mp hcreate
    obtain rfl := Option.some.inj heq
    obtain ⟨bus', hlay', hhead⟩ := layChannels_head _ _ mem hlay
    exact ⟨bus', by rw [createIBUS_eq hread h rfl]; exact congrArg (Option.map some) hlay', hhead⟩
  -- and the channels are cleared, whatever the region held
  refine ⟨bus', hcreate', hhead, fun calls hcalls => ?_⟩
  obtain ⟨mem', hrun, -⟩ := (createIBUS_spaced hread hsum hsize hcreate').refines calls hcalls
  exact ⟨mem', hrun⟩

/-- A message is written, the bus is created again on the region as the run has left it, and the
    message is not there any more. -/
theorem createIBUS_again_two : ∃ (bus bus' : IBUS) (mem mem' : Nat → UInt8),
    runBus bus [⟨1, 2, .ring (.write [5])⟩] =
      some ([.ring (.written 1)], { bus with mem := mem }) ∧
    createIBUS twoSizes (fun _ _ => some mem) initialCfg (some twoChannels) = some (some bus') ∧
    bus'.head = bus.head ∧
    runBus bus' [⟨1, 2, .ring (.read [9])⟩, ⟨2, 1, .ring (.write [6, 7])⟩,
        ⟨2, 1, .ring (.read [9, 9])⟩] =
      some ([.ring (.read ⟨-1, [9], 0⟩), .ring (.written 2), .ring (.read ⟨2, [6, 7], 2⟩)],
        { bus' with mem := mem' }) := by
  -- the first bus takes a message
  obtain ⟨bus, hcreate⟩ := create_twoChannels
  obtain ⟨mem, hwrite, -⟩ := bus_refines read_twoChannels (by decide) sizeable_twoChannels hcreate
    [⟨1, 2, .ring (.write [5])⟩] (by simp [ChannelCall.Sized, Op.Sized])
  -- the second, over the region it left, has none
  obtain ⟨bus', hcreate', hhead, hcalls⟩ := createIBUS_again read_twoChannels (by decide)
    sizeable_twoChannels hcreate mem
  obtain ⟨mem', hrun⟩ := hcalls [⟨1, 2, .ring (.read [9])⟩, ⟨2, 1, .ring (.write [6, 7])⟩,
    ⟨2, 1, .ring (.read [9, 9])⟩] (by simp [ChannelCall.Sized, Op.Sized])
  have hwritten : (runQueues ⟨7, 2, 112, [⟨1, 2, 48⟩, ⟨2, 1, 48⟩], []⟩ (fun _ => [])
      [⟨1, 2, .ring (.write [5])⟩]).1 = [.ring (.written 1)] := by
    decide +kernel
  have hreplies : (runQueues ⟨7, 2, 112, [⟨1, 2, 48⟩, ⟨2, 1, 48⟩], []⟩ (fun _ => [])
      [⟨1, 2, .ring (.read [9])⟩, ⟨2, 1, .ring (.write [6, 7])⟩, ⟨2, 1, .ring (.read [9, 9])⟩]).1 =
      [.ring (.read ⟨-1, [9], 0⟩), .ring (.written 2), .ring (.read ⟨2, [6, 7], 2⟩)] := by
    decide +kernel
  exact ⟨bus, bus', mem, mem', hwritten ▸ hwrite, hcreate', hhead, hreplies ▸ hrun⟩

end Again

end XGame3.Ibus
