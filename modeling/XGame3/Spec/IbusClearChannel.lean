import XGame3.Spec.IbusQueues

/-!
# What `ClearChannel` reaches

A ring header has twenty bytes and a channel at least sixteen, so clearing a channel of the
least size stores its last counter where the next channel begins, in the word that holds the
size of the next ring.  The calls of such a channel store nothing else: its ring has a
negative size and admits no message.

Key results:
- `clearChannel_confined_iff`: `ClearChannel` keeps to its channel exactly when every channel it
  can find, but for the last one, has more than sixteen bytes.
- `clearChannel_next`: otherwise the ring behind has the size zero from then on.
-/

namespace XGame3.Ibus

open FixedInt LittleEndian CircleBuffer Circular Layout

/-- `ClearChannel` leaves the head, its table and the bytes allotted to other channels as they
    are, whatever the region holds. -/
def ClearConfined (cfg : IBusmCfg) (bus : IBUS) : Prop :=
  ∀ (mem : Nat → UInt8) (srcID dstID : Int) (i : Nat), getChannel bus.head srcID dstID = some i →
    ∀ a, Foreign cfg bus i a →
      (clearChannel { bus with mem := mem } srcID dstID).2.mem a = mem a

/-- Every channel that `GetChannel` finds, but for the last one, has more than sixteen bytes. -/
def ClearRoomy (cfg : IBusmCfg) (bus : IBUS) : Prop :=
  ∀ (i : Nat) (c : ChannelCfg), ((i + 1 : Nat) : Int) < bus.head.count →
    cfg.channels[i]? = some c → getChannel bus.head c.srcID c.dstID = some i → 16 < c.maxLength

section Clear

variable {cfg : IBusmCfg} {bus : IBUS} {k i : Nat} {c : ChannelCfg}

/-- The region after `ClearChannel` found its channel. -/
theorem clearChannel_mem {srcID dstID : Int} (h : getChannel bus.head srcID dstID = some i)
    (mem : Nat → UInt8) :
    (clearChannel { bus with mem := mem } srcID dstID).2.mem =
      storeAll mem (clearRing (bus.head.channeles i).start.toNat).2 := by
  simp only [clearChannel, h]

/-- The counters of a ring are stored in the sixteen bytes behind `maxLength_`. -/
theorem clearRing_range {start : Nat} {s : Nat × UInt8} (hs : s ∈ (clearRing start).2) :
    start + 4 ≤ s.1 ∧ s.1 < start + 20 := by
  obtain ⟨hlo, hhi⟩ : RingByte start 0 s.1 := ringByte_clearRing hs
  omega

/-- The last of them is `msgRead_`. -/
theorem loadInt_clearRing (mem : Nat → UInt8) (start : Nat) :
    loadInt (storeAll mem (clearRing start).2) (start + 16) = 0 := by
  have hring := congrArg TagCircleBuffer.msgRead (ringAt_clearRing mem start)
  simpa only [ringAt, clear] using hring

/-- A channel that is found is one of those counted. -/
theorem getChannel_lt {srcID dstID : Int} (h : getChannel bus.head srcID dstID = some i) :
    (i : Int) < bus.head.count := by
  have hmem := List.mem_range.mp (List.mem_of_find?_eq_some h)
  omega

/-- The ids of the channel that was found. -/
theorem Laid.ids_of_getChannel (hbus : Laid cfg.channels (regionSize cfg) k bus) {srcID dstID : Int}
    (hi : i < k) (hc : cfg.channels[i]? = some c) (h : getChannel bus.head srcID dstID = some i) :
    srcID = c.srcID ∧ dstID = c.dstID := by
  unfold getChannel at h
  have hfound := List.find?_some h
  rw [hbus.entry i c hi hc] at hfound
  simpa using hfound

variable (hbus : Laid cfg.channels (regionSize cfg) k bus) (h : Accepted cfg)
  (hmax : ∀ c ∈ cfg.channels, c.maxLength ≤ 2147483632) (hk : k ≤ cfg.channels.length)

include hbus h hmax hk

/-- Where a counted channel lies. -/
theorem Laid.placed_at (hi : i < k) : ∃ c, cfg.channels[i]? = some c ∧ 0 < c.maxLength ∧
    tableEnd cfg.channels.length ≤ (bus.head.channeles i).start ∧
    (bus.head.channeles i).maxLength = alignSize c.maxLength 16 ∧
    ∀ j, i < j → j < k →
      (bus.head.channeles i).start + alignSize c.maxLength 16 ≤ (bus.head.channeles j).start := by
  have hc := List.getElem?_eq_getElem (show i < cfg.channels.length by omega)
  have hstart : ∀ j, j < k → (bus.head.channeles j).start = storedStart cfg.channels j := by
    intro j hj
    rw [hbus.entry j _ hj (List.getElem?_eq_getElem (show j < cfg.channels.length by omega))]
  refine ⟨_, hc, h.pos _ (List.mem_of_getElem? hc), ?_, (hbus.channel_eq h hmax hi hc).2, ?_⟩
  · exact hstart i hi ▸ (hbus.placed i hi).1
  · intro j hij hj
    rw [hstart i hi, hstart j hj]
    exact hbus.before h hmax hij hj hc

/-- Clearing stays inside channels that have room for a ring's positions, -/
theorem Laid.clearConfined (hroomy : ClearRoomy cfg bus) : ClearConfined cfg bus := by
  intro mem srcID dstID i hget a ha
  have hi : i < k := by
    have hlt := getChannel_lt hget
    rw [hbus.count_eq] at hlt
    omega
  obtain ⟨c, hc, hpos, htable, hsize, hbefore⟩ := hbus.placed_at h hmax hk hi
  have hbounds := alignSize_bounds c.maxLength
  rw [tableEnd_eq] at htable
  rw [clearChannel_mem hget]
  refine storeAll_of_not_mem mem fun s hs hsa => ?_
  have hrange := clearRing_range hs
  rcases ha with hhead | ⟨j, hj, hji, hlo, hhi⟩
  · -- the head and the table end before the channel
    rw [tableEnd_eq] at hhead
    omega
  · rw [hbus.count_eq] at hj
    obtain ⟨d, hd, -, -, hsize', hbefore'⟩ := hbus.placed_at h hmax hk (i := j) (by omega)
    rcases Nat.lt_or_gt_of_ne hji with hlt | hgt
    · have := hbefore' i hlt hi
      omega
    · -- a channel behind: the cleared one is not the last
      obtain ⟨rfl, rfl⟩ := hbus.ids_of_getChannel hi hc hget
      have hroom := hroomy i c (by rw [hbus.count_eq]; omega) hc hget
      have := hbefore j hgt (by omega)
      omega

/-- The channel behind one of the least size starts in its header. -/
theorem Laid.next_start (hi : i + 1 < k) (hc : cfg.channels[i]? = some c)
    (htiny : c.maxLength ≤ 16) :
    (bus.head.channeles (i + 1)).start.toNat = (bus.head.channeles i).start.toNat + 16 := by
  have hd := List.getElem?_eq_getElem (show i + 1 < cfg.channels.length by omega)
  have hpos := h.pos c (List.mem_of_getElem? hc)
  have hbounds := alignSize_bounds c.maxLength
  have htable := (hbus.placed i (by omega)).1
  rw [hbus.storedStart_eq h hmax (by omega), tableEnd_eq] at htable
  rw [(hbus.channel_eq h hmax hi hd).1, (hbus.channel_eq h hmax (by omega) hc).1,
    channelStart_succ hc]
  omega

/-- Clearing a channel of the least size makes the ring behind it one of no bytes. -/
theorem Laid.clearChannel_next (mem : Nat → UInt8) (hi : i + 1 < k) (hc : cfg.channels[i]? = some c)
    (hget : getChannel bus.head c.srcID c.dstID = some i) (htiny : c.maxLength ≤ 16) :
    ringLength (clearChannel { bus with mem := mem } c.srcID c.dstID).2 (i + 1) = 0 := by
  have hhead : (clearChannel { bus with mem := mem } c.srcID c.dstID).2.head = bus.head := by
    simp only [clearChannel, hget]
  rw [ringLength, hhead, clearChannel_mem hget, hbus.next_start h hmax hk hi hc htiny]
  simp only [ringAt, loadInt_clearRing]

/-- and only inside those. -/
theorem Laid.clearRoomy (hconf : ClearConfined cfg bus) : ClearRoomy cfg bus := by
  intro i c hcount hc hget
  refine Int.lt_of_not_ge fun htiny => ?_
  have hi : i + 1 < k := by
    rw [hbus.count_eq] at hcount
    omega
  -- in a region of ones the first byte of the next channel becomes zero
  have hzero := hbus.clearChannel_next h hmax hk (fun _ => 1) hi hc hget htiny
  obtain ⟨d, -, hpos, htable, hsize, -⟩ := hbus.placed_at h hmax hk hi
  rw [tableEnd_eq] at htable
  have hbounds := alignSize_bounds d.maxLength
  have hsame : ∀ o, o < 4 → (clearChannel { bus with mem := fun _ => 1 } c.srcID c.dstID).2.mem
      ((bus.head.channeles (i + 1)).start.toNat + o) = 1 := by
    intro o ho
    exact hconf _ _ _ i hget _ (.inr ⟨i + 1, by rw [hbus.count_eq]; omega, by omega, by omega,
      by omega⟩)
  have hhead : (clearChannel { bus with mem := fun _ => 1 } c.srcID c.dstID).2.head = bus.head := by
    simp only [clearChannel, hget]
  rw [ringLength, hhead] at hzero
  have hones : loadInt (clearChannel { bus with mem := fun _ => 1 } c.srcID c.dstID).2.mem
      (bus.head.channeles (i + 1)).start.toNat = 16843009 := by
    rw [loadInt, List.map_congr_left fun o ho => hsame o (List.mem_range.mp ho)]
    decide +kernel
  simp only [ringAt, hones] at hzero
  omega

end Clear

/-- On every created bus whose sizes do not overflow, `ClearChannel` changes nothing that belongs
    to another channel exactly when the channels it finds, but for the last, have more than
    sixteen bytes; when it finds a smaller one, the ring behind has the size zero afterwards. -/
theorem clearChannel_confined_iff {ascStrToSize : String → Int}
    {createShm : Int → Nat → Option (Nat → UInt8)} {sCfgInfo : IBusmCfg} {conf : ConfigFile}
    {cfg : IBusmCfg} {bus : IBUS}
    (hread : readIBUSConfig ascStrToSize sCfgInfo (some conf) = some cfg)
    (hpos : ∀ c ∈ cfg.channels, 0 < c.maxLength)
    (hsum : (cfg.channels.map ChannelCfg.maxLength).sum ≤ cfg.maxLength)
    (hmax : ∀ c ∈ cfg.channels, c.maxLength ≤ 2147483632)
    (hcreate : createIBUS ascStrToSize createShm sCfgInfo (some conf) = some (some bus)) :
    (ClearConfined cfg bus ↔ ClearRoomy cfg bus) ∧
      ∀ (mem : Nat → UInt8) (i : Nat) (c : ChannelCfg), ((i + 1 : Nat) : Int) < bus.head.count →
        cfg.channels[i]? = some c → getChannel bus.head c.srcID c.dstID = some i →
        c.maxLength ≤ 16 →
        ringLength (clearChannel { bus with mem := mem } c.srcID c.dstID).2 (i + 1) = 0 := by
  have h := accepted_of_pos hread hpos hsum
  obtain ⟨k, hk, hbus, -, -⟩ := createIBUS_laid hread h hcreate
  -- the exact condition, and what happens to the ring behind a tiny channel
  refine ⟨⟨hbus.clearRoomy h hmax hk, hbus.clearConfined h hmax hk⟩,
    fun mem i c hi hc hget htiny => ?_⟩
  rw [hbus.count_eq] at hi
  exact hbus.clearChannel_next h hmax hk mem (by omega) hc hget htiny

/-- A channel of 16 bytes in front of one of 48. -/
theorem clearChannel_confined_iff_tiny : ∃ bus,
    createIBUS (fun size => if size = "16" then 16 else if size = "48" then 48 else 72)
      (fun _ _ => some fun _ => 0) initialCfg
      (some ⟨some 7, some "72", [.list 1 2 "16", .list 2 1 "48"], []⟩) = some (some bus) ∧
    ¬ ClearConfined ⟨7, 2, 72, [⟨1, 2, 16⟩, ⟨2, 1, 48⟩], []⟩ bus := by
  have hvalues : (createIBUS
      (fun size => if size = "16" then 16 else if size = "48" then 48 else 72)
      (fun _ _ => some fun _ => 0) initialCfg
      (some ⟨some 7, some "72", [.list 1 2 "16", .list 2 1 "48"], []⟩)).map (Option.map fun bus =>
        (bus.head.count, getChannel bus.head 1 2)) = some (some (2, some 0)) := by
    decide +kernel
  obtain ⟨created, hcreate, hbus⟩ := Option.map_eq_some_iff.mp hvalues
  obtain ⟨bus, rfl, hbus'⟩ := Option.map_eq_some_iff.mp hbus
  obtain ⟨hcount, hget⟩ := Prod.mk.inj hbus'
  have hread : readIBUSConfig
      (fun size => if size = "16" then 16 else if size = "48" then 48 else 72)
      initialCfg (some ⟨some 7, some "72", [.list 1 2 "16", .list 2 1 "48"], []⟩) =
      some ⟨7, 2, 72, [⟨1, 2, 16⟩, ⟨2, 1, 48⟩], []⟩ := by decide
  -- the first channel is sixteen bytes, too short for the positions
  have hiff := (clearChannel_confined_iff hread (by decide) (by decide) (by decide) hcreate).1
  refine ⟨bus, hcreate, fun hconf => ?_⟩
  have hroom := hiff.mp hconf 0 ⟨1, 2, 16⟩ (by rw [hcount]; decide) rfl hget
  exact absurd hroom (by decide)

end XGame3.Ibus
