import XGame3.ForStd.Layout
import XGame3.Native.Ibus

/-!
# Where the channels of the bus end up

The layout loop stores 16-aligned offsets and sizes in `int`s and stops at the first
channel that would end behind the region.  `Laid chans total k bus` says what the first
`k` channels look like afterwards, in terms of what was stored; the properties a
configuration should have (`LayoutOk`, `ChannelsExist`) are about the true offsets and
about all channels, and hold exactly for the configurations in which the two agree.

## Key results

- `layChannels_spec`: the region the loop ends with, or the ring header it cannot place
- `layout_iff`: the layout is sound exactly for `Roomy` configurations
- `channels_exist_iff`: all accepted channels exist exactly when their aligned sizes
  fit as well
-/

namespace XGame3.Ibus

open FixedInt LittleEndian CircleBuffer Layout

/-! ## Memory -/

/-- A number before the written bytes is read unchanged. -/
theorem loadInt_blit_of_le {mem : Nat → UInt8} {off a : Nat} {bs : List UInt8} (h : a + 4 ≤ off) :
    loadInt (Circular.blit mem off bs) a = loadInt mem a := by
  have hmap : (List.range 4).map (fun k => Circular.blit mem off bs (a + k)) =
      (List.range 4).map fun k => mem (a + k) := by
    refine List.map_congr_left fun k hk => ?_
    have := List.mem_range.mp hk
    rw [Circular.blit, if_neg (by omega)]
  rw [loadInt, hmap, loadInt]

/-- An `int` comes back as it was stored. -/
theorem loadInt_blit_intBytes (mem : Nat → UInt8) (off : Nat) (x : Int) (bs : List UInt8) :
    loadInt (Circular.blit mem off (intBytes x ++ bs)) off = int32 x := by
  have hlen : (intBytes x).length = 4 := length_toLE ..
  have hmap : (List.range 4).map (fun k => Circular.blit mem off (intBytes x ++ bs) (off + k)) =
      intBytes x := by
    refine List.ext_getElem (by simp [hlen]) fun k h₁ h₂ => ?_
    rw [List.getElem_map, List.getElem_range, Circular.blit, if_pos (by omega),
      Nat.add_sub_cancel_left, List.getElem?_append_left h₂, List.getElem?_eq_getElem h₂]
    rfl
  rw [loadInt, hmap, intBytes, ofLE_toLE_of_lt (by omega)]
  exact int32_congr (by omega)

/-! ## Sizes and offsets -/

/-- Alignment rounds up to the next multiple of sixteen. -/
theorem alignSize_bounds (size : Int) :
    size ≤ alignSize size 16 ∧ alignSize size 16 < size + 16 ∧ alignSize size 16 % 16 = 0 := by
  unfold alignSize
  omega

/-- The end of a table of `n` channels: what `headSize` is meant to be. -/
def tableEnd (n : Nat) : Int := sizeofIBUSHead + (n - 1) * sizeofIBUSChannel

/-- The table of the channels ends after 24 bytes and 16 for each channel. -/
theorem tableEnd_eq (n : Nat) : tableEnd n = 24 + 16 * n := by
  unfold tableEnd sizeofIBUSHead sizeofIBUSChannel
  omega

/-- The channels begin at the next multiple of sixteen. -/
theorem alignSize_tableEnd (n : Nat) : alignSize (tableEnd n) 16 = 32 + 16 * n := by
  rw [tableEnd_eq, alignSize]
  omega

/-- The head is as long as its table. -/
theorem headSize_eq {n : Nat} (hn : n < 2147483648) : headSize n = (tableEnd n).toNat := by
  have hcap : int32 ((n : Int) - 1) = (n : Int) - 1 := int32_of_isInt32 (by omega)
  have hnat : sizeofIBUSHead + int32 ((n : Int) - 1) * sizeofIBUSChannel =
      ((tableEnd n).toNat : Nat) := by
    rw [hcap, Int.toNat_of_nonneg (by rw [tableEnd_eq]; omega), tableEnd]
  rw [headSize, hnat, SizeT.wrap_natCast (by
    rw [tableEnd_eq]
    simp only [SizeT.modulus]
    omega)]

/-- `channel.maxLength`: the aligned size as an `int`. -/
def storedSize (c : ChannelCfg) : Int := int32 (alignSize c.maxLength 16)

/-- `head->offset` before channel `i`. -/
def storedOffset (channels : List ChannelCfg) (i : Nat) : Int :=
  offsetAt (alignSize (tableEnd channels.length) 16) (channels.map storedSize) i

/-- `channel.start`: that offset as an `int`. -/
def storedStart (channels : List ChannelCfg) (i : Nat) : Int := int32 (storedOffset channels i)

/-- The offset behind a channel adds its stored size. -/
theorem storedOffset_succ {channels : List ChannelCfg} {i : Nat} {c : ChannelCfg}
    (h : channels[i]? = some c) :
    storedOffset channels (i + 1) = storedOffset channels i + storedSize c :=
  offsetAt_succ _ (by rw [List.getElem?_map, h, Option.map_some])

/-- No offset leaves the range of a `long`. -/
theorem isInt64_storedOffset {channels : List ChannelCfg} (hn : channels.length < 2147483648)
    (i : Nat) : IsInt64 (storedOffset channels i) := by
  have hsizes : ∀ s ∈ channels.map storedSize, -2147483648 ≤ s ∧ s ≤ 2147483648 := by
    intro s hs
    obtain ⟨c, -, rfl⟩ := List.mem_map.mp hs
    have := isInt32_int32 (alignSize c.maxLength 16)
    unfold storedSize
    omega
  have hbounds := offsetAt_bounds (alignSize (tableEnd channels.length) 16)
    (B := 2147483648) (by decide) hsizes i
  rw [List.length_map, alignSize_tableEnd] at hbounds
  unfold storedOffset
  rw [alignSize_tableEnd]
  omega

/-! ## The channel loop -/

/-- Channel `i` ends inside the region, so it is counted. -/
def Fits (channels : List ChannelCfg) (total : Int) (i : Nat) : Prop :=
  storedOffset channels (i + 1) ≤ total

/-- The ring header of channel `i` lies between the table and the end of the region. -/
def Placed (channels : List ChannelCfg) (total : Int) (i : Nat) : Prop :=
  tableEnd channels.length ≤ storedStart channels i ∧
    storedStart channels i + dataOffset ≤ total

/-- The region after the first `k` channels were counted. -/
structure Laid (channels : List ChannelCfg) (total : Int) (k : Nat) (bus : IBUS) : Prop where
  count_eq : bus.head.count = k
  maxLength_eq : bus.head.maxLength = total
  entry : ∀ (j : Nat) (c : ChannelCfg), j < k → channels[j]? = some c →
    bus.head.channeles j = ⟨c.srcID, c.dstID, storedStart channels j, storedSize c⟩
  ring : ∀ (j : Nat) (c : ChannelCfg), j < k → channels[j]? = some c →
    (∀ i, j < i → i < k → storedStart channels j + 4 ≤ storedStart channels i) →
    (ringAt bus.mem (storedStart channels j).toNat).maxLength =
      int32 (storedSize c - sizeofTagCircleBuffer)
  fits : ∀ j, j < k → Fits channels total j
  placed : ∀ j, j < k → Placed channels total j

section Loop

variable {channels : List ChannelCfg} {total : Int} {k : Nat} {bus : IBUS} {c : ChannelCfg}

/-- The head after the entry of channel `k` was written. -/
def enter (channels : List ChannelCfg) (k : Nat) (c : ChannelCfg) (head : IBUSHead) : IBUSHead :=
  { head with
    channeles := Function.update head.channeles k
      ⟨c.srcID, c.dstID, storedStart channels k, storedSize c⟩
    offset := storedOffset channels (k + 1) }

/-- The header of the ring of channel `k`. -/
def ringHeader (channels : List ChannelCfg) (k : Nat) (c : ChannelCfg) (mem : Nat → UInt8) :
    Nat → UInt8 :=
  storeHeader mem (storedStart channels k).toNat
    (clear { ringAt mem (storedStart channels k).toNat with
      maxLength := int32 (storedSize c - sizeofTagCircleBuffer) }).2

/-- One iteration of the loop. -/
theorem layChannels_cons (hn : channels.length < 2147483648) (hbus : Laid channels total k bus)
    (hoffset : bus.head.offset = storedOffset channels k) (hc : channels[k]? = some c)
    (rest : List ChannelCfg) :
    layChannels (tableEnd channels.length).toNat bus (c :: rest) =
      if storedOffset channels (k + 1) ≤ total then
        if tableEnd channels.length ≤ storedStart channels k ∧
            storedStart channels k + dataOffset ≤ total then
          layChannels (tableEnd channels.length).toNat
            { head := { enter channels k c bus.head with count := (k + 1 : Nat) }
              mem := ringHeader channels k c bus.mem } rest
        else none
      else some { head := enter channels k c bus.head, mem := bus.mem } := by
  have hk : k < channels.length := (List.getElem?_eq_some_iff.mp hc).1
  obtain ⟨⟨capacity, count, maxLength, offset, channeles⟩, mem⟩ := bus
  obtain rfl : count = k := hbus.count_eq
  obtain rfl : maxLength = total := hbus.maxLength_eq
  obtain rfl : offset = storedOffset channels k := hoffset
  have hlong : int64 (storedOffset channels k + storedSize c) = storedOffset channels (k + 1) := by
    rw [← storedOffset_succ hc, int64_of_isInt64 (isInt64_storedOffset hn _)]
  have hcount : int32 ((k : Int) + 1) = (k + 1 : Nat) := int32_of_isInt32 (by omega)
  have hlen : int32 (SizeT.eight.wrap (storedSize c - sizeofTagCircleBuffer)) =
      int32 (storedSize c - sizeofTagCircleBuffer) := int32_wrap ..
  have hhead : ((tableEnd channels.length).toNat : Int) = tableEnd channels.length :=
    Int.toNat_of_nonneg (by rw [tableEnd_eq]; omega)
  have hstart : int32 (storedOffset channels k) = storedStart channels k := rfl
  have hsize : int32 (alignSize c.maxLength 16) = storedSize c := rfl
  -- none of the sums of the iteration wraps
  simp only [layChannels, hstart, hsize, hlong, hcount, hlen, initRing, hhead, Int.toNat_natCast,
    Option.bind_eq_bind]
  by_cases hfits : storedOffset channels (k + 1) ≤ maxLength
  · rw [if_pos hfits, if_pos hfits]
    by_cases hplaced : tableEnd channels.length ≤ storedStart channels k ∧
        storedStart channels k + dataOffset ≤ maxLength
    · rw [if_pos hplaced, if_pos hplaced, Option.bind_some]
      rfl
    · rw [if_neg hplaced, if_neg hplaced, Option.bind_none]
  · rw [if_neg hfits, if_neg hfits]
    rfl

/-- Counting channel `k` extends what is laid out. -/
theorem Laid.step (hbus : Laid channels total k bus) (hc : channels[k]? = some c)
    (hfits : Fits channels total k) (hplaced : Placed channels total k) :
    Laid channels total (k + 1)
      { head := { enter channels k c bus.head with count := (k + 1 : Nat) }
        mem := ringHeader channels k c bus.mem } where
  count_eq := rfl
  maxLength_eq := hbus.maxLength_eq
  entry := by
    intro j c' hj hc'
    simp only [enter]
    rcases Nat.lt_or_eq_of_le (Nat.le_of_lt_succ hj) with hlt | rfl
    · rw [Function.update_of_ne (by omega)]
      exact hbus.entry j c' hlt hc'
    · obtain rfl := Option.some.inj (hc.symm.trans hc')
      rw [Function.update_self]
  ring := by
    intro j c' hj hc' hafter
    simp only [ringHeader, storeHeader, ringAt, List.append_assoc]
    rcases Nat.lt_or_eq_of_le (Nat.le_of_lt_succ hj) with hlt | rfl
    · -- the new header lies behind the word
      have hbefore := hafter k hlt (Nat.lt_succ_self k)
      have hpos := (hbus.placed j hlt).1
      rw [tableEnd_eq] at hpos
      have hold := hbus.ring j c' hlt hc' fun i hi hik => hafter i hi (by omega)
      simp only [ringAt] at hold
      rw [loadInt_blit_of_le (by omega), hold]
    · -- the header just written
      obtain rfl := Option.some.inj (hc.symm.trans hc')
      have hword := isInt32_int32 (storedSize c - sizeofTagCircleBuffer)
      simp only [loadInt_blit_intBytes, clear]
      exact int32_of_isInt32 hword
  fits := by
    intro j hj
    rcases Nat.lt_or_eq_of_le (Nat.le_of_lt_succ hj) with hlt | rfl
    · exact hbus.fits j hlt
    · exact hfits
  placed := by
    intro j hj
    rcases Nat.lt_or_eq_of_le (Nat.le_of_lt_succ hj) with hlt | rfl
    · exact hbus.placed j hlt
    · exact hplaced

/-- Entry `k` alone does not count. -/
theorem Laid.enter (hbus : Laid channels total k bus) (c : ChannelCfg) :
    Laid channels total k { head := enter channels k c bus.head, mem := bus.mem } where
  count_eq := hbus.count_eq
  maxLength_eq := hbus.maxLength_eq
  entry := by
    intro j c' hj hc'
    simp only [Ibus.enter]
    rw [Function.update_of_ne (by omega)]
    exact hbus.entry j c' hj hc'
  ring := hbus.ring
  fits := hbus.fits
  placed := hbus.placed

/-- How the loop ends: after the last channel, before the first one that does not fit, or
    at a ring header without a place. -/
inductive LoopEnd (channels : List ChannelCfg) (total : Int) : Option IBUS → Prop
  | all {bus : IBUS} (hbus : Laid channels total channels.length bus)
      (hoffset : bus.head.offset = storedOffset channels channels.length) :
      LoopEnd channels total (some bus)
  | full {bus : IBUS} {k : Nat} (hk : k < channels.length) (hbus : Laid channels total k bus)
      (hfull : ¬ Fits channels total k) : LoopEnd channels total (some bus)
  | fault {k : Nat} (hk : k < channels.length) (hfits : ∀ j, j ≤ k → Fits channels total j)
      (hplaced : ¬ Placed channels total k) : LoopEnd channels total none

/-- The loop lays the remaining channels out, or ends as `LoopEnd` says. -/
theorem layChannels_spec (hn : channels.length < 2147483648) (rest : List ChannelCfg) :
    ∀ {k : Nat} {bus : IBUS}, channels.drop k = rest → k ≤ channels.length →
      Laid channels total k bus → bus.head.offset = storedOffset channels k →
      LoopEnd channels total (layChannels (tableEnd channels.length).toNat bus rest) := by
  -- on the channels that are left, those from number `k` on
  induction rest with
  | nil =>
    intro k bus hdrop hk hbus hoffset
    have hlen : k = channels.length := by
      have := List.drop_eq_nil_iff.mp hdrop
      omega
    subst hlen
    exact .all hbus hoffset
  | cons c rest ih =>
    intro k bus hdrop hk hbus hoffset
    have hc : channels[k]? = some c := by
      rw [← List.head?_drop, hdrop, List.head?_cons]
    have hlt : k < channels.length := (List.getElem?_eq_some_iff.mp hc).1
    rw [layChannels_cons hn hbus hoffset hc]
    split
    · rename_i hfits
      split
      · -- the channel is counted
        rename_i hplaced
        refine ih ?_ hlt (hbus.step hc hfits hplaced) rfl
        rw [← List.tail_drop, hdrop, List.tail_cons]
      · -- the ring header would lie outside the region
        rename_i hplaced
        refine .fault hlt (fun j hj => ?_) hplaced
        rcases Nat.lt_or_eq_of_le hj with hjk | rfl
        · exact hbus.fits j hjk
        · exact hfits
    · -- the loop returns with the entry written and the offset past the end
      rename_i hfull
      exact .full hlt (hbus.enter c) hfull

end Loop

/-! ## What `CreateIBUS` starts from -/

/-- A configuration whose channels are within its total. -/
structure Accepted (cfg : IBusmCfg) : Prop where
  pos : ∀ c ∈ cfg.channels, 0 < c.maxLength
  sum_le : (cfg.channels.map ChannelCfg.maxLength).sum ≤ cfg.maxLength
  isInt32 : IsInt32 cfg.maxLength
  capacity_eq : cfg.capacity = int32 cfg.channels.length

/-- Every channel `GetChannels` adds has a positive size. -/
theorem getChannels_pos (ascStrToSize : String → Int) (maxSize : Int)
    (settings : List ChannelSetting) {channels : List ChannelCfg} {allocSize : Int}
    (h : ∀ c ∈ channels, 0 < c.maxLength) :
    ∀ c ∈ (getChannels ascStrToSize maxSize settings channels allocSize).1, 0 < c.maxLength := by
  induction settings generalizing channels allocSize with
  | nil => exact h
  | cons setting settings ih =>
    cases setting with
    | other => exact ih h
    | list srcID dstID size =>
      -- an accepted channel has a positive length
      simp only [getChannels]
      split
      · rename_i hpos
        split
        · refine ih fun c hc => ?_
          rcases List.mem_append.mp hc with hold | hnew
          · exact h c hold
          · rw [List.mem_singleton.mp hnew]
            exact hpos
        · exact ih h
      · exact ih h

/-- Every channel takes at least a byte of the sum. -/
private theorem length_le_sum {l : List ChannelCfg} (hl : ∀ c ∈ l, 0 < c.maxLength) :
    (l.length : Int) ≤ (l.map ChannelCfg.maxLength).sum := by
  induction l with
  | nil => exact Int.le_refl _
  | cons c l ih =>
    have hc := hl c (List.mem_cons_self ..)
    have hrest := ih fun d hd => hl d (List.mem_cons_of_mem c hd)
    rw [List.length_cons, List.map_cons, List.sum_cons]
    omega

/-- A channel takes no more than all channels together. -/
private theorem maxLength_le_sum {l : List ChannelCfg} (hl : ∀ c ∈ l, 0 < c.maxLength) :
    0 ≤ (l.map ChannelCfg.maxLength).sum ∧
      ∀ c ∈ l, c.maxLength ≤ (l.map ChannelCfg.maxLength).sum := by
  induction l with
  | nil => exact ⟨Int.le_refl _, fun c hc => absurd hc List.not_mem_nil⟩
  | cons d l ih =>
    obtain ⟨hsum, hmem⟩ := ih fun c hc => hl c (List.mem_cons_of_mem d hc)
    have hd := hl d (List.mem_cons_self ..)
    rw [List.map_cons, List.sum_cons]
    refine ⟨by omega, fun c hc => ?_⟩
    rcases List.mem_cons.mp hc with rfl | hc
    · omega
    · have := hmem c hc
      omega

section Create

variable {ascStrToSize : String → Int} {createShm : Int → Nat → Option (Nat → UInt8)}
  {sCfgInfo : IBusmCfg} {conf : ConfigFile} {cfg : IBusmCfg} {mem : Nat → UInt8}

/-- What was read is accepted as far as its sizes are. -/
theorem accepted_of_pos (hread : readIBUSConfig ascStrToSize sCfgInfo (some conf) = some cfg)
    (hpos : ∀ c ∈ cfg.channels, 0 < c.maxLength)
    (hsum : (cfg.channels.map ChannelCfg.maxLength).sum ≤ cfg.maxLength) : Accepted cfg := by
  simp only [readIBUSConfig, Option.map_some, Option.some.injEq] at hread
  subst hread
  exact ⟨hpos, hsum, isInt32_int32 (ascStrToSize (conf.size.getD "100M")), by dsimp only⟩

/-- The first configuration a process reads is accepted as far as its sum is. -/
theorem accepted_of_read (hread : readIBUSConfig ascStrToSize initialCfg (some conf) = some cfg)
    (hsum : (cfg.channels.map ChannelCfg.maxLength).sum ≤ cfg.maxLength) : Accepted cfg := by
  refine accepted_of_pos hread ?_ hsum
  simp only [readIBUSConfig, Option.map_some, Option.some.injEq] at hread
  subst hread
  exact getChannels_pos _ _ _ fun c hc => absurd hc List.not_mem_nil

/-- Every channel takes at least a byte of the total. -/
theorem Accepted.length_le (h : Accepted cfg) : (cfg.channels.length : Int) ≤ cfg.maxLength :=
  Int.le_trans (length_le_sum h.pos) h.sum_le

/-- The size of the region. -/
def regionSize (cfg : IBusmCfg) : Int := tableEnd cfg.channels.length + cfg.maxLength

/-- The size asked of the shared memory is the region's, without overflow. -/
theorem Accepted.totalSize_eq (h : Accepted cfg) :
    (SizeT.eight.wrap (headSize cfg.capacity + cfg.maxLength) : Int) = regionSize cfg := by
  have hlen := h.length_le
  have hint := h.isInt32
  have hhead : headSize cfg.capacity = (tableEnd cfg.channels.length).toNat := by
    rw [h.capacity_eq, int32_of_isInt32 (by omega), headSize_eq (by omega)]
  have hnat : ((headSize cfg.capacity : Nat) : Int) + cfg.maxLength =
      ((regionSize cfg).toNat : Nat) := by
    rw [hhead, regionSize, tableEnd_eq]
    omega
  rw [hnat, SizeT.wrap_natCast]
  · rw [regionSize, tableEnd_eq]
    omega
  · rw [regionSize, tableEnd_eq]
    simp only [SizeT.modulus]
    omega

/-- The region before the first channel. -/
def emptyBus (cfg : IBusmCfg) (mem : Nat → UInt8) : IBUS where
  head :=
    { capacity := cfg.capacity
      count := 0
      maxLength := regionSize cfg
      offset := storedOffset cfg.channels 0
      channeles := fun _ => ⟨0, 0, 0, 0⟩ }
  mem := mem

/-- Before the loop no channel is laid out. -/
theorem laid_emptyBus (cfg : IBusmCfg) (mem : Nat → UInt8) :
    Laid cfg.channels (regionSize cfg) 0 (emptyBus cfg mem) where
  count_eq := rfl
  maxLength_eq := rfl
  entry := fun j _ hj => absurd hj (Nat.not_lt_zero j)
  ring := fun j _ hj => absurd hj (Nat.not_lt_zero j)
  fits := fun j hj => absurd hj (Nat.not_lt_zero j)
  placed := fun j hj => absurd hj (Nat.not_lt_zero j)

/-- `CreateIBUS` is its channel loop, started behind the table. -/
theorem createIBUS_eq (hread : readIBUSConfig ascStrToSize sCfgInfo (some conf) = some cfg)
    (h : Accepted cfg)
    (hshm : createShm cfg.key (SizeT.eight.wrap (headSize cfg.capacity + cfg.maxLength)) =
      some mem) :
    createIBUS ascStrToSize createShm sCfgInfo (some conf) =
      (layChannels (tableEnd cfg.channels.length).toNat (emptyBus cfg mem) cfg.channels).map
        some := by
  -- a configuration that was accepted is short enough that no number wraps
  have hlen := h.length_le
  have hint := h.isInt32
  have hhead : headSize cfg.capacity = (tableEnd cfg.channels.length).toNat := by
    rw [h.capacity_eq, int32_of_isInt32 (by omega), headSize_eq (by omega)]
  have hnat : ((tableEnd cfg.channels.length).toNat : Int) = tableEnd cfg.channels.length :=
    Int.toNat_of_nonneg (by rw [tableEnd_eq]; omega)
  have hregion : int64 (regionSize cfg) = regionSize cfg :=
    int64_of_isInt64 (by rw [regionSize, tableEnd_eq]; omega)
  -- the loop begins behind the table
  have hbase : int64 (alignSize (tableEnd cfg.channels.length) 16) =
      storedOffset cfg.channels 0 := by
    rw [storedOffset, offsetAt_zero, int64_of_isInt64 (by rw [alignSize_tableEnd]; omega)]
  simp only [createIBUS, hread, hshm, h.totalSize_eq, hregion]
  rw [hhead, hnat, hbase]
  rfl

/-- `CreateIBUS` ends as its loop does. -/
theorem createIBUS_spec (hread : readIBUSConfig ascStrToSize sCfgInfo (some conf) = some cfg)
    (h : Accepted cfg)
    (hshm : createShm cfg.key (SizeT.eight.wrap (headSize cfg.capacity + cfg.maxLength)) =
      some mem) :
    ∃ r, createIBUS ascStrToSize createShm sCfgInfo (some conf) = r.map some ∧
      LoopEnd cfg.channels (regionSize cfg) r := by
  have hlen := h.length_le
  have hint := h.isInt32
  exact ⟨_, createIBUS_eq hread h hshm, layChannels_spec (by omega) _ (List.drop_zero ..)
    (Nat.zero_le _) (laid_emptyBus cfg mem) rfl⟩

end Create

/-! ## The layout -/

/-- The true 16-aligned offset of channel `i`. -/
def channelStart (channels : List ChannelCfg) (i : Nat) : Int :=
  offsetAt (alignSize (tableEnd channels.length) 16)
    (channels.map fun c => alignSize c.maxLength 16) i

/-- `maxLength_` of the ring of channel `i`. -/
def ringLength (bus : IBUS) (i : Nat) : Int :=
  (ringAt bus.mem (bus.head.channeles i).start.toNat).maxLength

/-- The counted channels lie where they should. -/
structure LayoutOk (cfg : IBusmCfg) (bus : IBUS) : Prop where
  start_eq : ∀ i : Nat, i < bus.head.count →
    (bus.head.channeles i).start = channelStart cfg.channels i
  length_nonneg : ∀ i : Nat, i < bus.head.count → 0 ≤ ringLength bus i
  inside : ∀ i : Nat, i < bus.head.count →
    alignSize (tableEnd cfg.channels.length) 16 ≤ (bus.head.channeles i).start ∧
    (bus.head.channeles i).start + dataOffset + ringLength bus i ≤ regionSize cfg
  disjoint : ∀ i j : Nat, i < j → j < bus.head.count →
    (bus.head.channeles i).start + dataOffset + ringLength bus i ≤ (bus.head.channeles j).start
  behind_table : ∀ i : Nat, i < bus.head.count →
    tableEnd cfg.channels.length ≤ (bus.head.channeles i).start

/-- No size overflows an `int` when it is aligned, and every channel that fits in the region
    has room for more than a ring header and starts at an `int` offset. -/
def Roomy (cfg : IBusmCfg) : Prop :=
  (∀ c ∈ cfg.channels, c.maxLength ≤ 2147483632) ∧
    ∀ (i : Nat) (c : ChannelCfg), cfg.channels[i]? = some c →
      channelStart cfg.channels (i + 1) ≤ regionSize cfg →
      16 < c.maxLength ∧ channelStart cfg.channels i < 2147483648

section Layout

variable {cfg : IBusmCfg} {bus : IBUS} {k : Nat}

/-- The next channel begins behind the aligned one. -/
theorem channelStart_succ {channels : List ChannelCfg} {i : Nat} {c : ChannelCfg}
    (h : channels[i]? = some c) :
    channelStart channels (i + 1) = channelStart channels i + alignSize c.maxLength 16 :=
  offsetAt_succ _ (by rw [List.getElem?_map, h, Option.map_some])

/-- Aligned sizes of accepted channels are positive. -/
private theorem alignSize_nonneg {channels : List ChannelCfg}
    (hpos : ∀ c ∈ channels, 0 < c.maxLength) :
    ∀ s ∈ channels.map fun c => alignSize c.maxLength 16, 0 ≤ s := by
  intro s hs
  obtain ⟨c, hc, rfl⟩ := List.mem_map.mp hs
  have := hpos c hc
  have := alignSize_bounds c.maxLength
  omega

/-- Every channel begins behind the table. -/
theorem le_channelStart (h : Accepted cfg) (i : Nat) :
    alignSize (tableEnd cfg.channels.length) 16 ≤ channelStart cfg.channels i := by
  have hmono := offsetAt_mono (alignSize (tableEnd cfg.channels.length) 16)
    (alignSize_nonneg h.pos) (Nat.zero_le i)
  rwa [offsetAt_zero] at hmono

/-- A size in range is stored aligned. -/
theorem storedSize_eq {c : ChannelCfg} (hpos : 0 < c.maxLength) (hmax : c.maxLength ≤ 2147483632) :
    storedSize c = alignSize c.maxLength 16 := by
  have hbounds := alignSize_bounds c.maxLength
  exact int32_of_isInt32 (by omega)

/-- Without an overflowing size the stored offsets are the true ones. -/
theorem storedOffset_eq (h : Accepted cfg) (hmax : ∀ c ∈ cfg.channels, c.maxLength ≤ 2147483632)
    (i : Nat) : storedOffset cfg.channels i = channelStart cfg.channels i := by
  rw [storedOffset, channelStart, List.map_congr_left fun c hc => storedSize_eq (h.pos c hc)
    (hmax c hc)]

/-- In a roomy configuration a channel that fits starts at its true offset. -/
theorem Roomy.storedStart_eq (hroomy : Roomy cfg) (h : Accepted cfg) {i : Nat} {c : ChannelCfg}
    (hc : cfg.channels[i]? = some c) (hfits : Fits cfg.channels (regionSize cfg) i) :
    storedStart cfg.channels i = channelStart cfg.channels i := by
  rw [Fits, storedOffset_eq h hroomy.1] at hfits
  have hlt := (hroomy.2 i c hc hfits).2
  have hge := le_channelStart h i
  rw [alignSize_tableEnd] at hge
  rw [storedStart, storedOffset_eq h hroomy.1, int32_of_isInt32 (by omega)]

/-- Without an overflowing size the counted channels start at their true offsets: an offset
    that wrapped would have to come out behind the table again. -/
theorem Laid.storedStart_eq (hbus : Laid cfg.channels (regionSize cfg) k bus) (h : Accepted cfg)
    (hmax : ∀ c ∈ cfg.channels, c.maxLength ≤ 2147483632) {i : Nat} (hi : i < k) :
    storedStart cfg.channels i = channelStart cfg.channels i := by
  -- the stored start is the real one cut to 32 bits
  have hint := h.isInt32
  have hregion : regionSize cfg = 24 + 16 * (cfg.channels.length : Int) + cfg.maxLength := by
    rw [regionSize, tableEnd_eq]
  have hlo := (hbus.placed i hi).1
  have hfits := hbus.fits i hi
  have hmono : channelStart cfg.channels i ≤ channelStart cfg.channels (i + 1) :=
    offsetAt_mono _ (alignSize_nonneg h.pos) (Nat.le_succ i)
  have hge := le_channelStart h i
  -- and since it fits the region nothing is cut
  rw [Fits, storedOffset_eq h hmax] at hfits
  rw [storedStart, storedOffset_eq h hmax] at hlo ⊢
  rw [tableEnd_eq] at hlo
  rw [alignSize_tableEnd] at hge
  have hwrap := int32_emod (channelStart cfg.channels i)
  have hrange := isInt32_int32 (channelStart cfg.channels i)
  omega

section NoOverflow

variable (hbus : Laid cfg.channels (regionSize cfg) k bus) (h : Accepted cfg)
  (hmax : ∀ c ∈ cfg.channels, c.maxLength ≤ 2147483632)

include hbus h hmax

/-- The entry of a counted channel whose size does not overflow. -/
theorem Laid.channel_eq {i : Nat} {c : ChannelCfg} (hi : i < k) (hc : cfg.channels[i]? = some c) :
    (bus.head.channeles i).start = channelStart cfg.channels i ∧
      (bus.head.channeles i).maxLength = alignSize c.maxLength 16 := by
  have hmem := List.mem_of_getElem? hc
  rw [hbus.entry i c hi hc]
  exact ⟨hbus.storedStart_eq h hmax hi, storedSize_eq (h.pos c hmem) (hmax c hmem)⟩

/-- Counted channels lie one behind the other. -/
theorem Laid.before {i j : Nat} {c : ChannelCfg} (hij : i < j) (hj : j < k)
    (hc : cfg.channels[i]? = some c) :
    storedStart cfg.channels i + alignSize c.maxLength 16 ≤ storedStart cfg.channels j := by
  rw [hbus.storedStart_eq h hmax (Nat.lt_trans hij hj), hbus.storedStart_eq h hmax hj,
    ← channelStart_succ hc]
  exact offsetAt_mono _ (alignSize_nonneg h.pos) hij

/-- The ring of a counted channel has what its header leaves: the headers behind it do not reach
    its `maxLength_`. -/
theorem Laid.ringLength_aligned {i : Nat} {c : ChannelCfg} (hi : i < k)
    (hc : cfg.channels[i]? = some c) : ringLength bus i = alignSize c.maxLength 16 - 24 := by
  have hmem := List.mem_of_getElem? hc
  have hpos := h.pos c hmem
  have hsize := hmax c hmem
  have hbounds := alignSize_bounds c.maxLength
  have hafter : ∀ j, i < j → j < k →
      storedStart cfg.channels i + 4 ≤ storedStart cfg.channels j := by
    intro j hij hj
    have hbefore := hbus.before h hmax hij hj hc
    omega
  rw [ringLength, hbus.entry i c hi hc, hbus.ring i c hi hc hafter, storedSize_eq hpos hsize,
    sizeofTagCircleBuffer, int32_of_isInt32 (by omega)]

end NoOverflow

/-- What is laid out of a roomy configuration is sound. -/
theorem Laid.layoutOk (hbus : Laid cfg.channels (regionSize cfg) k bus) (h : Accepted cfg)
    (hroomy : Roomy cfg) (hk : k ≤ cfg.channels.length) : LayoutOk cfg bus := by
  have hmax := hroomy.1
  have hchannel : ∀ i : Nat, i < bus.head.count → ∃ c, cfg.channels[i]? = some c ∧ i < k := by
    intro i hi
    rw [hbus.count_eq] at hi
    exact ⟨_, List.getElem?_eq_getElem (show i < cfg.channels.length by omega), by omega⟩
  have hsize : ∀ i c, i < k → cfg.channels[i]? = some c → 16 < c.maxLength ∧
      channelStart cfg.channels i + alignSize c.maxLength 16 ≤ regionSize cfg := by
    intro i c hi hc
    have hfits := hbus.fits i hi
    rw [Fits, storedOffset_eq h hmax] at hfits
    exact ⟨(hroomy.2 i c hc hfits).1, channelStart_succ hc ▸ hfits⟩
  refine ⟨fun i hi => ?_, fun i hi => ?_, fun i hi => ?_, fun i j hij hj => ?_, fun i hi => ?_⟩
  · obtain ⟨c, hc, hik⟩ := hchannel i hi
    exact (hbus.channel_eq h hmax hik hc).1
  · -- the header of a ring leaves room behind it
    obtain ⟨c, hc, hik⟩ := hchannel i hi
    have hlarge := (hsize i c hik hc).1
    have hbounds := alignSize_bounds c.maxLength
    rw [hbus.ringLength_aligned h hmax hik hc]
    omega
  · -- a ring ends in the region
    obtain ⟨c, hc, hik⟩ := hchannel i hi
    have hend := (hsize i c hik hc).2
    rw [(hbus.channel_eq h hmax hik hc).1, hbus.ringLength_aligned h hmax hik hc, dataOffset]
    exact ⟨le_channelStart h i, by omega⟩
  · -- a ring ends before a later one starts
    obtain ⟨c, hc, hik⟩ := hchannel i (by omega)
    obtain ⟨c', hc', hjk⟩ := hchannel j hj
    have hbefore := hbus.before h hmax hij hjk hc
    rw [hbus.entry i c hik hc, hbus.entry j c' hjk hc', hbus.ringLength_aligned h hmax hik hc,
      dataOffset]
    dsimp only
    omega
  · obtain ⟨c, hc, hik⟩ := hchannel i hi
    have hge := le_channelStart h i
    rw [alignSize_tableEnd] at hge
    rw [(hbus.channel_eq h hmax hik hc).1, tableEnd_eq]
    omega

/-- A roomy configuration is laid out. -/
theorem LoopEnd.of_roomy {r : Option IBUS} (hend : LoopEnd cfg.channels (regionSize cfg) r)
    (h : Accepted cfg) (hroomy : Roomy cfg) : ∃ bus, r = some bus ∧ LayoutOk cfg bus := by
  cases hend with
  | all hbus hoffset => exact ⟨_, rfl, hbus.layoutOk h hroomy (Nat.le_refl _)⟩
  | full hk hbus hfull => exact ⟨_, rfl, hbus.layoutOk h hroomy (Nat.le_of_lt hk)⟩
  -- a roomy channel has a positive size in the region, so no start fails its test
  | @fault k hk hfits hplaced =>
    have hc := List.getElem?_eq_getElem hk
    have hfit := hfits k (Nat.le_refl k)
    have hstart := hroomy.storedStart_eq h hc hfit
    rw [Fits, storedOffset_eq h hroomy.1] at hfit
    have hlarge := (hroomy.2 k _ hc hfit).1
    rw [channelStart_succ hc] at hfit
    have hbounds := alignSize_bounds cfg.channels[k].maxLength
    have hge := le_channelStart h k
    refine absurd ⟨?_, ?_⟩ hplaced
    · rw [hstart, tableEnd_eq]
      rw [alignSize_tableEnd] at hge
      omega
    · rw [hstart, dataOffset]
      omega

/-- A region comes from counting the channels up to the first one that does not fit. -/
theorem LoopEnd.laid {channels : List ChannelCfg} {total : Int}
    (hend : LoopEnd channels total (some bus)) :
    ∃ k, k ≤ channels.length ∧ Laid channels total k bus ∧
      (k < channels.length → ¬ Fits channels total k) := by
  cases hend with
  | all hbus hoffset => exact ⟨_, Nat.le_refl _, hbus, fun hlt => absurd hlt (Nat.lt_irrefl _)⟩
  | full hk hbus hfull => exact ⟨_, Nat.le_of_lt hk, hbus, fun _ => hfull⟩

/-- In a sound layout the ring lengths are still what the loop stored. -/
theorem Laid.ringLength_eq (hbus : Laid cfg.channels (regionSize cfg) k bus) (h : Accepted cfg)
    (hok : LayoutOk cfg bus) (hk : k ≤ cfg.channels.length) {i : Nat} {c : ChannelCfg} (hi : i < k)
    (hc : cfg.channels[i]? = some c) :
    ringLength bus i = int32 (storedSize c - sizeofTagCircleBuffer) := by
  -- a sound layout says where the channels start, so the headers do not run into one another
  have hstart : ∀ j, j < k → storedStart cfg.channels j = channelStart cfg.channels j := by
    intro j hj
    have hcj := List.getElem?_eq_getElem (show j < cfg.channels.length by omega)
    have hj' := hok.start_eq j (by rw [hbus.count_eq]; omega)
    rwa [hbus.entry j _ hj hcj] at hj'
  rw [ringLength, hbus.entry i c hi hc, hbus.ring i c hi hc fun j hij hjk => ?_]
  have hbefore := offsetAt_before (alignSize (tableEnd cfg.channels.length) 16)
    (alignSize_nonneg h.pos) (s := alignSize c.maxLength 16)
    (by rw [List.getElem?_map, hc, Option.map_some]) hij
  have hpos := h.pos c (List.mem_of_getElem? hc)
  have hbounds := alignSize_bounds c.maxLength
  rw [hstart i hi, hstart j hjk, channelStart, channelStart]
  omega

/-- A sound layout has no overflowing size: such a channel, or a first channel that leaves
    it room within the total, has a ring that does not fit it. -/
theorem Laid.size_le (hbus : Laid cfg.channels (regionSize cfg) k bus) (h : Accepted cfg)
    (hok : LayoutOk cfg bus) (hk : k ≤ cfg.channels.length)
    (hfull : k < cfg.channels.length → ¬ Fits cfg.channels (regionSize cfg) k) :
    ∀ c ∈ cfg.channels, c.maxLength ≤ 2147483632 := by
  intro c hc
  refine Int.le_of_not_gt fun hover => ?_
  have hint := h.isInt32
  obtain ⟨c₀, rest, hcons⟩ : ∃ c₀ rest, cfg.channels = c₀ :: rest :=
    List.exists_cons_of_ne_nil (List.ne_nil_of_mem hc)
  have hc₀ : cfg.channels[0]? = some c₀ := by rw [hcons, List.getElem?_cons_zero]
  have hlen : 0 < cfg.channels.length := by rw [hcons, List.length_cons]; omega
  have hpos₀ := h.pos c₀ (List.mem_of_getElem? hc₀)
  have hbounds := alignSize_bounds c₀.maxLength
  -- the first channel is tiny or overflows itself
  have hstored : c.maxLength ≤ cfg.maxLength ∧
      (storedSize c₀ = 16 ∨ storedSize c₀ = -2147483648) := by
    have hsum := h.sum_le
    rw [hcons, List.map_cons, List.sum_cons] at hsum
    rw [hcons] at hc
    obtain ⟨hrest, hmem⟩ := maxLength_le_sum fun d hd =>
      h.pos d (by rw [hcons]; exact List.mem_cons_of_mem c₀ hd)
    rcases List.mem_cons.mp hc with rfl | hc
    · have halign : alignSize c.maxLength 16 = 2147483648 := by omega
      exact ⟨by omega, .inr (by rw [storedSize, halign]; decide)⟩
    · have hle := hmem c hc
      have halign : alignSize c₀.maxLength 16 = 16 := by omega
      exact ⟨by omega, .inl (by rw [storedSize, halign]; decide)⟩
  obtain ⟨hle, hstored⟩ := hstored
  have hoffset : storedOffset cfg.channels 1 = 32 + 16 * cfg.channels.length + storedSize c₀ := by
    rw [storedOffset_succ hc₀, storedOffset, offsetAt_zero, alignSize_tableEnd]
  have hregion : regionSize cfg = 24 + 16 * cfg.channels.length + cfg.maxLength := by
    rw [regionSize, tableEnd_eq]
  -- so the loop counts it, and its ring has no place or a negative length
  have hk₀ : 0 < k := by
    refine Nat.pos_of_ne_zero fun hzero => ?_
    subst hzero
    refine hfull hlen ?_
    rw [Fits, hoffset, hregion]
    omega
  have hcount : ((0 : Nat) : Int) < bus.head.count := by rw [hbus.count_eq]; omega
  have hnonneg := hok.length_nonneg 0 hcount
  have hend := (hok.inside 0 hcount).2
  rw [hok.start_eq 0 hcount, channelStart, offsetAt_zero, alignSize_tableEnd] at hend
  rw [hbus.ringLength_eq h hok hk hk₀ hc₀, sizeofTagCircleBuffer] at hnonneg hend
  rcases hstored with hsize | hsize
  · rw [hsize, show int32 (16 - 24) = -8 by decide] at hnonneg
    omega
  · rw [hsize, show int32 (-2147483648 - 24) = 2147483624 by decide, hregion, dataOffset] at hend
    omega

/-- A sound layout comes from a roomy configuration. -/
theorem LoopEnd.roomy (hend : LoopEnd cfg.channels (regionSize cfg) (some bus)) (h : Accepted cfg)
    (hok : LayoutOk cfg bus) : Roomy cfg := by
  obtain ⟨k, hk, hbus, hfull⟩ := hend.laid
  have hmax := hbus.size_le h hok hk hfull
  refine ⟨hmax, fun i c hc hend => ?_⟩
  have hi : i < cfg.channels.length := (List.getElem?_eq_some_iff.mp hc).1
  have hik : i < k := by
    refine Nat.lt_of_not_le fun hki => hfull (by omega) ?_
    rw [Fits, storedOffset_eq h hmax]
    exact Int.le_trans (offsetAt_mono _ (alignSize_nonneg h.pos) (by omega)) hend
  have hcount : (i : Int) < bus.head.count := by rw [hbus.count_eq]; omega
  have hpos := h.pos c (List.mem_of_getElem? hc)
  have hbounds := alignSize_bounds c.maxLength
  have hsize := hmax c (List.mem_of_getElem? hc)
  constructor
  · -- a channel of sixteen bytes has a ring of negative length
    have hnonneg := hok.length_nonneg i hcount
    rw [hbus.ringLength_eq h hok hk hik hc, storedSize_eq hpos hsize, sizeofTagCircleBuffer,
      int32_of_isInt32 (by omega)] at hnonneg
    omega
  · -- the stored start is an `int`, so the true one is
    have hstart : storedStart cfg.channels i = channelStart cfg.channels i := by
      have hentry := hok.start_eq i hcount
      rwa [hbus.entry i c hik hc] at hentry
    have hint := isInt32_int32 (storedOffset cfg.channels i)
    rw [← hstart, storedStart]
    exact hint.2

/-- The first configuration a process reads is laid out soundly exactly when it is roomy. -/
theorem layout_iff (ascStrToSize : String → Int) (createShm : Int → Nat → Option (Nat → UInt8))
    (conf : ConfigFile) (cfg : IBusmCfg) (mem : Nat → UInt8)
    (hread : readIBUSConfig ascStrToSize initialCfg (some conf) = some cfg)
    (hsum : (cfg.channels.map ChannelCfg.maxLength).sum ≤ cfg.maxLength)
    (hshm : createShm cfg.key (SizeT.eight.wrap (headSize cfg.capacity + cfg.maxLength)) =
      some mem) :
    (∃ bus, createIBUS ascStrToSize createShm initialCfg (some conf) = some (some bus) ∧
      LayoutOk cfg bus) ↔ Roomy cfg := by
  have h := accepted_of_read hread hsum
  obtain ⟨r, hcreate, hend⟩ := createIBUS_spec hread h hshm
  rw [hcreate]
  constructor
  -- a layout that is right leaves room
  · rintro ⟨bus, hbus, hok⟩
    obtain ⟨bus', rfl, hsome⟩ := Option.map_eq_some_iff.mp hbus
    cases hsome
    exact hend.roomy h hok
  -- room lets the loop end well
  · intro hroomy
    obtain ⟨bus, rfl, hok⟩ := hend.of_roomy h hroomy
    exact ⟨bus, rfl, hok⟩

/-- One channel of 32 bytes in a total of 64. -/
theorem layout_iff_single : ∃ bus, createIBUS (fun size => if size = "32" then 32 else 64)
      (fun _ _ => some fun _ => 0) initialCfg
      (some ⟨some 7, some "64", [.list 1 2 "32"], []⟩) = some (some bus) ∧
    LayoutOk ⟨7, 1, 64, [⟨1, 2, 32⟩], []⟩ bus := by
  refine (layout_iff _ _ _ ⟨7, 1, 64, [⟨1, 2, 32⟩], []⟩ (fun _ => 0) (by decide) (by decide)
    rfl).mpr ⟨by simp, fun i c hc _ => ?_⟩
  cases i with
  | zero =>
    obtain rfl := Option.some.inj hc
    exact ⟨by decide, by decide⟩
  | succ i => exact nomatch hc

/-- A channel of 16 bytes in a total of 40 is counted, and its ring gets the length -8. -/
theorem not_layoutOk_sixteen : ¬ ∃ bus, createIBUS (fun size => if size = "16" then 16 else 40)
      (fun _ _ => some fun _ => 0) initialCfg
      (some ⟨some 7, some "40", [.list 1 2 "16"], []⟩) = some (some bus) ∧
    LayoutOk ⟨7, 1, 40, [⟨1, 2, 16⟩], []⟩ bus := by
  rintro ⟨bus, hbus, hok⟩
  have hring : (createIBUS (fun size => if size = "16" then 16 else 40) (fun _ _ => some fun _ => 0)
      initialCfg (some ⟨some 7, some "40", [.list 1 2 "16"], []⟩)).map
      (Option.map fun bus => (bus.head.count, ringLength bus 0)) = some (some (1, -8)) := by
    decide +kernel
  rw [hbus, Option.map_some, Option.map_some] at hring
  simp only [Option.some.injEq, Prod.mk.injEq] at hring
  have hnonneg := hok.length_nonneg 0 (by omega)
  omega

end Layout

/-! ## All channels -/

/-- Every accepted channel exists, and `CheckChannel` knows exactly the ones `GetChannel`
    finds. -/
structure ChannelsExist (cfg : IBusmCfg) (bus : IBUS) : Prop where
  count_eq : bus.head.count = cfg.channels.length
  offset_le : bus.head.offset ≤ bus.head.maxLength
  check_iff : ∀ srcID dstID, checkChannel cfg srcID dstID = true ↔
    (getChannel bus.head srcID dstID).isSome = true

/-- The aligned channels end inside the region and the last one has its ring header there, at
    an `int` offset; or the last size overflows an `int` when it is aligned, and the loop
    takes it for a negative one. -/
def Enough (cfg : IBusmCfg) : Prop :=
  (channelStart cfg.channels cfg.channels.length ≤ regionSize cfg ∧
    (cfg.channels ≠ [] →
      channelStart cfg.channels (cfg.channels.length - 1) + dataOffset ≤ regionSize cfg ∧
      channelStart cfg.channels (cfg.channels.length - 1) < 2147483648)) ∨
  ∃ c, cfg.channels.getLast? = some c ∧ 2147483632 < c.maxLength

section Exist

variable {cfg : IBusmCfg} {bus : IBUS} {k : Nat}

/-- Next to an overflowing size there is only room for tiny ones, which are stored as 16. -/
private theorem storedSize_beside (h : Accepted cfg) {pre post : List ChannelCfg} {c : ChannelCfg}
    (hsplit : cfg.channels = pre ++ c :: post) (hover : 2147483632 < c.maxLength) :
    storedSize c = -2147483648 ∧ (∀ d ∈ pre, storedSize d = 16) ∧ cfg.channels.length ≤ 16 := by
  have hint := h.isInt32
  have hsum := h.sum_le
  have hpre : ∀ d ∈ pre, 0 < d.maxLength := fun d hd =>
    h.pos d (by rw [hsplit]; exact List.mem_append_left _ hd)
  have hpost : ∀ d ∈ post, 0 < d.maxLength := fun d hd =>
    h.pos d (by rw [hsplit]; exact List.mem_append_right _ (List.mem_cons_of_mem c hd))
  have hlen := maxLength_le_sum hpre
  have hlen' := maxLength_le_sum hpost
  rw [hsplit, List.map_append, List.map_cons, List.sum_append_int, List.sum_cons] at hsum
  have halign := alignSize_bounds c.maxLength
  refine ⟨?_, fun d hd => ?_, ?_⟩
  · -- rounded up to `2 ^ 31`, which wraps
    have hvalue : alignSize c.maxLength 16 = 2147483648 := by omega
    rw [storedSize, hvalue]
    decide
  · -- at most 16 of the sum are left to all the others
    have hd₁ := hlen.2 d hd
    have hd₀ := hpre d hd
    have hdalign := alignSize_bounds d.maxLength
    have hvalue : alignSize d.maxLength 16 = 16 := by omega
    rw [storedSize, hvalue]
    decide
  · have h₁ := length_le_sum hpre
    have h₂ := length_le_sum hpost
    rw [hsplit, List.length_append, List.length_cons]
    omega

/-- The offsets up to the overflowing channel. -/
private theorem storedOffset_beside (h : Accepted cfg) {pre post : List ChannelCfg}
    {c : ChannelCfg} (hsplit : cfg.channels = pre ++ c :: post)
    (hover : 2147483632 < c.maxLength) {i : Nat} (hi : i ≤ pre.length) :
    32 + 16 * (cfg.channels.length : Int) ≤ storedOffset cfg.channels i ∧
      storedOffset cfg.channels i ≤ 32 + 16 * (cfg.channels.length : Int) + 16 * pre.length := by
  obtain ⟨-, hpre, -⟩ := storedSize_beside h hsplit hover
  -- before the long channel each takes sixteen bytes
  have hsizes : ∀ s ∈ pre.map storedSize, s = 16 := fun s hs => by
    obtain ⟨d, hd, rfl⟩ := List.mem_map.mp hs
    exact hpre d hd
  have htake : storedOffset cfg.channels i =
      offsetAt (alignSize (tableEnd cfg.channels.length) 16) (pre.map storedSize) i := by
    have hmap : (cfg.channels.map storedSize).take i = (pre.map storedSize).take i := by
      rw [hsplit, List.map_append, List.take_append_of_le_length (by rw [List.length_map]; omega)]
    rw [storedOffset, offsetAt, offsetAt, hmap]
  have hnonneg : ∀ s ∈ pre.map storedSize, 0 ≤ s := fun s hs => by rw [hsizes s hs]; decide
  have hsmall : ∀ s ∈ pre.map storedSize, -16 ≤ s ∧ s ≤ 16 := fun s hs => by
    rw [hsizes s hs]
    decide
  -- so the offsets grow by sixteen at most
  have hmono := offsetAt_mono (alignSize (tableEnd cfg.channels.length) 16) hnonneg (Nat.zero_le i)
  have hbounds := offsetAt_bounds (alignSize (tableEnd cfg.channels.length) 16)
    (B := 16) (by decide) hsmall i
  rw [offsetAt_zero] at hmono
  rw [List.length_map] at hbounds
  rw [htake]
  rw [alignSize_tableEnd] at hmono hbounds ⊢
  omega

/-- An overflowing channel and the ones before it are counted: their offsets stay small, and
    behind it the offset is negative. -/
theorem counted_of_overflow (h : Accepted cfg) {pre post : List ChannelCfg} {c : ChannelCfg}
    (hsplit : cfg.channels = pre ++ c :: post) (hover : 2147483632 < c.maxLength) {i : Nat}
    (hi : i ≤ pre.length) :
    Fits cfg.channels (regionSize cfg) i ∧ Placed cfg.channels (regionSize cfg) i := by
  have hint := h.isInt32
  have hregion : regionSize cfg = 24 + 16 * (cfg.channels.length : Int) + cfg.maxLength := by
    rw [regionSize, tableEnd_eq]
  obtain ⟨hstored, -, hlen⟩ := storedSize_beside h hsplit hover
  have hle := (maxLength_le_sum h.pos).2 c (by
    rw [hsplit]
    exact List.mem_append_right _ (List.mem_cons_self ..))
  have hsum := h.sum_le
  have hpre : cfg.channels.length = pre.length + (post.length + 1) := by
    rw [hsplit, List.length_append, List.length_cons]
  have hoff := storedOffset_beside h hsplit hover hi
  have hstart : storedStart cfg.channels i = storedOffset cfg.channels i :=
    int32_of_isInt32 (by omega)
  refine ⟨?_, by rw [hstart, tableEnd_eq]; omega, by rw [hstart, dataOffset]; omega⟩
  rcases Nat.lt_or_eq_of_le hi with hlt | rfl
  · -- before the overflowing channel the next offset is small
    have hnext := storedOffset_beside h hsplit hover (show i + 1 ≤ pre.length by omega)
    rw [Fits]
    omega
  · -- behind it the next offset is negative, and no check refuses that
    have hc : cfg.channels[pre.length]? = some c := by
      rw [hsplit, List.getElem?_append_right (Nat.le_refl _), Nat.sub_self,
        List.getElem?_cons_zero]
    rw [Fits, storedOffset_succ hc, hstored]
    omega

/-- A region with an overflowing channel ends with it: the next one would start at a negative
    offset. -/
theorem Laid.eq_of_overflow (hbus : Laid cfg.channels (regionSize cfg) k bus) (h : Accepted cfg)
    (hk : k ≤ cfg.channels.length)
    (hfull : k < cfg.channels.length → ¬ Fits cfg.channels (regionSize cfg) k)
    {pre post : List ChannelCfg} {c : ChannelCfg} (hsplit : cfg.channels = pre ++ c :: post)
    (hover : 2147483632 < c.maxLength) : k = pre.length + 1 ∧ storedSize c = -2147483648 := by
  obtain ⟨hstored, -, hlen⟩ := storedSize_beside h hsplit hover
  have hpre : cfg.channels.length = pre.length + (post.length + 1) := by
    rw [hsplit, List.length_append, List.length_cons]
  refine ⟨?_, hstored⟩
  rcases Nat.lt_trichotomy k (pre.length + 1) with hlt | heq | hgt
  · exact absurd (counted_of_overflow h hsplit hover (by omega)).1 (hfull (by omega))
  · exact heq
  · -- the channel behind it would have to start below the table
    have hc : cfg.channels[pre.length]? = some c := by
      rw [hsplit, List.getElem?_append_right (Nat.le_refl _), Nat.sub_self,
        List.getElem?_cons_zero]
    have hoff := storedOffset_beside h hsplit hover (Nat.le_refl pre.length)
    have hplaced := (hbus.placed (pre.length + 1) hgt).1
    rw [storedStart, storedOffset_succ hc, hstored, int32_of_isInt32 (by omega),
      tableEnd_eq] at hplaced
    omega

/-- When the channels end inside the region no size overflows. -/
theorem size_le_of_end (h : Accepted cfg)
    (hend : channelStart cfg.channels cfg.channels.length ≤ regionSize cfg) :
    ∀ c ∈ cfg.channels, c.maxLength ≤ 2147483632 := by
  intro c hc
  have hint := h.isInt32
  have hregion : regionSize cfg = 24 + 16 * (cfg.channels.length : Int) + cfg.maxLength := by
    rw [regionSize, tableEnd_eq]
  obtain ⟨j, hj, hcj⟩ := List.mem_iff_getElem.mp hc
  have hget : cfg.channels[j]? = some c := by rw [List.getElem?_eq_getElem hj, hcj]
  have hbefore := offsetAt_before (alignSize (tableEnd cfg.channels.length) 16)
    (alignSize_nonneg h.pos) (s := alignSize c.maxLength 16)
    (by rw [List.getElem?_map, hget, Option.map_some]) hj
  have hge := le_channelStart h j
  have hbounds := alignSize_bounds c.maxLength
  rw [channelStart] at hend hge
  rw [alignSize_tableEnd] at hend hge hbefore
  omega

/-- With enough room every channel is counted. -/
theorem Enough.fits (henough : Enough cfg) (h : Accepted cfg) {i : Nat}
    (hi : i < cfg.channels.length) :
    Fits cfg.channels (regionSize cfg) i ∧ Placed cfg.channels (regionSize cfg) i := by
  rcases henough with ⟨hend, hlast⟩ | ⟨c, hlast, hover⟩
  · -- the stored offsets are the true ones, and they do not decrease
    obtain ⟨hheader, hstart⟩ := hlast (List.ne_nil_of_length_pos (by omega))
    have hmax := size_le_of_end h hend
    have hnext : channelStart cfg.channels (i + 1) ≤
        channelStart cfg.channels cfg.channels.length :=
      offsetAt_mono _ (alignSize_nonneg h.pos) hi
    have hstarts : channelStart cfg.channels i ≤
        channelStart cfg.channels (cfg.channels.length - 1) :=
      offsetAt_mono _ (alignSize_nonneg h.pos) (by omega)
    have hge := le_channelStart h i
    rw [alignSize_tableEnd] at hge
    have hstored : storedStart cfg.channels i = channelStart cfg.channels i := by
      rw [storedStart, storedOffset_eq h hmax, int32_of_isInt32 (by omega)]
    refine ⟨?_, ?_, ?_⟩
    · rw [Fits, storedOffset_eq h hmax]
      exact Int.le_trans hnext hend
    · rw [hstored, tableEnd_eq]
      omega
    · rw [hstored]
      omega
  · -- every channel is the overflowing one or before it
    obtain ⟨pre, hsplit⟩ := List.getLast?_eq_some_iff.mp hlast
    have hpre : cfg.channels.length = pre.length + 1 := by
      rw [hsplit, List.length_append, List.length_singleton]
    exact counted_of_overflow h hsplit hover (by omega)

/-- Where the region is enough, the last offset is inside. -/
theorem Enough.offset_le (henough : Enough cfg) (h : Accepted cfg) :
    storedOffset cfg.channels cfg.channels.length ≤ regionSize cfg := by
  rcases Nat.eq_zero_or_pos cfg.channels.length with hzero | hpos
  · rcases henough with ⟨hend, -⟩ | ⟨c, hlast, -⟩
    · rw [storedOffset, hzero, offsetAt_zero]
      rwa [channelStart, hzero, offsetAt_zero] at hend
    · rw [List.length_eq_zero_iff.mp hzero] at hlast
      exact nomatch hlast
  · have hfits := (henough.fits h (show cfg.channels.length - 1 < cfg.channels.length by omega)).1
    rwa [Fits, Nat.sub_add_cancel hpos] at hfits

/-- Counting every channel takes enough room. -/
theorem Laid.enough (hbus : Laid cfg.channels (regionSize cfg) cfg.channels.length bus)
    (h : Accepted cfg) (hoffset : storedOffset cfg.channels cfg.channels.length ≤ regionSize cfg) :
    Enough cfg := by
  by_cases hmax : ∀ c ∈ cfg.channels, c.maxLength ≤ 2147483632
  · rw [storedOffset_eq h hmax] at hoffset
    refine .inl ⟨hoffset, fun hne => ?_⟩
    have hlen := List.length_pos_iff.mpr hne
    have hhi := (hbus.placed (cfg.channels.length - 1) (by omega)).2
    have hrange := isInt32_int32 (storedOffset cfg.channels (cfg.channels.length - 1))
    rw [← storedStart] at hrange
    rw [hbus.storedStart_eq h hmax (show cfg.channels.length - 1 < cfg.channels.length by omega)]
      at hhi hrange
    exact ⟨hhi, hrange.2⟩
  · obtain ⟨c, hc, hover⟩ : ∃ c ∈ cfg.channels, 2147483632 < c.maxLength := by
      by_contra hnone
      exact hmax fun c hc => Int.le_of_not_gt fun hgt => hnone ⟨c, hc, hgt⟩
    obtain ⟨pre, post, hsplit⟩ := List.append_of_mem hc
    refine .inr ⟨c, ?_, hover⟩
    cases post with
    | nil => rw [hsplit, List.getLast?_append, List.getLast?_singleton, Option.some_or]
    | cons d post =>
      -- the loop would have stopped before `d`
      have hend := (hbus.eq_of_overflow h (Nat.le_refl _)
        (fun hlt => absurd hlt (Nat.lt_irrefl _)) hsplit hover).1
      have hcount : cfg.channels.length = pre.length + (post.length + 2) := by
        rw [hsplit, List.length_append, List.length_cons, List.length_cons]
      omega

/-- With every channel counted, the table lists what the configuration lists. -/
theorem Laid.check_iff (hbus : Laid cfg.channels (regionSize cfg) cfg.channels.length bus)
    (srcID dstID : Int) : checkChannel cfg srcID dstID = true ↔
      (getChannel bus.head srcID dstID).isSome = true := by
  simp only [checkChannel, getChannel, hbus.count_eq, Int.toNat_natCast, List.any_eq_true,
    List.find?_isSome, List.mem_range]
  constructor
  · rintro ⟨c, hc, hids⟩
    obtain ⟨i, hi, hci⟩ := List.mem_iff_getElem.mp hc
    refine ⟨i, hi, ?_⟩
    rw [hbus.entry i c hi (by rw [List.getElem?_eq_getElem hi, hci])]
    exact hids
  · rintro ⟨i, hi, hids⟩
    refine ⟨cfg.channels[i], List.getElem_mem hi, ?_⟩
    rw [hbus.entry i _ hi (List.getElem?_eq_getElem hi)] at hids
    exact hids

/-- Where the region is enough the bus exists with all channels, -/
theorem LoopEnd.of_enough {r : Option IBUS} (hend : LoopEnd cfg.channels (regionSize cfg) r)
    (h : Accepted cfg) (henough : Enough cfg) : ∃ bus, r = some bus ∧ ChannelsExist cfg bus := by
  cases hend with
  | @all bus hbus hoffset =>
    refine ⟨bus, rfl, hbus.count_eq, ?_, hbus.check_iff⟩
    rw [hoffset, hbus.maxLength_eq]
    exact henough.offset_le h
  | full hk hbus hfull => exact absurd (henough.fits h hk).1 hfull
  | fault hk hfits hplaced => exact absurd (henough.fits h hk).2 hplaced

/-- and only there. -/
theorem LoopEnd.enough (hend : LoopEnd cfg.channels (regionSize cfg) (some bus)) (h : Accepted cfg)
    (hexist : ChannelsExist cfg bus) : Enough cfg := by
  cases hend with
  | all hbus hoffset =>
    have hle := hexist.offset_le
    rw [hoffset, hbus.maxLength_eq] at hle
    exact hbus.enough h hle
  | full hk hbus hfull =>
    have hcount := hexist.count_eq
    rw [hbus.count_eq] at hcount
    omega

/-- After the first configuration a process reads, all its channels exist exactly when the
    total is enough for them. -/
theorem channels_exist_iff (ascStrToSize : String → Int)
    (createShm : Int → Nat → Option (Nat → UInt8)) (conf : ConfigFile) (cfg : IBusmCfg)
    (mem : Nat → UInt8) (hread : readIBUSConfig ascStrToSize initialCfg (some conf) = some cfg)
    (hsum : (cfg.channels.map ChannelCfg.maxLength).sum ≤ cfg.maxLength)
    (hshm : createShm cfg.key (SizeT.eight.wrap (headSize cfg.capacity + cfg.maxLength)) =
      some mem) :
    (∃ bus, createIBUS ascStrToSize createShm initialCfg (some conf) = some (some bus) ∧
      ChannelsExist cfg bus) ↔ Enough cfg := by
  have h := accepted_of_read hread hsum
  obtain ⟨r, hcreate, hend⟩ := createIBUS_spec hread h hshm
  rw [hcreate]
  constructor
  -- channels that exist have enough room
  · rintro ⟨bus, hbus, hexist⟩
    obtain ⟨bus', rfl, hsome⟩ := Option.map_eq_some_iff.mp hbus
    cases hsome
    exact hend.enough h hexist
  -- enough room makes them exist
  · intro henough
    obtain ⟨bus, rfl, hexist⟩ := hend.of_enough h henough
    exact ⟨bus, rfl, hexist⟩

/-- Two channels whose aligned sizes leave eight bytes of the total. -/
theorem channels_exist_iff_two : ∃ bus,
    createIBUS (fun size => if size = "32" then 32 else 72) (fun _ _ => some fun _ => 0) initialCfg
      (some ⟨some 7, some "72", [.list 1 2 "32", .list 2 1 "32"], []⟩) = some (some bus) ∧
    ChannelsExist ⟨7, 2, 72, [⟨1, 2, 32⟩, ⟨2, 1, 32⟩], []⟩ bus :=
  (channels_exist_iff _ _ _ ⟨7, 2, 72, [⟨1, 2, 32⟩, ⟨2, 1, 32⟩], []⟩ (fun _ => 0) (by decide)
    (by decide) rfl).mpr (.inl ⟨by decide, fun _ => ⟨by decide, by decide⟩⟩)

/-- A channel of 16 bytes in a total of 16 is accepted and not there. -/
theorem not_channelsExist_sixteen : ¬ ∃ bus,
    createIBUS (fun _ => 16) (fun _ _ => some fun _ => 0) initialCfg
      (some ⟨some 7, some "16", [.list 1 2 "16"], []⟩) = some (some bus) ∧
    ChannelsExist ⟨7, 1, 16, [⟨1, 2, 16⟩], []⟩ bus := by
  rintro ⟨bus, hbus, hexist⟩
  have hcount : (createIBUS (fun _ => 16) (fun _ _ => some fun _ => 0) initialCfg
      (some ⟨some 7, some "16", [.list 1 2 "16"], []⟩)).map
      (Option.map fun bus => bus.head.count) = some (some 0) := by
    decide +kernel
  rw [hbus, Option.map_some, Option.map_some] at hcount
  simp only [Option.some.injEq] at hcount
  exact absurd (hcount.symm.trans hexist.count_eq) (by decide)

end Exist

end XGame3.Ibus
