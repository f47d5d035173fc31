import XGame3.Spec.IbusLayout

/-!
# Reading a second configuration

`ReadIBUSConfig` sets the key, the total and the capacity anew, but appends the accepted channels to
those of earlier calls, and `std::map::insert` keeps the value a name already has.

## Key results

- `readConfigs_channels`, `readConfigs_names`: what a sequence of calls leaves
- `replaces_iff`: the last file alone decides exactly when no earlier one had an accepted channel,
  or a name with another value
-/

namespace XGame3.Ibus

open FixedInt

/-! ## Names -/

/-- A name is looked up in the first list, then in the second. -/
theorem findName_append (names names' : List (String × Int)) (name : String) :
    findName (names ++ names') name = (findName names name).or (findName names' name) := by
  unfold findName
  rw [List.find?_append, Option.map_or]

/-- A name that is there already keeps its value. -/
theorem findName_insertName (names : List (String × Int)) (n : String × Int) (name : String) :
    findName (insertName names n) name = (findName names name).or (findName [n] name) := by
  unfold insertName
  split
  · -- there is a pair with this name, so the new one is not inserted
    rename_i hany
    by_cases hn : n.1 = name
    · obtain ⟨m, hm, hmn⟩ := List.any_eq_true.1 hany
      have hfound : (findName names name).isSome = true := by
        unfold findName
        rw [Option.isSome_map, List.find?_isSome]
        exact ⟨m, hm, by rw [← hn]; exact hmn⟩
      rw [Option.or_of_isSome hfound]
    · have hnone : findName [n] name = none := by simp [findName, hn]
      rw [hnone, Option.or_none]
  · exact findName_append names [n] name

/-- The names of a file are those not there yet. -/
theorem findName_getChannelsName (svrID names : List (String × Int)) (name : String) :
    findName (getChannelsName svrID names) name =
      (findName names name).or (findName svrID name) := by
  unfold getChannelsName
  -- on the pairs of the file, for whatever names are there
  induction svrID generalizing names with
  | nil => simp [findName]
  | cons n svrID ih =>
    rw [List.foldl_cons, ih, findName_insertName, Option.or_assoc, ← findName_append,
      List.singleton_append]

/-! ## Channels -/

variable (ascStrToSize : String → Int)

/-- The channels `GetChannels` takes from a file. -/
def accepted (conf : ConfigFile) : List ChannelCfg :=
  (getChannels ascStrToSize (int32 (ascStrToSize (conf.size.getD "100M"))) conf.channels [] 0).1

/-- What is in the vector already stays in front. -/
theorem getChannels_append (maxSize : Int) (settings : List ChannelSetting)
    (channels channels' : List ChannelCfg) (allocSize : Int) :
    (getChannels ascStrToSize maxSize settings (channels ++ channels') allocSize).1 =
      channels ++ (getChannels ascStrToSize maxSize settings channels' allocSize).1 := by
  induction settings generalizing channels' allocSize with
  | nil => rfl
  | cons setting settings ih =>
    cases setting with
    | other => exact ih channels' allocSize
    | list srcID dstID size =>
      simp only [getChannels]
      split
      · split
        -- the channel is pushed behind those of the vector
        · rw [List.append_assoc, ih]
        · exact ih channels' allocSize
      · exact ih channels' allocSize

/-! ## Sequences of calls -/

/-- One call. -/
theorem readConfigs_cons (cfg : IBusmCfg) (conf : ConfigFile) (files : List ConfigFile) :
    readConfigs ascStrToSize cfg (conf :: files) = readConfigs ascStrToSize
      { key := conf.key.getD cfg.key
        maxLength := int32 (ascStrToSize (conf.size.getD "100M"))
        channels := cfg.channels ++ accepted ascStrToSize conf
        channelsName := getChannelsName conf.svrID cfg.channelsName
        capacity := int32 (cfg.channels ++ accepted ascStrToSize conf).length } files := by
  have happend := getChannels_append ascStrToSize
    (int32 (ascStrToSize (conf.size.getD "100M"))) conf.channels cfg.channels [] 0
  rw [List.append_nil] at happend
  simp only [readConfigs, List.foldl_cons, readIBUSConfig, Option.map_some, Option.getD_some,
    happend, accepted]

/-- The channels of all files, one after another. -/
theorem readConfigs_channels (cfg : IBusmCfg) (files : List ConfigFile) :
    (readConfigs ascStrToSize cfg files).channels =
      cfg.channels ++ files.flatMap (accepted ascStrToSize) := by
  induction files generalizing cfg with
  | nil => simp [readConfigs]
  | cons conf files ih => rw [readConfigs_cons, ih, List.flatMap_cons, List.append_assoc]

/-- The first value that a name was given. -/
theorem readConfigs_names (cfg : IBusmCfg) (files : List ConfigFile) (name : String) :
    findName (readConfigs ascStrToSize cfg files).channelsName name =
      (findName cfg.channelsName name).or (findName (files.flatMap ConfigFile.svrID) name) := by
  induction files generalizing cfg with
  | nil => simp [readConfigs, findName]
  | cons conf files ih =>
    rw [readConfigs_cons, ih, findName_getChannelsName, List.flatMap_cons, findName_append,
      Option.or_assoc]

/-- Reading two lists of files reads one after the other. -/
theorem readConfigs_append (cfg : IBusmCfg) (files files' : List ConfigFile) :
    readConfigs ascStrToSize cfg (files ++ files') =
      readConfigs ascStrToSize (readConfigs ascStrToSize cfg files) files' :=
  List.foldl_append

/-! ## The last file alone -/

/-- `sCfgInfo` says the same, and so do `CheckChannel` and `GetProcID`. -/
structure SameCfg (cfg alone : IBusmCfg) : Prop where
  key : cfg.key = alone.key
  maxLength : cfg.maxLength = alone.maxLength
  channels : cfg.channels = alone.channels
  capacity : cfg.capacity = alone.capacity
  names : ∀ name, findName cfg.channelsName name = findName alone.channelsName name
  check : ∀ srcID dstID, checkChannel cfg srcID dstID = checkChannel alone srcID dstID
  procID : ∀ name, getProcID cfg name = getProcID alone name
  sum_le : (alone.channels.map ChannelCfg.maxLength).sum ≤ alone.maxLength →
    (cfg.channels.map ChannelCfg.maxLength).sum ≤ cfg.maxLength

/-- After `earlier` and then `last` everything is as after `last` alone, the layout of a
    `CreateIBUS` that reads `last` as well. -/
structure Replaces (earlier : List ConfigFile) (last : ConfigFile) : Prop where
  same : SameCfg (readConfigs ascStrToSize initialCfg (earlier ++ [last]))
    (readConfigs ascStrToSize initialCfg [last])
  layout : ∀ createShm, createIBUS ascStrToSize createShm
    (readConfigs ascStrToSize initialCfg earlier) (some last) =
      createIBUS ascStrToSize createShm initialCfg (some last)

/-- The layout does not depend on the names. -/
theorem createIBUS_congr {cfg cfg' : IBusmCfg} {file : Option ConfigFile}
    (createShm : Int → Nat → Option (Nat → UInt8))
    (h : (readIBUSConfig ascStrToSize cfg file).map (fun c => { c with channelsName := [] }) =
      (readIBUSConfig ascStrToSize cfg' file).map fun c => { c with channelsName := [] }) :
    createIBUS ascStrToSize createShm cfg file = createIBUS ascStrToSize createShm cfg' file := by
  unfold createIBUS
  cases hr : readIBUSConfig ascStrToSize cfg file with
  | none =>
    rw [hr, Option.map_none, eq_comm, Option.map_eq_none_iff] at h
    rw [h]
  | some c =>
    rw [hr, Option.map_some, eq_comm, Option.map_eq_some_iff] at h
    obtain ⟨c', hr', heq⟩ := h
    simp only [IBusmCfg.mk.injEq] at heq
    obtain ⟨hkey, hcapacity, hmax, hchannels, -⟩ := heq
    rw [hr']
    simp only [hkey, hcapacity, hmax, hchannels]

/-- The calls of one more file. -/
theorem readConfigs_concat (cfg : IBusmCfg) (files : List ConfigFile) (conf : ConfigFile) :
    readIBUSConfig ascStrToSize (readConfigs ascStrToSize cfg files) (some conf) =
      some (readConfigs ascStrToSize cfg (files ++ [conf])) := by
  rw [readConfigs_append]
  rfl

/-- Without channels from before, the last file sets all but the names. -/
theorem readConfigs_eq_of_empty {earlier : List ConfigFile} {last : ConfigFile}
    (hkey : last.key.isSome = true) (hempty : earlier.flatMap (accepted ascStrToSize) = []) :
    ({ readConfigs ascStrToSize initialCfg (earlier ++ [last]) with channelsName := [] } :
      IBusmCfg) =
      { readConfigs ascStrToSize initialCfg [last] with channelsName := [] } := by
  have hchannels := readConfigs_channels ascStrToSize initialCfg earlier
  rw [hempty, List.append_nil] at hchannels
  obtain ⟨key, hkey⟩ := Option.isSome_iff_exists.1 hkey
  rw [readConfigs_append, readConfigs_cons, readConfigs_cons, hchannels, hkey]
  rfl

/-- The names after all files: what the earlier ones say comes first. -/
theorem readConfigs_names_after (earlier : List ConfigFile) (last : ConfigFile) (name : String) :
    findName (readConfigs ascStrToSize initialCfg (earlier ++ [last])).channelsName name =
      (findName (earlier.flatMap ConfigFile.svrID) name).or (findName last.svrID name) := by
  rw [readConfigs_names, List.flatMap_append, findName_append, List.flatMap_singleton]
  rfl

/-- A file read alone gives its own names. -/
theorem readConfigs_names_alone (last : ConfigFile) (name : String) :
    findName (readConfigs ascStrToSize initialCfg [last]).channelsName name =
      findName last.svrID name := by
  rw [readConfigs_names, List.flatMap_singleton]
  rfl

/-- Configurations that differ in nothing but how their equal names are stored say the same. -/
theorem SameCfg.of_names {cfg alone : IBusmCfg}
    (h : ({ cfg with channelsName := [] } : IBusmCfg) = { alone with channelsName := [] })
    (hnames : ∀ name, findName cfg.channelsName name = findName alone.channelsName name) :
    SameCfg cfg alone := by
  simp only [IBusmCfg.mk.injEq] at h
  obtain ⟨hkey, hcapacity, hmax, hchannels, -⟩ := h
  refine ⟨hkey, hmax, hchannels, hcapacity, hnames, fun srcID dstID => ?_, fun name => ?_, ?_⟩
  · rw [checkChannel, checkChannel, hchannels]
  · rw [getProcID, getProcID, hnames]
  · rw [hchannels, hmax]
    exact id

/-- Reading a file after others leaves what reading it alone leaves, exactly when no earlier
    file had an accepted channel, and no name that the earlier ones define has another value
    in the last. -/
theorem replaces_iff (earlier : List ConfigFile) (last : ConfigFile)
    (hkey : last.key.isSome = true) :
    Replaces ascStrToSize earlier last ↔
      (∀ conf ∈ earlier, accepted ascStrToSize conf = []) ∧
        ∀ name value, findName (earlier.flatMap ConfigFile.svrID) name = some value →
          findName last.svrID name = some value := by
  rw [← List.flatMap_eq_nil_iff]
  constructor
  · rintro ⟨hsame, -⟩
    constructor
    · -- the channels of the earlier files are still there
      have hchannels := hsame.channels
      rw [readConfigs_channels, readConfigs_channels, List.flatMap_append, List.flatMap_singleton]
        at hchannels
      simpa [initialCfg] using hchannels
    · intro name value hvalue
      have hname := hsame.names name
      rw [readConfigs_names_after, readConfigs_names_alone, hvalue, Option.some_or] at hname
      exact hname.symm
  · rintro ⟨hempty, hvalues⟩
    have heq := readConfigs_eq_of_empty ascStrToSize hkey hempty
    constructor
    · refine .of_names heq fun name => ?_
      rw [readConfigs_names_after, readConfigs_names_alone]
      cases hvalue : findName (earlier.flatMap ConfigFile.svrID) name with
      | none => rfl
      | some value => rw [Option.some_or, hvalues name value hvalue]
    · intro createShm
      -- `CreateIBUS` reads the last file itself
      apply createIBUS_congr ascStrToSize createShm
      have hread : readIBUSConfig ascStrToSize initialCfg (some last) =
          some (readConfigs ascStrToSize initialCfg [last]) :=
        readConfigs_concat ascStrToSize initialCfg [] last
      rw [readConfigs_concat, hread, Option.map_some, Option.map_some, heq]

/-- A file that has only a name, and then one that gives it the same value. -/
theorem replaces_name : Replaces (fun _ => 32) [⟨some 7, some "32", [], [("a", 1)]⟩]
    ⟨some 7, some "32", [.list 1 2 "32"], [("b", 2), ("a", 1)]⟩ := by
  refine (replaces_iff _ _ _ rfl).2 ⟨by decide, fun name value h => ?_⟩
  simp only [findName, List.flatMap_cons, List.flatMap_nil, List.append_nil] at h
  obtain ⟨n, hn, rfl⟩ := Option.map_eq_some_iff.1 h
  have hname := List.find?_some hn
  obtain rfl := List.mem_singleton.1 (List.mem_of_find?_eq_some hn)
  obtain rfl : "a" = name := by simpa using hname
  decide

/-- The same file twice: the channel is there twice. -/
theorem not_replaces_twice : ¬ Replaces (fun _ => 16)
    [⟨some 7, some "16", [.list 1 2 "16"], []⟩] ⟨some 7, some "16", [.list 1 2 "16"], []⟩ := by
  intro h
  have hcapacity := h.same.capacity
  exact absurd hcapacity (by decide)

end XGame3.Ibus
