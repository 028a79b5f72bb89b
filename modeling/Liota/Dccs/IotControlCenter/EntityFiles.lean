import Mathlib.Data.List.Induction
import Liota.Dccs.IotControlCenter.Requests
import Liota.Python.Dict

namespace Liota.Dccs.IotControlCenter

open Python Python.Text

structure DeviceFile where
  remove : Bool
  attributes : List (Str × Str)
  deriving DecidableEq, Repr

/-- The local entity records and the files for the agents, by uuid. -/
structure Files where
  entities : Dict (Dict Str)
  devices : Dict DeviceFile

structure Clock where
  entityTimestamp : Str
  lastSeen : Str

def identityKeys : List Str :=
  ["entity type".toList, "name".toList, "device type".toList, "Entity_Timestamp".toList]

def writeEntityJsonFile (propDict : Dict Str) (attributeList : List (Str × Str)) (uuid : Str)
    (remove : Bool) (clock : Clock) (files : Files) : Files :=
  let properties := (propDict.entries.filter fun e ↦ e.1 ∉ identityKeys).map fun e ↦ (e.1, e.2)
  let attributes := attributeList ++ properties ++ [("LastSeenTimestamp".toList, clock.lastSeen)]
  { files with devices := files.devices.insert uuid ⟨remove, attributes⟩ }

def storeEdgeSystemInfo (uuid name : Str) (propDict : Dict Str) (remove : Bool) (clock : Clock) :
    Files → Files :=
  writeEntityJsonFile propDict [("edge system name".toList, name)] uuid remove clock

def storeDeviceInfo (uuid name devType : Str) (propDict : Dict Str) (remove : Bool)
    (clock : Clock) : Files → Files :=
  writeEntityJsonFile propDict [("IoTDeviceType".toList, devType), ("IoTDeviceName".toList, name)]
    uuid remove clock

def identityRecord (entityType name : Str) (devType : Option Str) : Dict Str :=
  ((AList.insert "entity type".toList entityType ∅).insert "name".toList name).insert
    "device type".toList (devType.getD [])

def SameEntity (entityType name : Str) (devType : Option Str) (record : Dict Str) : Prop :=
  record.lookup "entity type".toList = some entityType ∧
  record.lookup "name".toList = some name ∧
  ∃ v ∈ record.lookup "device type".toList, devType = some v ∨ v = [] ∧ devType = none

instance (entityType name : Str) (devType : Option Str) (record : Dict Str) :
    Decidable (SameEntity entityType name devType record) := inferInstanceAs (Decidable (_ ∧ _ ∧ _))

/-- `dict(tmp_dict.items() + prop_dict.items())`, where the properties come last and so win. -/
def withProperties (tmpDict : Dict Str) : Option (Dict Str) → Dict Str
  | none => tmpDict
  | some propDict => propDict ∪ tmpDict

/-- The record that `_store_reg_entity_attributes` writes: the properties are added to those of the
same entity, and replace those of another. -/
def newPropDict (entityType name : Str) (devType : Option Str) (propDict : Option (Dict Str)) :
    Option (Dict Str) → Dict Str
  | none => withProperties (identityRecord entityType name devType) propDict
  | some record =>
    if SameEntity entityType name devType record then withProperties record propDict
    else withProperties (identityRecord entityType name devType) propDict

/-- The `entity_type` argument. -/
inductive Kind
  | edgeSystem
  | devices
  deriving DecidableEq, Repr

def Kind.text : Kind → Str
  | .edgeSystem => "EdgeSystem".toList
  | .devices => "Devices".toList

/-- `_store_reg_entity_attributes`, without fetching properties after a reboot. -/
def storeRegEntityAttributes (kind : Kind) (name uuid : Str) (devType : Option Str)
    (propDict : Option (Dict Str)) (clock : Clock) (files : Files) : Files :=
  let record := (newPropDict kind.text name devType propDict (files.entities.lookup uuid)).insert
    "Entity_Timestamp".toList clock.entityTimestamp
  let files := { files with entities := files.entities.insert uuid record }
  match kind with
  | .edgeSystem => storeEdgeSystemInfo uuid name record false clock files
  | .devices => storeDeviceInfo uuid name (devType.getD []) record false clock files

/-- What `register` (with no properties) and `set_properties` write after a good answer. -/
def storeAttributes (entity : Entity) (uuid : Str) (propDict : Option (Dict Str)) (clock : Clock) :
    Files → Files :=
  if entity.entityType = "HelixGateway".toList then
    storeRegEntityAttributes .edgeSystem entity.name uuid none propDict clock
  else storeRegEntityAttributes .devices entity.name uuid (some entity.entityType) propDict clock

def Entity.ownAttributes (entity : Entity) : List (Str × Str) :=
  if entity.entityType = "HelixGateway".toList then [("edge system name".toList, entity.name)]
  else [("IoTDeviceType".toList, entity.entityType), ("IoTDeviceName".toList, entity.name)]

def Entity.kind (entity : Entity) : Kind :=
  if entity.entityType = "HelixGateway".toList then .edgeSystem else .devices

def Entity.devType (entity : Entity) : Option Str :=
  if entity.entityType = "HelixGateway".toList then none else some entity.entityType

def Entity.record (entity : Entity) (uuid : Str) (propDict : Option (Dict Str)) (clock : Clock)
    (files : Files) : Dict Str :=
  (newPropDict entity.kind.text entity.name entity.devType propDict
    (files.entities.lookup uuid)).insert "Entity_Timestamp".toList clock.entityTimestamp

theorem storeAttributes_eq (entity : Entity) (uuid : Str) (propDict : Option (Dict Str))
    (clock : Clock) (files : Files) :
    storeAttributes entity uuid propDict clock files =
      writeEntityJsonFile (entity.record uuid propDict clock files) entity.ownAttributes uuid false
        clock { files with
          entities := files.entities.insert uuid (entity.record uuid propDict clock files) } := by
  unfold storeAttributes Entity.record Entity.kind Entity.devType Entity.ownAttributes
  split
  · rfl
  · rfl

/-- A registration and then the calls of `set_properties`, each answered with success. -/
def storeAll (entity : Entity) (uuid : Str) (registered : Clock) (calls : List (Dict Str × Clock))
    (files : Files) : Files :=
  calls.foldl (fun files call ↦ storeAttributes entity uuid (some call.1) call.2 files)
    (storeAttributes entity uuid none registered files)

def latest (key : Str) (calls : List (Dict Str × Clock)) : Option Str :=
  calls.foldl (fun value call ↦ call.1.lookup key <|> value) none

/-- The record of a uuid maps every property to its latest value, and the file for the agents lists
it exactly once, with that value. -/
def Accumulated (uuid : Str) (calls : List (Dict Str × Clock)) (files : Files) : Prop :=
  ∀ key value, latest key calls = some value →
    (∃ record ∈ files.entities.lookup uuid, record.lookup key = some value) ∧
    ∃ file ∈ files.devices.lookup uuid, file.attributes.filter (fun a ↦ a.1 = key) = [(key, value)]

def Entity.reserved (entity : Entity) : List Str :=
  identityKeys ++ entity.ownAttributes.map Prod.fst ++ ["LastSeenTimestamp".toList]

section Lookups

variable {entity : Entity} {uuid key value : Str} {propDict : Dict Str} {clock : Clock}
  {files : Files}

theorem entities_storeAttributes (entity : Entity) (uuid : Str) (propDict : Option (Dict Str))
    (clock : Clock) (files : Files) :
    (storeAttributes entity uuid propDict clock files).entities.lookup uuid =
      some (entity.record uuid propDict clock files) := by
  rw [storeAttributes_eq]
  exact AList.lookup_insert _

theorem attributes_storeAttributes (entity : Entity) (uuid : Str) (propDict : Option (Dict Str))
    (clock : Clock) (files : Files) (key : Str) :
    ∃ file ∈ (storeAttributes entity uuid propDict clock files).devices.lookup uuid,
      file.attributes.filter (fun a ↦ a.1 = key) =
        entity.ownAttributes.filter (fun a ↦ a.1 = key) ++
        (if key ∈ identityKeys then []
          else (((entity.record uuid propDict clock files).lookup key).map (Prod.mk key)).toList) ++
        [("LastSeenTimestamp".toList, clock.lastSeen)].filter (fun a ↦ a.1 = key) := by
  rw [storeAttributes_eq]
  refine ⟨_, AList.lookup_insert _, ?_⟩
  rw [List.filter_append, List.filter_append]
  congr 2
  rw [List.filter_map, List.filter_filter]
  split
  · next hkey =>
    rw [List.map_eq_nil_iff, List.filter_eq_nil_iff]
    intro e _ h
    simp only [Function.comp_apply, Bool.and_eq_true, decide_eq_true_eq] at h
    exact h.2 (h.1 ▸ hkey)
  · next hkey =>
    have hsame (e : (_ : Str) × Str) : (decide (e.1 = key) && decide (e.1 ∉ identityKeys)) =
        decide (e.1 = key) := by
      by_cases he : e.1 = key
      · simp [he, hkey]
      · simp [he]
    simp only [Function.comp_apply, hsame]
    rw [Dict.filter_entries]
    cases (entity.record uuid propDict clock files).lookup key <;> rfl

theorem lookup_newPropDict {entityType name : Str} {devType : Option Str}
    (h : propDict.lookup key = some value) (old : Option (Dict Str)) :
    (newPropDict entityType name devType (some propDict) old).lookup key = some value := by
  have hunion (d : Dict Str) : (withProperties d (some propDict)).lookup key = some value := by
    rw [withProperties, Dict.lookup_union_eq, h]
    rfl
  unfold newPropDict
  split
  · exact hunion _
  · split
    · exact hunion _
    · exact hunion _

theorem lookup_record_set (h : propDict.lookup key = some value)
    (hkey : key ≠ "Entity_Timestamp".toList) :
    (entity.record uuid (some propDict) clock files).lookup key = some value := by
  rw [Entity.record, Dict.lookup_insert_eq, if_neg hkey]
  exact lookup_newPropDict h _

end Lookups

theorem ownAttributes_ne {entity : Entity} {key : Str} (h : key ∈ identityKeys) :
    ∀ a ∈ entity.ownAttributes, a.1 ≠ key := by
  unfold Entity.ownAttributes
  split
  · have hall : ∀ key ∈ identityKeys, "edge system name".toList ≠ key := by decide
    simpa using hall key h
  · have hall : ∀ key ∈ identityKeys,
        "IoTDeviceType".toList ≠ key ∧ "IoTDeviceName".toList ≠ key := by
      decide
    simpa using hall key h

theorem reserved_not_listed {entity : Entity} {uuid key value : Str} {propDict : Dict Str}
    {clock : Clock} {files : Files} (hset : propDict.lookup key = some value)
    (hkey : key ∈ entity.reserved) (file : DeviceFile)
    (hfile : file ∈ (storeAttributes entity uuid (some propDict) clock files).devices.lookup uuid) :
    file.attributes.filter (fun a ↦ a.1 = key) ≠ [(key, value)] := by
  obtain ⟨file', hfile', hfilter⟩ :=
    attributes_storeAttributes entity uuid (some propDict) clock files key
  obtain rfl := Option.some.inj (hfile.symm.trans hfile')
  rw [hfilter]
  by_cases hid : key ∈ identityKeys
  · have hown : entity.ownAttributes.filter (fun a ↦ a.1 = key) = [] := by
      simpa using ownAttributes_ne hid
    have hlast : ∀ key ∈ identityKeys, "LastSeenTimestamp".toList ≠ key := by decide
    have hlast :
        [("LastSeenTimestamp".toList, clock.lastSeen)].filter (fun a ↦ a.1 = key) = [] := by
      apply List.filter_cons_of_neg
      rw [decide_eq_true_eq]
      exact hlast key hid
    rw [hown, if_pos hid, hlast]
    intro heq
    cases heq
  · have hne : key ≠ "Entity_Timestamp".toList := by
      rintro rfl
      exact hid (by decide)
    rw [if_neg hid, lookup_record_set hset hne]
    intro heq
    have hlength := congrArg List.length heq
    simp only [List.length_append, Option.map_some, Option.toList_some, List.length_singleton]
      at hlength
    have htwice : entity.ownAttributes.filter (fun a ↦ a.1 = key) = [] ∧
        [("LastSeenTimestamp".toList, clock.lastSeen)].filter (fun a ↦ a.1 = key) = [] :=
      ⟨List.length_eq_zero_iff.mp (by omega), List.length_eq_zero_iff.mp (by omega)⟩
    simp only [List.filter_eq_nil_iff, decide_eq_true_eq] at htwice
    simp only [Entity.reserved, List.mem_append, List.mem_map, List.mem_singleton] at hkey
    rcases hkey with (hkey | ⟨a, ha, heq⟩) | hlast
    · exact hid hkey
    · exact htwice.1 a ha heq
    · exact htwice.2 _ List.mem_cons_self hlast.symm

section Accumulating

variable {entity : Entity} {uuid : Str} {calls : List (Dict Str × Clock)} {files : Files}

theorem sameEntity_identityRecord (entityType name : Str) (devType : Option Str) :
    SameEntity entityType name devType (identityRecord entityType name devType) := by
  refine ⟨?_, ?_, devType.getD [], ?_, ?_⟩
  · rw [identityRecord, Dict.lookup_insert_eq, if_neg (by decide), Dict.lookup_insert_eq,
      if_neg (by decide), Dict.lookup_insert_eq, if_pos rfl]
  · rw [identityRecord, Dict.lookup_insert_eq, if_neg (by decide), Dict.lookup_insert_eq,
      if_pos rfl]
  · rw [identityRecord, Dict.lookup_insert_eq, if_pos rfl]
    rfl
  · cases devType with
    | none => exact .inr ⟨rfl, rfl⟩
    | some v => exact .inl rfl

theorem SameEntity.of_lookup {entityType name : Str} {devType : Option Str} {d e : Dict Str}
    (h : SameEntity entityType name devType d)
    (heq : ∀ key ∈ identityKeys.dropLast, e.lookup key = d.lookup key) :
    SameEntity entityType name devType e := by
  unfold SameEntity
  rw [heq _ (by decide), heq _ (by decide), heq _ (by decide)]
  exact h

/-- The record of an entity names that entity, and has the latest value of every property. -/
structure Recorded (entity : Entity) (calls : List (Dict Str × Clock)) (record : Dict Str) :
    Prop where
  same : SameEntity entity.kind.text entity.name entity.devType record
  lookup_eq : ∀ key value, key ∉ identityKeys → latest key calls = some value →
    record.lookup key = some value

theorem latest_append (key : Str) (calls : List (Dict Str × Clock)) (call : Dict Str × Clock) :
    latest key (calls ++ [call]) = (call.1.lookup key <|> latest key calls) :=
  List.foldl_concat ..

theorem storeAll_append (entity : Entity) (uuid : Str) (registered : Clock)
    (calls : List (Dict Str × Clock)) (call : Dict Str × Clock) (files : Files) :
    storeAll entity uuid registered (calls ++ [call]) files =
      storeAttributes entity uuid (some call.1) call.2
        (storeAll entity uuid registered calls files) :=
  List.foldl_concat ..

theorem ne_timestamp {key : Str} (h : key ∈ identityKeys.dropLast) :
    key ≠ "Entity_Timestamp".toList := by
  revert key
  decide

theorem recorded_register (entity : Entity) (uuid : Str) (clock : Clock) (files : Files) :
    Recorded entity [] (entity.record uuid none clock files) where
  same := by
    have hsame : SameEntity entity.kind.text entity.name entity.devType
        (newPropDict entity.kind.text entity.name entity.devType none
          (files.entities.lookup uuid)) := by
      unfold newPropDict
      split
      · exact sameEntity_identityRecord ..
      · split
        · assumption
        · exact sameEntity_identityRecord ..
    apply hsame.of_lookup
    intro key hkey
    rw [Entity.record, Dict.lookup_insert_eq, if_neg (ne_timestamp hkey)]
  lookup_eq _ _ _ h := by cases h

theorem Recorded.set {record : Dict Str} {call : Dict Str × Clock}
    (h : Recorded entity calls record) (hrecord : files.entities.lookup uuid = some record)
    (hkeys : ∀ key ∈ call.1.keys, key ∉ identityKeys) :
    Recorded entity (calls ++ [call]) (entity.record uuid (some call.1) call.2 files) := by
  have heq : entity.record uuid (some call.1) call.2 files =
      (call.1 ∪ record).insert "Entity_Timestamp".toList call.2.entityTimestamp := by
    rw [Entity.record, hrecord, newPropDict, if_pos h.same]
    rfl
  constructor
  · apply h.same.of_lookup
    intro key hkey
    have hnone : call.1.lookup key = none := by
      rw [AList.lookup_eq_none]
      intro hmem
      exact hkeys key hmem (List.dropLast_subset _ hkey)
    rw [heq, Dict.lookup_insert_eq, if_neg (ne_timestamp hkey), Dict.lookup_union_eq, hnone]
    rfl
  · intro key value hkey hlatest
    have hne : key ≠ "Entity_Timestamp".toList := by
      rintro rfl
      exact hkey (by decide)
    rw [heq, Dict.lookup_insert_eq, if_neg hne, Dict.lookup_union_eq]
    rw [latest_append] at hlatest
    cases hcall : call.1.lookup key with
    | some v =>
      rw [hcall] at hlatest
      exact hlatest
    | none =>
      rw [hcall] at hlatest
      exact h.lookup_eq key value hkey hlatest

def Free (entity : Entity) (calls : List (Dict Str × Clock)) : Prop :=
  ∀ call ∈ calls, ∀ key ∈ call.1.keys, key ∉ entity.reserved

theorem recorded_storeAll (uuid : Str) (registered : Clock) (files : Files)
    (h : Free entity calls) :
    ∃ record ∈ (storeAll entity uuid registered calls files).entities.lookup uuid,
      Recorded entity calls record := by
  induction calls using List.reverseRecOn with
  | nil =>
    exact ⟨_, entities_storeAttributes entity uuid none registered files,
      recorded_register entity uuid registered files⟩
  | append_singleton calls call ih =>
    have hcalls : Free entity calls := by
      intro c hc
      exact h c (List.mem_append_left _ hc)
    obtain ⟨record, hrecord, hrecorded⟩ := ih hcalls
    rw [storeAll_append]
    refine ⟨_, entities_storeAttributes .., hrecorded.set hrecord ?_⟩
    intro key hkey hid
    apply h call (by simp) key hkey
    simp only [Entity.reserved, List.mem_append]
    exact .inl (.inl hid)

theorem exists_mem_of_latest {key value : Str} (h : latest key calls = some value) :
    ∃ call ∈ calls, key ∈ call.1.keys := by
  induction calls using List.reverseRecOn with
  | nil => cases h
  | append_singleton calls call ih =>
    rw [latest_append] at h
    by_cases hkey : key ∈ call.1
    · exact ⟨call, by simp, hkey⟩
    · rw [AList.lookup_eq_none.mpr hkey] at h
      obtain ⟨c, hc, hmem⟩ := ih h
      exact ⟨c, List.mem_append_left _ hc, hmem⟩

theorem listed_of_free {key value : Str} {propDict : Option (Dict Str)} {clock : Clock}
    (hkey : key ∉ entity.reserved)
    (hvalue : (entity.record uuid propDict clock files).lookup key = some value) :
    ∃ file ∈ (storeAttributes entity uuid propDict clock files).devices.lookup uuid,
      file.attributes.filter (fun a ↦ a.1 = key) = [(key, value)] := by
  obtain ⟨file, hfile, hfilter⟩ := attributes_storeAttributes entity uuid propDict clock files key
  simp only [Entity.reserved, List.mem_append, not_or, List.mem_map, List.mem_singleton] at hkey
  obtain ⟨⟨hid, hown⟩, hlast⟩ := hkey
  have hown : entity.ownAttributes.filter (fun a ↦ a.1 = key) = [] := by
    rw [List.filter_eq_nil_iff]
    intro a ha hak
    exact hown ⟨a, ha, of_decide_eq_true hak⟩
  have hlast : [("LastSeenTimestamp".toList, clock.lastSeen)].filter (fun a ↦ a.1 = key) = [] := by
    apply List.filter_cons_of_neg
    rw [decide_eq_true_eq]
    exact fun h ↦ hlast h.symm
  refine ⟨file, hfile, ?_⟩
  rw [hfilter, hown, hlast, if_neg hid, hvalue]
  rfl

theorem accumulated_of_free (registered : Clock) (files : Files) (h : Free entity calls) :
    Accumulated uuid calls (storeAll entity uuid registered calls files) := by
  intro key value hlatest
  obtain ⟨c, hc, hmem⟩ := exists_mem_of_latest hlatest
  have hfree := h c hc key hmem
  obtain ⟨record, hrecord, hrecorded⟩ := recorded_storeAll uuid registered files h
  have hvalue : record.lookup key = some value := by
    apply hrecorded.lookup_eq key value _ hlatest
    intro hid
    apply hfree
    simp only [Entity.reserved, List.mem_append]
    exact .inl (.inl hid)
  refine ⟨⟨record, hrecord, hvalue⟩, ?_⟩
  cases calls using List.reverseRecOn with
  | nil => cases hc
  | append_singleton calls call =>
    rw [storeAll_append] at hrecord ⊢
    apply listed_of_free hfree
    rw [Option.some.inj ((entities_storeAttributes ..).symm.trans hrecord)]
    exact hvalue

end Accumulating

/-- From the registration on and after each `set_properties`, the record and the file for the agents
hold the latest value of every property if and only if no call sets a reserved key. -/
theorem properties_accumulate_iff_free (entity : Entity) (uuid : Str) (registered : Clock)
    (calls : List (Dict Str × Clock)) (files : Files) :
    (∀ pre, pre <+: calls → Accumulated uuid pre (storeAll entity uuid registered pre files)) ↔
      ∀ call ∈ calls, ∀ key ∈ call.1.keys, key ∉ entity.reserved := by
  constructor
  · intro h call hcall key hkey hreserved
    obtain ⟨a, b, rfl⟩ := List.append_of_mem hcall
    have hpre : a ++ [call] <+: a ++ call :: b := ⟨b, by simp⟩
    obtain ⟨value, hvalue⟩ := (Dict.mem_iff_lookup key call.1).mp hkey
    have hlatest : latest key (a ++ [call]) = some value := by
      rw [latest_append, hvalue]
      rfl
    obtain ⟨-, file, hfile, hlisted⟩ := h _ hpre key value hlatest
    rw [storeAll_append] at hfile
    exact reserved_not_listed hvalue hreserved file hfile hlisted
  · intro h pre hpre
    apply accumulated_of_free
    intro call hcall
    exact h call (hpre.subset hcall)

/-- A property that is called `name`. -/
def namedCalls : List (Dict Str × Clock) :=
  [(AList.insert "model".toList "A2".toList ∅, ⟨[], []⟩),
    (AList.insert "name".toList "x".toList ∅, ⟨[], []⟩),
    (AList.insert "port".toList "3".toList ∅, ⟨[], []⟩)]

/-- The record then seems to be that of another entity, and the next call starts over. -/
theorem named_property_starts_over :
    (∀ call ∈ namedCalls,
      (call.1.entries.map fun e ↦ (e.1, some e.2)).forM assertProperty = .ok ()) ∧
    latest "model".toList namedCalls = some "A2".toList ∧
    ((storeAll ⟨"gw".toList, "HelixGateway".toList, "1".toList⟩ "u".toList ⟨[], []⟩ namedCalls
      ⟨∅, ∅⟩).entities.lookup "u".toList).map (AList.lookup "model".toList) = some none ∧
    ¬ ∀ pre, pre <+: namedCalls → Accumulated "u".toList pre
      (storeAll ⟨"gw".toList, "HelixGateway".toList, "1".toList⟩ "u".toList ⟨[], []⟩ pre
        ⟨∅, ∅⟩) := by
  have hlatest : latest "model".toList namedCalls = some "A2".toList := by decide
  have hlost : ((storeAll ⟨"gw".toList, "HelixGateway".toList, "1".toList⟩ "u".toList ⟨[], []⟩
      namedCalls ⟨∅, ∅⟩).entities.lookup "u".toList).map (AList.lookup "model".toList) =
        some none := by decide
  refine ⟨by decide, hlatest, hlost, ?_⟩
  intro h
  obtain ⟨⟨record, hrecord, hvalue⟩, -⟩ := h _ List.prefix_rfl _ _ hlatest
  rw [hrecord, Option.map_some, hvalue] at hlost
  cases hlost

end Liota.Dccs.IotControlCenter
