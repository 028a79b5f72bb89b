import Mathlib.Data.List.Induction
import Mathlib.Data.List.Nodup
import Liota.Python.Computation
import Liota.Python.Dict

namespace Liota.Dccs.IotControlCenter

open Python Python.Computation Python.Text

structure Entity where
  name : Str
  entityType : Str
  entityId : Str
  deriving DecidableEq, Repr

structure EdgeSystemEntry where
  systemName : Str
  entityType : Str
  uuid : Str
  localUuid : Str
  deriving DecidableEq, Repr

structure DeviceEntry where
  deviceName : Str
  uuid : Str
  entityType : Str
  localUuid : Str
  deriving DecidableEq, Repr

/-- The `iotcc` object of `iotcc.json`. An entry that is missing is `none`, and reading it is a
`KeyError`. -/
structure Details where
  edgeSystem : Option EdgeSystemEntry
  ogProperties : Option (Dict Str)
  devices : Option (List DeviceEntry)
  deriving DecidableEq

def EdgeSystemEntry.texts (e : EdgeSystemEntry) : List Str :=
  [e.systemName, e.entityType, e.uuid, e.localUuid]

def DeviceEntry.texts (e : DeviceEntry) : List Str :=
  [e.deviceName, e.uuid, e.entityType, e.localUuid]

def Details.texts (d : Details) : List Str :=
  (d.edgeSystem.map EdgeSystemEntry.texts).getD [] ++
  (d.ogProperties.map fun og ↦ og.entries.flatMap fun e ↦ [e.1, e.2]).getD [] ++
  (d.devices.map fun devices ↦ devices.flatMap DeviceEntry.texts).getD []

/-- `json.dump` with `ensure_ascii=False` hands the texts as they are to a file that encodes them as
ASCII; a `UnicodeEncodeError` is a `ValueError`. -/
def dump (d : Details) : Except PyErr Details :=
  if d.texts.all ascii then .ok d else .error .valueError

def createIotccJson : Details where
  edgeSystem := some ⟨[], [], [], []⟩
  ogProperties := some (AList.insert "OrganizationGroup".toList [] ∅)
  devices := some []

/-- The line that logs the name and the uuid formats them into a byte string, which raises
`UnicodeEncodeError` for a `unicode` object that is not ASCII. -/
def logged (name uuid : Str) (x : Except PyErr Details) : Except PyErr Details :=
  if ascii name ∧ ascii uuid then x else .error .valueError

def storeRegEntityDetails (entityType name uuid localUuid : Str) (d : Details) :
    Except PyErr Details :=
  logged name uuid <|
    if entityType = "HelixGateway".toList then
      match d.edgeSystem with
      | none => .error .keyError
      | some _ => dump { d with edgeSystem := some ⟨name, entityType, uuid, localUuid⟩ }
    else
      match d.devices with
      | none => .error .keyError
      | some devices =>
        if devices.any fun e ↦ e.uuid = uuid ∧ e.entityType = entityType then dump d
        else dump { d with devices := some (devices ++ [⟨name, uuid, entityType, localUuid⟩]) }

def removeRegEntityDetails (name uuid : Str) (d : Details) : Except PyErr Details :=
  logged name uuid <|
    match d.edgeSystem with
    | none => .error .keyError
    | some edgeSystem =>
      if edgeSystem.systemName = name ∧ edgeSystem.uuid = uuid then
        dump { d with edgeSystem := none }
      else
        match d.devices with
        | none => .error .keyError
        | some devices =>
          match devices.find? fun e ↦ e.uuid = uuid with
          | some device => dump { d with devices := some (devices.erase device) }
          | none => dump d

def addOrganizationProperties (propDict : Dict Str) (d : Details) : Except PyErr (Dict Str) :=
  match d.ogProperties with
  | none => .error .keyError
  | some og => .ok (og ∪ propDict)

inductive Write
  | store (entityType name uuid localUuid : Str)
  | remove (name uuid : Str)
  deriving DecidableEq, Repr

def Write.apply : Write → Details → Except PyErr Details
  | .store entityType name uuid localUuid => storeRegEntityDetails entityType name uuid localUuid
  | .remove name uuid => removeRegEntityDetails name uuid

/-- The operations of a history: `register` and `unregister` when they succeed, and direct calls. -/
inductive Update
  | register (entity : Entity) (uuid : Str)
  | unregister (entity : Entity) (uuid : Str)
  | write (w : Write)
  deriving DecidableEq, Repr

def Entity.registeredType (entity : Entity) : Str :=
  if entity.entityType = "EdgeSystem".toList then "HelixGateway".toList else entity.entityType

/-- The change of the file that is part of an operation. An entity that is unregistered was
registered before, and has had its type since. -/
def Update.write? : Update → Option Write
  | .register entity uuid =>
    if entity.registeredType = "HelixGateway".toList then
      some (.store entity.registeredType entity.name uuid entity.entityId)
    else none
  | .unregister entity uuid =>
    if entity.registeredType = "HelixGateway".toList then some (.remove entity.name uuid)
    else none
  | .write w => some w

def Update.apply (u : Update) (d : Details) : Except PyErr Details :=
  match u.write? with
  | some w => w.apply d
  | none => .ok d

def runUpdates (updates : List Update) (d : Details) : Except PyErr Details :=
  updates.foldlM (fun d u ↦ u.apply d) d

/-- The entries that the manager and device discovery read are there, and no device is listed twice
under one entity type. -/
structure Usable (d : Details) : Prop where
  edgeSystem : ∃ e, d.edgeSystem = some e
  discovery : ∀ propDict, ∃ merged, addOrganizationProperties propDict d = .ok merged
  devices : ∃ devices, d.devices = some devices ∧
    (devices.map fun e ↦ (e.uuid, e.entityType)).Nodup

def Write.texts : Write → List Str
  | .store entityType name uuid localUuid => [entityType, name, uuid, localUuid]
  | .remove name uuid => [name, uuid]

/-- The texts that an operation brings to the file. -/
def Update.Ascii (u : Update) : Prop := ∀ w ∈ u.write?, ∀ text ∈ w.texts, ascii text

def Write.Safe (d : Details) : Write → Prop
  | .store _ _ _ _ => True
  | .remove name uuid => ∀ e ∈ d.edgeSystem, ¬ (e.systemName = name ∧ e.uuid = uuid)

def Update.Safe (u : Update) (d : Details) : Prop :=
  ∀ w ∈ u.write?, w.Safe d

section Writes

variable {d d' : Details}

theorem dump_eq_ok_iff : dump d = .ok d' ↔ d' = d ∧ d.texts.all ascii := by
  unfold dump
  split
  · next h => simp [h, eq_comm]
  · next h => simp [h]

structure Good (d : Details) : Prop extends Usable d where
  ascii_texts : d.texts.all ascii

theorem good_createIotccJson : Good createIotccJson where
  edgeSystem := ⟨_, rfl⟩
  discovery _ := ⟨_, rfl⟩
  devices := ⟨[], rfl, List.nodup_nil⟩
  ascii_texts := by decide

theorem all_texts_iff : d.texts.all ascii ↔
    (∀ e ∈ d.edgeSystem, e.texts.all ascii) ∧
    (∀ og ∈ d.ogProperties, (og.entries.flatMap fun e ↦ [e.1, e.2]).all ascii) ∧
    ∀ devices ∈ d.devices, ∀ e ∈ devices, e.texts.all ascii := by
  rw [Details.texts, List.all_append, List.all_append, Bool.and_eq_true, Bool.and_eq_true,
    and_assoc]
  refine and_congr ?_ (and_congr ?_ ?_)
  · cases d.edgeSystem <;> simp
  · cases d.ogProperties <;> simp
  · cases d.devices <;> simp

theorem Good.store_edgeSystem (h : Good d) (e : EdgeSystemEntry) (he : e.texts.all ascii) :
    Good { d with edgeSystem := some e } where
  edgeSystem := ⟨e, rfl⟩
  discovery := h.discovery
  devices := h.devices
  ascii_texts := by
    rw [all_texts_iff]
    refine ⟨?_, (all_texts_iff.mp h.ascii_texts).2⟩
    intro e' he'
    cases he'
    exact he

theorem Good.set_devices {devices : List DeviceEntry} (h : Good d)
    (hnodup : (devices.map fun e ↦ (e.uuid, e.entityType)).Nodup)
    (hascii : ∀ e ∈ devices, e.texts.all ascii) :
    Good { d with devices := some devices } where
  edgeSystem := h.edgeSystem
  discovery := h.discovery
  devices := ⟨devices, rfl, hnodup⟩
  ascii_texts := by
    obtain ⟨hedge, hog, -⟩ := all_texts_iff.mp h.ascii_texts
    rw [all_texts_iff]
    refine ⟨hedge, hog, ?_⟩
    intro devices' hdevices'
    cases hdevices'
    exact hascii

theorem Good.dump (h : Good d) : dump d = .ok d :=
  dump_eq_ok_iff.mpr ⟨rfl, h.ascii_texts⟩

theorem logged_of_ascii {name uuid : Str} (hname : ascii name) (huuid : ascii uuid)
    (x : Except PyErr Details) : logged name uuid x = x := if_pos ⟨hname, huuid⟩

theorem good_store {entityType name uuid localUuid : Str} (h : Good d)
    (hascii : ∀ text ∈ (Write.store entityType name uuid localUuid).texts, ascii text) :
    ∃ d', storeRegEntityDetails entityType name uuid localUuid d = .ok d' ∧ Good d' := by
  simp only [Write.texts, List.forall_mem_cons] at hascii
  obtain ⟨htype, hname, huuid, hlocal, -⟩ := hascii
  rw [storeRegEntityDetails, logged_of_ascii hname huuid]
  split
  · obtain ⟨e, he⟩ := h.edgeSystem
    rw [he]
    have hgood : Good { d with edgeSystem := some ⟨name, entityType, uuid, localUuid⟩ } := by
      apply h.store_edgeSystem
      simp [EdgeSystemEntry.texts, htype, hname, huuid, hlocal]
    exact ⟨_, hgood.dump, hgood⟩
  · obtain ⟨devices, hdevices, hnodup⟩ := h.devices
    rw [hdevices]
    dsimp only
    split
    · exact ⟨d, h.dump, h⟩
    · next hnew =>
      simp only [List.any_eq_true, decide_eq_true_eq, not_exists, not_and] at hnew
      have hgood : Good { d with
          devices := some (devices ++ [⟨name, uuid, entityType, localUuid⟩]) } := by
        apply h.set_devices
        · rw [List.map_append, List.nodup_append]
          refine ⟨hnodup, List.nodup_singleton _, ?_⟩
          intro k hk k' hk' heq
          obtain ⟨e, he, rfl⟩ := List.mem_map.mp hk
          obtain rfl := List.mem_singleton.mp hk'
          exact hnew e he (Prod.mk.inj heq).1 (Prod.mk.inj heq).2
        · intro e he
          rcases List.mem_append.mp he with he | he
          · exact (all_texts_iff.mp h.ascii_texts).2.2 devices hdevices e he
          · obtain rfl := List.mem_singleton.mp he
            simp [DeviceEntry.texts, htype, hname, huuid, hlocal]
      exact ⟨_, hgood.dump, hgood⟩

theorem good_remove {name uuid : Str} (h : Good d)
    (hascii : ∀ text ∈ (Write.remove name uuid).texts, ascii text)
    (hsafe : (Write.remove name uuid).Safe d) :
    ∃ d', removeRegEntityDetails name uuid d = .ok d' ∧ Good d' := by
  simp only [Write.texts, List.forall_mem_cons] at hascii
  obtain ⟨hname, huuid, -⟩ := hascii
  obtain ⟨e, he⟩ := h.edgeSystem
  obtain ⟨devices, hdevices, hnodup⟩ := h.devices
  have hother : ¬ (e.systemName = name ∧ e.uuid = uuid) := hsafe e he
  rw [removeRegEntityDetails, logged_of_ascii hname huuid, he]
  dsimp only
  rw [if_neg hother, hdevices]
  dsimp only
  split
  · next device hfind =>
    have hgood : Good { d with devices := some (devices.erase device) } := by
      apply h.set_devices
      · exact hnodup.sublist (devices.erase_sublist.map _)
      · intro e he
        exact (all_texts_iff.mp h.ascii_texts).2.2 devices hdevices e (List.mem_of_mem_erase he)
    have hd : d.edgeSystem = some e := he
    exact ⟨_, by rw [← hd]; exact hgood.dump, hgood⟩
  · exact ⟨d, h.dump, h⟩

theorem Good.apply {w : Write} (h : Good d) (hascii : ∀ text ∈ w.texts, ascii text)
    (hsafe : w.Safe d) : ∃ d', w.apply d = .ok d' ∧ Good d' := by
  cases w with
  | store entityType name uuid localUuid => exact good_store h hascii
  | remove name uuid => exact good_remove h hascii hsafe

theorem eq_ok_of_logged {name uuid : Str} {x : Except PyErr Details}
    (h : logged name uuid x = .ok d') : x = .ok d' := by
  unfold logged at h
  split at h
  · exact h
  · cases h

theorem Write.safe_of_apply {w : Write} (h : w.apply d = .ok d') (hedge : d'.edgeSystem ≠ none) :
    w.Safe d := by
  cases w with
  | store entityType name uuid localUuid => exact trivial
  | remove name uuid =>
    intro e he hsame
    have he : d.edgeSystem = some e := he
    have hbody := eq_ok_of_logged h
    simp only [he, if_pos hsame] at hbody
    obtain ⟨rfl, -⟩ := dump_eq_ok_iff.mp hbody
    exact hedge rfl

theorem edgeSystem_store {name uuid localUuid : Str}
    (h : storeRegEntityDetails "HelixGateway".toList name uuid localUuid d = .ok d') :
    ∃ e ∈ d'.edgeSystem, e.systemName = name ∧ e.uuid = uuid := by
  have hbody := eq_ok_of_logged h
  rw [if_pos rfl] at hbody
  split at hbody
  · cases hbody
  · obtain ⟨rfl, -⟩ := dump_eq_ok_iff.mp hbody
    exact ⟨_, rfl, rfl, rfl⟩

theorem store_edgeSystem_iff {name uuid localUuid : Str} (hname : ascii name) (huuid : ascii uuid) :
    (∃ d', storeRegEntityDetails "HelixGateway".toList name uuid localUuid d = .ok d') ↔
      d.edgeSystem ≠ none ∧ ascii localUuid = true ∧
        { d with edgeSystem := none }.texts.all ascii = true := by
  rw [storeRegEntityDetails, logged_of_ascii hname huuid, if_pos rfl]
  have hdump (d' d'' : Details) : dump d' = .ok d'' ↔ d'' = d' ∧ d'.texts.all ascii :=
    dump_eq_ok_iff
  have htype : ascii "HelixGateway".toList = true := by decide
  cases d.edgeSystem with
  | none => simp
  | some e =>
    simp only [hdump, exists_eq_left, ne_eq, reduceCtorEq, not_false_eq_true, true_and,
      all_texts_iff, Option.mem_def, Option.some.injEq, forall_eq', EdgeSystemEntry.texts,
      List.all_cons, List.all_nil, hname, htype, huuid, Bool.true_and, Bool.and_true,
      IsEmpty.forall_iff, implies_true]

end Writes

section Histories

variable {updates : List Update} {u : Update} {d d' : Details}

theorem Update.safe_of_apply (h : u.apply d = .ok d') (hedge : d'.edgeSystem ≠ none) :
    u.Safe d := by
  intro w hw
  have hw : u.write? = some w := hw
  rw [Update.apply, hw] at h
  exact w.safe_of_apply h hedge

theorem Good.apply_update (h : Good d) (hascii : u.Ascii) (hsafe : u.Safe d) :
    ∃ d', u.apply d = .ok d' ∧ Good d' := by
  unfold Update.apply
  split
  · next w hw => exact h.apply (hascii w hw) (hsafe w hw)
  · exact ⟨d, rfl, h⟩

theorem runUpdates_append (updates : List Update) (u : Update) (d : Details) :
    runUpdates (updates ++ [u]) d = runUpdates updates d >>= u.apply := by
  rw [runUpdates, List.foldlM_append]
  apply bind_congr
  intro d'
  exact bind_pure _

theorem exists_run_of_append (h : runUpdates (updates ++ [u]) d = .ok d') :
    ∃ d₀, runUpdates updates d = .ok d₀ ∧ u.apply d₀ = .ok d' := by
  rw [runUpdates_append] at h
  cases hrun : runUpdates updates d with
  | error e =>
    rw [hrun] at h
    cases h
  | ok d₀ =>
    rw [hrun] at h
    exact ⟨d₀, rfl, h⟩

def SafeHistory (updates : List Update) : Prop :=
  ∀ pre u d, pre ++ [u] <+: updates → runUpdates pre createIotccJson = .ok d → u.Safe d

theorem SafeHistory.good_run (h : SafeHistory updates) (hascii : ∀ u ∈ updates, u.Ascii) :
    ∃ d, runUpdates updates createIotccJson = .ok d ∧ Good d := by
  induction updates using List.reverseRecOn with
  | nil => exact ⟨_, rfl, good_createIotccJson⟩
  | append_singleton updates u ih =>
    have hupdates : SafeHistory updates := by
      intro pre v d hpre hrun
      exact h pre v d (hpre.trans (List.prefix_append _ _)) hrun
    obtain ⟨d, hrun, hgood⟩ := ih hupdates fun v hv ↦ hascii v (List.mem_append_left _ hv)
    have hsafe : u.Safe d := h updates u d List.prefix_rfl hrun
    obtain ⟨d', happly, hgood'⟩ := hgood.apply_update (hascii u (by simp)) hsafe
    refine ⟨d', ?_, hgood'⟩
    rw [runUpdates_append, hrun]
    exact happly

theorem stored_after_register {entity : Entity} {uuid : Str}
    (hrun : runUpdates updates createIotccJson = .ok d)
    (hlast : updates.getLast? = some (.register entity uuid))
    (htype : entity.registeredType = "HelixGateway".toList) :
    ∃ e ∈ d.edgeSystem, e.systemName = entity.name ∧ e.uuid = uuid := by
  obtain ⟨pre, rfl⟩ := List.getLast?_eq_some_iff.mp hlast
  obtain ⟨d₀, -, happly⟩ := exists_run_of_append hrun
  rw [Update.apply, Update.write?, if_pos htype] at happly
  change storeRegEntityDetails _ _ _ _ _ = _ at happly
  rw [htype] at happly
  exact edgeSystem_store happly

end Histories

/-- Throughout a history of ASCII texts nothing raises, the file has what is read from it, no device
is listed twice, and the edge system registered last is the stored one: if and only if no operation
removes the edge system that is stored. -/
theorem iotccJson_usable_iff_safe (updates : List Update) (hascii : ∀ u ∈ updates, u.Ascii) :
    (∀ pre, pre <+: updates → ∃ d, runUpdates pre createIotccJson = .ok d ∧ Usable d ∧
      ∀ entity uuid, pre.getLast? = some (.register entity uuid) →
        entity.registeredType = "HelixGateway".toList →
        ∃ e ∈ d.edgeSystem, e.systemName = entity.name ∧ e.uuid = uuid) ↔
      ∀ pre u d, pre ++ [u] <+: updates → runUpdates pre createIotccJson = .ok d → u.Safe d := by
  constructor
  · intro h pre u d hpre hrun
    obtain ⟨d', hrun', husable, -⟩ := h _ hpre
    obtain ⟨d₀, hrun₀, happly⟩ := exists_run_of_append hrun'
    obtain rfl := Except.ok.inj (hrun.symm.trans hrun₀)
    apply u.safe_of_apply happly
    obtain ⟨e, he⟩ := husable.edgeSystem
    rw [he]
    exact Option.some_ne_none e
  · intro h pre hpre
    have hsafe : SafeHistory pre := by
      intro pre' u d hpre' hrun
      exact h pre' u d (hpre'.trans hpre) hrun
    obtain ⟨d, hrun, hgood⟩ := hsafe.good_run fun u hu ↦ hascii u (hpre.subset hu)
    refine ⟨d, hrun, hgood.toUsable, ?_⟩
    intro entity uuid hlast htype
    exact stored_after_register hrun hlast htype

def twoDevices : List Update :=
  [.write (.store "Sensor".toList "a".toList "1".toList "x".toList),
    .write (.store "Sensor".toList "a".toList "1".toList "x".toList),
    .write (.store "Sensor".toList "b".toList "2".toList "y".toList)]

theorem iotccJson_usable_twoDevices :
    ∃ d, runUpdates twoDevices createIotccJson = .ok d ∧ Usable d ∧
      d.devices.map List.length = some 2 := by
  have hascii : ∀ u ∈ twoDevices, u.Ascii := by
    unfold Update.Ascii
    decide
  have hsafe : SafeHistory twoDevices := by
    intro pre u d hpre _ w hw
    have hmem : u ∈ twoDevices := hpre.subset (List.mem_append_right _ (List.mem_singleton_self u))
    simp only [twoDevices, List.mem_cons, List.not_mem_nil, or_false] at hmem
    rcases hmem with rfl | rfl | rfl <;> obtain rfl := Option.some.inj hw <;> exact trivial
  have hcount : ((runUpdates twoDevices createIotccJson).map fun d ↦
      d.devices.map List.length).toOption = some (some 2) := by decide
  obtain ⟨d, hrun, husable, -⟩ :=
    (iotccJson_usable_iff_safe twoDevices hascii).mpr hsafe twoDevices List.prefix_rfl
  rw [hrun] at hcount
  exact ⟨d, hrun, husable, Option.some.inj hcount⟩

def registeredAgain : List Update :=
  [.register ⟨"gw".toList, "EdgeSystem".toList, "1".toList⟩ "u".toList,
    .unregister ⟨"gw".toList, "EdgeSystem".toList, "1".toList⟩ "u".toList,
    .register ⟨"gw".toList, "EdgeSystem".toList, "1".toList⟩ "u".toList]

/-- The entry of the edge system is deleted as a whole, and the registration finds none to fill. -/
theorem registering_again_raises :
    (runUpdates (registeredAgain.take 2) createIotccJson).map Details.edgeSystem = .ok none ∧
    (runUpdates registeredAgain createIotccJson).map Details.edgeSystem = .error .keyError := by
  constructor
  · decide
  · decide

end Liota.Dccs.IotControlCenter
