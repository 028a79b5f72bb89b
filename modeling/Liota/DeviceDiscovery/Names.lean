import Liota.DeviceDiscovery.Orders

namespace Liota.DeviceDiscovery

open Python Python.Computation Python.Text

def Overlap (t v t' v' : Str) : Prop :=
  ∃ w, (t' = t ++ '_' :: w ∧ v = w ++ '_' :: v') ∨ (t = t' ++ '_' :: w ∧ v' = w ++ '_' :: v)

theorem deviceName_eq_iff (t v t' v' : Str) :
    Config.deviceName t v = Config.deviceName t' v' ↔ (t = t' ∧ v = v') ∨ Overlap t v t' v' := by
  constructor
  · intro h
    obtain ⟨w, ht, hv⟩ | ⟨w, ht, hv⟩ := List.append_eq_append_iff.mp h
    · cases w with
      | nil =>
        rw [List.append_nil] at ht
        exact Or.inl ⟨ht.symm, List.tail_eq_of_cons_eq hv⟩
      | cons ch w =>
        obtain ⟨hch, hv⟩ := List.cons.inj hv
        rw [← hch] at ht
        exact Or.inr ⟨w, .inl ⟨ht, hv⟩⟩
    · cases w with
      | nil =>
        rw [List.append_nil] at ht
        exact Or.inl ⟨ht, (List.tail_eq_of_cons_eq hv).symm⟩
      | cons ch w =>
        obtain ⟨hch, hv⟩ := List.cons.inj hv
        rw [← hch] at ht
        exact Or.inr ⟨w, .inr ⟨ht, hv⟩⟩
  · intro h
    obtain ⟨ht, hv⟩ | ⟨w, ⟨ht, hv⟩ | ⟨ht, hv⟩⟩ := h
    · rw [ht, hv]
    · simp [Config.deviceName, ht, hv]
    · simp [Config.deviceName, ht, hv]

theorem Overlap.type_ne {t v t' v' : Str} (h : Overlap t v t' v') : t ≠ t' := by
  intro heq
  obtain ⟨w, ⟨ht, -⟩ | ⟨ht, -⟩⟩ := h
  · have hlength := congrArg List.length (heq.trans ht)
    simp at hlength
  · have hlength := congrArg List.length (heq.symm.trans ht)
    simp at hlength

namespace Config

variable {c : Config} {answers : ℕ → Answer}

/-- The calls of `reg_device` are for devices that come from the entries and are recorded. -/
def Sourced (c : Config) (entries : List Entry) (s : DiscoveryThread) : Prop :=
  ∀ a ∈ s.attempts, ∃ e ∈ entries, a.device = c.deviceOf e ∧
    c.propDict a.dcc e.2 = .ok a.propDict ∧ c.name e ∈ s.devicesDiscoverd

theorem Sourced.attempt {entries : List Entry} {s : DiscoveryThread} (h : c.Sourced entries s)
    {e : Entry} (he : e ∈ entries) (hname : c.name e ∈ s.devicesDiscoverd) {dcc : Str}
    {propDict : Dict Str} (hpropDict : c.propDict dcc e.2 = .ok propDict) :
    c.Sourced entries (s.attempt ⟨c.deviceOf e, dcc, propDict⟩) := by
  intro a ha
  obtain ha | ha := List.mem_append.mp ha
  · exact h a ha
  · rw [List.mem_singleton.mp ha]
    exact ⟨e, he, rfl, hpropDict, hname⟩

theorem sourced_processEntries (c : Config) (answers : ℕ → Answer) (entries : List Entry)
    (devices : Dict (Str × List (Str × Device))) :
    c.Sourced entries (c.processEntries answers entries ⟨devices, []⟩).2 := by
  apply processEntries_rule (I := c.Sourced entries)
  · intro s e he hs
    obtain ⟨-, -, heq⟩ | ⟨-, -, heq⟩ | ⟨-, -, heq⟩ := processEntry_cases c answers e s
    · rw [heq]
      exact hs
    · rw [heq]
      exact hs
    · rw [heq]
      have hall : c.name e ∈ (c.registerAll answers (c.name e) e.1 e.2 (c.dccs e.1)
            (s.saveDevinfo (c.name e) e.1)).2.devicesDiscoverd ∧
          c.Sourced entries (c.registerAll answers (c.name e) e.1 e.2 (c.dccs e.1)
            (s.saveDevinfo (c.name e) e.1)).2 := by
        apply registerAll_rule (I := fun s' ↦ c.name e ∈ s'.devicesDiscoverd ∧
          c.Sourced entries s')
        · intro s' dcc propDict hpropDict hs'
          have hattempt := hs'.2.attempt he hs'.1 hpropDict
          refine ⟨fun _ ↦ ⟨hs'.1, hattempt⟩, fun _ ↦ ⟨(Dict.mem_modify _ _ _ _).mpr hs'.1, ?_⟩⟩
          intro a ha
          obtain ⟨e', he', hdevice, hprops, hname⟩ := hattempt a ha
          exact ⟨e', he', hdevice, hprops, (Dict.mem_modify _ _ _ _).mpr hname⟩
        · refine ⟨(AList.mem_insert _).mpr (.inl rfl), fun a ha ↦ ?_⟩
          obtain ⟨e', he', hdevice, hprops, hname⟩ := hs a ha
          exact ⟨e', he', hdevice, hprops, (AList.mem_insert _).mpr (.inr hname)⟩
      exact hall.2
  · intro a ha
    cases ha

/-- The entry `e` of a message is registered as a device. -/
def Registers (c : Config) (answers : ℕ → Answer) (m : Message)
    (devices : Dict (Str × List (Str × Device))) (e : Entry) (dev : Device) : Prop :=
  e ∈ m.entries ∧ dev.entityType = e.1 ∧
    ∃ a ∈ (c.deviceMsgProcess answers m devices).2.attempts, a.device = dev

theorem Registers.device_eq {m : Message} {devices : Dict (Str × List (Str × Device))} {e : Entry}
    {dev : Device} (h : c.Registers answers m devices e dev) :
    dev = c.deviceOf e ∧
      dev.name ∈ (c.deviceMsgProcess answers m devices).2.devicesDiscoverd := by
  obtain ⟨he, htype, a, ha, hdev⟩ := h
  rw [deviceMsgProcess_snd] at ha ⊢
  obtain ⟨e', he', hdevice, -, hname⟩ := sourced_processEntries c answers m.entries devices a ha
  rw [hdev] at hdevice
  have hkey : e.1 = e'.1 := by
    rw [← htype, hdevice]
    rfl
  rw [m.nodupKeys.eq_of_fst_eq he he' hkey, hdevice]
  exact ⟨rfl, hname⟩

/-- Both entries have a value for the unique key, and the devices of entries that differ in their
type or in this value have different names and identifiers. -/
structure NamedApart (c : Config) (e e' : Entry) (dev dev' : Device) : Prop where
  valued : (c.uniqueValue e).isSome ∧ (c.uniqueValue e').isSome
  apart : e.1 ≠ e'.1 ∨ c.uniqueValue e ≠ c.uniqueValue e' →
    dev.name ≠ dev'.name ∧ dev.entityId ≠ dev'.entityId

theorem namedApart_iff (hinj : Function.Injective c.getUuid) {answers answers' : ℕ → Answer}
    {m m' : Message} {devices devices' : Dict (Str × List (Str × Device))} {e e' : Entry}
    {dev dev' : Device} (h : c.Registers answers m devices e dev)
    (h' : c.Registers answers' m' devices' e' dev') :
    c.NamedApart e e' dev dev' ↔
      ∃ v v', c.uniqueValue e = some v ∧ c.uniqueValue e' = some v' ∧
        ¬ Overlap e.1 v e'.1 v' := by
  rw [h.device_eq.1, h'.device_eq.1]
  have hname {e : Entry} {v : Str} (hv : c.uniqueValue e = some v) :
      c.name e = deviceName e.1 v := by
    rw [name, hv]
    rfl
  constructor
  · intro hapart
    obtain ⟨v, hv⟩ := Option.isSome_iff_exists.mp hapart.valued.1
    obtain ⟨v', hv'⟩ := Option.isSome_iff_exists.mp hapart.valued.2
    refine ⟨v, v', hv, hv', fun hoverlap ↦ ?_⟩
    apply (hapart.apart (.inl hoverlap.type_ne)).1
    change c.name e = c.name e'
    rw [hname hv, hname hv']
    exact (deviceName_eq_iff _ _ _ _).mpr (.inr hoverlap)
  · rintro ⟨v, v', hv, hv', hoverlap⟩
    refine ⟨by simp [hv, hv'], fun hdiffer ↦ ?_⟩
    have hne : c.name e ≠ c.name e' := by
      intro hsame
      rw [hname hv, hname hv'] at hsame
      obtain ⟨ht, hvv⟩ | hov := (deviceName_eq_iff _ _ _ _).mp hsame
      · obtain hd | hd := hdiffer
        · exact hd ht
        · exact hd (by rw [hv, hv', hvv])
      · exact hoverlap hov
    exact ⟨hne, fun hid ↦ hne (hinj hid)⟩

end Config

section Example

theorem lm35_namedApart : lm35Config.NamedApart
    ⟨"LM35".toList, AList.insert "SN".toList "12345".toList ∅⟩
    ⟨"LM35".toList, AList.insert "SN".toList "67890".toList ∅⟩
    ⟨"LM35_12345".toList, "LM35_12345".toList, "LM35".toList⟩
    ⟨"LM35_67890".toList, "LM35_67890".toList, "LM35".toList⟩ := by
  have h : lm35Config.Registers (fun _ ↦ willing) lm35Message ∅
      ⟨"LM35".toList, AList.insert "SN".toList "12345".toList ∅⟩
      ⟨"LM35_12345".toList, "LM35_12345".toList, "LM35".toList⟩ :=
    ⟨List.mem_cons_self, rfl, by decide⟩
  have h' : lm35Config.Registers (fun _ ↦ willing)
      (AList.insert "LM35".toList (AList.insert "SN".toList "67890".toList ∅) ∅) ∅
      ⟨"LM35".toList, AList.insert "SN".toList "67890".toList ∅⟩
      ⟨"LM35_67890".toList, "LM35_67890".toList, "LM35".toList⟩ :=
    ⟨List.mem_cons_self, rfl, by decide⟩
  apply (Config.namedApart_iff Function.injective_id h h').mpr
  exact ⟨"12345".toList, "67890".toList, rfl, rfl, fun hov ↦ hov.type_ne rfl⟩

def lm35XConfig : Config where
  typeDccMap := AList.insert "LM35_X".toList ["iotcc".toList] lm35Config.typeDccMap
  typeKeyMap := AList.insert "LM35_X".toList "SN".toList lm35Config.typeKeyMap
  ogProperties := .ok none
  getUuid := id

/-- The devices `X_1` of the first type and `1` of the second have one name, and a device without
its unique key is registered. -/
theorem lm35X_same_name :
    (∃ a ∈ (lm35XConfig.deviceMsgProcess (fun _ ↦ willing) (AList.insert "LM35".toList
      (AList.insert "SN".toList "X_1".toList ∅) ∅) ∅).2.attempts,
    ∃ a' ∈ (lm35XConfig.deviceMsgProcess (fun _ ↦ willing) (AList.insert "LM35_X".toList
      (AList.insert "SN".toList "1".toList ∅) ∅) ∅).2.attempts,
    a.device.entityType ≠ a'.device.entityType ∧ a.device.name = a'.device.name) ∧
    ∃ a ∈ (lm35Config.deviceMsgProcess (fun _ ↦ willing) (AList.insert "LM35".toList ∅ ∅)
      ∅).2.attempts,
    a.device.name = "LM35_".toList := by
  decide

end Example

end Liota.DeviceDiscovery
