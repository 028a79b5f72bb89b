import Mathlib.Data.List.Sigma
import Liota.DeviceDiscovery.Process

namespace Liota.DeviceDiscovery

open Python Python.Computation Python.Text

/-- Two enumerations of one message: the keys of the object and of the objects in it may come in
another order. -/
def SameMessage (m m' : Message) : Prop :=
  ∀ key, (m.lookup key).map (fun value k ↦ value.lookup k) =
    (m'.lookup key).map fun value k ↦ value.lookup k

def Attempt.view (a : Attempt) : Device × Str × (Str → Option Str) :=
  (a.device, a.dcc, fun k ↦ a.propDict.lookup k)

structure SameEffect (s s' : DiscoveryThread) : Prop where
  attempts : ∀ v, v ∈ s.attempts.map Attempt.view ↔ v ∈ s'.attempts.map Attempt.view
  devices : ∀ k, s.devicesDiscoverd.lookup k = s'.devicesDiscoverd.lookup k

namespace Config

def OrderFree (c : Config) (answers : ℕ → Answer) (m : Message) : Prop :=
  ∀ devices m₁ m₂, SameMessage m₁ m → SameMessage m₂ m →
    SameEffect (c.deviceMsgProcess answers m₁ devices).2
      (c.deviceMsgProcess answers m₂ devices).2

def stops (c : Config) (e : Entry) : Bool := c.rejects e || c.saves e && c.breaks e.1

def attemptsOf (c : Config) (e : Entry) : List Attempt :=
  if c.saves e then c.attemptsFor (c.deviceOf e) e.2 (c.dccs e.1) else []

def recordOf (c : Config) (e : Entry) : Str × List (Str × Device) :=
  (e.1, (c.attemptsOf e).map fun a ↦ (a.dcc, a.device))

def processed (c : Config) : List Entry → List Entry
  | [] => []
  | e :: rest => if c.stops e then [e] else e :: processed c rest

variable {c : Config} {answers : ℕ → Answer}

theorem propDict_cases (c : Config) (dcc : Str) (value : Dict Str) :
    ((!c.ogProperties.isOk && isIotcc dcc) = true ∧ ∃ e, c.propDict dcc value = .error e) ∨
    ((!c.ogProperties.isOk && isIotcc dcc) = false ∧ ∃ d, c.propDict dcc value = .ok d) := by
  rw [propDict]
  cases hdcc : isIotcc dcc with
  | false => simp
  | true =>
    rw [if_pos rfl, addOrganizationProperties]
    cases hog : c.ogProperties with
    | error e => simp [Except.isOk, Except.toBool]
    | ok og => cases og <;> simp [Except.isOk, Except.toBool]

theorem registerAll_succeeds (h : ∀ n, (answers n).Succeeds) (name devType : Str)
    (value : Dict Str) (keyDcc : List Str) {s : DiscoveryThread} {t : Str}
    {regs : List (Str × Device)} (hs : s.devicesDiscoverd.lookup name = some (t, regs)) :
    let made := c.attemptsFor (c.device name devType) value keyDcc
    let r := c.registerAll answers name devType value keyDcc s
    r.2.attempts = s.attempts ++ made ∧
    (∀ k, r.2.devicesDiscoverd.lookup k =
      if k = name then some (t, regs ++ made.map fun a ↦ (a.dcc, a.device))
      else s.devicesDiscoverd.lookup k) ∧
    (r.1 = .next ↔ (!c.ogProperties.isOk && keyDcc.any isIotcc) = false) := by
  induction keyDcc generalizing s regs with
  | nil =>
    refine ⟨?_, ?_, ?_⟩
    · simp [registerAll, attemptsFor]
    · intro k
      split
      · next hk =>
        subst hk
        simp [registerAll, attemptsFor, hs]
      · rfl
    · simp [registerAll]
  | cons dcc keyDcc ih =>
    rw [registerAll, attemptsFor]
    obtain ⟨hbreak, e, he⟩ | ⟨hbreak, propDict, hpropDict⟩ := propDict_cases c dcc value
    · simp only [he]
      refine ⟨?_, ?_, ?_⟩
      · simp
      · intro k
        split
        · next hk =>
          subst hk
          simp [hs]
        · rfl
      · simp only [Bool.and_eq_true] at hbreak
        simp [hbreak.1, hbreak.2]
    · have hanswer : c.regDevice (answers s.attempts.length) name devType =
          .ok (some (c.device name devType)) := by
        obtain ⟨-, -, heq⟩ | ⟨hno, -⟩ | ⟨hno, -⟩ :=
          regDevice_cases c (answers s.attempts.length) name devType
        · exact heq
        · exact absurd (h _) hno
        · exact absurd (h _) hno
      simp only [hpropDict, hanswer]
      let s' := (s.attempt ⟨c.device name devType, dcc, propDict⟩).updateDevinfo name
        (dcc, c.device name devType)
      have hlookup (k : Str) : s'.devicesDiscoverd.lookup k =
          if k = name then some (t, regs ++ [(dcc, c.device name devType)])
          else s.devicesDiscoverd.lookup k := by
        simp only [s', DiscoveryThread.updateDevinfo, DiscoveryThread.attempt, Dict.lookup_modify]
        split
        · next hk =>
          subst hk
          simp [hs]
        · rfl
      obtain ⟨hattempts, hdevices, hflow⟩ := ih (s := s') (by rw [hlookup, if_pos rfl])
      refine ⟨?_, ?_, ?_⟩
      · rw [hattempts]
        simp [s', DiscoveryThread.updateDevinfo, DiscoveryThread.attempt]
      · intro k
        rw [hdevices, hlookup]
        split
        · simp
        · rfl
      · rw [hflow, List.any_cons]
        cases hog : c.ogProperties.isOk with
        | true => simp
        | false =>
          rw [hog] at hbreak
          simp at hbreak
          simp [hbreak]

theorem processEntry_succeeds (h : ∀ n, (answers n).Succeeds) (e : Entry) (s : DiscoveryThread) :
    let r := c.processEntry answers e.1 e.2 s
    r.2.attempts = s.attempts ++ c.attemptsOf e ∧
    (∀ k, r.2.devicesDiscoverd.lookup k =
      if c.saves e ∧ c.name e = k then some (c.recordOf e) else s.devicesDiscoverd.lookup k) ∧
    (r.1 = .next ↔ c.stops e = false) := by
  obtain ⟨hsaves, hrejects, heq⟩ | ⟨hsaves, hrejects, heq⟩ | ⟨hsaves, hrejects, heq⟩ :=
    processEntry_cases c answers e s
  · simp [heq, attemptsOf, stops, hsaves, hrejects]
  · simp [heq, attemptsOf, stops, hsaves, hrejects]
  · have hsaved : (s.saveDevinfo (c.name e) e.1).devicesDiscoverd.lookup (c.name e) =
        some (e.1, []) := AList.lookup_insert _
    obtain ⟨hattempts, hdevices, hflow⟩ :=
      registerAll_succeeds (c := c) h (c.name e) e.1 e.2 (c.dccs e.1) hsaved
    simp only [heq]
    refine ⟨?_, ?_, ?_⟩
    · rw [hattempts, attemptsOf, if_pos hsaves]
      rfl
    · intro k
      rw [hdevices, DiscoveryThread.saveDevinfo, Dict.lookup_insert_eq]
      by_cases hk : k = c.name e
      · rw [if_pos hk, if_pos ⟨hsaves, hk.symm⟩, recordOf, attemptsOf, if_pos hsaves]
        rfl
      · rw [if_neg hk, if_neg hk, if_neg fun hboth ↦ hk hboth.2.symm]
    · rw [hflow, stops, hrejects, hsaves]
      rfl

/-- The effect of the loop is that of the entries that are processed, and for a name the last entry
that saves a device under it counts. -/
theorem processEntries_succeeds (h : ∀ n, (answers n).Succeeds) (entries : List Entry)
    (s : DiscoveryThread) :
    let s' := (c.processEntries answers entries s).2
    s'.attempts = s.attempts ++ (c.processed entries).flatMap c.attemptsOf ∧
    ∀ k, s'.devicesDiscoverd.lookup k =
      ((((c.processed entries).filter fun e ↦ c.saves e ∧ c.name e = k).getLast?.map c.recordOf) <|>
        s.devicesDiscoverd.lookup k) := by
  induction entries generalizing s with
  | nil => simp [processEntries, processed]
  | cons e rest ih =>
    obtain ⟨hattempts, hdevices, hflow⟩ := processEntry_succeeds (c := c) h e s
    generalize hr : c.processEntry answers e.1 e.2 s = r at hattempts hdevices hflow
    obtain ⟨flow, s'⟩ := r
    simp only at hattempts hdevices hflow
    simp only [processed]
    cases hstops : c.stops e with
    | true =>
      have hne : flow ≠ .next := by
        intro hnext
        rw [hflow.mp hnext] at hstops
        cases hstops
      rw [processEntries_stop hr hne, if_pos rfl]
      refine ⟨?_, ?_⟩
      · simp [hattempts]
      · intro k
        rw [hdevices k]
        by_cases hk : c.saves e ∧ c.name e = k
        · simp [hk]
        · rw [if_neg hk, List.filter_cons_of_neg (by simpa using hk)]
          rfl
    | false =>
      have hnext : flow = .next := hflow.mpr hstops
      rw [hnext] at hr
      rw [processEntries_next hr, if_neg Bool.false_ne_true]
      obtain ⟨hattempts', hdevices'⟩ := ih s'
      refine ⟨?_, ?_⟩
      · simp [hattempts', hattempts]
      · intro k
        rw [hdevices' k, hdevices k]
        by_cases hk : c.saves e ∧ c.name e = k
        · rw [if_pos hk, List.filter_cons_of_pos (by simpa using hk), List.getLast?_cons]
          cases ((c.processed rest).filter fun e ↦ c.saves e ∧ c.name e = k).getLast? with
          | none => rfl
          | some e' => rfl
        · rw [if_neg hk, List.filter_cons_of_neg (by simpa using hk)]

theorem processed_prefix (c : Config) (entries : List Entry) : c.processed entries <+: entries := by
  induction entries with
  | nil => exact List.prefix_refl []
  | cons e rest ih =>
    rw [processed]
    split
    · exact ⟨rest, rfl⟩
    · exact (List.prefix_cons_inj e).mpr ih

theorem processed_eq_self {entries : List Entry} (h : ∀ e ∈ entries, c.stops e = false) :
    c.processed entries = entries := by
  induction entries with
  | nil => rfl
  | cons e rest ih =>
    have hrest := ih fun e' he' ↦ h e' (List.mem_cons_of_mem e he')
    rw [processed, h e List.mem_cons_self, if_neg Bool.false_ne_true, hrest]

theorem deviceMsgProcess_snd (m : Message) (devices : Dict (Str × List (Str × Device))) :
    (c.deviceMsgProcess answers m devices).2 =
      (c.processEntries answers m.entries ⟨devices, []⟩).2 := by
  rw [deviceMsgProcess]
  split
  · next s heq => rw [heq]
  · next flow s hflow heq => rw [heq]

end Config

def SameEntry (e e' : Entry) : Prop := e.1 = e'.1 ∧ ∀ k, e.2.lookup k = e'.2.lookup k

section SameEntry

variable {c : Config} {e e' : Entry}

theorem SameEntry.symm (h : SameEntry e e') : SameEntry e' e :=
  ⟨h.1.symm, fun k ↦ (h.2 k).symm⟩

theorem SameEntry.safe_eq (h : SameEntry e e') : safeProperties e.2 = safeProperties e'.2 := by
  apply Bool.eq_iff_iff.mpr
  rw [safeProperties_iff, safeProperties_iff]
  simp only [h.2]

theorem SameEntry.saves_eq (h : SameEntry e e') : c.saves e = c.saves e' := by
  rw [Config.saves, Config.saves, h.1, h.safe_eq]

theorem SameEntry.stops_eq (h : SameEntry e e') : c.stops e = c.stops e' := by
  have hsaves := h.saves_eq (c := c)
  rw [Config.stops, Config.stops, Config.rejects, Config.rejects, hsaves, h.1, h.safe_eq]

theorem SameEntry.name_eq (h : SameEntry e e') : c.name e = c.name e' := by
  rw [Config.name, Config.name, Config.uniqueValue, Config.uniqueValue, h.1]
  simp only [h.2]

theorem propDict_congr {value value' : Dict Str} (h : ∀ k, value.lookup k = value'.lookup k)
    (dcc : Str) :
    (c.propDict dcc value).map (fun d k ↦ d.lookup k) =
      (c.propDict dcc value').map fun d k ↦ d.lookup k := by
  rw [Config.propDict, Config.propDict]
  split
  · rw [Config.addOrganizationProperties, Config.addOrganizationProperties]
    cases c.ogProperties with
    | error e => rfl
    | ok og =>
      cases og with
      | none => exact congrArg Except.ok (funext h)
      | some og =>
        apply congrArg Except.ok
        funext k
        change (og ∪ value).lookup k = (og ∪ value').lookup k
        rw [Dict.lookup_union_eq, Dict.lookup_union_eq, h]
  · exact congrArg Except.ok (funext h)

theorem attemptsFor_congr {value value' : Dict Str} (h : ∀ k, value.lookup k = value'.lookup k)
    (dev : Device) (keyDcc : List Str) :
    (c.attemptsFor dev value keyDcc).map Attempt.view =
      (c.attemptsFor dev value' keyDcc).map Attempt.view := by
  induction keyDcc with
  | nil => rfl
  | cons dcc keyDcc ih =>
    have hcongr := propDict_congr (c := c) h dcc
    rw [Config.attemptsFor, Config.attemptsFor]
    cases hp : c.propDict dcc value with
    | error err =>
      cases hp' : c.propDict dcc value' with
      | error err' => rfl
      | ok d' =>
        rw [hp, hp'] at hcongr
        cases hcongr
    | ok d =>
      cases hp' : c.propDict dcc value' with
      | error err' =>
        rw [hp, hp'] at hcongr
        cases hcongr
      | ok d' =>
        rw [hp, hp'] at hcongr
        have hd : (fun k ↦ d.lookup k) = fun k ↦ d'.lookup k := Except.ok.inj hcongr
        simp only [List.map_cons, Attempt.view, hd]
        exact congrArg _ ih

theorem SameEntry.attempts_eq (h : SameEntry e e') :
    (c.attemptsOf e).map Attempt.view = (c.attemptsOf e').map Attempt.view := by
  rw [Config.attemptsOf, Config.attemptsOf, h.saves_eq, Config.deviceOf, Config.deviceOf,
    h.name_eq, h.1]
  split
  · exact attemptsFor_congr h.2 _ _
  · rfl

theorem SameEntry.record_eq (h : SameEntry e e') : c.recordOf e = c.recordOf e' := by
  have hrecord (e : Entry) : c.recordOf e =
      (e.1, ((c.attemptsOf e).map Attempt.view).map fun v ↦ (v.2.1, v.1)) := by
    rw [List.map_map]
    rfl
  rw [hrecord, hrecord, h.attempts_eq, h.1]

theorem SameMessage.symm {m m' : Message} (h : SameMessage m m') : SameMessage m' m :=
  fun key ↦ (h key).symm

theorem SameMessage.trans {m m' m'' : Message} (h : SameMessage m m') (h' : SameMessage m' m'') :
    SameMessage m m'' :=
  fun key ↦ (h key).trans (h' key)

theorem SameMessage.of_lookup {m m' : Message} (h : ∀ key, m.lookup key = m'.lookup key) :
    SameMessage m m' := by
  intro key
  rw [h]

theorem SameMessage.entry {m m' : Message} (h : SameMessage m m') (he : e ∈ m.entries) :
    ∃ e' ∈ m'.entries, SameEntry e e' := by
  have hkey := h e.1
  rw [AList.mem_lookup_iff.mpr he] at hkey
  obtain ⟨value, hvalue, hsame⟩ := Option.map_eq_some_iff.mp hkey.symm
  exact ⟨⟨e.1, value⟩, AList.mem_lookup_iff.mp hvalue, rfl, fun k ↦ (congrFun hsame k).symm⟩

end SameEntry

namespace Config

variable {c : Config} {answers : ℕ → Answer}

/-- In each order every device is reached, and no two devices have one name. -/
structure Settled (c : Config) (m : Message) : Prop where
  reached : ∀ m', SameMessage m' m → ∀ e ∈ m'.entries, c.saves e → e ∈ c.processed m'.entries
  names : ∀ e ∈ m.entries, ∀ e' ∈ m.entries, c.saves e → c.saves e' → c.name e = c.name e' →
    e.1 = e'.1

theorem Settled.mono {m m' : Message} (h : c.Settled m) (hm : SameMessage m' m) :
    c.Settled m' where
  reached m'' hm'' := h.reached m'' (hm''.trans hm)
  names e he e' he' hsaves hsaves' hname := by
    obtain ⟨f, hf, hef⟩ := hm.entry he
    obtain ⟨f', hf', hef'⟩ := hm.entry he'
    rw [hef.saves_eq] at hsaves
    rw [hef'.saves_eq] at hsaves'
    rw [hef.name_eq, hef'.name_eq] at hname
    rw [hef.1, hef'.1, h.names f hf f' hf' hsaves hsaves' hname]

theorem Settled.attempts (hanswers : ∀ n, (answers n).Succeeds) {m : Message} (h : c.Settled m)
    (devices : Dict (Str × List (Str × Device))) (v : Device × Str × (Str → Option Str)) :
    v ∈ (c.deviceMsgProcess answers m devices).2.attempts.map Attempt.view ↔
      ∃ e ∈ m.entries, v ∈ (c.attemptsOf e).map Attempt.view := by
  rw [deviceMsgProcess_snd, (processEntries_succeeds hanswers _ _).1]
  simp only [List.nil_append, List.map_flatMap, List.mem_flatMap]
  constructor
  · rintro ⟨e, he, hv⟩
    exact ⟨e, (c.processed_prefix _).subset he, hv⟩
  · rintro ⟨e, he, hv⟩
    refine ⟨e, h.reached m (SameMessage.of_lookup fun _ ↦ rfl) e he ?_, hv⟩
    by_contra hsaves
    rw [attemptsOf, if_neg hsaves] at hv
    cases hv

theorem Settled.device (hanswers : ∀ n, (answers n).Succeeds) {m : Message} (h : c.Settled m)
    (devices : Dict (Str × List (Str × Device))) {e : Entry} (he : e ∈ m.entries)
    (hsaves : c.saves e) :
    (c.deviceMsgProcess answers m devices).2.devicesDiscoverd.lookup (c.name e) =
      some (c.recordOf e) := by
  rw [deviceMsgProcess_snd, (processEntries_succeeds hanswers _ _).2]
  have hmem : e ∈ (c.processed m.entries).filter fun e' ↦ c.saves e' ∧ c.name e' = c.name e := by
    simp only [List.mem_filter, decide_eq_true_eq]
    exact ⟨h.reached m (SameMessage.of_lookup fun _ ↦ rfl) e he hsaves, hsaves, trivial⟩
  obtain ⟨e', hlast⟩ := Option.isSome_iff_exists.mp (List.getLast?_isSome.mpr
    (List.ne_nil_of_mem hmem))
  have hmem' := List.mem_of_getLast? hlast
  simp only [List.mem_filter, decide_eq_true_eq] at hmem'
  have he' := (c.processed_prefix _).subset hmem'.1
  have hkey := h.names e he e' he' hsaves hmem'.2.1 hmem'.2.2.symm
  rw [hlast, ← m.nodupKeys.eq_of_fst_eq he he' hkey]
  rfl

theorem lookup_of_no_device (hanswers : ∀ n, (answers n).Succeeds) {m : Message}
    (devices : Dict (Str × List (Str × Device))) {k : Str}
    (hk : ∀ e ∈ m.entries, c.saves e → c.name e ≠ k) :
    (c.deviceMsgProcess answers m devices).2.devicesDiscoverd.lookup k = devices.lookup k := by
  rw [deviceMsgProcess_snd, (processEntries_succeeds hanswers _ _).2]
  have hnil : ((c.processed m.entries).filter fun e ↦ c.saves e ∧ c.name e = k) = [] := by
    apply List.filter_eq_nil_iff.mpr
    intro e he
    have hne := hk e ((c.processed_prefix _).subset he)
    simpa using hne
  rw [hnil]
  rfl

theorem orderFree_of_settled (hanswers : ∀ n, (answers n).Succeeds) {m : Message}
    (h : c.Settled m) : c.OrderFree answers m := by
  intro devices m₁ m₂ hm₁ hm₂
  have h₁ := h.mono hm₁
  have h₂ := h.mono hm₂
  have hm := hm₁.trans hm₂.symm
  constructor
  · intro v
    rw [h₁.attempts hanswers, h₂.attempts hanswers]
    constructor
    · rintro ⟨e, he, hv⟩
      obtain ⟨e', he', hsame⟩ := hm.entry he
      exact ⟨e', he', hsame.attempts_eq (c := c) ▸ hv⟩
    · rintro ⟨e, he, hv⟩
      obtain ⟨e', he', hsame⟩ := hm.symm.entry he
      exact ⟨e', he', hsame.attempts_eq (c := c) ▸ hv⟩
  · intro k
    by_cases hk : ∃ e ∈ m₁.entries, c.saves e ∧ c.name e = k
    · obtain ⟨e, he, hsaves, hname⟩ := hk
      obtain ⟨e', he', hsame⟩ := hm.entry he
      rw [← hname, h₁.device hanswers devices he hsaves, hsame.name_eq,
        h₂.device hanswers devices he' (hsame.saves_eq ▸ hsaves), hsame.record_eq]
    · have hk₁ : ∀ e ∈ m₁.entries, c.saves e → c.name e ≠ k :=
        fun e he hsaves hname ↦ hk ⟨e, he, hsaves, hname⟩
      have hk₂ : ∀ e ∈ m₂.entries, c.saves e → c.name e ≠ k := by
        intro e he hsaves hname
        obtain ⟨e', he', hsame⟩ := hm.symm.entry he
        exact hk ⟨e', he', hsame.saves_eq ▸ hsaves, hsame.name_eq ▸ hname⟩
      rw [lookup_of_no_device hanswers devices hk₁, lookup_of_no_device hanswers devices hk₂]

theorem mem_processed {entries : List Entry} {e : Entry} (he : e ∈ entries)
    (h : ∀ e' ∈ entries, c.stops e' → e' = e) : e ∈ c.processed entries := by
  induction entries with
  | nil => exact he
  | cons e' rest ih =>
    rw [processed]
    split
    · next hstops => simp [h e' List.mem_cons_self hstops]
    · obtain heq | hrest := List.mem_cons.mp he
      · rw [heq]
        exact List.mem_cons_self
      · have hmem := ih hrest fun e'' he'' ↦ h e'' (List.mem_cons_of_mem e' he'')
        exact List.mem_cons_of_mem e' hmem

theorem attemptsFor_device {dev : Device} {value : Dict Str} {keyDcc : List Str} {a : Attempt}
    (ha : a ∈ c.attemptsFor dev value keyDcc) : a.device = dev := by
  induction keyDcc with
  | nil => cases ha
  | cons dcc keyDcc ih =>
    rw [attemptsFor] at ha
    split at ha
    · cases ha
    · obtain heq | hrest := List.mem_cons.mp ha
      · rw [heq]
      · exact ih hrest

theorem attemptsOf_type {e : Entry} {a : Attempt} (ha : a ∈ c.attemptsOf e) :
    a.device.entityType = e.1 := by
  rw [attemptsOf] at ha
  split at ha
  · rw [attemptsFor_device ha]
    rfl
  · cases ha

theorem attemptsOf_ne_nil {e : Entry} (hsaves : c.saves e) (hstops : c.stops e = false) :
    c.attemptsOf e ≠ [] := by
  have htarget : (c.target e.1).isSome := by
    simp only [saves, Bool.and_eq_true] at hsaves
    exact hsaves.1.2
  obtain ⟨dcc, keyDcc, hdccs⟩ := List.exists_cons_of_ne_nil (dccs_ne_nil htarget)
  rw [attemptsOf, if_pos hsaves, hdccs, attemptsFor]
  obtain ⟨hbreak, -⟩ | ⟨-, d, hd⟩ := propDict_cases c dcc e.2
  · rw [stops, hsaves, breaks, hdccs, List.any_cons] at hstops
    simp only [Bool.and_eq_true] at hbreak
    simp [hbreak.1, hbreak.2] at hstops
  · rw [hd]
    exact List.cons_ne_nil _ _

theorem not_orderFree_of_stops (hanswers : ∀ n, (answers n).Succeeds) {m : Message} {e e' : Entry}
    (he : e ∈ m.entries) (he' : e' ∈ m.entries) (hstops : c.stops e) (hsaves : c.saves e')
    (hne : e.1 ≠ e'.1) : ¬ c.OrderFree answers m := by
  intro hfree
  have hfirst {e : Entry} (he : e ∈ m.entries) : SameMessage (m.insert e.1 e.2) m := by
    apply SameMessage.of_lookup
    intro key
    rw [Dict.lookup_insert_eq]
    split
    · next h =>
      subst h
      exact (AList.mem_lookup_iff.mpr he).symm
    · rfl
  have hsame := hfree ∅ _ _ (hfirst he) (hfirst he')
  rw [deviceMsgProcess_snd, deviceMsgProcess_snd] at hsame
  have hprocessed : c.processed (m.insert e.1 e.2).entries = [e] := by
    rw [AList.entries_insert, processed, if_pos hstops]
  obtain ⟨hattempts, hdevices⟩ :=
    processEntries_succeeds (c := c) hanswers (m.insert e.1 e.2).entries ⟨∅, []⟩
  obtain ⟨hattempts', hdevices'⟩ :=
    processEntries_succeeds (c := c) hanswers (m.insert e'.1 e'.2).entries ⟨∅, []⟩
  rw [hprocessed] at hattempts hdevices
  cases hstops' : c.stops e' with
  | true =>
    have hrecorded := hdevices' (c.name e')
    rw [AList.entries_insert, processed, if_pos hstops',
      List.filter_cons_of_pos (by simp [hsaves])] at hrecorded
    have hlookup := hsame.devices (c.name e')
    rw [hdevices, AList.entries_insert, hrecorded] at hlookup
    by_cases hboth : c.saves e ∧ c.name e = c.name e'
    · rw [List.filter_cons_of_pos (by simpa using hboth)] at hlookup
      have hrecord : c.recordOf e = c.recordOf e' := Option.some.inj hlookup
      exact hne (congrArg Prod.fst hrecord)
    · rw [List.filter_cons_of_neg (by simpa using hboth)] at hlookup
      cases hlookup
  | false =>
    obtain ⟨a, ha⟩ := List.exists_mem_of_ne_nil _ (attemptsOf_ne_nil hsaves hstops')
    have hview := (hsame.attempts a.view).mpr (by
      rw [hattempts', AList.entries_insert, processed, hstops']
      simp only [List.nil_append, List.mem_map, List.mem_flatMap]
      exact ⟨a, ⟨e', List.mem_cons_self, ha⟩, rfl⟩)
    rw [hattempts] at hview
    simp only [List.nil_append, List.flatMap_cons, List.flatMap_nil, List.append_nil,
      List.mem_map] at hview
    obtain ⟨a', ha', heq⟩ := hview
    have hdevice : a'.device = a.device := congrArg Prod.fst heq
    apply hne
    rw [← attemptsOf_type ha', ← attemptsOf_type ha, hdevice]

theorem not_orderFree_of_names (hanswers : ∀ n, (answers n).Succeeds) {m : Message} {e e' : Entry}
    (he : e ∈ m.entries) (he' : e' ∈ m.entries) (hstops : ∀ f ∈ m.entries, c.stops f = false)
    (hsaves : c.saves e) (hsaves' : c.saves e') (hname : c.name e = c.name e')
    (hne : e.1 ≠ e'.1) : ¬ c.OrderFree answers m := by
  intro hfree
  have hlast {e : Entry} (he : e ∈ m.entries) (hsaves : c.saves e) : ∃ m', SameMessage m' m ∧
      (c.deviceMsgProcess answers m' ∅).2.devicesDiscoverd.lookup (c.name e) =
        some (c.recordOf e) := by
    obtain ⟨pre, post, hsplit⟩ := List.append_of_mem he
    have hperm : (pre ++ post ++ [e]).Perm m.entries := by
      rw [hsplit, List.append_assoc]
      exact List.Perm.append_left pre (List.perm_append_singleton e post)
    let m' : Message := ⟨pre ++ post ++ [e], (List.perm_nodupKeys hperm).mpr m.nodupKeys⟩
    refine ⟨m', SameMessage.of_lookup fun key ↦ AList.perm_lookup hperm, ?_⟩
    have hprocessed : c.processed m'.entries = pre ++ post ++ [e] :=
      processed_eq_self fun f hf ↦ hstops f (hperm.subset hf)
    rw [deviceMsgProcess_snd, (processEntries_succeeds hanswers _ _).2, hprocessed,
      List.filter_append, List.filter_cons_of_pos (by simp [hsaves]), List.filter_nil,
      List.getLast?_concat]
    rfl
  obtain ⟨m₁, hm₁, h₁⟩ := hlast he hsaves
  obtain ⟨m₂, hm₂, h₂⟩ := hlast he' hsaves'
  have hsame := (hfree ∅ m₁ m₂ hm₁ hm₂).devices (c.name e)
  rw [h₁, hname, h₂] at hsame
  exact hne (congrArg Prod.fst (Option.some.inj hsame))

/-- The order does not matter exactly for the messages without a device to register, those in which
nothing ends the processing and the names are distinct, and those with one entry that is not passed
over. -/
theorem orderFree_iff (hanswers : ∀ n, (answers n).Succeeds) (m : Message) :
    c.OrderFree answers m ↔
      (∀ e ∈ m.entries, c.saves e = false) ∨
      ((∀ e ∈ m.entries, c.stops e = false) ∧ ∀ e ∈ m.entries, ∀ e' ∈ m.entries,
        c.saves e → c.saves e' → c.name e = c.name e' → e.1 = e'.1) ∨
      ∃ key, ∀ e ∈ m.entries, c.saves e ∨ c.stops e → e.1 = key := by
  constructor
  · intro hfree
    by_contra hno
    simp only [not_or, not_and, not_forall, not_exists, Bool.not_eq_false] at hno
    obtain ⟨⟨b, hb, hsaves⟩, hstopsNames, hothers⟩ := hno
    by_cases hstops : ∀ e ∈ m.entries, c.stops e = false
    · obtain ⟨e, he, e', he', hsaves, hsaves', hname, hne⟩ := hstopsNames hstops
      exact not_orderFree_of_names hanswers he he' hstops hsaves hsaves' hname hne hfree
    · simp only [not_forall, Bool.not_eq_false] at hstops
      obtain ⟨a, ha, hstops⟩ := hstops
      by_cases hab : a.1 = b.1
      · have heq := m.nodupKeys.eq_of_fst_eq ha hb hab
        obtain ⟨e, he, hcase, hne⟩ := hothers b.1
        obtain hsaves' | hstops' := hcase
        · exact not_orderFree_of_stops hanswers ha he hstops hsaves'
            (fun h ↦ hne (h.symm.trans hab)) hfree
        · exact not_orderFree_of_stops hanswers he hb hstops' hsaves hne hfree
      · exact not_orderFree_of_stops hanswers ha hb hstops hsaves hab hfree
  · intro hcases
    apply orderFree_of_settled hanswers
    obtain hsaves | ⟨hstops, hnames⟩ | ⟨key, hkey⟩ := hcases
    · constructor
      · intro m' hm' e he hsaves'
        obtain ⟨e', he', hsame⟩ := hm'.entry he
        rw [hsame.saves_eq, hsaves e' he'] at hsaves'
        cases hsaves'
      · intro e he e' he' hsaves'
        rw [hsaves e he] at hsaves'
        cases hsaves'
    · constructor
      · intro m' hm' e he hsaves
        rw [processed_eq_self]
        · exact he
        · intro e' he'
          obtain ⟨f, hf, hsame⟩ := hm'.entry he'
          rw [hsame.stops_eq, hstops f hf]
      · exact hnames
    · have hkeys {m' : Message} (hm' : SameMessage m' m) {e : Entry} (he : e ∈ m'.entries)
          (hcase : c.saves e ∨ c.stops e) : e.1 = key := by
        obtain ⟨f, hf, hsame⟩ := hm'.entry he
        rw [hsame.saves_eq, hsame.stops_eq] at hcase
        rw [hsame.1]
        exact hkey f hf hcase
      constructor
      · intro m' hm' e he hsaves
        apply mem_processed he
        intro e' he' hstops
        apply m'.nodupKeys.eq_of_fst_eq he' he
        rw [hkeys hm' he' (.inr hstops), hkeys hm' he (.inl hsaves)]
      · intro e he e' he' hsaves hsaves' hname
        rw [hkey e he (.inl hsaves), hkey e' he' (.inl hsaves')]

end Config

section Example

def lm35Config : Config where
  typeDccMap := AList.insert "LM35".toList ["iotcc".toList] ∅
  typeKeyMap := AList.insert "LM35".toList "SN".toList ∅
  ogProperties := .ok none
  getUuid := id

def willing : Answer := ⟨true, .ok (), .ok (), true, .ok ()⟩

theorem willing_succeeds : willing.Succeeds := by
  simp [Answer.Succeeds, willing, Except.isOk, Except.toBool]

def lm35Message : Message :=
  AList.insert "LM35".toList (AList.insert "SN".toList "12345".toList ∅) ∅

def sensorConfig : Config where
  typeDccMap := AList.insert "DHT11".toList ["iotcc".toList] lm35Config.typeDccMap
  typeKeyMap := AList.insert "DHT11".toList "SN".toList lm35Config.typeKeyMap
  ogProperties := .ok none
  getUuid := id

/-- Two devices, each with its unique key and another property. -/
def sensorMessage : Message :=
  AList.insert "LM35".toList (AList.insert "SN".toList "1".toList
      (AList.insert "unit".toList "C".toList ∅))
    (AList.insert "DHT11".toList (AList.insert "SN".toList "1".toList
      (AList.insert "unit".toList "F".toList ∅)) ∅)

theorem sensor_orderFree : sensorConfig.OrderFree (fun _ ↦ willing) sensorMessage :=
  (Config.orderFree_iff (fun _ ↦ willing_succeeds) sensorMessage).mpr
    (.inr (.inl (by decide)))

/-- A type that is not accepted, before or after a device: the device is registered or not. -/
theorem lm35_not_orderFree :
    ¬ lm35Config.OrderFree (fun _ ↦ willing) (lm35Message.insert "?".toList ∅) := by
  intro hfree
  have hswap : SameMessage (AList.insert "LM35".toList (AList.insert "SN".toList "12345".toList ∅)
      (AList.insert "?".toList ∅ ∅)) (lm35Message.insert "?".toList ∅) := by
    apply SameMessage.of_lookup
    intro key
    apply AList.perm_lookup
    exact AList.insert_insert_of_ne ∅ (by decide)
  have hdevice := (hfree ∅ _ _ hswap (SameMessage.of_lookup fun _ ↦ rfl)).devices
    "LM35_12345".toList
  revert hdevice
  decide

end Example

end Liota.DeviceDiscovery
