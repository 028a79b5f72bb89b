import Mathlib.Data.List.Infix
import Liota.Python.Computation
import Liota.Python.Dict

namespace Liota.DeviceDiscovery

open Python Python.Computation Python.Text

/-- `re.match('^[...]+$', text)`, where `$` also matches before a newline at the end. -/
def safeMatch (chars : Char → Bool) (text : Str) : Bool :=
  let body := if text.getLast? = some '\n' then text.dropLast else text
  !body.isEmpty && body.all chars

def typeSafe (text : Str) : Bool := safeMatch (fun c ↦ c.isAlphanum || c = '_' || c = '-') text

def keySafe (text : Str) : Bool := safeMatch (fun c ↦ c.isAlphanum || c = '_' || c = '-') text

def valSafe (text : Str) : Bool :=
  safeMatch (fun c ↦ c.isAlphanum || c = '.' || c = '_' || c = '-') text

/-- The part of the configuration that the processing of messages reads. The organization's
properties are what the file at `org_file_path` gives: `none` without a path and where the file
cannot be opened, an error where the properties are not in the file. -/
structure Config where
  typeDccMap : Dict (List Str)
  typeKeyMap : Dict Str
  ogProperties : Except PyErr (Option (Dict Str))
  getUuid : Str → Str

structure Device where
  name : Str
  entityId : Str
  entityType : Str
  deriving DecidableEq, Repr

/-- A call of `reg_device`. -/
structure Attempt where
  device : Device
  dcc : Str
  propDict : Dict Str

/-- What a DCC and the registry do for a call of `reg_device`. -/
structure Answer where
  loaded : Bool
  register : Except PyErr Unit
  setProperties : Except PyErr Unit
  edgeSystemLoaded : Bool
  createRelationship : Except PyErr Unit

/-- The recorded devices, by name: a type, and the DCCs with the device that each has registered.
The calls of `reg_device` so far are kept beside them. -/
structure DiscoveryThread where
  devicesDiscoverd : Dict (Str × List (Str × Device))
  attempts : List Attempt

/-- Whether a loop goes on, or the method ends with `return False` or an exception. -/
inductive Flow
  | next
  | returned
  | raised (e : PyErr)

abbrev Message := Dict (Dict Str)

namespace DiscoveryThread

def saveDevinfo (name devType : Str) (s : DiscoveryThread) : DiscoveryThread :=
  { s with devicesDiscoverd := s.devicesDiscoverd.insert name (devType, []) }

def updateDevinfo (name : Str) (regRec : Str × Device) (s : DiscoveryThread) : DiscoveryThread :=
  { s with
    devicesDiscoverd := s.devicesDiscoverd.modify name fun info ↦ (info.1, info.2 ++ [regRec]) }

def attempt (a : Attempt) (s : DiscoveryThread) : DiscoveryThread :=
  { s with attempts := s.attempts ++ [a] }

end DiscoveryThread

namespace Config

variable (c : Config)

def addOrganizationProperties (propDict : Dict Str) : Except PyErr (Dict Str) :=
  match c.ogProperties with
  | .error e => .error e
  | .ok none => .ok propDict
  | .ok (some og) => .ok (og ∪ propDict)

/-- `'iotcc' in dcc.lower()` -/
def isIotcc (dcc : Str) : Bool := "iotcc".toList <:+: dcc.map Char.toLower

def propDict (dcc : Str) (value : Dict Str) : Except PyErr (Dict Str) :=
  if isIotcc dcc then c.addOrganizationProperties value else .ok value

def device (name devType : Str) : Device := ⟨name, c.getUuid name, devType⟩

/-- The device that is registered, or `none` for `(None, None)`. The registered device that the
source returns beside it refers to it. -/
def regDevice (answer : Answer) (name devType : Str) : Except PyErr (Option Device) :=
  if answer.loaded then
    match answer.register, answer.setProperties with
    | .ok (), .ok () =>
      if answer.edgeSystemLoaded then
        match answer.createRelationship with
        | .ok () => .ok (some (c.device name devType))
        | .error e => .error e
      else .ok (some (c.device name devType))
    | _, _ => .ok none
  else .ok none

def target (key : Str) : Option (List Str × Str) :=
  match c.typeDccMap.lookup key with
  | none => none
  | some [] => none
  | some (dcc :: keyDcc) => (c.typeKeyMap.lookup key).map fun uniqueKey ↦ (dcc :: keyDcc, uniqueKey)

/-- The loop over the properties of a device; `none` is `return False`. -/
def uniqueKeyValue (uniqueKey : Str) : Str → List (Sigma fun _ : Str ↦ Str) → Option Str
  | found, [] => some found
  | found, ⟨k, v⟩ :: rest =>
    if keySafe k then
      if valSafe v then uniqueKeyValue uniqueKey (if k = uniqueKey then v else found) rest
      else none
    else none

variable (answers : ℕ → Answer)

/-- The loop over the DCCs of a device. -/
def registerAll (name devType : Str) (value : Dict Str) :
    List Str → DiscoveryThread → Flow × DiscoveryThread
  | [], s => (.next, s)
  | dcc :: keyDcc, s =>
    match c.propDict dcc value with
    | .error e => (.raised e, s)
    | .ok propDict =>
      let s' := s.attempt ⟨c.device name devType, dcc, propDict⟩
      match c.regDevice (answers s.attempts.length) name devType with
      | .error e => (.raised e, s')
      | .ok none => registerAll name devType value keyDcc s'
      | .ok (some dev) => registerAll name devType value keyDcc (s'.updateDevinfo name (dcc, dev))

def deviceName (key uniqueKeyValue : Str) : Str := key ++ '_' :: uniqueKeyValue

/-- The body of the loop over the device types of a message. -/
def processEntry (key : Str) (value : Dict Str) (s : DiscoveryThread) : Flow × DiscoveryThread :=
  if typeSafe key then
    match c.target key with
    | none => (.next, s)
    | some (keyDcc, uniqueKey) =>
      match uniqueKeyValue uniqueKey [] value.entries with
      | none => (.returned, s)
      | some found =>
        c.registerAll answers (deviceName key found) key value keyDcc
          (s.saveDevinfo (deviceName key found) key)
  else (.returned, s)

def processEntries :
    List (Sigma fun _ : Str ↦ Dict Str) → DiscoveryThread → Flow × DiscoveryThread
  | [], s => (.next, s)
  | ⟨key, value⟩ :: rest, s =>
    match c.processEntry answers key value s with
    | (.next, s') => processEntries rest s'
    | r => r

/-- The result is `False`, or `None` also after an exception. -/
def deviceMsgProcess (data : Message) (devices : Dict (Str × List (Str × Device))) :
    Option Bool × DiscoveryThread :=
  match c.processEntries answers data.entries ⟨devices, []⟩ with
  | (.returned, s) => (some false, s)
  | (_, s) => (none, s)

end Config

def Answer.Succeeds (answer : Answer) : Prop :=
  answer.loaded ∧ answer.register.isOk ∧ answer.setProperties.isOk ∧
    (answer.edgeSystemLoaded → answer.createRelationship.isOk)

def Answer.Raises (answer : Answer) : Prop :=
  answer.loaded ∧ answer.register.isOk ∧ answer.setProperties.isOk ∧
    answer.edgeSystemLoaded ∧ ¬ answer.createRelationship.isOk

namespace Config

variable {c : Config} {answers : ℕ → Answer}

theorem regDevice_cases (c : Config) (answer : Answer) (name devType : Str) :
    (answer.Succeeds ∧ ¬ answer.Raises ∧
      c.regDevice answer name devType = .ok (some (c.device name devType))) ∨
    (¬ answer.Succeeds ∧ ¬ answer.Raises ∧ c.regDevice answer name devType = .ok none) ∨
    (¬ answer.Succeeds ∧ answer.Raises ∧ ∃ e, c.regDevice answer name devType = .error e) := by
  obtain ⟨loaded, register, setProperties, edgeSystemLoaded, createRelationship⟩ := answer
  cases loaded <;> cases register <;> cases setProperties <;> cases edgeSystemLoaded <;>
    cases createRelationship <;>
    simp [Answer.Succeeds, Answer.Raises, regDevice, Except.isOk, Except.toBool]

theorem uniqueKeyValue_eq (uniqueKey found : Str) (entries : List (Sigma fun _ : Str ↦ Str))
    (hkeys : entries.NodupKeys) :
    uniqueKeyValue uniqueKey found entries =
      if ∀ e ∈ entries, keySafe e.1 ∧ valSafe e.2 then
        some ((entries.dlookup uniqueKey).getD found)
      else none := by
  induction entries generalizing found with
  | nil => simp [uniqueKeyValue]
  | cons e rest ih =>
    obtain ⟨k, v⟩ := e
    rw [List.nodupKeys_cons] at hkeys
    rw [uniqueKeyValue]
    by_cases hk : keySafe k
    · by_cases hv : valSafe v
      · rw [if_pos hk, if_pos hv, ih _ hkeys.2]
        by_cases hkey : k = uniqueKey
        · have hnone : rest.dlookup uniqueKey = none := by
            rw [← hkey]
            exact List.dlookup_eq_none.mpr hkeys.1
          rw [hnone, if_pos hkey, ← hkey, List.dlookup_cons_eq]
          simp [hk, hv]
        · rw [if_neg hkey, List.dlookup_cons_ne rest ⟨k, v⟩ (Ne.symm hkey)]
          simp [hk, hv]
      · rw [if_pos hk, if_neg hv]
        simp [hv]
    · rw [if_neg hk]
      simp [hk]

end Config

abbrev Entry := Sigma fun _ : Str ↦ Dict Str

def safeProperties (value : Dict Str) : Bool :=
  value.entries.all fun e ↦ keySafe e.1 && valSafe e.2

theorem safeProperties_iff (value : Dict Str) :
    safeProperties value ↔ ∀ k v, value.lookup k = some v → keySafe k ∧ valSafe v := by
  rw [safeProperties, List.all_eq_true]
  constructor
  · intro h k v hlookup
    simpa using h ⟨k, v⟩ (AList.mem_lookup_iff.mp hlookup)
  · intro h e he
    simpa using h e.1 e.2 (AList.mem_lookup_iff.mpr he)

namespace Config

variable (c : Config)

def saves (e : Entry) : Bool := typeSafe e.1 && (c.target e.1).isSome && safeProperties e.2

/-- The entries for which the method returns `False`. -/
def rejects (e : Entry) : Bool :=
  !typeSafe e.1 || (c.target e.1).isSome && !safeProperties e.2

def dccs (key : Str) : List Str := ((c.target key).map Prod.fst).getD []

def uniqueValue (e : Entry) : Option Str := (c.target e.1).bind fun target ↦ e.2.lookup target.2

def name (e : Entry) : Str := deviceName e.1 ((c.uniqueValue e).getD [])

def breaks (key : Str) : Bool := !c.ogProperties.isOk && (c.dccs key).any isIotcc

/-- The calls of `reg_device` for a device when none of them raises an exception. -/
def attemptsFor (dev : Device) (value : Dict Str) : List Str → List Attempt
  | [] => []
  | dcc :: keyDcc =>
    match c.propDict dcc value with
    | .error _ => []
    | .ok propDict => ⟨dev, dcc, propDict⟩ :: attemptsFor dev value keyDcc

def deviceOf (e : Entry) : Device := c.device (c.name e) e.1

variable {c : Config} {answers : ℕ → Answer}

theorem dccs_ne_nil {key : Str} (h : (c.target key).isSome) : c.dccs key ≠ [] := by
  obtain ⟨t, ht⟩ := Option.isSome_iff_exists.mp h
  rw [dccs, ht]
  unfold target at ht
  split at ht
  · cases ht
  · cases ht
  · obtain ⟨uniqueKey, huniqueKey, hpair⟩ := Option.map_eq_some_iff.mp ht
    rw [← hpair]
    simp

theorem processEntry_cases (c : Config) (answers : ℕ → Answer) (e : Entry) (s : DiscoveryThread) :
    (c.saves e = false ∧ c.rejects e = false ∧ c.processEntry answers e.1 e.2 s = (.next, s)) ∨
    (c.saves e = false ∧ c.rejects e = true ∧
      c.processEntry answers e.1 e.2 s = (.returned, s)) ∨
    (c.saves e = true ∧ c.rejects e = false ∧ c.processEntry answers e.1 e.2 s =
      c.registerAll answers (c.name e) e.1 e.2 (c.dccs e.1) (s.saveDevinfo (c.name e) e.1)) := by
  rw [processEntry]
  by_cases htype : typeSafe e.1
  · rw [if_pos htype]
    cases htarget : c.target e.1 with
    | none =>
      apply Or.inl
      simp [saves, rejects, htype, htarget]
    | some t =>
      have hsafe : safeProperties e.2 ↔ ∀ p ∈ e.2.entries, keySafe p.1 ∧ valSafe p.2 := by
        simp [safeProperties]
      have hvalue := uniqueKeyValue_eq t.2 [] e.2.entries e.2.nodupKeys
      by_cases h : safeProperties e.2
      · rw [if_pos (hsafe.mp h)] at hvalue
        apply Or.inr
        apply Or.inr
        simp only [hvalue, saves, rejects, htype, htarget, h, name, dccs, uniqueValue,
          Option.bind_some, Option.map_some]
        exact ⟨rfl, rfl, rfl⟩
      · rw [if_neg fun hall ↦ h (hsafe.mpr hall)] at hvalue
        apply Or.inr
        apply Or.inl
        simp [hvalue, saves, rejects, htype, htarget, h]
  · rw [if_neg htype]
    apply Or.inr
    apply Or.inl
    simp [saves, rejects, htype]

theorem processEntries_next {e : Entry} {rest : List Entry} {s s' : DiscoveryThread}
    (h : c.processEntry answers e.1 e.2 s = (.next, s')) :
    c.processEntries answers (e :: rest) s = c.processEntries answers rest s' := by
  simp only [processEntries, h]

theorem processEntries_stop {e : Entry} {rest : List Entry} {s s' : DiscoveryThread} {flow : Flow}
    (h : c.processEntry answers e.1 e.2 s = (flow, s')) (hne : flow ≠ .next) :
    c.processEntries answers (e :: rest) s = (flow, s') := by
  simp only [processEntries, h]
  cases flow with
  | next => exact absurd rfl hne
  | returned => rfl
  | raised _ => rfl

theorem registerAll_rule {I : DiscoveryThread → Prop} {name devType : Str} {value : Dict Str}
    (hstep : ∀ s dcc propDict, c.propDict dcc value = .ok propDict → I s →
      let s' := s.attempt ⟨c.device name devType, dcc, propDict⟩
      (¬ (answers s.attempts.length).Succeeds → I s') ∧
      ((answers s.attempts.length).Succeeds →
        I (s'.updateDevinfo name (dcc, c.device name devType))))
    (keyDcc : List Str) {s : DiscoveryThread} (hs : I s) :
    I (c.registerAll answers name devType value keyDcc s).2 := by
  induction keyDcc generalizing s with
  | nil => exact hs
  | cons dcc keyDcc ih =>
    rw [registerAll]
    cases hpropDict : c.propDict dcc value with
    | error e => exact hs
    | ok propDict =>
      obtain ⟨hfail, hsucceed⟩ := hstep s dcc propDict hpropDict hs
      obtain ⟨hanswer, -, heq⟩ | ⟨hanswer, -, heq⟩ | ⟨hanswer, -, e, heq⟩ :=
        regDevice_cases c (answers s.attempts.length) name devType
      · simp only [heq]
        exact ih (hsucceed hanswer)
      · simp only [heq]
        exact ih (hfail hanswer)
      · simp only [heq]
        exact hfail hanswer

theorem processEntries_rule {I : DiscoveryThread → Prop} {entries : List Entry}
    (hstep : ∀ s, ∀ e ∈ entries, I s → I (c.processEntry answers e.1 e.2 s).2)
    {s : DiscoveryThread} (hs : I s) : I (c.processEntries answers entries s).2 := by
  induction entries generalizing s with
  | nil => exact hs
  | cons e rest ih =>
    have hentry := hstep s e List.mem_cons_self hs
    have hrest : ∀ s, ∀ e ∈ rest, I s → I (c.processEntry answers e.1 e.2 s).2 :=
      fun s' e' he' ↦ hstep s' e' (List.mem_cons_of_mem e he')
    generalize hr : c.processEntry answers e.1 e.2 s = r at hentry
    obtain ⟨flow, s'⟩ := r
    by_cases hflow : flow = .next
    · rw [hflow] at hr
      rw [processEntries_next hr]
      exact ih hrest hentry
    · rw [processEntries_stop hr hflow]
      exact hentry

end Config

end Liota.DeviceDiscovery
