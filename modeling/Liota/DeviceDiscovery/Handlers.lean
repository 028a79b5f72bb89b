import Liota.DeviceDiscovery.Process
import Liota.Interleaving.Threads

namespace Liota.DeviceDiscovery

open Python Python.Computation Python.Text Interleaving

abbrev Info := Str × List (Str × Device)

abbrev Records := Dict Info

/-- What a thread does to the records while it holds `discovery_lock`. -/
inductive RecordOp
  | save (name devType : Str)
  | update (name : Str) (regRec : Str × Device)
  deriving DecidableEq, Repr

namespace RecordOp

def name : RecordOp → Str
  | save name _ => name
  | update name _ => name

def isSave : RecordOp → Bool
  | save _ _ => true
  | update _ _ => false

def regRec : RecordOp → Option (Str × Device)
  | save _ _ => none
  | update _ regRec => some regRec

/-- `_save_devinfo` and `_update_devinfo`, which reads the record that it extends. -/
def apply (devices : Records) : RecordOp → Except PyErr Records
  | save name devType => .ok (devices.insert name (devType, []))
  | update name regRec =>
    match devices.lookup name with
    | none => .error .keyError
    | some info => .ok (devices.insert name (info.1, info.2 ++ [regRec]))

def extend (info : Option Info) : RecordOp → Option Info
  | save _ devType => some (devType, [])
  | update _ regRec => info.map fun info ↦ (info.1, info.2 ++ [regRec])

end RecordOp

def runOps (ops : List RecordOp) (devices : Records) : Except PyErr Records :=
  ops.foldlM RecordOp.apply devices

def opsOn (name : Str) (ops : List RecordOp) : List RecordOp := ops.filter fun o ↦ o.name = name

def Prepared (ops : List RecordOp) : Prop :=
  ∀ before name regRec after, ops = before ++ .update name regRec :: after →
    ∃ devType, .save name devType ∈ before

namespace Config

variable (c : Config) (answers : ℕ → Answer)

/-- What the loop over the DCCs does to the records, after a number of calls of `reg_device`. It
comes with how the loop ends and with the number of calls then. -/
def registerOps (name devType : Str) (value : Dict Str) :
    List Str → ℕ → Flow × ℕ × List RecordOp
  | [], n => (.next, n, [])
  | dcc :: keyDcc, n =>
    match c.propDict dcc value with
    | .error e => (.raised e, n, [])
    | .ok _ =>
      match c.regDevice (answers n) name devType with
      | .error e => (.raised e, n + 1, [])
      | .ok none => registerOps name devType value keyDcc (n + 1)
      | .ok (some dev) =>
        let (flow, n', ops) := registerOps name devType value keyDcc (n + 1)
        (flow, n', .update name (dcc, dev) :: ops)

def entryOps (key : Str) (value : Dict Str) (n : ℕ) : Flow × ℕ × List RecordOp :=
  if typeSafe key then
    match c.target key with
    | none => (.next, n, [])
    | some (keyDcc, uniqueKey) =>
      match uniqueKeyValue uniqueKey [] value.entries with
      | none => (.returned, n, [])
      | some found =>
        let (flow, n', ops) := c.registerOps answers (deviceName key found) key value keyDcc n
        (flow, n', .save (deviceName key found) key :: ops)
  else (.returned, n, [])

def entriesOps : List Entry → ℕ → Flow × ℕ × List RecordOp
  | [], n => (.next, n, [])
  | ⟨key, value⟩ :: rest, n =>
    match c.entryOps answers key value n with
    | (.next, n', ops) =>
      let (flow, n'', ops') := entriesOps rest n'
      (flow, n'', ops ++ ops')
    | r => r

def handlerOps (data : Message) : List RecordOp := (c.entriesOps answers data.entries 0).2.2

def alone (data : Message) (name : Str) : Option Info :=
  (c.deviceMsgProcess answers data ∅).2.devicesDiscoverd.lookup name

end Config

section Runs

variable {devices devices' : Records} {ops : List RecordOp}

theorem lookup_apply {o : RecordOp} (h : o.apply devices = .ok devices') (name : Str) :
    devices'.lookup name =
      if o.name = name then o.extend (devices.lookup name) else devices.lookup name := by
  cases o with
  | save key devType =>
    cases h
    rw [Dict.lookup_insert_eq, RecordOp.name]
    by_cases hkey : name = key
    · rw [if_pos hkey, if_pos hkey.symm]
      rfl
    · rw [if_neg hkey, if_neg (Ne.symm hkey)]
  | update key regRec =>
    rw [RecordOp.apply] at h
    cases hinfo : devices.lookup key with
    | none =>
      rw [hinfo] at h
      cases h
    | some info =>
      rw [hinfo] at h
      cases h
      rw [Dict.lookup_insert_eq, RecordOp.name]
      by_cases hkey : name = key
      · rw [if_pos hkey, if_pos hkey.symm, hkey, hinfo]
        rfl
      · rw [if_neg hkey, if_neg (Ne.symm hkey)]

theorem lookup_runOps (h : runOps ops devices = .ok devices') (name : Str) :
    devices'.lookup name = (opsOn name ops).foldl RecordOp.extend (devices.lookup name) := by
  induction ops generalizing devices with
  | nil =>
    cases h
    rfl
  | cons o ops ih =>
    rw [runOps, List.foldlM_cons] at h
    cases ho : o.apply devices with
    | error e =>
      rw [ho] at h
      cases h
    | ok d =>
      rw [ho] at h
      rw [ih h, lookup_apply ho, opsOn, opsOn]
      by_cases hname : o.name = name
      · rw [if_pos hname, List.filter_cons_of_pos (by simpa using hname), List.foldl_cons]
      · rw [if_neg hname, List.filter_cons_of_neg (by simpa using hname)]

theorem runOps_ok (h : ∀ before name regRec after, ops = before ++ .update name regRec :: after →
      name ∈ devices ∨ ∃ devType, .save name devType ∈ before) :
    ∃ devices', runOps ops devices = .ok devices' := by
  induction ops generalizing devices with
  | nil => exact ⟨devices, rfl⟩
  | cons o ops ih =>
    have hstep : ∃ d, o.apply devices = .ok d := by
      cases o with
      | save name devType => exact ⟨_, rfl⟩
      | update name regRec =>
        obtain hmem | ⟨devType, hsave⟩ := h [] name regRec ops rfl
        · obtain ⟨info, hinfo⟩ := (Dict.mem_iff_lookup name devices).mp hmem
          exact ⟨_, by rw [RecordOp.apply, hinfo]⟩
        · cases hsave
    obtain ⟨d, hd⟩ := hstep
    have hkeep (name : Str) (hmem : name ∈ devices) : name ∈ d := by
      obtain ⟨info, hinfo⟩ := (Dict.mem_iff_lookup name devices).mp hmem
      rw [Dict.mem_iff_lookup, lookup_apply hd, hinfo]
      split
      · cases o with
        | save _ _ => exact ⟨_, rfl⟩
        | update _ _ => exact ⟨_, rfl⟩
      · exact ⟨info, rfl⟩
    have hrest : ∀ before name regRec after, ops = before ++ .update name regRec :: after →
        name ∈ d ∨ ∃ devType, .save name devType ∈ before := by
      intro before name regRec after heq
      obtain hmem | ⟨devType, hsave⟩ := h (o :: before) name regRec after (by simp [heq])
      · exact .inl (hkeep name hmem)
      · obtain rfl | hbefore := List.mem_cons.mp hsave
        · apply Or.inl
          rw [Dict.mem_iff_lookup, lookup_apply hd, RecordOp.name, if_pos rfl]
          exact ⟨_, rfl⟩
        · exact .inr ⟨devType, hbefore⟩
    obtain ⟨devices', hrun⟩ := ih hrest
    exact ⟨devices', by rw [runOps, List.foldlM_cons, hd]; exact hrun⟩

theorem Prepared.runs (h : Prepared ops) (devices : Records) :
    ∃ devices', runOps ops devices = .ok devices' :=
  runOps_ok fun before name regRec after heq ↦ .inr (h before name regRec after heq)

theorem runOps_append {ops' : List RecordOp} (h : runOps ops devices = .ok devices') :
    runOps (ops ++ ops') devices = runOps ops' devices' := by
  rw [runOps, List.foldlM_append, show ops.foldlM RecordOp.apply devices = _ from h]
  rfl

theorem foldl_updates (hops : ∀ o ∈ ops, o.isSave = false) (info : Info) :
    ops.foldl RecordOp.extend (some info) =
      some (info.1, info.2 ++ ops.filterMap RecordOp.regRec) := by
  induction ops generalizing info with
  | nil => simp
  | cons o ops ih =>
    have ho := hops o List.mem_cons_self
    cases o with
    | save name devType => cases ho
    | update name regRec =>
      rw [List.foldl_cons, RecordOp.extend, Option.map_some,
        ih fun o h ↦ hops o (List.mem_cons_of_mem _ h)]
      simp [RecordOp.regRec]

theorem foldl_since {before after : List RecordOp} {name devType : Str}
    (hafter : ∀ o ∈ after, o.isSave = false) (info : Option Info) :
    (before ++ .save name devType :: after).foldl RecordOp.extend info =
      some (devType, after.filterMap RecordOp.regRec) := by
  rw [List.foldl_append, List.foldl_cons, RecordOp.extend, foldl_updates hafter]
  rfl

end Runs

section PreparedOps

variable {ops ops' : List RecordOp}

theorem prepared_nil : Prepared [] := by
  intro before name regRec after heq
  simp at heq

theorem Prepared.append (h : Prepared ops) (h' : Prepared ops') : Prepared (ops ++ ops') := by
  intro before name regRec after heq
  obtain ⟨middle, hbefore, hrest⟩ | ⟨middle, hbefore, hrest⟩ := List.append_eq_append_iff.mp heq
  · obtain ⟨devType, hsave⟩ := h' middle name regRec after hrest
    exact ⟨devType, by simp [hbefore, hsave]⟩
  · cases middle with
    | nil =>
      obtain ⟨devType, hsave⟩ := h' [] name regRec after (by simpa using hrest.symm)
      cases hsave
    | cons o middle =>
      obtain ⟨rfl, -⟩ := List.cons_eq_cons.mp hrest
      exact h before name regRec middle hbefore

theorem prepared_save {name devType : Str}
    (h : ∀ o ∈ ops, ∃ regRec, o = .update name regRec) :
    Prepared (.save name devType :: ops) := by
  intro before key regRec after heq
  cases before with
  | nil => cases heq
  | cons o before =>
    obtain ⟨rfl, hops⟩ := List.cons_eq_cons.mp heq
    obtain ⟨regRec', hupdate⟩ := h (.update key regRec) (by simp [hops])
    cases hupdate
    exact ⟨devType, List.mem_cons_self⟩

theorem Prepared.opsOn_eq_nil (h : Prepared ops) {name : Str}
    (hsaves : ∀ o ∈ opsOn name ops, o.isSave = false) : opsOn name ops = [] := by
  rw [List.eq_nil_iff_forall_not_mem]
  intro o ho
  have hsave := hsaves o ho
  rw [opsOn, List.mem_filter] at ho
  cases o with
  | save key devType => cases hsave
  | update key regRec =>
    obtain ⟨before, after, heq⟩ := List.append_of_mem ho.1
    obtain ⟨devType, hmem⟩ := h before key regRec after heq
    have hkey : key = name := of_decide_eq_true ho.2
    have hfalse := hsaves (.save key devType) (by
      rw [opsOn, List.mem_filter, heq]
      exact ⟨List.mem_append_left _ hmem, by simp [RecordOp.name, hkey]⟩)
    cases hfalse

end PreparedOps

section Sequential

/-- The state that a method leaves, beside what was said it does to the records. -/
structure Matches (r : Flow × ℕ × List RecordOp) (s : DiscoveryThread)
    (r' : Flow × DiscoveryThread) : Prop where
  flow : r'.1 = r.1
  attempts : r'.2.attempts.length = r.2.1
  records : runOps r.2.2 s.devicesDiscoverd = .ok r'.2.devicesDiscoverd

variable {c : Config} {answers : ℕ → Answer}

theorem registerAll_matches (c : Config) (answers : ℕ → Answer) (devType : Str) (value : Dict Str)
    (keyDcc : List Str) {name : Str} {s : DiscoveryThread} (hs : name ∈ s.devicesDiscoverd) :
    Matches (c.registerOps answers name devType value keyDcc s.attempts.length) s
      (c.registerAll answers name devType value keyDcc s) := by
  induction keyDcc generalizing s with
  | nil => exact ⟨rfl, rfl, rfl⟩
  | cons dcc keyDcc ih =>
    rw [Config.registerOps, Config.registerAll]
    cases c.propDict dcc value with
    | error e => exact ⟨rfl, rfl, rfl⟩
    | ok propDict =>
      have hlength : (s.attempt ⟨c.device name devType, dcc, propDict⟩).attempts.length =
          s.attempts.length + 1 := by simp [DiscoveryThread.attempt]
      cases hanswer : c.regDevice (answers s.attempts.length) name devType with
      | error e => exact ⟨rfl, hlength, rfl⟩
      | ok registered =>
        cases registered with
        | none =>
          have hrest := ih (s := s.attempt ⟨c.device name devType, dcc, propDict⟩) hs
          rw [hlength] at hrest
          exact ⟨hrest.flow, hrest.attempts, hrest.records⟩
        | some dev =>
          have hmem : name ∈ ((s.attempt ⟨c.device name devType, dcc, propDict⟩).updateDevinfo
              name (dcc, dev)).devicesDiscoverd := (Dict.mem_modify _ _ _ _).mpr hs
          have hrest := ih hmem
          rw [DiscoveryThread.updateDevinfo, hlength] at hrest
          refine ⟨hrest.flow, hrest.attempts, ?_⟩
          obtain ⟨info, hinfo⟩ := (Dict.mem_iff_lookup name s.devicesDiscoverd).mp hs
          have hupdate : RecordOp.apply s.devicesDiscoverd (.update name (dcc, dev)) =
              .ok (s.devicesDiscoverd.insert name (info.1, info.2 ++ [(dcc, dev)])) := by
            rw [RecordOp.apply, hinfo]
          have hmodify : Dict.modify name (fun info ↦ (info.1, info.2 ++ [(dcc, dev)]))
              s.devicesDiscoverd =
              s.devicesDiscoverd.insert name (info.1, info.2 ++ [(dcc, dev)]) := by
            rw [Dict.modify, hinfo]
          have hrecords := hrest.records
          change runOps _ (Dict.modify name _ s.devicesDiscoverd) = _ at hrecords
          rw [hmodify] at hrecords
          rw [runOps, List.foldlM_cons, hupdate]
          exact hrecords

theorem registerOps_updates {name devType : Str} {value : Dict Str} (keyDcc : List Str) (n : ℕ) :
    ∀ o ∈ (c.registerOps answers name devType value keyDcc n).2.2,
      ∃ regRec, o = .update name regRec := by
  induction keyDcc generalizing n with
  | nil =>
    intro o ho
    cases ho
  | cons dcc keyDcc ih =>
    rw [Config.registerOps]
    split
    · intro o ho
      cases ho
    · split
      · intro o ho
        cases ho
      · exact ih (n + 1)
      · intro o ho
        obtain ho | ho := List.mem_cons.mp ho
        · exact ⟨_, ho⟩
        · exact ih (n + 1) o ho

theorem entryOps_spec (c : Config) (answers : ℕ → Answer) (e : Entry) (s : DiscoveryThread) :
    Matches (c.entryOps answers e.1 e.2 s.attempts.length) s (c.processEntry answers e.1 e.2 s) ∧
      Prepared (c.entryOps answers e.1 e.2 s.attempts.length).2.2 := by
  rw [Config.entryOps, Config.processEntry]
  by_cases htype : typeSafe e.1
  · rw [if_pos htype, if_pos htype]
    cases c.target e.1 with
    | none => exact ⟨⟨rfl, rfl, rfl⟩, prepared_nil⟩
    | some target =>
      obtain ⟨keyDcc, uniqueKey⟩ := target
      dsimp only
      cases Config.uniqueKeyValue uniqueKey [] e.2.entries with
      | none => exact ⟨⟨rfl, rfl, rfl⟩, prepared_nil⟩
      | some found =>
        refine ⟨?_, prepared_save (registerOps_updates keyDcc _)⟩
        have hsaved : Config.deviceName e.1 found ∈
            (s.saveDevinfo (Config.deviceName e.1 found) e.1).devicesDiscoverd :=
          (AList.mem_insert _).mpr (.inl rfl)
        have hrest := registerAll_matches c answers e.1 e.2 keyDcc hsaved
        exact ⟨hrest.flow, hrest.attempts, hrest.records⟩
  · rw [if_neg htype, if_neg htype]
    exact ⟨⟨rfl, rfl, rfl⟩, prepared_nil⟩

theorem entriesOps_spec (c : Config) (answers : ℕ → Answer) (entries : List Entry)
    (s : DiscoveryThread) :
    Matches (c.entriesOps answers entries s.attempts.length) s
        (c.processEntries answers entries s) ∧
      Prepared (c.entriesOps answers entries s.attempts.length).2.2 := by
  induction entries generalizing s with
  | nil => exact ⟨⟨rfl, rfl, rfl⟩, prepared_nil⟩
  | cons e rest ih =>
    obtain ⟨hentry, hprepared⟩ := entryOps_spec c answers e s
    obtain ⟨hflow, hattempts, hrecords⟩ := hentry
    rw [Config.entriesOps, Config.processEntries]
    generalize c.entryOps answers e.1 e.2 s.attempts.length = r at *
    generalize c.processEntry answers e.1 e.2 s = r' at *
    obtain ⟨flow, n, ops⟩ := r
    obtain ⟨flow', s'⟩ := r'
    cases hflow
    cases hattempts
    cases flow with
    | next =>
      obtain ⟨hrest, hprepared'⟩ := ih s'
      refine ⟨⟨hrest.flow, hrest.attempts, ?_⟩, hprepared.append hprepared'⟩
      rw [runOps_append hrecords]
      exact hrest.records
    | returned => exact ⟨⟨rfl, rfl, hrecords⟩, hprepared⟩
    | raised _ => exact ⟨⟨rfl, rfl, hrecords⟩, hprepared⟩

theorem runOps_handlerOps (data : Message) (devices : Records) :
    runOps (c.handlerOps answers data) devices =
      .ok (c.deviceMsgProcess answers data devices).2.devicesDiscoverd := by
  have hrecords := (entriesOps_spec c answers data.entries ⟨devices, []⟩).1.records
  rw [Config.deviceMsgProcess]
  split
  · next heq => rw [heq] at hrecords; exact hrecords
  · next heq => rw [heq] at hrecords; exact hrecords

theorem prepared_handlerOps (data : Message) : Prepared (c.handlerOps answers data) :=
  (entriesOps_spec c answers data.entries ⟨∅, []⟩).2

theorem alone_eq (data : Message) (name : Str) :
    c.alone answers data name =
      (opsOn name (c.handlerOps answers data)).foldl RecordOp.extend none :=
  lookup_runOps (runOps_handlerOps data ∅) name

end Sequential

end Liota.DeviceDiscovery
