import Liota.DeviceDiscovery.Handlers
import Liota.DeviceDiscovery.Failures
import Liota.DiscListeners.NamedPipe

namespace Liota.DeviceDiscovery

open Python Python.Computation Python.Text Interleaving DiscListeners

/-- A record that several messages may have written, given what each leaves when it is handled
alone. One of them has set the type and keeps all that it registered, and of what another one
registered the last part is kept. -/
def Merges {ι : Type} [DecidableEq ι] (alone : ι → Option Info) (info : Info) : Prop :=
  ∃ (i : ι) (kept : List (ι × (Str × Device))),
    info.2 = kept.map Prod.snd ∧ alone i = some (info.1, own i kept) ∧
      ∀ j, own j kept <:+ ((alone j).map Prod.snd).getD []

variable {ι : Type} [DecidableEq ι]

theorem Merges.eq_alone {alone : ι → Option Info} {info : Info} {i : ι} (h : Merges alone info)
    (honly : ∀ j, j ≠ i → alone j = none) : alone i = some info := by
  obtain ⟨i', kept, hkept, halone, hparts⟩ := h
  have hi : i' = i := by
    by_contra hne
    rw [honly i' hne] at halone
    cases halone
  rw [hi] at halone
  have hall : ∀ step ∈ kept, step.1 = i := by
    intro step hstep
    by_contra hne
    have hpart := hparts step.1
    rw [honly _ hne] at hpart
    have hmem : step.2 ∈ own step.1 kept := mem_own.mpr hstep
    cases List.suffix_nil.mp hpart ▸ hmem
  rw [halone, own_eq_of_forall hall, ← hkept]

section Records

variable {programs : ι → List RecordOp} {trace : List (ι × RecordOp)} {devices : Records}

theorem prepared_trace (h : Interleaves programs trace) (hprograms : ∀ i, Prepared (programs i)) :
    Prepared (trace.map Prod.snd) := by
  intro before name regRec after heq
  obtain ⟨steps, rest, htrace, hsteps, hrest⟩ := List.map_eq_append_iff.mp heq
  obtain ⟨step, steps', hcons, hstep, -⟩ := List.map_eq_cons_iff.mp hrest
  obtain ⟨i, o⟩ := step
  rw [hcons, show o = _ from hstep] at htrace
  obtain ⟨devType, hsave⟩ := hprograms i _ _ _ _ (h.split htrace)
  refine ⟨devType, ?_⟩
  rw [← hsteps]
  exact List.mem_map_of_mem (mem_own.mp hsave)

theorem foldl_prepared {ops : List RecordOp} (h : Prepared ops) (name : Str) :
    (opsOn name ops = [] ∧ (opsOn name ops).foldl RecordOp.extend none = none) ∨
    ∃ before devType after, opsOn name ops = before ++ .save name devType :: after ∧
      (∀ o ∈ after, o.isSave = false) ∧
      (opsOn name ops).foldl RecordOp.extend none =
        some (devType, after.filterMap RecordOp.regRec) := by
  by_cases hsaves : ∃ o ∈ opsOn name ops, o.isSave
  · apply Or.inr
    obtain ⟨before, o, after, heq, ho, hafter⟩ := exists_start hsaves
    have hname : o.name = name := by
      have hmem : o ∈ opsOn name ops := by simp [heq]
      exact of_decide_eq_true (List.mem_filter.mp hmem).2
    cases o with
    | update key regRec => cases ho
    | save key devType =>
      rw [show key = name from hname] at heq
      refine ⟨before, devType, after, heq, hafter, ?_⟩
      rw [heq, foldl_since hafter]
  · apply Or.inl
    have hnil := h.opsOn_eq_nil fun o ho ↦ by simpa using fun hsave ↦ hsaves ⟨o, ho, hsave⟩
    exact ⟨hnil, by rw [hnil]; rfl⟩

theorem foldl_trace (h : Interleaves programs trace) (hprograms : ∀ i, Prepared (programs i))
    (name : Str) (info : Option Info) :
    let alone := fun i ↦ (opsOn name (programs i)).foldl RecordOp.extend none
    let final := (opsOn name (trace.map Prod.snd)).foldl RecordOp.extend info
    (∀ i, alone i = none) ∧ final = info ∨ ∃ info', final = some info' ∧ Merges alone info' := by
  intro alone final
  -- The steps that name the device are an interleaving of what the programs do to its record.
  have hnamed : Interleaves (fun i ↦ opsOn name (programs i))
      (trace.filter fun step ↦ step.2.name = name) := h.filter _
  have hfinal : opsOn name (trace.map Prod.snd) =
      (trace.filter fun step ↦ step.2.name = name).map Prod.snd := List.filter_map
  generalize trace.filter (fun step ↦ step.2.name = name) = named at hnamed hfinal
  by_cases hsaves : ∃ step ∈ named, step.2.isSave
  · apply Or.inr
    obtain ⟨before, step, after, heq, hstep, hafter⟩ :=
      exists_start (p := fun step : ι × RecordOp ↦ step.2.isSave) hsaves
    obtain ⟨i, o⟩ := step
    have hname : o.name = name := by
      have hmem : o ∈ opsOn name (trace.map Prod.snd) := by simp [hfinal, heq]
      exact of_decide_eq_true (List.mem_filter.mp hmem).2
    cases o with
    | update key regRec => cases hstep
    | save key devType =>
      rw [show key = name from hname] at heq
      have hupdates : ∀ o ∈ after.map Prod.snd, o.isSave = false := by
        intro o ho
        obtain ⟨step, hmem, rfl⟩ := List.mem_map.mp ho
        exact hafter step hmem
      have hown (j : ι) : ∀ o ∈ own j after, o.isSave = false :=
        fun o ho ↦ hafter (j, o) (mem_own.mp ho)
      refine ⟨(devType, (after.map Prod.snd).filterMap RecordOp.regRec), ?_, i,
        results RecordOp.regRec after, (map_results _ _).symm, ?_, fun j ↦ ?_⟩
      · change (opsOn name _).foldl RecordOp.extend info = _
        rw [hfinal, heq, List.map_append, List.map_cons, foldl_since hupdates]
      · have hprogram := hnamed.split heq
        change (opsOn name (programs i)).foldl RecordOp.extend none = _
        rw [hprogram, foldl_since (hown i), own_results]
      · rw [own_results]
        have hsuffix : own j after <:+ opsOn name (programs j) :=
          hnamed.suffix ⟨before ++ [(i, .save name devType)], by simp [heq]⟩ j
        obtain ⟨hnil, -⟩ | ⟨before', devType', after', hops, -, halone⟩ :=
          foldl_prepared (hprograms j) name
        · rw [hnil] at hsuffix
          rw [List.suffix_nil.mp hsuffix]
          exact List.nil_suffix
        · rw [hops] at hsuffix
          change _ <:+ ((List.foldl RecordOp.extend none _).map Prod.snd).getD []
          rw [halone]
          exact (suffix_of_start hsuffix rfl (hown j)).filterMap _
  · apply Or.inl
    have hnone (i : ι) : opsOn name (programs i) = [] := by
      apply (hprograms i).opsOn_eq_nil
      intro o ho
      have hmem : (i, o) ∈ named := mem_own.mp (by rw [hnamed i]; exact ho)
      simpa using fun hsave ↦ hsaves ⟨(i, o), hmem, hsave⟩
    have hnil : named = [] := by
      rw [List.eq_nil_iff_forall_not_mem]
      intro step hstep
      have hmem : step.2 ∈ own step.1 named := mem_own.mpr hstep
      rw [(hnamed step.1).trans (hnone step.1)] at hmem
      cases hmem
    refine ⟨fun i ↦ ?_, ?_⟩
    · change (opsOn name (programs i)).foldl RecordOp.extend none = none
      rw [hnone i]
      rfl
    · change (opsOn name _).foldl RecordOp.extend info = info
      rw [hfinal, hnil]
      rfl

end Records

section Threads

variable {c : Config} {answers : ι → ℕ → Answer} {messages : ι → Message}
  {trace : List (ι × RecordOp)}

/-- However the threads that handle messages take turns, no update misses its record, and each
record is merged from what the messages leave in it when each is handled alone. -/
theorem records_merged
    (h : Interleaves (fun i ↦ c.handlerOps (answers i) (messages i)) trace) (devices : Records) :
    ∃ devices', runOps (trace.map Prod.snd) devices = .ok devices' ∧ ∀ name,
      let alone := fun i ↦ c.alone (answers i) (messages i) name
      (∀ i, alone i = none) ∧ devices'.lookup name = devices.lookup name ∨
        ∃ info, devices'.lookup name = some info ∧ Merges alone info := by
  have hprograms (i : ι) : Prepared (c.handlerOps (answers i) (messages i)) :=
    prepared_handlerOps (messages i)
  obtain ⟨devices', hrun⟩ := (prepared_trace h hprograms).runs devices
  refine ⟨devices', hrun, fun name ↦ ?_⟩
  have hrecord := foldl_trace h hprograms name (devices.lookup name)
  rw [← lookup_runOps hrun name] at hrecord
  simpa only [alone_eq] using hrecord

end Threads

section Frames

variable {c : Config} {loads : Str → Except PyErr Message} {answers : ℕ → ℕ → Answer}
  {trace : List (ℕ × RecordOp)} {devices devices' : Records}

/-- The threads that `run` of the pipe's listener starts for its payloads, one for each. -/
def pipeOps (c : Config) (loads : Str → Except PyErr Message) (answers : ℕ → ℕ → Answer)
    (batches : List Str) (i : ℕ) : List RecordOp :=
  ((payloads loads batches)[i]?).elim [] (c.handlerOps (answers i))

theorem prepared_messages (messages : List Message) (i : ℕ) :
    Prepared ((messages[i]?).elim [] (c.handlerOps (answers i))) := by
  cases messages[i]? with
  | none => exact prepared_nil
  | some m => exact prepared_handlerOps m

theorem lookup_of_only {messages : List Message}
    (h : Interleaves (fun i ↦ (messages[i]?).elim [] (c.handlerOps (answers i))) trace)
    (hrun : runOps (trace.map Prod.snd) devices = .ok devices') {name : Str} {i : ℕ} {m : Message}
    {info : Info} (hi : messages[i]? = some m) (halone : c.alone (answers i) m name = some info)
    (honly : ∀ j m', j ≠ i → messages[j]? = some m' → c.alone (answers j) m' name = none) :
    devices'.lookup name = some info := by
  have hown : (opsOn name ((messages[i]?).elim [] (c.handlerOps (answers i)))).foldl
      RecordOp.extend none = some info := by
    rw [hi, ← halone, alone_eq]
    rfl
  rw [lookup_runOps hrun name]
  obtain ⟨hnone, -⟩ | ⟨info', hfinal, hmerges⟩ :=
    foldl_trace h (prepared_messages messages) name (devices.lookup name)
  · exact absurd (hown.symm.trans (hnone i)) (Option.some_ne_none info)
  · have hsame := hmerges.eq_alone fun j hj ↦ by
      cases hm : messages[j]? with
      | none => rfl
      | some m' => exact (alone_eq m' name).symm.trans (honly j m' hj hm)
    rw [hfinal, ← hown]
    exact hsame.symm

variable (hloads : ∀ text, loads (text ++ ['\n']) = loads text) {batches : List (List Str)}
  (hbodies : ∀ batch ∈ batches, ∀ body ∈ batch, NoEnd body)
  (hseparated : ∀ batch ∈ batches, Separated loads batch)

include hloads hbodies hseparated

theorem interleaves_frames
    (h : Interleaves (pipeOps c loads answers (batches.map fun batch ↦ batch.flatMap frame))
      trace) :
    Interleaves (fun i ↦ ((batches.flatten.filterMap (value loads))[i]?).elim []
      (c.handlerOps (answers i))) trace := by
  intro i
  rw [h i, pipeOps, payloads_frames hloads hbodies hseparated]

/-- A device that one message alone of those written to the pipe names is recorded as if that
message were handled alone, whatever the batches are and however the threads take turns. -/
theorem frames_recorded
    (h : Interleaves (pipeOps c loads answers (batches.map fun batch ↦ batch.flatMap frame)) trace)
    (devices : Records) :
    let messages := batches.flatten.filterMap (value loads)
    ∃ devices', runOps (trace.map Prod.snd) devices = .ok devices' ∧
      ∀ name i m info, messages[i]? = some m → c.alone (answers i) m name = some info →
        (∀ j m', j ≠ i → messages[j]? = some m' → c.alone (answers j) m' name = none) →
        devices'.lookup name = some info := by
  intro messages
  have hthreads := interleaves_frames hloads hbodies hseparated h
  obtain ⟨devices', hrun⟩ := (prepared_trace hthreads (prepared_messages messages)).runs devices
  exact ⟨devices', hrun, fun name i m info ↦ lookup_of_only hthreads hrun⟩

end Frames

section Example

def lm35Device (sn : Str) : Device := ⟨"LM35_".toList ++ sn, "LM35_".toList ++ sn, "LM35".toList⟩

def lm35Save (sn : Str) : RecordOp := .save ("LM35_".toList ++ sn) "LM35".toList

def lm35Update (sn dcc : Str) : RecordOp := .update ("LM35_".toList ++ sn) (dcc, lm35Device sn)

/-- Two messages name one device, and the second thread saves it while the first one registers. -/
def twice : List (Bool × RecordOp) :=
  let sn := "12345".toList
  [(false, lm35Save sn), (false, lm35Update sn "iotcc_mqtt".toList), (true, lm35Save sn),
    (true, lm35Update sn "iotcc_mqtt".toList), (false, lm35Update sn "iotcc".toList),
    (true, lm35Update sn "iotcc".toList)]

theorem records_merged_twice : ∃ devices', runOps (twice.map Prod.snd) ∅ = .ok devices' ∧ ∀ name,
    let alone := fun _ : Bool ↦ twoDccs.alone (fun _ ↦ willing) lm35Message name
    (∀ i, alone i = none) ∧ devices'.lookup name = (∅ : Records).lookup name ∨
      ∃ info, devices'.lookup name = some info ∧ Merges alone info := by
  have htwice : Interleaves (fun _ ↦ twoDccs.handlerOps (fun _ ↦ willing) lm35Message) twice := by
    intro i
    cases i with
    | false => decide
    | true => decide
  exact records_merged htwice ∅

/-- `json.loads` where a message says one serial number. -/
def loadsSn (text : Str) : Except PyErr Message :=
  let sn := text.rdropWhile (· = '\n')
  if sn ≠ [] then .ok (AList.insert "LM35".toList (AList.insert "SN".toList sn ∅) ∅)
  else .error .valueError

theorem loadsSn_newline (text : Str) : loadsSn (text ++ ['\n']) = loadsSn text := by
  rw [loadsSn, loadsSn, List.rdropWhile_concat_pos _ _ _ (by simp)]

theorem loadsSn_handled (text : Str) : Handled loadsSn text := by
  intro e h
  rw [loadsSn] at h
  split at h
  · cases h
  · exact (Except.error.inj h).symm

theorem separated_twoFrames :
    ∀ batch ∈ [["1".toList], ["2".toList]], Separated loadsSn batch := by
  intro batch hbatch
  refine separated_of_valid (fun body _ ↦ loadsSn_handled body) ?_
  revert batch
  decide

def twoFrames : List (ℕ × RecordOp) :=
  [(0, lm35Save "1".toList), (1, lm35Save "2".toList),
    (1, lm35Update "2".toList "iotcc_mqtt".toList),
    (0, lm35Update "1".toList "iotcc_mqtt".toList), (0, lm35Update "1".toList "iotcc".toList),
    (1, lm35Update "2".toList "iotcc".toList)]

theorem frames_recorded_two : ∃ devices', runOps (twoFrames.map Prod.snd) ∅ = .ok devices' ∧
    ∀ name (i : ℕ) m info, (["1".toList, "2".toList].filterMap (value loadsSn))[i]? = some m →
      twoDccs.alone (fun _ ↦ willing) m name = some info →
      (∀ (j : ℕ) m', j ≠ i → (["1".toList, "2".toList].filterMap (value loadsSn))[j]? = some m' →
        twoDccs.alone (fun _ ↦ willing) m' name = none) →
      devices'.lookup name = some info := by
  have htrace : Interleaves (pipeOps twoDccs loadsSn (fun _ _ ↦ willing)
      ([["1".toList], ["2".toList]].map fun batch ↦ batch.flatMap frame)) twoFrames := by
    intro i
    match i with
    | 0 => decide
    | 1 => decide
    | i + 2 => rfl
  exact frames_recorded loadsSn_newline (by decide) separated_twoFrames htrace ∅

end Example

end Liota.DeviceDiscovery
