import Liota.Dccs.IotControlCenter.Requests

namespace Liota.Dccs.IotControlCenter

open Python Python.Computation Python.Text

/-- What updating the local files can do to a call, with the conditions under which it does it. -/
inductive Writes (attributes : Attributes) (file : Option Details) (call : Call) : Call → Prop
  | unset {entity : Entity} (hphase : call.phase = .tested)
      (hop : call.operation = .register entity)
      (hid : attributes.regEntityId = none) :
      Writes attributes file call { call with phase := .raised .attributeError }
  | storeFailed {entity : Entity} {uuid : Str} {e : PyErr} (hphase : call.phase = .tested)
      (hop : call.operation = .register entity) (hid : attributes.regEntityId = some uuid)
      (hstore : storeDetails entity uuid file = .error e) :
      Writes attributes file call { call with phase := .raised e }
  | stored {entity : Entity} {uuid : Str} (hphase : call.phase = .tested)
      (hop : call.operation = .register entity) (hid : attributes.regEntityId = some uuid)
      (hstore : storeDetails entity uuid file = .ok ()) :
      Writes attributes file call { call with phase := .written, record := some uuid }
  | removeFailed {entity : Entity} {uuid : Str} {e : PyErr} (hphase : call.phase = .stored)
      (hop : call.operation = .unregister entity uuid)
      (hremove : removeDetails entity uuid file = .error e) :
      Writes attributes file call { call with phase := .raised e }
  | removed {entity : Entity} {uuid : Str} (hphase : call.phase = .stored)
      (hop : call.operation = .unregister entity uuid)
      (hremove : removeDetails entity uuid file = .ok ()) :
      Writes attributes file call { call with phase := .returned .done }
  | properties {entity : Entity} {properties : List (Str × PropertyValue)}
      (hphase : call.phase = .stored) (hop : call.operation = .setProperties entity properties) :
      Writes attributes file call { call with phase := .returned .done }

theorem write_cases {attributes : Attributes} {file : Option Details} {call call' : Call}
    (h : call.write attributes file = some call') : Writes attributes file call call' := by
  unfold Call.write at h
  split at h
  · next hphase hop =>
    split at h
    · next hid =>
      cases h
      exact .unset hphase hop hid
    · next hid =>
      split at h
      · next hstore =>
        cases h
        exact .storeFailed hphase hop hid hstore
      · next hstore =>
        cases h
        exact .stored hphase hop hid hstore
  · next hphase hop =>
    split at h
    · next hremove =>
      cases h
      exact .removeFailed hphase hop hremove
    · next hremove =>
      cases h
      exact .removed hphase hop hremove
  · next hphase hop =>
    cases h
    exact .properties hphase hop
  · cases h

inductive Advances (attributes : Attributes) (call : Call) : Move → Attributes → Call → Prop
  | rejected {e : PyErr} (hphase : call.phase = .entered)
      (hbuild : call.operation.build = .error e) :
      Advances attributes call .send attributes { call with phase := .raised e }
  | sent (hphase : call.phase = .entered) (hbuild : call.operation.build = .ok ()) :
      Advances attributes call .send attributes { call with phase := .waiting }
  | sendFailed {e : PyErr} (hphase : call.phase = .entered) :
      Advances attributes call (.sendFails e) attributes { call with phase := .raised e }
  | received {m : Message} {rest : List Message} (hphase : call.phase = .waiting)
      (hqueue : call.userQueue = m :: rest) :
      Advances attributes call .receive
        (Call.receive attributes { call with userQueue := rest } m).1
        (Call.receive attributes { call with userQueue := rest } m).2
  | timedOut (hphase : call.phase = .waiting) (hqueue : call.userQueue = []) :
      Advances attributes call .timeout attributes { call with phase := .raised .exception }
  | tested {entity : Entity} (hphase : call.phase = .stored)
      (hop : call.operation = .register entity) :
      Advances attributes call .test attributes
        { call with phase := testEntityId attributes.regEntityId }
  | wrote {file : Option Details} {call' : Call} (hwrite : Writes attributes file call call') :
      Advances attributes call (.write file) attributes call'
  | writeFailed {e : PyErr} {call' : Call} (hwrite : Writes attributes none call call') :
      Advances attributes call (.writeFails e) attributes { call with phase := .raised e }
  | built (hphase : call.phase = .written) :
      Advances attributes call .build attributes
        { call with phase := .returned (.entity attributes.regEntityId) }
  | listed {entity : Entity} (hphase : call.phase = .stored)
      (hop : call.operation = .getProperties entity) :
      Advances attributes call .build attributes
        { call with phase := .returned (.properties attributes.propList) }

theorem advance_cases {attributes attributes' : Attributes} {call call' : Call} {move : Move}
    (h : call.advance attributes move = some (attributes', call')) :
    Advances attributes call move attributes' call' := by
  unfold Call.advance at h
  split at h
  · split at h
    · next hphase =>
      split at h
      · next hbuild =>
        cases h
        exact .rejected hphase hbuild
      · next hbuild =>
        cases h
        exact .sent hphase hbuild
    · cases h
  · split at h
    · next hphase =>
      cases h
      exact .sendFailed hphase.1
    · cases h
  · split at h
    · next hphase hqueue =>
      have heq := Option.some.inj h
      have hadvances : Advances attributes call .receive _ _ := .received hphase hqueue
      rwa [heq] at hadvances
    · cases h
  · split at h
    · next hphase =>
      cases h
      exact .timedOut hphase.1 hphase.2
    · cases h
  · split at h
    · next hphase hop =>
      cases h
      exact .tested hphase hop
    · cases h
  · obtain ⟨written, hwrite, heq⟩ := Option.map_eq_some_iff.mp h
    cases heq
    exact .wrote (write_cases hwrite)
  · split at h
    · next hsome =>
      cases h
      obtain ⟨written, hwrite⟩ := Option.isSome_iff_exists.mp hsome
      exact .writeFailed (write_cases hwrite)
    · cases h
  · split at h
    · next hphase =>
      cases h
      exact .built hphase
    · next hphase hop =>
      cases h
      exact .listed hphase hop
    · cases h

inductive Steps : Action → Center → Center → Prop
  | refused {s : Center} {operation : Operation} {e : PyErr} (h : operation.check = .error e) :
      Steps (.call operation) s s
  | entered {s : Center} {operation : Operation} (h : operation.check = .ok ()) :
      Steps (.call operation) s (s.enter operation)
  | moved {s : Center} {c : ℕ} {move : Move} {call call' : Call} {attributes : Attributes}
      (hcall : s.calls[c]? = some call)
      (h : Advances s.attributes call move attributes call') :
      Steps (.move c move) s { s with attributes := attributes, calls := s.calls.set c call' }
  | arrived {s : Center} (m : Message) :
      Steps (.arrive m) s { s with recvMsgQueue := s.recvMsgQueue ++ [m] }
  | found {s : Center} {m : Message} {rest : List Message} {id c : ℕ}
      (hidle : s.dispatcher = .idle) (hqueue : s.recvMsgQueue = m :: rest)
      (hid : m.key = some id) (hlookup : s.reqDict.lookup id = some c) :
      Steps .take s
        { s with
          recvMsgQueue := rest
          calls := s.calls.map (Call.note m s.calls.length)
          dispatcher := .found m c }
  | unknown {s : Center} {m : Message} {rest : List Message}
      (hidle : s.dispatcher = .idle) (hqueue : s.recvMsgQueue = m :: rest)
      (hnone : ∀ id, m.key = some id → s.reqDict.lookup id = none) :
      Steps .take s
        { s with
          recvMsgQueue := rest
          calls := s.calls.map (Call.note m s.calls.length)
          dispatcher := .idle }
  | removed {s : Center} {m : Message} {id c : ℕ} (hfound : s.dispatcher = .found m c)
      (hid : m.key = some id) (hmem : id ∈ s.reqDict) :
      Steps .remove s { s with reqDict := s.reqDict.erase id, dispatcher := .removed m c }
  | removeRaised {s : Center} {m : Message} {c : ℕ} (hfound : s.dispatcher = .found m c)
      (hnone : ∀ id, m.key = some id → id ∉ s.reqDict) :
      Steps .remove s { s with raises := s.raises + 1, dispatcher := .idle }
  | given {s : Center} {m : Message} {c : ℕ} (hremoved : s.dispatcher = .removed m c) :
      Steps .put s { s with calls := s.calls.modify c (Call.give m), dispatcher := .idle }

theorem step_cases {a : Action} {s t : Center} (h : step a s = some t) : Steps a s t := by
  cases a with
  | call operation =>
    rw [step] at h
    split at h
    · next hcheck =>
      obtain rfl := Option.some.inj h
      exact .refused hcheck
    · next hcheck =>
      obtain rfl := Option.some.inj h
      exact .entered hcheck
  | move c move =>
    rw [step] at h
    split at h
    · simp at h
    · next call hcall =>
      obtain ⟨⟨attributes, call'⟩, hadvance, rfl⟩ := Option.map_eq_some_iff.mp h
      exact .moved hcall (advance_cases hadvance)
  | arrive m =>
    obtain rfl := Option.some.inj h
    exact .arrived m
  | take =>
    simp only [step, Center.take] at h
    split at h
    · next m rest hidle hqueue =>
      obtain rfl := Option.some.inj h
      cases hid : m.key with
      | none =>
        have hnone (id : ℕ) (h : m.key = some id) : s.reqDict.lookup id = none := by
          simp [hid] at h
        exact .unknown hidle hqueue hnone
      | some id =>
        cases hlookup : s.reqDict.lookup id with
        | none =>
          simp only [Option.bind_some, hlookup]
          refine .unknown hidle hqueue fun id' hid' ↦ ?_
          rw [hid] at hid'
          exact Option.some.inj hid' ▸ hlookup
        | some c =>
          simp only [Option.bind_some, hlookup]
          exact .found hidle hqueue hid hlookup
    · simp at h
  | remove =>
    simp only [step, Center.remove] at h
    split at h
    · next m c hfound =>
      obtain rfl := Option.some.inj h
      split
      · next id hid =>
        split
        · next hmem => exact .removed hfound hid hmem
        · next hmem =>
          refine .removeRaised hfound fun id' hid' ↦ ?_
          rw [hid] at hid'
          exact Option.some.inj hid' ▸ hmem
      · next hid =>
        refine .removeRaised hfound fun id' hid' ↦ ?_
        simp [hid] at hid'
    · simp at h
  | put =>
    simp only [step, Center.put] at h
    split at h
    · next m c hremoved =>
      obtain rfl := Option.some.inj h
      exact .given hremoved
    · simp at h

theorem Reaches.invariant {condition : Center → Action → Prop} {P : Center → Prop}
    (hinit : P Center.initial)
    (hstep : ∀ s a t, Reaches condition s → condition s a → Steps a s t → P s → P t) {s : Center}
    (h : Reaches condition s) : P s := by
  induction h with
  | init => exact hinit
  | step h hcond hs ih => exact hstep _ _ _ h hcond (step_cases hs) ih

theorem Reaches.run {condition : Center → Action → Prop} [∀ s a, Decidable (condition s a)]
    {actions : List Action} {s t : Center} (h : Reaches condition s)
    (hrun : run condition actions s = some t) : Reaches condition t := by
  induction actions generalizing s with
  | nil => exact Option.some.inj hrun ▸ h
  | cons a rest ih =>
    rw [IotControlCenter.run] at hrun
    split at hrun
    · next hcond =>
      obtain ⟨u, hu, hrest⟩ := Option.bind_eq_some_iff.mp hrun
      exact ih (.step h hcond hu) hrest
    · simp at hrun

section Frames

variable {call call' : Call} {attributes attributes' : Attributes} {move : Move}

theorem receive_frame (attributes : Attributes) (call : Call) (m : Message) :
    let call' := (Call.receive attributes call m).2
    call'.operation = call.operation ∧ call'.transactionId = call.transactionId ∧
      call'.received = call.received ∧ call'.first = call.first ∧
      call'.userQueue = call.userQueue ∧ call'.record = call.record := by
  unfold Call.receive
  split
  · split <;> exact ⟨rfl, rfl, rfl, rfl, rfl, rfl⟩
  · split <;> exact ⟨rfl, rfl, rfl, rfl, rfl, rfl⟩
  · split
    · exact ⟨rfl, rfl, rfl, rfl, rfl, rfl⟩
    · exact ⟨rfl, rfl, rfl, rfl, rfl, rfl⟩
    · split <;> exact ⟨rfl, rfl, rfl, rfl, rfl, rfl⟩

theorem Writes.frame {file : Option Details} (h : Writes attributes file call call') :
    call'.operation = call.operation ∧ call'.transactionId = call.transactionId ∧
      call'.received = call.received ∧ call'.first = call.first ∧
      call'.userQueue = call.userQueue := by
  cases h <;> exact ⟨rfl, rfl, rfl, rfl, rfl⟩

theorem Advances.frame (h : Advances attributes call move attributes' call') :
    call'.operation = call.operation ∧ call'.transactionId = call.transactionId ∧
      call'.received = call.received ∧ call'.first = call.first := by
  cases h with
  | @received m rest =>
    obtain ⟨hop, hid, hreceived, hfirst, -⟩ :=
      receive_frame attributes { call with userQueue := rest } m
    exact ⟨hop, hid, hreceived, hfirst⟩
  | wrote hwrite =>
    obtain ⟨hop, hid, hreceived, hfirst, -⟩ := hwrite.frame
    exact ⟨hop, hid, hreceived, hfirst⟩
  | rejected | sent | sendFailed | timedOut | tested | writeFailed | built | listed =>
    exact ⟨rfl, rfl, rfl, rfl⟩

theorem note_frame (m : Message) (n : ℕ) (call : Call) :
    (call.note m n).operation = call.operation ∧
      (call.note m n).transactionId = call.transactionId ∧
      (call.note m n).received = call.received ∧ (call.note m n).phase = call.phase ∧
      (call.note m n).userQueue = call.userQueue ∧ (call.note m n).record = call.record := by
  unfold Call.note
  split <;> exact ⟨rfl, rfl, rfl, rfl, rfl, rfl⟩

end Frames

theorem Steps.operation {a : Action} {s t : Center} (h : Steps a s t) {c : ℕ} {call : Call}
    (hcall : t.calls[c]? = some call) :
    (∃ old, s.calls[c]? = some old ∧ call.operation = old.operation) ∨
      ∃ operation : Operation, operation.check = .ok () ∧ call.operation = operation.renamed := by
  cases h with
  | refused | arrived | removed | removeRaised => exact .inl ⟨call, hcall, rfl⟩
  | @entered _ operation hcheck =>
    simp only [Center.enter, List.getElem?_append] at hcall
    split at hcall
    · exact .inl ⟨call, hcall, rfl⟩
    · obtain rfl := List.mem_singleton.mp (List.mem_of_getElem? hcall)
      exact .inr ⟨operation, hcheck, rfl⟩
  | @moved _ d _ old call' _ hold hadvance =>
    obtain ⟨hlt, -⟩ := List.getElem?_eq_some_iff.mp hold
    by_cases hd : d = c
    · obtain rfl := hd
      obtain rfl : call' = call := by simpa [hlt] using hcall
      exact .inl ⟨old, hold, hadvance.frame.1⟩
    · rw [List.getElem?_set_ne hd] at hcall
      exact .inl ⟨call, hcall, rfl⟩
  | found | unknown =>
    rw [List.getElem?_map] at hcall
    obtain ⟨old, hold, rfl⟩ := Option.map_eq_some_iff.mp hcall
    exact .inl ⟨old, hold, (note_frame _ _ old).1⟩
  | given =>
    rw [List.getElem?_modify] at hcall
    obtain ⟨old, hold, rfl⟩ := Option.map_eq_some_iff.mp hcall
    refine .inl ⟨old, hold, ?_⟩
    split <;> rfl

def Dispatcher.Holds (d : Dispatcher) (m : Message) (c : ℕ) : Prop :=
  d = .found m c ∨ d = .removed m c

/-- Table, queues and dispatcher agree on which request has which id, and a request is in the
table only until a message was found for it. -/
structure Routed (s : Center) : Prop where
  counter : s.counter = s.calls.length % 2 ^ 24
  ids : ∀ (c : ℕ) (call : Call), s.calls[c]? = some call →
    call.transactionId = (c + 1) % 2 ^ 24 * 2
  table : ∀ id c : ℕ, s.reqDict.lookup id = some c → ∃ call, s.calls[c]? = some call ∧
    call.transactionId = id ∧ call.received = [] ∧ ∀ m, s.dispatcher ≠ .removed m c
  found : ∀ m c, s.dispatcher = .found m c → ∃ call, s.calls[c]? = some call ∧
    m.key = some call.transactionId ∧ call.received = [] ∧
    call.transactionId ∈ s.reqDict
  removed : ∀ m c, s.dispatcher = .removed m c → ∃ call, s.calls[c]? = some call ∧
    m.key = some call.transactionId ∧ call.received = []
  received : ∀ (c : ℕ) (call : Call), s.calls[c]? = some call → call.received.length ≤ 1 ∧
    ∀ m ∈ call.received, m.key = some call.transactionId
  raises : s.raises = 0

theorem routed_initial : Routed Center.initial where
  counter := rfl
  ids c call h := by simp [Center.initial] at h
  table id c h := by simp [Center.initial] at h
  found m c h := by simp [Center.initial] at h
  removed m c h := by simp [Center.initial] at h
  received c call h := by simp [Center.initial] at h
  raises := rfl

/-- The calls with their ids and with what was put into their queues are the same. -/
structure Kept (calls calls' : List Call) : Prop where
  length : calls'.length = calls.length
  ids : ∀ c : ℕ, calls'[c]?.map Call.transactionId = calls[c]?.map Call.transactionId
  received : ∀ c : ℕ, calls'[c]?.map Call.received = calls[c]?.map Call.received

theorem Kept.symm {calls calls' : List Call} (h : Kept calls calls') : Kept calls' calls :=
  ⟨h.length.symm, fun c ↦ (h.ids c).symm, fun c ↦ (h.received c).symm⟩

theorem Kept.exists {calls calls' : List Call} (h : Kept calls calls') {c : ℕ} {call : Call}
    (hcall : calls[c]? = some call) : ∃ call', calls'[c]? = some call' ∧
      call'.transactionId = call.transactionId ∧ call'.received = call.received := by
  have hid := h.ids c
  have hreceived := h.received c
  rw [hcall] at hid hreceived
  obtain ⟨call', hcall', hid'⟩ := Option.map_eq_some_iff.mp hid
  rw [hcall'] at hreceived
  exact ⟨call', hcall', hid', Option.some.inj hreceived⟩

theorem kept_set {calls : List Call} {c : ℕ} {call call' : Call} (hcall : calls[c]? = some call)
    (hid : call'.transactionId = call.transactionId) (hreceived : call'.received = call.received) :
    Kept calls (calls.set c call') := by
  obtain ⟨hlt, rfl⟩ := List.getElem?_eq_some_iff.mp hcall
  refine ⟨List.length_set, fun d ↦ ?_, fun d ↦ ?_⟩
  · rw [List.getElem?_set]
    split
    · next h => simp [← h, hlt, hid]
    · rfl
  · rw [List.getElem?_set]
    split
    · next h => simp [← h, hlt, hreceived]
    · rfl

theorem kept_note (m : Message) (n : ℕ) (calls : List Call) :
    Kept calls (calls.map (Call.note m n)) := by
  refine ⟨List.length_map .., fun c ↦ ?_, fun c ↦ ?_⟩
  · rw [List.getElem?_map, Option.map_map]
    congr 1
    funext call
    exact (note_frame m n call).2.1
  · rw [List.getElem?_map, Option.map_map]
    congr 1
    funext call
    exact (note_frame m n call).2.2.1

namespace Routed

variable {s t : Center}

theorem of_kept (h : Routed s) (hcounter : t.counter = s.counter) (hdict : t.reqDict = s.reqDict)
    (hdispatcher : t.dispatcher = s.dispatcher) (hraises : t.raises = s.raises)
    (hkept : Kept s.calls t.calls) : Routed t where
  counter := by rw [hcounter, hkept.length, h.counter]
  ids c call hcall := by
    obtain ⟨old, hold, hid, -⟩ := hkept.symm.exists hcall
    rw [← hid, h.ids c old hold]
  table id c hlookup := by
    rw [hdict] at hlookup
    obtain ⟨old, hold, hid, hreceived, hheld⟩ := h.table id c hlookup
    obtain ⟨call, hcall, hid', hreceived'⟩ := hkept.exists hold
    exact ⟨call, hcall, hid'.trans hid, hreceived'.trans hreceived, hdispatcher ▸ hheld⟩
  found m c hfound := by
    rw [hdispatcher] at hfound
    obtain ⟨old, hold, hm, hreceived, hmem⟩ := h.found m c hfound
    obtain ⟨call, hcall, hid', hreceived'⟩ := hkept.exists hold
    exact ⟨call, hcall, hid' ▸ hm, hreceived'.trans hreceived, by rw [hid', hdict]; exact hmem⟩
  removed m c hremoved := by
    rw [hdispatcher] at hremoved
    obtain ⟨old, hold, hm, hreceived⟩ := h.removed m c hremoved
    obtain ⟨call, hcall, hid', hreceived'⟩ := hkept.exists hold
    exact ⟨call, hcall, hid' ▸ hm, hreceived'.trans hreceived⟩
  received c call hcall := by
    obtain ⟨old, hold, hid, hreceived⟩ := hkept.symm.exists hcall
    rw [← hid, ← hreceived]
    exact h.received c old hold
  raises := by rw [hraises, h.raises]

theorem nextCounter_eq (h : Routed s) : nextCounter s.counter = (s.calls.length + 1) % 2 ^ 24 := by
  rw [nextCounter, h.counter]
  omega

end Routed

section Enter

variable {s : Center} {operation : Operation}

theorem getElem?_enter (c : ℕ) :
    (s.enter operation).calls[c]? =
      if c = s.calls.length then
        some ⟨operation.renamed, nextCounter s.counter * 2, .entered, [], none, [], none⟩
      else s.calls[c]? := by
  simp only [Center.enter]
  split
  · next h => rw [h, List.getElem?_concat_length]
  · next h =>
    rcases Nat.lt_or_gt_of_ne h with hlt | hgt
    · rw [List.getElem?_append_left hlt]
    · rw [List.getElem?_eq_none (by simp; omega), List.getElem?_eq_none (by omega)]

theorem getElem?_enter_old {c : ℕ} {call : Call} (h : s.calls[c]? = some call) :
    (s.enter operation).calls[c]? = some call := by
  obtain ⟨hlt, -⟩ := List.getElem?_eq_some_iff.mp h
  rw [getElem?_enter, if_neg (by omega), h]

theorem lookup_enter (id : ℕ) :
    (s.enter operation).reqDict.lookup id =
      if id = nextCounter s.counter * 2 then some s.calls.length else s.reqDict.lookup id := by
  simp only [Center.enter]
  split
  · next h => rw [h, AList.lookup_insert]
  · next h => rw [AList.lookup_insert_ne h]

end Enter

namespace Routed

variable {s : Center}

theorem enter (h : Routed s) (operation : Operation) : Routed (s.enter operation) where
  counter := by
    have hlength : (s.enter operation).calls.length = s.calls.length + 1 := by simp [Center.enter]
    rw [hlength]
    exact h.nextCounter_eq
  ids c call hcall := by
    rw [getElem?_enter] at hcall
    split at hcall
    · next hc =>
      obtain rfl := Option.some.inj hcall
      rw [hc, ← h.nextCounter_eq]
    · exact h.ids c call hcall
  table id c hlookup := by
    rw [lookup_enter] at hlookup
    split at hlookup
    · next hid =>
      obtain rfl := Option.some.inj hlookup
      refine ⟨_, by rw [getElem?_enter, if_pos rfl], hid.symm, rfl, fun m hm ↦ ?_⟩
      obtain ⟨call, hcall, -⟩ := h.removed m _ hm
      simp at hcall
    · obtain ⟨call, hcall, hrest⟩ := h.table id c hlookup
      exact ⟨call, getElem?_enter_old hcall, hrest⟩
  found m c hfound := by
    obtain ⟨call, hcall, hm, hreceived, hmem⟩ := h.found m c hfound
    exact ⟨call, getElem?_enter_old hcall, hm, hreceived,
      AList.mem_insert _ |>.mpr (.inr hmem)⟩
  removed m c hremoved := by
    obtain ⟨call, hcall, hrest⟩ := h.removed m c hremoved
    exact ⟨call, getElem?_enter_old hcall, hrest⟩
  received c call hcall := by
    rw [getElem?_enter] at hcall
    split at hcall
    · obtain rfl := Option.some.inj hcall
      simp
    · exact h.received c call hcall
  raises := h.raises

theorem take_found (h : Routed s) {m : Message} {rest : List Message} {id c : ℕ}
    (hid : m.key = some id) (hlookup : s.reqDict.lookup id = some c) :
    Routed { s with
      recvMsgQueue := rest
      calls := s.calls.map (Call.note m s.calls.length)
      dispatcher := .found m c } := by
  have hkept := kept_note m s.calls.length s.calls
  have hbase : Routed
      { s with recvMsgQueue := rest, calls := s.calls.map (Call.note m s.calls.length) } :=
    h.of_kept rfl rfl rfl rfl hkept
  refine { hbase with table := ?_, found := ?_, removed := ?_ }
  · intro id' c' hlookup'
    obtain ⟨call, hcall, hid', hreceived, -⟩ := hbase.table id' c' hlookup'
    exact ⟨call, hcall, hid', hreceived, by simp⟩
  · rintro m' c' heq
    obtain ⟨rfl, rfl⟩ := Dispatcher.found.inj heq
    obtain ⟨call, hcall, rfl, hreceived, -⟩ := hbase.table id c hlookup
    exact ⟨call, hcall, hid, hreceived, AList.lookup_isSome.mp (by simp [hlookup])⟩
  · intro m' c' heq
    cases heq

theorem take_unknown (h : Routed s) (m : Message) (rest : List Message)
    (hidle : s.dispatcher = .idle) :
    Routed { s with
      recvMsgQueue := rest
      calls := s.calls.map (Call.note m s.calls.length)
      dispatcher := .idle } :=
  h.of_kept rfl rfl hidle.symm rfl (kept_note m s.calls.length s.calls)

theorem remove (h : Routed s) {m : Message} {id c : ℕ} (hfound : s.dispatcher = .found m c)
    (hid : m.key = some id) :
    Routed { s with reqDict := s.reqDict.erase id, dispatcher := .removed m c } := by
  obtain ⟨call, hcall, hm, hreceived, -⟩ := h.found m c hfound
  obtain rfl : id = call.transactionId := Option.some.inj (hid.symm.trans hm)
  refine { h with table := ?_, found := ?_, removed := ?_ }
  · intro id' c' hlookup
    have hne : id' ≠ call.transactionId := by
      rintro rfl
      simp at hlookup
    rw [AList.lookup_erase_ne hne] at hlookup
    obtain ⟨call', hcall', hid', hreceived', -⟩ := h.table id' c' hlookup
    refine ⟨call', hcall', hid', hreceived', fun m' heq ↦ ?_⟩
    obtain ⟨-, rfl⟩ := Dispatcher.removed.inj heq
    obtain rfl := Option.some.inj (hcall.symm.trans hcall')
    exact hne hid'.symm
  · intro m' c' heq
    cases heq
  · intro m' c' heq
    obtain ⟨rfl, rfl⟩ := Dispatcher.removed.inj heq
    exact ⟨call, hcall, hm, hreceived⟩

theorem getElem?_give {calls : List Call} {m : Message} {c d : ℕ} {call : Call}
    (hcall : calls[c]? = some call) :
    (calls.modify c (Call.give m))[d]? = if d = c then some (call.give m) else calls[d]? := by
  rw [List.getElem?_modify]
  by_cases hd : c = d
  · rw [← hd, hcall]
    simp
  · rw [if_neg (Ne.symm hd)]
    simp [hd]

theorem put (h : Routed s) {m : Message} {c : ℕ} (hremoved : s.dispatcher = .removed m c) :
    Routed { s with calls := s.calls.modify c (Call.give m), dispatcher := .idle } := by
  obtain ⟨call, hcall, hm, hreceived⟩ := h.removed m c hremoved
  refine { h with
    counter := ?_, ids := ?_, table := ?_, found := ?_, removed := ?_, received := ?_ }
  · simpa using h.counter
  · intro d call' hcall'
    rw [getElem?_give hcall] at hcall'
    split at hcall'
    · next hd =>
      obtain rfl := Option.some.inj hcall'
      exact h.ids d call (hd ▸ hcall)
    · exact h.ids d call' hcall'
  · intro id d hlookup
    obtain ⟨call', hcall', hid', hreceived', hheld⟩ := h.table id d hlookup
    have hd : d ≠ c := by
      rintro rfl
      exact hheld m hremoved
    exact ⟨call', by rw [getElem?_give hcall, if_neg hd, hcall'], hid', hreceived', by simp⟩
  · intro m' c' heq
    cases heq
  · intro m' c' heq
    cases heq
  · intro d call' hcall'
    rw [getElem?_give hcall] at hcall'
    split at hcall'
    · obtain rfl := Option.some.inj hcall'
      simpa [Call.give, hreceived] using hm
    · exact h.received d call' hcall'

theorem steps {a : Action} {t : Center} (hstep : Steps a s t) (h : Routed s) : Routed t := by
  cases hstep with
  | refused => exact h
  | entered => exact h.enter _
  | moved hcall hadvance =>
    obtain ⟨-, hid, hreceived, -⟩ := hadvance.frame
    exact h.of_kept rfl rfl rfl rfl (kept_set hcall hid hreceived)
  | arrived => exact h.of_kept rfl rfl rfl rfl ⟨rfl, fun _ ↦ rfl, fun _ ↦ rfl⟩
  | found _ _ hid hlookup => exact h.take_found hid hlookup
  | unknown hidle => exact h.take_unknown _ _ hidle
  | removed hfound hid => exact h.remove hfound hid
  | removeRaised hfound hnone =>
    obtain ⟨call, -, hm, -, hmem⟩ := h.found _ _ hfound
    exact absurd hmem (hnone _ hm)
  | given hremoved => exact h.put hremoved

end Routed

theorem Reaches.routed {condition : Center → Action → Prop} {s : Center}
    (h : Reaches condition s) : Routed s :=
  h.invariant routed_initial fun _ _ _ _ _ hstep hs ↦ hs.steps hstep

/-- How many ids come after that of the call that a message was found for, once there are `n`
and one more. -/
def Dispatcher.further (n : ℕ) : Dispatcher → ℕ
  | .found _ c => n - c
  | _ => 0

/-- While the dispatcher is at work on a message for a call, fewer than `2 ^ 24` further ids are
allocated. -/
def Prompt (s : Center) : Action → Prop
  | .call _ => s.dispatcher.further s.calls.length < 2 ^ 24
  | _ => True

instance : ∀ (s : Center) (a : Action), Decidable (Prompt s a)
  | s, .call _ => inferInstanceAs (Decidable (s.dispatcher.further s.calls.length < 2 ^ 24))
  | _, .move _ _ | _, .arrive _ | _, .take | _, .remove | _, .put =>
    inferInstanceAs (Decidable True)

/-- A call that no message with its id was taken for yet is in the table, unless its id was
allocated again; and the first such message is given to it. -/
structure Served (s : Center) : Prop where
  live : ∀ (c : ℕ) (call : Call), s.calls[c]? = some call → call.first = none →
    s.calls.length - (c + 1) < 2 ^ 24 → s.reqDict.lookup call.transactionId = some c
  noted : ∀ m d, s.dispatcher = .found m d → ∀ (c : ℕ) (call : Call), s.calls[c]? = some call →
    m.key = some call.transactionId → call.first ≠ none
  answered : ∀ (c : ℕ) (call : Call) m n, s.calls[c]? = some call → call.first = some (m, n) →
    n - (c + 1) < 2 ^ 24 → s.dispatcher.Holds m c ∨ call.received = [m]
  past : ∀ (c : ℕ) (call : Call) m n, s.calls[c]? = some call → call.first = some (m, n) →
    n ≤ s.calls.length

theorem served_initial : Served Center.initial where
  live c call h := by simp [Center.initial] at h
  noted m d h := by simp [Center.initial] at h
  answered c call m n h := by simp [Center.initial] at h
  past c call m n h := by simp [Center.initial] at h

theorem note_first {m : Message} {n : ℕ} {call : Call} :
    (call.note m n).first =
      if m.key = some call.transactionId ∧ call.first = none then some (m, n)
      else call.first := by
  unfold Call.note
  split <;> rfl

namespace Served

variable {s t : Center}

theorem of_kept (h : Served s) (hdict : t.reqDict = s.reqDict)
    (hdispatcher : t.dispatcher = s.dispatcher) (hkept : Kept s.calls t.calls)
    (hfirst : ∀ c : ℕ, t.calls[c]?.map Call.first = s.calls[c]?.map Call.first) : Served t := by
  have hback {c : ℕ} {call : Call} (hcall : t.calls[c]? = some call) : ∃ old,
      s.calls[c]? = some old ∧ old.transactionId = call.transactionId ∧
        old.received = call.received ∧ old.first = call.first := by
    obtain ⟨old, hold, hid, hreceived⟩ := hkept.symm.exists hcall
    have heq := hfirst c
    rw [hcall, hold] at heq
    exact ⟨old, hold, hid, hreceived, (Option.some.inj heq).symm⟩
  refine ⟨fun c call hcall hnone hlt ↦ ?_, fun m d hfound c call hcall hm ↦ ?_,
    fun c call m n hcall hsome hlt ↦ ?_, fun c call m n hcall hsome ↦ ?_⟩
  · obtain ⟨old, hold, hid, -, hfirst⟩ := hback hcall
    rw [hdict, ← hid]
    exact h.live c old hold (hfirst.trans hnone) (hkept.length ▸ hlt)
  · obtain ⟨old, hold, hid, -, hfirst⟩ := hback hcall
    rw [← hfirst]
    exact h.noted m d (hdispatcher ▸ hfound) c old hold (hid ▸ hm)
  · obtain ⟨old, hold, -, hreceived, hfirst⟩ := hback hcall
    rw [hdispatcher, ← hreceived]
    exact h.answered c old m n hold (hfirst.trans hsome) hlt
  · obtain ⟨old, hold, -, -, hfirst⟩ := hback hcall
    rw [hkept.length]
    exact h.past c old m n hold (hfirst.trans hsome)

theorem enter (h : Served s) (hs : Routed s) {operation : Operation}
    (hprompt : Prompt s (.call operation)) : Served (s.enter operation) := by
  have hlength : (s.enter operation).calls.length = s.calls.length + 1 := by simp [Center.enter]
  refine ⟨fun c call hcall hnone hlt ↦ ?_, fun m d hfound c call hcall hm ↦ ?_,
    fun c call m n hcall hsome hlt ↦ ?_, fun c call m n hcall hsome ↦ ?_⟩
  · rw [getElem?_enter] at hcall
    rw [lookup_enter]
    split at hcall
    · next hc =>
      obtain rfl := Option.some.inj hcall
      rw [if_pos rfl, hc]
    · next hc =>
      obtain ⟨hlt', -⟩ := List.getElem?_eq_some_iff.mp hcall
      have hid := hs.ids c call hcall
      have hne : call.transactionId ≠ nextCounter s.counter * 2 := by
        rw [hid, hs.nextCounter_eq]
        omega
      rw [if_neg hne]
      exact h.live c call hcall hnone (by omega)
  · rw [getElem?_enter] at hcall
    split at hcall
    · obtain rfl := Option.some.inj hcall
      obtain ⟨old, hold, hm', -⟩ := hs.found m d hfound
      obtain ⟨hlt, -⟩ := List.getElem?_eq_some_iff.mp hold
      have hclose : s.calls.length - d < 2 ^ 24 := by
        have hheld : s.dispatcher = .found m d := hfound
        simpa only [Prompt, hheld, Dispatcher.further] using hprompt
      have hid := hs.ids d old hold
      have heq : old.transactionId = nextCounter s.counter * 2 :=
        Option.some.inj (hm'.symm.trans hm)
      rw [hid, hs.nextCounter_eq] at heq
      omega
    · exact h.noted m d hfound c call hcall hm
  · rw [getElem?_enter] at hcall
    split at hcall
    · obtain rfl := Option.some.inj hcall
      simp at hsome
    · exact h.answered c call m n hcall hsome hlt
  · rw [getElem?_enter] at hcall
    split at hcall
    · obtain rfl := Option.some.inj hcall
      simp at hsome
    · have hle := h.past c call m n hcall hsome
      omega

theorem take (h : Served s) {m : Message} {rest : List Message}
    (hidle : s.dispatcher = .idle) {d : Dispatcher}
    (hd : ∀ id c, m.key = some id → s.reqDict.lookup id = some c → d = .found m c)
    (hd' : ∀ m' c, d = .found m' c → m' = m) :
    Served { s with
      recvMsgQueue := rest
      calls := s.calls.map (Call.note m s.calls.length)
      dispatcher := d } := by
  have hback {c : ℕ} {call : Call}
      (hcall : (s.calls.map (Call.note m s.calls.length))[c]? = some call) :
      ∃ old, s.calls[c]? = some old ∧ call = old.note m s.calls.length := by
    rw [List.getElem?_map] at hcall
    obtain ⟨old, hold, heq⟩ := Option.map_eq_some_iff.mp hcall
    exact ⟨old, hold, heq.symm⟩
  refine ⟨fun c call hcall hnone hlt ↦ ?_, fun m' d' hfound c call hcall hm ↦ ?_,
    fun c call m' n hcall hsome hlt ↦ ?_, fun c call m' n hcall hsome ↦ ?_⟩
  · obtain ⟨old, hold, rfl⟩ := hback hcall
    rw [note_first] at hnone
    split at hnone
    · simp at hnone
    · rw [(note_frame m s.calls.length old).2.1]
      exact h.live c old hold hnone (by simpa using hlt)
  · obtain ⟨old, hold, rfl⟩ := hback hcall
    rw [hd' m' d' hfound, (note_frame m s.calls.length old).2.1] at hm
    rw [note_first]
    split
    · simp
    · next hcond => exact fun hnone ↦ hcond ⟨hm, hnone⟩
  · obtain ⟨old, hold, rfl⟩ := hback hcall
    rw [note_first] at hsome
    split at hsome
    · next hcond =>
      obtain ⟨rfl, rfl⟩ := Prod.mk.inj (Option.some.inj hsome)
      have hlookup := h.live c old hold hcond.2 hlt
      exact .inl (.inl (hd _ c hcond.1 hlookup))
    · rw [(note_frame m s.calls.length old).2.2.1]
      rcases h.answered c old m' n hold hsome hlt with hholds | hreceived
      · rcases hholds with hfound | hremoved
        · rw [hidle] at hfound
          cases hfound
        · rw [hidle] at hremoved
          cases hremoved
      · exact .inr hreceived
  · obtain ⟨old, hold, rfl⟩ := hback hcall
    rw [List.length_map]
    rw [note_first] at hsome
    split at hsome
    · exact Nat.le_of_eq (Prod.mk.inj (Option.some.inj hsome)).2.symm
    · exact h.past c old m' n hold hsome

theorem remove (h : Served s) {m : Message} {id c : ℕ} (hfound : s.dispatcher = .found m c)
    (hid : m.key = some id) :
    Served { s with reqDict := s.reqDict.erase id, dispatcher := .removed m c } := by
  refine ⟨fun d call hcall hnone hlt ↦ ?_, fun m' d' heq ↦ ?_,
    fun d call m' n hcall hsome hlt ↦ ?_, h.past⟩
  · have hne : call.transactionId ≠ id := by
      rintro rfl
      exact h.noted m c hfound d call hcall hid hnone
    rw [AList.lookup_erase_ne hne]
    exact h.live d call hcall hnone hlt
  · cases heq
  · rcases h.answered d call m' n hcall hsome hlt with hholds | hreceived
    · rcases hholds with heq | heq
      · obtain ⟨rfl, rfl⟩ := Dispatcher.found.inj (hfound.symm.trans heq)
        exact .inl (.inr rfl)
      · rw [hfound] at heq
        cases heq
    · exact .inr hreceived

theorem put (h : Served s) (hs : Routed s) {m : Message} {c : ℕ}
    (hremoved : s.dispatcher = .removed m c) :
    Served { s with calls := s.calls.modify c (Call.give m), dispatcher := .idle } := by
  obtain ⟨call, hcall, -, hempty⟩ := hs.removed m c hremoved
  refine ⟨fun d call' hcall' hnone hlt ↦ ?_, fun m' d' heq ↦ ?_,
    fun d call' m' n hcall' hsome hlt ↦ ?_, fun d call' m' n hcall' hsome ↦ ?_⟩
  · rw [Routed.getElem?_give hcall] at hcall'
    rw [List.length_modify] at hlt
    split at hcall'
    · next hd =>
      obtain rfl := Option.some.inj hcall'
      exact h.live d call (hd ▸ hcall) hnone hlt
    · exact h.live d call' hcall' hnone hlt
  · cases heq
  · rw [Routed.getElem?_give hcall] at hcall'
    split at hcall'
    · next hd =>
      obtain rfl := Option.some.inj hcall'
      rcases h.answered d call m' n (hd ▸ hcall) hsome hlt with hholds | hreceived
      · rcases hholds with heq | heq
        · rw [hremoved] at heq
          cases heq
        · obtain ⟨rfl, -⟩ := Dispatcher.removed.inj (hremoved.symm.trans heq)
          right
          simp [Call.give, hempty]
      · rw [hempty] at hreceived
        simp at hreceived
    · next hd =>
      rcases h.answered d call' m' n hcall' hsome hlt with hholds | hreceived
      · rcases hholds with heq | heq
        · rw [hremoved] at heq
          cases heq
        · obtain ⟨-, rfl⟩ := Dispatcher.removed.inj (hremoved.symm.trans heq)
          exact absurd rfl hd
      · exact .inr hreceived
  · rw [Routed.getElem?_give hcall] at hcall'
    rw [List.length_modify]
    split at hcall'
    · next hd =>
      obtain rfl := Option.some.inj hcall'
      exact h.past d call m' n (hd ▸ hcall) hsome
    · exact h.past d call' m' n hcall' hsome

theorem steps {a : Action} (hprompt : Prompt s a) (hs : Routed s) (hstep : Steps a s t)
    (h : Served s) : Served t := by
  cases hstep with
  | refused => exact h
  | entered => exact h.enter hs hprompt
  | @moved _ c _ call call' _ hcall hadvance =>
    obtain ⟨-, hid, hreceived, hfirst⟩ := hadvance.frame
    refine h.of_kept rfl rfl (kept_set hcall hid hreceived) fun d ↦ ?_
    obtain ⟨hlt, rfl⟩ := List.getElem?_eq_some_iff.mp hcall
    rw [List.getElem?_set]
    split
    · next hd => simp [← hd, hlt, hfirst]
    · rfl
  | arrived => exact h.of_kept rfl rfl ⟨rfl, fun _ ↦ rfl, fun _ ↦ rfl⟩ fun _ ↦ rfl
  | found hidle _ hid hlookup =>
    refine h.take hidle (fun id' c' hid' hlookup' ↦ ?_) fun m' c' heq ↦ ?_
    · obtain rfl := Option.some.inj (hid.symm.trans hid')
      obtain rfl := Option.some.inj (hlookup.symm.trans hlookup')
      rfl
    · exact (Dispatcher.found.inj heq).1.symm
  | unknown hidle _ hnone =>
    refine h.take hidle (fun id c hid hlookup ↦ ?_) fun m' c' heq ↦ ?_
    · simp [hnone id hid] at hlookup
    · cases heq
  | removed hfound hid => exact h.remove hfound hid
  | removeRaised hfound hnone =>
    obtain ⟨call, -, hm, -, hmem⟩ := hs.found _ _ hfound
    exact absurd hmem (hnone _ hm)
  | given hremoved => exact h.put hs hremoved

end Served

theorem Reaches.served {s : Center} (h : Reaches Prompt s) : Served s :=
  h.invariant served_initial fun _ _ _ hreach hprompt hstep hs ↦
    hs.steps hprompt hreach.routed hstep

theorem Routed.delivers {s t : Center} {a : Action} {m : Message} {c : ℕ} (hs : Routed s)
    (hholds : s.dispatcher.Holds m c) (hstep : Steps a s t) :
    t.dispatcher.Holds m c ∨ ∃ call, t.calls[c]? = some call ∧ call.received = [m] := by
  cases hstep with
  | refused | entered | moved | arrived => exact .inl hholds
  | found hidle | unknown hidle =>
    rcases hholds with heq | heq
    · rw [hidle] at heq
      cases heq
    · rw [hidle] at heq
      cases heq
  | removed hfound =>
    rcases hholds with heq | heq
    · obtain ⟨rfl, rfl⟩ := Dispatcher.found.inj (hfound.symm.trans heq)
      exact .inl (.inr rfl)
    · rw [hfound] at heq
      cases heq
  | removeRaised hfound hnone =>
    obtain ⟨call, -, hm, -, hmem⟩ := hs.found _ _ hfound
    exact absurd hmem (hnone _ hm)
  | given hremoved =>
    rcases hholds with heq | heq
    · rw [hremoved] at heq
      cases heq
    · obtain ⟨rfl, rfl⟩ := Dispatcher.removed.inj (hremoved.symm.trans heq)
      obtain ⟨call, hcall, -, hempty⟩ := hs.removed _ _ hremoved
      refine .inr ⟨_, by rw [Routed.getElem?_give hcall, if_pos rfl], ?_⟩
      simp [Call.give, hempty]

/-- Responses reach the request they answer. The ids are even and below `2 ^ 25`; a queue gets at
most one message, which carries the id of its request; the first message with the id of a request
and a type to log, if fewer than `2 ^ 24` further ids were allocated before it was taken, is given
to that request; so is any such message whose request is in the table; and deleting from the table
never raises. -/
theorem responses_reach_requests {s : Center} (h : Reaches Prompt s) :
    (∀ (c : ℕ) (call : Call), s.calls[c]? = some call →
      Even call.transactionId ∧ call.transactionId < 2 ^ 25 ∧
      call.received.length ≤ 1 ∧ (∀ m ∈ call.received, m.key = some call.transactionId) ∧
      ∀ m n, call.first = some (m, n) → n - (c + 1) < 2 ^ 24 →
        s.dispatcher.Holds m c ∨ call.received = [m]) ∧
    (∀ m rest id c, s.dispatcher = .idle → s.recvMsgQueue = m :: rest →
      m.key = some id → s.reqDict.lookup id = some c →
      ∃ t, step .take s = some t ∧ t.dispatcher.Holds m c) ∧
    (∀ m c a t, s.dispatcher.Holds m c → step a s = some t →
      t.dispatcher.Holds m c ∨ ∃ call, t.calls[c]? = some call ∧ call.received = [m]) ∧
    s.raises = 0 := by
  have hrouted := h.routed
  refine ⟨fun c call hcall ↦ ?_, fun m rest id c hidle hqueue hid hlookup ↦ ?_,
    fun m c a t hholds hstep ↦ hrouted.delivers hholds (step_cases hstep), hrouted.raises⟩
  · have hid := hrouted.ids c call hcall
    obtain ⟨hlength, hown⟩ := hrouted.received c call hcall
    refine ⟨?_, by omega, hlength, hown, fun m n ↦ h.served.answered c call m n hcall⟩
    rw [hid]
    exact even_iff_two_dvd.mpr (Dvd.intro_left _ rfl)
  · refine ⟨_, by rw [step, Center.take, hidle, hqueue], .inl ?_⟩
    simp [hid, hlookup]

def succeeded (id : ℕ) : Message :=
  ⟨some "response".toList, some id, clientVersion, ⟨none, none, some "succeeded".toList, none⟩⟩

def gateway : Entity := ⟨"gw".toList, "HelixGateway".toList, "1".toList⟩

/-- Two requests, then the answer to the second, to the first, to the first again and to none. -/
def crossedAnswers : List Action :=
  [.call (.unregister gateway "u".toList), .call (.getProperties gateway),
    .arrive (succeeded 4), .arrive (succeeded 2), .arrive (succeeded 2), .arrive (succeeded 7),
    .take, .remove, .put, .take, .remove, .put, .take, .take]

theorem responses_reach_requests_crossed :
    ∃ s, run Prompt crossedAnswers .initial = some s ∧
      s.calls.map Call.received = [[succeeded 2], [succeeded 4]] ∧ s.raises = 0 := by
  have hrun : (run Prompt crossedAnswers .initial).map (fun s ↦ s.calls.map Call.received) =
      some [[succeeded 2], [succeeded 4]] := by decide
  obtain ⟨s, hs, hreceived⟩ := Option.map_eq_some_iff.mp hrun
  exact ⟨s, hs, hreceived, (responses_reach_requests (Reaches.run .init hs)).2.2.2⟩

/-- An answer without a type: it is dropped, and its request stays in the table. -/
theorem untyped_answer_is_dropped :
    let untyped := { succeeded 2 with type := none }
    untyped.transactionID = some 2 ∧
    ∃ s, run Prompt [.call (.unregister gateway "u".toList), .move 0 .send, .arrive untyped, .take]
        .initial = some s ∧
      s.dispatcher = .idle ∧ s.recvMsgQueue = [] ∧ s.reqDict.lookup 2 = some 0 ∧
      s.calls.map Call.received = [[]] := by
  intro untyped
  have hrun : (run Prompt [.call (.unregister gateway "u".toList), .move 0 .send, .arrive untyped,
      .take] .initial).map (fun s ↦ (s.dispatcher, s.recvMsgQueue, s.reqDict.lookup 2,
        s.calls.map Call.received)) = some (.idle, [], some 0, [[]]) := by decide
  obtain ⟨s, hs, heq⟩ := Option.map_eq_some_iff.mp hrun
  obtain ⟨hidle, hrest⟩ := Prod.mk.inj heq
  obtain ⟨hqueue, hrest⟩ := Prod.mk.inj hrest
  exact ⟨rfl, s, hs, hidle, hqueue, Prod.mk.inj hrest⟩

end Liota.Dccs.IotControlCenter
