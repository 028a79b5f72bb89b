import Liota.Graph.Ending
import Liota.Dccs.IotControlCenter.Identities

namespace Liota.Dccs.IotControlCenter

open Python Python.Computation Python.Text Relation

/-- What `on_response` of an operation makes of a message: its result if this is the final answer,
`none` if it is not. -/
def Operation.answer : Operation → Message → Except PyErr (Option Result)
  | .register entity, m => (registered entity.entityId m).map (Option.map (.entity ∘ some))
  | .getProperties entity, m =>
    (foundProperties entity.entityId m).map (Option.map (.properties ∘ some))
  | _, _ => .ok none

def Operation.Awaits (operation : Operation) : Prop :=
  (∃ entity, operation = .register entity) ∨ ∃ entity, operation = .getProperties entity

/-- The message is the final answer, with the result that the operation is to return. -/
inductive Operation.Final : Operation → Message → Result → Prop
  | register {entity : Entity} {m : Message} {uuid : Str} (hversion : m.version = clientVersion)
      (htype : m.type = some "create_or_find_resource_response".toList)
      (huuid : m.body.uuid = some uuid) (hnull : uuid ≠ "null".toList)
      (hid : m.body.id = some entity.entityId) :
      Operation.Final (.register entity) m (.entity (some uuid))
  | getProperties {entity : Entity} {m : Message} {properties : List (Str × Str)}
      (hversion : m.version = clientVersion)
      (htype : m.type = some "get_properties_response".toList)
      (hnull : entity.entityId ≠ "null".toList) (hid : m.body.id = some entity.entityId)
      (hlist : m.body.propertyList = some properties) :
      Operation.Final (.getProperties entity) m (.properties (some properties))

/-- What a registration needs besides its answer: a uuid that is not empty and can be logged, and an
`iotcc.json` that can take it up. -/
def Operation.Recordable (file : Option Details) : Operation → Result → Prop
  | .register entity, .entity (some uuid) =>
    uuid ≠ [] ∧ ascii uuid = true ∧ entity.Storable file
  | _, _ => True

theorem answer_renamed (operation : Operation) (m : Message) :
    operation.renamed.answer m = operation.answer m := by
  cases operation <;> rfl

/-- The steps of a caller that finds `file` in `iotcc.json`, and fails neither to send nor to write
the other files. -/
def Move.Undisturbed (file : Option Details) : Move → Prop
  | .sendFails _ => False
  | .writeFails _ => False
  | .write found => found = file
  | _ => True

/-- One step of a call alone with the server, from which the messages of a list are still to come.
A wait times out only when there is nothing left to wait for. -/
inductive AloneStep (file : Option Details) (c : ℕ) :
    Center × List Message → Center × List Message → Prop
  | arrive {s t : Center} {m : Message} {rest : List Message}
      (h : step (.arrive m) s = some t) : AloneStep file c (s, m :: rest) (t, rest)
  | dispatch {s t : Center} {a : Action} {rest : List Message}
      (ha : a = .take ∨ a = .remove ∨ a = .put) (h : step a s = some t) :
      AloneStep file c (s, rest) (t, rest)
  | move {s t : Center} {move : Move} {rest : List Message} (hmove : move.Undisturbed file)
      (htimeout : move = .timeout → rest = [] ∧ s.recvMsgQueue = [] ∧ s.dispatcher = .idle)
      (h : step (.move c move) s = some t) : AloneStep file c (s, rest) (t, rest)

def stepsLeft (p : Center × List Message) : ℕ := 5 * p.2.length + p.1.remaining

theorem AloneStep.stepsLeft_lt {file : Option Details} {c : ℕ} {p q : Center × List Message}
    (h : AloneStep file c p q) : stepsLeft q < stepsLeft p := by
  cases h with
  | arrive h =>
    cases step_cases h with
    | arrived =>
      simp only [stepsLeft, Center.remaining, List.length_append, List.length_cons, List.length_nil]
      omega
  | @dispatch s t a rest ha h =>
    have hnew : ¬ a.New := by rcases ha with rfl | rfl | rfl <;> exact id
    have hlt := (step_cases h).remaining_lt hnew
    simp only [stepsLeft]
    omega
  | move _ _ h =>
    have hlt := (step_cases h).remaining_lt id
    simp only [stepsLeft]
    omega

section Final

variable {entity : Entity} {operation : Operation} {m : Message} {r : Result}

theorem answer_register {id : Option Str}
    (h : (Operation.register entity).answer m = .ok (some (.entity id))) :
    ∃ uuid, id = some uuid ∧ registered entity.entityId m = .ok (some uuid) := by
  rw [Operation.answer] at h
  cases hm : registered entity.entityId m with
  | error e => simp [hm, Except.map] at h
  | ok found =>
    cases found with
    | none => simp [hm, Except.map] at h
    | some uuid =>
      simp only [hm, Except.map, Option.map_some, Function.comp_apply, Except.ok.injEq,
        Option.some.injEq, Result.entity.injEq] at h
      exact ⟨uuid, h.symm, rfl⟩

theorem ascii_resourceType : ascii "create_or_find_resource_response".toList = true := by
  decide

theorem ascii_propertiesType : ascii "get_properties_response".toList = true := by decide

theorem Operation.Final.logType (h : operation.Final m r) : m.logType = .ok () := by
  cases h with
  | register _ htype =>
    simp only [Message.logType, htype, ascii_resourceType, if_true]
  | getProperties _ htype =>
    simp only [Message.logType, htype, ascii_propertiesType, if_true]

theorem Operation.Final.key (h : operation.Final m r) : m.key = m.transactionID := by
  rw [Message.key, h.logType]
  rfl

theorem Operation.Final.answer (h : operation.Final m r) :
    operation.answer m = .ok (some r) ∨
      (operation.answer m = .error .valueError ∧ ∀ file, ¬ operation.Recordable file r) := by
  have hlog := h.logType
  cases h with
  | @register entity m uuid hversion htype huuid hnull hid =>
    have hversion : checkVersion m = .ok () := if_pos hversion
    by_cases hascii : ascii uuid = true
    · left
      have hregistered : registered entity.entityId m = .ok (some uuid) := by
        refine checked_eq_ok_iff.mpr ⟨hlog, hversion, ?_⟩
        rw [resourceUuid, if_pos htype, huuid, hid]
        dsimp only
        rw [if_pos ⟨hnull, rfl⟩, if_pos hascii]
      rw [Operation.answer, hregistered]
      rfl
    · right
      refine ⟨?_, fun file hrecord ↦ hascii hrecord.2.1⟩
      have hregistered : registered entity.entityId m = .error .valueError := by
        have hbody : resourceUuid entity.entityId m = .error .valueError := by
          rw [resourceUuid, if_pos htype, huuid, hid]
          dsimp only
          rw [if_pos ⟨hnull, rfl⟩, if_neg hascii]
        simp only [registered, hlog, hversion, hbody]
        rfl
      rw [Operation.answer, hregistered]
      rfl
  | @getProperties entity m properties hversion htype hnull hid hlist =>
    left
    have hversion : checkVersion m = .ok () := if_pos hversion
    have hfound : foundProperties entity.entityId m = .ok (some properties) := by
      refine checked_eq_ok_iff.mpr ⟨hlog, hversion, ?_⟩
      rw [propertiesOf, if_pos htype, hid]
      dsimp only
      rw [if_pos ⟨hnull, rfl⟩, hlist]
    rw [Operation.answer, hfound]
    rfl

theorem Operation.Final.ne_none (h : operation.Final m r) : r ≠ .properties none := by
  cases h <;> simp

theorem Operation.Final.renamed (h : operation.Final m r) : operation.renamed.Final m r := by
  cases h with
  | register hversion htype huuid hnull hid => exact .register hversion htype huuid hnull hid
  | getProperties hversion htype hnull hid hlist =>
    exact .getProperties hversion htype hnull hid hlist

end Final

section Outcome

def Operation.Sound (operation : Operation) (m : Message) : Prop :=
  operation.answer m = .ok none ∨ ∃ r, operation.Final m r

/-- A call that reads the message can return `r`. -/
def Operation.Answers (operation : Operation) (file : Option Details) (m : Message) (r : Result) :
    Prop :=
  operation.answer m = .ok (some r) ∧ operation.Recordable file r

structure Call.Unread (attributes : Attributes) (call : Call) : Prop where
  queue : call.userQueue = call.received
  propList : ∀ entity, call.operation = .getProperties entity → attributes.propList = none

def Call.Holds (attributes : Attributes) (m : Message) (call : Call) : Prop :=
  (∀ entity, call.operation = .register entity →
    call.operation.answer m = .ok (some (.entity attributes.regEntityId))) ∧
  ∀ entity, call.operation = .getProperties entity →
    call.operation.answer m = .ok (attributes.propList.map (.properties ∘ some))

/-- Where a call stands whose first answer is `m`. -/
def Call.Stage (file : Option Details) (attributes : Attributes) (m : Message) (call : Call) :
    Prop :=
  match call.phase with
  | .entered => call.Unread attributes
  | .waiting => call.Unread attributes ∨
    (call.userQueue = [] ∧ call.received ≠ [] ∧ call.operation.answer m = .ok none)
  | .stored => call.Holds attributes m
  | .tested => call.Holds attributes m ∧ attributes.regEntityId ≠ some [] ∧
    ∃ entity, call.operation = .register entity
  | .written => call.operation.Answers file m (.entity attributes.regEntityId)
  | .returned r => call.operation.Answers file m r ∨
    (call.operation.answer m = .ok none ∧ r = .properties none)
  | .raised _ => ∀ r, ¬ call.operation.Answers file m r

variable {file : Option Details} {attributes attributes' : Attributes} {call call' : Call}
  {m : Message} {move : Move}

theorem not_answers_of_ne (h : ∀ r, call.operation.answer m ≠ .ok (some r)) (r : Result) :
    ¬ call.operation.Answers file m r := fun hr ↦ h r hr.1

theorem stage_receive (hawaits : call.operation.Awaits) (hsound : call.operation.Sound m)
    (hphase : call.phase = .waiting) (hread : call.received ≠ [])
    (hprops : ∀ entity, call.operation = .getProperties entity → attributes.propList = none) :
    (Call.receive attributes { call with userQueue := [] } m).2.Stage file
      (Call.receive attributes { call with userQueue := [] } m).1 m := by
  rcases hawaits with ⟨entity, hop⟩ | ⟨entity, hop⟩
  · cases hregistered : registered entity.entityId m with
    | error e =>
      have herror : call.operation.answer m = .error e := by
        rw [hop, Operation.answer, hregistered, Except.map]
      have heq : Call.receive attributes { call with userQueue := [] } m =
          (attributes, { call with userQueue := [], phase := .raised e }) := by
        simp only [Call.receive, hop, hregistered]
      rw [heq]
      exact not_answers_of_ne (by simp [herror])
    | ok found =>
      have hanswer : call.operation.answer m = .ok (found.map (.entity ∘ some)) := by
        rw [hop, Operation.answer, hregistered, Except.map]
      cases found with
      | none =>
        have heq : Call.receive attributes { call with userQueue := [] } m =
            (attributes, { call with userQueue := [] }) := by
          simp only [Call.receive, hop, hregistered]
        rw [heq]
        unfold Call.Stage
        rw [hphase]
        exact .inr ⟨rfl, hread, hanswer⟩
      | some uuid =>
        have heq : Call.receive attributes { call with userQueue := [] } m =
            ({ attributes with regEntityId := some uuid },
              { call with userQueue := [], phase := .stored }) := by
          simp only [Call.receive, hop, hregistered]
        rw [heq]
        refine ⟨fun _ _ ↦ hanswer, fun other hother ↦ ?_⟩
        rw [hop] at hother
        cases hother
  · cases hfound : foundProperties entity.entityId m with
    | error e =>
      have herror : call.operation.answer m = .error e := by
        rw [hop, Operation.answer, hfound, Except.map]
      rcases hsound with hnone | ⟨r, hfinal⟩
      · rw [hnone] at herror
        cases herror
      · rcases hfinal.answer with hok | ⟨-, hnot⟩
        · rw [hok] at herror
          cases herror
        · rw [hop] at hnot
          exact absurd trivial (hnot none)
    | ok found =>
      have hanswer : call.operation.answer m = .ok (found.map (.properties ∘ some)) := by
        rw [hop, Operation.answer, hfound, Except.map]
      have hother (other : Entity) (h : call.operation = .register other) : False := by
        rw [hop] at h
        cases h
      cases found with
      | none =>
        have heq : Call.receive attributes { call with userQueue := [] } m =
            (attributes, { call with userQueue := [], phase := .stored }) := by
          simp only [Call.receive, hop, hfound]
        rw [heq]
        refine ⟨fun other h ↦ (hother other h).elim, fun _ _ ↦ ?_⟩
        rw [hprops entity hop]
        exact hanswer
      | some properties =>
        have heq : Call.receive attributes { call with userQueue := [] } m =
            ({ attributes with propList := some properties },
              { call with userQueue := [], phase := .stored }) := by
          simp only [Call.receive, hop, hfound]
        rw [heq]
        exact ⟨fun other h ↦ (hother other h).elim, fun _ _ ↦ hanswer⟩

theorem stage_test {entity : Entity} (hop : call.operation = .register entity)
    (h : call.Holds attributes m) :
    ({ call with phase := testEntityId attributes.regEntityId } : Call).Stage
      file attributes m := by
  have hanswer := h.1 entity hop
  rw [hop] at hanswer
  obtain ⟨uuid, hid, -⟩ := answer_register hanswer
  cases uuid with
  | nil =>
    rw [hid]
    rintro r ⟨hr, hrecord⟩
    change call.operation.answer m = .ok (some r) at hr
    change call.operation.Recordable file r at hrecord
    rw [hop, hanswer, hid] at hr
    obtain rfl := Option.some.inj (Except.ok.inj hr)
    rw [hop] at hrecord
    exact hrecord.1 rfl
  | cons x xs =>
    rw [hid]
    refine ⟨?_, ?_, entity, hop⟩
    · rw [← hid]
      exact h
    · simp [hid]

theorem stage_write (hname : ∀ entity, call.operation = .register entity → ascii entity.name = true)
    (hawaits : call.operation.Awaits) (h : call.Stage file attributes m)
    (hwrite : Writes attributes file call call') : call'.Stage file attributes m := by
  unfold Call.Stage at h
  cases hwrite with
  | unset hphase hop hid =>
    rw [hphase] at h
    have hanswer := h.1.1 _ hop
    rw [hop] at hanswer
    obtain ⟨uuid, heq, -⟩ := answer_register hanswer
    rw [hid] at heq
    cases heq
  | @storeFailed entity uuid e hphase hop hid hstore =>
    rw [hphase] at h
    have hanswer := h.1.1 _ hop
    rintro r ⟨hr, hrecord⟩
    change call.operation.answer m = .ok (some r) at hr
    change call.operation.Recordable file r at hrecord
    rw [hanswer, hid] at hr
    obtain rfl := Option.some.inj (Except.ok.inj hr)
    rw [hop] at hrecord
    obtain ⟨-, hascii, hstorable⟩ := hrecord
    rw [(storeDetails_eq_ok_iff (hname entity hop) hascii file).mpr hstorable] at hstore
    cases hstore
  | @stored entity uuid hphase hop hid hstore =>
    rw [hphase] at h
    obtain ⟨hholds, hne, -⟩ := h
    have hanswer := hholds.1 _ hop
    have huuid : ascii uuid = true := by
      rw [hop] at hanswer
      obtain ⟨uuid', heq, hregistered⟩ := answer_register hanswer
      obtain rfl := Option.some.inj (hid.symm.trans heq)
      have hregisters : Registers entity uuid _ := ⟨hregistered, fun hnil ↦ hne (by rw [hid, hnil])⟩
      exact hregisters.ascii_uuid
    refine ⟨hanswer, ?_⟩
    change call.operation.Recordable file (.entity attributes.regEntityId)
    rw [hop, hid]
    refine ⟨fun hnil ↦ hne (by rw [hid, hnil]), huuid, ?_⟩
    exact (storeDetails_eq_ok_iff (hname entity hop) huuid file).mp hstore
  | removeFailed _ hop | removed _ hop | properties _ hop =>
    rw [hop] at hawaits
    rcases hawaits with ⟨_, heq⟩ | ⟨_, heq⟩
    · cases heq
    · cases heq

theorem stage_advance (h : call.Stage file attributes m) (hawaits : call.operation.Awaits)
    (hname : ∀ entity, call.operation = .register entity → ascii entity.name = true)
    (hsound : call.operation.Sound m) (hfirst : call.received = [] ∨ call.received = [m])
    (hmove : move.Undisturbed file) (htimeout : move = .timeout → call.received ≠ [])
    (hadvance : Advances attributes call move attributes' call') :
    call'.Stage file attributes' m := by
  have hstage := h
  unfold Call.Stage at h
  cases hadvance with
  | rejected _ hbuild =>
    rcases hawaits with ⟨entity, hop⟩ | ⟨entity, hop⟩
    · simp [hop, Operation.build] at hbuild
    · simp [hop, Operation.build] at hbuild
  | sent hphase =>
    rw [hphase] at h
    exact .inl ⟨h.queue, h.propList⟩
  | sendFailed | writeFailed => exact hmove.elim
  | @received m' rest hphase hqueue =>
    rw [hphase] at h
    rcases h with hunread | ⟨hempty, -⟩
    · have hreceived : call.received = m' :: rest := hunread.queue ▸ hqueue
      rcases hfirst with hnil | hone
      · simp [hreceived] at hnil
      · rw [hreceived] at hone
        obtain ⟨rfl, rfl⟩ := List.cons.inj hone
        exact stage_receive hawaits hsound hphase (by simp [hreceived]) hunread.propList
    · simp [hempty] at hqueue
  | timedOut hphase hqueue =>
    rw [hphase] at h
    rcases h with hunread | ⟨-, -, hnone⟩
    · exact absurd (hunread.queue ▸ hqueue) (htimeout rfl)
    · exact not_answers_of_ne (by simp [hnone])
  | tested hphase hop =>
    rw [hphase] at h
    exact stage_test hop h
  | @wrote found _ hwrite =>
    obtain rfl : found = file := hmove
    exact stage_write hname hawaits hstage hwrite
  | built hphase =>
    rw [hphase] at h
    exact .inl h
  | @listed entity hphase hop =>
    rw [hphase] at h
    have hanswer := h.2 entity hop
    cases hlist : attributes.propList with
    | none => exact .inr ⟨by simpa [hlist] using hanswer, rfl⟩
    | some properties =>
      refine .inl ⟨by simpa [hlist] using hanswer, ?_⟩
      change call.operation.Recordable file _
      rw [hop]
      trivial

end Outcome

section Runs

variable {file : Option Details} {c : ℕ} {m : Message} {script : List Message}

/-- The dispatcher can look the message up. -/
def Message.Keyed (m : Message) : Bool := m.key.isSome

/-- A state of a call alone with the server: of what the server sends nothing that the dispatcher
can look up was taken yet, and `m` is the first such message; or it was taken. -/
structure Alone (file : Option Details) (c : ℕ) (operation : Operation) (m : Message)
    (p : Center × List Message) : Prop where
  reaches : Reaches Prompt p.1
  length : p.1.calls.length = c + 1
  ids : ∀ m' ∈ p.1.recvMsgQueue ++ p.2, m'.transactionID = some ((c + 1) % 2 ^ 24 * 2)
  call : ∃ call, p.1.calls[c]? = some call ∧ call.operation = operation ∧
    call.Stage file p.1.attributes m ∧
    (call.first = none ∧ (p.1.recvMsgQueue ++ p.2).find? Message.Keyed = some m ∨
      call.first = some (m, c + 1))

theorem Reaches.received_cases {s : Center} (h : Reaches Prompt s) {call : Call}
    (hlength : s.calls.length = c + 1) (hcall : s.calls[c]? = some call)
    (hfirst : call.first = none ∨ call.first = some (m, c + 1)) :
    (call.received = [] ∨ call.received = [m]) ∧
      (s.dispatcher = .idle → call.first ≠ none → call.received = [m]) := by
  rcases hfirst with hnone | hsome
  · have hlookup := h.served.live c call hcall hnone (by omega)
    obtain ⟨call', hcall', -, hempty, -⟩ := h.routed.table _ c hlookup
    obtain rfl := Option.some.inj (hcall.symm.trans hcall')
    exact ⟨.inl hempty, fun _ h ↦ absurd hnone h⟩
  · rcases h.served.answered c call m _ hcall hsome (by omega) with hholds | hreceived
    · rcases hholds with heq | heq
      · obtain ⟨call', hcall', -, hempty, -⟩ := h.routed.found m c heq
        obtain rfl := Option.some.inj (hcall.symm.trans hcall')
        exact ⟨.inl hempty, fun hidle ↦ by simp [hidle] at heq⟩
      · obtain ⟨call', hcall', -, hempty⟩ := h.routed.removed m c heq
        obtain rfl := Option.some.inj (hcall.symm.trans hcall')
        exact ⟨.inl hempty, fun hidle ↦ by simp [hidle] at heq⟩
    · exact ⟨.inr hreceived, fun _ _ ↦ hreceived⟩

theorem prompt_of_ne_call {s : Center} {a : Action} (h : ∀ operation, a ≠ .call operation) :
    Prompt s a := by
  cases a with
  | call operation => exact absurd rfl (h operation)
  | move | arrive | take | remove | put => trivial

theorem Call.Stage.of_eq {attributes : Attributes} {call call' : Call}
    (h : call.Stage file attributes m) (hphase : call'.phase = call.phase)
    (hop : call'.operation = call.operation)
    (hunread : call.Unread attributes → call'.Unread attributes)
    (hread : call.userQueue = [] → call.received ≠ [] →
      call'.userQueue = [] ∧ call'.received ≠ []) : call'.Stage file attributes m := by
  unfold Call.Stage Call.Holds at h ⊢
  rw [hphase, hop]
  split
  · next heq =>
    rw [heq] at h
    exact hunread h
  · next heq =>
    rw [heq] at h
    rcases h with h | ⟨hqueue, hne, hnone⟩
    · exact .inl (hunread h)
    · obtain ⟨hqueue', hne'⟩ := hread hqueue hne
      exact .inr ⟨hqueue', hne', hnone⟩
  · next heq => simpa only [heq] using h
  · next heq => simpa only [heq] using h
  · next heq => simpa only [heq] using h
  · next heq => simpa only [heq] using h
  · next heq => simpa only [heq] using h

theorem stage_note {attributes : Attributes} {call : Call} (h : call.Stage file attributes m)
    (m' : Message) (n : ℕ) : (call.note m' n).Stage file attributes m := by
  obtain ⟨hop, -, hreceived, hphase, hqueue, -⟩ := note_frame m' n call
  refine h.of_eq hphase hop (fun hread ↦ ⟨?_, ?_⟩) fun hempty hne ↦ ⟨?_, ?_⟩
  · rw [hqueue, hreceived, hread.queue]
  · rw [hop]
    exact hread.propList
  · rw [hqueue, hempty]
  · rwa [hreceived]

theorem stage_give {attributes : Attributes} {call : Call} (h : call.Stage file attributes m)
    (hempty : call.received = []) (m' : Message) : (call.give m').Stage file attributes m := by
  refine h.of_eq rfl rfl (fun hread ↦ ⟨?_, hread.propList⟩) fun _ hne ↦ absurd hempty hne
  rw [Call.give, hread.queue]

theorem first_taken {call : Call} {m' : Message} {queue rest : List Message}
    (hid : m'.transactionID = some call.transactionId)
    (h : call.first = none ∧ (m' :: queue ++ rest).find? Message.Keyed = some m ∨
      call.first = some (m, c + 1)) :
    (call.note m' (c + 1)).first = none ∧ (queue ++ rest).find? Message.Keyed = some m ∨
      (call.note m' (c + 1)).first = some (m, c + 1) := by
  rw [note_first]
  rcases h with ⟨hnone, hfind⟩ | hsome
  · rw [List.cons_append, List.find?_cons] at hfind
    cases hlog : m'.logType with
    | error e =>
      have hkey : m'.key = none := by rw [Message.key, hlog]; rfl
      left
      simp only [Message.Keyed, hkey, Option.isSome_none] at hfind
      exact ⟨by simp [hkey, hnone], hfind⟩
    | ok u =>
      have hkey : m'.key = some call.transactionId := key_eq_some_iff.mpr ⟨hlog, hid⟩
      right
      simp only [Message.Keyed, hkey, Option.isSome_some, Option.some.injEq] at hfind
      rw [if_pos ⟨hkey, hnone⟩, hfind]
  · right
    rw [if_neg (by simp [hsome]), hsome]

theorem Alone.next {operation : Operation} {p q : Center × List Message}
    (hawaits : operation.Awaits) (hsound : operation.Sound m)
    (h : Alone file c operation m p) (hstep : AloneStep file c p q) :
    Alone file c operation m q := by
  obtain ⟨hreaches, hlength, hids, call, hcall, rfl, hstage, hfirst⟩ := h
  obtain ⟨hreceived, hgiven⟩ := hreaches.received_cases hlength hcall
    (hfirst.imp And.left id)
  cases hstep with
  | @arrive s t m' rest hs =>
    have hreaches' := hreaches.step (prompt_of_ne_call (by simp)) hs
    cases step_cases hs with
    | arrived => exact ⟨hreaches', hlength, by simpa using hids, call, hcall, rfl, hstage,
        by simpa using hfirst⟩
  | @dispatch s t a rest ha hs =>
    have hprompt : Prompt s a := by
      rcases ha with rfl | rfl | rfl <;> trivial
    have hreaches' := hreaches.step hprompt hs
    have hnoted (m' : Message) : (s.calls.map (Call.note m' s.calls.length))[c]? =
        some (call.note m' s.calls.length) := by rw [List.getElem?_map, hcall, Option.map_some]
    cases step_cases hs with
    | found _ hqueue | unknown _ hqueue =>
      rw [hqueue] at hids hfirst
      have hid := hids _ List.mem_cons_self
      rw [← hreaches.routed.ids c call hcall] at hid
      have hfirst' := first_taken hid hfirst
      rw [show c + 1 = s.calls.length from hlength.symm] at hfirst'
      refine ⟨hreaches', by simpa using hlength, fun m'' hm ↦ hids m'' ?_, _, hnoted _,
        (note_frame _ _ call).1, stage_note hstage _ _, hlength ▸ hfirst'⟩
      exact List.mem_cons_of_mem _ hm
    | removed | removeRaised => exact ⟨hreaches', hlength, hids, call, hcall, rfl, hstage, hfirst⟩
    | @given _ m' d hremoved =>
      obtain ⟨old, hold, -, hempty⟩ := hreaches.routed.removed m' d hremoved
      by_cases hd : c = d
      · obtain rfl := hd
        obtain rfl := Option.some.inj (hcall.symm.trans hold)
        have hgive := Routed.getElem?_give (m := m') (d := c) hold
        rw [if_pos rfl] at hgive
        exact ⟨hreaches', by simpa using hlength, hids, call.give m', hgive, rfl,
          stage_give hstage hempty m', hfirst⟩
      · exact ⟨hreaches', by simpa using hlength, hids, call,
          by rw [Routed.getElem?_give hold, if_neg hd, hcall], rfl, hstage, hfirst⟩
    | refused | entered | moved | arrived => simp at ha
  | @move s t move rest hmove htimeout hs =>
    have hreaches' := hreaches.step (prompt_of_ne_call (by simp)) hs
    cases step_cases hs with
    | @moved _ _ _ old call' attributes hold hadvance =>
      obtain rfl := Option.some.inj (hcall.symm.trans hold)
      obtain ⟨hop, -, -, hsame⟩ := hadvance.frame
      obtain ⟨hlt, -⟩ := List.getElem?_eq_some_iff.mp hcall
      have hlate (hmove : move = .timeout) : call.received ≠ [] := by
        obtain ⟨rfl, hqueue, hidle⟩ := htimeout hmove
        have hne : call.first ≠ none := by
          intro hnone
          rcases hfirst with ⟨-, hfind⟩ | hsome
          · simp [hqueue] at hfind
          · simp [hnone] at hsome
        simp [hgiven hidle hne]
      have hname (entity : Entity) (hregister : call.operation = .register entity) :
          ascii entity.name = true := hreaches.named c call entity hcall hregister
      refine ⟨hreaches', by simpa using hlength, hids, call', by simp [hlt], hop, ?_, ?_⟩
      · exact stage_advance hstage hawaits hname hsound hreceived hmove hlate hadvance
      · rwa [hsame]

def Phase.Ended : Phase → Prop
  | .returned _ => True
  | .raised _ => True
  | _ => False

theorem quiet_of_stuck {s : Center} {rest : List Message}
    (hstuck : ∀ q, ¬ AloneStep file c (s, rest) q) :
    rest = [] ∧ s.recvMsgQueue = [] ∧ s.dispatcher = .idle := by
  refine ⟨?_, dispatcher_quiet fun a t ha hstep ↦ hstuck _ (.dispatch ha hstep)⟩
  cases rest with
  | nil => rfl
  | cons m rest => exact absurd (.arrive rfl) (hstuck _)

theorem exists_write {call : Call} {entity : Entity} (hphase : call.phase = .tested)
    (hop : call.operation = .register entity) (attributes : Attributes) (file : Option Details) :
    ∃ call', call.write attributes file = some call' := by
  simp only [Call.write, hphase, hop]
  split
  · exact ⟨_, rfl⟩
  · split <;> exact ⟨_, rfl⟩

theorem Alone.ended {operation : Operation} {s : Center} {rest : List Message}
    (hawaits : operation.Awaits) (h : Alone file c operation m (s, rest))
    (hstuck : ∀ q, ¬ AloneStep file c (s, rest) q) {call : Call} (hcall : s.calls[c]? = some call) :
    call.phase.Ended := by
  obtain ⟨-, -, -, call', hcall', rfl, hstage, -⟩ := h
  obtain rfl := Option.some.inj (hcall.symm.trans hcall')
  have hquiet := quiet_of_stuck hstuck
  have hmove (move : Move) (r : Attributes × Call) (hmove : move.Undisturbed file) :
      call.advance s.attributes move ≠ some r := by
    intro hr
    have hnext : step (.move c move) s =
        some { s with attributes := r.1, calls := s.calls.set c r.2 } := by
      simp only [step, hcall, hr, Option.map_some]
    exact hstuck _ (.move hmove (fun _ ↦ hquiet) hnext)
  have hbuild : call.operation.build = .ok () := by
    rcases hawaits with ⟨entity, hop⟩ | ⟨entity, hop⟩
    · rw [hop]
      rfl
    · rw [hop]
      rfl
  cases hphase : call.phase with
  | entered =>
    exact absurd (by rw [Call.advance, if_pos hphase, hbuild]) (hmove .send _ trivial)
  | waiting =>
    cases hqueue : call.userQueue with
    | nil =>
      exact absurd (by rw [Call.advance, if_pos ⟨hphase, hqueue⟩]) (hmove .timeout _ trivial)
    | cons m' queue =>
      exact absurd (by rw [Call.advance, hphase, hqueue]) (hmove .receive _ trivial)
  | stored =>
    rcases hawaits with ⟨entity, hop⟩ | ⟨entity, hop⟩
    · exact absurd (by rw [Call.advance, hphase, hop]) (hmove .test _ trivial)
    · exact absurd (by rw [Call.advance, hphase, hop]) (hmove .build _ trivial)
  | tested =>
    unfold Call.Stage at hstage
    rw [hphase] at hstage
    obtain ⟨-, -, entity, hop⟩ := hstage
    obtain ⟨call', hwrite⟩ := exists_write hphase hop s.attributes file
    exact absurd (by rw [Call.advance, hwrite, Option.map_some]) (hmove (.write file) _ rfl)
  | written => exact absurd (by rw [Call.advance, hphase]) (hmove .build _ trivial)
  | returned r => trivial
  | raised e => trivial

end Runs

theorem awaits_renamed {operation : Operation} (h : operation.Awaits) :
    operation.renamed.Awaits := by
  rcases h with ⟨entity, rfl⟩ | ⟨entity, rfl⟩
  · exact .inl ⟨_, rfl⟩
  · exact .inr ⟨_, rfl⟩

theorem alone_enter {s : Center} (hs : Reaches Prompt s) (hidle : s.dispatcher = .idle)
    (hquiet : s.recvMsgQueue = []) {operation : Operation} (hcheck : operation.check = .ok ())
    {m : Message} {script : List Message} (file : Option Details)
    (hids : ∀ m ∈ script, m.transactionID = some (nextCounter s.counter * 2))
    (hfind : script.find? Message.Keyed = some m) :
    Alone file s.calls.length operation.renamed m (s.enter operation, script) := by
  have hprompt : Prompt s (.call operation) := by
    rw [Prompt, hidle]
    simp [Dispatcher.further]
  have hcall : (s.enter operation).calls[s.calls.length]? =
      some ⟨operation.renamed, nextCounter s.counter * 2, .entered, [], none, [], none⟩ := by
    rw [getElem?_enter, if_pos rfl]
  have hqueue : (s.enter operation).recvMsgQueue ++ script = script := by
    simp [Center.enter, hquiet]
  rw [hs.routed.nextCounter_eq] at hids
  refine ⟨hs.step hprompt (by rw [step, hcheck]), by simp [Center.enter], ?_, _, hcall, rfl, ?_, ?_⟩
  · rwa [hqueue]
  · refine ⟨rfl, fun entity hop ↦ ?_⟩
    cases operation with
    | getProperties => rfl
    | register | unregister | createRelationship | setProperties => cases hop
  · rw [hqueue]
    exact .inl ⟨rfl, hfind⟩

theorem find?_keyed {operation : Operation} {before : List Message} {final : Message} {id : ℕ}
    (hfinal : final.key = some id)
    (hbefore : ∀ m ∈ before, m.key = none ∨ operation.answer m = .ok none) :
    ((before ++ [final]).find? Message.Keyed = some final ∧ ∀ m ∈ before, m.key = none) ∨
      ∃ m, (before ++ [final]).find? Message.Keyed = some m ∧ operation.answer m = .ok none ∧
        ¬ ∀ m ∈ before, m.key = none := by
  rw [List.find?_append]
  cases hfind : before.find? Message.Keyed with
  | none =>
    left
    have hnone := List.find?_eq_none.mp hfind
    refine ⟨by simp [Message.Keyed, hfinal], fun m hm ↦ ?_⟩
    simpa [Message.Keyed] using hnone m hm
  | some m =>
    right
    have hmem := List.mem_of_find?_eq_some hfind
    have hkeyed : m.key ≠ none := by
      have hsome := List.find?_some hfind
      exact Option.isSome_iff_ne_none.mp hsome
    exact ⟨m, rfl, (hbefore m hmem).resolve_left hkeyed, fun h ↦ hkeyed (h m hmem)⟩

/-- Registration and `get_properties` return the final answer just in case it is the first message
with their id that the dispatcher can look up and, for a registration, the uuid is not empty and can
be logged and `iotcc.json` can take the entity up. With the other steps taken in any order and every
message in time, every run ends, and it ends with the call returned with the result of the final
answer if and only if that is so. -/
theorem final_answer_returned_iff_first {s : Center} (hs : Reaches Prompt s)
    (hidle : s.dispatcher = .idle) (hquiet : s.recvMsgQueue = []) (operation : Operation)
    (hawaits : operation.Awaits) (hcheck : operation.check = .ok ()) (file : Option Details)
    (before : List Message) (final : Message) (r : Result)
    (hids : ∀ m ∈ before ++ [final], m.transactionID = some (nextCounter s.counter * 2))
    (hbefore : ∀ m ∈ before, m.key = none ∨ operation.answer m = .ok none)
    (hfinal : operation.Final final r) :
    Acc (fun q p ↦ AloneStep file s.calls.length p q) (s.enter operation, before ++ [final]) ∧
    ∀ t rest, ReflTransGen (AloneStep file s.calls.length) (s.enter operation, before ++ [final])
        (t, rest) →
      (∀ q, ¬ AloneStep file s.calls.length (t, rest) q) →
      ∃ call, t.calls[s.calls.length]? = some call ∧ call.operation = operation.renamed ∧
        (call.phase = .returned r ↔
          (∀ m ∈ before, m.key = none) ∧ operation.renamed.Recordable file r) := by
  constructor
  · have hwf := (measure stepsLeft).wf
    exact (Subrelation.wf (fun h ↦ AloneStep.stepsLeft_lt h) hwf).apply _
  intro t rest hrun hstuck
  have hkey : final.key = some (nextCounter s.counter * 2) :=
    hfinal.key.trans (hids final (by simp))
  have hended (m : Message) (hfind : (before ++ [final]).find? Message.Keyed = some m)
      (hsound : operation.renamed.Sound m) :
      ∃ call, t.calls[s.calls.length]? = some call ∧ call.operation = operation.renamed ∧
        call.phase.Ended ∧ call.Stage file t.attributes m := by
    have hreached (q : Center × List Message) (hq : ReflTransGen (AloneStep file s.calls.length)
        (s.enter operation, before ++ [final]) q) :
        Alone file s.calls.length operation.renamed m q := by
      induction hq with
      | refl => exact alone_enter hs hidle hquiet hcheck file hids hfind
      | tail _ hstep ih => exact ih.next (awaits_renamed hawaits) hsound hstep
    have halone := hreached (t, rest) hrun
    obtain ⟨-, -, -, call, hcall, hop, hstage, -⟩ := id halone
    exact ⟨call, hcall, hop, halone.ended (awaits_renamed hawaits) hstuck hcall, hstage⟩
  rcases find?_keyed hkey hbefore with ⟨hfind, hnone⟩ | ⟨m, hfind, hpassed, hnot⟩
  · obtain ⟨call, hcall, hop, hend, hstage⟩ := hended final hfind (.inr ⟨r, hfinal.renamed⟩)
    refine ⟨call, hcall, hop, ?_⟩
    unfold Call.Stage at hstage
    rw [hop] at hstage
    have hanswer := hfinal.renamed.answer
    cases hphase : call.phase with
    | returned r' =>
      rw [hphase] at hstage
      rcases hstage with ⟨hr, hrecord⟩ | ⟨hr, -⟩
      · rcases hanswer with hok | ⟨herror, -⟩
        · obtain rfl := Option.some.inj (Except.ok.inj (hok.symm.trans hr))
          exact ⟨fun _ ↦ ⟨hnone, hrecord⟩, fun _ ↦ rfl⟩
        · rw [herror] at hr
          cases hr
      · rcases hanswer with hok | ⟨herror, -⟩
        · rw [hok] at hr
          cases hr
        · rw [herror] at hr
          cases hr
    | raised e =>
      rw [hphase] at hstage
      refine ⟨by simp, fun h ↦ ?_⟩
      rcases hanswer with hok | ⟨-, hrecord⟩
      · exact absurd ⟨hok, h.2⟩ (hstage r)
      · exact absurd h.2 (hrecord file)
    | entered | waiting | stored | tested | written => simp [hphase, Phase.Ended] at hend
  · rw [← answer_renamed] at hpassed
    obtain ⟨call, hcall, hop, -, hstage⟩ := hended m hfind (.inl hpassed)
    refine ⟨call, hcall, hop, fun hphase ↦ ?_, fun h ↦ absurd h.1 hnot⟩
    unfold Call.Stage at hstage
    rw [hphase, hop] at hstage
    rcases hstage with ⟨hr, -⟩ | ⟨-, hr⟩
    · rw [hpassed] at hr
      cases hr
    · exact absurd hr hfinal.ne_none

/-- The registration of an edge system whose first answer is the final one. -/
theorem final_answer_returned_iff_first_alone :
    ∃ t rest, ReflTransGen (AloneStep (some createIotccJson) 0)
        (Center.initial.enter (.register gateway), [resourceFound 2 "u".toList "1".toList])
        (t, rest) ∧
      (∀ q, ¬ AloneStep (some createIotccJson) 0 (t, rest) q) ∧
      ∃ call, t.calls[0]? = some call ∧ call.phase = .returned (.entity (some "u".toList)) := by
  have hcheck : (Operation.register gateway).check = .ok () := by decide
  have hids : ∀ m ∈ [resourceFound 2 "u".toList "1".toList],
      m.transactionID = some (nextCounter Center.initial.counter * 2) := by decide
  have hnull : "u".toList ≠ "null".toList := by decide
  have hfinal : (Operation.register gateway).Final (resourceFound 2 "u".toList "1".toList)
      (.entity (some "u".toList)) := .register rfl rfl rfl hnull rfl
  have hrecord : (Operation.register gateway).renamed.Recordable (some createIotccJson)
      (.entity (some "u".toList)) := by
    refine ⟨by decide, by decide, ?_⟩
    unfold Entity.Storable
    decide
  obtain ⟨hends, hresult⟩ := final_answer_returned_iff_first .init rfl rfl (.register gateway)
    (.inl ⟨_, rfl⟩) hcheck (some createIotccJson) [] (resourceFound 2 "u".toList "1".toList) _ hids
    (by simp) hfinal
  obtain ⟨⟨t, rest⟩, hrun, hstuck⟩ := Graph.exists_stuck_of_acc hends
  obtain ⟨call, hcall, -, hreturned⟩ := hresult t rest hrun hstuck
  exact ⟨t, rest, hrun, hstuck, call, hcall, hreturned.mpr ⟨by simp, hrecord⟩⟩

/-- An answer that a resource is still being created, and then the final one: only the first is
handed over, so the registration waits until it times out. -/
theorem later_answer_is_lost :
    let pending := resourceFound 2 "null".toList "a".toList
    let final := resourceFound 2 "u".toList "a".toList
    let actions : List Action := [.move 0 .send, .arrive pending, .arrive final, .take, .remove,
      .put, .move 0 .receive, .take, .move 0 .timeout]
    (Operation.register (sensor "a")).answer pending = .ok none ∧
    (Operation.register (sensor "a")).Final final (.entity (some "u".toList)) ∧
    ∃ s, run (fun _ _ ↦ True) (.call (.register (sensor "a")) :: actions) .initial = some s ∧
      s.recvMsgQueue = [] ∧ s.dispatcher = .idle ∧
      s.calls.map Call.phase = [.raised .exception] := by
  intro pending final actions
  have hrun : (run (fun _ _ ↦ True) (.call (.register (sensor "a")) :: actions) .initial).map
      (fun s ↦ (s.recvMsgQueue, s.dispatcher, s.calls.map Call.phase)) =
      some ([], .idle, [.raised .exception]) := by decide
  obtain ⟨s, hs, heq⟩ := Option.map_eq_some_iff.mp hrun
  obtain ⟨hqueue, hrest⟩ := Prod.mk.inj heq
  obtain ⟨hidle, hphase⟩ := Prod.mk.inj hrest
  have hpending : registered "a".toList pending = .ok none := by decide
  have hnull : "u".toList ≠ "null".toList := by decide
  refine ⟨?_, .register rfl rfl rfl hnull rfl, s, hs, hqueue, hidle, hphase⟩
  exact congrArg (Except.map (Option.map (Result.entity ∘ some))) hpending

end Liota.Dccs.IotControlCenter
