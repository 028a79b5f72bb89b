import Mathlib.Algebra.Ring.Parity
import Mathlib.Data.List.AList
import Liota.Dccs.IotControlCenter.IotccJson

namespace Liota.Dccs.IotControlCenter

open Python.Computation Python.Text

def clientVersion : ℕ := 20171118

structure Body where
  uuid : Option Str
  id : Option Str
  result : Option Str
  propertyList : Option (List (Str × Str))
  deriving DecidableEq, Repr

/-- A message from the server. `type` is `none` if it is missing, and `transactionID` if it is
missing or is nothing that `_next_id` returns, or if the text is not JSON at all. -/
structure Message where
  type : Option Str
  transactionID : Option ℕ
  version : ℕ
  body : Body
  deriving DecidableEq, Repr

def Message.logType (m : Message) : Except PyErr Unit :=
  match m.type with
  | none => .error .keyError
  | some type => if ascii type then .ok () else .error .valueError

/-- The id that the dispatcher looks up. It logs the type before, and drops the message if that
raises. -/
def Message.key (m : Message) : Option ℕ := if m.logType.isOk then m.transactionID else none

/-- A property value; `none` stands for one that is not a string. -/
abbrev PropertyValue := Option Str

/-- The requests. `create_relationship` for a metric makes none of its own: it sets the unit as
properties. -/
inductive Operation
  | register (entity : Entity)
  | unregister (entity : Entity) (regEntityId : Str)
  | createRelationship (parent child : Entity)
  | setProperties (entity : Entity) (properties : List (Str × PropertyValue))
  | getProperties (entity : Entity)
  deriving DecidableEq, Repr

/-- The characters of `[A-Za-z0-9\s\._-]`. -/
def admitted (c : Char) : Bool :=
  c.isAlphanum || c ∈ [' ', '\t', '\n', '\r', '\x0b', '\x0c', '.', '_', '-']

def assertInput (maxLength : ℕ) (input : Str) : Except PyErr Unit :=
  if input ≠ [] ∧ input.all admitted ∧ input.length ≤ maxLength then .ok ()
  else .error .valueError

/-- `re.match` on a value that is not a string is a `TypeError`. -/
def assertProperty (property : Str × PropertyValue) : Except PyErr Unit := do
  assertInput 100 property.1
  match property.2 with
  | some value => assertInput 255 value
  | none => .error .typeError

def Operation.check : Operation → Except PyErr Unit
  | .register entity => do
    assertInput 50 entity.name
    assertInput 50 entity.entityType
  | _ => .ok ()

def Operation.build : Operation → Except PyErr Unit
  | .setProperties _ properties => properties.forM assertProperty
  | _ => .ok ()

def checkVersion (m : Message) : Except PyErr Unit :=
  if m.version = clientVersion then .ok () else .error .exception

/-- The uuid that a message gives an entity, or `none` if it is not the final answer. -/
def resourceUuid (entityId : Str) (m : Message) : Except PyErr (Option Str) :=
  if m.type = some "create_or_find_resource_response".toList then
    match m.body.uuid, m.body.id with
    | none, _ => .error .keyError
    | some uuid, none => if uuid = "null".toList then .ok none else .error .keyError
    | some uuid, some id =>
      if uuid ≠ "null".toList ∧ id = entityId then
        -- the line that logs the uuid
        if ascii uuid then .ok (some uuid) else .error .valueError
      else .ok none
  else .ok none

/-- `on_response` of `register`. -/
def registered (entityId : Str) (m : Message) : Except PyErr (Option Str) := do
  m.logType
  checkVersion m
  resourceUuid entityId m

def propertiesOf (entityId : Str) (m : Message) : Except PyErr (Option (List (Str × Str))) :=
  if m.type = some "get_properties_response".toList then
    match m.body.id with
    | none => .error .keyError
    | some id =>
      if id ≠ "null".toList ∧ id = entityId then
        match m.body.propertyList with
        | none => .error .keyError
        | some properties => .ok (some properties)
      else .ok none
  else .ok none

/-- `on_response` of `get_properties`. -/
def foundProperties (entityId : Str) (m : Message) : Except PyErr (Option (List (Str × Str))) := do
  m.logType
  checkVersion m
  propertiesOf entityId m

def handleResponse (m : Message) : Except PyErr Bool := do
  m.logType
  checkVersion m
  match m.body.result with
  | none => .error .keyError
  | some result => .ok (result = "succeeded".toList)

/-- What `register` does to `iotcc.json`; `none` is a file that no record can be loaded from, which
is only logged. -/
def storeDetails (entity : Entity) (uuid : Str) : Option Details → Except PyErr Unit
  | some d =>
    if entity.entityType = "HelixGateway".toList then
      (storeRegEntityDetails entity.entityType entity.name uuid entity.entityId d).map fun _ ↦ ()
    else .ok ()
  | none => .ok ()

/-- What `unregister` does to it; there the `ValueError` of a file like that is not caught. -/
def removeDetails (entity : Entity) (uuid : Str) (file : Option Details) : Except PyErr Unit :=
  if entity.entityType = "HelixGateway".toList then
    match file with
    | some d => (removeRegEntityDetails entity.name uuid d).map fun _ ↦ ()
    | none => .error .valueError
  else .ok ()

inductive Result
  | entity (regEntityId : Option Str)
  | properties (propList : Option (List (Str × Str)))
  | done
  deriving DecidableEq, Repr

/-- How far a call has come after its request was put into the table. -/
inductive Phase
  | entered
  | waiting
  | stored
  | tested
  | written
  | returned (result : Result)
  | raised (e : PyErr)
  deriving DecidableEq, Repr

/-- A call that has made its request. `userQueue` is the queue that its thread waits on and
`record` the uuid under which it wrote the local entity record. Of the two ghost fields,
`received` lists all that was ever put into the queue, and `first` is the first message with its
id that the dispatcher took since, with the number of ids allocated until then. -/
structure Call where
  operation : Operation
  transactionId : ℕ
  phase : Phase
  userQueue : List Message
  record : Option Str
  received : List Message
  first : Option (Message × ℕ)
  deriving DecidableEq, Repr

/-- The attributes through which operations pass their results to themselves. -/
structure Attributes where
  regEntityId : Option Str
  propList : Option (List (Str × Str))
  deriving DecidableEq, Repr

/-- `_dispatch_recvd_msg` between its accesses to the table: it has found the request of a call,
and it has removed it. -/
inductive Dispatcher
  | idle
  | found (m : Message) (c : ℕ)
  | removed (m : Message) (c : ℕ)
  deriving DecidableEq, Repr

/-- An `IotControlCenter` with the calls made on it, in the order of their transaction ids. The
table maps a transaction id to the call that waits for it. The ghost field `raises` counts how
often deleting from the table raised. -/
structure Center where
  counter : ℕ
  reqDict : AList (fun _ : ℕ ↦ ℕ)
  attributes : Attributes
  recvMsgQueue : List Message
  dispatcher : Dispatcher
  calls : List Call
  raises : ℕ

def Center.initial : Center := ⟨0, ∅, ⟨none, none⟩, [], .idle, [], 0⟩

/-- What a caller does next, on its own: each is one step of the interleaving. `write` finds in
`iotcc.json` what it carries, as others write that file, too; `writeFails` is an exception of the
other files that are written with it. -/
inductive Move
  | send
  | sendFails (e : PyErr)
  | receive
  | timeout
  | test
  | write (file : Option Details)
  | writeFails (e : PyErr)
  | build
  deriving DecidableEq

inductive Action
  | call (operation : Operation)
  | move (c : ℕ) (move : Move)
  | arrive (m : Message)
  | take
  | remove
  | put
  deriving DecidableEq

/-- `self.counter = (self.counter + 1) & 0xffffff`, and the id is twice that. -/
def nextCounter (counter : ℕ) : ℕ := (counter + 1) % 2 ^ 24

def Operation.renamed : Operation → Operation
  | .register entity => .register { entity with entityType := entity.registeredType }
  | operation => operation

def Center.enter (s : Center) (operation : Operation) : Center :=
  let counter := nextCounter s.counter
  { s with
    counter := counter
    reqDict := s.reqDict.insert (counter * 2) s.calls.length
    attributes :=
      match operation with
      | .getProperties _ => { s.attributes with propList := none }
      | _ => s.attributes
    calls := s.calls ++ [⟨operation.renamed, counter * 2, .entered, [], none, [], none⟩] }

/-- A call that was given a message. A message that is not the final one makes `get_properties`
look for a queue that the object does not have; like every exception there, that is logged. -/
def Call.receive (attributes : Attributes) (call : Call) (m : Message) : Attributes × Call :=
  match call.operation with
  | .register entity =>
    match registered entity.entityId m with
    | .error e => (attributes, { call with phase := .raised e })
    | .ok none => (attributes, call)
    | .ok (some uuid) =>
      ({ attributes with regEntityId := some uuid }, { call with phase := .stored })
  | .getProperties entity =>
    match foundProperties entity.entityId m with
    | .ok (some properties) =>
      ({ attributes with propList := some properties }, { call with phase := .stored })
    | _ => (attributes, { call with phase := .stored })
  | operation =>
    match handleResponse m with
    | .error e => (attributes, { call with phase := .raised e })
    | .ok false => (attributes, { call with phase := .raised .exception })
    | .ok true =>
      match operation with
      | .createRelationship _ _ => (attributes, { call with phase := .returned .done })
      | _ => (attributes, { call with phase := .stored })

/-- `if not self.reg_entity_id`. -/
def testEntityId : Option Str → Phase
  | none => .raised .attributeError
  | some [] => .raised .exception
  | some _ => .tested

/-- A call that updates the local files. -/
def Call.write (attributes : Attributes) (call : Call) (file : Option Details) : Option Call :=
  match call.phase, call.operation with
  | .tested, .register entity =>
    match attributes.regEntityId with
    | none => some { call with phase := .raised .attributeError }
    | some uuid =>
      match storeDetails entity uuid file with
      | .error e => some { call with phase := .raised e }
      | .ok () => some { call with phase := .written, record := some uuid }
  | .stored, .unregister entity regEntityId =>
    match removeDetails entity regEntityId file with
    | .error e => some { call with phase := .raised e }
    | .ok () => some { call with phase := .returned .done }
  | .stored, .setProperties _ _ => some { call with phase := .returned .done }
  | _, _ => none

/-- One step of a caller. Building the message may raise, and so may sending it. -/
def Call.advance (attributes : Attributes) (call : Call) : Move → Option (Attributes × Call)
  | .send =>
    if call.phase = .entered then
      match call.operation.build with
      | .error e => some (attributes, { call with phase := .raised e })
      | .ok () => some (attributes, { call with phase := .waiting })
    else none
  | .sendFails e =>
    if call.phase = .entered ∧ call.operation.build.isOk then
      some (attributes, { call with phase := .raised e })
    else none
  | .receive =>
    match call.phase, call.userQueue with
    | .waiting, m :: rest => some (Call.receive attributes { call with userQueue := rest } m)
    | _, _ => none
  | .timeout =>
    if call.phase = .waiting ∧ call.userQueue = [] then
      some (attributes, { call with phase := .raised .exception })
    else none
  | .test =>
    match call.phase, call.operation with
    | .stored, .register _ =>
      some (attributes, { call with phase := testEntityId attributes.regEntityId })
    | _, _ => none
  | .write file => (call.write attributes file).map fun call' ↦ (attributes, call')
  | .writeFails e =>
    if (call.write attributes none).isSome then some (attributes, { call with phase := .raised e })
    else none
  | .build =>
    match call.phase, call.operation with
    | .written, _ =>
      some (attributes, { call with phase := .returned (.entity attributes.regEntityId) })
    | .stored, .getProperties _ =>
      some (attributes, { call with phase := .returned (.properties attributes.propList) })
    | _, _ => none

def Call.note (m : Message) (allocated : ℕ) (call : Call) : Call :=
  if m.key = some call.transactionId ∧ call.first = none then
    { call with first := some (m, allocated) }
  else call

def Call.give (m : Message) (call : Call) : Call :=
  { call with userQueue := call.userQueue ++ [m], received := call.received ++ [m] }

/-- The dispatcher looks a message's request up; a message without one is only logged. -/
def Center.take (s : Center) : Option Center :=
  match s.dispatcher, s.recvMsgQueue with
  | .idle, m :: rest =>
    some { s with
      recvMsgQueue := rest
      calls := s.calls.map (Call.note m s.calls.length)
      dispatcher :=
        match m.key.bind fun id ↦ s.reqDict.lookup id with
        | some c => .found m c
        | none => .idle }
  | _, _ => none

/-- `del self._req_dict[...]`; its exception would be logged and the message lost. -/
def Center.remove (s : Center) : Option Center :=
  match s.dispatcher with
  | .found m c =>
    some (match m.key with
      | some id =>
        if id ∈ s.reqDict then { s with reqDict := s.reqDict.erase id, dispatcher := .removed m c }
        else { s with raises := s.raises + 1, dispatcher := .idle }
      | none => { s with raises := s.raises + 1, dispatcher := .idle })
  | _ => none

def Center.put (s : Center) : Option Center :=
  match s.dispatcher with
  | .removed m c => some { s with calls := s.calls.modify c (Call.give m), dispatcher := .idle }
  | _ => none

/-- One step of the system, where it is possible. -/
def step : Action → Center → Option Center
  | .call operation, s =>
    match operation.check with
    | .error _ => some s
    | .ok () => some (s.enter operation)
  | .move c move, s =>
    match s.calls[c]? with
    | none => none
    | some call =>
      (call.advance s.attributes move).map fun r ↦
        { s with attributes := r.1, calls := s.calls.set c r.2 }
  | .arrive m, s => some { s with recvMsgQueue := s.recvMsgQueue ++ [m] }
  | .take, s => s.take
  | .remove, s => s.remove
  | .put, s => s.put

/-- The states that the system can reach by steps that meet a condition. -/
inductive Reaches (condition : Center → Action → Prop) : Center → Prop
  | init : Reaches condition Center.initial
  | step {s t : Center} {a : Action} (h : Reaches condition s) (hcond : condition s a)
      (hstep : step a s = some t) : Reaches condition t

def run (condition : Center → Action → Prop) [∀ s a, Decidable (condition s a)] :
    List Action → Center → Option Center
  | [], s => some s
  | a :: rest, s => if condition s a then (step a s).bind (run condition rest) else none

theorem key_eq_some_iff {m : Message} {id : ℕ} :
    m.key = some id ↔ m.logType = .ok () ∧ m.transactionID = some id := by
  unfold Message.key
  cases m.logType with
  | error e => simp [Except.isOk, Except.toBool]
  | ok u => simp [Except.isOk, Except.toBool]

theorem checked_eq_ok_iff {α : Type} {m : Message} {x : Except PyErr α} {a : α} :
    (m.logType >>= fun _ ↦ checkVersion m >>= fun _ ↦ x) = .ok a ↔
      m.logType = .ok () ∧ checkVersion m = .ok () ∧ x = .ok a := by
  cases m.logType with
  | error e => simp [bind, Except.bind]
  | ok u =>
    cases checkVersion m with
    | error e => simp [bind, Except.bind]
    | ok u => simp [bind, Except.bind]

end Liota.Dccs.IotControlCenter
