import Liota.Dccs.IotControlCenter.Ending

namespace Liota.Dccs.IotControlCenter

open Python Python.Computation Python.Text

def Operation.registering : Operation → Option Entity
  | .register entity => some entity
  | _ => none

def finalUuid (entity : Entity) (m : Message) : Option Str :=
  match registered entity.entityId m with
  | .ok (some uuid) => if uuid = [] then none else some uuid
  | _ => none

/-- `iotcc.json` can take the entity up: for an edge system its entry has to be there to fill, and
what is then written has to be ASCII. -/
def Entity.Storable (entity : Entity) (file : Option Details) : Prop :=
  entity.entityType = "HelixGateway".toList → ∀ d ∈ file, d.edgeSystem ≠ none ∧
    ascii entity.entityId = true ∧ { d with edgeSystem := none }.texts.all ascii = true

/-- The moves of a registration that is sent, gets its final answer and does not time out, and finds
the local files fit to be written. -/
def Call.Replied (call : Call) (entity : Entity) : Move → Prop
  | .sendFails _ => False
  | .timeout => False
  | .writeFails _ => False
  | .write file => entity.Storable file
  | .receive => ∀ m ∈ call.userQueue.head?, (finalUuid entity m).isSome = true
  | _ => True

/-- Every registration that reads a message reads its final answer, and none fails to send, times
out, or fails to write. -/
def Replied (s : Center) : Action → Prop
  | .move c move => ∀ call ∈ s.calls[c]?, ∀ entity ∈ call.operation.registering,
      call.Replied entity move
  | _ => True

def Call.InSection (call : Call) : Prop :=
  call.operation.registering.isSome = true ∧
    (call.phase = .stored ∨ call.phase = .tested ∨ call.phase = .written)

/-- No call other than `c` is still to use a uuid other than the given one. -/
def Center.Clear (s : Center) (c : ℕ) (uuid : Option Str) : Prop :=
  ∀ d < s.calls.length, d ≠ c → ∀ other ∈ s.calls[d]?, other.InSection →
    s.attributes.regEntityId = uuid

def Apart (s : Center) : Action → Prop
  | .move c .receive => ∀ call ∈ s.calls[c]?, ∀ entity ∈ call.operation.registering,
      ∀ m ∈ call.userQueue.head?, s.Clear c (finalUuid entity m)
  | _ => True

instance (entity : Entity) (file : Option Details) : Decidable (entity.Storable file) :=
  inferInstanceAs (Decidable (_ → ∀ d ∈ file, _))

instance (call : Call) (entity : Entity) : ∀ move : Move, Decidable (call.Replied entity move)
  | .sendFails _ | .timeout | .writeFails _ => inferInstanceAs (Decidable False)
  | .write file => inferInstanceAs (Decidable (entity.Storable file))
  | .receive => inferInstanceAs
      (Decidable (∀ m ∈ call.userQueue.head?, (finalUuid entity m).isSome = true))
  | .send | .test | .build => inferInstanceAs (Decidable True)

instance : ∀ (s : Center) (a : Action), Decidable (Replied s a)
  | s, .move c move => inferInstanceAs (Decidable (∀ call ∈ s.calls[c]?,
      ∀ entity ∈ call.operation.registering, call.Replied entity move))
  | _, .call _ | _, .arrive _ | _, .take | _, .remove | _, .put => inferInstanceAs (Decidable True)

instance (call : Call) : Decidable call.InSection := inferInstanceAs (Decidable (_ ∧ _))

instance (s : Center) (c : ℕ) (uuid : Option Str) : Decidable (s.Clear c uuid) :=
  inferInstanceAs (Decidable (∀ d < s.calls.length, d ≠ c → ∀ other ∈ s.calls[d]?,
    other.InSection → s.attributes.regEntityId = uuid))

instance : ∀ (s : Center) (a : Action), Decidable (Apart s a)
  | s, .move c .receive => inferInstanceAs (Decidable (∀ call ∈ s.calls[c]?,
      ∀ entity ∈ call.operation.registering, ∀ m ∈ call.userQueue.head?,
        s.Clear c (finalUuid entity m)))
  | _, .move _ .send | _, .move _ (.sendFails _) | _, .move _ .timeout | _, .move _ .test
  | _, .move _ (.write _) | _, .move _ (.writeFails _) | _, .move _ .build =>
    inferInstanceAs (Decidable True)
  | _, .call _ | _, .arrive _ | _, .take | _, .remove | _, .put => inferInstanceAs (Decidable True)

def Registers (entity : Entity) (uuid : Str) (m : Message) : Prop :=
  registered entity.entityId m = .ok (some uuid) ∧ uuid ≠ []

theorem registers_of_finalUuid {entity : Entity} {uuid : Str} {m : Message}
    (h : finalUuid entity m = some uuid) : Registers entity uuid m := by
  unfold finalUuid at h
  split at h
  · next hm =>
    split at h
    · cases h
    · next hne =>
      cases h
      exact ⟨hm, hne⟩
  · cases h

theorem Registers.ascii_uuid {entity : Entity} {uuid : Str} {m : Message}
    (h : Registers entity uuid m) : ascii uuid = true := by
  obtain ⟨-, -, hbody⟩ := checked_eq_ok_iff.mp h.1
  unfold resourceUuid at hbody
  split at hbody
  · split at hbody
    · cases hbody
    · split at hbody <;> cases hbody
    · split at hbody
      · split at hbody
        · next hascii =>
          cases hbody
          exact hascii
        · cases hbody
      · cases hbody
  · cases hbody

theorem toNat_lt_of_isAlphanum {c : Char} (h : c.isAlphanum = true) : c.toNat < 128 := by
  have hletter : (((c.val ≥ 'A'.val ∧ c.val ≤ 'Z'.val : Bool) ||
      (c.val ≥ 'a'.val && c.val ≤ 'z'.val)) || (c.val ≥ '0'.val && c.val ≤ '9'.val)) = true := h
  simp only [Bool.or_eq_true, Bool.and_eq_true, decide_eq_true_eq, ge_iff_le,
    UInt32.le_iff_toNat_le] at hletter
  simp at hletter
  omega

theorem ascii_of_assertInput {maxLength : ℕ} {input : Str}
    (h : assertInput maxLength input = .ok ()) : ascii input = true := by
  unfold assertInput at h
  split at h
  · next hinput =>
    refine List.all_eq_true.mpr fun c hc ↦ ?_
    have hadmitted := List.all_eq_true.mp hinput.2.1 c hc
    rw [decide_eq_true_eq]
    simp only [admitted, Bool.or_eq_true, decide_eq_true_eq, List.mem_cons, List.not_mem_nil,
      or_false] at hadmitted
    rcases hadmitted with hletter | hother
    · exact toNat_lt_of_isAlphanum hletter
    · rcases hother with rfl | rfl | rfl | rfl | rfl | rfl | rfl | rfl | rfl <;> decide
  · cases h

theorem ascii_name_of_check {entity : Entity} (h : (Operation.register entity).check = .ok ()) :
    ascii entity.name = true := by
  unfold Operation.check at h
  cases hname : assertInput 50 entity.name with
  | error e => simp [hname, bind, Except.bind] at h
  | ok u => exact ascii_of_assertInput hname

def Named (s : Center) : Prop :=
  ∀ (c : ℕ) (call : Call) (entity : Entity), s.calls[c]? = some call →
    call.operation = .register entity → ascii entity.name = true

theorem Reaches.named {condition : Center → Action → Prop} {s : Center}
    (h : Reaches condition s) : Named s := by
  refine h.invariant ?_ ?_
  · intro c call entity hcall
    simp [Center.initial] at hcall
  · intro s a t _ _ hstep ih c call entity hcall hop
    rcases hstep.operation hcall with ⟨old, hold, hsame⟩ | ⟨operation, hcheck, hsame⟩
    · exact ih c old entity hold (hsame ▸ hop)
    · cases operation with
      | register other =>
        rw [hsame] at hop
        obtain rfl := Operation.register.inj hop
        have hname : ascii other.name = true := ascii_name_of_check hcheck
        exact hname
      | unregister | createRelationship | setProperties | getProperties =>
        rw [hsame] at hop
        cases hop

theorem storeDetails_eq_ok_iff {entity : Entity} {uuid : Str} (hname : ascii entity.name = true)
    (huuid : ascii uuid = true) (file : Option Details) :
    storeDetails entity uuid file = .ok () ↔ entity.Storable file := by
  unfold Entity.Storable storeDetails
  cases file with
  | none => simp
  | some d =>
    dsimp only
    split
    · next htype =>
      simp only [htype, forall_const, Option.mem_def, Option.some.injEq, forall_eq']
      rw [← store_edgeSystem_iff hname huuid]
      cases storeRegEntityDetails "HelixGateway".toList entity.name uuid entity.entityId d with
      | error e => simp [Except.map]
      | ok d' => simp [Except.map]
    · next htype => simp only [htype, false_imp_iff]

def Call.Answered (call : Call) (entity : Entity) (uuid : Str) : Prop :=
  ∃ m, call.received = [m] ∧ Registers entity uuid m

def Call.Own (attributes : Attributes) (entity : Entity) (call : Call) : Prop :=
  match call.phase with
  | .entered | .waiting => call.userQueue = call.received
  | .stored | .tested => ∃ uuid, call.Answered entity uuid ∧ attributes.regEntityId = some uuid
  | .written => ∃ uuid, call.Answered entity uuid ∧ attributes.regEntityId = some uuid ∧
    call.record = some uuid
  | .returned r => ∃ uuid, call.Answered entity uuid ∧ r = .entity (some uuid) ∧
    call.record = some uuid
  | .raised _ => False

def Owned (s : Center) : Prop :=
  ∀ (c : ℕ) (call : Call) (entity : Entity), s.calls[c]? = some call →
    call.operation = .register entity → call.Own s.attributes entity

section

variable {attributes attributes' : Attributes} {call call' : Call} {entity : Entity} {move : Move}

theorem Call.Own.of_attributes (h : call.Own attributes entity)
    (hop : call.operation = .register entity)
    (hsame : call.InSection → attributes'.regEntityId = attributes.regEntityId) :
    call.Own attributes' entity := by
  unfold Call.Own at h ⊢
  split
  · next hphase => simpa only [hphase] using h
  · next hphase => simpa only [hphase] using h
  · next hphase =>
    simp only [hphase] at h
    rwa [hsame ⟨by simp [hop, Operation.registering], .inl hphase⟩]
  · next hphase =>
    simp only [hphase] at h
    rwa [hsame ⟨by simp [hop, Operation.registering], .inr (.inl hphase)⟩]
  · next hphase =>
    simp only [hphase] at h
    rwa [hsame ⟨by simp [hop, Operation.registering], .inr (.inr hphase)⟩]
  · next hphase => simpa only [hphase] using h
  · next hphase => simp only [hphase] at h

theorem receive_register (attributes : Attributes) (call : Call) {m : Message} {uuid : Str}
    (hop : call.operation = .register entity) (hm : Registers entity uuid m) :
    Call.receive attributes call m =
      ({ attributes with regEntityId := some uuid }, { call with phase := .stored }) := by
  simp only [Call.receive, hop, hm.1]

theorem Advances.regEntityId (h : Advances attributes call move attributes' call') :
    attributes'.regEntityId = attributes.regEntityId ∨
      (move = .receive ∧ ∃ entity, call.operation = .register entity) := by
  cases h with
  | @received m rest =>
    cases hop : call.operation with
    | register entity => exact .inr ⟨rfl, entity, rfl⟩
    | getProperties entity =>
      left
      simp only [Call.receive]
      split <;> rfl
    | createRelationship =>
      left
      simp only [Call.receive]
      split <;> rfl
    | unregister | setProperties =>
      left
      simp only [Call.receive]
      split <;> rfl
  | rejected | sent | sendFailed | timedOut | tested | wrote | writeFailed | built | listed =>
    exact .inl rfl

theorem Call.Own.advance (h : call.Own attributes entity) (hop : call.operation = .register entity)
    (hname : ascii entity.name = true) (hlength : call.received.length ≤ 1)
    (hreply : call.Replied entity move)
    (hadvance : Advances attributes call move attributes' call') :
    call'.Own attributes' entity := by
  cases hadvance with
  | rejected _ hbuild => simp [hop, Operation.build] at hbuild
  | sent hphase => simpa only [Call.Own, hphase] using h
  | sendFailed => exact hreply.elim
  | @received m rest hphase hqueue =>
    obtain ⟨uuid, huuid⟩ := Option.isSome_iff_exists.mp (hreply m (by simp [hqueue]))
    have hm := registers_of_finalUuid huuid
    have hreceived : call.received = m :: rest := by
      simp only [Call.Own, hphase] at h
      rw [← h, hqueue]
    have hnil : rest = [] := by
      rw [hreceived, List.length_cons] at hlength
      exact List.length_eq_zero_iff.mp (by omega)
    rw [receive_register attributes { call with userQueue := rest } hop hm]
    exact ⟨uuid, ⟨m, by rw [hreceived, hnil], hm⟩, rfl⟩
  | timedOut => exact hreply.elim
  | tested hphase =>
    simp only [Call.Own, hphase] at h
    obtain ⟨uuid, hanswered, hregistered⟩ := h
    have hne : uuid ≠ [] := by
      obtain ⟨m, -, -, hne⟩ := hanswered
      exact hne
    obtain ⟨x, xs, rfl⟩ := List.exists_cons_of_ne_nil hne
    rw [hregistered]
    exact ⟨_, hanswered, hregistered⟩
  | @wrote file _ hwrite =>
    cases hwrite with
    | removeFailed _ hother | removed _ hother | properties _ hother =>
      rw [hop] at hother
      cases hother
    | unset hphase _ hid =>
      simp only [Call.Own, hphase, hid] at h
      obtain ⟨uuid, -, heq⟩ := h
      cases heq
    | storeFailed hphase hop' hid hstore =>
      simp only [Call.Own, hphase] at h
      obtain ⟨uuid, ⟨m, -, hm⟩, heq⟩ := h
      obtain rfl := Option.some.inj (hid.symm.trans heq)
      obtain rfl := Operation.register.inj (hop.symm.trans hop')
      have hok := (storeDetails_eq_ok_iff hname hm.ascii_uuid file).mpr hreply
      rw [hok] at hstore
      cases hstore
    | stored hphase _ hid =>
      simp only [Call.Own, hphase] at h
      obtain ⟨uuid, hanswered, heq⟩ := h
      obtain rfl := Option.some.inj (hid.symm.trans heq)
      exact ⟨_, hanswered, heq, rfl⟩
  | writeFailed => exact hreply.elim
  | built hphase =>
    simp only [Call.Own, hphase] at h
    obtain ⟨uuid, hanswered, hregistered, hrecord⟩ := h
    exact ⟨uuid, hanswered, by rw [hregistered], hrecord⟩
  | listed _ hother =>
    rw [hop] at hother
    cases hother

end

theorem Owned.steps {s t : Center} {a : Action} (hreplied : Replied s a) (hapart : Apart s a)
    (hs : Routed s) (hnames : Named s) (hstep : Steps a s t) (h : Owned s) : Owned t := by
  intro c call entity hcall hop
  cases hstep with
  | refused | arrived | removed | removeRaised => exact h c call entity hcall hop
  | @entered _ operation =>
    rw [getElem?_enter] at hcall
    split at hcall
    · obtain rfl := Option.some.inj hcall
      rfl
    · refine (h c call entity hcall hop).of_attributes hop fun _ ↦ ?_
      simp only [Center.enter]
      split <;> rfl
  | @moved _ d move old call' attributes hold hadvance =>
    by_cases hd : d = c
    · obtain rfl := hd
      obtain ⟨hlt, -⟩ := List.getElem?_eq_some_iff.mp hold
      obtain rfl : call' = call := by simpa [hlt] using hcall
      have hop' : old.operation = .register entity := hadvance.frame.1 ▸ hop
      have hreply := hreplied old hold entity (by simp [hop', Operation.registering])
      exact (h d old entity hold hop').advance hop' (hnames d old entity hold hop')
        (hs.received d old hold).1 hreply hadvance
    · rw [List.getElem?_set_ne hd] at hcall
      refine (h c call entity hcall hop).of_attributes hop fun hsection ↦ ?_
      rcases hadvance.regEntityId with hsame | ⟨rfl, entity', hop'⟩
      · exact hsame
      · have hreg : entity' ∈ old.operation.registering := by simp [hop', Operation.registering]
        cases hadvance with
        | @received m rest _ hqueue =>
          have hhead : m ∈ old.userQueue.head? := by simp [hqueue]
          obtain ⟨uuid, huuid⟩ :=
            Option.isSome_iff_exists.mp (hreplied old hold entity' hreg m hhead)
          obtain ⟨hlt, -⟩ := List.getElem?_eq_some_iff.mp hcall
          have hsame := hapart old hold entity' hreg m hhead c hlt (Ne.symm hd) call hcall hsection
          rw [receive_register s.attributes { old with userQueue := rest } hop'
            (registers_of_finalUuid huuid), hsame, huuid]
  | found | unknown =>
    rw [List.getElem?_map] at hcall
    obtain ⟨old, hold, rfl⟩ := Option.map_eq_some_iff.mp hcall
    obtain ⟨hsame, -, hreceived, hphase, hqueue, hrecord⟩ := note_frame _ s.calls.length old
    have hown := h c old entity hold (hsame ▸ hop)
    simpa only [Call.Own, Call.Answered, hphase, hreceived, hqueue, hrecord] using hown
  | given hremoved =>
    obtain ⟨old, hold, -, hempty⟩ := hs.removed _ _ hremoved
    rw [Routed.getElem?_give hold] at hcall
    split at hcall
    · next hd =>
      obtain rfl := Option.some.inj hcall
      have hown := h c old entity (hd ▸ hold) hop
      unfold Call.Own at hown ⊢
      simp only [Call.Answered, hempty] at hown
      split at hown
      · next hphase => simp [Call.give, hphase, hown, hempty]
      · next hphase => simp [Call.give, hphase, hown, hempty]
      · simp at hown
      · simp at hown
      · simp at hown
      · simp at hown
      · exact hown.elim
    · exact h c call entity hcall hop

/-- The ids are distinct, every registration gets its own answer and can write it down, and it
stores its uuid only while no other one is between storing and last using a different one. -/
def Undisturbed (s : Center) (a : Action) : Prop := Prompt s a ∧ Replied s a ∧ Apart s a

instance (s : Center) (a : Action) : Decidable (Undisturbed s a) :=
  inferInstanceAs (Decidable (_ ∧ _))

theorem Reaches.owned {s : Center} (h : Reaches Undisturbed s) : Owned s := by
  refine h.invariant ?_ fun _ _ _ hreach hcond hstep hs ↦
    hs.steps hcond.2.1 hcond.2.2 hreach.routed hreach.named hstep
  intro c call entity hcall
  simp [Center.initial] at hcall

theorem Reaches.mono {condition condition' : Center → Action → Prop}
    (hle : ∀ s a, condition s a → condition' s a) {s : Center} (h : Reaches condition s) :
    Reaches condition' s := by
  induction h with
  | init => exact .init
  | step _ hcond hstep ih => exact .step ih (hle _ _ hcond) hstep

def Center.Stuck (s : Center) : Prop := ∀ a t, Undisturbed s a → step a s = some t → a.New

theorem Center.Stuck.no_move {s : Center} (h : s.Stuck) {c : ℕ} {call : Call} {entity : Entity}
    (move : Move) (hcall : s.calls[c]? = some call) (hop : call.operation = .register entity)
    (hreplied : call.Replied entity move) (hapart : Apart s (.move c move)) :
    call.advance s.attributes move = none := by
  cases hadvance : call.advance s.attributes move with
  | none => rfl
  | some r =>
    have hcond : Undisturbed s (.move c move) := by
      refine ⟨trivial, fun call' hcall' entity' hentity ↦ ?_, hapart⟩
      obtain rfl := Option.some.inj (hcall.symm.trans hcall')
      simp only [hop, Operation.registering, Option.mem_def, Option.some.injEq] at hentity
      exact hentity ▸ hreplied
    have hstep : step (.move c move) s =
        some { s with attributes := r.1, calls := s.calls.set c r.2 } := by
      simp only [step, hcall, hadvance, Option.map_some]
    exact (h _ _ hcond hstep).elim

theorem Center.Stuck.not_inSection {s : Center} (h : s.Stuck) (howned : Owned s) {c : ℕ}
    {call : Call} {entity : Entity} (hcall : s.calls[c]? = some call)
    (hop : call.operation = .register entity) : ¬ call.InSection := by
  rintro ⟨-, hphase | hphase | hphase⟩
  · have hnone := h.no_move .test hcall hop trivial trivial
    simp [Call.advance, hphase, hop] at hnone
  · have hown := howned c call entity hcall hop
    simp only [Call.Own, hphase] at hown
    obtain ⟨uuid, -, hid⟩ := hown
    have hstorable : entity.Storable none := by simp [Entity.Storable]
    have hnone := h.no_move (.write none) hcall hop hstorable trivial
    simp [Call.advance, Call.write, hphase, hop, hid, storeDetails] at hnone
  · have hnone := h.no_move .build hcall hop trivial trivial
    simp [Call.advance, hphase] at hnone

theorem Center.Stuck.returned {s : Center} (h : s.Stuck) (hs : Reaches Undisturbed s) {c : ℕ}
    {call : Call} {entity : Entity} {m : Message} {n : ℕ} (hcall : s.calls[c]? = some call)
    (hop : call.operation = .register entity) (hfirst : call.first = some (m, n))
    (hn : n - (c + 1) < 2 ^ 24) (hm : (finalUuid entity m).isSome = true) :
    ∃ r, call.phase = .returned r := by
  have hquiet : s.recvMsgQueue = [] ∧ s.dispatcher = .idle := by
    refine dispatcher_quiet fun a t ha hstep ↦ ?_
    rcases ha with rfl | rfl | rfl
    · exact h .take t ⟨trivial, trivial, trivial⟩ hstep
    · exact h .remove t ⟨trivial, trivial, trivial⟩ hstep
    · exact h .put t ⟨trivial, trivial, trivial⟩ hstep
  have hown := hs.owned c call entity hcall hop
  have hprompt : Reaches Prompt s := hs.mono fun _ _ hcond ↦ hcond.1
  have hreceived : call.received = [m] := by
    rcases hprompt.served.answered c call m n hcall hfirst hn with hholds | hreceived
    · rcases hholds with heq | heq
      · rw [hquiet.2] at heq
        cases heq
      · rw [hquiet.2] at heq
        cases heq
    · exact hreceived
  have hsection := h.not_inSection hs.owned hcall hop
  have hregistering : call.operation.registering.isSome = true := by
    simp [hop, Operation.registering]
  cases hphase : call.phase with
  | entered =>
    have hnone := h.no_move .send hcall hop trivial trivial
    simp [Call.advance, hphase, hop, Operation.build] at hnone
  | waiting =>
    simp only [Call.Own, hphase] at hown
    have hqueue : call.userQueue = [m] := hown.trans hreceived
    have hreplied : call.Replied entity .receive := by simpa [Call.Replied, hqueue] using hm
    have hapart : Apart s (.move c .receive) := by
      intro _ _ _ _ _ _ d _ _ other hother hin
      obtain ⟨entity', hop'⟩ := Option.isSome_iff_exists.mp hin.1
      have hregister : other.operation = .register entity' := by
        cases hother' : other.operation with
        | register e =>
          simp only [hother', Operation.registering, Option.some.injEq] at hop'
          rw [hop']
        | unregister | createRelationship | setProperties | getProperties =>
          simp [hother', Operation.registering] at hop'
      exact absurd hin (h.not_inSection hs.owned hother hregister)
    have hnone := h.no_move .receive hcall hop hreplied hapart
    simp [Call.advance, hphase, hqueue] at hnone
  | stored => exact absurd ⟨hregistering, .inl hphase⟩ hsection
  | tested => exact absurd ⟨hregistering, .inr (.inl hphase)⟩ hsection
  | written => exact absurd ⟨hregistering, .inr (.inr hphase)⟩ hsection
  | returned r => exact ⟨r, rfl⟩
  | raised e => simp only [Call.Own, hphase] at hown

/-- Concurrent registrations do not mix identities in any run in which a registration stores its
uuid only while no other one is between storing and last using a different one. With a correct
answer to each, and local files that can be written, none raises, and each that returns returns the
uuid of its own answer and has written its entity record under it. Every such run comes to a state
with nothing left to do, and there every registration whose answer came has returned. -/
theorem registrations_keep_identities {s : Center} (h : Reaches Undisturbed s) :
    (∀ (c : ℕ) (call : Call) (entity : Entity), s.calls[c]? = some call →
      call.operation = .register entity → (∀ e, call.phase ≠ .raised e) ∧
      ∀ r, call.phase = .returned r → ∃ m uuid, call.received = [m] ∧
        m.transactionID = some call.transactionId ∧
        registered entity.entityId m = .ok (some uuid) ∧
        r = .entity (some uuid) ∧ call.record = some uuid) ∧
    Acc (fun t s ↦ ∃ a, ¬ a.New ∧ step a s = some t) s ∧
    ((∀ a t, Undisturbed s a → step a s = some t → a.New) →
      ∀ (c : ℕ) (call : Call) (entity : Entity) (m : Message) (n : ℕ), s.calls[c]? = some call →
        call.operation = .register entity → call.first = some (m, n) → n - (c + 1) < 2 ^ 24 →
        (finalUuid entity m).isSome = true → ∃ r, call.phase = .returned r) := by
  refine ⟨fun c call entity hcall hop ↦ ?_, ?_, fun hstuck c call entity m n hcall hop ↦ ?_⟩
  · have hown := h.owned c call entity hcall hop
    refine ⟨fun e he ↦ ?_, fun r hr ↦ ?_⟩
    · simp only [Call.Own, he] at hown
    · simp only [Call.Own, hr] at hown
      obtain ⟨uuid, ⟨m, hm, hregisters⟩, rfl, hrecord⟩ := hown
      have hid := (h.routed.received c call hcall).2 m (by simp [hm])
      exact ⟨m, uuid, hm, (key_eq_some_iff.mp hid).2, hregisters.1, rfl, hrecord⟩
  · refine Subrelation.wf (fun hstep ↦ ?_) (measure Center.remaining).wf |>.apply s
    obtain ⟨a, hnew, hstep⟩ := hstep
    exact (step_cases hstep).remaining_lt hnew
  · exact Center.Stuck.returned hstuck h hcall hop

def resourceFound (id : ℕ) (uuid entityId : Str) : Message :=
  ⟨some "create_or_find_resource_response".toList, some id, clientVersion,
    ⟨some uuid, some entityId, none, none⟩⟩

def sensor (name : String) : Entity := ⟨name.toList, "Sensor".toList, name.toList⟩

def twoAnswered : List Action :=
  [.call (.register (sensor "a")), .call (.register (sensor "b")), .move 0 .send, .move 1 .send,
    .arrive (resourceFound 4 "ub".toList "b".toList),
    .arrive (resourceFound 2 "ua".toList "a".toList),
    .take, .remove, .put, .take, .remove, .put]

def oneAfterTheOther : List Action :=
  twoAnswered ++ [Action.move 0 .receive, .move 0 .test, .move 0 (.write (some createIotccJson)),
    .move 0 .build, .move 1 .receive, .move 1 .test, .move 1 (.write (some createIotccJson)),
    .move 1 .build]

theorem registrations_keep_identities_apart :
    ∃ s call, run Undisturbed oneAfterTheOther .initial = some s ∧
      s.calls[0]? = some call ∧ call.phase = .returned (.entity (some "ua".toList)) ∧
      ∃ m uuid, call.received = [m] ∧ m.transactionID = some call.transactionId ∧
        registered "a".toList m = .ok (some uuid) ∧
        Result.entity (some "ua".toList) = .entity (some uuid) ∧ call.record = some uuid := by
  have hrun : (run Undisturbed oneAfterTheOther .initial).map
      (fun s ↦ s.calls[0]?.map fun call ↦ (call.operation, call.phase)) =
      some (some (.register (sensor "a"), .returned (.entity (some "ua".toList)))) := by
    decide
  obtain ⟨s, hs, hfirst⟩ := Option.map_eq_some_iff.mp hrun
  obtain ⟨call, hcall, heq⟩ := Option.map_eq_some_iff.mp hfirst
  obtain ⟨hop, hphase⟩ := Prod.mk.inj heq
  exact ⟨s, call, hs, hcall, hphase, ((registrations_keep_identities (Reaches.run .init hs)).1 0
    call (sensor "a") hcall hop).2 _ hphase⟩

/-- One registration stores its uuid while the other has yet to test, write and return its own:
both return the second one, and the first writes its record under it. -/
theorem overtaken_registration_mixes_identities :
    let file := some createIotccJson
    let actions : List Action := [.move 0 .receive, .move 1 .receive, .move 0 .test,
      .move 0 (.write file), .move 0 .build, .move 1 .test, .move 1 (.write file), .move 1 .build]
    ∃ s, run (fun s a ↦ Prompt s a ∧ Replied s a) (twoAnswered ++ actions) .initial = some s ∧
      s.calls.map Call.received = [[resourceFound 2 "ua".toList "a".toList],
        [resourceFound 4 "ub".toList "b".toList]] ∧
      s.calls.map (fun call ↦ (call.phase, call.record)) =
        [(.returned (.entity (some "ub".toList)), some "ub".toList),
          (.returned (.entity (some "ub".toList)), some "ub".toList)] := by
  intro file actions
  have hrun : (run (fun s a ↦ Prompt s a ∧ Replied s a) (twoAnswered ++ actions) .initial).map
      (fun s ↦ (s.calls.map Call.received,
        s.calls.map fun call ↦ (call.phase, call.record))) =
      some ([[resourceFound 2 "ua".toList "a".toList],
        [resourceFound 4 "ub".toList "b".toList]],
        [(.returned (.entity (some "ub".toList)), some "ub".toList),
          (.returned (.entity (some "ub".toList)), some "ub".toList)]) := by decide
  obtain ⟨s, hs, heq⟩ := Option.map_eq_some_iff.mp hrun
  exact ⟨s, hs, (Prod.mk.inj heq).1, (Prod.mk.inj heq).2⟩

end Liota.Dccs.IotControlCenter
