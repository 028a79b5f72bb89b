import Liota.Dccs.IotControlCenter.Routing

namespace Liota.Dccs.IotControlCenter

open Python Python.Computation Python.Text

/-- The moves by which a caller does not end in an exception as long as it waits for its answer:
the message can be built and sent, and there is no timeout. -/
def Move.Orderly (call : Call) : Move → Prop
  | .send => call.operation.build.isOk = true
  | .sendFails _ => False
  | .timeout => False
  | _ => True

instance (call : Call) : ∀ move : Move, Decidable (move.Orderly call)
  | .send => inferInstanceAs (Decidable (call.operation.build.isOk = true))
  | .sendFails _ | .timeout => inferInstanceAs (Decidable False)
  | .receive | .test | .write _ | .writeFails _ | .build => inferInstanceAs (Decidable True)

def Orderly (s : Center) : Action → Prop
  | .move c move => ∀ call ∈ s.calls[c]?, call.received = [] → move.Orderly call
  | _ => True

instance : ∀ (s : Center) (a : Action), Decidable (Orderly s a)
  | s, .move c move => inferInstanceAs
      (Decidable (∀ call ∈ s.calls[c]?, call.received = [] → move.Orderly call))
  | _, .call _ | _, .arrive _ | _, .take | _, .remove | _, .put => inferInstanceAs (Decidable True)

def Phase.Waits (phase : Phase) : Prop := phase = .entered ∨ phase = .waiting

theorem Advances.orderly {call call' : Call} {attributes attributes' : Attributes} {move : Move}
    (h : Advances attributes call move attributes' call') (hmove : move.Orderly call)
    (hwaits : call.phase.Waits) (hqueue : call.userQueue = []) :
    call'.phase.Waits ∧ call'.userQueue = [] := by
  cases h with
  | rejected _ hbuild => simp [Move.Orderly, hbuild, Except.isOk, Except.toBool] at hmove
  | sent => exact ⟨.inr rfl, hqueue⟩
  | sendFailed | timedOut => exact hmove.elim
  | received _ hcons => simp [hqueue] at hcons
  | wrote hwrite | writeFailed hwrite =>
    cases hwrite with
    | unset hphase | storeFailed hphase | stored hphase | removeFailed hphase | removed hphase
    | properties hphase => simp [Phase.Waits, hphase] at hwaits
  | tested hphase | built hphase | listed hphase => simp [Phase.Waits, hphase] at hwaits

def Attended (s : Center) : Prop :=
  ∀ (c : ℕ) (call : Call), s.calls[c]? = some call → call.received = [] →
    call.phase.Waits ∧ call.userQueue = []

theorem Attended.steps {s t : Center} {a : Action} (hcond : Orderly s a) (hs : Routed s)
    (hstep : Steps a s t) (h : Attended s) : Attended t := by
  intro c call hcall hreceived
  cases hstep with
  | refused | arrived | removed | removeRaised => exact h c call hcall hreceived
  | entered =>
    rw [getElem?_enter] at hcall
    split at hcall
    · obtain rfl := Option.some.inj hcall
      exact ⟨.inl rfl, rfl⟩
    · exact h c call hcall hreceived
  | @moved _ d move old call' attributes hold hadvance =>
    obtain ⟨hlt, -⟩ := List.getElem?_eq_some_iff.mp hold
    by_cases hd : d = c
    · obtain rfl := hd
      obtain rfl : call' = call := by simpa [hlt] using hcall
      obtain ⟨-, -, hsame, -⟩ := hadvance.frame
      rw [hsame] at hreceived
      obtain ⟨hwaits, hqueue⟩ := h d old hold hreceived
      exact hadvance.orderly (hcond old hold hreceived) hwaits hqueue
    · rw [List.getElem?_set_ne hd] at hcall
      exact h c call hcall hreceived
  | found | unknown =>
    rw [List.getElem?_map] at hcall
    obtain ⟨old, hold, rfl⟩ := Option.map_eq_some_iff.mp hcall
    obtain ⟨-, -, hsame, hphase, hqueue, -⟩ := note_frame _ s.calls.length old
    rw [hphase, hqueue]
    exact h c old hold (hsame ▸ hreceived)
  | given hremoved =>
    obtain ⟨old, hold, -, -⟩ := hs.removed _ _ hremoved
    rw [Routed.getElem?_give hold] at hcall
    split at hcall
    · obtain rfl := Option.some.inj hcall
      simp [Call.give] at hreceived
    · exact h c call hcall hreceived

theorem Reaches.attended {s : Center} (h : Reaches Orderly s) : Attended s := by
  refine h.invariant ?_ fun _ _ _ hreach hcond hstep hs ↦ hs.steps hcond hreach.routed hstep
  intro c call hcall
  simp [Center.initial] at hcall

/-- With the dispatcher at rest, a request is in the table just in case no message with its id and a
type to log was taken since it was made, as long as its id was not allocated again. -/
theorem Reaches.lookup_iff {s : Center} (h : Reaches Prompt s) (hidle : s.dispatcher = .idle)
    {c : ℕ} {call : Call} (hcall : s.calls[c]? = some call)
    (hlt : s.calls.length - (c + 1) < 2 ^ 24) :
    s.reqDict.lookup call.transactionId = some c ↔ call.first = none := by
  refine ⟨fun hlookup ↦ ?_, fun hnone ↦ h.served.live c call hcall hnone hlt⟩
  by_contra hsome
  obtain ⟨⟨m, n⟩, hfirst⟩ := Option.ne_none_iff_exists'.mp hsome
  obtain ⟨call', hcall', -, hempty, -⟩ := h.routed.table _ c hlookup
  obtain rfl := Option.some.inj (hcall.symm.trans hcall')
  have hle := h.served.past c call m n hcall hfirst
  rcases h.served.answered c call m n hcall hfirst (by omega) with hholds | hreceived
  · rcases hholds with heq | heq
    · rw [hidle] at heq
      cases heq
    · rw [hidle] at heq
      cases heq
  · rw [hempty] at hreceived
    simp at hreceived

/-- A call that ended in an exception is out of the table just in case a message with its id and a
type to log was taken. So in every run in which no caller fails before it was given a message, the
table holds only requests that some caller still waits for. -/
theorem table_holds_waiting_requests (s : Center) :
    (Reaches Prompt s → s.dispatcher = .idle → ∀ (c : ℕ) (call : Call) (e : PyErr),
      s.calls[c]? = some call → call.phase = .raised e → s.calls.length - (c + 1) < 2 ^ 24 →
      (s.reqDict.lookup call.transactionId ≠ some c ↔ call.first ≠ none)) ∧
    (Reaches Orderly s → ∀ id c, s.reqDict.lookup id = some c →
      ∃ call, s.calls[c]? = some call ∧ call.transactionId = id ∧ call.phase.Waits) := by
  refine ⟨fun h hidle c call e hcall _ hlt ↦ ?_, fun h id c hlookup ↦ ?_⟩
  · exact not_congr (h.lookup_iff hidle hcall hlt)
  · obtain ⟨call, hcall, hid, hempty, -⟩ := h.routed.table id c hlookup
    exact ⟨call, hcall, hid, (h.attended c call hcall hempty).1⟩

def answeredRun : List Action :=
  [.call (.register gateway), .move 0 .send, .arrive (succeeded 2), .take, .remove, .put,
    .move 0 .receive, .move 0 .timeout, .call (.unregister gateway "u".toList)]

theorem table_holds_waiting_requests_answered :
    ∃ s, run Orderly answeredRun .initial = some s ∧
      s.calls.map Call.phase = [.raised .exception, .entered] ∧
      ∀ id c, s.reqDict.lookup id = some c →
        ∃ call, s.calls[c]? = some call ∧ call.transactionId = id ∧ call.phase.Waits := by
  have hrun : (run Orderly answeredRun .initial).map (fun s ↦ s.calls.map Call.phase) =
      some [.raised .exception, .entered] := by decide
  obtain ⟨s, hs, hphases⟩ := Option.map_eq_some_iff.mp hrun
  exact ⟨s, hs, hphases, (table_holds_waiting_requests s).2 (Reaches.run .init hs)⟩

/-- A property key with a character that is not admitted: the call raises, and its request stays
in the table. -/
theorem rejected_property_stays_in_table :
    ∃ s, run Prompt [.call (.setProperties gateway [("a@b".toList, some "1".toList)]),
      .move 0 .send] .initial = some s ∧
      s.calls.map Call.phase = [.raised .valueError] ∧ s.reqDict.lookup 2 = some 0 := by
  have hrun : (run Prompt [.call (.setProperties gateway [("a@b".toList, some "1".toList)]),
      .move 0 .send] .initial).map (fun s ↦ (s.calls.map Call.phase, s.reqDict.lookup 2)) =
      some ([.raised .valueError], some 0) := by decide
  obtain ⟨s, hs, heq⟩ := Option.map_eq_some_iff.mp hrun
  exact ⟨s, hs, (Prod.mk.inj heq).1, (Prod.mk.inj heq).2⟩

end Liota.Dccs.IotControlCenter
