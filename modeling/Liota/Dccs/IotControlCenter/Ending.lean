import Liota.Dccs.IotControlCenter.Routing

namespace Liota.Dccs.IotControlCenter

open Python Python.Computation Python.Text

def Phase.remaining : Phase → ℕ
  | .entered => 6
  | .waiting => 5
  | .stored => 4
  | .tested => 3
  | .written => 2
  | .returned _ => 0
  | .raised _ => 0

def Dispatcher.remaining : Dispatcher → ℕ
  | .found _ _ => 3
  | .removed _ _ => 2
  | .idle => 0

def Call.remaining (call : Call) : ℕ := call.userQueue.length + call.phase.remaining

/-- An upper bound on the number of steps that are left if no call is entered and no message
arrives. -/
def Center.remaining (s : Center) : ℕ :=
  4 * s.recvMsgQueue.length + s.dispatcher.remaining + (s.calls.map Call.remaining).sum

def Action.New : Action → Prop
  | .call _ => True
  | .arrive _ => True
  | _ => False

theorem receive_phase (attributes : Attributes) (call : Call) (m : Message)
    (hphase : call.phase = .waiting) :
    (Call.receive attributes call m).2.phase.remaining ≤ 5 := by
  unfold Call.receive
  split
  · split
    · simp [Phase.remaining]
    · simp [hphase, Phase.remaining]
    · simp [Phase.remaining]
  · split <;> simp [Phase.remaining]
  · split
    · simp [Phase.remaining]
    · simp [Phase.remaining]
    · split <;> simp [Phase.remaining]

theorem Writes.remaining_lt {attributes : Attributes} {file : Option Details} {call call' : Call}
    (h : Writes attributes file call call') : call'.remaining < call.remaining := by
  cases h with
  | unset hphase | storeFailed hphase | stored hphase | removeFailed hphase | removed hphase
  | properties hphase => simp [Call.remaining, hphase, Phase.remaining]

theorem Writes.phase_pos {attributes : Attributes} {file : Option Details} {call call' : Call}
    (h : Writes attributes file call call') : 0 < call.phase.remaining := by
  cases h with
  | unset hphase | storeFailed hphase | stored hphase | removeFailed hphase | removed hphase
  | properties hphase => simp [hphase, Phase.remaining]

theorem Advances.remaining_lt {attributes attributes' : Attributes} {call call' : Call}
    {move : Move} (h : Advances attributes call move attributes' call') :
    call'.remaining < call.remaining := by
  cases h with
  | @received m rest hphase hqueue =>
    obtain ⟨-, -, -, -, huser, -⟩ := receive_frame attributes { call with userQueue := rest } m
    have hle := receive_phase attributes { call with userQueue := rest } m hphase
    have hwaiting : call.phase.remaining = 5 := by rw [hphase, Phase.remaining]
    rw [Call.remaining, Call.remaining, huser, hqueue, List.length_cons]
    dsimp only
    omega
  | @tested entity hphase =>
    have hle : (testEntityId attributes.regEntityId).remaining ≤ 3 := by
      unfold testEntityId
      split <;> simp [Phase.remaining]
    have hstored : call.phase.remaining = 4 := by rw [hphase, Phase.remaining]
    rw [Call.remaining, Call.remaining]
    dsimp only
    omega
  | wrote hwrite => exact hwrite.remaining_lt
  | writeFailed hwrite =>
    have hpos := hwrite.phase_pos
    change call.userQueue.length + 0 < call.userQueue.length + call.phase.remaining
    omega
  | rejected hphase | sent hphase | sendFailed hphase | timedOut hphase | built hphase
  | listed hphase => simp [Call.remaining, hphase, Phase.remaining]

theorem remaining_set {calls : List Call} {c : ℕ} {call : Call} (hcall : calls[c]? = some call)
    (call' : Call) :
    ((calls.set c call').map Call.remaining).sum + call.remaining =
      (calls.map Call.remaining).sum + call'.remaining := by
  obtain ⟨hlt, rfl⟩ := List.getElem?_eq_some_iff.mp hcall
  obtain ⟨before, after, hsplit, hlength, hset⟩ := List.exists_of_set hlt
  rw [hset]
  conv_rhs => rw [hsplit]
  simp only [List.map_append, List.map_cons, List.sum_append, List.sum_cons]
  omega

theorem remaining_give (m : Message) (c : ℕ) (calls : List Call) :
    ((calls.modify c (Call.give m)).map Call.remaining).sum ≤
      (calls.map Call.remaining).sum + 1 := by
  induction calls generalizing c with
  | nil => simp
  | cons call calls ih =>
    cases c with
    | zero =>
      simp [Call.give, Call.remaining]
      omega
    | succ c =>
      have hle := ih c
      simp only [List.modify_succ_cons, List.map_cons, List.sum_cons]
      omega

theorem remaining_note (m : Message) (n : ℕ) (calls : List Call) :
    (calls.map (Call.note m n)).map Call.remaining = calls.map Call.remaining := by
  rw [List.map_map]
  congr 1
  funext call
  obtain ⟨-, -, -, hphase, hqueue, -⟩ := note_frame m n call
  rw [Function.comp_apply, Call.remaining, hphase, hqueue, Call.remaining]

theorem Steps.remaining_lt {a : Action} {s t : Center} (h : Steps a s t) (hnew : ¬ a.New) :
    t.remaining < s.remaining := by
  cases h with
  | refused | entered | arrived => exact absurd trivial hnew
  | @moved _ _ _ _ call' _ hcall hadvance =>
    have hsum := remaining_set hcall call'
    have hlt := hadvance.remaining_lt
    simp only [Center.remaining]
    omega
  | found hidle hqueue =>
    simp only [Center.remaining, hidle, hqueue, remaining_note, List.length_cons,
      Dispatcher.remaining]
    omega
  | unknown hidle hqueue =>
    simp only [Center.remaining, hidle, hqueue, remaining_note, List.length_cons,
      Dispatcher.remaining]
    omega
  | removed hfound =>
    simp only [Center.remaining, hfound, Dispatcher.remaining]
    omega
  | removeRaised hfound =>
    simp only [Center.remaining, hfound, Dispatcher.remaining]
    omega
  | @given _ m c hremoved =>
    have hle := remaining_give m c s.calls
    simp only [Center.remaining, hremoved, Dispatcher.remaining]
    omega

theorem dispatcher_quiet {s : Center}
    (hstuck : ∀ a t, a = .take ∨ a = .remove ∨ a = .put → step a s ≠ some t) :
    s.recvMsgQueue = [] ∧ s.dispatcher = .idle := by
  have hidle : s.dispatcher = .idle := by
    cases hd : s.dispatcher with
    | idle => rfl
    | found m d => exact absurd (by rw [step, Center.remove, hd]) (hstuck _ _ (.inr (.inl rfl)))
    | removed m d => exact absurd (by rw [step, Center.put, hd]) (hstuck _ _ (.inr (.inr rfl)))
  refine ⟨?_, hidle⟩
  cases hq : s.recvMsgQueue with
  | nil => rfl
  | cons m queue => exact absurd (by rw [step, Center.take, hidle, hq]) (hstuck _ _ (.inl rfl))

end Liota.Dccs.IotControlCenter
