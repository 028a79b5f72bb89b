import Liota.MetricHandler.Pipeline

namespace Liota.MetricHandler

open Python.Text Python.Heapq Dccs

variable {M V : Type} (cfg : Config M V) (s : State M V)

inductive ClientMoves : Effect M V → Prop
  | flag {m : M} (h : (s.metrics m).phase = .created) : ClientMoves (.flag m)
  | schedule {m : M} (h : (s.metrics m).phase = .flagged) : ClientMoves (.schedule m)
  | launch {m : M} (h : (s.metrics m).phase = .scheduled) (hlock : s.locked = false) :
      ClientMoves (.launch m)
  | stop (m : M) : ClientMoves (.stop m)
  | exitEvent (hlock : s.locked = false) : ClientMoves (.putEvent .systemExit)
  | exitSend : ClientMoves (.putSend .systemExit)

/-- What `EventCheckerThread` does, by its program points. -/
inductive Checker.Moves : Checker M → Checker M → Effect M V → Prop
  | enter : Moves .idle .looking .skip
  | finish : Moves .idle .exited .skip
  | empty (h : s.eventDs = []) : Moves .looking (.waiting none false) .skip
  | wait {m : M} {rest : List (Item M)} (h : s.eventDs = .metric m :: rest)
      (halive : (s.metrics m).flagAlive = true) :
      Moves .looking (.waiting (some (m, (s.metrics m).nextRunTime)) false) .skip
  | early : Moves .looking .popping .skip
  | wakeEmpty {item : Item M} {rest : List (Item M)} (h : s.eventDs = item :: rest) :
      Moves (.waiting none true) (.testing item) .skip
  | indexError : Moves (.waiting none true) .exited .skip
  | wake {m : M} {deadline : ℚ} {notified : Bool}
      (h : notified = true ∨ deadline ≤ (s.clock : ℚ)) :
      Moves (.waiting (some (m, deadline)) notified) (.testing (.metric m)) .skip
  | ready {first : Item M} : Moves (.testing first) .popping .skip
  | again {m : M} (h : ¬ (s.metrics m).nextRunTime ≤ (s.clock : ℚ)) :
      Moves (.testing (.metric m)) .looking .skip
  | pop {item : Item M} {left : List (Item M)}
      (h : heappop (keyLt s.key) s.eventDs = some (item, left)) :
      Moves .popping (.returned item) (.popEvent left)
  | popError : Moves .popping .exited .skip
  | leave : Moves (.returned .systemExit) .exited .skip
  | discard {m : M} (h : (s.metrics m).flagAlive = false) :
      Moves (.returned (.metric m)) .idle .skip
  | pass {m : M} (h : (s.metrics m).flagAlive = true) :
      Moves (.returned (.metric m)) (.putting m) .skip
  | put {m : M} : Moves (.putting m) .idle (.putCollect m)

/-- What a `CollectionThread` does, by its program points. -/
inductive Worker.Moves : Action M V → Worker M V → Worker M V → Effect M V → Prop
  | take {i : ℕ} {m : M} {rest : List M} (h : s.collectQueue = m :: rest) :
      Moves (.collect i) .idle (.taken m) .takeCollect
  | check {i : ℕ} {m : M} (h : (s.metrics m).flagAlive = true) :
      Moves (.collect i) (.taken m) (.checked m) .skip
  | discard {i : ℕ} {m : M} (h : (s.metrics m).flagAlive = false) :
      Moves (.collect i) (.taken m) .idle .skip
  | sample {i : ℕ} {m : M} : Moves (.collect i) (.checked m) (.sampling m) (.sample m)
  | returns {i : ℕ} {m : M} {data : Collected V} :
      Moves (.returns i data) (.sampling m) (.sampled m) (.assign m data)
  | raises {i : ℕ} {m : M} : Moves (.raises i) (.sampling m) .dead .skip
  | startRaises {i : ℕ} {m : M} : Moves (.collectRaises i) (.checked m) .dead .skip
  | resultRaises {i : ℕ} {m : M} : Moves (.collectRaises i) (.sampled m) .dead .skip
  | filtered {i : ℕ} {m : M} : Moves (.collect i) (.sampled m) (.collected m) (.complete m none)
  | add {i : ℕ} {m : M} {samples : List (Sample V)} :
      Moves (.collect i) (.sampled m) (.adding m samples samples.length) .skip
  | put {i : ℕ} {m : M} {v : Sample V} {rest : List (Sample V)} {added : ℕ} :
      Moves (.collect i) (.adding m (v :: rest) added) (.adding m rest added) (.put m v)
  | added {i : ℕ} {m : M} {added : ℕ} :
      Moves (.collect i) (.adding m [] added) (.counting m added) .skip
  | count {i : ℕ} {m : M} {added : ℕ} :
      Moves (.collect i) (.counting m added)
        (.storing m ((s.metrics m).currentAggregationSize + added)) .skip
  | store {i : ℕ} {m : M} {size : ℕ} :
      Moves (.collect i) (.storing m size) (.collected m) (.complete m (some size))
  | keep {i : ℕ} {m : M} (h : (s.metrics m).flagAlive = true) :
      Moves (.collect i) (.collected m) (.scheduling m) .skip
  | drop {i : ℕ} {m : M} (h : (s.metrics m).flagAlive = false) :
      Moves (.collect i) (.collected m) .idle .skip
  | schedule {i : ℕ} {m : M} :
      Moves (.collect i) (.scheduling m) (.returning m) (.setNextRunTime m)
  | putBack {i : ℕ} {m : M} (hlock : s.locked = false) :
      Moves (.collect i) (.returning m) (.testing m) (.putEvent (.metric m))
  | ready {i : ℕ} {m : M}
      (h : cfg.aggregationSize m ≤ ((s.metrics m).currentAggregationSize : ℤ)) :
      Moves (.collect i) (.testing m) (.queueing m) .skip
  | unready {i : ℕ} {m : M}
      (h : ((s.metrics m).currentAggregationSize : ℤ) < cfg.aggregationSize m) :
      Moves (.collect i) (.testing m) .idle .skip
  | queue {i : ℕ} {m : M} : Moves (.collect i) (.queueing m) (.resetting m) (.putSend (.metric m))
  | reset {i : ℕ} {m : M} : Moves (.collect i) (.resetting m) .idle (.reset m)

/-- What `SendThread` does, by its program points. -/
inductive Sender.Moves : Action M V → Sender M V → Sender M V → Effect M V → Prop
  | enter : Moves .send .idle .getting .skip
  | finish : Moves .send .idle .exited .skip
  | take {item : Item M} {rest : List (Item M)} (h : s.sendQueue = item :: rest) :
      Moves .send .getting (.taken item) .takeSend
  | leave : Moves .send (.taken .systemExit) .exited .skip
  | check {m : M} (h : (s.metrics m).flagAlive = true) :
      Moves .send (.taken (.metric m)) (.checked m) .skip
  | discard {m : M} (h : (s.metrics m).flagAlive = false) :
      Moves .send (.taken (.metric m)) .idle .skip
  | send {m : M} : Moves .send (.checked m) (.sending m) (.send m)
  | nothing {m : M} (h : (s.metrics m).values = []) : Moves .send (.sending m) .idle .skip
  | publish {m : M} : Moves .send (.sending m) (.publishing m) .skip
  | drained {m : M} (h : (s.metrics m).values = []) : Moves .send (.publishing m) .idle .skip
  | drain {m : M} (h : (s.metrics m).values ≠ []) :
      Moves .send (.publishing m) (.draining m (s.metrics m).values.length []) .skip
  | get {m : M} {left : ℕ} {samples : List (Sample V)} {v : Sample V} {rest : List (Sample V)}
      (h : (s.metrics m).values = v :: rest) :
      Moves .send (.draining m (left + 1) samples) (.draining m left (samples ++ [v])) (.get m)
  | empty {m : M} {samples : List (Sample V)}
      (h : formatData cfg.str (cfg.name m) (cfg.dcc m) samples = none) :
      Moves .send (.draining m 0 samples) .idle .skip
  | pass {m : M} {samples : List (Sample V)} {message : Message V}
      (h : formatData cfg.str (cfg.name m) (cfg.dcc m) samples = some message) :
      Moves .send (.draining m 0 samples) .idle (.pass m message)
  | formatRaises {m : M} {left : ℕ} {samples : List (Sample V)} :
      Moves .formatRaises (.draining m left samples) .idle .skip

variable {cfg s}

theorem startStep_moves {m : M} {e : Effect M V} (h : startStep s m = some e) :
    ClientMoves s e := by
  unfold startStep at h
  split at h
  · next hphase =>
    obtain rfl := Option.some.inj h
    exact .flag hphase
  · next hphase =>
    obtain rfl := Option.some.inj h
    exact .schedule hphase
  · next hphase =>
    split at h
    · cases h
    · next hlock =>
      obtain rfl := Option.some.inj h
      exact .launch hphase (by simpa using hlock)
  · cases h

theorem Checker.step_moves {w pc : Checker M} {e : Effect M V}
    (h : w.step s = some (pc, e)) : w.Moves s pc e := by
  unfold Checker.step at h
  split at h
  · obtain ⟨rfl, rfl⟩ := Prod.mk.inj (Option.some.inj h)
    split
    · exact .enter
    · exact .finish
  · split at h
    · next hhead =>
      obtain ⟨rfl, rfl⟩ := Prod.mk.inj (Option.some.inj h)
      exact .empty (List.head?_eq_none_iff.mp hhead)
    · obtain ⟨rfl, rfl⟩ := Prod.mk.inj (Option.some.inj h)
      exact .early
    · next m hhead =>
      obtain ⟨rfl, rfl⟩ := Prod.mk.inj (Option.some.inj h)
      obtain ⟨rest, hrest⟩ := List.head?_eq_some_iff.mp hhead
      split
      · next halive => exact .wait hrest halive
      · exact .early
  · split at h
    · next hnotified =>
      obtain ⟨rfl, rfl⟩ := Prod.mk.inj (Option.some.inj h)
      rw [hnotified]
      rcases heq : s.eventDs with _ | ⟨item, rest⟩
      · exact .indexError
      · exact .wakeEmpty heq
    · cases h
  · split at h
    · next hready =>
      obtain ⟨rfl, rfl⟩ := Prod.mk.inj (Option.some.inj h)
      exact .wake hready
    · cases h
  · obtain ⟨rfl, rfl⟩ := Prod.mk.inj (Option.some.inj h)
    exact .ready
  · obtain ⟨rfl, rfl⟩ := Prod.mk.inj (Option.some.inj h)
    split
    · exact .ready
    · next hready => exact .again (not_or.mp hready).1
  · split at h
    · obtain ⟨rfl, rfl⟩ := Prod.mk.inj (Option.some.inj h)
      exact .popError
    · next item left hpop =>
      obtain ⟨rfl, rfl⟩ := Prod.mk.inj (Option.some.inj h)
      exact .pop hpop
  · obtain ⟨rfl, rfl⟩ := Prod.mk.inj (Option.some.inj h)
    exact .leave
  · obtain ⟨rfl, rfl⟩ := Prod.mk.inj (Option.some.inj h)
    split
    · next halive => exact .pass halive
    · next hdead => exact .discard (by simpa using hdead)
  · obtain ⟨rfl, rfl⟩ := Prod.mk.inj (Option.some.inj h)
    exact .put
  · cases h

theorem Worker.step_moves {w pc : Worker M V} {e : Effect M V} (i : ℕ)
    (h : w.step cfg s = some (pc, e)) : w.Moves cfg s (.collect i) pc e := by
  unfold Worker.step at h
  split at h
  · split at h
    · cases h
    · next m rest hqueue =>
      obtain ⟨rfl, rfl⟩ := Prod.mk.inj (Option.some.inj h)
      exact .take hqueue
  · obtain ⟨rfl, rfl⟩ := Prod.mk.inj (Option.some.inj h)
    split
    · next halive => exact .check halive
    · next hdead => exact .discard (by simpa using hdead)
  · obtain ⟨rfl, rfl⟩ := Prod.mk.inj (Option.some.inj h)
    exact .sample
  · cases h
  · split at h
    · obtain ⟨rfl, rfl⟩ := Prod.mk.inj (Option.some.inj h)
      exact .filtered
    · obtain ⟨rfl, rfl⟩ := Prod.mk.inj (Option.some.inj h)
      exact .add
  · obtain ⟨rfl, rfl⟩ := Prod.mk.inj (Option.some.inj h)
    exact .put
  · obtain ⟨rfl, rfl⟩ := Prod.mk.inj (Option.some.inj h)
    exact .added
  · obtain ⟨rfl, rfl⟩ := Prod.mk.inj (Option.some.inj h)
    exact .count
  · obtain ⟨rfl, rfl⟩ := Prod.mk.inj (Option.some.inj h)
    exact .store
  · obtain ⟨rfl, rfl⟩ := Prod.mk.inj (Option.some.inj h)
    split
    · next halive => exact .keep halive
    · next hdead => exact .drop (by simpa using hdead)
  · obtain ⟨rfl, rfl⟩ := Prod.mk.inj (Option.some.inj h)
    exact .schedule
  · split at h
    · cases h
    · next hlock =>
      obtain ⟨rfl, rfl⟩ := Prod.mk.inj (Option.some.inj h)
      exact .putBack (by simpa using hlock)
  · obtain ⟨rfl, rfl⟩ := Prod.mk.inj (Option.some.inj h)
    split
    · next hready => exact .ready hready
    · next hready => exact .unready (not_le.mp hready)
  · obtain ⟨rfl, rfl⟩ := Prod.mk.inj (Option.some.inj h)
    exact .queue
  · obtain ⟨rfl, rfl⟩ := Prod.mk.inj (Option.some.inj h)
    exact .reset
  · cases h

theorem Sender.step_moves {w pc : Sender M V} {e : Effect M V}
    (h : w.step cfg s = some (pc, e)) : w.Moves cfg s .send pc e := by
  unfold Sender.step at h
  split at h
  · obtain ⟨rfl, rfl⟩ := Prod.mk.inj (Option.some.inj h)
    split
    · exact .enter
    · exact .finish
  · split at h
    · cases h
    · next item rest hqueue =>
      obtain ⟨rfl, rfl⟩ := Prod.mk.inj (Option.some.inj h)
      exact .take hqueue
  · obtain ⟨rfl, rfl⟩ := Prod.mk.inj (Option.some.inj h)
    exact .leave
  · obtain ⟨rfl, rfl⟩ := Prod.mk.inj (Option.some.inj h)
    split
    · next halive => exact .check halive
    · next hdead => exact .discard (by simpa using hdead)
  · obtain ⟨rfl, rfl⟩ := Prod.mk.inj (Option.some.inj h)
    exact .send
  · obtain ⟨rfl, rfl⟩ := Prod.mk.inj (Option.some.inj h)
    split
    · next hnil => exact .nothing hnil
    · exact .publish
  · obtain ⟨rfl, rfl⟩ := Prod.mk.inj (Option.some.inj h)
    split
    · next hnil => exact .drained hnil
    · next hne => exact .drain hne
  · split at h
    · cases h
    · next v rest hvalues =>
      obtain ⟨rfl, rfl⟩ := Prod.mk.inj (Option.some.inj h)
      exact .get hvalues
  · split at h
    · next hformat =>
      obtain ⟨rfl, rfl⟩ := Prod.mk.inj (Option.some.inj h)
      exact .empty hformat
    · next message hformat =>
      obtain ⟨rfl, rfl⟩ := Prod.mk.inj (Option.some.inj h)
      exact .pass hformat
  · cases h

def Action.thread : Action M V → Option ℕ
  | .collect i | .returns i _ | .raises i | .collectRaises i => some i
  | _ => none

variable [DecidableEq M] (cfg s)

/-- What a step of the pipeline is: time passes or a flag of `terminate()` is set, or a client or a
thread executes a statement. -/
inductive Moves : Action M V → State M V → Prop
  | tick (ms : ℕ) : Moves (.tick ms) { s with clock := s.clock + ms }
  | endChecker : Moves .endChecker { s with checkerAlive := false }
  | endSender : Moves .endSender { s with senderAlive := false }
  | client {a : Action M V} {e : Effect M V} (h : ClientMoves s e) : Moves a (e.apply cfg s)
  | checker {pc : Checker M} {e : Effect M V} (h : s.checker.Moves s pc e) :
      Moves .check ((e.apply cfg s).setChecker pc)
  | worker {a : Action M V} {i : ℕ} {w pc : Worker M V} {e : Effect M V}
      (ha : a.thread = some i) (hw : s.workers[i]? = some w) (h : w.Moves cfg s a pc e) :
      Moves a ((e.apply cfg s).setWorker i pc)
  | sender {a : Action M V} {pc : Sender M V} {e : Effect M V} (h : s.sender.Moves cfg s a pc e) :
      Moves a ((e.apply cfg s).setSender pc)

variable {cfg s}

theorem perform_moves {a : Action M V} {t : State M V} (h : perform cfg a s = some t) :
    Moves cfg s a t := by
  cases a with
  | tick ms =>
    obtain rfl := Option.some.inj h
    exact .tick ms
  | start m =>
    obtain ⟨e, he, rfl⟩ := Option.map_eq_some_iff.mp h
    exact .client (startStep_moves he)
  | stop m =>
    obtain rfl := Option.some.inj h
    exact .client (.stop m)
  | check =>
    obtain ⟨⟨pc, e⟩, hstep, rfl⟩ := Option.map_eq_some_iff.mp h
    exact .checker (Checker.step_moves hstep)
  | collect i =>
    obtain ⟨⟨pc, e⟩, hbind, rfl⟩ := Option.map_eq_some_iff.mp h
    obtain ⟨w, hw, hstep⟩ := Option.bind_eq_some_iff.mp hbind
    exact .worker rfl hw (Worker.step_moves i hstep)
  | returns i data =>
    simp only [perform] at h
    split at h
    · next m hw =>
      obtain rfl := Option.some.inj h
      exact .worker rfl hw .returns
    · cases h
  | raises i =>
    simp only [perform] at h
    split at h
    · next m hw =>
      obtain rfl := Option.some.inj h
      exact .worker rfl hw .raises
    · cases h
  | collectRaises i =>
    simp only [perform] at h
    split at h
    · next m hw =>
      obtain rfl := Option.some.inj h
      exact .worker rfl hw .startRaises
    · next m hw =>
      obtain rfl := Option.some.inj h
      exact .worker rfl hw .resultRaises
    · cases h
  | send =>
    obtain ⟨⟨pc, e⟩, hstep, rfl⟩ := Option.map_eq_some_iff.mp h
    exact .sender (Sender.step_moves hstep)
  | formatRaises =>
    simp only [perform] at h
    split at h
    · next hpc =>
      obtain rfl := Option.some.inj h
      have hmoves : s.sender.Moves cfg s .formatRaises .idle .skip := by
        rw [hpc]
        exact .formatRaises
      exact .sender hmoves
    · cases h
  | endChecker =>
    obtain rfl := Option.some.inj h
    exact .endChecker
  | endSender =>
    obtain rfl := Option.some.inj h
    exact .endSender
  | exitEvent =>
    simp only [perform] at h
    split at h
    · cases h
    · next hlock =>
      obtain rfl := Option.some.inj h
      exact .client (.exitEvent (by simpa using hlock))
  | exitSend =>
    obtain rfl := Option.some.inj h
    exact .client .exitSend

variable (cfg)

def run : List (Action M V) → State M V → Option (State M V)
  | [], s => some s
  | a :: actions, s => (perform cfg a s).bind (run actions)

/-- Runs whose steps all meet a condition on the state before them. -/
inductive Reaches (P : State M V → Action M V → Prop) (s : State M V) : State M V → Prop
  | refl : Reaches P s s
  | tail {t u : State M V} {a : Action M V} (h : Reaches P s t) (hp : P t a)
      (hstep : perform cfg a t = some u) : Reaches P s u

variable {cfg}

theorem Reaches.mono {P Q : State M V → Action M V → Prop} {t : State M V}
    (h : Reaches cfg P s t) (hpq : ∀ s a, P s a → Q s a) : Reaches cfg Q s t := by
  induction h with
  | refl => exact .refl
  | tail _ hp hstep ih => exact .tail ih (hpq _ _ hp) hstep

theorem Reaches.invariant {P : State M V → Action M V → Prop} {I : State M V → Prop} {t : State M V}
    (h : Reaches cfg P s t) (hs : I s)
    (hstep : ∀ {t a u}, P t a → I t → Moves cfg t a u → I u) : I t := by
  induction h with
  | refl => exact hs
  | tail _ hp hperform ih => exact hstep hp ih (perform_moves hperform)

theorem Reaches.trans_run {P : State M V → Action M V → Prop} {actions : List (Action M V)}
    {t u : State M V} (ht : Reaches cfg P s t) (h : run cfg actions t = some u)
    (hp : ∀ v, ∀ a ∈ actions, P v a) : Reaches cfg P s u := by
  induction actions generalizing t with
  | nil =>
    obtain rfl := Option.some.inj h
    exact ht
  | cons a actions ih =>
    obtain ⟨v, hv, hrest⟩ := Option.bind_eq_some_iff.mp h
    exact ih (.tail ht (hp t a (by simp)) hv) hrest fun w b hb ↦ hp w b (by simp [hb])

/-- The run of the actions as long as each passes the test in the state that it finds. -/
def runTested (cfg : Config M V) (test : State M V → Action M V → Bool) :
    List (Action M V) → State M V → Option (State M V)
  | [], s => some s
  | a :: actions, s =>
    if test s a then (perform cfg a s).bind (runTested cfg test actions) else none

theorem Reaches.trans_runTested {P : State M V → Action M V → Prop}
    {test : State M V → Action M V → Bool} (hp : ∀ s a, test s a = true → P s a)
    {actions : List (Action M V)} {t u : State M V} (ht : Reaches cfg P s t)
    (h : runTested cfg test actions t = some u) : Reaches cfg P s u := by
  induction actions generalizing t with
  | nil =>
    obtain rfl := Option.some.inj h
    exact ht
  | cons a actions ih =>
    unfold runTested at h
    split at h
    · next htest =>
      obtain ⟨v, hv, hrest⟩ := Option.bind_eq_some_iff.mp h
      exact ih (.tail ht (hp t a htest) hv) hrest
    · cases h

theorem run_append (before after : List (Action M V)) (s : State M V) :
    run cfg (before ++ after) s = (run cfg before s).bind (run cfg after) := by
  induction before generalizing s with
  | nil => rfl
  | cons a before ih =>
    simp only [List.cons_append, run, Option.bind_assoc]
    congr 1
    funext t
    exact ih t

end Liota.MetricHandler
