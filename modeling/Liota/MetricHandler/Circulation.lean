import Mathlib.Data.List.Count
import Liota.MetricHandler.Moves

namespace Liota.MetricHandler

open Python.Heapq Dccs

variable {M V : Type}

def Worker.holding : Worker M V → Option M
  | .taken m | .checked m | .sampling m | .sampled m | .adding m _ _ | .counting m _
  | .storing m _ | .collected m | .scheduling m | .returning m => some m
  | _ => none

/-- The metric that `EventCheckerThread` has taken from `event_ds`. -/
def Checker.holding : Checker M → Option M
  | .returned (.metric m) | .putting m => some m
  | _ => none

/-- A statement that leaves `event_ds` and `collect_queue` alone. -/
def Effect.Quiet : Effect M V → Prop
  | .launch _ | .putEvent _ | .popEvent _ | .putCollect _ | .takeCollect => False
  | _ => True

def Effect.Internal : Effect M V → Prop
  | .flag _ | .schedule _ | .launch _ | .stop _ => False
  | _ => True

theorem Checker.holding_notify (pc : Checker M) : pc.notify.holding = pc.holding := by
  cases pc <;> rfl

section Moves

variable {cfg : Config M V} {s : State M V} {a : Action M V} {e : Effect M V}

theorem holding_putAndNotify (item : Item M) :
    (Effect.putAndNotify item s).checker.holding = s.checker.holding := by
  simp only [Effect.putAndNotify]
  split
  · exact Checker.holding_notify _
  · rfl

theorem Worker.Moves.internal {w pc : Worker M V} (h : w.Moves cfg s a pc e) : e.Internal := by
  cases h <;> trivial

theorem Checker.Moves.internal {w pc : Checker M} (h : w.Moves s pc e) : e.Internal := by
  cases h <;> trivial

theorem Sender.Moves.internal {w pc : Sender M V} (h : w.Moves cfg s a pc e) : e.Internal := by
  cases h <;> trivial

theorem Sender.Moves.quiet {w pc : Sender M V} (h : w.Moves cfg s a pc e) : e.Quiet := by
  cases h <;> trivial

theorem Worker.Moves.holding_cases {w pc : Worker M V} (h : w.Moves cfg s a pc e) :
    (pc.holding = w.holding ∧ e.Quiet) ∨
    (∃ m rest, s.collectQueue = m :: rest ∧ w.holding = none ∧ pc.holding = some m ∧
      e = .takeCollect) ∨
    (∃ m, w.holding = some m ∧ pc.holding = none ∧ e.Quiet ∧
      ((s.metrics m).flagAlive = false ∨ a.Fails)) ∨
    (∃ m, w.holding = some m ∧ pc.holding = none ∧ e = .putEvent (.metric m)) := by
  cases h with
  | take hqueue => exact .inr (.inl ⟨_, _, hqueue, rfl, rfl, rfl⟩)
  | discard hdead => exact .inr (.inr (.inl ⟨_, rfl, rfl, trivial, .inl hdead⟩))
  | raises | startRaises | resultRaises =>
    exact .inr (.inr (.inl ⟨_, rfl, rfl, trivial, .inr trivial⟩))
  | drop hdead => exact .inr (.inr (.inl ⟨_, rfl, rfl, trivial, .inl hdead⟩))
  | putBack => exact .inr (.inr (.inr ⟨_, rfl, rfl, rfl⟩))
  | _ => exact .inl ⟨rfl, trivial⟩

theorem Checker.Moves.holding_cases {w pc : Checker M} (h : w.Moves s pc e) :
    (pc.holding = w.holding ∧ e.Quiet) ∨
    (∃ item left, heappop (keyLt s.key) s.eventDs = some (item, left) ∧ w.holding = none ∧
      pc = .returned item ∧ e = .popEvent left) ∨
    (∃ m, w.holding = some m ∧ pc.holding = none ∧ e.Quiet ∧ (s.metrics m).flagAlive = false) ∨
    (∃ m, w.holding = some m ∧ pc.holding = none ∧ e = .putCollect m) := by
  cases h with
  | pop hpop => exact .inr (.inl ⟨_, _, hpop, rfl, rfl, rfl⟩)
  | discard hdead => exact .inr (.inr (.inl ⟨_, rfl, rfl, trivial, hdead⟩))
  | put => exact .inr (.inr (.inr ⟨_, rfl, rfl, rfl⟩))
  | _ => exact .inl ⟨rfl, trivial⟩

end Moves

variable [DecidableEq M]

/-- `1` if the metric is what is held. -/
def held (holding : Option M) (m : M) : ℕ := if holding = some m then 1 else 0

@[simp] theorem held_none (m : M) : held none m = 0 := by simp [held]

theorem held_some (m' m : M) : held (some m') m = if m' = m then 1 else 0 := by simp [held]

/-- How often a metric is in `event_ds`, held by the checker, in `collect_queue`, or held by a
collection thread. -/
def places (s : State M V) (m : M) : ℕ :=
  s.eventDs.count (.metric m) + held s.checker.holding m + s.collectQueue.count m +
    s.workers.countP fun w ↦ w.holding = some m

section Effects

variable (cfg : Config M V) (s : State M V) {e : Effect M V}

@[simp] theorem workers_apply : (e.apply cfg s).workers = s.workers := by cases e <;> rfl

@[simp] theorem clock_apply : (e.apply cfg s).clock = s.clock := by cases e <;> rfl

@[simp] theorem sender_apply : (e.apply cfg s).sender = s.sender := by cases e <;> rfl

theorem Effect.Quiet.frame (h : e.Quiet) :
    (e.apply cfg s).eventDs = s.eventDs ∧ (e.apply cfg s).collectQueue = s.collectQueue ∧
      (e.apply cfg s).checker = s.checker := by
  cases e <;> first | exact h.elim | exact ⟨rfl, rfl, rfl⟩

theorem Effect.Internal.frame (h : e.Internal) (m : M) :
    ((e.apply cfg s).metrics m).phase = (s.metrics m).phase ∧
      ((e.apply cfg s).metrics m).flagAlive = (s.metrics m).flagAlive ∧
      ((e.apply cfg s).metrics m).startTime = (s.metrics m).startTime := by
  cases e <;> first
    | exact h.elim
    | (simp only [Effect.apply, Effect.onMetric]; split_ifs <;> exact ⟨rfl, rfl, rfl⟩)
    | exact ⟨rfl, rfl, rfl⟩

variable {s}

theorem count_putAndNotify (item : Item M) (m : M) :
    (Effect.putAndNotify item s).eventDs.count (.metric m) =
      s.eventDs.count (.metric m) + if item = .metric m then 1 else 0 := by
  have hperm := heappush_perm (keyLt s.key) s.eventDs item
  change (heappush (keyLt s.key) s.eventDs item).count (.metric m) = _
  rw [hperm.count_eq, List.count_cons]
  simp

theorem places_putEvent {item : Item M} (he : e.onQueues s = Effect.putAndNotify item s) (m : M) :
    places (e.apply cfg s) m = places s m + if item = .metric m then 1 else 0 := by
  have hplaces : places (e.apply cfg s) m = places (e.onQueues s) m := rfl
  have hcollect : (Effect.putAndNotify item s).collectQueue = s.collectQueue := rfl
  have hworkers : (Effect.putAndNotify item s).workers = s.workers := rfl
  rw [hplaces, he, places, places, count_putAndNotify, holding_putAndNotify, hcollect, hworkers]
  omega

variable (s) in
theorem Effect.Quiet.places_eq (h : e.Quiet) (m : M) : places (e.apply cfg s) m = places s m := by
  obtain ⟨hevent, hcollect, hchecker⟩ := h.frame cfg s
  rw [places, places, hevent, hcollect, hchecker, workers_apply]

theorem places_takeCollect {first : M} {rest : List M} (h : s.collectQueue = first :: rest)
    (m : M) :
    places (Effect.takeCollect.apply cfg s) m + held (some first) m = places s m := by
  have hplaces : places (Effect.takeCollect.apply cfg s) m =
      s.eventDs.count (.metric m) + held s.checker.holding m + s.collectQueue.tail.count m +
        s.workers.countP fun w ↦ w.holding = some m := rfl
  rw [hplaces, places, h, List.tail_cons, List.count_cons, held_some]
  simp only [beq_iff_eq]
  omega

theorem places_putCollect (m' m : M) :
    places ((Effect.putCollect m').apply cfg s) m = places s m + held (some m') m := by
  have hplaces : places ((Effect.putCollect m').apply cfg s) m =
      s.eventDs.count (.metric m) + held s.checker.holding m +
        (s.collectQueue ++ [m']).count m + s.workers.countP fun w ↦ w.holding = some m := rfl
  rw [hplaces, places, List.count_append, List.count_singleton, held_some]
  simp only [beq_iff_eq]
  omega

theorem places_popEvent {item : Item M} {left : List (Item M)}
    (h : heappop (keyLt s.key) s.eventDs = some (item, left)) (m : M) :
    places ((Effect.popEvent left).apply cfg s) m + held (Checker.returned item).holding m =
      places s m := by
  have hplaces : places ((Effect.popEvent left).apply cfg s) m =
      left.count (.metric m) + held s.checker.holding m + s.collectQueue.count m +
        s.workers.countP fun w ↦ w.holding = some m := rfl
  rw [hplaces, places, (heappop_perm h).2.count_eq, List.count_cons]
  cases item with
  | metric m' =>
    simp only [Checker.holding, held_some, beq_iff_eq, Item.metric.injEq]
    omega
  | systemExit => simp [Checker.holding]

end Effects

theorem countP_set_add {α : Type} (p : α → Bool) {l : List α} {i : ℕ} {w : α}
    (h : l[i]? = some w) (pc : α) :
    (l.set i pc).countP p + (if p w then 1 else 0) = l.countP p + if p pc then 1 else 0 := by
  obtain ⟨hi, rfl⟩ := List.getElem?_eq_some_iff.mp h
  rw [List.countP_set hi]
  have hle : (if p l[i] then 1 else 0) ≤ l.countP p := by
    split
    · next hp => exact List.countP_pos_iff.mpr ⟨_, List.getElem_mem hi, hp⟩
    · exact Nat.zero_le _
  omega

section Places

variable {cfg : Config M V} {s : State M V} {a : Action M V} {e : Effect M V}

theorem places_setWorker {i : ℕ} {w : Worker M V} (hw : s.workers[i]? = some w)
    (pc : Worker M V) (m : M) :
    places (s.setWorker i pc) m + held w.holding m = places s m + held pc.holding m := by
  have hset : ((s.workers.set i pc).countP fun w ↦ w.holding = some m) + held w.holding m =
      (s.workers.countP fun w ↦ w.holding = some m) + held pc.holding m := by
    simpa [held] using countP_set_add (fun w ↦ w.holding = some m) hw pc
  simp only [places, State.setWorker]
  omega

theorem places_setChecker (pc : Checker M) (m : M) :
    places (s.setChecker pc) m + held s.checker.holding m =
      places s m + held pc.holding m := by
  simp only [places, State.setChecker]
  omega

theorem Worker.Moves.places_eq {i : ℕ} {w pc : Worker M V} (hw : s.workers[i]? = some w)
    (h : w.Moves cfg s a pc e) (m : M) :
    places ((e.apply cfg s).setWorker i pc) m = places s m ∨
      places ((e.apply cfg s).setWorker i pc) m + 1 = places s m ∧
        ((s.metrics m).flagAlive = false ∨ a.Fails) := by
  have hset := places_setWorker (s := e.apply cfg s) (by simpa using hw) pc m
  rcases h.holding_cases with ⟨hsame, hquiet⟩ | ⟨m', rest, hqueue, hw', hpc, rfl⟩ |
    ⟨m', hw', hpc, hquiet, hlost⟩ | ⟨m', hw', hpc, rfl⟩
  · rw [hsame, hquiet.places_eq cfg s] at hset
    left
    omega
  · have htake := places_takeCollect cfg hqueue m
    rw [hw', hpc, held_none] at hset
    left
    omega
  · rw [hquiet.places_eq cfg s, hw', hpc, held_none, held_some] at hset
    by_cases hm : m' = m
    · subst hm
      rw [if_pos rfl] at hset
      exact .inr ⟨hset, hlost⟩
    · rw [if_neg hm] at hset
      exact .inl hset
  · rw [places_putEvent cfg rfl, hw', hpc, held_none, held_some] at hset
    simp only [Item.metric.injEq] at hset
    left
    omega

variable (cfg) in
theorem Checker.Moves.places_eq {pc : Checker M} (h : s.checker.Moves s pc e) (m : M) :
    places ((e.apply cfg s).setChecker pc) m = places s m ∨
      places ((e.apply cfg s).setChecker pc) m + 1 = places s m ∧
        (s.metrics m).flagAlive = false := by
  have hset := places_setChecker (s := e.apply cfg s) pc m
  rcases h.holding_cases with ⟨hsame, hquiet⟩ | ⟨item, left, hpop, hw, rfl, rfl⟩ |
    ⟨m', hw, hpc, hquiet, hdead⟩ | ⟨m', hw, hpc, rfl⟩
  · rw [hsame, hquiet.places_eq cfg s, (hquiet.frame cfg s).2.2] at hset
    left
    omega
  · have hpopped := places_popEvent cfg hpop m
    have hchecker : ((Effect.popEvent left).apply cfg s).checker = s.checker := rfl
    rw [hchecker, hw, held_none] at hset
    left
    omega
  · rw [hquiet.places_eq cfg s, (hquiet.frame cfg s).2.2, hw, hpc, held_none, held_some] at hset
    by_cases hm : m' = m
    · subst hm
      rw [if_pos rfl] at hset
      exact .inr ⟨hset, hdead⟩
    · rw [if_neg hm] at hset
      exact .inl hset
  · have hchecker : ((Effect.putCollect m').apply cfg s).checker = s.checker := rfl
    rw [places_putCollect, hchecker, hw, hpc, held_none] at hset
    left
    omega

/-- What a step does to the places of a metric: nothing, or it is the last statement of
`start_collecting`, or the metric is discarded. -/
theorem Moves.places_cases {t : State M V} (h : Moves cfg s a t) (m : M) :
    (places t m = places s m ∧
      ((t.metrics m).phase = .started ↔ (s.metrics m).phase = .started)) ∨
    (places t m = places s m + 1 ∧ (s.metrics m).phase = .scheduled ∧
      (t.metrics m).phase = .started) ∨
    (places t m + 1 = places s m ∧ (t.metrics m).phase = (s.metrics m).phase ∧
      ((s.metrics m).flagAlive = false ∨ a.Fails)) := by
  cases h with
  | tick ms => exact .inl ⟨rfl, Iff.rfl⟩
  | endChecker => exact .inl ⟨rfl, Iff.rfl⟩
  | endSender => exact .inl ⟨rfl, Iff.rfl⟩
  | @client _ e h =>
    cases h with
    | @flag m' h =>
      refine .inl ⟨(show (Effect.flag m').Quiet from trivial).places_eq cfg s m, ?_⟩
      simp only [Effect.apply, Effect.onMetric]
      split_ifs with hm
      · subst hm
        simp [h]
      · exact Iff.rfl
    | @schedule m' h =>
      refine .inl ⟨(show (Effect.schedule m').Quiet from trivial).places_eq cfg s m, ?_⟩
      simp only [Effect.apply, Effect.onMetric]
      split_ifs with hm
      · subst hm
        simp [h]
      · exact Iff.rfl
    | @launch m' h hlock =>
      have hplaces := places_putEvent cfg (e := .launch m') (s := s) rfl m
      by_cases hm : m' = m
      · subst hm
        rw [if_pos rfl] at hplaces
        refine .inr (.inl ⟨hplaces, h, ?_⟩)
        simp [Effect.apply, Effect.onMetric]
      · rw [if_neg (by simpa using hm)] at hplaces
        refine .inl ⟨hplaces, ?_⟩
        simp [Effect.apply, Effect.onMetric, hm]
    | stop m' =>
      refine .inl ⟨(show (Effect.stop m').Quiet from trivial).places_eq cfg s m, ?_⟩
      simp only [Effect.apply, Effect.onMetric]
      split_ifs <;> exact Iff.rfl
    | exitEvent hlock =>
      have hplaces := places_putEvent cfg (e := .putEvent .systemExit) (s := s) rfl m
      rw [if_neg (by simp)] at hplaces
      exact .inl ⟨hplaces, Iff.rfl⟩
    | exitSend =>
      exact .inl ⟨(show (Effect.putSend .systemExit).Quiet from trivial).places_eq cfg s m, Iff.rfl⟩
  | @checker pc e h =>
    have hphase := (h.internal.frame cfg s m).1
    rcases h.places_eq cfg m with heq | ⟨heq, hdead⟩
    · exact .inl ⟨heq, by rw [← hphase]; rfl⟩
    · exact .inr (.inr ⟨heq, hphase, .inl hdead⟩)
  | @worker _ i w pc e ha hw h =>
    have hphase := (h.internal.frame cfg s m).1
    rcases h.places_eq hw m with heq | ⟨heq, hlost⟩
    · exact .inl ⟨heq, by rw [← hphase]; rfl⟩
    · exact .inr (.inr ⟨heq, hphase, hlost⟩)
  | @sender _ pc e h =>
    have hphase := (h.internal.frame cfg s m).1
    have hquiet := h.quiet.places_eq cfg s m
    exact .inl ⟨hquiet, by rw [← hphase]; rfl⟩

end Places

section Invariants

variable {cfg : Config M V} {s t : State M V} {a : Action M V}

theorem Moves.alive (h : Moves cfg s a t) {m : M} (halive : (t.metrics m).flagAlive = true) :
    (s.metrics m).flagAlive = true ∨
      (s.metrics m).phase = .created ∧ (t.metrics m).phase = .flagged := by
  cases h with
  | tick ms => exact .inl halive
  | endChecker => exact .inl halive
  | endSender => exact .inl halive
  | @client _ e h =>
    cases h with
    | @flag m' h =>
      simp only [Effect.apply, Effect.onMetric] at halive ⊢
      split_ifs at halive ⊢ with hm
      · subst hm
        exact .inr ⟨h, rfl⟩
      · exact .inl halive
    | schedule h =>
      simp only [Effect.apply, Effect.onMetric] at halive
      split_ifs at halive <;> exact .inl halive
    | launch h hlock =>
      simp only [Effect.apply, Effect.onMetric] at halive
      split_ifs at halive <;> exact .inl halive
    | stop m' =>
      simp only [Effect.apply, Effect.onMetric] at halive
      split_ifs at halive
      exact .inl halive
    | exitEvent hlock => exact .inl halive
    | exitSend => exact .inl halive
  | checker h => exact .inl ((h.internal.frame cfg s m).2.1.symm.trans halive)
  | worker ha hw h => exact .inl ((h.internal.frame cfg s m).2.1.symm.trans halive)
  | sender h => exact .inl ((h.internal.frame cfg s m).2.1.symm.trans halive)

theorem Moves.phase_cases (h : Moves cfg s a t) (m : M) :
    (t.metrics m).phase = (s.metrics m).phase ∨
    ((s.metrics m).phase = .created ∧ (t.metrics m).phase = .flagged) ∨
    ((s.metrics m).phase = .flagged ∧ (t.metrics m).phase = .scheduled) ∨
    ((s.metrics m).phase = .scheduled ∧ (t.metrics m).phase = .started) := by
  cases h with
  | tick ms => exact .inl rfl
  | endChecker => exact .inl rfl
  | endSender => exact .inl rfl
  | @client _ e h =>
    cases h with
    | @flag m' h =>
      simp only [Effect.apply, Effect.onMetric]
      split_ifs with hm
      · exact .inr (.inl ⟨hm ▸ h, rfl⟩)
      · exact .inl rfl
    | @schedule m' h =>
      simp only [Effect.apply, Effect.onMetric]
      split_ifs with hm
      · exact .inr (.inr (.inl ⟨hm ▸ h, rfl⟩))
      · exact .inl rfl
    | @launch m' h hlock =>
      simp only [Effect.apply, Effect.onMetric]
      split_ifs with hm
      · exact .inr (.inr (.inr ⟨hm ▸ h, rfl⟩))
      · exact .inl rfl
    | stop m' =>
      simp only [Effect.apply, Effect.onMetric]
      split_ifs <;> exact .inl rfl
    | exitEvent hlock => exact .inl rfl
    | exitSend => exact .inl rfl
  | checker h => exact .inl (h.internal.frame cfg s m).1
  | worker ha hw h => exact .inl (h.internal.frame cfg s m).1
  | sender h => exact .inl (h.internal.frame cfg s m).1

/-- No metric is in two places, and none is in any before it has been started. -/
structure Placed (s : State M V) : Prop where
  le_one : ∀ m, places s m ≤ 1
  unstarted : ∀ m, (s.metrics m).phase ≠ .started → places s m = 0

theorem placed_initial (clock : ℤ) (n : ℕ) : Placed (State.initial clock n : State M V) := by
  have hnone (m : M) : places (State.initial clock n : State M V) m = 0 := by
    simp [places, State.initial, Checker.holding, Worker.holding, List.countP_replicate]
  exact ⟨fun m ↦ (hnone m).le.trans (Nat.zero_le 1), fun m _ ↦ hnone m⟩

theorem Placed.moves (hs : Placed s) (h : Moves cfg s a t) : Placed t := by
  refine ⟨fun m ↦ ?_, fun m hphase ↦ ?_⟩
  · have hle := hs.le_one m
    rcases h.places_cases m with ⟨heq, -⟩ | ⟨heq, hphase, -⟩ | ⟨heq, -⟩
    · omega
    · have hzero := hs.unstarted m (by rw [hphase]; decide)
      omega
    · omega
  · rcases h.places_cases m with ⟨heq, hiff⟩ | ⟨-, -, hstarted⟩ | ⟨heq, hsame, -⟩
    · rw [heq]
      exact hs.unstarted m fun hstarted ↦ hphase (hiff.mpr hstarted)
    · exact absurd hstarted hphase
    · have hzero := hs.unstarted m (hsame ▸ hphase)
      omega

def Conserved (s : State M V) : Prop :=
  ∀ m, (s.metrics m).phase = .started → (s.metrics m).flagAlive = true → places s m = 1

theorem Conserved.moves (hs : Placed s) (hc : Conserved s) (h : Moves cfg s a t)
    (ha : ¬ a.Fails) : Conserved t := by
  intro m hstarted halive
  have hold : (s.metrics m).phase = .started → places s m = 1 := by
    intro hs
    rcases h.alive halive with hal | ⟨hcreated, -⟩
    · exact hc m hs hal
    · rw [hcreated] at hs
      cases hs
  rcases h.places_cases m with ⟨heq, hiff⟩ | ⟨heq, hphase, -⟩ | ⟨heq, hsame, hdead | hfails⟩
  · rw [heq]
    exact hold (hiff.mp hstarted)
  · have hzero := hs.unstarted m (by rw [hphase]; decide)
    omega
  · rcases h.alive halive with hal | ⟨-, hflagged⟩
    · rw [hdead] at hal
      cases hal
    · rw [hflagged] at hstarted
      cases hstarted
  · exact absurd hfails ha

theorem count_event_le (s : State M V) (m : M) : s.eventDs.count (.metric m) ≤ places s m := by
  rw [places]
  omega

theorem countP_holding_le (s : State M V) (m : M) :
    (s.workers.countP fun w ↦ w.holding = some m) ≤ places s m := by
  rw [places]
  omega

theorem places_pos_of_holding {w : Worker M V} (hw : w ∈ s.workers) {m : M}
    (hm : w.holding = some m) : 0 < places s m := by
  have hpos : 0 < s.workers.countP fun w ↦ w.holding = some m :=
    List.countP_pos_iff.mpr ⟨w, hw, by simpa using hm⟩
  exact Nat.lt_of_lt_of_le hpos (countP_holding_le s m)

theorem Placed.started_of_holding (hs : Placed s) {w : Worker M V} (hw : w ∈ s.workers) {m : M}
    (hm : w.holding = some m) : (s.metrics m).phase = .started := by
  have hpos := places_pos_of_holding hw hm
  by_contra hphase
  have hzero := hs.unstarted m hphase
  omega

theorem Placed.not_mem_event (hs : Placed s) {w : Worker M V} (hw : w ∈ s.workers) {m : M}
    (hm : w.holding = some m) : .metric m ∉ s.eventDs := by
  have hpos : 0 < s.workers.countP fun w ↦ w.holding = some m :=
    List.countP_pos_iff.mpr ⟨w, hw, by simpa using hm⟩
  intro hmem
  have hcount := List.count_pos_iff.mpr hmem
  have hle := hs.le_one m
  rw [places] at hle
  omega

end Invariants

end Liota.MetricHandler
