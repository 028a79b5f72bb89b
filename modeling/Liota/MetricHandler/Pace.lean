import Liota.MetricHandler.EventQueue
import Liota.MetricHandler.Stopping

namespace Liota.MetricHandler

open Python.Heapq Dccs

variable {M V : Type}

/-- Nothing tests the run time of the metric again before it is sampled. -/
inductive Released (s : State M V) (m : M) : Prop
  | held (h : s.checker.holding = some m) (halive : (s.metrics m).flagAlive = true)
  | queued (h : m ∈ s.collectQueue) (halive : (s.metrics m).flagAlive = true)
  | taken {i : ℕ} (h : s.workers[i]? = some (.taken m)) (halive : (s.metrics m).flagAlive = true)
  | checked {i : ℕ} (h : s.workers[i]? = some (.checked m))

def Worker.awaits : Worker M V → Option M
  | .taken m | .checked m => some m
  | _ => none

def Worker.begun : Worker M V → Option M
  | .sampling m | .sampled m | .adding m _ _ | .counting m _ | .storing m _ => some m
  | _ => none

theorem Worker.holding_of_awaits {w : Worker M V} {m : M} (h : w.awaits = some m) :
    w.holding = some m := by
  cases w <;> first | exact h | cases h

theorem Worker.holding_of_begun {w : Worker M V} {m : M} (h : w.begun = some m) :
    w.holding = some m := by
  cases w <;> first | exact h | cases h

section Moves

variable {cfg : Config M V} {s : State M V} {a : Action M V} {e : Effect M V} {m : M}

theorem Worker.Moves.released_cases {w pc : Worker M V} (h : w.Moves cfg s a pc e) :
    (pc = .taken m → m ∈ s.collectQueue) ∧
      (pc = .checked m → w = .taken m ∧ (s.metrics m).flagAlive = true) := by
  cases h with
  | @take i m' rest hqueue =>
    refine ⟨fun hpc ↦ ?_, fun hpc ↦ (by cases hpc)⟩
    rw [hqueue, Worker.taken.inj hpc]
    exact List.mem_cons_self
  | @check i m' halive =>
    refine ⟨fun hpc ↦ (by cases hpc), fun hpc ↦ ?_⟩
    obtain rfl := Worker.checked.inj hpc
    exact ⟨rfl, halive⟩
  | _ => exact ⟨fun hpc ↦ (by cases hpc), fun hpc ↦ (by cases hpc)⟩

/-- What a step of a collection thread does to the two counts: the call of a sampling function
begins a collection, and the end of the collection is counted. -/
theorem Worker.Moves.begun_cases {w pc : Worker M V} (h : w.Moves cfg s a pc e) :
    (pc.begun = w.begun ∧ e.Timeless ∧ ∀ m, e ≠ .sample m) ∨
    (∃ m, w = .checked m ∧ pc.begun = some m ∧ e = .sample m) ∨
    (∃ m size, w.begun = some m ∧ pc.begun = none ∧ e = .complete m size) ∨
    (∃ m, w = .scheduling m ∧ pc.begun = none ∧ e = .setNextRunTime m) ∨
    (∃ m, w.begun = some m ∧ w.holding = some m ∧ pc.begun = none ∧ pc.holding = none ∧
      e = .skip) := by
  cases h with
  | sample => exact .inr (.inl ⟨_, rfl, rfl, rfl⟩)
  | filtered => exact .inr (.inr (.inl ⟨_, _, rfl, rfl, rfl⟩))
  | store => exact .inr (.inr (.inl ⟨_, _, rfl, rfl, rfl⟩))
  | schedule => exact .inr (.inr (.inr (.inl ⟨_, rfl, rfl, rfl⟩)))
  | raises | resultRaises => exact .inr (.inr (.inr (.inr ⟨_, rfl, rfl, rfl, rfl, rfl⟩)))
  | _ => exact .inl ⟨rfl, trivial, fun m he ↦ by cases he⟩

end Moves

variable [DecidableEq M]

/-- How many threads have called the sampling function of the metric and not yet counted the
collection. -/
def begunCount (s : State M V) (m : M) : ℕ := s.workers.countP fun w ↦ w.begun = some m

def Tallied (s : State M V) (m : M) : Prop :=
  (s.metrics m).samplings = (s.metrics m).collections + begunCount s m

section

variable {cfg : Config M V} {s t : State M V} {a : Action M V} {e : Effect M V} {m : M}

theorem begunCount_le (s : State M V) (m : M) : begunCount s m ≤ places s m := by
  refine (List.countP_mono_left fun w _ hw ↦ ?_).trans (countP_holding_le s m)
  have hbegun : w.begun = some m := by simpa using hw
  simpa using Worker.holding_of_begun hbegun

theorem begunCount_setWorker {i : ℕ} {w : Worker M V} (hw : s.workers[i]? = some w)
    (pc : Worker M V) (m : M) :
    begunCount (s.setWorker i pc) m + held w.begun m = begunCount s m + held pc.begun m := by
  have hset := countP_set_add (fun w ↦ w.begun = some m) hw pc
  simpa [held, begunCount, State.setWorker] using hset

theorem Released.places_pos (h : Released s m) : 0 < places s m := by
  cases h with
  | held h halive =>
    rw [places, h, held_some, if_pos rfl]
    omega
  | queued h halive =>
    have hpos := List.count_pos_iff.mpr h
    rw [places]
    omega
  | taken h halive => exact places_pos_of_holding (List.mem_of_getElem? h) rfl
  | checked h => exact places_pos_of_holding (List.mem_of_getElem? h) rfl

theorem Placed.started_of_released (hs : Placed s) (h : Released s m) :
    (s.metrics m).phase = .started := by
  by_contra hphase
  have hzero := hs.unstarted m hphase
  have hpos := h.places_pos
  omega

theorem Placed.countP_eq_zero (hs : Placed s) {i : ℕ} {w : Worker M V}
    (hw : s.workers[i]? = some w) (hm : w.holding = some m) {p : Worker M V → Bool}
    (hp : p w = false) (hholds : ∀ w', p w' = true → w'.holding = some m) :
    s.workers.countP p = 0 := by
  have hdead : p .dead = false := by
    by_contra h
    cases hholds .dead (by simpa using h)
  have hcount := countP_set_add p hw .dead
  have hholding := countP_set_add (fun w ↦ w.holding = some m) hw .dead
  have hnone : (.dead : Worker M V).holding = none := rfl
  simp only [hp, hdead, hm, hnone, decide_true, if_true, reduceCtorEq, decide_false,
    Bool.false_eq_true, if_false, Nat.add_zero] at hcount hholding
  have hmono : (s.workers.set i .dead).countP p ≤
      (s.workers.set i .dead).countP fun w ↦ w.holding = some m :=
    List.countP_mono_left fun w _ hw ↦ by simpa using hholds w hw
  have hle := (countP_holding_le s m).trans (hs.le_one m)
  omega

theorem Placed.not_scheduling (hs : Placed s) (h : Released s m) {i : ℕ} :
    s.workers[i]? ≠ some (.scheduling m) := by
  intro hw
  have hawaits (w : Worker M V) (hw' : w ∈ s.workers) : w.awaits ≠ some m := by
    have hzero := hs.countP_eq_zero hw rfl (p := fun w ↦ w.awaits = some m) rfl
      fun w' hw' ↦ Worker.holding_of_awaits (of_decide_eq_true hw')
    simpa using List.countP_eq_zero.mp hzero w hw'
  have hpos : 0 < s.workers.countP fun w ↦ w.holding = some m :=
    List.countP_pos_iff.mpr ⟨_, List.mem_of_getElem? hw, decide_eq_true rfl⟩
  have hle := hs.le_one m
  cases h with
  | held h halive =>
    rw [places, h, held_some, if_pos rfl] at hle
    omega
  | queued h halive =>
    have hcount := List.count_pos_iff.mpr h
    rw [places] at hle
    omega
  | taken h halive => exact hawaits _ (List.mem_of_getElem? h) rfl
  | checked h => exact hawaits _ (List.mem_of_getElem? h) rfl

theorem Moves.time_cases (h : Moves cfg s a t) (m : M) : s.clock ≤ t.clock ∧
    (((s.metrics m).phase = .flagged ∧ (t.metrics m).phase = .scheduled ∧
        (t.metrics m).startTime = t.clock) ∨
      ((t.metrics m).startTime = (s.metrics m).startTime ∧
        ((t.metrics m).phase = .scheduled → (s.metrics m).phase = .scheduled) ∧
        ((t.metrics m).nextRunTime = (s.metrics m).nextRunTime ∨
          ∃ i : ℕ, s.workers[i]? = some (.scheduling m)))) := by
  have hinternal {e : Effect M V} (he : e.Internal) (htimeless : e.Timeless) :
      ((e.apply cfg s).metrics m).startTime = (s.metrics m).startTime ∧
        (((e.apply cfg s).metrics m).phase = .scheduled → (s.metrics m).phase = .scheduled) ∧
        (((e.apply cfg s).metrics m).nextRunTime = (s.metrics m).nextRunTime ∨
          ∃ i : ℕ, s.workers[i]? = some (.scheduling m)) :=
    ⟨(he.frame cfg s m).2.2, fun hphase ↦ (he.frame cfg s m).1.symm.trans hphase,
      .inl (htimeless.frame cfg s m).1⟩
  cases h with
  | tick ms => exact ⟨by simp, .inr ⟨rfl, id, .inl rfl⟩⟩
  | endChecker => exact ⟨le_rfl, .inr ⟨rfl, id, .inl rfl⟩⟩
  | endSender => exact ⟨le_rfl, .inr ⟨rfl, id, .inl rfl⟩⟩
  | @client _ e h =>
    refine ⟨(clock_apply cfg s).ge, ?_⟩
    cases h with
    | @flag m' h =>
      right
      simp only [Effect.apply, Effect.onMetric]
      split_ifs with hm
      · exact ⟨rfl, fun hphase ↦ (by cases hphase), .inl rfl⟩
      · exact ⟨rfl, id, .inl rfl⟩
    | @schedule m' h =>
      simp only [Effect.apply, Effect.onMetric]
      split_ifs with hm
      · exact .inl ⟨hm ▸ h, rfl, rfl⟩
      · exact .inr ⟨rfl, id, .inl rfl⟩
    | @launch m' h hlock =>
      right
      simp only [Effect.apply, Effect.onMetric]
      split_ifs with hm
      · exact ⟨rfl, fun hphase ↦ (by cases hphase), .inl rfl⟩
      · exact ⟨rfl, id, .inl rfl⟩
    | stop m' =>
      right
      simp only [Effect.apply, Effect.onMetric]
      split_ifs with hm
      · exact ⟨rfl, id, .inl rfl⟩
      · exact ⟨rfl, id, .inl rfl⟩
    | exitEvent hlock => exact .inr ⟨rfl, id, .inl rfl⟩
    | exitSend => exact .inr ⟨rfl, id, .inl rfl⟩
  | checker h => exact ⟨(clock_apply cfg s).ge, .inr (hinternal h.internal h.timeless)⟩
  | sender h => exact ⟨(clock_apply cfg s).ge, .inr (hinternal h.internal h.timeless)⟩
  | @worker _ i w pc e ha hw h =>
    refine ⟨(clock_apply cfg s).ge, .inr ?_⟩
    obtain ⟨hphase, -, hstart⟩ := h.internal.frame cfg s m
    refine ⟨hstart, fun ht ↦ hphase.symm.trans ht, ?_⟩
    change ((e.apply cfg s).metrics m).nextRunTime = _ ∨ _
    rcases h.late_cases with ⟨-, htimeless⟩ | ⟨m', size, -, -, -, rfl⟩ | ⟨m', rfl, -, rfl⟩ |
      ⟨m', -, -, -, -, rfl⟩
    · exact .inl (htimeless.frame cfg s m).1
    · left
      simp only [Effect.apply, Effect.onMetric]
      split_ifs with hm
      · rfl
      · rfl
    · by_cases hm : m' = m
      · exact .inr ⟨i, hm ▸ hw⟩
      · left
        simp [Effect.apply, Effect.onMetric, hm]
    · exact .inl rfl

theorem Moves.released (hs : Placed s) (h : Moves cfg s a t) (hm : Released t m) :
    Released s m ∨ a = .check ∧ t.checker = .returned (.metric m) ∧
      (t.metrics m).flagAlive = true := by
  have halive (h' : (t.metrics m).flagAlive = true) : (s.metrics m).flagAlive = true := by
    rcases h.alive h' with hold | ⟨-, hflagged⟩
    · exact hold
    · rw [(hs.moves h).started_of_released hm] at hflagged
      cases hflagged
  have hframe (hchecker : t.checker.holding = s.checker.holding)
      (hqueue : t.collectQueue = s.collectQueue) (hworkers : t.workers = s.workers) :
      Released s m := by
    cases hm with
    | held h h' => exact .held (hchecker ▸ h) (halive h')
    | queued h h' => exact .queued (hqueue ▸ h) (halive h')
    | taken h h' => exact .taken (hworkers ▸ h) (halive h')
    | checked h => exact .checked (hworkers ▸ h)
  cases h with
  | tick ms => exact .inl (hframe rfl rfl rfl)
  | endChecker => exact .inl (hframe rfl rfl rfl)
  | endSender => exact .inl (hframe rfl rfl rfl)
  | client h =>
    left
    cases h with
    | launch h hlock => exact hframe (holding_putAndNotify _) rfl rfl
    | exitEvent hlock => exact hframe (holding_putAndNotify _) rfl rfl
    | _ => exact hframe rfl rfl rfl
  | sender h =>
    obtain ⟨-, hqueue, hchecker⟩ := h.quiet.frame cfg s
    exact .inl (hframe (congrArg _ hchecker) hqueue (workers_apply cfg s))
  | @checker pc e h =>
    have hworkers : ((e.apply cfg s).setChecker pc).workers = s.workers := workers_apply cfg s
    rcases h.holding_cases with ⟨hsame, hquiet⟩ | ⟨item, left, -, -, rfl, rfl⟩ |
      ⟨m', -, hpc, hquiet, -⟩ | ⟨m', hheld, hpc, rfl⟩
    · exact .inl (hframe hsame (hquiet.frame cfg s).2.1 hworkers)
    · cases hm with
      | held h h' =>
        right
        refine ⟨rfl, ?_, h'⟩
        cases item with
        | metric m' =>
          obtain rfl := Option.some.inj h
          rfl
        | systemExit => cases h
      | queued h h' => exact .inl (.queued h (halive h'))
      | taken h h' => exact .inl (.taken h (halive h'))
      | checked h => exact .inl (.checked h)
    · left
      cases hm with
      | held h h' =>
        rw [State.setChecker, hpc] at h
        cases h
      | queued h h' => exact .queued ((hquiet.frame cfg s).2.1 ▸ h) (halive h')
      | taken h h' => exact .taken (hworkers ▸ h) (halive h')
      | checked h => exact .checked (hworkers ▸ h)
    · left
      cases hm with
      | held h h' =>
        rw [State.setChecker, hpc] at h
        cases h
      | queued h h' =>
        rcases List.mem_append.mp h with hold | hnew
        · exact .queued hold (halive h')
        · rw [List.mem_singleton.mp hnew]
          exact .held hheld ((List.mem_singleton.mp hnew) ▸ halive h')
      | taken h h' => exact .taken h (halive h')
      | checked h => exact .checked h
  | @worker _ i w pc e ha hw h =>
    left
    obtain ⟨htaken, hchecked⟩ := h.released_cases (m := m)
    have hset {j : ℕ} {w' : Worker M V}
        (hj : ((e.apply cfg s).setWorker i pc).workers[j]? = some w') :
        s.workers[j]? = some w' ∨ i = j ∧ pc = w' := by
      have hj' : (s.workers.set i pc)[j]? = some w' := by
        simpa [State.setWorker] using hj
      by_cases hij : i = j
      · subst hij
        rw [List.getElem?_set_self (List.getElem?_eq_some_iff.mp hw).1] at hj'
        exact .inr ⟨rfl, Option.some.inj hj'⟩
      · rw [List.getElem?_set_ne hij] at hj'
        exact .inl hj'
    have hother : ((e.apply cfg s).setWorker i pc).checker.holding = s.checker.holding ∧
        ∀ x ∈ ((e.apply cfg s).setWorker i pc).collectQueue, x ∈ s.collectQueue := by
      rcases h.holding_cases with ⟨-, hquiet⟩ | ⟨m', rest, -, -, -, rfl⟩ | ⟨m', -, -, hquiet, -⟩ |
        ⟨m', -, -, rfl⟩
      · obtain ⟨-, hqueue, hchecker⟩ := hquiet.frame cfg s
        exact ⟨congrArg _ hchecker, fun x hx ↦ hqueue ▸ hx⟩
      · exact ⟨rfl, fun x hx ↦ List.mem_of_mem_tail hx⟩
      · obtain ⟨-, hqueue, hchecker⟩ := hquiet.frame cfg s
        exact ⟨congrArg _ hchecker, fun x hx ↦ hqueue ▸ hx⟩
      · exact ⟨holding_putAndNotify _, fun x hx ↦ hx⟩
    cases hm with
    | held h h' => exact .held (hother.1 ▸ h) (halive h')
    | queued h h' => exact .queued (hother.2 m h) (halive h')
    | taken hj h' =>
      rcases hset hj with hold | ⟨-, hpc⟩
      · exact .taken hold (halive h')
      · exact .queued (htaken hpc) (halive h')
    | checked hj =>
      rcases hset hj with hold | ⟨rfl, hpc⟩
      · exact .checked hold
      · obtain ⟨rfl, hlive⟩ := hchecked hpc
        exact .taken hw hlive

theorem Moves.samplings_cases (h : Moves cfg s a t) (m : M) :
    (t.metrics m).samplings = (s.metrics m).samplings ∨
      (t.metrics m).samplings = (s.metrics m).samplings + 1 ∧
        ∃ i : ℕ, s.workers[i]? = some (.checked m) := by
  cases h with
  | tick ms => exact .inl rfl
  | endChecker => exact .inl rfl
  | endSender => exact .inl rfl
  | client h => exact .inl (samplings_apply cfg s h.silent.ne_sample)
  | checker h => exact .inl (samplings_apply cfg s h.silent.ne_sample)
  | sender h => exact .inl (samplings_apply cfg s h.ne_sample)
  | @worker _ i w pc e ha hw h =>
    change ((e.apply cfg s).metrics m).samplings = _ ∨
      ((e.apply cfg s).metrics m).samplings = _ ∧ _
    by_cases he : e = .sample m
    · right
      rw [he] at h ⊢
      cases h with
      | sample => exact ⟨by simp [Effect.apply, Effect.onMetric], i, hw⟩
    · exact .inl (samplings_apply cfg s he)

theorem Worker.Moves.tallied (hs : Placed s) {i : ℕ} {w pc : Worker M V}
    (hw : s.workers[i]? = some w) (h : w.Moves cfg s a pc e) (hm : Tallied s m) :
    Tallied ((e.apply cfg s).setWorker i pc) m ∨
      places ((e.apply cfg s).setWorker i pc) m = 0 ∧ (s.metrics m).phase = .started := by
  have hset := begunCount_setWorker (s := e.apply cfg s) (by simpa using hw) pc m
  have hsame : begunCount (e.apply cfg s) m = begunCount s m := by simp [begunCount]
  rw [hsame] at hset
  rw [Tallied] at hm ⊢
  change (((e.apply cfg s).metrics m).samplings = ((e.apply cfg s).metrics m).collections + _) ∨ _
  generalize begunCount ((e.apply cfg s).setWorker i pc) m = count at hset ⊢
  rcases h.begun_cases with ⟨heq, htimeless, hsample⟩ | ⟨m', rfl, hpc, rfl⟩ |
    ⟨m', size, hw', hpc, rfl⟩ | ⟨m', rfl, hpc, rfl⟩ | ⟨m', hw', hholds, hpc, hlost, rfl⟩
  · left
    rw [heq] at hset
    rw [samplings_apply cfg s (hsample m), (htimeless.frame cfg s m).2.2]
    omega
  · left
    rw [hpc, held_some] at hset
    simp only [Worker.begun, held_none] at hset
    simp only [Effect.apply, Effect.onMetric]
    split_ifs at hset ⊢
    · change (s.metrics m).samplings + 1 = (s.metrics m).collections + count
      omega
    · omega
  · left
    rw [hw', hpc, held_none, held_some] at hset
    simp only [Effect.apply, Effect.onMetric]
    split_ifs at hset ⊢
    · change (s.metrics m).samplings = (s.metrics m).collections + 1 + count
      omega
    · omega
  · left
    rw [hpc, held_none] at hset
    simp only [Worker.begun, held_none] at hset
    simp only [Effect.apply, Effect.onMetric]
    split_ifs
    · change (s.metrics m).samplings = (s.metrics m).collections + count
      omega
    · omega
  · by_cases hm' : m' = m
    · right
      subst hm'
      have hplaces := places_setWorker (s := Effect.skip.apply cfg s) (by simpa using hw) pc m'
      have hskip : places (Effect.skip.apply cfg s) m' = places s m' := rfl
      rw [hskip, hholds, hlost, held_none, held_some, if_pos rfl] at hplaces
      have hle := hs.le_one m'
      exact ⟨by omega, hs.started_of_holding (List.mem_of_getElem? hw) hholds⟩
    · left
      rw [hw', hpc, held_none, held_some, if_neg hm'] at hset
      change (s.metrics m).samplings = (s.metrics m).collections + count
      omega

theorem Moves.tallied (hs : Placed s) (h : Moves cfg s a t) (hm : Tallied s m)
    (habout : places t m ≠ 0 ∨ (t.metrics m).phase ≠ .started) : Tallied t m := by
  have hquiet (e : Effect M V) {u : State M V} (hsample : e ≠ .sample m) (htimeless : e.Timeless)
      (hmetrics : u.metrics = (e.apply cfg s).metrics) (hworkers : u.workers = s.workers) :
      Tallied u m := by
    rw [Tallied] at hm ⊢
    rw [begunCount, hworkers, hmetrics, samplings_apply cfg s hsample,
      (htimeless.frame cfg s m).2.2]
    exact hm
  cases h with
  | tick ms => exact hm
  | endChecker => exact hm
  | endSender => exact hm
  | @client _ e h =>
    cases h with
    | @schedule m' h =>
      rw [Tallied] at hm ⊢
      simp only [Effect.apply, Effect.onMetric]
      split_ifs with hm'
      · exact hm
      · exact hm
    | flag h => exact hquiet (.flag _) (by simp) trivial rfl rfl
    | launch h hlock => exact hquiet (.launch _) (by simp) trivial rfl rfl
    | stop m' => exact hquiet (.stop m') (by simp) trivial rfl rfl
    | exitEvent hlock => exact hquiet (.putEvent .systemExit) (by simp) trivial rfl rfl
    | exitSend => exact hquiet (.putSend .systemExit) (by simp) trivial rfl rfl
  | checker h => exact hquiet _ h.silent.ne_sample h.timeless rfl (workers_apply cfg s)
  | sender h => exact hquiet _ h.ne_sample h.timeless rfl (workers_apply cfg s)
  | @worker _ i w pc e ha hw h =>
    rcases h.tallied hs hw hm with htallied | ⟨hzero, hstarted⟩
    · exact htallied
    · have hphase := (h.internal.frame cfg s m).1.trans hstarted
      rcases habout with hplaces | hunstarted
      · exact absurd hzero hplaces
      · exact absurd hphase hunstarted

/-- What every step keeps as long as the checker releases nothing early. -/
structure Paced (cfg : Config M V) (s : State M V) : Prop where
  due : ∀ m, Released s m → (s.metrics m).nextRunTime ≤ s.clock
  tallied : ∀ m, places s m ≠ 0 ∨ (s.metrics m).phase ≠ .started → Tallied s m
  bound : ∀ m, (s.metrics m).phase = .scheduled ∨ (s.metrics m).phase = .started →
    (cfg.interval m).after^[(s.metrics m).samplings] (s.metrics m).startTime ≤ s.clock

theorem paced_initial (clock : ℤ) (n : ℕ) : Paced cfg (State.initial clock n : State M V) where
  due m h := by
    have hstarted := (placed_initial clock n).started_of_released h
    cases hstarted
  tallied m _ := by
    simp [Tallied, begunCount, State.initial, Worker.begun, List.countP_replicate]
  bound m h := by
    rcases h with h | h
    · cases h
    · cases h

theorem Paced.samplings_eq_zero (hp : Paced cfg s) (hs : Sound cfg s)
    (hphase : (s.metrics m).phase ≠ .started) : (s.metrics m).samplings = 0 := by
  have htallied := hp.tallied m (.inr hphase)
  have hzero := hs.placed.unstarted m hphase
  have hle := begunCount_le s m
  rw [Tallied, hs.timed.fresh m hphase] at htallied
  omega

theorem Paced.samplings_checked (hp : Paced cfg s) (hs : Sound cfg s) {i : ℕ}
    (hw : s.workers[i]? = some (.checked m)) :
    (cfg.interval m).after^[(s.metrics m).samplings + 1] (s.metrics m).startTime =
      (s.metrics m).nextRunTime := by
  have hpos := places_pos_of_holding (List.mem_of_getElem? hw) (m := m) rfl
  have habout : places s m ≠ 0 := by omega
  have hbegun : begunCount s m = 0 :=
    hs.placed.countP_eq_zero hw rfl rfl fun w' hw' ↦ Worker.holding_of_begun (of_decide_eq_true hw')
  have hlate : lateCount s m = 0 :=
    hs.placed.countP_eq_zero hw rfl rfl fun w' hw' ↦ Worker.holding_of_late (of_decide_eq_true hw')
  have htallied := hp.tallied m (.inl habout)
  rw [Tallied, hbegun, Nat.add_zero] at htallied
  rw [htallied, Nat.add_comm]
  exact (hs.nextRunTime_eq habout hlate).symm

theorem Paced.moves (hp : Paced cfg s) (hs : Sound cfg s) (h : Moves cfg s a t)
    (hreturned : ∀ m, a = .check → t.checker = .returned (.metric m) →
      (t.metrics m).flagAlive = true → (t.metrics m).nextRunTime ≤ t.clock) : Paced cfg t where
  due m hm := by
    rcases h.released hs.placed hm with hold | ⟨ha, hpc, halive⟩
    · obtain ⟨hclock, ⟨hflagged, -⟩ | ⟨-, -, hnext | ⟨i, hi⟩⟩⟩ := h.time_cases m
      · rw [hs.placed.started_of_released hold] at hflagged
        cases hflagged
      · rw [hnext]
        exact (hp.due m hold).trans (by exact_mod_cast hclock)
      · exact absurd hi (hs.placed.not_scheduling hold)
    · exact hreturned m ha hpc halive
  tallied m habout := by
    apply h.tallied hs.placed (hp.tallied m ?_) habout
    rcases h.places_cases m with ⟨heq, hiff⟩ | ⟨-, hscheduled, -⟩ | ⟨heq, -⟩
    · rcases habout with hplaces | hphase
      · exact .inl (heq ▸ hplaces)
      · exact .inr fun hstarted ↦ hphase (hiff.mpr hstarted)
    · right
      rw [hscheduled]
      decide
    · left
      omega
  bound m hphase := by
    obtain ⟨hclock, ⟨hflagged, -, hstart⟩ | ⟨hstart, hscheduled, -⟩⟩ := h.time_cases m
    · have hzero := hp.samplings_eq_zero hs (m := m) (by rw [hflagged]; decide)
      rcases h.samplings_cases m with hsame | ⟨-, i, hi⟩
      · rw [hsame, hzero, hstart]
        simp
      · rw [hs.placed.started_of_released (.checked hi)] at hflagged
        cases hflagged
    · have hclock' : (s.clock : ℚ) ≤ t.clock := by exact_mod_cast hclock
      rw [hstart]
      rcases h.samplings_cases m with hsame | ⟨hone, i, hi⟩
      · rw [hsame]
        refine (hp.bound m ?_).trans hclock'
        rcases hphase with hphase | hphase
        · exact .inl (hscheduled hphase)
        · rcases h.phase_cases m with heq | ⟨-, ht⟩ | ⟨-, ht⟩ | ⟨hs, -⟩
          · exact .inr (heq ▸ hphase)
          · rw [ht] at hphase
            cases hphase
          · rw [ht] at hphase
            cases hphase
          · exact .inl hs
      · have hdue := hp.due m (.checked hi)
        rw [hone, hp.samplings_checked hs hi]
        exact hdue.trans hclock'

theorem Reaches.paced {clock : ℤ} {n : ℕ}
    (h : Reaches cfg (fun s a ↦ a = .check → Undisturbed s) (State.initial clock n) s) :
    Paced cfg s := by
  induction h with
  | refl => exact paced_initial clock n
  | @tail t u a h hundisturbed hstep ih =>
    have hsound := h.sound
    apply ih.moves hsound (perform_moves hstep)
    rintro m rfl hpc halive
    have hturns := (h.turns (placed_initial clock n) fun t ht ↦ ht rfl).1
    obtain ⟨hpopping, hfirst, hmetrics, hclock⟩ := popped_of_returned hstep hpc
    rw [hmetrics] at halive ⊢
    rw [hclock]
    obtain hdead | hdue := hturns.first_poppable (fresh_initial clock n) hpopping hfirst
    · rw [hdead] at halive
      cases halive
    · exact hdue

end

/-- As long as no metric is stopped while the checker waits for it with a live one in front of it
that is not due, the sampling function of a metric is called at most once for every interval that
has passed since `start_collecting`, the intervals being added up one by one as the code does. -/
theorem samplings_paced (cfg : Config M V) (clock : ℤ) (n : ℕ) (s : State M V)
    (h : Reaches cfg (fun s a ↦ a = .check → Undisturbed s) (State.initial clock n) s) (m : M)
    (hphase : (s.metrics m).phase = .scheduled ∨ (s.metrics m).phase = .started) :
    (cfg.interval m).after^[(s.metrics m).samplings] (s.metrics m).startTime ≤ s.clock ∧
      ∀ k, cfg.interval m = .int k →
        (s.metrics m).startTime + (s.metrics m).samplings * (k * 1000) ≤ s.clock := by
  have hbound := h.paced.bound m hphase
  refine ⟨hbound, fun k hk ↦ ?_⟩
  rw [hk, Python.Number.iterate_after_int] at hbound
  exact_mod_cast hbound

theorem undisturbed_unit (s : State Unit V) : Undisturbed s := by
  intro m hpc hdead hdue first hfirst
  cases first with
  | metric m' => exact .inl hdead
  | systemExit => trivial

theorem samplings_paced_collected :
    ∃ s, run (plainConfig Unit 1 2) (startActions () 1000 ++ collectActions 0 7)
        (State.initial 0 2) = some s ∧ (s.metrics ()).samplings = 1 ∧
      (s.metrics ()).startTime + (s.metrics ()).samplings * (1 * 1000) ≤ s.clock := by
  have hmap : (run (plainConfig Unit 1 2) (startActions () 1000 ++ collectActions 0 7)
      (State.initial 0 2)).map (fun s ↦ ((s.metrics ()).samplings, (s.metrics ()).phase)) =
      some (1, Phase.started) := by decide +kernel
  obtain ⟨s, hs, hfields⟩ := Option.map_eq_some_iff.mp hmap
  obtain ⟨hsamplings, hphase⟩ := Prod.mk.inj hfields
  have hreach : Reaches (plainConfig Unit 1 2) (fun s a ↦ a = .check → Undisturbed s)
      (State.initial 0 2) s :=
    Reaches.refl.trans_run hs fun v _ _ _ ↦ undisturbed_unit v
  exact ⟨s, hs, hsamplings,
    (samplings_paced (plainConfig Unit 1 2) 0 2 s hreach () (.inr hphase)).2 1 rfl⟩

/-- The checker takes a least item: no metric that is left has an earlier run time, and it takes
`SystemExit` only when no metric is left. -/
theorem returned_least (cfg : Config M V) (P : State M V → Action M V → Prop) (clock : ℤ) (n : ℕ)
    (s t : State M V) (item : Item M) (h : Reaches cfg P (State.initial clock n) s)
    (hcheck : perform cfg .check s = some t) (hreturned : t.checker = .returned item) :
    (∀ left ∈ t.eventDs, t.key item ≤ t.key left) ∧
      (item = .systemExit → ∀ m, .metric m ∉ t.eventDs) := by
  obtain ⟨-, hhead, hmetrics, -⟩ := popped_of_returned hcheck hreturned
  have hkey : t.key = s.key := by rw [State.key, State.key, hmetrics]
  have hstored : ∀ left ∈ t.eventDs, left ∈ s.eventDs := by
    obtain ⟨⟨pc, e⟩, hstep, rfl⟩ := Option.map_eq_some_iff.mp hcheck
    intro left hleft
    rcases (Checker.step_moves hstep).holding_cases with ⟨-, hquiet⟩ | ⟨_, _, hpop, -, -, rfl⟩ |
      ⟨_, -, -, hquiet, -⟩ | ⟨_, -, -, rfl⟩
    · exact (hquiet.frame cfg s).1 ▸ hleft
    · exact (heappop_perm hpop).2.mem_iff.mpr (List.mem_cons_of_mem _ hleft)
    · exact (hquiet.frame cfg s).1 ▸ hleft
    · exact hleft
  have hleast : ∀ left ∈ t.eventDs, t.key item ≤ t.key left := by
    intro left hleft
    rw [hkey]
    exact h.sound.heap.le_of_mem hhead (hstored left hleft)
  refine ⟨hleast, fun hitem m hmem ↦ ?_⟩
  have hle := hleast _ hmem
  rw [hitem] at hle
  exact absurd (top_le_iff.mp hle) (WithTop.coe_ne_top)

theorem returned_least_two : ∃ s t, Reaches twoConfig (fun _ _ ↦ True) (State.initial 0 1) s ∧
    perform twoConfig .check s = some t ∧ t.checker = .returned (.metric false) ∧
    t.eventDs = [.metric true] ∧ t.key (.metric false) ≤ t.key (.metric true) := by
  have hrun : ((run twoConfig (List.replicate 3 (.start true) ++ List.replicate 3 (.start false) ++
      [.tick 1000] ++ List.replicate 4 .check) (State.initial 0 1)).bind fun s ↦
      (perform twoConfig .check s).map fun t ↦ (t.checker, t.eventDs)) =
        some (.returned (.metric false), [.metric true]) := by decide +kernel
  obtain ⟨s, hs, hrest⟩ := Option.bind_eq_some_iff.mp hrun
  obtain ⟨t, ht, hfields⟩ := Option.map_eq_some_iff.mp hrest
  obtain ⟨hreturned, hleft⟩ := Prod.mk.inj hfields
  have hreach : Reaches twoConfig (fun _ _ ↦ True) (State.initial 0 1) s :=
    Reaches.refl.trans_run hs fun _ _ _ ↦ trivial
  have hleast := (returned_least twoConfig _ 0 1 s t _ hreach ht hreturned).1
  exact ⟨s, t, hreach, ht, hreturned, hleft,
    hleast _ (by rw [hleft]; exact List.mem_singleton_self _)⟩

end Liota.MetricHandler
