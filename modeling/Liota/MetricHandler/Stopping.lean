import Liota.MetricHandler.Delivery

namespace Liota.MetricHandler

open Dccs

variable {M V : Type}

section

variable {cfg : Config M V} {s : State M V} {a : Action M V} {e : Effect M V} {m : M}

/-- For a dead metric, no collection thread comes to the call of its sampling function, and only the
one that is there calls it. -/
theorem Worker.Moves.sample_cases {w pc : Worker M V} (h : w.Moves cfg s a pc e)
    (hdead : (s.metrics m).flagAlive = false) :
    pc ≠ .checked m ∧ (e = .sample m → w = .checked m) := by
  cases h with
  | @sample i m' =>
    refine ⟨nofun, fun he ↦ ?_⟩
    rw [Effect.sample.inj he]
  | @check i m' halive =>
    refine ⟨fun hpc ↦ ?_, nofun⟩
    rw [Worker.checked.inj hpc, hdead] at halive
    cases halive
  | _ => exact ⟨nofun, nofun⟩

theorem Sender.Moves.send_cases {w pc : Sender M V} (h : w.Moves cfg s a pc e)
    (hdead : (s.metrics m).flagAlive = false) :
    pc ≠ .checked m ∧ (w = .checked m ∧ e = .send m ∨ w ≠ .checked m ∧ e ≠ .send m) := by
  cases h with
  | @send m' =>
    by_cases hm : m' = m
    · subst hm
      exact ⟨nofun, .inl ⟨rfl, rfl⟩⟩
    · exact ⟨nofun, .inr ⟨fun hw ↦ hm (Sender.checked.inj hw), fun he ↦ hm (Effect.send.inj he)⟩⟩
  | @check m' halive =>
    have hne : m' ≠ m := by
      intro hm
      rw [hm, hdead] at halive
      cases halive
    exact ⟨fun hpc ↦ hne (Sender.checked.inj hpc), .inr ⟨nofun, nofun⟩⟩
  | _ => exact ⟨nofun, .inr ⟨nofun, nofun⟩⟩

/-- A statement that calls neither the sampling function nor `send_data`. -/
def Effect.Silent : Effect M V → Prop
  | .sample _ | .send _ => False
  | _ => True

theorem Effect.Silent.ne_sample (h : e.Silent) : e ≠ .sample m := by
  rintro rfl
  exact h

theorem Effect.Silent.ne_send (h : e.Silent) : e ≠ .send m := by
  rintro rfl
  exact h

theorem ClientMoves.silent (h : ClientMoves s e) : e.Silent := by
  cases h <;> trivial

theorem Checker.Moves.silent {w pc : Checker M} (h : w.Moves s pc e) : e.Silent := by
  cases h <;> trivial

theorem Worker.Moves.ne_send {w pc : Worker M V} (h : w.Moves cfg s a pc e) : e ≠ .send m := by
  cases h <;> nofun

theorem Sender.Moves.ne_sample {w pc : Sender M V} (h : w.Moves cfg s a pc e) : e ≠ .sample m := by
  cases h <;> nofun

end

/-- The step in which a thread finds the metric that it has taken out of `event_ds` or
`collect_queue` dead, and goes on without it. -/
inductive Discards (m : M) (s : State M V) : Action M V → Prop
  | checker (hpc : s.checker = .returned (.metric m)) (hdead : (s.metrics m).flagAlive = false) :
      Discards m s .check
  | taken {i : ℕ} (hpc : s.workers[i]? = some (.taken m))
      (hdead : (s.metrics m).flagAlive = false) : Discards m s (.collect i)
  | collected {i : ℕ} (hpc : s.workers[i]? = some (.collected m))
      (hdead : (s.metrics m).flagAlive = false) : Discards m s (.collect i)

variable [DecidableEq M]

def Worker.checks (m : M) : Worker M V → Bool
  | .checked m' => m' = m
  | _ => false

def checking (s : State M V) (m : M) : ℕ := s.workers.countP (Worker.checks m)

/-- What is left of a metric that was stopped in state `s`. -/
structure Stopped (m : M) (s u : State M V) : Prop where
  phase : (u.metrics m).phase ≠ .created
  dead : (u.metrics m).flagAlive = false
  sampler : ∀ i : ℕ, u.workers[i]? = some (.checked m) → s.workers[i]? = some (.checked m)
  sampled : (s.metrics m).samplings ≤ (u.metrics m).samplings
  samplings : (u.metrics m).samplings + checking u m ≤ (s.metrics m).samplings + checking s m
  sender : u.sender = .checked m → s.sender = .checked m
  sendings : (u.metrics m).sendings = (s.metrics m).sendings ∨
    u.sender ≠ .checked m ∧ s.sender = .checked m ∧
      (u.metrics m).sendings = (s.metrics m).sendings + 1

section

variable {cfg : Config M V} {s t u v : State M V} {a : Action M V} {e : Effect M V} {m : M}

theorem Worker.checks_iff {w : Worker M V} : w.checks m = true ↔ w = .checked m := by
  cases w <;> simp [Worker.checks]

variable (cfg s) in
theorem samplings_apply (h : e ≠ .sample m) :
    ((e.apply cfg s).metrics m).samplings = (s.metrics m).samplings := by
  cases e with
  | sample m' =>
    have hne : m' ≠ m := fun hm ↦ h (by rw [hm])
    simp [Effect.apply, Effect.onMetric, hne]
  | _ =>
    first
    | rfl
    | (simp only [Effect.apply, Effect.onMetric]; split_ifs <;> rfl)

variable (cfg s m) in
theorem samplings_sample : (((Effect.sample m).apply cfg s).metrics m).samplings =
    (s.metrics m).samplings + 1 := by
  simp [Effect.apply, Effect.onMetric]

variable (cfg s) in
theorem sendings_apply (h : e ≠ .send m) :
    ((e.apply cfg s).metrics m).sendings = (s.metrics m).sendings := by
  cases e with
  | send m' =>
    have hne : m' ≠ m := fun hm ↦ h (by rw [hm])
    simp [Effect.apply, Effect.onMetric, hne]
  | _ =>
    first
    | rfl
    | (simp only [Effect.apply, Effect.onMetric]; split_ifs <;> rfl)

theorem Stopped.stays_dead (hs : Stopped m s u) (h : Moves cfg u a v) :
    (v.metrics m).phase ≠ .created ∧ (v.metrics m).flagAlive = false := by
  constructor
  · intro hcreated
    rcases h.phase_cases m with hsame | ⟨-, hflagged⟩ | ⟨-, hscheduled⟩ | ⟨-, hstarted⟩
    · exact hs.phase (hsame ▸ hcreated)
    · rw [hflagged] at hcreated
      cases hcreated
    · rw [hscheduled] at hcreated
      cases hcreated
    · rw [hstarted] at hcreated
      cases hcreated
  · by_contra halive
    rcases h.alive (by simpa using halive) with hal | ⟨hcreated, -⟩
    · rw [hs.dead] at hal
      cases hal
    · exact hs.phase hcreated

theorem Stopped.of_silent (hs : Stopped m s u) (h : Moves cfg u a v)
    (hworkers : v.workers = u.workers) (hsender : v.sender = u.sender)
    (hsamplings : (v.metrics m).samplings = (u.metrics m).samplings)
    (hsendings : (v.metrics m).sendings = (u.metrics m).sendings) : Stopped m s v := by
  obtain ⟨hphase, hdead⟩ := hs.stays_dead h
  refine ⟨hphase, hdead, ?_, ?_, ?_, ?_, ?_⟩
  · rw [hworkers]
    exact hs.sampler
  · rw [hsamplings]
    exact hs.sampled
  · rw [hsamplings, checking, hworkers]
    exact hs.samplings
  · rw [hsender]
    exact hs.sender
  · rw [hsendings, hsender]
    exact hs.sendings

theorem Stopped.worker (hs : Stopped m s u) {i : ℕ} {w pc : Worker M V} (ha : a.thread = some i)
    (hw : u.workers[i]? = some w) (h : w.Moves cfg u a pc e) :
    Stopped m s ((e.apply cfg u).setWorker i pc) := by
  obtain ⟨hphase, hdead⟩ := hs.stays_dead (.worker ha hw h)
  obtain ⟨hpc, hcases⟩ := h.sample_cases hs.dead
  have hcount := countP_set_add (Worker.checks m) hw pc
  rw [if_neg (fun h ↦ hpc (Worker.checks_iff.mp h))] at hcount
  have hchecking : checking ((e.apply cfg u).setWorker i pc) m =
      (u.workers.set i pc).countP (Worker.checks m) := by
    simp [checking, State.setWorker]
  have hsampled := hs.sampled
  have hsamplings := hs.samplings
  have hcalls : (((e.apply cfg u).setWorker i pc).metrics m).samplings =
      ((e.apply cfg u).metrics m).samplings := rfl
  refine ⟨hphase, hdead, ?_, ?_, ?_, ?_, ?_⟩
  · intro j hj
    have hj : (u.workers.set i pc)[j]? = some (.checked m) := by
      simpa [State.setWorker] using hj
    by_cases hji : i = j
    · subst hji
      rw [List.getElem?_set_self (List.getElem?_eq_some_iff.mp hw).1] at hj
      exact absurd (Option.some.inj hj) hpc
    · rw [List.getElem?_set_ne hji] at hj
      exact hs.sampler j hj
  · rw [hcalls]
    by_cases he : e = .sample m
    · subst he
      rw [samplings_sample]
      omega
    · rw [samplings_apply cfg u he]
      exact hsampled
  · rw [hcalls, hchecking]
    rw [checking] at hsamplings
    by_cases he : e = .sample m
    · rw [if_pos (Worker.checks_iff.mpr (hcases he))] at hcount
      subst he
      rw [samplings_sample]
      omega
    · rw [samplings_apply cfg u he]
      omega
  · have hsender : ((e.apply cfg u).setWorker i pc).sender = u.sender := sender_apply cfg u
    rw [hsender]
    exact hs.sender
  · have hsender : ((e.apply cfg u).setWorker i pc).sender = u.sender := sender_apply cfg u
    have hsendings : (((e.apply cfg u).setWorker i pc).metrics m).sendings =
        (u.metrics m).sendings := sendings_apply cfg u h.ne_send
    rw [hsender, hsendings]
    exact hs.sendings

theorem Stopped.sender_moves (hs : Stopped m s u) {pc : Sender M V}
    (h : u.sender.Moves cfg u a pc e) : Stopped m s ((e.apply cfg u).setSender pc) := by
  obtain ⟨hphase, hdead⟩ := hs.stays_dead (.sender h)
  obtain ⟨hpc, hcases⟩ := h.send_cases hs.dead
  have hworkers : ((e.apply cfg u).setSender pc).workers = u.workers := workers_apply cfg u
  refine ⟨hphase, hdead, ?_, ?_, ?_, ?_, ?_⟩
  · rw [hworkers]
    exact hs.sampler
  · exact hs.sampled.trans_eq (samplings_apply cfg u h.ne_sample).symm
  · have hsamplings : (((e.apply cfg u).setSender pc).metrics m).samplings =
        (u.metrics m).samplings := samplings_apply cfg u h.ne_sample
    rw [hsamplings, checking, hworkers]
    exact hs.samplings
  · exact fun hchecked ↦ absurd hchecked hpc
  · rcases hcases with ⟨hchecked, rfl⟩ | ⟨hchecked, hne⟩
    · rcases hs.sendings with heq | ⟨hne, -⟩
      · refine .inr ⟨hpc, hs.sender hchecked, ?_⟩
        rw [← heq]
        simp [Effect.apply, Effect.onMetric, State.setSender]
      · exact absurd hchecked hne
    · have hsendings : (((e.apply cfg u).setSender pc).metrics m).sendings =
          (u.metrics m).sendings := sendings_apply cfg u hne
      rw [hsendings]
      rcases hs.sendings with heq | ⟨-, hsender, heq⟩
      · exact .inl heq
      · exact .inr ⟨hpc, hsender, heq⟩

theorem Stopped.moves (hs : Stopped m s u) (h : Moves cfg u a v) : Stopped m s v := by
  have hm := h
  cases h with
  | tick ms => exact hs.of_silent hm rfl rfl rfl rfl
  | endChecker => exact hs.of_silent hm rfl rfl rfl rfl
  | endSender => exact hs.of_silent hm rfl rfl rfl rfl
  | client h =>
    exact hs.of_silent hm (workers_apply cfg u) (sender_apply cfg u)
      (samplings_apply cfg u h.silent.ne_sample) (sendings_apply cfg u h.silent.ne_send)
  | checker h =>
    exact hs.of_silent hm (workers_apply cfg u) (sender_apply cfg u)
      (samplings_apply cfg u h.silent.ne_sample) (sendings_apply cfg u h.silent.ne_send)
  | worker ha hw h => exact hs.worker ha hw h
  | sender h => exact hs.sender_moves h

theorem stopped_of_stop (hphase : (s.metrics m).phase ≠ .created)
    (h : perform cfg (.stop m) s = some t) : Stopped m s t := by
  obtain rfl := Option.some.inj h
  have hmetric : (((Effect.stop m).apply cfg s).metrics m) =
      { s.metrics m with flagAlive := false } := by
    simp [Effect.apply, Effect.onMetric]
  refine ⟨?_, ?_, fun i hi ↦ hi, ?_, ?_, id, .inl ?_⟩
  · rw [hmetric]
    exact hphase
  · rw [hmetric]
  · rw [hmetric]
  · rw [hmetric]
    rfl
  · rw [hmetric]

theorem checking_le (hs : Placed s) (m : M) : checking s m ≤ 1 := by
  have hmono : checking s m ≤ s.workers.countP fun w ↦ w.holding = some m := by
    refine List.countP_mono_left fun w _ hw ↦ ?_
    rw [Worker.checks_iff.mp hw]
    simp [Worker.holding]
  exact (hmono.trans (countP_holding_le s m)).trans (hs.le_one m)

theorem checking_eq_zero (h : ∀ i : ℕ, s.workers[i]? ≠ some (.checked m)) : checking s m = 0 := by
  rw [checking, List.countP_eq_zero]
  intro w hw hchecks
  obtain ⟨i, hi⟩ := List.mem_iff_getElem?.mp hw
  rw [Worker.checks_iff.mp hchecks] at hi
  exact h i hi

theorem Reaches.places_zero {P : State M V → Action M V → Prop} (h : Reaches cfg P s t)
    (hphase : (s.metrics m).phase = .started) (hzero : places s m = 0) : places t m = 0 := by
  have hboth : (t.metrics m).phase = .started ∧ places t m = 0 := by
    refine h.invariant (I := fun t ↦ (t.metrics m).phase = .started ∧ places t m = 0)
      ⟨hphase, hzero⟩ ?_
    intro t a u _ ⟨hphase, hzero⟩ hm
    rcases hm.places_cases m with ⟨heq, hiff⟩ | ⟨-, hscheduled, -⟩ | ⟨heq, hsame, -⟩
    · exact ⟨hiff.mpr hphase, heq.trans hzero⟩
    · rw [hscheduled] at hphase
      cases hphase
    · omega
  exact hboth.2

theorem not_mem_of_places_zero (h : places s m = 0) :
    .metric m ∉ s.eventDs ∧ m ∉ s.collectQueue := by
  rw [places] at h
  refine ⟨fun hmem ↦ ?_, fun hmem ↦ ?_⟩
  · have hpos := List.count_pos_iff.mpr hmem
    omega
  · have hpos := List.count_pos_iff.mpr hmem
    omega

theorem Discards.places_pos (h : Discards m s a) : 0 < places s m := by
  cases h with
  | checker hpc hdead =>
    rw [places, hpc]
    simp only [Checker.holding, held_some, if_true]
    omega
  | taken hpc hdead => exact places_pos_of_holding (List.mem_of_getElem? hpc) rfl
  | collected hpc hdead => exact places_pos_of_holding (List.mem_of_getElem? hpc) rfl

theorem Discards.places_zero (hs : Placed s) (h : Discards m s a)
    (hstep : perform cfg a s = some t) : places t m = 0 := by
  have hone := hs.le_one m
  have hworker {i : ℕ} {w : Worker M V} (hw : s.workers[i]? = some w)
      (hstep : w.step cfg s = some (.idle, .skip)) (hm : w.holding = some m)
      (ht : perform cfg (.collect i) s = some t) : places t m = 0 := by
    simp only [perform, hw, Option.bind_some, hstep, Option.map_some, Option.some.injEq] at ht
    subst ht
    have hset := places_setWorker (s := Effect.skip.apply cfg s) (i := i) hw .idle m
    have hsame : places (Effect.skip.apply cfg s) m = places s m := rfl
    rw [hm, held_some, if_pos rfl, hsame] at hset
    simp only [Worker.holding, held_none] at hset
    omega
  cases h with
  | checker hpc hdead =>
    simp only [perform, hpc, Checker.step, hdead, Bool.false_eq_true, if_false, Option.map_some,
      Option.some.injEq] at hstep
    subst hstep
    have hset := places_setChecker (s := Effect.skip.apply cfg s) .idle m
    have hsame : places (Effect.skip.apply cfg s) m = places s m := rfl
    have hchecker : (Effect.skip.apply cfg s).checker = s.checker := rfl
    rw [hchecker, hpc, hsame] at hset
    simp only [Checker.holding, held_some, if_true, held_none] at hset
    omega
  | taken hpc hdead => exact hworker hpc (by simp [Worker.step, hdead]) rfl hstep
  | collected hpc hdead => exact hworker hpc (by simp [Worker.step, hdead]) rfl hstep

theorem Discards.gone {P : State M V → Action M V → Prop} (hs : Placed s) (h : Discards m s a)
    (hstep : perform cfg a s = some t) (hu : Reaches cfg P t u) :
    .metric m ∉ u.eventDs ∧ m ∉ u.collectQueue := by
  have hpos := h.places_pos
  have hphase : (s.metrics m).phase = .started := by
    by_contra hphase
    have hzero := hs.unstarted m hphase
    omega
  have hzero := h.places_zero hs hstep
  have hstarted : (t.metrics m).phase = .started := by
    rcases (perform_moves hstep).places_cases m with ⟨heq, -⟩ | ⟨-, -, hstarted⟩ | ⟨-, hsame, -⟩
    · omega
    · exact hstarted
    · exact hsame.trans hphase
  exact not_mem_of_places_zero (hu.places_zero hstarted hzero)

end

/-- `stop_collecting` stops a metric that has been started: in every state reached afterwards, the
sampling function has been called at most once more, and only if some thread had found the metric
alive before, and only such threads are about to call it; likewise `send_data`; and once a thread
has discarded the metric, it is never again in `event_ds` or `collect_queue`. -/
theorem stop_collecting_stops (cfg : Config M V) (m : M) (clock : ℤ) (n : ℕ) (s t u : State M V)
    (hs : Reaches cfg (fun _ _ ↦ True) (State.initial clock n) s)
    (hphase : (s.metrics m).phase ≠ .created) (hstop : perform cfg (.stop m) s = some t)
    (hu : Reaches cfg (fun _ _ ↦ True) t u) :
    ((u.metrics m).samplings ≤ (s.metrics m).samplings + 1 ∧
      ((u.metrics m).samplings = (s.metrics m).samplings ∨ .checked m ∈ s.workers) ∧
      ∀ i : ℕ, u.workers[i]? = some (.checked m) → s.workers[i]? = some (.checked m)) ∧
    ((u.metrics m).sendings ≤ (s.metrics m).sendings + 1 ∧
      ((u.metrics m).sendings = (s.metrics m).sendings ∨ s.sender = .checked m) ∧
      (u.sender = .checked m → s.sender = .checked m)) ∧
    ∀ a v w, Discards m u a → perform cfg a u = some v → Reaches cfg (fun _ _ ↦ True) v w →
      .metric m ∉ w.eventDs ∧ m ∉ w.collectQueue := by
  have hplaced : Placed s := hs.sound.placed
  have hstopped : Stopped m s u :=
    hu.invariant (stopped_of_stop hphase hstop) fun _ hv hm ↦ hv.moves hm
  have hle := checking_le hplaced m
  have hsampled := hstopped.sampled
  have hsamplings := hstopped.samplings
  refine ⟨⟨?_, ?_, hstopped.sampler⟩, ⟨?_, ?_, hstopped.sender⟩, ?_⟩
  · omega
  · by_cases hmem : .checked m ∈ s.workers
    · exact .inr hmem
    · have hnone (i : ℕ) : s.workers[i]? ≠ some (.checked m) :=
        fun hi ↦ hmem (List.mem_of_getElem? hi)
      have hzero := checking_eq_zero hnone
      have hzero' := checking_eq_zero fun i hi ↦ hnone i (hstopped.sampler i hi)
      left
      omega
  · rcases hstopped.sendings with heq | ⟨-, -, heq⟩
    · omega
    · omega
  · rcases hstopped.sendings with heq | ⟨-, hsender, -⟩
    · exact .inl heq
    · exact .inr hsender
  · intro a v w hdiscards hv hw
    have hplaced : Placed u := hu.invariant (hplaced.moves (perform_moves hstop))
      fun _ hv hm ↦ hv.moves hm
    exact hdiscards.gone hplaced hv hw

def callActions : List (Action Unit ℤ) :=
  startActions () 1000 ++ List.replicate 2 (Action.collect 0)

def finishActions : List (Action Unit ℤ) :=
  [Action.collect 0, .returns 0 (.value 7)] ++ List.replicate 5 (Action.collect 0)

theorem stop_collecting_stops_sampling :
    ∃ s t u, run (plainConfig Unit 1 1) callActions (State.initial 0 1) = some s ∧
      perform (plainConfig Unit 1 1) (.stop ()) s = some t ∧
      run (plainConfig Unit 1 1) finishActions t = some u ∧
      (s.metrics ()).samplings = 0 ∧ (u.metrics ()).samplings = 1 ∧
      ∀ v w, perform (plainConfig Unit 1 1) (.collect 0) u = some v →
        Reaches (plainConfig Unit 1 1) (fun _ _ ↦ True) v w →
          .metric () ∉ w.eventDs ∧ () ∉ w.collectQueue := by
  have hrun : ((run (plainConfig Unit 1 1) callActions (State.initial 0 1)).bind fun s ↦
      (perform (plainConfig Unit 1 1) (.stop ()) s).bind fun t ↦
      (run (plainConfig Unit 1 1) finishActions t).map fun u ↦
        ((s.metrics ()).phase, [(s.metrics ()).samplings, (u.metrics ()).samplings],
          (u.metrics ()).flagAlive, u.workers)) =
      some (.started, [0, 1], false, [.collected ()]) := by decide +kernel
  obtain ⟨s, hs, hrest⟩ := Option.bind_eq_some_iff.mp hrun
  obtain ⟨t, ht, hrest⟩ := Option.bind_eq_some_iff.mp hrest
  obtain ⟨u, hu, hfields⟩ := Option.map_eq_some_iff.mp hrest
  simp only [Prod.mk.injEq, List.cons.injEq, and_true] at hfields
  obtain ⟨hphase, ⟨hbefore, hafter⟩, hdead, hworkers⟩ := hfields
  obtain ⟨-, -, hgone⟩ := stop_collecting_stops (plainConfig Unit 1 1) () 0 1 s t u
    (Reaches.refl.trans_run hs fun _ _ _ ↦ trivial) (by rw [hphase]; decide) ht
    (Reaches.refl.trans_run hu fun _ _ _ ↦ trivial)
  refine ⟨s, t, u, hs, ht, hu, hbefore, hafter, fun v w hv hw ↦ ?_⟩
  exact hgone _ v w (.collected (by rw [hworkers]; rfl) hdead) hv hw

end Liota.MetricHandler
