import Mathlib.Tactic.Linarith
import Mathlib.Tactic.Ring
import Liota.MetricHandler.Circulation

namespace Liota.MetricHandler

open Python.Heapq Dccs

variable {M V : Type}

def Worker.late : Worker M V → Option M
  | .collected m | .scheduling m => some m
  | _ => none

def Effect.Timeless : Effect M V → Prop
  | .schedule _ | .complete _ _ | .setNextRunTime _ => False
  | _ => True

theorem Worker.holding_of_late {w : Worker M V} {m : M} (h : w.late = some m) :
    w.holding = some m := by
  cases w <;> first | exact h | cases h

section Moves

variable {cfg : Config M V} {s : State M V} {a : Action M V} {e : Effect M V}

theorem Worker.Moves.late_cases {w pc : Worker M V} (h : w.Moves cfg s a pc e) :
    (pc.late = w.late ∧ e.Timeless) ∨
    (∃ m size, w.late = none ∧ w.holding = some m ∧ pc.late = some m ∧ e = .complete m size) ∨
    (∃ m, w = .scheduling m ∧ pc.late = none ∧ e = .setNextRunTime m) ∨
    (∃ m, w.late = some m ∧ w.holding = some m ∧ pc.late = none ∧ pc.holding = none ∧
      e = .skip) := by
  cases h with
  | filtered => exact .inr (.inl ⟨_, _, rfl, rfl, rfl, rfl⟩)
  | store => exact .inr (.inl ⟨_, _, rfl, rfl, rfl, rfl⟩)
  | schedule => exact .inr (.inr (.inl ⟨_, rfl, rfl, rfl⟩))
  | drop h => exact .inr (.inr (.inr ⟨_, rfl, rfl, rfl, rfl, rfl⟩))
  | _ => exact .inl ⟨rfl, trivial⟩

theorem Checker.Moves.timeless {w pc : Checker M} (h : w.Moves s pc e) : e.Timeless := by
  cases h <;> trivial

theorem Sender.Moves.timeless {w pc : Sender M V} (h : w.Moves cfg s a pc e) : e.Timeless := by
  cases h <;> trivial

end Moves

variable [DecidableEq M] (cfg : Config M V)

theorem Effect.Timeless.frame {e : Effect M V} (h : e.Timeless) (s : State M V) (m : M) :
    ((e.apply cfg s).metrics m).nextRunTime = (s.metrics m).nextRunTime ∧
      ((e.apply cfg s).metrics m).startTime = (s.metrics m).startTime ∧
      ((e.apply cfg s).metrics m).collections = (s.metrics m).collections := by
  cases e <;> first
    | exact h.elim
    | (simp only [Effect.apply, Effect.onMetric]; split_ifs <;> exact ⟨rfl, rfl, rfl⟩)
    | exact ⟨rfl, rfl, rfl⟩

def lateCount (s : State M V) (m : M) : ℕ := s.workers.countP fun w ↦ w.late = some m

/-- The next run time is the start time with an interval added for each collection and one more, if
the intervals still to be added are counted. -/
def OnSchedule (s : State M V) (m : M) : Prop :=
  ∃ k, k + lateCount s m = 1 + (s.metrics m).collections ∧
    (s.metrics m).nextRunTime = (cfg.interval m).after^[k] (s.metrics m).startTime

variable {cfg} {s t : State M V} {a : Action M V}

theorem lateCount_le (s : State M V) (m : M) : lateCount s m ≤ places s m := by
  refine (List.countP_mono_left fun w _ hw ↦ ?_).trans (countP_holding_le s m)
  have hlate : w.late = some m := by simpa using hw
  simpa using Worker.holding_of_late hlate

theorem lateCount_setWorker {i : ℕ} {w : Worker M V} (hw : s.workers[i]? = some w)
    (pc : Worker M V) (m : M) :
    lateCount (s.setWorker i pc) m + held w.late m = lateCount s m + held pc.late m := by
  have hset := countP_set_add (fun w ↦ w.late = some m) hw pc
  simpa [held, lateCount, State.setWorker] using hset

variable (cfg s) in
theorem Effect.Timeless.onSchedule {e : Effect M V} (he : e.Timeless) {m : M}
    (h : OnSchedule cfg s m) : OnSchedule cfg (e.apply cfg s) m := by
  obtain ⟨hnext, hstart, hcollections⟩ := he.frame cfg s m
  simpa only [OnSchedule, lateCount, hnext, hstart, hcollections, workers_apply] using h

theorem Worker.Moves.onSchedule (hs : Placed s) {e : Effect M V} {i : ℕ} {w pc : Worker M V}
    (hw : s.workers[i]? = some w) (h : w.Moves cfg s a pc e) {m : M} (hm : OnSchedule cfg s m) :
    OnSchedule cfg ((e.apply cfg s).setWorker i pc) m ∨
      places ((e.apply cfg s).setWorker i pc) m = 0 ∧ (s.metrics m).phase = .started := by
  have hlate := lateCount_setWorker (s := e.apply cfg s) (by simpa using hw) pc m
  have hsame : lateCount (e.apply cfg s) m = lateCount s m := by simp [lateCount]
  rw [hsame] at hlate
  obtain ⟨k, hk, hnext⟩ := hm
  rcases h.late_cases with ⟨heq, htimeless⟩ | ⟨m', size, hw', -, hpc, rfl⟩ |
    ⟨m', rfl, hpc, rfl⟩ |
    ⟨m', hw', hholds, hpc, hlost, rfl⟩
  · left
    rw [heq] at hlate
    obtain ⟨k', hk', hnext'⟩ := htimeless.onSchedule cfg s ⟨k, hk, hnext⟩
    refine ⟨k', ?_, hnext'⟩
    rw [Nat.add_right_cancel hlate, ← hsame]
    exact hk'
  · left
    rw [hw', hpc, held_none, held_some, Nat.add_zero] at hlate
    refine ⟨k, ?_, ?_⟩
    · rw [hlate]
      simp only [State.setWorker, Effect.apply, Effect.onMetric]
      split_ifs
      · dsimp only
        omega
      · exact hk
    · simp only [State.setWorker, Effect.apply, Effect.onMetric]
      split_ifs
      · exact hnext
      · exact hnext
  · left
    rw [hpc, held_none, Nat.add_zero] at hlate
    by_cases hm : m' = m
    · subst hm
      refine ⟨k + 1, ?_, ?_⟩
      · have hcollections : ((((Effect.setNextRunTime m').apply cfg s).setWorker i pc).metrics
            m').collections = (s.metrics m').collections := by
          simp [State.setWorker, Effect.apply, Effect.onMetric]
        simp only [Worker.late, held_some, if_true] at hlate
        rw [hcollections]
        omega
      · rw [Function.iterate_succ_apply']
        simp only [State.setWorker, Effect.apply, Effect.onMetric, if_true]
        rw [hnext]
    · refine ⟨k, ?_, ?_⟩
      · simp only [Worker.late, held_some, if_neg hm, Nat.add_zero] at hlate
        simp only [State.setWorker, Effect.apply, Effect.onMetric, if_neg hm]
        rw [← hlate] at hk
        exact hk
      · simp only [State.setWorker, Effect.apply, Effect.onMetric, if_neg hm]
        exact hnext
  · by_cases hm : m' = m
    · right
      subst hm
      have hplaces := places_setWorker (s := Effect.skip.apply cfg s) (by simpa using hw) pc m'
      have hskip : places (Effect.skip.apply cfg s) m' = places s m' := rfl
      rw [hskip, hholds, hlost, held_none, held_some, if_pos rfl] at hplaces
      have hle := hs.le_one m'
      refine ⟨by omega, ?_⟩
      by_contra hphase
      have hzero := hs.unstarted m' hphase
      omega
    · left
      rw [hw', hpc, held_none, held_some, if_neg hm, Nat.add_zero, Nat.add_zero] at hlate
      refine ⟨k, ?_, hnext⟩
      rw [hlate]
      exact hk

/-- What a step does to the schedule: nothing, or it is the statement of `start_collecting` that
sets the run time, or the metric is discarded. -/
theorem Moves.onSchedule (hs : Placed s) (h : Moves cfg s a t) {m : M} (hm : OnSchedule cfg s m) :
    OnSchedule cfg t m ∨ (s.metrics m).phase = .flagged ∨
      (places t m = 0 ∧ (t.metrics m).phase = .started) := by
  have htimeless {e : Effect M V} (he : e.Timeless) := he.onSchedule cfg s hm
  cases h with
  | tick ms => exact .inl hm
  | endChecker => exact .inl hm
  | endSender => exact .inl hm
  | @client _ e h =>
    cases h with
    | flag h => exact .inl (htimeless trivial)
    | @schedule m' h =>
      by_cases heq : m' = m
      · exact .inr (.inl (heq ▸ h))
      · left
        simpa [OnSchedule, lateCount, Effect.apply, Effect.onMetric, Effect.onQueues, heq] using hm
    | launch h hlock => exact .inl (htimeless trivial)
    | stop m' => exact .inl (htimeless trivial)
    | exitEvent hlock => exact .inl (htimeless trivial)
    | exitSend => exact .inl (htimeless trivial)
  | checker h => exact .inl (htimeless h.timeless)
  | sender h => exact .inl (htimeless h.timeless)
  | worker ha hw h =>
    rcases h.onSchedule hs hw hm with hkept | ⟨hplaces, hphase⟩
    · exact .inl hkept
    · exact .inr (.inr ⟨hplaces, (h.internal.frame cfg s m).1.trans hphase⟩)

theorem Moves.schedules (h : Moves cfg s a t) {m : M} (hs : (s.metrics m).phase = .flagged)
    (ht : (t.metrics m).phase = .scheduled) :
    lateCount t m = lateCount s m ∧ (t.metrics m).collections = (s.metrics m).collections ∧
      (t.metrics m).nextRunTime = (cfg.interval m).after (t.metrics m).startTime := by
  have hne : (t.metrics m).phase ≠ (s.metrics m).phase := by
    rw [hs, ht]
    decide
  cases h with
  | tick ms => exact absurd rfl hne
  | endChecker => exact absurd rfl hne
  | endSender => exact absurd rfl hne
  | @client _ e h =>
    cases h with
    | @flag m' h =>
      simp only [Effect.apply, Effect.onMetric] at ht
      split_ifs at ht
      exact absurd (hs.symm.trans ht) (by decide)
    | @schedule m' h =>
      refine ⟨rfl, ?_⟩
      simp only [Effect.apply, Effect.onMetric] at ht ⊢
      split_ifs at ht ⊢ with hm
      · exact ⟨rfl, rfl⟩
      · exact absurd (hs.symm.trans ht) (by decide)
    | @launch m' h hlock =>
      simp only [Effect.apply, Effect.onMetric] at ht
      split_ifs at ht
      exact absurd (hs.symm.trans ht) (by decide)
    | stop m' =>
      simp only [Effect.apply, Effect.onMetric] at hne
      split_ifs at hne <;> exact absurd rfl hne
    | exitEvent hlock => exact absurd rfl hne
    | exitSend => exact absurd rfl hne
  | checker h => exact absurd (h.internal.frame cfg s m).1 hne
  | worker ha hw h => exact absurd (h.internal.frame cfg s m).1 hne
  | sender h => exact absurd (h.internal.frame cfg s m).1 hne

/-- Run times follow the collections while a metric is about, and no metric is collected before it
has been started. -/
structure Timed (cfg : Config M V) (s : State M V) : Prop where
  scheduled : ∀ m, places s m ≠ 0 ∨ (s.metrics m).phase = .scheduled → OnSchedule cfg s m
  fresh : ∀ m, (s.metrics m).phase ≠ .started → (s.metrics m).collections = 0

theorem Moves.collections (hs : Placed s) (h : Moves cfg s a t) (m : M)
    (hphase : (t.metrics m).phase ≠ .started) :
    (t.metrics m).collections = (s.metrics m).collections := by
  cases h with
  | tick ms => rfl
  | endChecker => rfl
  | endSender => rfl
  | @client _ e h =>
    cases h with
    | schedule h =>
      simp only [Effect.apply, Effect.onMetric]
      split_ifs <;> rfl
    | flag h => exact (Effect.Timeless.frame cfg (e := .flag _) trivial s m).2.2
    | launch h hlock => exact (Effect.Timeless.frame cfg (e := .launch _) trivial s m).2.2
    | stop m' => exact (Effect.Timeless.frame cfg (e := .stop m') trivial s m).2.2
    | exitEvent hlock => rfl
    | exitSend => rfl
  | checker h => exact (h.timeless.frame cfg s m).2.2
  | sender h => exact (h.timeless.frame cfg s m).2.2
  | @worker _ i w pc e ha hw h =>
    have hsame : (((e.apply cfg s).setWorker i pc).metrics m).phase = (s.metrics m).phase :=
      (h.internal.frame cfg s m).1
    rw [hsame] at hphase
    change ((e.apply cfg s).metrics m).collections = _
    rcases h.late_cases with ⟨-, htimeless⟩ | ⟨m', size, -, hholds, -, rfl⟩ | ⟨m', -, -, rfl⟩ |
      ⟨m', -, -, -, -, rfl⟩
    · exact (htimeless.frame cfg s m).2.2
    · have hne : m' ≠ m := by
        rintro rfl
        exact hphase (hs.started_of_holding (List.mem_of_getElem? hw) hholds)
      simp [Effect.apply, Effect.onMetric, hne]
    · simp only [Effect.apply, Effect.onMetric]
      split_ifs <;> rfl
    · rfl

theorem timed_initial (clock : ℤ) (n : ℕ) : Timed cfg (State.initial clock n : State M V) := by
  refine ⟨fun m hplaces ↦ ?_, fun m _ ↦ rfl⟩
  rcases hplaces with hplaces | hphase
  · exact absurd ((placed_initial clock n).unstarted m (fun h ↦ by cases h)) hplaces
  · cases hphase

theorem Timed.moves (hs : Placed s) (hc : Timed cfg s) (h : Moves cfg s a t) : Timed cfg t := by
  refine ⟨fun m habout ↦ ?_, fun m hphase ↦ ?_⟩
  · by_cases hsched : (s.metrics m).phase = .flagged ∧ (t.metrics m).phase = .scheduled
    · obtain ⟨hlate, hcollections, hnext⟩ := h.schedules hsched.1 hsched.2
      have hunstarted : (s.metrics m).phase ≠ .started := by rw [hsched.1]; decide
      have hnone : lateCount s m = 0 :=
        Nat.le_zero.mp ((lateCount_le s m).trans (hs.unstarted m hunstarted).le)
      exact ⟨1, by rw [hlate, hnone, hcollections, hc.fresh m hunstarted], hnext⟩
    · have hold : places s m ≠ 0 ∨ (s.metrics m).phase = .scheduled := by
        rcases habout with hplaces | hphase
        · rcases h.places_cases m with ⟨heq, -⟩ | ⟨-, hphase, -⟩ | ⟨heq, -⟩
          · exact .inl (heq ▸ hplaces)
          · exact .inr hphase
          · exact .inl (by omega)
        · rcases h.phase_cases m with heq | ⟨-, ht⟩ | hboth | ⟨hs, -⟩
          · exact .inr (heq ▸ hphase)
          · rw [ht] at hphase
            cases hphase
          · exact absurd hboth hsched
          · exact .inr hs
      rcases h.onSchedule hs (hc.scheduled m hold) with hkept | hflagged | ⟨hzero, hstarted⟩
      · exact hkept
      · rcases hold with hplaces | hphase
        · exact absurd (hs.unstarted m (by rw [hflagged]; decide)) hplaces
        · rw [hflagged] at hphase
          cases hphase
      · rcases habout with hplaces | hphase
        · exact absurd hzero hplaces
        · rw [hstarted] at hphase
          cases hphase
  · rw [h.collections hs m hphase]
    apply hc.fresh m
    intro hstarted
    rcases h.phase_cases m with heq | ⟨hs, -⟩ | ⟨hs, -⟩ | ⟨hs, -⟩
    · exact hphase (heq.trans hstarted)
    all_goals
      rw [hs] at hstarted
      cases hstarted

theorem Placed.started_of_stored (hs : Placed s) {m : M} (hmem : .metric m ∈ s.eventDs) :
    (s.metrics m).phase = .started := by
  by_contra hphase
  have hpos := List.count_pos_iff.mpr hmem
  have hle := count_event_le s m
  have hzero := hs.unstarted m hphase
  omega

theorem Moves.nextRunTime_eq (hs : Placed s) (h : Moves cfg s a t) {m : M}
    (hmem : .metric m ∈ s.eventDs) :
    (t.metrics m).nextRunTime = (s.metrics m).nextRunTime := by
  have hstarted := hs.started_of_stored hmem
  cases h with
  | tick ms => rfl
  | endChecker => rfl
  | endSender => rfl
  | @client _ e h =>
    cases h with
    | @schedule m' h =>
      have hne : m' ≠ m := by
        rintro rfl
        rw [h] at hstarted
        cases hstarted
      simp [Effect.apply, Effect.onMetric, hne]
    | flag h => exact (Effect.Timeless.frame cfg (e := .flag _) trivial s m).1
    | launch h hlock => exact (Effect.Timeless.frame cfg (e := .launch _) trivial s m).1
    | stop m' => exact (Effect.Timeless.frame cfg (e := .stop m') trivial s m).1
    | exitEvent hlock => rfl
    | exitSend => rfl
  | checker h => exact (h.timeless.frame cfg s m).1
  | sender h => exact (h.timeless.frame cfg s m).1
  | @worker _ i w pc e ha hw h =>
    change ((e.apply cfg s).metrics m).nextRunTime = _
    rcases h.late_cases with ⟨-, htimeless⟩ | ⟨m', size, -, -, -, rfl⟩ | ⟨m', rfl, -, rfl⟩ |
      ⟨m', -, -, -, -, rfl⟩
    · exact (htimeless.frame cfg s m).1
    · simp only [Effect.apply, Effect.onMetric]
      split_ifs <;> rfl
    · have hne : m' ≠ m := by
        rintro rfl
        exact hs.not_mem_event (List.mem_of_getElem? hw) rfl hmem
      simp [Effect.apply, Effect.onMetric, hne]
    · rfl

theorem Moves.eventDs_cases (h : Moves cfg s a t) :
    t.eventDs = s.eventDs ∨ t.key = s.key ∧
      ((∃ item, t.eventDs = heappush (keyLt s.key) s.eventDs item) ∨
        ∃ item, heappop (keyLt s.key) s.eventDs = some (item, t.eventDs)) := by
  have hkey {e : Effect M V} (he : e.Timeless) : (e.apply cfg s).key = s.key := by
    funext item
    cases item with
    | metric m => exact congrArg _ (he.frame cfg s m).1
    | systemExit => rfl
  cases h with
  | tick ms => exact .inl rfl
  | endChecker => exact .inl rfl
  | endSender => exact .inl rfl
  | @client _ e h =>
    cases h with
    | launch h hlock => exact .inr ⟨hkey trivial, .inl ⟨_, rfl⟩⟩
    | exitEvent hlock => exact .inr ⟨hkey trivial, .inl ⟨_, rfl⟩⟩
    | flag h => exact .inl rfl
    | schedule h => exact .inl rfl
    | stop m => exact .inl rfl
    | exitSend => exact .inl rfl
  | checker h =>
    rcases h.holding_cases with ⟨-, hquiet⟩ | ⟨item, left, hpop, -, rfl, rfl⟩ |
      ⟨m, -, -, hquiet, -⟩ | ⟨m, -, -, rfl⟩
    · exact .inl (hquiet.frame cfg s).1
    · exact .inr ⟨hkey trivial, .inr ⟨item, hpop⟩⟩
    · exact .inl (hquiet.frame cfg s).1
    · exact .inl rfl
  | worker ha hw h =>
    rcases h.holding_cases with ⟨-, hquiet⟩ | ⟨m, rest, -, -, -, rfl⟩ | ⟨m, -, -, hquiet, -⟩ |
      ⟨m, -, -, rfl⟩
    · exact .inl (hquiet.frame cfg s).1
    · exact .inl rfl
    · exact .inl (hquiet.frame cfg s).1
    · exact .inr ⟨hkey trivial, .inl ⟨_, rfl⟩⟩
  | sender h => exact .inl (h.quiet.frame cfg s).1

theorem Moves.isHeap (hs : Placed s) (hheap : IsHeap s.key s.eventDs) (h : Moves cfg s a t) :
    IsHeap t.key t.eventDs := by
  rcases h.eventDs_cases with heq | ⟨hkey, ⟨item, heq⟩ | ⟨item, hpop⟩⟩
  · rw [heq]
    refine hheap.congr fun item hitem ↦ ?_
    cases item with
    | metric m => exact congrArg _ (h.nextRunTime_eq hs hitem)
    | systemExit => rfl
  · rw [hkey, heq]
    exact heappush_isHeap hheap item
  · rw [hkey]
    exact heappop_isHeap hheap hpop

structure Sound (cfg : Config M V) (s : State M V) : Prop where
  placed : Placed s
  timed : Timed cfg s
  heap : IsHeap s.key s.eventDs

theorem sound_initial (clock : ℤ) (n : ℕ) : Sound cfg (State.initial clock n : State M V) :=
  ⟨placed_initial clock n, timed_initial clock n, isHeap_nil⟩

theorem Sound.moves (hs : Sound cfg s) (h : Moves cfg s a t) : Sound cfg t :=
  ⟨hs.placed.moves h, hs.timed.moves hs.placed h, h.isHeap hs.placed hs.heap⟩

theorem Reaches.sound {P : State M V → Action M V → Prop} {clock : ℤ} {n : ℕ}
    (h : Reaches cfg P (State.initial clock n) s) : Sound cfg s :=
  h.invariant (sound_initial clock n) fun _ hs hm ↦ hs.moves hm

theorem Reaches.conserved {clock : ℤ} {n : ℕ}
    (h : Reaches cfg (fun _ a ↦ ¬ a.Fails) (State.initial clock n) s) : Conserved s := by
  have hboth : Sound cfg s ∧ Conserved s := by
    refine h.invariant (I := fun s ↦ Sound cfg s ∧ Conserved s) ⟨sound_initial clock n, ?_⟩ ?_
    · intro m hstarted
      cases hstarted
    · intro t a u ha ⟨hsound, hconserved⟩ hm
      exact ⟨hsound.moves hm, hconserved.moves hsound.placed hm ha⟩
  exact hboth.2

theorem Sound.nextRunTime_eq (hs : Sound cfg s) {m : M} (habout : places s m ≠ 0)
    (hlate : lateCount s m = 0) :
    (s.metrics m).nextRunTime =
      (cfg.interval m).after^[1 + (s.metrics m).collections] (s.metrics m).startTime := by
  obtain ⟨k, hk, hnext⟩ := hs.timed.scheduled m (.inl habout)
  rw [hnext]
  congr 1
  omega

theorem Sound.nextRunTime (hs : Sound cfg s) {m : M} (hmem : .metric m ∈ s.eventDs) :
    (s.metrics m).nextRunTime =
      (cfg.interval m).after^[1 + (s.metrics m).collections] (s.metrics m).startTime := by
  have hcount := List.count_pos_iff.mpr hmem
  have hle := count_event_le s m
  have hlate : lateCount s m = 0 := by
    rw [lateCount, List.countP_eq_zero]
    intro w hw hlate
    exact hs.placed.not_mem_event hw (Worker.holding_of_late (by simpa using hlate)) hmem
  exact hs.nextRunTime_eq (by omega) hlate

end Liota.MetricHandler
