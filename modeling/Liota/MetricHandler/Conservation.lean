import Liota.MetricHandler.Timing

namespace Liota.MetricHandler

open Python Python.Heapq Dccs

variable {M V : Type}

def Worker.serves : Worker M V → Bool
  | .dead => false
  | _ => true

/-- The collection threads that have not ended. -/
def serving (s : State M V) : ℕ := s.workers.countP Worker.serves

theorem Worker.Moves.dead_cases {cfg : Config M V} {s : State M V} {a : Action M V}
    {e : Effect M V} {w pc : Worker M V} (h : w.Moves cfg s a pc e) :
    w.serves = true ∧ (pc.serves = true ∨ a.Fails) := by
  cases h <;> simp [Worker.serves, Action.Fails]

variable [DecidableEq M]

/-- As long as no `collect` raises, a metric is in at most one place, and in exactly one from the
end of `start_collecting` until it is stopped. In `event_ds`, whose heap order is that of the run
times, these are the start time with an interval added for each collection and one more, in the
arithmetic of the interval, and no step changes them. -/
theorem metrics_conserved (cfg : Config M V) (clock : ℤ) (n : ℕ) (s : State M V)
    (h : Reaches cfg (fun _ a ↦ ¬ a.Fails) (State.initial clock n) s) :
    (∀ m, places s m ≤ 1) ∧
    (∀ m, (s.metrics m).phase = .started → (s.metrics m).flagAlive = true → places s m = 1) ∧
    IsHeap s.key s.eventDs ∧
    ∀ m, .metric m ∈ s.eventDs →
      (s.metrics m).nextRunTime =
        (cfg.interval m).after^[1 + (s.metrics m).collections] (s.metrics m).startTime ∧
      (∀ k, cfg.interval m = .int k → (s.metrics m).nextRunTime =
        (s.metrics m).startTime + (1 + (s.metrics m).collections) * k * 1000) ∧
      ∀ a t, perform cfg a s = some t →
        (t.metrics m).nextRunTime = (s.metrics m).nextRunTime := by
  have hsound := h.sound
  refine ⟨hsound.placed.le_one, h.conserved, hsound.heap, fun m hmem ↦ ?_⟩
  have hnext := hsound.nextRunTime hmem
  refine ⟨hnext, fun k hk ↦ ?_, fun a t ht ↦ (perform_moves ht).nextRunTime_eq hsound.placed hmem⟩
  rw [hnext, hk, Number.iterate_after_int]
  push_cast
  ring

section Examples

def plainConfig (M : Type) (interval : Number) (aggregationSize : ℤ) : Config M ℤ where
  name _ := "metric".toList
  interval _ := interval
  aggregationSize _ := aggregationSize
  dcc _ := .graphite
  str v := (toString v).toList

/-- `start_collecting`, and the checker handing the metric on once it is due. -/
def startActions (m : M) (ms : ℕ) : List (Action M ℤ) :=
  List.replicate 3 (Action.start m) ++ [Action.tick ms] ++ List.replicate 7 Action.check

def collectActions (i : ℕ) (v : ℤ) : List (Action M ℤ) :=
  List.replicate 3 (Action.collect i) ++ [Action.returns i (.value v)] ++
    List.replicate 9 (Action.collect i)

end Examples

theorem metrics_conserved_collected :
    ∃ s, run (plainConfig Unit 1 2) (startActions () 1000 ++ collectActions 0 7)
        (State.initial 0 2) = some s ∧ s.eventDs = [.metric ()] ∧ (s.metrics ()).collections = 1 ∧
      places s () = 1 ∧ (s.metrics ()).nextRunTime = 2000 := by
  have hmap : (run (plainConfig Unit 1 2) (startActions () 1000 ++ collectActions 0 7)
      (State.initial 0 2)).map (fun s ↦ (s.eventDs, (s.metrics ()).collections,
        (s.metrics ()).phase, (s.metrics ()).flagAlive, (s.metrics ()).startTime)) =
      some ([.metric ()], 1, Phase.started, true, 0) := by decide +kernel
  obtain ⟨s, hs, hfields⟩ := Option.map_eq_some_iff.mp hmap
  simp only [Prod.mk.injEq] at hfields
  obtain ⟨hevent, hcollections, hphase, halive, hstart⟩ := hfields
  have hreach : Reaches (plainConfig Unit 1 2) (fun _ a ↦ ¬ a.Fails) (State.initial 0 2) s := by
    refine Reaches.refl.trans_run hs fun _ a ha hfails ↦ ?_
    simp only [startActions, collectActions, List.mem_append, List.mem_replicate,
      List.mem_singleton] at ha
    rcases ha with ((⟨-, rfl⟩ | rfl) | ⟨-, rfl⟩) | (⟨-, rfl⟩ | rfl) | ⟨-, rfl⟩ <;> exact hfails
  obtain ⟨-, hone, -, htime⟩ := metrics_conserved (plainConfig Unit 1 2) 0 2 s hreach
  refine ⟨s, hs, hevent, hcollections, hone () hphase halive, ?_⟩
  have hnext := (htime () (by rw [hevent]; simp)).2.1 1 rfl
  rw [hcollections, hstart] at hnext
  norm_num at hnext
  exact hnext

/-- An interval of 33.3 milliseconds as a `float`: after two collections the sums are not the
product. And `collect` raising before it calls the sampling function, which is no Python function:
the metric is nowhere. -/
theorem rounded_run_time_and_lost_metric :
    (∃ s, run (plainConfig Unit (.float (toFloat (333 / 10000))) 9)
        (startActions () 34 ++ collectActions 0 7 ++ [Action.tick 34] ++
          List.replicate 7 Action.check ++ collectActions 0 7) (State.initial 1510000000000 1) =
            some s ∧ .metric () ∈ s.eventDs ∧ (s.metrics ()).collections = 2 ∧
      (s.metrics ()).nextRunTime ≠
        (s.metrics ()).startTime + (1 + 2) * toFloat (333 / 10000) * 1000) ∧
    ∃ s, run (plainConfig Unit 1 1)
        (startActions () 1000 ++ List.replicate 2 (Action.collect 0) ++ [.collectRaises 0])
        (State.initial 0 1) = some s ∧ (s.metrics ()).phase = .started ∧
      (s.metrics ()).flagAlive = true ∧ places s () = 0 := by
  constructor
  · have hmap : (run (plainConfig Unit (.float (toFloat (333 / 10000))) 9)
        (startActions () 34 ++ collectActions 0 7 ++ [Action.tick 34] ++
          List.replicate 7 Action.check ++ collectActions 0 7) (State.initial 1510000000000 1)).map
        (fun s ↦ (s.eventDs, (s.metrics ()).collections, decide ((s.metrics ()).nextRunTime =
          (s.metrics ()).startTime + (1 + 2) * toFloat (333 / 10000) * 1000))) =
        some ([.metric ()], 2, false) := by decide +kernel
    obtain ⟨s, hs, hfields⟩ := Option.map_eq_some_iff.mp hmap
    simp only [Prod.mk.injEq, decide_eq_false_iff_not] at hfields
    obtain ⟨hevent, hcollections, hnext⟩ := hfields
    exact ⟨s, hs, by rw [hevent]; simp, hcollections, hnext⟩
  · have hmap : (run (plainConfig Unit 1 1)
        (startActions () 1000 ++ List.replicate 2 (Action.collect 0) ++ [.collectRaises 0])
        (State.initial 0 1)).map (fun s ↦ ((s.metrics ()).phase, (s.metrics ()).flagAlive,
          places s ())) = some (Phase.started, true, 0) := by decide +kernel
    obtain ⟨s, hs, hfields⟩ := Option.map_eq_some_iff.mp hmap
    simp only [Prod.mk.injEq] at hfields
    exact ⟨s, hs, hfields⟩

theorem serving_moves {cfg : Config M V} {s t : State M V} {a : Action M V} (h : Moves cfg s a t)
    (hfails : ¬ a.Fails) : serving t = serving s := by
  have hworkers (e : Effect M V) : serving (e.apply cfg s) = serving s := by
    simp [serving]
  cases h with
  | tick ms => rfl
  | endChecker => rfl
  | endSender => rfl
  | client h => exact hworkers _
  | checker h => exact hworkers _
  | sender h => exact hworkers _
  | @worker _ i w pc e ha hw h =>
    obtain ⟨hw', hpc | hfailed⟩ := h.dead_cases
    · have hset := countP_set_add Worker.serves hw pc
      rw [hw', hpc] at hset
      have hcount := Nat.add_right_cancel hset
      simpa [serving, State.setWorker] using hcount
    · exact absurd hfailed hfails

theorem serving_fails {cfg : Config M V} {s t : State M V} {a : Action M V} (ha : a.Fails)
    (h : perform cfg a s = some t) : serving t + 1 = serving s := by
  have hdies {i : ℕ} {w : Worker M V} (hw : s.workers[i]? = some w) (hserves : w.serves = true) :
      serving (s.setWorker i .dead) + 1 = serving s := by
    have hset := countP_set_add Worker.serves hw .dead
    rw [hserves] at hset
    simpa [serving, State.setWorker, Worker.serves] using hset
  cases a with
  | raises i | collectRaises i =>
    simp only [perform] at h
    split at h <;> first
      | (obtain rfl := Option.some.inj h
         exact hdies ‹_› rfl)
      | cases h
  | _ => exact ha.elim

/-- The sampling function of the metric raises in the run. -/
def Raises (cfg : Config M V) (s : State M V) (actions : List (Action M V)) (m : M) : Prop :=
  ∃ before i after t, actions = before ++ .raises i :: after ∧ run cfg before s = some t ∧
    t.workers[i]? = some (.sampling m)

/-- All along the run the `n` collection threads serve `collect_queue`, and every metric that is
started, has not been stopped and whose own sampling function has not raised is in
circulation. -/
def Isolated (cfg : Config M V) (clock : ℤ) (n : ℕ) (actions : List (Action M V)) : Prop :=
  ∀ before after t, actions = before ++ after → run cfg before (State.initial clock n) = some t →
    serving t = n ∧
    ∀ m, (t.metrics m).phase = .started → (t.metrics m).flagAlive = true →
      ¬ Raises cfg (State.initial clock n) before m → 0 < places t m

/-- Exceptions leave the other metrics and the pool alone just in case no call of `collect` ends in
one, be it of the sampling function or another. -/
theorem isolated_iff_never_raises (cfg : Config M V) (clock : ℤ) (n : ℕ)
    (actions : List (Action M V)) (hrun : (run cfg actions (State.initial clock n)).isSome) :
    Isolated cfg clock n actions ↔ ∀ a ∈ actions, ¬ a.Fails := by
  constructor
  · intro h a ha hfails
    obtain ⟨before, after, rfl⟩ := List.append_of_mem ha
    obtain ⟨u, hu⟩ := Option.isSome_iff_exists.mp hrun
    rw [run_append] at hu
    obtain ⟨s, hs, hrest⟩ := Option.bind_eq_some_iff.mp hu
    obtain ⟨t, ht, -⟩ := Option.bind_eq_some_iff.mp hrest
    have hbefore := (h before _ s rfl hs).1
    have hafter : serving t = n := by
      refine (h (before ++ [a]) after t (by simp) ?_).1
      rw [run_append, hs]
      simp [run, ht]
    have hraises := serving_fails hfails ht
    omega
  · intro h before after t hactions ht
    have hreach : Reaches cfg (fun _ a ↦ ¬ a.Fails) (State.initial clock n) t :=
      Reaches.refl.trans_run ht fun _ a ha ↦ h a (by simp [hactions, ha])
    refine ⟨?_, fun m hstarted halive _ ↦ ?_⟩
    · refine hreach.invariant (I := fun s ↦ serving s = n) ?_ fun ha hs hm ↦ ?_
      · simp [serving, State.initial, List.countP_replicate, Worker.serves]
      · rw [serving_moves hm ha, hs]
    · rw [hreach.conserved m hstarted halive]
      exact Nat.one_pos

theorem isolated_collected :
    Isolated (plainConfig Unit 1 2) 0 2 (startActions () 1000 ++ collectActions 0 7) := by
  apply (isolated_iff_never_raises (plainConfig Unit 1 2) 0 2 _ (by decide +kernel)).mpr
  intro a ha hfails
  simp only [startActions, collectActions, List.mem_append, List.mem_replicate,
    List.mem_singleton] at ha
  rcases ha with ((⟨-, rfl⟩ | rfl) | ⟨-, rfl⟩) | (⟨-, rfl⟩ | rfl) | ⟨-, rfl⟩ <;> exact hfails

/-- The first metric raises; the only thread of the pool ends, and the second metric stays in
`collect_queue`. -/
theorem raising_ends_pool :
    (run (plainConfig Bool 1 1)
      (startActions true 1000 ++ startActions false 1000 ++ List.replicate 3 (.collect 0) ++
        [.raises 0]) (State.initial 0 1)).map (fun s ↦ (serving s, s.collectQueue)) =
          some (0, [false]) ∧
    ¬ Isolated (plainConfig Bool 1 1) 0 1
      (startActions true 1000 ++ startActions false 1000 ++ List.replicate 3 (.collect 0) ++
        [.raises 0]) := by
  have hmap : (run (plainConfig Bool 1 1)
      (startActions true 1000 ++ startActions false 1000 ++ List.replicate 3 (.collect 0) ++
        [.raises 0]) (State.initial 0 1)).map (fun s ↦ (serving s, s.collectQueue)) =
          some (0, [false]) := by decide +kernel
  refine ⟨hmap, fun h ↦ ?_⟩
  obtain ⟨t, ht, heq⟩ := Option.map_eq_some_iff.mp hmap
  have hserving := (h _ [] t (List.append_nil _).symm ht).1
  have hzero : serving t = 0 := congrArg Prod.fst heq
  omega

end Liota.MetricHandler
