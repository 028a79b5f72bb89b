import Mathlib.Algebra.BigOperators.Group.List.Basic
import Mathlib.Algebra.Order.BigOperators.Group.List
import Liota.Graph.Ending
import Liota.MetricHandler.Running

namespace Liota.MetricHandler

open Python.Heapq Dccs

variable {M V : Type}

def Action.Own : Action M V → Prop
  | .check | .collect _ | .send | .formatRaises => True
  | _ => False

def Worker.weight (s : State M V) : Worker M V → ℕ
  | .idle | .sampling _ | .dead => 0
  | .taken _ => 2
  | .checked _ => 1
  | .sampled m => 24 + ((s.metrics m).collectedData.samples s.clock).length
  | .adding _ rest _ => 23 + rest.length
  | .counting _ _ => 22
  | .storing _ _ => 21
  | .collected _ => 20
  | .scheduling _ => 19
  | .returning _ => 18
  | .testing _ => 3
  | .queueing _ => 2
  | .resetting _ => 1

def Checker.weight (s : State M V) : Checker M → ℕ
  | .exited => 0
  | .popping => 2
  | .testing (.metric m) =>
    if (s.metrics m).nextRunTime ≤ s.clock ∨ (s.metrics m).flagAlive = false then 3 else 6
  | .testing .systemExit => 3
  | .waiting _ false => 4
  | .looking => 5
  | .idle => 6
  | .waiting _ true => 8
  | .putting _ => 10
  | .returned _ => 11

def pending (s : State M V) : ℕ :=
  10 * s.eventDs.length + 3 * s.collectQueue.length + (s.workers.map (Worker.weight s)).sum

def upstream (s : State M V) : ℕ := s.checker.weight s + pending s

def Item.weight (s : State M V) : Item M → ℕ
  | .metric m => 7 + (s.metrics m).values.length
  | .systemExit => 2

def Sender.weight (s : State M V) : Sender M V → ℕ
  | .exited | .getting => 0
  | .idle | .taken .systemExit => 1
  | .taken (.metric m) => 6 + (s.metrics m).values.length
  | .checked m => 5 + (s.metrics m).values.length
  | .sending m => 4 + (s.metrics m).values.length
  | .publishing m => 3 + (s.metrics m).values.length
  | .draining _ left _ => 2 + left

def downstream (s : State M V) : ℕ := s.sender.weight s + (s.sendQueue.map (Item.weight s)).sum

/-- Nothing to do before time passes or a sampling function returns: no metric in `event_ds` is
due, a metric waits for its collection only if all the collection threads are in sampling functions,
and none waits to be sent. -/
structure AtRest (s : State M V) : Prop where
  events : ∀ m, .metric m ∈ s.eventDs → (s.clock : ℚ) < (s.metrics m).nextRunTime
  collect : s.collectQueue = [] ∨ ∀ w ∈ s.workers, ∃ m, w = .sampling m
  send : s.sendQueue = []
  metrics : ∀ m, (s.metrics m).phase = .started → (s.metrics m).flagAlive = true →
    .metric m ∈ s.eventDs ∨ m ∈ s.collectQueue ∨ .sampling m ∈ s.workers

theorem sum_map_set {α : Type} (f : α → ℕ) {l : List α} {i : ℕ} {w : α} (h : l[i]? = some w)
    (pc : α) : ((l.set i pc).map f).sum + f w = (l.map f).sum + f pc := by
  induction l generalizing i with
  | nil => cases h
  | cons x l ih =>
    cases i with
    | zero =>
      obtain rfl := Option.some.inj h
      simp only [List.set_cons_zero, List.map_cons, List.sum_cons]
      omega
    | succ i =>
      have hrest := ih h
      simp only [List.set_cons_succ, List.map_cons, List.sum_cons]
      omega

theorem Checker.weight_notify (s : State M V) (pc : Checker M) :
    pc.notify.weight s ≤ pc.weight s + 4 := by
  cases pc with
  | waiting first notified =>
    cases notified with
    | false => exact le_rfl
    | true => exact Nat.le_add_right _ _
  | _ => exact Nat.le_add_right _ _

section

variable {cfg : Config M V} {s t : State M V} {a : Action M V} {e : Effect M V}

theorem Worker.weight_step {w pc : Worker M V} (h : w.step cfg s = some (pc, e)) :
    (e.Quiet ∧ pc.weight s < w.weight s) ∨
      (∃ m rest, s.collectQueue = m :: rest ∧ e = .takeCollect ∧ pc.weight s < w.weight s + 3) ∨
      ∃ m, e = .putEvent (.metric m) ∧ pc.weight s + 14 < w.weight s := by
  cases w with
  | idle =>
    rw [Worker.step] at h
    split at h
    · cases h
    · next m rest hqueue =>
      obtain ⟨rfl, rfl⟩ := Prod.mk.inj (Option.some.inj h)
      exact .inr (.inl ⟨m, rest, hqueue, rfl, by simp [weight]⟩)
  | taken m =>
    obtain ⟨rfl, rfl⟩ := Prod.mk.inj (Option.some.inj h)
    refine .inl ⟨trivial, ?_⟩
    split
    · simp [weight]
    · simp [weight]
  | sampled m =>
    rw [Worker.step] at h
    split at h
    · obtain ⟨rfl, rfl⟩ := Prod.mk.inj (Option.some.inj h)
      exact .inl ⟨trivial, by simp only [weight]; omega⟩
    · obtain ⟨rfl, rfl⟩ := Prod.mk.inj (Option.some.inj h)
      exact .inl ⟨trivial, by simp only [weight]; omega⟩
  | adding m rest added =>
    cases rest with
    | nil =>
      obtain ⟨rfl, rfl⟩ := Prod.mk.inj (Option.some.inj h)
      exact .inl ⟨trivial, by simp [weight]⟩
    | cons v rest =>
      obtain ⟨rfl, rfl⟩ := Prod.mk.inj (Option.some.inj h)
      exact .inl ⟨trivial, by simp [weight]⟩
  | collected m =>
    obtain ⟨rfl, rfl⟩ := Prod.mk.inj (Option.some.inj h)
    refine .inl ⟨trivial, ?_⟩
    split
    · simp [weight]
    · simp [weight]
  | returning m =>
    rw [Worker.step] at h
    split at h
    · cases h
    · obtain ⟨rfl, rfl⟩ := Prod.mk.inj (Option.some.inj h)
      exact .inr (.inr ⟨m, rfl, by simp [weight]⟩)
  | testing m =>
    obtain ⟨rfl, rfl⟩ := Prod.mk.inj (Option.some.inj h)
    refine .inl ⟨trivial, ?_⟩
    split
    · simp [weight]
    · simp [weight]
  | sampling m | dead => cases h
  | _ =>
    obtain ⟨rfl, rfl⟩ := Prod.mk.inj (Option.some.inj h)
    exact .inl ⟨trivial, by simp [weight]⟩

theorem Worker.weight_congr (hclock : t.clock = s.clock)
    (hdata : ∀ m, (t.metrics m).collectedData = (s.metrics m).collectedData) :
    Worker.weight t = Worker.weight s := by
  funext w
  cases w with
  | sampled m => rw [weight, weight, hclock, hdata]
  | _ => rfl

theorem Checker.weight_congr {pc : Checker M} (hclock : t.clock = s.clock)
    (hmetric : ∀ m, pc = .testing (.metric m) →
      (t.metrics m).nextRunTime = (s.metrics m).nextRunTime ∧
        (t.metrics m).flagAlive = (s.metrics m).flagAlive) : pc.weight t = pc.weight s := by
  cases pc with
  | testing item =>
    cases item with
    | metric m =>
      obtain ⟨hnext, halive⟩ := hmetric m rfl
      rw [weight, weight, hclock, hnext, halive]
    | systemExit => rfl
  | waiting first notified =>
    cases notified with
    | false => rfl
    | true => rfl
  | _ => rfl

theorem Worker.Moves.ne_assign {i : ℕ} {w pc : Worker M V} (h : w.Moves cfg s (.collect i) pc e)
    (m : M) (data : Collected V) : e ≠ .assign m data := by
  cases h <;> simp

theorem upstream_congr (hchecker : t.checker = s.checker) (hevents : t.eventDs = s.eventDs)
    (hcollect : t.collectQueue = s.collectQueue) (hworkers : t.workers = s.workers)
    (hclock : t.clock = s.clock)
    (hmetrics : ∀ m, (t.metrics m).nextRunTime = (s.metrics m).nextRunTime ∧
      (t.metrics m).flagAlive = (s.metrics m).flagAlive ∧
      (t.metrics m).collectedData = (s.metrics m).collectedData) : upstream t = upstream s := by
  have hweight : s.checker.weight t = s.checker.weight s :=
    Checker.weight_congr hclock fun m _ ↦ ⟨(hmetrics m).1, (hmetrics m).2.1⟩
  rw [upstream, upstream, pending, pending, hchecker, hevents, hcollect, hworkers, hweight,
    Worker.weight_congr hclock fun m ↦ (hmetrics m).2.2]

theorem Item.weight_mono (hvalues : ∀ m, (t.metrics m).values.length ≤ (s.metrics m).values.length)
    (item : Item M) : item.weight t ≤ item.weight s := by
  cases item with
  | metric m => exact Nat.add_le_add_left (hvalues m) 7
  | systemExit => exact le_rfl

theorem downstream_lt (hqueue : t.sendQueue = s.sendQueue)
    (hvalues : ∀ m, (t.metrics m).values.length ≤ (s.metrics m).values.length)
    (hlt : t.sender.weight t < s.sender.weight s) : downstream t < downstream s := by
  have hitems : (s.sendQueue.map (Item.weight t)).sum ≤ (s.sendQueue.map (Item.weight s)).sum :=
    List.sum_le_sum fun item _ ↦ item.weight_mono hvalues
  rw [downstream, downstream, hqueue]
  omega

theorem InService.checker_stuck (hs : InService s) (h : Checker.step s s.checker = none) :
    ∃ first, s.checker = .waiting first false ∧
      ∀ m deadline, first = some (m, deadline) → (s.clock : ℚ) < deadline := by
  have hrunning := hs.checker
  generalize s.checker = w at h hrunning
  cases w with
  | waiting first notified =>
    cases notified with
    | true =>
      cases first with
      | none => simp [Checker.step] at h
      | some first => simp [Checker.step] at h
    | false =>
      refine ⟨first, rfl, ?_⟩
      rintro m deadline rfl
      simpa [Checker.step] using h
  | looking =>
    rw [Checker.step] at h
    split at h
    · cases h
    · cases h
    · cases h
  | testing item =>
    cases item with
    | metric m => cases h
    | systemExit => cases h
  | popping =>
    rw [Checker.step] at h
    split at h
    · cases h
    · cases h
  | returned item =>
    cases item with
    | metric m => cases h
    | systemExit => cases h
  | exited => exact hrunning.elim
  | idle | putting m => cases h

theorem Worker.stuck {w : Worker M V} (hdead : w ≠ .dead) (hlock : s.locked = false)
    (h : w.step cfg s = none) : w = .idle ∧ s.collectQueue = [] ∨ ∃ m, w = .sampling m := by
  cases w with
  | idle =>
    rw [Worker.step] at h
    split at h
    · next hqueue => exact .inl ⟨rfl, hqueue⟩
    · cases h
  | sampling m => exact .inr ⟨m, rfl⟩
  | sampled m =>
    rw [Worker.step] at h
    split at h
    · cases h
    · cases h
  | adding m rest added =>
    cases rest with
    | nil => cases h
    | cons v rest => cases h
  | returning m => simp [Worker.step, hlock] at h
  | dead => exact absurd rfl hdead
  | _ => cases h

theorem InService.sender_stuck (hs : InService s) (h : Sender.step cfg s s.sender = none) :
    s.sendQueue = [] := by
  have hrunning := hs.sender
  generalize s.sender = w at h hrunning
  cases w with
  | getting =>
    rw [Sender.step] at h
    split at h
    · next hqueue => exact hqueue
    · cases h
  | taken item =>
    cases item with
    | metric m => cases h
    | systemExit => cases h
  | draining m left samples =>
    cases left with
    | zero =>
      rw [Sender.step] at h
      split at h
      · cases h
      · cases h
    | succ left =>
      have hleft : left + 1 ≤ (s.metrics m).values.length := hrunning
      rw [Sender.step] at h
      split at h
      · next hvalues => simp [hvalues] at hleft
      · cases h
  | exited => exact hrunning.elim
  | idle | checked m | sending m | publishing m => cases h

theorem Action.Serves.not_fails (h : a.Serves) : ¬ a.Fails := by
  cases a <;> first | exact h.elim | exact id

theorem Action.Own.serves (h : a.Own) : a.Serves := by
  cases a with
  | check | collect i | send | formatRaises => trivial
  | _ => exact h.elim

end

variable [DecidableEq M]

section

variable {cfg : Config M V} {s t : State M V} {a : Action M V} {e : Effect M V}

theorem collectedData_apply {m : M} (cfg : Config M V) (s : State M V)
    (h : ∀ data, e ≠ .assign m data) :
    ((e.apply cfg s).metrics m).collectedData = (s.metrics m).collectedData := by
  cases e with
  | assign m' data =>
    have hne : m' ≠ m := fun hm ↦ h data (by rw [hm])
    simp [Effect.apply, Effect.onMetric, hne]
  | _ =>
    first
    | rfl
    | (simp only [Effect.apply, Effect.onMetric]; split_ifs <;> rfl)

theorem upstream_collect (hs : Watched s) (hp : Placed s) {i : ℕ}
    (h : perform cfg (.collect i) s = some t) : upstream t < upstream s := by
  obtain ⟨⟨pc, e⟩, hbind, rfl⟩ := Option.map_eq_some_iff.mp h
  obtain ⟨w, hw, hstep⟩ := Option.bind_eq_some_iff.mp hbind
  have hmoves := Worker.step_moves i hstep
  have hm : Moves cfg s (.collect i) ((e.apply cfg s).setWorker i pc) := .worker rfl hw hmoves
  have hclock : ((e.apply cfg s).setWorker i pc).clock = s.clock := clock_apply cfg s
  have hworker : Worker.weight ((e.apply cfg s).setWorker i pc) = Worker.weight s :=
    Worker.weight_congr hclock fun m ↦ collectedData_apply cfg s (hmoves.ne_assign m)
  have hchecker : s.checker.weight ((e.apply cfg s).setWorker i pc) = s.checker.weight s := by
    refine Checker.weight_congr hclock fun m hpc ↦ ⟨?_, (hmoves.internal.frame cfg s m).2.1⟩
    have hknows := hs.knows
    rw [hpc] at hknows
    exact hm.nextRunTime_eq hp hknows
  have hsum := sum_map_set (Worker.weight s) hw pc
  have hset : ((e.apply cfg s).setWorker i pc).workers = s.workers.set i pc := by
    simp [State.setWorker]
  change upstream ((e.apply cfg s).setWorker i pc) < upstream s
  rw [upstream, upstream, pending, pending, hworker, hset]
  rcases Worker.weight_step hstep with ⟨hquiet, hlt⟩ | ⟨m, rest, hqueue, rfl, hlt⟩ | ⟨m, rfl, hlt⟩
  · obtain ⟨hevents, hcollect, hpc⟩ := hquiet.frame cfg s
    have hevents' : ((e.apply cfg s).setWorker i pc).eventDs = s.eventDs := hevents
    have hcollect' : ((e.apply cfg s).setWorker i pc).collectQueue = s.collectQueue := hcollect
    have hpc' : ((e.apply cfg s).setWorker i pc).checker = s.checker := hpc
    rw [hevents', hcollect', hpc', hchecker]
    omega
  · have hevents : ((Effect.takeCollect.apply cfg s).setWorker i pc).eventDs = s.eventDs := rfl
    have hcollect : ((Effect.takeCollect.apply cfg s).setWorker i pc).collectQueue = rest :=
      congrArg List.tail hqueue
    have hpc : ((Effect.takeCollect.apply cfg s).setWorker i pc).checker = s.checker := rfl
    rw [hevents, hcollect, hpc, hchecker, hqueue, List.length_cons]
    omega
  · have hevents : (((Effect.putEvent (.metric m)).apply cfg s).setWorker i pc).eventDs.length =
        s.eventDs.length + 1 := (heappush_perm (keyLt s.key) s.eventDs (.metric m)).length_eq
    have hcollect : (((Effect.putEvent (.metric m)).apply cfg s).setWorker i pc).collectQueue =
        s.collectQueue := rfl
    have hnotified : (((Effect.putEvent (.metric m)).apply cfg s).setWorker i pc).checker.weight
        (((Effect.putEvent (.metric m)).apply cfg s).setWorker i pc) ≤
          s.checker.weight s + 4 := by
      have hcases : (((Effect.putEvent (.metric m)).apply cfg s).setWorker i pc).checker =
            s.checker.notify ∨
          (((Effect.putEvent (.metric m)).apply cfg s).setWorker i pc).checker = s.checker :=
        ite_eq_or_eq _ _ _
      rcases hcases with heq | heq
      · rw [heq, ← hchecker]
        exact Checker.weight_notify _ _
      · rw [heq, hchecker]
        exact Nat.le_add_right _ _
    rw [hevents, hcollect]
    omega

theorem upstream_check (hs : Watched s) (h : perform cfg .check s = some t) :
    upstream t < upstream s := by
  obtain ⟨⟨pc, e⟩, hstep, rfl⟩ := Option.map_eq_some_iff.mp h
  have hskip (pc : Checker M) (hlt : pc.weight s < s.checker.weight s) :
      upstream ((Effect.skip.apply cfg s).setChecker pc) < upstream s :=
    Nat.add_lt_add_right hlt _
  have hknows := hs.knows
  cases hpc : s.checker with
  | idle =>
    rw [hpc] at hstep
    obtain ⟨rfl, rfl⟩ := Prod.mk.inj (Option.some.inj hstep)
    apply hskip
    rw [hpc]
    split
    · simp [Checker.weight]
    · simp [Checker.weight]
  | looking =>
    rw [hpc, Checker.step] at hstep
    split at hstep
    · obtain ⟨rfl, rfl⟩ := Prod.mk.inj (Option.some.inj hstep)
      apply hskip
      simp [hpc, Checker.weight]
    · obtain ⟨rfl, rfl⟩ := Prod.mk.inj (Option.some.inj hstep)
      apply hskip
      simp [hpc, Checker.weight]
    · obtain ⟨rfl, rfl⟩ := Prod.mk.inj (Option.some.inj hstep)
      apply hskip
      rw [hpc]
      split
      · simp [Checker.weight]
      · simp [Checker.weight]
  | waiting first notified =>
    rw [hpc] at hstep hknows
    cases first with
    | none =>
      rw [Checker.step] at hstep
      split at hstep
      · next hnotified =>
        subst hnotified
        obtain ⟨rfl, rfl⟩ := Prod.mk.inj (Option.some.inj hstep)
        apply hskip
        rw [hpc]
        cases s.eventDs.head? with
        | none => simp [Checker.weight]
        | some item =>
          cases item with
          | metric m =>
            simp only [Option.map_some, Option.getD_some, Checker.weight]
            split
            · omega
            · omega
          | systemExit => simp [Checker.weight]
      · cases hstep
    | some first =>
      obtain ⟨m, deadline⟩ := first
      rw [Checker.step] at hstep
      split at hstep
      · next hready =>
        obtain ⟨rfl, rfl⟩ := Prod.mk.inj (Option.some.inj hstep)
        apply hskip
        rw [hpc]
        cases notified with
        | true =>
          simp only [Checker.weight]
          split
          · omega
          · omega
        | false =>
          -- the deadline has passed, so the test will find the metric due
          have hdue : (s.metrics m).nextRunTime ≤ s.clock := by
            rw [← hknows.2.1]
            exact hready.resolve_left (by simp)
          simp only [Checker.weight, if_pos (Or.inl hdue)]
          omega
      · cases hstep
  | testing item =>
    rw [hpc] at hstep
    cases item with
    | systemExit =>
      obtain ⟨rfl, rfl⟩ := Prod.mk.inj (Option.some.inj hstep)
      apply hskip
      simp [hpc, Checker.weight]
    | metric m =>
      obtain ⟨rfl, rfl⟩ := Prod.mk.inj (Option.some.inj hstep)
      apply hskip
      rw [hpc]
      by_cases hready : (s.metrics m).nextRunTime ≤ s.clock ∨ (s.metrics m).flagAlive = false
      · simp [Checker.weight, hready]
      · simp [Checker.weight, hready]
  | popping =>
    rw [hpc, Checker.step] at hstep
    split at hstep
    · obtain ⟨rfl, rfl⟩ := Prod.mk.inj (Option.some.inj hstep)
      apply hskip
      simp [hpc, Checker.weight]
    · next item left hpop =>
      obtain ⟨rfl, rfl⟩ := Prod.mk.inj (Option.some.inj hstep)
      have hlength := (heappop_perm hpop).2.length_eq
      rw [List.length_cons] at hlength
      change 11 + (10 * left.length + 3 * s.collectQueue.length +
        (s.workers.map (Worker.weight s)).sum) < upstream s
      rw [upstream, pending, hpc, hlength]
      simp only [Checker.weight]
      omega
  | returned item =>
    rw [hpc] at hstep
    cases item with
    | systemExit =>
      obtain ⟨rfl, rfl⟩ := Prod.mk.inj (Option.some.inj hstep)
      apply hskip
      simp [hpc, Checker.weight]
    | metric m =>
      obtain ⟨rfl, rfl⟩ := Prod.mk.inj (Option.some.inj hstep)
      apply hskip
      rw [hpc]
      split
      · simp [Checker.weight]
      · simp [Checker.weight]
  | putting m =>
    rw [hpc] at hstep
    obtain ⟨rfl, rfl⟩ := Prod.mk.inj (Option.some.inj hstep)
    change 6 + (10 * s.eventDs.length + 3 * (s.collectQueue ++ [m]).length +
      (s.workers.map (Worker.weight s)).sum) < upstream s
    rw [upstream, pending, hpc, List.length_append, List.length_singleton]
    simp only [Checker.weight]
    omega
  | exited =>
    rw [hpc] at hstep
    cases hstep

theorem Sender.Moves.upstream_eq {w pc : Sender M V} (h : w.Moves cfg s a pc e) :
    upstream ((e.apply cfg s).setSender pc) = upstream s := by
  obtain ⟨hevents, hcollect, hchecker⟩ := h.quiet.frame cfg s
  refine upstream_congr hchecker hevents hcollect (workers_apply cfg s) (clock_apply cfg s)
    fun m ↦ ?_
  refine ⟨(h.timeless.frame cfg s m).1, (h.internal.frame cfg s m).2.1, ?_⟩
  apply collectedData_apply cfg s
  intro data he
  subst he
  cases h

theorem Sender.Moves.values_le {w pc : Sender M V} (h : w.Moves cfg s a pc e) (m : M) :
    ((e.apply cfg s).metrics m).values.length ≤ (s.metrics m).values.length := by
  cases h with
  | send | get | pass =>
    simp only [Effect.apply, Effect.onMetric]
    split_ifs
    · simp
    · exact le_rfl
  | _ => exact le_rfl

theorem Sender.Moves.downstream_lt {pc : Sender M V} (h : s.sender.Moves cfg s a pc e) :
    downstream ((e.apply cfg s).setSender pc) < downstream s := by
  have hvalues := h.values_le
  have hlower (hqueue : (e.apply cfg s).sendQueue = s.sendQueue)
      (hlt : pc.weight (e.apply cfg s) < s.sender.weight s) :
      downstream ((e.apply cfg s).setSender pc) < downstream s :=
    MetricHandler.downstream_lt hqueue hvalues hlt
  generalize hw : s.sender = w at h hlower
  cases h with
  | @take item rest hqueue =>
    have hitem : (Sender.taken item).weight s < item.weight s := by
      cases item with
      | metric m => simp [Sender.weight, Item.weight]
      | systemExit => simp [Sender.weight, Item.weight]
    change (Sender.taken item).weight s + (s.sendQueue.tail.map (Item.weight s)).sum < downstream s
    rw [downstream, hw, hqueue, List.tail_cons, List.map_cons, List.sum_cons]
    exact Nat.lt_of_lt_of_le (Nat.add_lt_add_right hitem _) (Nat.le_add_left _ _)
  | send =>
    apply hlower rfl
    simp [Sender.weight, Effect.apply, Effect.onMetric]
  | get hget =>
    apply hlower rfl
    simp [Sender.weight]
  | pass hformat =>
    apply hlower rfl
    simp only [Sender.weight]
    omega
  | @discard m hdead =>
    apply hlower rfl
    simp only [Sender.weight]
    omega
  | check halive =>
    apply hlower rfl
    exact Nat.add_lt_add_right (Nat.lt_succ_self 5) _
  | publish =>
    apply hlower rfl
    exact Nat.add_lt_add_right (Nat.lt_succ_self 3) _
  | drain hne =>
    apply hlower rfl
    exact Nat.add_lt_add_right (Nat.lt_succ_self 2) _
  | _ =>
    apply hlower rfl
    simp only [Sender.weight]
    omega

theorem own_step_lowers (hs : Watched s) (hp : Placed s) (ha : a.Own)
    (h : perform cfg a s = some t) :
    upstream t < upstream s ∨ upstream t = upstream s ∧ downstream t < downstream s := by
  cases a with
  | check => exact .inl (upstream_check hs h)
  | collect i => exact .inl (upstream_collect hs hp h)
  | send =>
    obtain ⟨⟨pc, e⟩, hstep, rfl⟩ := Option.map_eq_some_iff.mp h
    have hmoves := Sender.step_moves hstep
    exact .inr ⟨hmoves.upstream_eq, hmoves.downstream_lt⟩
  | formatRaises =>
    simp only [perform] at h
    split at h
    · next hpc =>
      obtain rfl := Option.some.inj h
      have hmoves : s.sender.Moves cfg s .formatRaises .idle .skip := by
        rw [hpc]
        exact .formatRaises
      exact .inr ⟨hmoves.upstream_eq, hmoves.downstream_lt⟩
    · cases h
  | tick ms | start m | stop m | returns i data | raises i | collectRaises i | endChecker
  | endSender | exitEvent | exitSend => exact ha.elim

theorem atRest_of_stuck (hservice : InService s) (hs : Watched s) (hc : Conserved s)
    (hstuck : ∀ a, a.Own → perform cfg a s = none) : AtRest s := by
  have hcheck : Checker.step s s.checker = none :=
    Option.map_eq_none_iff.mp (hstuck .check trivial)
  have hsend : Sender.step cfg s s.sender = none :=
    Option.map_eq_none_iff.mp (hstuck .send trivial)
  obtain ⟨first, hpc, hdeadline⟩ := hservice.checker_stuck hcheck
  have hlock : s.locked = false := by simp [State.locked, hpc]
  have hknows := hs.knows
  rw [hpc] at hknows
  have hworkers (w : Worker M V) (hw : w ∈ s.workers) :
      w = .idle ∧ s.collectQueue = [] ∨ ∃ m, w = .sampling m := by
    obtain ⟨i, hi⟩ := List.mem_iff_getElem?.mp hw
    have hstep : w.step cfg s = none := by simpa [perform, hi] using hstuck (.collect i) trivial
    exact Worker.stuck (fun hdead ↦ hservice.workers (hdead ▸ hw)) hlock hstep
  refine ⟨fun m hmem ↦ ?_, ?_, hservice.sender_stuck hsend, fun m hstarted halive ↦ ?_⟩
  · cases first with
    | none =>
      rw [hknows rfl] at hmem
      cases hmem
    | some first =>
      obtain ⟨m', deadline⟩ := first
      obtain ⟨item, hitem, hle⟩ := hknows.2.2 rfl
      have hkey := hle.trans (hs.heap.le_of_mem hitem hmem)
      exact (hdeadline m' deadline rfl).trans_le (WithTop.coe_le_coe.mp hkey)
  · by_cases hqueue : s.collectQueue = []
    · exact .inl hqueue
    · exact .inr fun w hw ↦ (hworkers w hw).resolve_left fun h ↦ hqueue h.2
  · have hone := hc m hstarted halive
    rw [places, hpc] at hone
    simp only [Checker.holding, held_none, Nat.add_zero] at hone
    by_cases hevent : .metric m ∈ s.eventDs
    · exact .inl hevent
    · by_cases hcollect : m ∈ s.collectQueue
      · exact .inr (.inl hcollect)
      · rw [List.count_eq_zero_of_not_mem hevent, List.count_eq_zero_of_not_mem hcollect] at hone
        obtain ⟨w, hw, hholds⟩ :=
          List.countP_pos_iff.mp (show 0 < s.workers.countP fun w ↦ w.holding = some m by omega)
        have hholds' : w.holding = some m := by simpa using hholds
        rcases hworkers w hw with ⟨rfl, -⟩ | ⟨m', rfl⟩
        · cases hholds'
        · obtain rfl := Option.some.inj hholds'
          exact .inr (.inr hw)

end

/-- With the clock stopped and no sampling function returning, the threads come to rest, whatever
the order of their steps, as long as none raises and `terminate()` is not called; and what they
leave waits for time to pass or for a sampling function. -/
theorem comes_to_rest (cfg : Config M V) (clock : ℤ) (n : ℕ) (s : State M V)
    (h : Reaches cfg (fun _ a ↦ a.Serves) (State.initial clock n) s) :
    Acc (fun u t ↦ ∃ a, Action.Own a ∧ perform cfg a t = some u) s ∧
      ∀ t, Reaches cfg (fun _ a ↦ a.Own) s t → (∀ a, Action.Own a → perform cfg a t = none) →
        AtRest t := by
  have hwatched {t : State M V} (ht : Reaches cfg (fun _ a ↦ a.Serves) (State.initial clock n) t) :
      Watched t :=
    (ht.turns (P := fun _ ↦ True) (placed_initial clock n) fun _ _ ↦ trivial).1.watched
      (fresh_initial clock n)
  constructor
  · refine Graph.acc_of_lex (r := fun t u ↦ ∃ a, Action.Own a ∧ perform cfg a t = some u)
      (I := Reaches cfg (fun _ a ↦ a.Serves) (State.initial clock n)) (f := upstream)
      (g := downstream) ?_ ?_ h
    · rintro t u ht ⟨a, ha, hstep⟩
      exact .tail ht ha.serves hstep
    · rintro t u ht ⟨a, ha, hstep⟩
      exact own_step_lowers (hwatched ht) ht.sound.placed ha hstep
  · intro t hreach
    have ht : Reaches cfg (fun _ a ↦ a.Serves) (State.initial clock n) t := by
      induction hreach with
      | refl => exact h
      | tail _ ha hstep ih => exact .tail ih ha.serves hstep
    have hconserved := (ht.mono fun _ a ha ↦ ha.not_fails).conserved
    exact atRest_of_stuck ht.inService (hwatched ht) hconserved

/-- A metric that is due is brought to its sampling function. -/
theorem comes_to_rest_sampling : ∃ s t,
    run (plainConfig Unit 1 2) (List.replicate 3 (.start ()) ++ [.tick 1000])
      (State.initial 0 2) = some s ∧
    run (plainConfig Unit 1 2)
      (List.replicate 9 .check ++ List.replicate 3 (.collect 0) ++ [.send]) s = some t ∧
    t.workers = [.sampling (), .idle] ∧ AtRest t := by
  have hrun : ((run (plainConfig Unit 1 2) (List.replicate 3 (.start ()) ++ [.tick 1000])
      (State.initial 0 2)).bind fun s ↦ (run (plainConfig Unit 1 2)
        (List.replicate 9 .check ++ List.replicate 3 (.collect 0) ++ [.send]) s).map fun t ↦
          (t.workers, (Checker.step t t.checker).isNone, t.sender,
            [t.collectQueue.length, t.sendQueue.length])) =
      some ([.sampling (), .idle], true, .getting, [0, 0]) := by decide +kernel
  obtain ⟨s, hs, hrest⟩ := Option.bind_eq_some_iff.mp hrun
  obtain ⟨t, ht, hfields⟩ := Option.map_eq_some_iff.mp hrest
  simp only [Prod.mk.injEq, List.cons.injEq, List.length_eq_zero_iff, and_true] at hfields
  obtain ⟨hworkers, hcheck, hsender, hcollect, hqueue⟩ := hfields
  have hreach : Reaches (plainConfig Unit 1 2) (fun _ a ↦ a.Serves) (State.initial 0 2) s := by
    refine Reaches.refl.trans_run hs fun _ a ha ↦ ?_
    simp only [List.mem_append, List.mem_replicate, List.mem_singleton] at ha
    rcases ha with ⟨-, rfl⟩ | rfl
    · trivial
    · trivial
  have hown : Reaches (plainConfig Unit 1 2) (fun _ a ↦ a.Own) s t := by
    refine Reaches.refl.trans_run ht fun _ a ha ↦ ?_
    simp only [List.mem_append, List.mem_replicate, List.mem_singleton] at ha
    rcases ha with (⟨-, rfl⟩ | ⟨-, rfl⟩) | rfl
    · trivial
    · trivial
    · trivial
  refine ⟨s, t, hs, ht, hworkers, (comes_to_rest _ 0 2 s hreach).2 t hown fun a ha ↦ ?_⟩
  cases a with
  | check => exact Option.map_eq_none_iff.mpr (Option.isNone_iff_eq_none.mp hcheck)
  | collect i =>
    match i with
    | 0 => simp [perform, hworkers, Worker.step]
    | 1 => simp [perform, hworkers, Worker.step, hcollect]
    | i + 2 => simp [perform, hworkers]
  | send => simp [perform, hsender, Sender.step, hqueue]
  | formatRaises => simp [perform, hsender]
  | tick ms | start m | stop m | returns i data | raises i | collectRaises i | endChecker
  | endSender | exitEvent | exitSend => exact ha.elim

end Liota.MetricHandler
