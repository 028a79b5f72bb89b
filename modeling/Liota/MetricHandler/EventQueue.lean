import Liota.MetricHandler.Conservation

namespace Liota.MetricHandler

open Python.Heapq

variable {M V : Type}

/-- What other threads do without the lock of `event_ds`: time passes, metrics are stopped, and what
is not stored in the queue may change in any way. -/
structure Rely (s t : State M V) : Prop where
  eventDs : t.eventDs = s.eventDs
  checker : t.checker = s.checker
  clock : s.clock ≤ t.clock
  keys : ∀ m, .metric m ∈ s.eventDs → (t.metrics m).nextRunTime = (s.metrics m).nextRunTime
  dead : ∀ m, .metric m ∈ s.eventDs → (s.metrics m).flagAlive = false →
    (t.metrics m).flagAlive = false

theorem Rely.key {s t : State M V} (h : Rely s t) {item : Item M} (hitem : item ∈ s.eventDs) :
    t.key item = s.key item := by
  cases item with
  | metric m => exact congrArg _ (h.keys m hitem)
  | systemExit => rfl

def Fresh (s : State M V) : Prop := s.eventDs = [] ∧ s.checker = .idle

/-- What the consumer may take from the queue: `SystemExit`, a dead metric, or one that is due. -/
def Poppable (s : State M V) : Item M → Prop
  | .systemExit => True
  | .metric m => (s.metrics m).flagAlive = false ∨ (s.metrics m).nextRunTime ≤ s.clock

/-- When the consumer has waited for a metric and finds it stopped before its run time, the first
item, which it is going to take, is not a live metric that is not due. -/
def Undisturbed (s : State M V) : Prop :=
  ∀ m, s.checker = .testing (.metric m) → (s.metrics m).flagAlive = false →
    ¬ (s.metrics m).nextRunTime ≤ s.clock →
      ∀ first, s.eventDs.head? = some first → Poppable s first

theorem undisturbed_of_alive {s : State M V}
    (h : ∀ m, s.checker = .testing (.metric m) → (s.metrics m).flagAlive = true) :
    Undisturbed s := by
  intro m hpc hdead
  rw [h m hpc] at hdead
  cases hdead

def Checker.Knows (s : State M V) : Checker M → Prop
  | .waiting none notified => notified = false → s.eventDs = []
  | .waiting (some (m, deadline)) notified =>
    .metric m ∈ s.eventDs ∧ deadline = (s.metrics m).nextRunTime ∧
      (notified = false → ∃ first, s.eventDs.head? = some first ∧
        (deadline : WithTop ℚ) ≤ s.key first)
  | .testing (.metric m) => .metric m ∈ s.eventDs
  | .testing .systemExit => s.eventDs.head? = some .systemExit
  | _ => True

structure Watched (s : State M V) : Prop where
  heap : IsHeap s.key s.eventDs
  knows : s.checker.Knows s

section

variable {s t : State M V}

theorem Rely.watched (h : Rely s t) (hs : Watched s) : Watched t where
  heap := by
    rw [h.eventDs]
    exact hs.heap.congr fun item hitem ↦ h.key hitem
  knows := by
    have hknows := hs.knows
    rw [h.checker]
    generalize s.checker = pc at hknows
    cases pc with
    | waiting first notified =>
      cases first with
      | none =>
        intro hno
        rw [h.eventDs]
        exact hknows hno
      | some first =>
        obtain ⟨m, deadline⟩ := first
        obtain ⟨hmem, hdeadline, hhead⟩ := hknows
        refine ⟨h.eventDs ▸ hmem, hdeadline.trans (h.keys m hmem).symm, fun hno ↦ ?_⟩
        obtain ⟨first, hfirst, hle⟩ := hhead hno
        refine ⟨first, h.eventDs ▸ hfirst, ?_⟩
        rw [h.key (List.mem_of_mem_head? hfirst)]
        exact hle
    | testing item =>
      cases item with
      | metric m =>
        rw [Checker.Knows, h.eventDs]
        exact hknows
      | systemExit =>
        rw [Checker.Knows, h.eventDs]
        exact hknows
    | _ => trivial

theorem Rely.poppable (h : Rely s t) {item : Item M} (hitem : item ∈ s.eventDs)
    (hs : Poppable s item) : Poppable t item := by
  cases item with
  | systemExit => trivial
  | metric m =>
    obtain hdead | hdue := hs
    · exact Or.inl (h.dead m hitem hdead)
    · apply Or.inr
      rw [h.keys m hitem]
      exact hdue.trans (by exact_mod_cast h.clock)

theorem Watched.put (hs : Watched s) (item : Item M) (hlock : s.locked = false) :
    Watched (Effect.putAndNotify item s) where
  heap := heappush_isHeap hs.heap item
  knows := by
    have hknows := hs.knows
    have hperm := heappush_perm (keyLt s.key) s.eventDs item
    have hmem {x : Item M} (hx : x ∈ s.eventDs) : x ∈ heappush (keyLt s.key) s.eventDs item :=
      hperm.mem_iff.mpr (List.mem_cons_of_mem item hx)
    simp only [Effect.putAndNotify]
    by_cases hhead : s.eventDs.head?.map s.key ≠
        (heappush (keyLt s.key) s.eventDs item).head?.map s.key
    · rw [if_pos hhead]
      cases hpc : s.checker with
      | waiting first notified =>
        rw [hpc] at hknows
        cases first with
        | none => exact fun hno ↦ absurd hno.symm Bool.false_ne_true
        | some first =>
          exact ⟨hmem hknows.1, hknows.2.1, fun hno ↦ absurd hno.symm Bool.false_ne_true⟩
      | testing first => simp [State.locked, hpc] at hlock
      | _ => trivial
    · rw [if_neg hhead]
      rw [not_not] at hhead
      cases hpc : s.checker with
      | waiting first notified =>
        rw [hpc] at hknows
        cases first with
        | none =>
          intro hno
          rw [hknows hno] at hhead hperm
          rw [List.head?_nil, Option.map_none] at hhead
          have hnil := List.head?_eq_none_iff.mp (Option.map_eq_none_iff.mp hhead.symm)
          rw [hnil] at hperm
          exact absurd hperm.length_eq (by simp)
        | some first =>
          refine ⟨hmem hknows.1, hknows.2.1, fun hno ↦ ?_⟩
          obtain ⟨x, hx, hle⟩ := hknows.2.2 hno
          rw [hx, Option.map_some] at hhead
          obtain ⟨y, hy, hkey⟩ := Option.map_eq_some_iff.mp hhead.symm
          refine ⟨y, hy, ?_⟩
          change _ ≤ s.key y
          rw [hkey]
          exact hle
      | testing first => simp [State.locked, hpc] at hlock
      | _ => trivial

theorem Watched.first_poppable (hs : Watched s) {m : M} (hmem : .metric m ∈ s.eventDs)
    (hdue : (s.metrics m).nextRunTime ≤ s.clock) {first : Item M}
    (hfirst : s.eventDs.head? = some first) : Poppable s first := by
  cases first with
  | systemExit => trivial
  | metric m' =>
    apply Or.inr
    have hle := hs.heap.le_of_mem hfirst hmem
    have hle' : (s.metrics m').nextRunTime ≤ (s.metrics m).nextRunTime := WithTop.coe_le_coe.mp hle
    exact hle'.trans hdue

theorem fresh_initial (clock : ℤ) (n : ℕ) : Fresh (State.initial clock n : State M V) :=
  ⟨rfl, rfl⟩

theorem Fresh.watched (h : Fresh s) : Watched s where
  heap := by
    rw [h.1]
    exact isHeap_nil
  knows := by
    rw [h.2]
    trivial

end

variable [DecidableEq M]

/-- Runs around the queue: `put_and_notify` for any items, the steps of the consumer, of which each
is taken in a state with property `P`, and the steps of others. -/
inductive Turns (cfg : Config M V) (P : State M V → Prop) (s : State M V) : State M V → Prop
  | refl : Turns cfg P s s
  | other {t u : State M V} (h : Turns cfg P s t) (hrely : Rely t u) : Turns cfg P s u
  | put {t : State M V} (h : Turns cfg P s t) (item : Item M) (hlock : t.locked = false) :
      Turns cfg P s (Effect.putAndNotify item t)
  | check {t u : State M V} (h : Turns cfg P s t) (hp : P t)
      (hcheck : perform cfg .check t = some u) : Turns cfg P s u

section

variable {cfg : Config M V} {P : State M V → Prop} {s t : State M V}

theorem Turns.invariant {I : State M V → Prop} (h : Turns cfg P s t) (hs : I s)
    (hother : ∀ {t u}, I t → Rely t u → I u)
    (hput : ∀ {t} item, t.locked = false → I t → I (Effect.putAndNotify item t))
    (hcheck : ∀ {t u}, P t → I t → perform cfg .check t = some u → I u) : I t := by
  induction h with
  | refl => exact hs
  | other _ hrely ih => exact hother ih hrely
  | put _ item hlock ih => exact hput item hlock ih
  | check _ hp hperform ih => exact hcheck hp ih hperform

/-- What a step of the consumer from `s` leaves: it knows the queue, and it comes to pop an item
only if the first one may be taken. -/
structure Checks (s t : State M V) : Prop where
  watched : Watched t
  pops : Undisturbed s → t.checker = .popping →
    ∀ first, t.eventDs.head? = some first → Poppable t first

theorem Watched.moves (hs : Watched s) {pc : Checker M} (hknows : pc.Knows s)
    (hpc : pc ≠ .popping) : Checks s ((Effect.skip.apply cfg s).setChecker pc) :=
  ⟨⟨hs.heap, hknows⟩, fun _ hpop ↦ absurd hpop hpc⟩

theorem Watched.pops (hs : Watched s)
    (hfirst : Undisturbed s → ∀ first, s.eventDs.head? = some first → Poppable s first) :
    Checks s ((Effect.skip.apply cfg s).setChecker .popping) :=
  ⟨⟨hs.heap, trivial⟩, fun hundisturbed _ ↦ hfirst hundisturbed⟩

variable {pc : Checker M} {e : Effect M V}

theorem Watched.looking (hs : Watched s) (h : Checker.step s .looking = some (pc, e)) :
    Checks s ((e.apply cfg s).setChecker pc) := by
  rw [Checker.step] at h
  cases hhead : s.eventDs.head? with
  | none =>
    rw [hhead] at h
    obtain ⟨rfl, rfl⟩ := Prod.mk.inj (Option.some.inj h)
    apply hs.moves _ (by simp)
    exact fun _ ↦ List.head?_eq_none_iff.mp hhead
  | some first =>
    rw [hhead] at h
    cases first with
    | systemExit =>
      obtain ⟨rfl, rfl⟩ := Prod.mk.inj (Option.some.inj h)
      apply hs.pops
      intro _ first hfirst
      rw [← Option.some.inj (hhead.symm.trans hfirst)]
      trivial
    | metric m =>
      obtain ⟨rfl, rfl⟩ := Prod.mk.inj (Option.some.inj h)
      cases halive : (s.metrics m).flagAlive with
      | true =>
        apply hs.moves _ (by simp)
        exact ⟨List.mem_of_mem_head? hhead, rfl, fun _ ↦ ⟨_, hhead, le_refl _⟩⟩
      | false =>
        apply hs.pops
        intro _ first hfirst
        rw [← Option.some.inj (hhead.symm.trans hfirst)]
        exact Or.inl halive

theorem Watched.waiting (hs : Watched s) {first : Option (M × ℚ)} {notified : Bool}
    (hpc : s.checker = .waiting first notified)
    (h : Checker.step s (.waiting first notified) = some (pc, e)) :
    Checks s ((e.apply cfg s).setChecker pc) := by
  have hknows := hs.knows
  rw [hpc] at hknows
  cases first with
  | none =>
    simp only [Checker.step] at h
    split at h
    · obtain ⟨rfl, rfl⟩ := Prod.mk.inj (Option.some.inj h)
      cases hhead : s.eventDs.head? with
      | none => exact hs.moves trivial (by simp)
      | some first =>
        apply hs.moves _ (by simp)
        cases first with
        | metric m => exact List.mem_of_mem_head? hhead
        | systemExit => exact hhead
    · cases h
  | some first =>
    obtain ⟨m, deadline⟩ := first
    simp only [Checker.step] at h
    split at h
    · obtain ⟨rfl, rfl⟩ := Prod.mk.inj (Option.some.inj h)
      exact hs.moves hknows.1 (by simp)
    · cases h

theorem Watched.testing (hs : Watched s) {item : Item M} (hpc : s.checker = .testing item)
    (h : Checker.step s (.testing item) = some (pc, e)) :
    Checks s ((e.apply cfg s).setChecker pc) := by
  have hknows := hs.knows
  rw [hpc] at hknows
  cases item with
  | systemExit =>
    obtain ⟨rfl, rfl⟩ := Prod.mk.inj (Option.some.inj h)
    apply hs.pops
    intro _ first hfirst
    rw [← Option.some.inj (hknows.symm.trans hfirst)]
    trivial
  | metric m =>
    obtain ⟨rfl, rfl⟩ := Prod.mk.inj (Option.some.inj h)
    by_cases hdue : (s.metrics m).nextRunTime ≤ s.clock
    · rw [if_pos (.inl hdue)]
      exact hs.pops fun _ first hfirst ↦ hs.first_poppable hknows hdue hfirst
    · cases halive : (s.metrics m).flagAlive with
      | true =>
        rw [if_neg (by simp [hdue])]
        exact hs.moves trivial (by simp)
      | false =>
        rw [if_pos (.inr (by simp))]
        exact hs.pops fun hundisturbed ↦ hundisturbed m hpc halive hdue

theorem Watched.check (hs : Watched s) (h : perform cfg .check s = some t) : Checks s t := by
  obtain ⟨⟨pc, e⟩, hstep, heq⟩ := Option.map_eq_some_iff.mp h
  rw [← heq]
  cases hpc : s.checker with
  | idle =>
    rw [hpc, Checker.step] at hstep
    obtain ⟨rfl, rfl⟩ := Prod.mk.inj (Option.some.inj hstep)
    cases s.checkerAlive with
    | true => exact hs.moves trivial (by simp)
    | false => exact hs.moves trivial (by simp)
  | looking =>
    rw [hpc] at hstep
    exact hs.looking hstep
  | waiting first notified =>
    rw [hpc] at hstep
    exact hs.waiting hpc hstep
  | testing item =>
    rw [hpc] at hstep
    exact hs.testing hpc hstep
  | popping =>
    rw [hpc, Checker.step] at hstep
    split at hstep
    · obtain ⟨rfl, rfl⟩ := Prod.mk.inj (Option.some.inj hstep)
      exact hs.moves trivial (by simp)
    · next item left hpop =>
      obtain ⟨rfl, rfl⟩ := Prod.mk.inj (Option.some.inj hstep)
      exact ⟨⟨heappop_isHeap hs.heap hpop, trivial⟩, fun _ hpop ↦ by cases hpop⟩
  | returned item =>
    rw [hpc] at hstep
    cases item with
    | systemExit =>
      obtain ⟨rfl, rfl⟩ := Prod.mk.inj (Option.some.inj hstep)
      exact hs.moves trivial (by simp)
    | metric m =>
      obtain ⟨rfl, rfl⟩ := Prod.mk.inj (Option.some.inj hstep)
      cases (s.metrics m).flagAlive with
      | true => exact hs.moves trivial (by simp)
      | false => exact hs.moves trivial (by simp)
  | putting m =>
    rw [hpc] at hstep
    obtain ⟨rfl, rfl⟩ := Prod.mk.inj (Option.some.inj hstep)
    exact ⟨⟨hs.heap, trivial⟩, fun _ hpop ↦ by cases hpop⟩
  | exited =>
    rw [hpc] at hstep
    cases hstep

theorem Turns.watched (h : Turns cfg P s t) (hs : Fresh s) : Watched t :=
  h.invariant hs.watched (fun ht hrely ↦ hrely.watched ht)
    (fun item hlock ht ↦ ht.put item hlock) fun _ ht hcheck ↦ (ht.check hcheck).watched

theorem popped_of_returned {item : Item M} (h : perform cfg .check s = some t)
    (hreturned : t.checker = .returned item) :
    s.checker = .popping ∧ s.eventDs.head? = some item ∧ t.metrics = s.metrics ∧
      t.clock = s.clock := by
  obtain ⟨⟨pc, e⟩, hstep, heq⟩ := Option.map_eq_some_iff.mp h
  have hmoves := Checker.step_moves hstep
  rw [← heq] at hreturned ⊢
  have hpc : pc = .returned item := hreturned
  rw [hpc] at hmoves
  generalize s.checker = w at hmoves
  cases hmoves with
  | pop hpop => exact ⟨rfl, heappop_head hpop, rfl, rfl⟩

theorem Turns.first_poppable (h : Turns cfg Undisturbed s t) (hs : Fresh s)
    (hpopping : t.checker = .popping) {first : Item M} (hfirst : t.eventDs.head? = some first) :
    Poppable t first := by
  have hboth : Watched t ∧ (t.checker = .popping → ∀ first, t.eventDs.head? = some first →
      Poppable t first) := by
    apply h.invariant (I := fun t ↦ Watched t ∧ (t.checker = .popping → ∀ first,
      t.eventDs.head? = some first → Poppable t first))
    · refine ⟨hs.watched, fun hpc ↦ ?_⟩
      rw [hs.2] at hpc
      cases hpc
    · intro t u ht hrely
      refine ⟨hrely.watched ht.1, fun hpc first hfirst ↦ ?_⟩
      rw [hrely.checker] at hpc
      rw [hrely.eventDs] at hfirst
      exact hrely.poppable (List.mem_of_mem_head? hfirst) (ht.2 hpc first hfirst)
    · intro t item hlock ht
      refine ⟨ht.1.put item hlock, fun hpc ↦ ?_⟩
      exfalso
      simp only [Effect.putAndNotify] at hpc
      have hpopping : t.checker = .popping := by
        split at hpc
        · cases hchecker : t.checker with
          | popping => rfl
          | _ => simp [hchecker, Checker.notify] at hpc
        · exact hpc
      simp [State.locked, hpopping] at hlock
    · intro t u hundisturbed ht hcheck
      obtain ⟨hwatched, hpop⟩ := ht.1.check hcheck
      exact ⟨hwatched, hpop hundisturbed⟩
  exact hboth.2 hpopping first hfirst

/-- The consumer does not miss what is put in front of the metric that it waits for. -/
theorem no_missed_wakeup {first : Option (M × ℚ)} (hs : Fresh s)
    (h : Turns cfg (fun _ ↦ True) s t) (hwaiting : t.checker = .waiting first false) :
    (first = none ∧ t.eventDs = []) ∨
      ∃ m deadline item, first = some (m, deadline) ∧ t.eventDs.head? = some item ∧
        (deadline : WithTop ℚ) ≤ t.key item := by
  have hknows := (h.watched hs).knows
  rw [hwaiting] at hknows
  cases first with
  | none => exact Or.inl ⟨rfl, hknows rfl⟩
  | some first =>
    obtain ⟨item, hitem, hle⟩ := hknows.2.2 rfl
    exact Or.inr ⟨first.1, first.2, item, rfl, hitem, hle⟩

/-- A live metric that is returned is due, in the runs in which a metric is not stopped while the
consumer waits for it with a live one in front of it that is not due. -/
theorem returned_when_ready {u : State M V} {m : M} (hs : Fresh s) (h : Turns cfg Undisturbed s t)
    (hcheck : perform cfg .check t = some u) (hreturned : u.checker = .returned (.metric m))
    (halive : (u.metrics m).flagAlive = true) : (u.metrics m).nextRunTime ≤ u.clock := by
  obtain ⟨hpopping, hfirst, hmetrics, hclock⟩ := popped_of_returned hcheck hreturned
  rw [hmetrics] at halive ⊢
  rw [hclock]
  obtain hdead | hdue := h.first_poppable hs hpopping hfirst
  · rw [hdead] at halive
    cases halive
  · exact hdue

theorem returned_early_of_disturbed (hs : ¬ Undisturbed s) : ∃ t u m,
    perform cfg .check s = some t ∧ perform cfg .check t = some u ∧
    u.checker = .returned (.metric m) ∧ (u.metrics m).flagAlive = true ∧
      ¬ (u.metrics m).nextRunTime ≤ u.clock := by
  simp only [Undisturbed, not_forall] at hs
  obtain ⟨m, hpc, hdead, hdue, first, hfirst, hlive⟩ := hs
  cases first with
  | systemExit => exact absurd trivial hlive
  | metric m' =>
    simp only [Poppable, not_or, Bool.not_eq_false] at hlive
    have htest : perform cfg .check s = some ((Effect.skip.apply cfg s).setChecker .popping) := by
      simp [perform, hpc, Checker.step, hdead]
    obtain ⟨⟨item, left⟩, hpop⟩ : ∃ popped, heappop (keyLt s.key) s.eventDs = some popped := by
      rw [← Option.isSome_iff_exists]
      obtain ⟨rest, hrest⟩ := List.head?_eq_some_iff.mp hfirst
      unfold heappop
      rw [hrest, List.getLast?_cons]
      split
      · next hnone => cases hnone
      · split
        · rfl
        · rfl
    have hitem : item = .metric m' := Option.some.inj ((heappop_head hpop).symm.trans hfirst)
    rw [hitem] at hpop
    let t := (Effect.skip.apply cfg s).setChecker .popping
    have hstep : perform cfg .check t =
        some (((Effect.popEvent left).apply cfg t).setChecker (.returned (.metric m'))) := by
      have hpop' : heappop (keyLt t.key) t.eventDs = some (.metric m', left) := hpop
      have hpc' : t.checker = .popping := rfl
      simp only [perform, hpc', Checker.step, hpop', Option.map_some]
    exact ⟨t, _, m', htest, hstep, rfl, hlive.1, hlive.2⟩

section Pipeline

variable {u : State M V} {a : Action M V}

theorem Moves.rely (hm : Moves cfg s a t) (hs : Placed s) (heventDs : t.eventDs = s.eventDs)
    (hchecker : t.checker = s.checker) (hclock : s.clock ≤ t.clock) : Rely s t where
  eventDs := heventDs
  checker := hchecker
  clock := hclock
  keys m hmem := hm.nextRunTime_eq hs hmem
  dead m hmem hdead := by
    by_contra halive
    rw [Bool.not_eq_false] at halive
    obtain hold | ⟨hcreated, -⟩ := hm.alive halive
    · rw [hdead] at hold
      cases hold
    · rw [hs.started_of_stored hmem] at hcreated
      cases hcreated

theorem Turns.perform (h : Turns cfg P s t) (ht : Placed t)
    (hperform : MetricHandler.perform cfg a t = some u) (hp : a = .check → P t) :
    Turns cfg P s u := by
  have hm := perform_moves hperform
  have hrely : u.eventDs = t.eventDs → u.checker = t.checker → t.clock ≤ u.clock → Rely t u :=
    hm.rely ht
  cases hm with
  | tick ms => exact .other h (hrely rfl rfl (by simp))
  | endChecker => exact .other h (hrely rfl rfl (le_refl _))
  | endSender => exact .other h (hrely rfl rfl (le_refl _))
  | checker hchecker => exact .check h (hp rfl) hperform
  | sender hsender =>
    obtain ⟨heventDs, -, hchecker⟩ := hsender.quiet.frame cfg t
    exact .other h (hrely heventDs hchecker (clock_apply cfg t).ge)
  | @client _ e hclient =>
    cases hclient with
    | @launch m' hphase hlock =>
      refine .other (.put h _ hlock) ⟨rfl, rfl, le_refl _, fun m _ ↦ ?_, fun m _ hdead ↦ ?_⟩
      · exact (Effect.Timeless.frame cfg (e := .launch m') trivial t m).1
      · simp only [Effect.apply, Effect.onMetric]
        split_ifs
        · exact hdead
        · exact hdead
    | exitEvent hlock =>
      exact .other (.put h _ hlock) ⟨rfl, rfl, le_refl _, fun _ _ ↦ rfl, fun _ _ hdead ↦ hdead⟩
    | flag hphase => exact .other h (hrely rfl rfl (le_refl _))
    | schedule hphase => exact .other h (hrely rfl rfl (le_refl _))
    | stop m => exact .other h (hrely rfl rfl (le_refl _))
    | exitSend => exact .other h (hrely rfl rfl (le_refl _))
  | @worker _ i w pc e ha hw hworker =>
    cases hworker with
    | putBack hlock =>
      exact .other (.put h _ hlock) ⟨rfl, rfl, le_refl _, fun _ _ ↦ rfl, fun _ _ hdead ↦ hdead⟩
    | _ => exact .other h (hrely rfl rfl (le_refl _))

theorem Reaches.turns {Q : State M V → Action M V → Prop} (h : Reaches cfg Q s t)
    (hs : Placed s) (hp : ∀ t, Q t .check → P t) : Turns cfg P s t ∧ Placed t := by
  induction h with
  | refl => exact ⟨.refl, hs⟩
  | @tail t u a _ hq hstep ih =>
    have hperform := ih.1.perform ih.2 hstep fun ha ↦ hp t (ha ▸ hq)
    exact ⟨hperform, ih.2.moves (perform_moves hstep)⟩

end Pipeline

end

section Example

/-- The metric `true` every two seconds, `false` every second. -/
def twoConfig : Config Bool ℤ :=
  { plainConfig Bool 1 1 with interval := fun m ↦ if m then 2 else 1 }

/-- The consumer waits for `true`; then `false`, which is due before it, is started. -/
def overtakingActions : List (Action Bool ℤ) :=
  List.replicate 3 (.start true) ++ List.replicate 2 .check ++ List.replicate 3 (.start false) ++
    List.replicate 3 .check

theorem no_missed_wakeup_overtaken : ∃ t, Turns twoConfig (fun _ ↦ True) (State.initial 0 1) t ∧
    t.checker = .waiting (some (false, 1000)) false ∧ ∃ item, t.eventDs.head? = some item ∧
      ((1000 : ℚ) : WithTop ℚ) ≤ t.key item := by
  have hrun : (run twoConfig overtakingActions (State.initial 0 1)).map (·.checker) =
      some (.waiting (some (false, 1000)) false) := by decide +kernel
  obtain ⟨t, ht, hwaiting⟩ := Option.map_eq_some_iff.mp hrun
  have hreaches : Reaches twoConfig (fun _ _ ↦ True) (State.initial 0 1) t :=
    Reaches.refl.trans_run ht fun _ _ _ ↦ trivial
  have hturns := (hreaches.turns (placed_initial 0 1) fun _ _ ↦ trivial).1
  obtain ⟨hnone, -⟩ | ⟨m, deadline, item, hfirst, hitem, hle⟩ :=
    no_missed_wakeup ⟨rfl, rfl⟩ hturns hwaiting
  · cases hnone
  · obtain ⟨rfl, rfl⟩ := Prod.mk.inj (Option.some.inj hfirst)
    exact ⟨t, hturns, hwaiting, item, hitem, hle⟩

def Checker.tested : Checker M → Option M
  | .testing (.metric m) => some m
  | _ => none

/-- The consumer tests live metrics only. -/
def testsAlive (s : State M V) (_ : Action M V) : Bool :=
  s.checker.tested.all fun m ↦ (s.metrics m).flagAlive

/-- The consumer waits for `true`, is woken by `false` and waits until its run time. -/
theorem returned_when_ready_overtaken : ∃ t u,
    Turns twoConfig Undisturbed (State.initial 0 1) t ∧ perform twoConfig .check t = some u ∧
    u.checker = .returned (.metric false) ∧ u.eventDs = [.metric true] ∧
    (u.metrics false).nextRunTime ≤ u.clock := by
  have hrun : ((runTested twoConfig testsAlive (overtakingActions ++ [.tick 1000] ++
      List.replicate 2 .check) (State.initial 0 1)).bind fun t ↦
      (perform twoConfig .check t).map fun u ↦
        (u.checker, u.eventDs, (u.metrics false).flagAlive)) =
      some (.returned (.metric false), [.metric true], true) := by decide +kernel
  obtain ⟨t, ht, hrest⟩ := Option.bind_eq_some_iff.mp hrun
  obtain ⟨u, hu, hfields⟩ := Option.map_eq_some_iff.mp hrest
  simp only [Prod.mk.injEq] at hfields
  obtain ⟨hreturned, hleft, halive⟩ := hfields
  have hreaches : Reaches twoConfig (fun s _ ↦ Undisturbed s) (State.initial 0 1) t := by
    refine Reaches.refl.trans_runTested (fun s a htest ↦ ?_) ht
    refine undisturbed_of_alive fun m hpc ↦ ?_
    simpa [testsAlive, hpc, Checker.tested] using htest
  have hturns := (hreaches.turns (placed_initial 0 1) fun _ h ↦ h).1
  exact ⟨t, u, hturns, hu, hreturned, hleft,
    returned_when_ready ⟨rfl, rfl⟩ hturns hu hreturned halive⟩

/-- The consumer waits for `true`; `false` is started, and `true` is stopped. -/
def disturbedActions : List (Action Bool ℤ) :=
  List.replicate 3 (Action.start true) ++ List.replicate 2 Action.check ++
    List.replicate 3 (Action.start false) ++ [Action.stop true] ++ List.replicate 2 Action.check

/-- The live metric `false` is returned a second before its run time. -/
theorem returned_early : ∃ t u, Turns twoConfig (fun _ ↦ True) (State.initial 0 1) t ∧
    perform twoConfig .check t = some u ∧ u.checker = .returned (.metric false) ∧
    (u.metrics false).flagAlive = true ∧ ¬ (u.metrics false).nextRunTime ≤ u.clock := by
  have hrun : ((run twoConfig disturbedActions (State.initial 0 1)).bind fun t ↦
      (perform twoConfig .check t).map fun u ↦ (u.checker, (u.metrics false).flagAlive,
        decide ((u.metrics false).nextRunTime ≤ u.clock))) =
      some (.returned (.metric false), true, false) := by decide +kernel
  obtain ⟨t, ht, hrest⟩ := Option.bind_eq_some_iff.mp hrun
  obtain ⟨u, hu, hfields⟩ := Option.map_eq_some_iff.mp hrest
  simp only [Prod.mk.injEq] at hfields
  obtain ⟨hreturned, halive, hearly⟩ := hfields
  have hreaches : Reaches twoConfig (fun _ _ ↦ True) (State.initial 0 1) t :=
    Reaches.refl.trans_run ht fun _ _ _ ↦ trivial
  have hturns := (hreaches.turns (placed_initial 0 1) fun _ _ ↦ trivial).1
  exact ⟨t, u, hturns, hu, hreturned, halive, of_decide_eq_false hearly⟩

end Example

end Liota.MetricHandler
