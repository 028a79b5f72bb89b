import Liota.MetricHandler.EventQueue

namespace Liota.MetricHandler

open Python.Heapq Dccs

variable {M V : Type}

/-- Not a statement of `terminate()`, nor an exception of `collect`. -/
def Action.Serves : Action M V → Prop
  | .raises _ | .collectRaises _ | .endChecker | .endSender | .exitEvent | .exitSend => False
  | _ => True

/-- `EventCheckerThread` has not ended and does not come to the end: it does not look at an empty
queue, nor at `SystemExit`. -/
def Checker.Running (eventDs : List (Item M)) : Checker M → Prop
  | .exited | .returned .systemExit | .testing .systemExit => False
  | .waiting none true | .waiting (some _) _ | .testing (.metric _) | .popping => eventDs ≠ []
  | _ => True

/-- The drain of `SendThread` has the samples that it still asks for. -/
def Sender.Running (s : State M V) : Sender M V → Prop
  | .exited | .taken .systemExit => False
  | .draining m left _ => left ≤ (s.metrics m).values.length
  | _ => True

structure InService (s : State M V) : Prop where
  checkerAlive : s.checkerAlive = true
  senderAlive : s.senderAlive = true
  events : .systemExit ∉ s.eventDs
  sends : .systemExit ∉ s.sendQueue
  checker : s.checker.Running s.eventDs
  sender : s.sender.Running s
  workers : .dead ∉ s.workers

theorem inService_initial (clock : ℤ) (n : ℕ) : InService (State.initial clock n : State M V) where
  checkerAlive := rfl
  senderAlive := rfl
  events := List.not_mem_nil
  sends := List.not_mem_nil
  checker := trivial
  sender := trivial
  workers h := by cases List.eq_of_mem_replicate h

theorem Checker.Running.mono {pc : Checker M} {eventDs eventDs' : List (Item M)}
    (h : pc.Running eventDs) (hne : eventDs ≠ [] → eventDs' ≠ []) : pc.Running eventDs' := by
  cases pc with
  | waiting first notified =>
    cases first with
    | none =>
      cases notified with
      | true => exact hne h
      | false => trivial
    | some first => exact hne h
  | testing item =>
    cases item with
    | metric m => exact hne h
    | systemExit => exact h
  | popping => exact hne h
  | returned item =>
    cases item with
    | metric m => trivial
    | systemExit => exact h
  | exited => exact h
  | idle | looking | putting m => trivial

theorem Checker.Running.notify {pc : Checker M} {eventDs : List (Item M)} (h : pc.Running eventDs)
    (hne : eventDs ≠ []) : pc.notify.Running eventDs := by
  cases pc with
  | waiting first notified =>
    cases first with
    | none => exact hne
    | some first => exact hne
  | _ => exact h

section

variable {cfg : Config M V} {s t : State M V} {a : Action M V} {e : Effect M V}

theorem Checker.Running.step {pc : Checker M} (hs : InService s)
    (h : Checker.step s s.checker = some (pc, e)) :
    (∃ item left, heappop (keyLt s.key) s.eventDs = some (item, left) ∧ pc = .returned item ∧
        e = .popEvent left) ∨
      (e = .skip ∨ ∃ m, e = .putCollect m) ∧ pc.Running s.eventDs := by
  have hrunning := hs.checker
  generalize s.checker = w at h hrunning
  cases w with
  | idle =>
    simp only [Checker.step, hs.checkerAlive, if_true, Option.some.injEq, Prod.mk.injEq] at h
    obtain ⟨rfl, rfl⟩ := h
    exact .inr ⟨.inl rfl, trivial⟩
  | looking =>
    rw [Checker.step] at h
    cases hhead : s.eventDs.head? with
    | none =>
      rw [hhead] at h
      obtain ⟨rfl, rfl⟩ := Prod.mk.inj (Option.some.inj h)
      exact .inr ⟨.inl rfl, trivial⟩
    | some first =>
      have hne : s.eventDs ≠ [] := List.ne_nil_of_mem (List.mem_of_mem_head? hhead)
      rw [hhead] at h
      cases first with
      | systemExit => exact absurd (List.mem_of_mem_head? hhead) hs.events
      | metric m =>
        obtain ⟨rfl, rfl⟩ := Prod.mk.inj (Option.some.inj h)
        refine .inr ⟨.inl rfl, ?_⟩
        cases (s.metrics m).flagAlive with
        | true => exact hne
        | false => exact hne
  | waiting first notified =>
    cases first with
    | none =>
      simp only [Checker.step] at h
      split at h
      · next hnotified =>
        subst hnotified
        obtain ⟨rfl, rfl⟩ := Prod.mk.inj (Option.some.inj h)
        refine .inr ⟨.inl rfl, ?_⟩
        cases hhead : s.eventDs.head? with
        | none => exact absurd (List.head?_eq_none_iff.mp hhead) hrunning
        | some first =>
          cases first with
          | systemExit => exact absurd (List.mem_of_mem_head? hhead) hs.events
          | metric m => exact hrunning
      · cases h
    | some first =>
      simp only [Checker.step] at h
      split at h
      · obtain ⟨rfl, rfl⟩ := Prod.mk.inj (Option.some.inj h)
        exact .inr ⟨.inl rfl, hrunning⟩
      · cases h
  | testing item =>
    cases item with
    | systemExit => exact hrunning.elim
    | metric m =>
      obtain ⟨rfl, rfl⟩ := Prod.mk.inj (Option.some.inj h)
      refine .inr ⟨.inl rfl, ?_⟩
      split
      · exact hrunning
      · trivial
  | popping =>
    rw [Checker.step] at h
    split at h
    · next hpop => exact absurd (heappop_eq_none hpop) hrunning
    · next item left hpop =>
      obtain ⟨rfl, rfl⟩ := Prod.mk.inj (Option.some.inj h)
      exact .inl ⟨item, left, hpop, rfl, rfl⟩
  | returned item =>
    cases item with
    | systemExit => exact hrunning.elim
    | metric m =>
      obtain ⟨rfl, rfl⟩ := Prod.mk.inj (Option.some.inj h)
      refine .inr ⟨.inl rfl, ?_⟩
      cases (s.metrics m).flagAlive with
      | true => trivial
      | false => trivial
  | putting m =>
    obtain ⟨rfl, rfl⟩ := Prod.mk.inj (Option.some.inj h)
    exact .inr ⟨.inr ⟨m, rfl⟩, trivial⟩
  | exited => exact hrunning.elim

end

/-- A statement that leaves `event_ds`, `send_queue` and the checker alone and takes no value out of
a queue. -/
def Effect.Inward : Effect M V → Prop
  | .launch _ | .putEvent _ | .popEvent _ | .putSend _ | .takeSend | .get _ => False
  | _ => True

section

variable {cfg : Config M V} {s t : State M V} {a : Action M V} {e : Effect M V}

theorem Worker.Moves.inward_cases {w pc : Worker M V} (h : w.Moves cfg s a pc e)
    (ha : a.Serves) : pc ≠ .dead ∧
      ((∃ m, e = .putEvent (.metric m)) ∨ (∃ m, e = .putSend (.metric m)) ∨ e.Inward) := by
  cases h with
  | putBack => exact ⟨by simp, .inl ⟨_, rfl⟩⟩
  | queue => exact ⟨by simp, .inr (.inl ⟨_, rfl⟩)⟩
  | raises | startRaises | resultRaises => exact ha.elim
  | _ => exact ⟨by simp, .inr (.inr trivial)⟩

theorem Sender.Running.mono {pc : Sender M V} (h : pc.Running s)
    (hvalues : ∀ m, (s.metrics m).values.length ≤ (t.metrics m).values.length) :
    pc.Running t := by
  cases pc with
  | draining m left samples => exact le_trans h (hvalues m)
  | taken item =>
    cases item with
    | metric m => trivial
    | systemExit => exact h
  | exited => exact h
  | _ => trivial

theorem InService.put (hs : InService s) (m : M) :
    InService (Effect.putAndNotify (.metric m) s) := by
  have hperm := heappush_perm (keyLt s.key) s.eventDs (.metric m)
  have hne : heappush (keyLt s.key) s.eventDs (.metric m) ≠ [] :=
    List.ne_nil_of_mem (hperm.mem_iff.mpr List.mem_cons_self)
  have hchecker := hs.checker.mono fun _ ↦ hne
  refine ⟨hs.checkerAlive, hs.senderAlive, fun hmem ↦ ?_, hs.sends, ?_, hs.sender, hs.workers⟩
  · rcases List.mem_cons.mp (hperm.mem_iff.mp hmem) with heq | hold
    · cases heq
    · exact hs.events hold
  · simp only [Effect.putAndNotify]
    split
    · exact hchecker.notify hne
    · exact hchecker

theorem InService.setWorker (hs : InService s) (i : ℕ) {pc : Worker M V} (hpc : pc ≠ .dead) :
    InService (s.setWorker i pc) := by
  refine ⟨hs.checkerAlive, hs.senderAlive, hs.events, hs.sends, hs.checker, hs.sender, ?_⟩
  intro hmem
  rcases List.mem_or_eq_of_mem_set hmem with hold | heq
  · exact hs.workers hold
  · exact hpc heq.symm

theorem InService.setSender (hs : InService s) {pc : Sender M V} (hpc : pc.Running s) :
    InService (s.setSender pc) :=
  ⟨hs.checkerAlive, hs.senderAlive, hs.events, hs.sends, hs.checker, hpc, hs.workers⟩

end

variable [DecidableEq M]

section

variable {cfg : Config M V} {s t : State M V} {a : Action M V} {e : Effect M V}

variable (cfg s) in
theorem Effect.Inward.frame (h : e.Inward) :
    (e.apply cfg s).eventDs = s.eventDs ∧ (e.apply cfg s).sendQueue = s.sendQueue ∧
      (e.apply cfg s).checker = s.checker ∧
      ∀ m, (s.metrics m).values.length ≤ ((e.apply cfg s).metrics m).values.length := by
  refine ⟨?_, ?_, ?_, fun m ↦ ?_⟩
  · cases e <;> first | exact h.elim | rfl
  · cases e <;> first | exact h.elim | rfl
  · cases e <;> first | exact h.elim | rfl
  · cases e <;> first
      | exact h.elim
      | (simp only [Effect.apply, Effect.onMetric]; split_ifs <;> simp)
      | exact le_rfl

theorem alive_apply (cfg : Config M V) (s : State M V) (e : Effect M V) :
    (e.apply cfg s).checkerAlive = s.checkerAlive ∧
      (e.apply cfg s).senderAlive = s.senderAlive := by
  cases e <;> exact ⟨rfl, rfl⟩

variable (cfg) in
theorem InService.inward (hs : InService s) (he : e.Inward) : InService (e.apply cfg s) := by
  obtain ⟨hevents, hsends, hchecker, hvalues⟩ := he.frame cfg s
  obtain ⟨hcheckerAlive, hsenderAlive⟩ := alive_apply cfg s e
  constructor
  · exact hcheckerAlive.trans hs.checkerAlive
  · exact hsenderAlive.trans hs.senderAlive
  · rw [hevents]
    exact hs.events
  · rw [hsends]
    exact hs.sends
  · rw [hchecker, hevents]
    exact hs.checker
  · rw [sender_apply]
    exact hs.sender.mono hvalues
  · rw [workers_apply]
    exact hs.workers

theorem InService.worker (hs : InService s) {i : ℕ} {w pc : Worker M V} (ha : a.Serves)
    (h : w.Moves cfg s a pc e) : InService ((e.apply cfg s).setWorker i pc) := by
  obtain ⟨hpc, ⟨m, rfl⟩ | ⟨m, rfl⟩ | hinward⟩ := h.inward_cases ha
  · exact (hs.put m).setWorker i hpc
  · refine InService.setWorker ?_ i hpc
    refine ⟨hs.checkerAlive, hs.senderAlive, hs.events, fun hmem ↦ ?_, hs.checker, hs.sender,
      hs.workers⟩
    rcases List.mem_append.mp hmem with hold | hnew
    · exact hs.sends hold
    · cases List.mem_singleton.mp hnew
  · exact (hs.inward cfg hinward).setWorker i hpc

theorem InService.check (hs : InService s) (h : perform cfg .check s = some t) : InService t := by
  obtain ⟨⟨pc, e⟩, hstep, rfl⟩ := Option.map_eq_some_iff.mp h
  rcases Checker.Running.step hs hstep with ⟨item, left, hpop, rfl, rfl⟩ | ⟨he, hpc⟩
  · have hperm := (heappop_perm hpop).2
    refine ⟨hs.checkerAlive, hs.senderAlive, fun hmem ↦ ?_, hs.sends, ?_, hs.sender, hs.workers⟩
    · exact hs.events (hperm.mem_iff.mpr (List.mem_cons_of_mem _ hmem))
    · cases item with
      | metric m => trivial
      | systemExit => exact hs.events (hperm.mem_iff.mpr List.mem_cons_self)
  · rcases he with rfl | ⟨m, rfl⟩
    · exact ⟨hs.checkerAlive, hs.senderAlive, hs.events, hs.sends, hpc, hs.sender, hs.workers⟩
    · exact ⟨hs.checkerAlive, hs.senderAlive, hs.events, hs.sends, hpc, hs.sender, hs.workers⟩

theorem InService.send (hs : InService s) (h : perform cfg .send s = some t) : InService t := by
  obtain ⟨⟨pc, e⟩, hstep, rfl⟩ := Option.map_eq_some_iff.mp h
  have hmoves := Sender.step_moves hstep
  have hrunning := hs.sender
  have hfinish : s.sender = .idle → pc ≠ .exited := by
    intro hidle
    simp only [hidle, Sender.step, hs.senderAlive, if_true, Option.some.injEq, Prod.mk.injEq]
      at hstep
    rw [← hstep.1]
    simp
  generalize s.sender = w at hmoves hrunning hfinish
  cases hmoves with
  | finish => exact absurd rfl (hfinish rfl)
  | @take item rest hqueue =>
    have hitem : item ∈ s.sendQueue := by simp [hqueue]
    have hpc : (Sender.taken item).Running s := by
      cases item with
      | metric m => trivial
      | systemExit => exact hs.sends hitem
    refine ⟨hs.checkerAlive, hs.senderAlive, hs.events, fun hmem ↦ ?_, hs.checker, hpc, hs.workers⟩
    exact hs.sends (List.mem_of_mem_tail hmem)
  | leave => exact hrunning.elim
  | @drain m hne => exact InService.setSender (hs.inward cfg (e := .skip) trivial) le_rfl
  | @get m left samples v rest hvalues =>
    have hleft : left + 1 ≤ (s.metrics m).values.length := hrunning
    have hpc : (Sender.draining m left (samples ++ [v])).Running ((Effect.get m).apply cfg s) := by
      simp only [Sender.Running, Effect.apply, Effect.onMetric, if_true, List.length_tail]
      omega
    exact ⟨hs.checkerAlive, hs.senderAlive, hs.events, hs.sends, hs.checker, hpc, hs.workers⟩
  | _ =>
    refine InService.setSender (hs.inward cfg ?_) ?_
    · trivial
    · trivial

theorem InService.perform (hs : InService s) (ha : a.Serves)
    (h : MetricHandler.perform cfg a s = some t) : InService t := by
  cases a with
  | tick ms =>
    obtain rfl := Option.some.inj h
    exact ⟨hs.checkerAlive, hs.senderAlive, hs.events, hs.sends, hs.checker, hs.sender, hs.workers⟩
  | start m =>
    obtain ⟨e, he, rfl⟩ := Option.map_eq_some_iff.mp h
    unfold startStep at he
    split at he
    · obtain rfl := Option.some.inj he
      exact hs.inward cfg trivial
    · obtain rfl := Option.some.inj he
      exact hs.inward cfg trivial
    · split at he
      · cases he
      · obtain rfl := Option.some.inj he
        have hput := hs.put m
        refine ⟨hput.checkerAlive, hput.senderAlive, hput.events, hput.sends, hput.checker, ?_,
          hput.workers⟩
        refine hput.sender.mono fun m' ↦ ?_
        simp only [Effect.apply, Effect.onMetric]
        split_ifs
        · exact le_rfl
        · exact le_rfl
    · cases he
  | stop m =>
    obtain rfl := Option.some.inj h
    exact hs.inward cfg trivial
  | check => exact hs.check h
  | collect i =>
    obtain ⟨⟨pc, e⟩, hbind, rfl⟩ := Option.map_eq_some_iff.mp h
    obtain ⟨w, -, hstep⟩ := Option.bind_eq_some_iff.mp hbind
    exact hs.worker ha (Worker.step_moves i hstep)
  | returns i data =>
    simp only [MetricHandler.perform] at h
    split at h
    · obtain rfl := Option.some.inj h
      refine (hs.inward cfg ?_).setWorker i (by simp)
      trivial
    · cases h
  | send => exact hs.send h
  | formatRaises =>
    simp only [MetricHandler.perform] at h
    split at h
    · obtain rfl := Option.some.inj h
      exact hs.setSender trivial
    · cases h
  | raises | collectRaises | endChecker | endSender | exitEvent | exitSend => exact ha.elim

theorem Reaches.inService {clock : ℤ} {n : ℕ}
    (h : Reaches cfg (fun _ a ↦ a.Serves) (State.initial clock n) s) : InService s := by
  induction h with
  | refl => exact inService_initial clock n
  | tail _ ha hstep ih => exact ih.perform ha hstep

end

end Liota.MetricHandler
