import Mathlib.Data.List.Forall2
import Liota.MetricHandler.Aggregation

namespace Liota.MetricHandler

open Dccs

variable {M V : Type}

def Effect.Aside (m : M) : Effect M V → Prop
  | .put m' _ | .get m' | .pass m' _ => m' ≠ m
  | _ => True

section

variable {cfg : Config M V} {s : State M V} {a : Action M V} {e : Effect M V} {m : M}

theorem ClientMoves.aside (h : ClientMoves s e) : e.Aside m := by
  cases h <;> trivial

theorem Checker.Moves.aside {w pc : Checker M} (h : w.Moves s pc e) : e.Aside m := by
  cases h <;> trivial

theorem Worker.Moves.aside_or_put {w pc : Worker M V} (h : w.Moves cfg s a pc e) :
    e.Aside m ∨ ∃ v, e = .put m v := by
  cases h with
  | @put i m' v rest added =>
    by_cases hm : m' = m
    · exact .inr ⟨v, by rw [hm]⟩
    · exact .inl hm
  | _ => exact .inl trivial

end

variable [DecidableEq M]

/-- The samples that `SendThread` has taken from the queue of values and not yet sent. -/
def Sender.inHand (m : M) : Sender M V → List (Sample V)
  | .draining m' _ samples => if m' = m then samples else []
  | _ => []

/-- `SendThread` is in the loop of `_format_data` for the metric. -/
def Sender.Drains (m : M) : Sender M V → Prop
  | .draining m' _ _ => m' = m
  | _ => False

/-- The messages sent so far carry, group by group and in order, the samples that were put first;
those in the hands of `SendThread` come next, then those in the queue of values. A drain never
asks for more samples than there are, and never for none. -/
structure Handed (cfg : Config M V) (m : M) (s : State M V) : Prop where
  carried : ∃ groups, List.Forall₂ (Carries cfg.str (cfg.name m)) (s.metrics m).sent groups ∧
    groups.flatten ++ s.sender.inHand m ++ (s.metrics m).values = (s.metrics m).stored
  enough : s.sender.left m ≤ (s.metrics m).values.length
  drains : ∀ left samples, s.sender = .draining m left samples → left = 0 → samples ≠ []

section

variable {cfg : Config M V} {s t : State M V} {a : Action M V} {e : Effect M V} {m : M}

theorem handed_initial (clock : ℤ) (n : ℕ) : Handed cfg m (State.initial clock n) := by
  refine ⟨⟨[], .nil, rfl⟩, Nat.zero_le _, ?_⟩
  intro left samples h
  cases h

variable (cfg s) in
theorem Effect.Aside.frame (h : e.Aside m) :
    ((e.apply cfg s).metrics m).values = (s.metrics m).values ∧
      ((e.apply cfg s).metrics m).stored = (s.metrics m).stored ∧
      ((e.apply cfg s).metrics m).sent = (s.metrics m).sent := by
  cases e <;> first
    | (simp only [Effect.apply, Effect.onMetric]; split_ifs <;> exact ⟨rfl, rfl, rfl⟩)
    | exact ⟨rfl, rfl, rfl⟩
    | (have hne := h; simp only [Effect.Aside] at hne
       simp [Effect.apply, Effect.onMetric, hne])

theorem Handed.of_aside (hs : Handed cfg m s) (he : e.Aside m)
    (hmetrics : t.metrics = (e.apply cfg s).metrics)
    (hhand : t.sender.inHand m = s.sender.inHand m)
    (hleft : t.sender.left m ≤ (s.metrics m).values.length)
    (hdrains : ∀ left samples, t.sender = .draining m left samples → left = 0 → samples ≠ []) :
    Handed cfg m t := by
  obtain ⟨hvalues, hstored, hsent⟩ := he.frame cfg s
  obtain ⟨groups, hcarries, hconcat⟩ := hs.carried
  refine ⟨⟨groups, ?_, ?_⟩, ?_, hdrains⟩
  · rw [hmetrics, hsent]
    exact hcarries
  · rw [hmetrics, hhand, hvalues, hstored]
    exact hconcat
  · rw [hmetrics, hvalues]
    exact hleft

theorem Handed.of_sender_eq (hs : Handed cfg m s) (he : e.Aside m)
    (hmetrics : t.metrics = (e.apply cfg s).metrics) (hsender : t.sender = s.sender) :
    Handed cfg m t := by
  refine hs.of_aside he hmetrics (by rw [hsender]) ?_ ?_
  · rw [hsender]
    exact hs.enough
  · rw [hsender]
    exact hs.drains

theorem Handed.put (hs : Handed cfg m s) {v : Sample V}
    (hmetrics : t.metrics = ((Effect.put m v).apply cfg s).metrics)
    (hsender : t.sender = s.sender) : Handed cfg m t := by
  have hmetric : t.metrics m = { s.metrics m with
      values := (s.metrics m).values ++ [v], stored := (s.metrics m).stored ++ [v] } := by
    rw [hmetrics]
    simp [Effect.apply, Effect.onMetric]
  obtain ⟨groups, hcarries, hconcat⟩ := hs.carried
  refine ⟨⟨groups, ?_, ?_⟩, ?_, ?_⟩
  · rw [hmetric]
    exact hcarries
  · rw [hmetric, hsender, ← hconcat, List.append_assoc _ _ [v]]
  · have henough := hs.enough
    rw [hmetric, hsender]
    simp only [List.length_append]
    omega
  · rw [hsender]
    exact hs.drains

theorem Sender.not_drains {pc : Sender M V} (h : ¬ pc.Drains m) :
    pc.inHand m = [] ∧ pc.left m = 0 := by
  cases pc with
  | draining m' left samples =>
    have hne : m' ≠ m := h
    simp [Sender.inHand, Sender.left, hne]
  | _ => exact ⟨rfl, rfl⟩

theorem Handed.of_not_drains (hs : Handed cfg m s) (he : e.Aside m) {pc : Sender M V}
    (hw : ¬ s.sender.Drains m) (hpc : ¬ pc.Drains m) :
    Handed cfg m ((e.apply cfg s).setSender pc) := by
  obtain ⟨hhand, hleft⟩ := Sender.not_drains hpc
  refine hs.of_aside he rfl ?_ ?_ ?_
  · change pc.inHand m = _
    rw [hhand, (Sender.not_drains hw).1]
  · change pc.left m ≤ _
    omega
  · rintro left samples rfl
    exact absurd rfl hpc

theorem Handed.get (hs : Handed cfg m s) {left : ℕ} {samples : List (Sample V)} {v : Sample V}
    {rest : List (Sample V)} (hw : s.sender = .draining m (left + 1) samples)
    (hvalues : (s.metrics m).values = v :: rest) :
    Handed cfg m (((Effect.get m).apply cfg s).setSender (.draining m left (samples ++ [v]))) := by
  have hmetric : (((Effect.get m).apply cfg s).setSender
      (.draining m left (samples ++ [v]))).metrics m = { s.metrics m with values := rest } := by
    simp [Effect.apply, Effect.onMetric, State.setSender, hvalues]
  obtain ⟨groups, hcarries, hconcat⟩ := hs.carried
  rw [hw, hvalues] at hconcat
  have henough := hs.enough
  rw [hw, hvalues] at henough
  refine ⟨⟨groups, ?_, ?_⟩, ?_, ?_⟩
  · rw [hmetric]
    exact hcarries
  · rw [hmetric, ← hconcat]
    simp [Sender.inHand, State.setSender]
  · rw [hmetric]
    simpa [Sender.left, State.setSender] using henough
  · rintro left' samples' heq hzero
    cases heq
    simp

theorem Handed.pass (hs : Handed cfg m s) {samples : List (Sample V)} {message : Message V}
    (hw : s.sender = .draining m 0 samples)
    (hformat : formatData cfg.str (cfg.name m) (cfg.dcc m) samples = some message) :
    Handed cfg m (((Effect.pass m message).apply cfg s).setSender .idle) := by
  have hmetric : (((Effect.pass m message).apply cfg s).setSender .idle).metrics m =
      { s.metrics m with sent := (s.metrics m).sent ++ [message] } := by
    simp [Effect.apply, Effect.onMetric, State.setSender]
  have hne : samples ≠ [] := hs.drains 0 samples hw rfl
  obtain ⟨message', hmessage, hcarry⟩ := formatData_carries cfg.str (cfg.name m) (cfg.dcc m) hne
  obtain rfl : message = message' := Option.some.inj (hformat.symm.trans hmessage)
  obtain ⟨groups, hcarries, hconcat⟩ := hs.carried
  rw [hw] at hconcat
  refine ⟨⟨groups ++ [samples], ?_, ?_⟩, Nat.zero_le _, ?_⟩
  · rw [hmetric]
    exact List.rel_append hcarries (.cons hcarry .nil)
  · rw [hmetric, ← hconcat]
    simp [Sender.inHand, State.setSender]
  · intro left samples' heq
    cases heq

theorem Handed.sender (hs : Handed cfg m s) {pc : Sender M V} (h : s.sender.Moves cfg s a pc e)
    (hformats : a = .formatRaises → s.sender.busy ≠ some m) :
    Handed cfg m ((e.apply cfg s).setSender pc) := by
  generalize hw : s.sender = w at h
  cases h with
  | @drain m' hne =>
    by_cases hm : m' = m
    · subst hm
      refine hs.of_aside (e := .skip) trivial rfl ?_ ?_ ?_
      · rw [hw]
        simp [State.setSender, Sender.inHand]
      · simp [State.setSender, Sender.left]
      · intro left samples heq hzero
        cases heq
        exact absurd (List.length_eq_zero_iff.mp hzero) hne
    · refine hs.of_not_drains ?_ (hw ▸ id) hm
      exact trivial
  | @get m' left samples v rest hvalues =>
    by_cases hm : m' = m
    · subst hm
      exact hs.get hw hvalues
    · refine hs.of_not_drains ?_ (hw ▸ hm) hm
      exact hm
  | @empty m' samples hformat =>
    by_cases hm : m' = m
    · subst hm
      obtain ⟨message, hmessage, -⟩ :=
        formatData_carries cfg.str (cfg.name m') (cfg.dcc m') (hs.drains 0 samples hw rfl)
      rw [hmessage] at hformat
      cases hformat
    · refine hs.of_not_drains ?_ (hw ▸ hm) id
      exact trivial
  | @pass m' samples message hformat =>
    by_cases hm : m' = m
    · subst hm
      exact hs.pass hw hformat
    · refine hs.of_not_drains ?_ (hw ▸ hm) id
      exact hm
  | @formatRaises m' left samples =>
    have hm : m' ≠ m := fun hm ↦ hformats rfl (by rw [hw, ← hm]; rfl)
    refine hs.of_not_drains ?_ (hw ▸ hm) id
    exact trivial
  | _ =>
    refine hs.of_not_drains ?_ (hw ▸ id) id
    exact trivial

theorem Handed.moves (hs : Handed cfg m s) (h : Moves cfg s a t)
    (hformats : a = .formatRaises → s.sender.busy ≠ some m) : Handed cfg m t := by
  cases h with
  | tick ms => exact ⟨hs.carried, hs.enough, hs.drains⟩
  | endChecker => exact ⟨hs.carried, hs.enough, hs.drains⟩
  | endSender => exact ⟨hs.carried, hs.enough, hs.drains⟩
  | client h => exact hs.of_sender_eq h.aside rfl (sender_apply cfg s)
  | checker h => exact hs.of_sender_eq h.aside rfl (sender_apply cfg s)
  | worker ha hw h =>
    rcases h.aside_or_put (m := m) with haside | ⟨v, rfl⟩
    · exact hs.of_sender_eq haside rfl (sender_apply cfg s)
    · exact hs.put rfl (sender_apply cfg s)
  | sender h => exact hs.sender h hformats

end

/-- All along a run in which the samples of the metric can be formatted, the messages passed to
`comms.send` carry one group of samples each, and these, the samples that `SendThread` has just
taken and the queue of values are the samples that were put, in that order. The `get` of
`_format_data` finds a sample. -/
theorem samples_handed_over (cfg : Config M V) (m : M) (clock : ℤ) (n : ℕ) (s : State M V)
    (h : Reaches cfg (fun s a ↦ a = .formatRaises → s.sender.busy ≠ some m)
      (State.initial clock n) s) :
    (∃ groups, List.Forall₂ (Carries cfg.str (cfg.name m)) (s.metrics m).sent groups ∧
      groups.flatten ++ s.sender.inHand m ++ (s.metrics m).values = (s.metrics m).stored) ∧
    ∀ left samples, s.sender = .draining m (left + 1) samples → (s.metrics m).values ≠ [] := by
  have hs : Handed cfg m s :=
    h.invariant (handed_initial clock n) fun hformats hs hm ↦ hs.moves hm hformats
  refine ⟨hs.carried, fun left samples hdrains hnil ↦ ?_⟩
  have henough := hs.enough
  rw [hdrains, hnil] at henough
  simp [Sender.left] at henough

/-- A collection thread puts two samples, and `SendThread` sends both. -/
def handOverActions : List (Action Unit ℤ) :=
  startActions () 1000 ++ List.replicate 3 (Action.collect 0) ++
    [Action.returns 0 (.list [(1500, 7), (2999, 8)])] ++ List.replicate 12 (Action.collect 0) ++
    List.replicate 9 Action.send

theorem samples_handed_over_sent :
    ∃ s, run (plainConfig Unit 1 1) handOverActions (State.initial 0 1) = some s ∧
      (s.metrics ()).sent = [.text "metric 7 1\nmetric 8 2\n".toList] ∧
      ∃ groups, List.Forall₂ (Carries (plainConfig Unit 1 1).str "metric".toList)
        (s.metrics ()).sent groups ∧
        groups.flatten ++ s.sender.inHand () ++ (s.metrics ()).values = (s.metrics ()).stored := by
  obtain ⟨s, hs⟩ : ∃ s, run (plainConfig Unit 1 1) handOverActions (State.initial 0 1) = some s :=
    Option.isSome_iff_exists.mp (by decide +kernel)
  have hsent : (run (plainConfig Unit 1 1) handOverActions (State.initial 0 1)).map
      (fun s ↦ (s.metrics ()).sent) = some [.text "metric 7 1\nmetric 8 2\n".toList] := by
    decide +kernel
  rw [hs] at hsent
  have hreach : Reaches (plainConfig Unit 1 1)
      (fun s a ↦ a = .formatRaises → s.sender.busy ≠ some ()) (State.initial 0 1) s := by
    refine Reaches.refl.trans_run hs fun _ a ha hformats ↦ ?_
    subst hformats
    simp [handOverActions, startActions] at ha
  exact ⟨s, hs, Option.some.inj hsent,
    (samples_handed_over (plainConfig Unit 1 1) () 0 1 s hreach).1⟩

end Liota.MetricHandler
