import Liota.PackageManager.Invariant
import Liota.PackageManager.LoadCases

namespace Liota.PackageManager

open Python Python.Computation Python.Text Relation

variable {F : Type} {π : Platform F}

theorem OpenStep.record {name : Str} {checksum : Option Str} {extForced : Option Ext}
    {s t : State F} (h : OpenStep π name checksum extForced s t) :
    (∀ k, t.record k = s.record k) ∧ t.resourceRegistry = s.resourceRegistry := by
  cases h <;> exact ⟨fun _ ↦ rfl, rfl⟩

theorem startPackage_frame (name : Str) (checksum : Option Str) (autoload : Bool)
    (opened : Opened F) (u : State F) :
    (∀ y, y ≠ name → (startPackage name checksum autoload opened u).2.owned y = u.owned y) ∧
      (∀ e y, y ∈ (startPackage name checksum autoload opened u).2.dependents e →
        y ∈ u.dependents e) ∧
      ((startPackage name checksum autoload opened u).1 = .ok none → ¬ u.Loaded name →
        ¬ (startPackage name checksum autoload opened u).2.Loaded name) := by
  rcases startPackage_cases name checksum autoload opened u with
    hfail | ⟨klass, obj, registry, -, -, hexec, heq⟩
  · obtain ⟨tick, registry, hframe⟩ := hfail.frame
    refine ⟨fun y hy ↦ owned_of_registers hfail.registers hy, fun e y hy ↦ ?_, fun _ hn ↦ ?_⟩
    · rwa [hframe] at hy
    · rwa [hframe]
  · obtain ⟨list, hsnd⟩ := recordPackage_snd name checksum autoload (opened.record obj)
      (ran u registry)
    have hregs := ResourceRegistry.exec_registers name obj.run u.resourceRegistry
    rw [hexec] at hregs
    rw [heq, hsnd]
    refine ⟨fun y hy ↦ owned_of_registers hregs hy, fun e y hy ↦ ?_, fun ho ↦ ?_⟩
    · have hy' : y ∈ ((ran u registry).insert name (opened.record obj)).dependents e := hy
      by_cases he : e = name
      · subst he
        simp [State.dependents, State.record_insert, Opened.record] at hy'
      · rw [State.dependents, State.record_insert, if_neg he] at hy'
        exact hy'
    · rcases recordPackage_fst name checksum autoload (opened.record obj) (ran u registry)
        with h | ⟨h, -⟩ <;> rw [h] at ho <;> cases ho

/-- Below the packages of the stack, nothing is registered for them and none of them is entered
among the dependents of another package. -/
def KeepsStack (stack : List Str) (call : Call) (s : State F)
    (o : Outcome (Option (PackageRecord F))) (t : State F) : Prop :=
  (∀ y ∈ stack, t.owned y = s.owned y ∧ ∀ e, y ∈ t.dependents e → y ∈ s.dependents e) ∧
    (o = .ok none → ¬ s.Loaded call.name → ¬ t.Loaded call.name)

/-- The loop over the dependencies of a package enters only that package. -/
def KeepsStackLoop (stack : List Str) (name : Str) (deps : List Str) (s : State F)
    (_ : Outcome Bool) (t : State F) : Prop :=
  ∀ y ∈ stack, t.owned y = s.owned y ∧
    ∀ e, y ∈ t.dependents e → y ∈ s.dependents e ∨ (y = name ∧ e ∈ deps)

theorem stackFrame_loadRule :
    LoadRule π (KeepsStack (F := F)) (KeepsStackLoop (F := F)) where
  outOfFuel _ _ _ := ⟨fun _ _ ↦ ⟨rfl, fun _ ↦ id⟩, fun _ ↦ id⟩
  closed {stack call s t} _ ho := by
    have hstep := openPackage_step (π := π) call.name call.checksum call.ext s
    rw [ho] at hstep
    obtain ⟨hrec, hreg⟩ := hstep.record
    refine ⟨fun y _ ↦ ⟨by rw [State.owned, hreg]; rfl, fun e hy ↦ ?_⟩, fun _ hn hl ↦ hn ?_⟩
    · rwa [State.dependents, hrec] at hy
    · rwa [State.loaded_iff, hrec, ← State.loaded_iff] at hl
  refused {stack call s t e} _ ho := by
    have hstep := openPackage_step (π := π) call.name call.checksum call.ext s
    rw [ho] at hstep
    obtain ⟨hrec, hreg⟩ := hstep.record
    refine ⟨fun y _ ↦ ⟨by rw [State.owned, hreg]; rfl, fun e hy ↦ ?_⟩, by simp⟩
    rwa [State.dependents, hrec] at hy
  stopped {stack call s t u opened o} hstack ho hQ _ hsteps := by
    have hstep := openPackage_step (π := π) call.name call.checksum call.ext s
    rw [ho] at hstep
    obtain ⟨hrec, hreg⟩ := hstep.record
    refine ⟨fun y hy ↦ ?_, fun _ _ ↦ ?_⟩
    · obtain ⟨howned, hdeps⟩ := hQ y (List.mem_cons_of_mem _ hy)
      refine ⟨howned.trans (by rw [State.owned, hreg]; rfl), fun e he ↦ ?_⟩
      rcases hdeps e he with he | ⟨rfl, -⟩
      · rwa [State.dependents, hrec] at he
      · exact absurd hy hstack
    · exact hsteps.not_loaded List.mem_cons_self (openPackage_not_loaded_after ho)
  started {stack call s t u opened} hstack ho hQ hsteps _ := by
    have hstep := openPackage_step (π := π) call.name call.checksum call.ext s
    rw [ho] at hstep
    obtain ⟨hrec, hreg⟩ := hstep.record
    obtain ⟨hown, hdep, hnone⟩ :=
      startPackage_frame call.name call.checksum call.autoload opened u
    refine ⟨fun y hy ↦ ?_, fun h _ ↦ hnone h ?_⟩
    · obtain ⟨howned, hdeps⟩ := hQ y (List.mem_cons_of_mem _ hy)
      have hne : y ≠ call.name := fun h ↦ hstack (h ▸ hy)
      refine ⟨(hown y hne).trans (howned.trans (by rw [State.owned, hreg]; rfl)), fun e he ↦ ?_⟩
      rcases hdeps e (hdep e y he) with he | ⟨rfl, -⟩
      · rwa [State.dependents, hrec] at he
      · exact absurd rfl hne
    · exact hsteps.not_loaded List.mem_cons_self (openPackage_not_loaded_after ho)
  done _ _ _ := fun _ _ ↦ ⟨rfl, fun _ ↦ .inl⟩
  cycle _ _ _ := fun _ _ ↦ ⟨rfl, fun _ ↦ .inl⟩
  present {stack name d rest s t o} _ _ _ hQ y hy := by
    obtain ⟨howned, hdeps⟩ := hQ y hy
    refine ⟨howned, fun e he ↦ ?_⟩
    rcases hdeps e he with he | ⟨rfl, he⟩
    · rcases dependents_addDependent d name e s y he with he | ⟨rfl, rfl⟩
      · exact .inl he
      · exact .inr ⟨rfl, List.mem_cons_self⟩
    · exact .inr ⟨rfl, List.mem_cons_of_mem _ he⟩
  pulled {stack name d rest s t u o r} _ _ _ hP _ _ hQ y hy := by
    obtain ⟨howned, hdeps⟩ := hQ y hy
    obtain ⟨howned', hdeps'⟩ := hP.1 y hy
    refine ⟨howned.trans howned', fun e he ↦ ?_⟩
    rcases hdeps e he with he | ⟨rfl, he⟩
    · rcases dependents_addDependent d name e t y he with he | ⟨rfl, rfl⟩
      · exact .inl (hdeps' e he)
      · exact .inr ⟨rfl, List.mem_cons_self⟩
    · exact .inr ⟨rfl, List.mem_cons_of_mem _ he⟩
  missing _ _ hP _ _ y hy := ⟨(hP.1 y hy).1, fun e he ↦ .inl ((hP.1 y hy).2 e he)⟩

end Liota.PackageManager
