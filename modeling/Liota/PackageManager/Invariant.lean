import Liota.Graph.Reach
import Liota.PackageManager.UnloadSteps
import Liota.PackageManager.Thread

namespace Liota.PackageManager

open Python Python.Computation Python.Text Relation

variable {F : Type} {π : Platform F}

/-- `q` is a dependent of `d`, and both are loaded. -/
def State.Edge (s : State F) (d q : Str) : Prop := q ∈ s.dependents d ∧ s.Loaded q

/-- Packages can be numbered by age: a loaded dependent is younger than what it depends on. -/
def Ranked (s : State F) : Prop := ∃ rank : Str → ℕ, ∀ d q, s.Edge d q → rank d < rank q

/-- What holds of the manager whatever the package files contain. -/
structure Well (s : State F) : Prop where
  ranked : Ranked s
  partitioned : s.resourceRegistry.Partitioned

theorem well_initial (fs : FileSystem F) (startupList : Option Str) :
    Well (State.initial π fs startupList) where
  ranked := by
    refine ⟨fun _ ↦ 0, fun d q h ↦ ?_⟩
    simp [State.Edge, State.dependents, State.record, State.initial] at h
  partitioned := ResourceRegistry.partitioned_initial π.packagePath

theorem Ranked.of_edges {s s' : State F} (hs : Ranked s) (h : ∀ d q, s'.Edge d q → s.Edge d q) :
    Ranked s' := by
  obtain ⟨rank, hrank⟩ := hs
  exact ⟨rank, fun d q he ↦ hrank d q (h d q he)⟩

theorem dependents_addDependent (dependency name k : Str) (s : State F) (x : Str)
    (hx : x ∈ (s.addDependent dependency name).dependents k) :
    x ∈ s.dependents k ∨ (k = dependency ∧ x = name) := by
  rw [State.dependents, State.addDependent, State.record_modifyRecord] at hx
  split at hx
  · next hk =>
    rcases hr : s.record k with _ | r
    · simp [hr] at hx
    · simp only [hr, Option.map_some, Option.getD_some] at hx
      split at hx
      · exact .inl (by simpa [State.dependents, hr] using hx)
      · rcases List.mem_append.mp hx with hx | hx
        · exact .inl (by simpa [State.dependents, hr] using hx)
        · exact .inr ⟨hk, List.mem_singleton.mp hx⟩
  · exact .inl hx

theorem ranked_insert {s : State F} (hs : Ranked s) {name : Str} {r : PackageRecord F}
    (hn : ¬ s.Loaded name) (hr : r.dependents = []) : Ranked (s.insert name r) := by
  obtain ⟨rank, hrank⟩ := hs
  obtain ⟨N, hN⟩ := Graph.exists_rank_bound rank s.packagesLoaded.keys
  have hbound (k : Str) (hk : s.Loaded k) : rank k < N := hN k (AList.mem_keys.mp hk)
  refine ⟨Function.update rank name N, fun d q ⟨hq, hl⟩ ↦ ?_⟩
  have hd : d ≠ name := by
    rintro rfl
    simp [State.dependents, State.record_insert, hr] at hq
  have hq' : q ∈ s.dependents d := by
    simpa [State.dependents, State.record_insert, hd] using hq
  rw [Function.update_of_ne hd]
  by_cases hqn : q = name
  · rw [hqn, Function.update_self]
    exact hbound d (State.loaded_of_mem_dependents hq')
  · rw [Function.update_of_ne hqn]
    exact hrank d q ⟨hq', ((State.loaded_insert name q r s).mp hl).resolve_left hqn⟩

theorem partitioned_of_exec {name : Str} {prog : RunProg} {r r' : ResourceRegistry}
    {o : Outcome Unit} (h : ResourceRegistry.exec name prog r = (o, r')) (hr : r.Partitioned) :
    r'.Partitioned := by
  have hexec := ResourceRegistry.partitioned_exec name prog hr
  rwa [h] at hexec

theorem LoadStep.well {stack : List Str} {s s' : State F} (h : LoadStep π stack s s')
    (hs : Well s) : Well s' := by
  cases h with
  | tick | imported | dropped => exact ⟨hs.ranked.of_edges fun _ _ ↦ id, hs.partitioned⟩
  | @linked dependency name hd hn =>
    refine ⟨hs.ranked.of_edges fun d q ⟨hq, hl⟩ ↦ ?_, hs.partitioned⟩
    have hl' := (State.loaded_modifyRecord _ _ _ s).mp hl
    rcases dependents_addDependent dependency name d s q hq with hq | ⟨-, rfl⟩
    · exact ⟨hq, hl'⟩
    · exact absurd hl' hn
  | raised _ _ _ hexec =>
    exact ⟨hs.ranked.of_edges fun _ _ ↦ id, partitioned_of_exec hexec hs.partitioned⟩
  | loaded hn _ _ _ hexec hr _ =>
    exact ⟨(ranked_insert hs.ranked hn hr).of_edges fun _ _ ↦ id,
      partitioned_of_exec hexec hs.partitioned⟩
  | @listed name sha1 =>
    obtain ⟨list, hl⟩ := writePackageIntoAutoload_frame name sha1 s
    rw [hl]
    exact ⟨hs.ranked.of_edges fun _ _ ↦ id, hs.partitioned⟩

theorem LoadSteps.well {stack : List Str} {s s' : State F} (h : LoadSteps π stack s s')
    (hs : Well s) : Well s' := by
  induction h with
  | refl => exact hs
  | tail _ hstep ih => exact hstep.well ih

theorem Shrinks.well {s s' : State F} (h : Shrinks s s') (hs : Well s) : Well s' where
  ranked := hs.ranked.of_edges fun d _ he ↦ ⟨h.dependents d he.1, h.loaded he.2⟩
  partitioned := h.partitioned hs.partitioned

end Liota.PackageManager
