import Liota.PackageManager.Invariant

namespace Liota.PackageManager

open Python Python.Computation Python.Text Relation

variable {F : Type} {π : Platform F}

def unlinkIn (name : Str) (deps : List Str) (d : Dict (PackageRecord F)) :
    Dict (PackageRecord F) :=
  deps.foldl (fun d k ↦
    Dict.modify k (fun r ↦ { r with dependents := r.dependents.filter (· ≠ name) }) d) d

theorem lookup_unlinkIn (name : Str) (deps : List Str) (d : Dict (PackageRecord F)) (k : Str) :
    (unlinkIn name deps d).lookup k = (d.lookup k).map fun r ↦
      if k ∈ deps then { r with dependents := r.dependents.filter (· ≠ name) } else r := by
  induction deps generalizing d with
  | nil => simp [unlinkIn]
  | cons j rest ih =>
    rw [unlinkIn, List.foldl_cons]
    refine (ih _).trans ?_
    rw [Dict.lookup_modify]
    by_cases hk : k = j
    · subst hk
      simp only [if_true, List.mem_cons, true_or, Option.map_map]
      congr 1
      funext r
      simp only [Function.comp_apply]
      split
      · simp [List.filter_filter]
      · rfl
    · simp [hk]

/-- What the `clean_up` of a loaded package does with the registry. -/
def State.atCleanUp (s : State F) (name : Str) : RunProg :=
  ((s.record name).map fun r ↦ r.obj.atCleanUp).getD .ret

theorem State.atCleanUp_of_record {s : State F} {name : Str} {r : PackageRecord F}
    (h : s.record name = some r) : s.atCleanUp name = r.obj.atCleanUp := by
  rw [State.atCleanUp, h]
  rfl

/-- The state after a package was stopped without an exception. -/
def retire (s : State F) (name : Str) : State F :=
  { s with
    packagesLoaded := (unlinkIn name (s.dependencies name) s.packagesLoaded).erase name
    resourceRegistry :=
      (ResourceRegistry.exec name (s.atCleanUp name) (s.resourceRegistry.drop name)).2
    startupList := delist name s.startupList
    trace := s.trace ++ [.cleanedUp name] }

theorem record_retire (s : State F) (name k : Str) :
    (retire s name).record k = if k = name then none else (s.record k).map fun r ↦
      if k ∈ s.dependencies name then { r with dependents := r.dependents.filter (· ≠ name) }
      else r := by
  refine (Dict.lookup_erase_eq name k _).trans ?_
  split
  · rfl
  · exact lookup_unlinkIn name _ _ k

theorem loaded_retire (s : State F) (name k : Str) :
    (retire s name).Loaded k ↔ k ≠ name ∧ s.Loaded k := by
  simp only [State.loaded_iff, record_retire]
  split
  · next h => simp [h]
  · next h => simp [h]

theorem dependencies_retire (s : State F) {name k : Str} (hk : k ≠ name) :
    (retire s name).dependencies k = s.dependencies k := by
  unfold State.dependencies
  rw [record_retire, if_neg hk]
  rcases s.record k with _ | r
  · rfl
  · simp only [Option.map_some, Option.getD_some]
    split <;> rfl

theorem mem_dependents_retire (s : State F) (name k x : Str) :
    x ∈ (retire s name).dependents k ↔
      k ≠ name ∧ x ∈ s.dependents k ∧ ¬ (x = name ∧ k ∈ s.dependencies name) := by
  unfold State.dependents
  rw [record_retire]
  split
  · next h => simp [h]
  · next h =>
    rcases s.record k with _ | r
    · simp
    · simp only [Option.map_some, Option.getD_some]
      split
      · next hk => simp [h, hk]
      · next hk => simp [h, hk]

/-- What `_package_unload` needs of a package, once its dependents are gone, to run to its end. -/
structure Stoppable (s : State F) (name : Str) (r : PackageRecord F) : Prop where
  isLiotaPackage : r.obj.isLiotaPackage = true
  cleanUp : ∀ e, r.obj.cleanUp = some e → e.isLogged = true
  nodup : r.dependencies.Nodup
  linked : ∀ d ∈ r.dependencies, name ∈ s.dependents d

theorem dependents_delDependent_ne (s : State F) {d k name : Str} (h : k ≠ d) :
    (s.delDependent d name).dependents k = s.dependents k := by
  simp only [State.dependents, State.delDependent, State.record_modifyRecord, if_neg h]

theorem deleteFromDependencies_eq (name : Str) (deps : List Str) (s : State F)
    (hnodup : deps.Nodup) (hlinked : ∀ d ∈ deps, name ∈ s.dependents d) :
    deleteFromDependencies name deps s =
      (.ok (), { s with packagesLoaded := unlinkIn name deps s.packagesLoaded }) := by
  induction deps generalizing s with
  | nil => rfl
  | cons d rest ih =>
    obtain ⟨hd, hrest⟩ := List.nodup_cons.mp hnodup
    have hlinked' : ∀ k ∈ rest, name ∈ (s.delDependent d name).dependents k := by
      intro k hk
      have hkd : k ≠ d := fun h ↦ hd (by rw [← h]; exact hk)
      rw [dependents_delDependent_ne s hkd]
      exact hlinked k (by simp [hk])
    rw [deleteFromDependencies]
    dsimp only
    rw [if_pos (hlinked d (by simp)), ih _ hrest hlinked']
    rfl

theorem deleteRecord_eq {s : State F} {name : Str} (h : s.Loaded name) :
    deleteRecord name s = (.ok (), s.erase name) := if_pos h

theorem stopPackage_eq {s : State F} {name : Str} {r : PackageRecord F}
    (hs : s.resourceRegistry.Partitioned) (hpar : Parseable s.startupList)
    (hl : s.Loaded name) (hdeps : s.dependencies name = r.dependencies)
    (hclean : s.atCleanUp name = r.obj.atCleanUp)
    (h : Stoppable s name r) (track : List TrackItem) :
    stopPackage name r track s = (.ok (track ++ [⟨name, r.ext, r.sha1⟩]), retire s name) := by
  have hcleanUp (t : State F) : cleanUp name r.obj t = (.ok (), t.afterCleanUp name r.obj) := by
    unfold cleanUp
    cases hc : r.obj.cleanUp with
    | none => rfl
    | some e => simp only [h.cleanUp e hc, if_true]
  have hzoom : Py.zoom State.resourceRegistry (fun r s ↦ { s with resourceRegistry := r })
      (ResourceRegistry.deregisterPackage name) s =
      (.ok (), { s with resourceRegistry := s.resourceRegistry.drop name }) := by
    simp only [Py.zoom, ResourceRegistry.deregisterPackage_eq hs name]
  have hdelete : deleteFromDependencies name r.dependencies
      (State.afterCleanUp name r.obj
        { s with resourceRegistry := s.resourceRegistry.drop name }) = _ :=
    deleteFromDependencies_eq name r.dependencies _ h.nodup h.linked
  have hloaded : State.Loaded { State.afterCleanUp name r.obj
      { s with resourceRegistry := s.resourceRegistry.drop name } with
      packagesLoaded := unlinkIn name r.dependencies s.packagesLoaded } name := by
    obtain ⟨r₀, hr₀⟩ := State.loaded_iff.mp hl
    rw [State.loaded_iff, State.record, lookup_unlinkIn]
    exact ⟨_, by rw [show s.packagesLoaded.lookup name = some r₀ from hr₀]; rfl⟩
  rw [stopPackage, if_pos h.isLiotaPackage]
  refine (bind_ok hzoom).trans ?_
  refine (bind_ok (hcleanUp _)).trans ?_
  refine (bind_ok hdelete).trans ?_
  refine (bind_ok (deleteRecord_eq hloaded)).trans ?_
  refine (bind_ok (removePackageFromAutoload_eq name _ (by exact hpar))).trans ?_
  simp only [pure_apply, retire, hdeps, hclean]
  rfl

def retireAll (s : State F) (names : List Str) : State F := names.foldl retire s

theorem retireAll_append (s : State F) (l l' : List Str) :
    retireAll s (l ++ l') = retireAll (retireAll s l) l' := List.foldl_append

theorem record_retireAll (s : State F) (names : List Str) (hnodup : names.Nodup) (k : Str) :
    (retireAll s names).record k = if k ∈ names then none else (s.record k).map fun r ↦
      { r with dependents :=
        r.dependents.filter fun x ↦ ¬ (x ∈ names ∧ k ∈ s.dependencies x) } := by
  induction names generalizing s with
  | nil => simp [retireAll]
  | cons n rest ih =>
    obtain ⟨hn, hrest⟩ := List.nodup_cons.mp hnodup
    rw [retireAll, List.foldl_cons]
    refine (ih (retire s n) hrest).trans ?_
    by_cases hk : k ∈ rest
    · simp [hk]
    · simp only [hk, if_false, List.mem_cons, or_false]
      rw [record_retire]
      by_cases hkn : k = n
      · simp [hkn]
      · simp only [hkn, if_false, Option.map_map]
        congr 1
        funext r
        simp only [Function.comp_apply]
        split
        · next hd =>
          simp only [List.filter_filter]
          congr 1
          refine List.filter_congr fun x _ ↦ ?_
          by_cases hx : x = n
          · simp [hx, hn, hd]
          · simp [hx, dependencies_retire s hx]
        · next hd =>
          congr 1
          refine List.filter_congr fun x _ ↦ ?_
          by_cases hx : x = n
          · simp [hx, hn, hd]
          · simp [hx, dependencies_retire s hx]

section RetireAll

variable {s : State F} {names : List Str} (hnodup : names.Nodup)
include hnodup

theorem loaded_retireAll (k : Str) :
    (retireAll s names).Loaded k ↔ k ∉ names ∧ s.Loaded k := by
  simp only [State.loaded_iff, record_retireAll s names hnodup]
  split
  · next h => simp [h]
  · next h => simp [h]

theorem mem_dependents_retireAll (k x : Str) :
    x ∈ (retireAll s names).dependents k ↔
      k ∉ names ∧ x ∈ s.dependents k ∧ ¬ (x ∈ names ∧ k ∈ s.dependencies x) := by
  unfold State.dependents
  rw [record_retireAll s names hnodup]
  split
  · next h => simp [h]
  · next h =>
    rcases s.record k with _ | r
    · simp
    · simp [h, imp_iff_not_or]

theorem dependencies_retireAll {k : Str} (hk : k ∉ names) :
    (retireAll s names).dependencies k = s.dependencies k := by
  simp only [State.dependencies, record_retireAll s names hnodup, if_neg hk, Option.map_map]
  rfl

theorem edge_retireAll (d q : Str) :
    (retireAll s names).Edge d q ↔ s.Edge d q ∧ d ∉ names ∧ q ∉ names := by
  simp only [State.Edge, mem_dependents_retireAll hnodup, loaded_retireAll hnodup]
  tauto

end RetireAll

theorem well_retire {s : State F} (hs : Well s) (name : Str) : Well (retire s name) where
  ranked := by
    refine hs.ranked.of_edges fun d q h ↦ ?_
    exact ⟨((mem_dependents_retire s name d q).mp h.1).2.1, ((loaded_retire s name q).mp h.2).2⟩
  partitioned := ResourceRegistry.partitioned_exec name _ (hs.partitioned.drop name)

theorem well_retireAll {s : State F} (hs : Well s) (names : List Str) :
    Well (retireAll s names) := by
  induction names generalizing s with
  | nil => exact hs
  | cons n rest ih => exact ih (well_retire hs n)

theorem parseable_retireAll {s : State F} (hs : Parseable s.startupList) (names : List Str) :
    Parseable (retireAll s names).startupList := by
  induction names generalizing s with
  | nil => exact hs
  | cons n rest ih => exact ih (s := retire s n) (hs.delist n)

end Liota.PackageManager
