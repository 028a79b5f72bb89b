import Liota.PackageManager.CommandRules
import Liota.PackageManager.Retire

namespace Liota.PackageManager

open Python Python.Computation Python.Text Relation

variable {F : Type} {π : Platform F}

/-- A package that names no dependency twice is among the dependents of each of its
dependencies, which are then loaded. -/
def Linked (s : State F) : Prop :=
  ∀ q, (s.dependencies q).Nodup → ∀ d ∈ s.dependencies q, q ∈ s.dependents d

/-- The invariant of the manager for package files of any content. -/
structure Consistent (s : State F) : Prop extends Well s where
  linked : Linked s

theorem Linked.of_record_eq {s s' : State F} (hs : Linked s)
    (h : ∀ k, s'.record k = s.record k) : Linked s' := by
  intro q hnodup d hd
  simp only [State.dependencies, State.dependents, h] at hnodup hd ⊢
  exact hs q hnodup d hd

theorem Grows.dependencies {s s' : State F} (h : Grows s s') {q : Str} (hq : s.Loaded q) :
    s'.dependencies q = s.dependencies q := by
  obtain ⟨r, hr⟩ := State.loaded_iff.mp hq
  obtain ⟨d, hd, -⟩ := h q r hr
  rw [State.dependencies_of_record hr, State.dependencies_of_record hd]

theorem Linked.grows {s s' : State F} (hs : Linked s) (hg : Grows s s')
    (hnew : ∀ q, ¬ s.Loaded q → ∀ d ∈ s'.dependencies q, q ∈ s'.dependents d) : Linked s' := by
  intro q hnodup d hd
  by_cases hq : s.Loaded q
  · rw [hg.dependencies hq] at hnodup hd
    exact hg.dependents d (hs q hnodup d hd)
  · exact hnew q hq d hd

theorem LoadStep.keeps_linked {stack : List Str} {s s' : State F} (h : LoadStep π stack s s')
    (hs : Linked s) : Linked s' := by
  refine hs.grows h.grows fun q hq d hd ↦ ?_
  have hl := State.loaded_of_mem_dependencies hd
  cases h with
  | tick | imported | dropped | raised => exact absurd hl hq
  | linked => exact absurd ((State.loaded_modifyRecord _ _ _ s).mp hl) hq
  | @loaded name _ _ r registry _ hn _ _ _ _ _ hlinked =>
    obtain rfl := ((State.loaded_insert _ _ _ { s with resourceRegistry := registry }).mp
      hl).resolve_right hq
    have hd' : d ∈ r.dependencies := by
      simpa [State.dependencies, State.record_insert] using hd
    have hdn : d ≠ q := fun h ↦ hn (h ▸ State.loaded_of_mem_dependents (hlinked d hd'))
    rw [State.dependents, State.record_log, State.record_insert, if_neg hdn]
    exact hlinked d hd'
  | listed => exact absurd ((loaded_writePackageIntoAutoload _ _ _ s).mp hl) hq

theorem LoadSteps.consistent {stack : List Str} {s s' : State F} (h : LoadSteps π stack s s')
    (hs : Consistent s) : Consistent s' := by
  induction h with
  | refl => exact hs
  | tail _ hstep ih => exact ⟨hstep.well ih.toWell, hstep.keeps_linked ih.linked⟩

section Unload

/-- What `del_dependent` of one name, called any number of times, does. -/
structure Unlinks (name : Str) (s s' : State F) : Prop where
  loaded : ∀ k, s'.Loaded k ↔ s.Loaded k
  dependencies : ∀ k, s'.dependencies k = s.dependencies k
  dependents : ∀ k, s'.dependents k ⊆ s.dependents k
  kept : ∀ k, ∀ x ∈ s.dependents k, x ≠ name → x ∈ s'.dependents k
  startupList : s'.startupList = s.startupList

theorem Unlinks.refl (name : Str) (s : State F) : Unlinks name s s :=
  ⟨fun _ ↦ Iff.rfl, fun _ ↦ rfl, fun _ _ ↦ id, fun _ _ hx _ ↦ hx, rfl⟩

theorem Unlinks.trans {name : Str} {s t u : State F} (h : Unlinks name s t)
    (h' : Unlinks name t u) : Unlinks name s u where
  loaded k := (h'.loaded k).trans (h.loaded k)
  dependencies k := (h'.dependencies k).trans (h.dependencies k)
  dependents k := fun _ hx ↦ h.dependents k (h'.dependents k hx)
  kept k x hx hn := h'.kept k x (h.kept k x hx hn) hn
  startupList := h'.startupList.trans h.startupList

theorem delDependent_unlinks (dependency name : Str) (s : State F) :
    Unlinks name s (s.delDependent dependency name) := by
  have hrecord (k : Str) : (s.delDependent dependency name).record k =
      if k = dependency then (s.record k).map fun r ↦
        { r with dependents := r.dependents.filter (· ≠ name) } else s.record k :=
    State.record_modifyRecord dependency k _ s
  refine ⟨fun k ↦ State.loaded_modifyRecord _ _ _ s, fun k ↦ ?_, fun k ↦ ?_, fun k x hx hn ↦ ?_,
    rfl⟩
  · simp only [State.dependencies, hrecord]
    split
    · rw [Option.map_map]; rfl
    · rfl
  · exact (delDependent_shrinks dependency name s).dependents k
  · simp only [State.dependents, hrecord] at hx ⊢
    split
    · rcases hr : s.record k with _ | r
      · simp [hr] at hx
      · simpa [hr, hn] using hx
    · exact hx

theorem deleteFromDependencies_unlinks (name : Str) (deps : List Str) :
    Within (Unlinks (F := F) name) (deleteFromDependencies name deps) := by
  induction deps with
  | nil => exact within_pure (Unlinks.refl name) ()
  | cons d rest ih =>
    intro s
    unfold deleteFromDependencies
    split
    · exact (delDependent_unlinks d name s).trans (ih _)
    · exact Unlinks.refl name s

theorem Unlinks.linked {name : Str} {s s' : State F} (h : Unlinks name s s') (hs : Linked s)
    (hname : (s.dependencies name).Nodup → s.dependencies name = []) : Linked s' := by
  intro q hnodup d hd
  rw [h.dependencies] at hnodup hd
  by_cases hq : q = name
  · subst hq
    simp [hname hnodup] at hd
  · exact h.kept d q (hs q hnodup d hd) hq

theorem Unlinks.linked_erase {name : Str} {s s' : State F} (h : Unlinks name s s')
    (hs : Linked s) (hfree : ∀ q ∈ s.dependents name, ¬ s.Loaded q) :
    Linked (s'.erase name) := by
  intro q hnodup d hd
  have hl := (State.loaded_erase name q s').mp (State.loaded_of_mem_dependencies hd)
  have hdeps : (s'.erase name).dependencies q = s.dependencies q := by
    rw [← h.dependencies]
    simp only [State.dependencies, State.record_erase, if_neg hl.1]
  rw [hdeps] at hnodup hd
  have hmem := hs q hnodup d hd
  have hdn : d ≠ name := by
    rintro rfl
    exact hfree q hmem ((h.loaded q).mp hl.2)
  have hkept := h.kept d q hmem hl.1
  simpa only [State.dependents, State.record_erase, if_neg hdn] using hkept

theorem stopPackage_linked {name : Str} {r : PackageRecord F} {s : State F}
    (hs : Consistent s) (hfree : ∀ q ∈ s.dependents name, ¬ s.Loaded q)
    (hr : s.Loaded name → s.dependencies name = r.dependencies) (track : List TrackItem) :
    Linked (stopPackage name r track s).2 := by
  unfold stopPackage
  split
  swap
  · exact hs.linked
  have hzoom : Py.zoom State.resourceRegistry (fun r s ↦ { s with resourceRegistry := r })
      (ResourceRegistry.deregisterPackage name) s =
      (.ok (), { s with resourceRegistry := s.resourceRegistry.drop name }) := by
    simp only [Py.zoom, ResourceRegistry.deregisterPackage_eq hs.partitioned name]
  rw [bind_ok hzoom]
  generalize ht : ({ s with resourceRegistry := s.resourceRegistry.drop name } : State F) = t
  have hrec (k : Str) : t.record k = s.record k := by rw [← ht]; rfl
  have hclean := cleanUp_snd name r.obj t
  rw [bind_apply]
  rcases hc : cleanUp name r.obj t with ⟨_ | e | _, u⟩ <;> rw [hc] at hclean <;>
    obtain rfl : u = _ := hclean
  swap
  · exact hs.linked.of_record_eq hrec
  swap
  · exact hs.linked.of_record_eq hrec
  dsimp only
  generalize hu : t.afterCleanUp name r.obj = u
  have hrecu (k : Str) : u.record k = s.record k := by rw [← hu]; exact hrec k
  have hlinked : Linked u := hs.linked.of_record_eq hrecu
  have hfreeu : ∀ q ∈ u.dependents name, ¬ u.Loaded q := by
    simpa only [State.dependents, State.loaded_iff, hrecu] using hfree
  have hdeps : u.Loaded name → u.dependencies name = r.dependencies := by
    simpa only [State.dependencies, State.loaded_iff, hrecu] using hr
  have hun := deleteFromDependencies_unlinks name r.dependencies u
  have habsent (hn : ¬ u.Loaded name) : u.dependencies name = [] := by
    simp [State.dependencies, State.not_loaded_iff.mp hn]
  rw [bind_apply]
  rcases hd : deleteFromDependencies name r.dependencies u with ⟨_ | e | _, v⟩ <;> rw [hd] at hun
  · dsimp only
    by_cases hn : v.Loaded name
    · rw [bind_ok (deleteRecord_eq hn), bind_apply]
      have hv := hun.linked_erase hlinked hfreeu
      obtain ⟨list, hlist⟩ := removePackageFromAutoload_frame name (v.erase name)
      rcases hrm : removePackageFromAutoload name (v.erase name) with ⟨_ | e | _, w⟩ <;>
        rw [hrm] at hlist <;> obtain rfl : w = _ := hlist <;>
        exact hv.of_record_eq fun _ ↦ rfl
    · have hkey : deleteRecord name v = (.raised .keyError, v) := if_neg hn
      rw [bind_raised hkey]
      exact hun.linked hlinked fun _ ↦ habsent fun h ↦ hn ((hun.loaded name).mpr h)
  · refine hun.linked hlinked fun hnodup ↦ ?_
    by_cases hn : u.Loaded name
    · have hok := deleteFromDependencies_eq name r.dependencies u (hdeps hn ▸ hnodup)
        (hdeps hn ▸ hlinked name hnodup)
      simp [hok] at hd
    · exact habsent hn
  · refine hun.linked hlinked fun hnodup ↦ ?_
    by_cases hn : u.Loaded name
    · have hok := deleteFromDependencies_eq name r.dependencies u (hdeps hn ▸ hnodup)
        (hdeps hn ▸ hlinked name hnodup)
      simp [hok] at hd
    · exact habsent hn

theorem unloadDependents_gone
    {unload : Str → List TrackItem → Manager F (Bool × List TrackItem)}
    (hshrinks : ∀ name track, Within Shrinks (unload name track)) (dependents : List Str)
    (track track' : List TrackItem) (s s' : State F)
    (h : unloadDependents unload dependents track s = (.ok (true, track'), s')) :
    ∀ d ∈ dependents, ¬ s'.Loaded d := by
  induction dependents generalizing track s with
  | nil => simp
  | cons d rest ih =>
    rw [unloadDependents] at h
    obtain ⟨track₁, t, -, hrest⟩ := bind_eq_ok h
    rw [get_bind_apply] at hrest
    split at hrest
    · simp at hrest
    · next hd =>
      intro k hk
      rcases List.mem_cons.mp hk with rfl | hk
      · have hsub := unloadDependents_shrinks hshrinks rest track₁ t
        rw [hrest] at hsub
        exact fun hl ↦ hd (hsub.loaded hl)
      · exact ih track₁ t hrest k hk

theorem unloadDependents_consistent
    {unload : Str → List TrackItem → Manager F (Bool × List TrackItem)}
    (hunload : ∀ name track s, Consistent s → Consistent (unload name track s).2)
    (dependents : List Str) (track : List TrackItem) (s : State F) (hs : Consistent s) :
    Consistent (unloadDependents unload dependents track s).2 := by
  let R : State F → State F → Prop := fun s s' ↦ Consistent s → Consistent s'
  have h : Within R (unloadDependents unload dependents track) := by
    induction dependents generalizing track with
    | nil => exact fun s hs ↦ hs
    | cons d rest ih =>
      refine within_bind (fun _ _ _ h h' hs ↦ h' (h hs)) ?_ fun track' ↦ ?_
      · intro s
        unfold unloadIfLoaded
        split
        · exact within_map (R := R) (hunload d track) s
        · exact id
      · refine within_bind (fun _ _ _ h h' hs ↦ h' (h hs)) (fun _ ↦ id) fun s ↦ ?_
        exact within_ite (fun _ ↦ id) (ih track')
  exact h s hs

theorem unloadFuel_consistent (fuel : ℕ) (name : Str) (track : List TrackItem) (s : State F)
    (hs : Consistent s) : Consistent (unloadFuel π fuel name track s).2 := by
  refine ⟨(unloadFuel_shrinks π fuel name track s).well hs.toWell, ?_⟩
  induction fuel generalizing name track s with
  | zero => exact hs.linked
  | succ fuel ih =>
    have hconsistent (name : Str) (track : List TrackItem) (s : State F) (hs : Consistent s) :
        Consistent (unloadFuel π fuel name track s).2 :=
      ⟨(unloadFuel_shrinks π fuel name track s).well hs.toWell, ih name track s hs⟩
    unfold unloadFuel
    split
    · exact hs.linked
    · next r hr =>
      have hloop := unloadDependents_consistent hconsistent (π.keys r.dependents) track s hs
      have hsub := unloadDependents_shrinks (unloadFuel_shrinks π fuel) (π.keys r.dependents)
        track s
      rw [bind_apply]
      rcases hd : unloadDependents (unloadFuel π fuel) (π.keys r.dependents) track s with
        ⟨⟨unloaded, track'⟩ | e | _, t⟩ <;> rw [hd] at hloop hsub
      · cases unloaded with
        | false => exact hloop.linked
        | true =>
          have hgone := unloadDependents_gone (unloadFuel_shrinks π fuel) _ _ _ _ _ hd
          have hfree : ∀ q ∈ t.dependents name, ¬ t.Loaded q := by
            intro q hq
            have hq' := hsub.dependents name hq
            rw [State.dependents_of_record hr] at hq'
            exact hgone q ((π.keys_perm _).mem_iff.mpr hq')
          have hdeps : t.Loaded name → t.dependencies name = r.dependencies := by
            intro hl
            obtain ⟨r', hr'⟩ := State.loaded_iff.mp hl
            obtain ⟨d, hd, -⟩ := hsub.record name r' hr'
            rw [State.dependencies_of_record hr', ← State.dependencies_of_record hr,
              State.dependencies_of_record hd]
          have hstop := stopPackage_linked hloop hfree hdeps track'
          dsimp only
          rw [if_pos rfl, Computation.map_apply]
          rcases hp : stopPackage name r track' t with ⟨_ | e | _, u⟩ <;> rw [hp] at hstop <;>
            exact hstop
      · exact hloop.linked
      · exact hloop.linked

end Unload

theorem consistent_initial (fs : FileSystem F) (startupList : Option Str) :
    Consistent (State.initial π fs startupList) := by
  refine ⟨well_initial fs startupList, fun q _ d hd ↦ ?_⟩
  simp [State.dependencies, State.record, State.initial] at hd

theorem Consistent.of_packagesLoaded_eq {s s' : State F} (hs : Consistent s)
    (h : s'.packagesLoaded = s.packagesLoaded) (hr : s'.resourceRegistry = s.resourceRegistry) :
    Consistent s' := by
  have hrec (k : Str) : s'.record k = s.record k := by simp only [State.record, h]
  refine ⟨⟨hs.ranked.of_edges fun d q he ↦ ?_, hr ▸ hs.partitioned⟩, hs.linked.of_record_eq hrec⟩
  simpa only [State.Edge, State.dependents, State.loaded_iff, hrec] using he

theorem covers_consistent : Covers π (fun s s' : State F ↦ Consistent s → Consistent s') := by
  refine covers_of_updates (fun _ ↦ id) (fun _ _ _ h h' hs ↦ h' (h hs)) ?_ ?_ ?_ ?_
  · intro name checksum autoload ext s
    exact (packageLoad_steps name checksum autoload ext s).consistent
  · intro name track s
    exact unloadFuel_consistent _ name track s
  · intro s list hs
    exact hs.of_packagesLoaded_eq rfl rfl
  · intro s fs _ hs
    exact hs.of_packagesLoaded_eq rfl rfl

theorem Reachable.consistent {files : FileSystem F → Prop}
    {condition : State F → Request → Prop} {t : Thread F} (ht : Reachable π files condition t) :
    Consistent t.state :=
  ht.invariant (fun fs startupList _ ↦ consistent_initial fs startupList)
    (fun _ _ _ _ hs ↦ hs.of_packagesLoaded_eq rfl rfl)
    fun s request _ hs ↦ covers_consistent.perform request s hs

end Liota.PackageManager
