import Liota.PackageManager.Listing
import Liota.PackageManager.LoadSteps
import Liota.PackageManager.Unload

namespace Liota.PackageManager

open Python Python.Computation Python.Text Relation

variable {F : Type} (π : Platform F)

/-- All that unloading can do, whatever the packages are like and however it ends: packages and
dependents disappear, and the registry stays partitioned. -/
structure Shrinks (s s' : State F) : Prop where
  record : ∀ k r, s'.record k = some r → ∃ dependents,
    s.record k = some { r with dependents := dependents } ∧ r.dependents ⊆ dependents
  partitioned : s.resourceRegistry.Partitioned → s'.resourceRegistry.Partitioned
  sysModules : s'.sysModules = s.sysModules
  fs : s'.fs = s.fs
  tick : s'.tick = s.tick
  trace : ∃ names : List Str, s'.trace = s.trace ++ names.map .cleanedUp
  listed : ∀ k, s'.Loaded k → Listed s.startupList k → Listed s'.startupList k

theorem Shrinks.refl (s : State F) : Shrinks s s :=
  ⟨fun _ r h ↦ ⟨r.dependents, h, fun _ ↦ id⟩, id, rfl, rfl, rfl, ⟨[], by simp⟩, fun _ _ ↦ id⟩

theorem Shrinks.loaded {s s' : State F} (h : Shrinks s s') {k : Str} (hk : s'.Loaded k) :
    s.Loaded k := by
  obtain ⟨r, hr⟩ := State.loaded_iff.mp hk
  obtain ⟨d, hd, -⟩ := h.record k r hr
  exact State.loaded_of_record hd

theorem Shrinks.trans (s t u : State F) (h : Shrinks s t) (h' : Shrinks t u) : Shrinks s u where
  record k r hr := by
    obtain ⟨d, hd, hsub⟩ := h'.record k r hr
    obtain ⟨d', hd', hsub'⟩ := h.record k _ hd
    exact ⟨d', hd', fun x hx ↦ hsub' (hsub hx)⟩
  partitioned hs := h'.partitioned (h.partitioned hs)
  sysModules := h'.sysModules.trans h.sysModules
  fs := h'.fs.trans h.fs
  tick := h'.tick.trans h.tick
  trace := by
    obtain ⟨names, hn⟩ := h.trace
    obtain ⟨names', hn'⟩ := h'.trace
    exact ⟨names ++ names', by rw [hn', hn, List.map_append, List.append_assoc]⟩
  listed k hk hl := h'.listed k hk (h.listed k (h'.loaded hk) hl)

theorem Shrinks.dependents {s s' : State F} (h : Shrinks s s') (k : Str) :
    s'.dependents k ⊆ s.dependents k := by
  intro x hx
  obtain ⟨r, hr⟩ := State.loaded_iff.mp (State.loaded_of_mem_dependents hx)
  obtain ⟨d, hd, hsub⟩ := h.record k r hr
  rw [State.dependents_of_record hr] at hx
  rw [State.dependents_of_record hd]
  exact hsub hx

/-- `t` has the files and the modules of `s`, and no records but those of `s` up to their
dependents. -/
structure Relinks (s t : State F) : Prop where
  fs : t.fs = s.fs
  sysModules : t.sysModules = s.sysModules
  record : ∀ k r, t.record k = some r → ∃ dependents,
    s.record k = some { r with dependents := dependents }

theorem Shrinks.relinks {s t : State F} (h : Shrinks s t) : Relinks s t where
  fs := h.fs
  sysModules := h.sysModules
  record k r hr := by
    obtain ⟨dependents, hr', -⟩ := h.record k r hr
    exact ⟨dependents, hr'⟩

theorem relinks_of_eq {s t : State F} (hfs : t.fs = s.fs) (hmod : t.sysModules = s.sysModules)
    (hloaded : t.packagesLoaded = s.packagesLoaded) : Relinks s t where
  fs := hfs
  sysModules := hmod
  record k r hr := ⟨r.dependents, by simpa only [State.record, hloaded] using hr⟩

theorem addDependent_relinks (dependency name : Str) (s : State F) :
    Relinks s (s.addDependent dependency name) where
  fs := rfl
  sysModules := rfl
  record k r hr := by
    rw [State.addDependent, State.record_modifyRecord] at hr
    split at hr
    · obtain ⟨r₀, hr₀, rfl⟩ := Option.map_eq_some_iff.mp hr
      exact ⟨r₀.dependents, hr₀⟩
    · exact ⟨r.dependents, hr⟩

theorem Relinks.module {s t : State F} (h : Relinks s t) (m : Str) : t.module m = s.module m := by
  simp only [State.module, h.sysModules]

theorem removePackageFromAutoload_frame (name : Str) (s : State F) :
    ∃ list, (removePackageFromAutoload name s).2 = { s with startupList := list } := by
  unfold removePackageFromAutoload
  split
  · exact ⟨s.startupList, rfl⟩
  · split <;> exact ⟨_, rfl⟩

theorem delDependent_shrinks (dependency name : Str) (s : State F) :
    Shrinks s (s.delDependent dependency name) where
  record k r hr := by
    rw [State.delDependent, State.record_modifyRecord] at hr
    split at hr
    · obtain ⟨r₀, hr₀, rfl⟩ := Option.map_eq_some_iff.mp hr
      exact ⟨r₀.dependents, hr₀, fun x hx ↦ (List.mem_filter.mp hx).1⟩
    · exact ⟨r.dependents, hr, fun _ ↦ id⟩
  partitioned := id
  sysModules := rfl
  fs := rfl
  tick := rfl
  trace := ⟨[], by simp [State.delDependent, State.modifyRecord]⟩
  listed _ _ := id

theorem eraseListed_shrinks (name : Str) (s : State F) :
    Shrinks s (removePackageFromAutoload name (s.erase name)).2 := by
  obtain ⟨list, hlist⟩ := removePackageFromAutoload_frame name (s.erase name)
  rw [hlist]
  refine ⟨fun k r hr ↦ ?_, id, rfl, rfl, rfl, ⟨[], by simp [State.erase]⟩, fun k hk hl ↦ ?_⟩
  · have hr' : (s.erase name).record k = some r := hr
    rw [State.record_erase] at hr'
    split at hr'
    · simp at hr'
    · exact ⟨r.dependents, hr', fun _ ↦ id⟩
  · have hk' : (s.erase name).Loaded k := hk
    have hlisted : Listed (s.erase name).startupList k := hl
    have hkept := listed_remove ((State.loaded_erase name k s).mp hk').1 hlisted
    rwa [hlist] at hkept

theorem deleteFromDependencies_shrinks (name : Str) (deps : List Str) :
    Within (Shrinks (F := F)) (deleteFromDependencies name deps) := by
  induction deps with
  | nil => exact within_pure Shrinks.refl ()
  | cons d rest ih =>
    intro s
    unfold deleteFromDependencies
    split
    · exact Shrinks.trans _ _ _ (delDependent_shrinks d name s) (ih _)
    · exact Shrinks.refl s

theorem stopPackage_shrinks (name : Str) (r : PackageRecord F) (track : List TrackItem) :
    Within Shrinks (stopPackage name r track) := by
  have hderegister : Within (Shrinks (F := F)) (Py.zoom State.resourceRegistry
      (fun r s ↦ { s with resourceRegistry := r })
      (ResourceRegistry.deregisterPackage name)) := by
    intro s
    refine ⟨fun k r hr ↦ ⟨r.dependents, hr, fun _ ↦ id⟩, fun hs ↦ ?_, rfl, rfl, rfl,
      ⟨[], by simp [Py.zoom]⟩, fun _ _ ↦ id⟩
    simpa only [Py.zoom, ResourceRegistry.deregisterPackage_eq hs name] using hs.drop name
  have hcleanUp : Within Shrinks (cleanUp (F := F) name r.obj) := by
    intro s
    rw [cleanUp_snd]
    exact ⟨fun k r hr ↦ ⟨r.dependents, hr, fun _ ↦ id⟩, ResourceRegistry.partitioned_exec name _,
      rfl, rfl, rfl, ⟨[name], rfl⟩, fun _ _ ↦ id⟩
  have hrecord : Within Shrinks (deleteRecord (F := F) name >>= fun _ ↦
      removePackageFromAutoload name >>= fun _ ↦ pure (track ++ [⟨name, r.ext, r.sha1⟩])) := by
    intro s
    by_cases hl : s.Loaded name
    · have hdelete : deleteRecord name s = (.ok (), s.erase name) := if_pos hl
      rw [bind_ok hdelete, bind_pure_snd]
      exact eraseListed_shrinks name s
    · have hdelete : deleteRecord name s = (.raised .keyError, s) := if_neg hl
      rw [bind_raised hdelete]
      exact Shrinks.refl s
  unfold stopPackage
  split
  · refine within_bind Shrinks.trans hderegister fun _ ↦ ?_
    refine within_bind Shrinks.trans hcleanUp fun _ ↦ ?_
    exact within_bind Shrinks.trans (deleteFromDependencies_shrinks name _) fun _ ↦ hrecord
  · exact within_raise Shrinks.refl _

section Rule

variable {R : State F → State F → Prop} (hrefl : ∀ s, R s s)
  (htrans : ∀ s t u, R s t → R t u → R s u)
include hrefl htrans

theorem within_unloadDependents
    {unload : Str → List TrackItem → Manager F (Bool × List TrackItem)}
    (h : ∀ name track, Within R (unload name track)) (dependents : List Str)
    (track : List TrackItem) : Within R (unloadDependents unload dependents track) := by
  induction dependents generalizing track with
  | nil => exact within_pure hrefl _
  | cons d rest ih =>
    refine within_bind htrans ?_ fun track' ↦ ?_
    · intro s
      unfold unloadIfLoaded
      split
      · exact within_map (h d track) s
      · exact hrefl s
    · refine within_bind htrans (within_get hrefl) fun s ↦ ?_
      split
      · exact within_pure hrefl _
      · exact ih track'

theorem within_unloadFuel (hstop : ∀ s name r track u, s.Loaded name → R s u →
    R s (stopPackage name r track u).2)
    (fuel : ℕ) (name : Str) (track : List TrackItem) :
    Within R (unloadFuel π fuel name track) := by
  induction fuel generalizing name track with
  | zero => exact within_diverge hrefl
  | succ fuel ih =>
    intro s
    unfold unloadFuel
    split
    · exact hrefl s
    · next r hr =>
      have hloop := within_unloadDependents hrefl htrans ih (π.keys r.dependents) track s
      rw [bind_apply]
      rcases hd : unloadDependents (unloadFuel π fuel) (π.keys r.dependents) track s with
        ⟨⟨unloaded, track'⟩ | e | _, u⟩ <;> rw [hd] at hloop
      · dsimp only
        split
        · have hstopped := hstop s name r track' u (State.loaded_of_record hr) hloop
          rw [Computation.map_apply]
          rcases hs : stopPackage name r track' u with ⟨a | e | _, v⟩ <;> rw [hs] at hstopped <;>
            exact hstopped
        · exact hloop
      · exact hloop
      · exact hloop

end Rule

theorem unloadDependents_shrinks
    {unload : Str → List TrackItem → Manager F (Bool × List TrackItem)}
    (h : ∀ name track, Within Shrinks (unload name track)) (dependents : List Str)
    (track : List TrackItem) : Within Shrinks (unloadDependents unload dependents track) :=
  within_unloadDependents Shrinks.refl Shrinks.trans h dependents track

theorem unloadFuel_shrinks (fuel : ℕ) (name : Str) (track : List TrackItem) :
    Within Shrinks (unloadFuel π fuel name track) :=
  within_unloadFuel π Shrinks.refl Shrinks.trans
    (fun _ name r track u _ h ↦ h.trans _ _ _ (stopPackage_shrinks name r track u)) fuel name track

theorem packageUnload_shrinks (name : Str) (track : List TrackItem) :
    Within Shrinks (packageUnload π name track) := fun s ↦ unloadFuel_shrinks π _ name track s

end Liota.PackageManager
