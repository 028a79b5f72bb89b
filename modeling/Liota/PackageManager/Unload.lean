import Liota.PackageManager.Load

namespace Liota.PackageManager

open Python Python.Computation Python.Text

variable {F : Type} (π : Platform F)

def unloadIfLoaded (unload : Str → List TrackItem → Manager F (Bool × List TrackItem))
    (dependent : Str) (track : List TrackItem) : Manager F (List TrackItem) := fun s ↦
  if s.Loaded dependent then (Prod.snd <$> unload dependent track) s else (.ok track, s)

/-- The loop over a snapshot of the dependents; `false` if one of them is still loaded. -/
def unloadDependents (unload : Str → List TrackItem → Manager F (Bool × List TrackItem)) :
    List Str → List TrackItem → Manager F (Bool × List TrackItem)
  | [], track => pure (true, track)
  | dependent :: rest, track => do
    let track ← unloadIfLoaded unload dependent track
    let s ← Py.get
    if s.Loaded dependent then pure (false, track) else unloadDependents unload rest track

/-- `del_dependent` for every dependency, which raises `KeyError` for a dependency that is not
loaded or does not list the package. -/
def deleteFromDependencies (fileName : Str) : List Str → Manager F Unit
  | [] => pure ()
  | dependency :: rest => fun s ↦
    if fileName ∈ s.dependents dependency then
      deleteFromDependencies fileName rest (s.delDependent dependency fileName)
    else (.raised .keyError, s)

/-- The state after `clean_up` did what it does with the registry. -/
def State.afterCleanUp (fileName : Str) (obj : Instance) (s : State F) : State F :=
  { s with
    resourceRegistry := (ResourceRegistry.exec fileName obj.atCleanUp s.resourceRegistry).2
    trace := s.trace ++ [.cleanedUp fileName] }

/-- `clean_up` on the instance, with a handler for `Exception` that formats the exception. -/
def cleanUp (fileName : Str) (obj : Instance) : Manager F Unit := fun s ↦
  match obj.cleanUp with
  | none => (.ok (), s.afterCleanUp fileName obj)
  | some e => (if e.isLogged then .ok () else .raised e.leaving, s.afterCleanUp fileName obj)

theorem cleanUp_snd (fileName : Str) (obj : Instance) (s : State F) :
    (cleanUp fileName obj s).2 = s.afterCleanUp fileName obj := by
  unfold cleanUp
  split <;> rfl

/-- `del self._packages_loaded[file_name]`. -/
def deleteRecord (fileName : Str) : Manager F Unit := fun s ↦
  if s.Loaded fileName then (.ok (), s.erase fileName) else (.raised .keyError, s)

/-- `_package_unload` from the point where all dependents are unloaded. -/
def stopPackage (fileName : Str) (r : PackageRecord F) (track : List TrackItem) :
    Manager F (List TrackItem) :=
  if r.obj.isLiotaPackage then do
    Py.zoom State.resourceRegistry (fun r s ↦ { s with resourceRegistry := r })
      (ResourceRegistry.deregisterPackage fileName)
    cleanUp fileName r.obj
    deleteFromDependencies fileName r.dependencies
    deleteRecord fileName
    removePackageFromAutoload fileName
    pure (track ++ [⟨fileName, r.ext, r.sha1⟩])
  else Py.raise .typeError

/-- `_package_unload` with a bound on the depth of its recursion. The extended track list is
returned with the result. -/
def unloadFuel : ℕ → Str → List TrackItem → Manager F (Bool × List TrackItem)
  | 0, _, _ => Py.diverge
  | fuel + 1, fileName, track => fun s ↦
    match s.record fileName with
    | none => (.ok (false, track), s)
    | some r =>
      (do
        let (unloaded, track) ← unloadDependents (unloadFuel fuel) (π.keys r.dependents) track
        if unloaded then Prod.mk true <$> stopPackage fileName r track
        else pure (false, track)) s

/-- `_package_unload` as the commands call it. The packages being unloaded at one time are
different loaded packages. -/
def packageUnload (fileName : Str) (track : List TrackItem) :
    Manager F (Bool × List TrackItem) := fun s ↦
  unloadFuel π (s.packagesLoaded.keys.length + 1) fileName track s

end Liota.PackageManager
