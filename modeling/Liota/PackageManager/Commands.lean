import Liota.PackageManager.Unload

namespace Liota.PackageManager

open Python Python.Computation Python.Text

variable {F : Type} (π : Platform F)

/-- The bare `except:` clause. -/
def catchAll : PyErr → Bool := fun _ ↦ true

/-- The loop over the reversed track list that reload and update share: `load` is how they load
one entry, `record` the record of the package the command names. -/
def reloadTracked (load : TrackItem → Str → Manager F (Option (PackageRecord F)))
    (fileName checksum : Str) : List TrackItem → Option (PackageRecord F) →
    Manager F (Option (PackageRecord F))
  | [], record => pure record
  | item :: rest, record => do
    let s ← Py.get
    if s.Loaded item.name then reloadTracked load fileName checksum rest record
    else do
      let temp ← load item (if item.name = fileName ∧ checksum ≠ item.sha1 then checksum
        else item.sha1)
      reloadTracked load fileName checksum rest
        (if item.name = fileName then temp <|> record else record)

/-- Unload, then load the unloaded packages again in reverse order. -/
def restart (load : TrackItem → Str → Manager F (Option (PackageRecord F)))
    (fileName checksum : Str) (autoload : Bool) : Manager F (Option (PackageRecord F)) := do
  let (unloaded, track) ← packageUnload π fileName []
  if unloaded then do
    let record ← reloadTracked load fileName checksum track.reverse none
    match record with
    | some r =>
      if autoload then do
        writePackageIntoAutoload fileName r.sha1
        pure (some r)
      else pure (some r)
    | none => pure none
  else pure none

def packageReload (fileName checksum : Str) (autoload : Bool) :
    Manager F (Option (PackageRecord F)) := do
  let s ← Py.get
  if s.Loaded fileName then
    restart π (fun item sha1 ↦ packageLoad π item.name (some sha1) false (some item.ext))
      fileName checksum autoload
  else pure none

def packageUpdate (fileName checksum : Str) (autoload : Bool) :
    Manager F (Option (PackageRecord F)) := do
  let s ← Py.get
  if s.Loaded fileName then
    restart π (fun item sha1 ↦ packageLoad π item.name (some sha1) false none)
      fileName checksum autoload
  else packageLoad π fileName (some checksum) false none

/-- One round of the loop in `_package_load_list`: the names that failed so far, extended. An
exception is logged and names no failure. -/
def loadListed (autoload : Bool) (entry : Str × Str) (failed : List Str) :
    Manager F (List Str) :=
  Py.tryExcept catchAll
    (do
      let s ← Py.get
      if s.Loaded entry.1 then pure failed
      else do
        let record ← packageLoad π entry.1 (some entry.2) autoload none
        pure (if record.isSome then failed else failed ++ [entry.1]))
    (pure failed)

def loadListFrom (autoload : Bool) : List (Str × Str) → List Str → Manager F (List Str)
  | [], failed => pure failed
  | entry :: rest, failed => do
    let failed ← loadListed π autoload entry failed
    loadListFrom autoload rest failed

def packageLoadList (packageList : List (Str × Str)) (autoload : Bool) : Manager F Bool := do
  let failed ← loadListFrom π autoload packageList []
  pure (failed = [])

def unloadListFrom : List Str → List Str → List TrackItem →
    Manager F (List Str × List TrackItem)
  | [], failed, track => pure (failed, track)
  | fileName :: rest, failed, track => do
    let s ← Py.get
    if s.Loaded fileName then do
      let (unloaded, track) ← packageUnload π fileName track
      unloadListFrom rest (if unloaded then failed else failed ++ [fileName]) track
    else unloadListFrom rest failed track

def packageUnloadList (packageList : List Str) (track : List TrackItem) :
    Manager F (Bool × List TrackItem) := do
  let (failed, track) ← unloadListFrom π packageList [] track
  pure (failed = [], track)

def packageUpdateList (packageList : List (Str × Str)) (autoload : Bool) :
    Manager F Bool := do
  let (unloaded, track) ← packageUnloadList π (packageList.map Prod.fst) []
  let loaded ← packageLoadList π packageList autoload
  let restored ← (if track = [] then pure true
    else packageLoadList π (track.reverse.map fun item ↦ (item.name, item.sha1)) autoload)
  pure (unloaded && loaded && restored)

def packageLoadAuto : Manager F Unit := fun s ↦
  match s.startupList with
  | none => (.ok (), s)
  | some text =>
    match readStartupList (splitlines text) with
    | none => (.raised .valueError, s)
    | some packageStartupList =>
      (if packageStartupList = [] then pure () else do
        let _ ← packageLoadList π packageStartupList false
        pure ()) s

/-- Move one file to the stash directory, or remove it if that is refused; `false` if neither
is possible. -/
def stashFile (name : Str) : Manager F Bool := fun s ↦
  let src := joinPath π name
  match s.fs.rename src (joinPath π ("stash/".toList ++ name)) with
  | some fs => (.ok true, { s with fs := fs })
  | none =>
    match s.fs.remove src with
    | some fs => (.ok true, { s with fs := fs })
    | none => (.ok false, s)

def stashFiles : List Str → Manager F Bool
  | [] => pure true
  | name :: rest => do
    let stashed ← stashFile π name
    let others ← stashFiles rest
    pure (stashed && others)

def makeStash : Manager F Unit :=
  Py.modify fun s ↦
    let stashDir := joinPath π "stash".toList
    if s.fs.isdir stashDir then s else { s with fs := (s.fs.makedirs stashDir).getD s.fs }

/-- Stash every candidate of a package. Neither `os.path.exists` nor `os.rename` takes a path with
a NUL. -/
def packageDeleteFiles (fileName : Str) : Manager F Bool := do
  let s ← Py.get
  if nul ∈ pathFile π fileName then Py.raise .typeError
  else do
    let found := extensions.filter fun ext ↦ s.fs.pathExists (candidate π fileName ext)
    if found = [] then pure false
    else do
      makeStash π
      if nul ∈ fileName then Py.raise .typeError
      else do
        let stashed ← stashFiles π (found.map fun ext ↦ fileName ++ '.' :: ext.text)
        if stashed then do
          removePackageFromAutoload fileName
          pure stashed
        else pure stashed

/-- A package that could not be unloaded has its files stashed all the same. -/
def packageDelete (fileName : Str) : Manager F Bool := do
  let s ← Py.get
  if s.Loaded fileName then do
    let _ ← packageUnload π fileName []
    packageDeleteFiles π fileName
  else packageDeleteFiles π fileName

def deleteListFrom : List Str → List Str → Manager F (List Str)
  | [], failed => pure failed
  | fileName :: rest, failed => do
    let failed ← Py.tryExcept catchAll
      (do
        let deleted ← packageDelete π fileName
        pure (if deleted then failed else failed ++ [fileName]))
      (pure failed)
    deleteListFrom rest failed

def packageDeleteList (packageList : List Str) : Manager F Bool := do
  let failed ← deleteListFrom π packageList []
  pure (failed = [])

/-- The loaded names in the order of `_packages_loaded.keys()`. -/
def loadedNames (s : State F) : List Str := π.keys s.packagesLoaded.keys

/-- `_terminate_all`, without the end of the messenger thread and of the metric handler. -/
def terminateAll : Manager F Bool := do
  let s ← Py.get
  let (unloaded, _) ← packageUnloadList π (loadedNames π s) []
  pure unloaded

end Liota.PackageManager
