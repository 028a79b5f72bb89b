import Liota.PackageManager.Startup

namespace Liota.PackageManager

open Python Python.Computation Python.Text

variable {F : Type} (π : Platform F)

def checksumList (fs : FileSystem F) (fileName : Str) : List Ext → Except PyErr (List Str)
  | [] => .ok []
  | ext :: rest =>
    match sha1sum π fs (candidate π fileName ext), checksumList fs fileName rest with
    | .error e, _ => .error e
    | .ok _, .error e => .error e
    | .ok sha1, .ok sums => .ok (sha1.toList ++ sums)

/-- The extension to load: the forced one, or the first in the order of `extensions` for which
there is a file. -/
def fileExt (fs : FileSystem F) (fileName : Str) : Option Ext → Option Ext
  | none => extensions.find? fun ext ↦ fs.isfile (candidate π fileName ext)
  | some ext => if fs.isfile (candidate π fileName ext) then some ext else none

def UnderPackagePath (fileName : Str) : Prop :=
  abspath π.packagePath ++ ['/'] <+: pathFile π fileName

instance (fileName : Str) : Decidable (UnderPackagePath π fileName) :=
  inferInstanceAs (Decidable (_ <+: _))

def packageChkExists (fs : FileSystem F) (fileName : Str) (extForced : Option Ext) :
    Except PyErr (Option (Ext × List Str)) :=
  if UnderPackagePath π fileName then
    match checksumList π fs fileName extensions with
    | .error e => .error e
    | .ok sums => .ok ((fileExt π fs fileName extForced).map (·, sums))
  else .ok none

/-- The checksum to record, or `none` if verification fails. A given checksum may be that of
any candidate file; without one, the file found is hashed and nothing is compared. -/
def verifyIntegrity (fs : FileSystem F) (path : Str) (sums : List Str) :
    Option Str → Except PyErr (Option Str)
  | some checksum => .ok (sums.find? (· = checksum))
  | none =>
    match sha1sum π fs path with
    | .error _ => .ok none
    | .ok none => .error .attributeError
    | .ok (some sha1) => .ok (some sha1)

/-- `re.sub(r"\.", "_", file_name)`. -/
def moduleName (fileName : Str) : Str := fileName.map fun c ↦ if c = '.' then '_' else c

/-- Execute the module file; `none` if an exception was logged with its text. -/
def packageModuleLoad (fileName : Str) (ext : Ext) (checksum : Option Str) :
    Manager F (Option F) := fun s ↦
  match s.fs.file (candidate π fileName ext) with
  | none => (.ok none, s)
  | some f =>
    if f.readable then
      let t := { s with tick := s.tick + 1 }
      match π.importing ext f.content s.tick with
      | .rejected e => (if e.isLogged then .ok none else .raised e.leaving, t)
      | .failed e =>
        (if e.isLogged then .ok none else .raised e.leaving,
          { t with
            sysModules := s.sysModules.erase (moduleName fileName)
            trace := s.trace ++ [.executed fileName checksum] })
      | .done =>
        (.ok (some f.content),
          { t with
            sysModules := s.sysModules.insert (moduleName fileName)
              ((s.module (moduleName fileName)).initialise (π.assigns ext f.content))
            trace := s.trace ++ [.executed fileName checksum] })
    else (.ok none, s)

/-- A module found, verified and executed, whose dependencies are still to be followed. -/
structure Opened (F : Type) where
  ext : Ext
  sha1 : Str
  dependencies : List Str
  source : F

/-- The list of dependencies of a module. `" ".join` raises `TypeError` on an item that is not
a string; `none` stands for a value that is not a list. -/
def dependencyList : Option DependencyValue → Except PyErr (Option (List Str))
  | none => .ok (some [])
  | some .notList => .ok none
  | some (.list items) =>
    match items.mapM id with
    | some names => .ok (some names)
    | none => .error .typeError

def readDependencies (fileName : Str) (ext : Ext) (sha1 : Str) (source : F) :
    Manager F (Option (Opened F)) := fun s ↦
  match dependencyList (s.module (moduleName fileName)).dependencies with
  | .error e => (.raised e, s)
  | .ok none => (.ok none, s)
  | .ok (some dependencies) => (.ok (some ⟨ext, sha1, dependencies, source⟩), s)

/-- `_package_load` up to the point where it follows the dependencies. -/
def openPackage (fileName : Str) (checksum : Option Str) (extForced : Option Ext) :
    Manager F (Option (Opened F)) := fun s ↦
  if s.Loaded fileName then (.ok none, s)
  else match packageChkExists π s.fs fileName extForced with
    | .error e => (.raised e, s)
    | .ok none => (.ok none, s)
    | .ok (some (ext, sums)) =>
      match verifyIntegrity π s.fs (candidate π fileName ext) sums checksum with
      | .error e => (.raised e, s)
      | .ok none => (.ok none, s)
      | .ok (some sha1) =>
        (do
          let loaded ← packageModuleLoad π fileName ext checksum
          match loaded with
          | none => pure none
          | some source => readDependencies fileName ext sha1 source) s

/-- Load a dependency unless it is loaded; what the call returned is not looked at. -/
def ensureLoaded (load : Str → Manager F (Option (PackageRecord F))) (dependency : Str) :
    Manager F Unit := fun s ↦
  if s.Loaded dependency then (.ok (), s)
  else (do
    let _ ← load dependency
    pure ()) s

/-- The loop over the dependencies of `fileName`, which is on the stack already. -/
def followDependencies (load : Str → Manager F (Option (PackageRecord F))) (fileName : Str)
    (checkStack : List Str) : List Str → Manager F Bool
  | [] => pure true
  | dependency :: rest =>
    if dependency ∈ checkStack then pure false
    else do
      ensureLoaded load dependency
      let s ← Py.get
      if s.Loaded dependency then do
        Py.modify (State.addDependent dependency fileName)
        followDependencies load fileName checkStack rest
      else pure false

/-- `package_record.get_instance().run(registry)`; `false` if an exception was logged. -/
def runInstance (fileName : Str) (obj : Instance) : Manager F Bool :=
  Py.tryLogged
    (do
      Py.zoom State.resourceRegistry (fun r s ↦ { s with resourceRegistry := r })
        (ResourceRegistry.exec fileName obj.run)
      pure true)
    (pure false)

def Opened.record (opened : Opened F) (obj : Instance) : PackageRecord F where
  ext := opened.ext
  sha1 := opened.sha1
  dependents := []
  dependencies := opened.dependencies
  obj := obj
  source := opened.source

/-- Put the record of a running package into `_packages_loaded`, and its name into the start-up
list if that is asked for. -/
def recordPackage (fileName : Str) (checksum : Option Str) (autoload : Bool)
    (record : PackageRecord F) : Manager F (Option (PackageRecord F)) := do
  Py.modify fun s ↦ (s.insert fileName record).log (.loaded fileName checksum)
  if autoload then do
    writePackageIntoAutoload fileName record.sha1
    pure (some record)
  else pure (some record)

/-- `_package_load` from the point where the dependencies are loaded. `PackageClass` is looked
up only now, after the dependencies were imported. -/
def startPackage (fileName : Str) (checksum : Option Str) (autoload : Bool)
    (opened : Opened F) : Manager F (Option (PackageRecord F)) := fun s ↦
  match (s.module (moduleName fileName)).packageClass with
  | none => (.ok none, s)
  | some klass =>
    let t := { s with tick := s.tick + 1 }
    match klass s.tick with
    | .error _ => (.ok none, t)
    | .ok obj =>
      (do
        let ran ← runInstance fileName obj
        if ran then recordPackage fileName checksum autoload (opened.record obj)
        else pure none) t

/-- `_package_load` with a bound on the depth of its recursion. -/
def loadFuel : ℕ → Str → Option Str → Bool → Option Ext → List Str →
    Manager F (Option (PackageRecord F))
  | 0, _, _, _, _, _ => Py.diverge
  | fuel + 1, fileName, checksum, autoload, extForced, checkStack => do
    let opened ← openPackage π fileName checksum extForced
    match opened with
    | none => pure none
    | some opened => do
      let followed ← followDependencies
        (fun dependency ↦ loadFuel fuel dependency none false none (fileName :: checkStack))
        fileName (fileName :: checkStack) opened.dependencies
      if followed then startPackage fileName checksum autoload opened else pure none

def DependencyValue.names : DependencyValue → List Str
  | .notList => []
  | .list items => items.filterMap id

def Namespace.names (n : Namespace) : List Str :=
  (n.dependencies.map DependencyValue.names).getD []

def knownNames (s : State F) : List Str :=
  (s.fs.files.entries.flatMap fun f ↦
    extensions.flatMap fun ext ↦ (π.assigns ext f.2.content).names) ++
  s.sysModules.entries.flatMap fun m ↦ m.2.names

/-- `_package_load` as the commands call it. A recursion deeper than the number of known names
would have met a name twice on the stack. -/
def packageLoad (fileName : Str) (checksum : Option Str) (autoload : Bool)
    (extForced : Option Ext) : Manager F (Option (PackageRecord F)) := fun s ↦
  loadFuel π ((knownNames π s).length + 1) fileName checksum autoload extForced [] s

end Liota.PackageManager
