import Liota.PackageManager.Registry

namespace Liota.PackageManager

open Python Python.Computation Python.Text

variable {F : Type}

/-- The record of a loaded package. `source` is a ghost field: the contents of the file that
the module was executed from. -/
structure PackageRecord (F : Type) where
  ext : Ext
  sha1 : Str
  dependents : List Str
  dependencies : List Str
  obj : Instance
  source : F

/-- Ghost events: a module file was executed, a package was put into `_packages_loaded` (both
with the checksum that its `_package_load` call was given), `clean_up` was called. -/
inductive Event
  | executed (name : Str) (checksum : Option Str)
  | loaded (name : Str) (checksum : Option Str)
  | cleanedUp (name : Str)
  deriving DecidableEq, Repr

/-- The state of the package thread and of what it works on. `startupList` is the text of the
start-up list where there is one that can be opened for reading and for writing, `tick` counts the
calls into package code and `trace` lists them. -/
structure State (F : Type) where
  packagesLoaded : Dict (PackageRecord F)
  resourceRegistry : ResourceRegistry
  sysModules : Dict Namespace
  fs : FileSystem F
  startupList : Option Str
  tick : ℕ
  trace : List Event

abbrev Manager (F : Type) := Py (State F)

namespace State

def Loaded (s : State F) (name : Str) : Prop := name ∈ s.packagesLoaded

instance (s : State F) (name : Str) : Decidable (s.Loaded name) :=
  inferInstanceAs (Decidable (name ∈ s.packagesLoaded))

def record (s : State F) (name : Str) : Option (PackageRecord F) := s.packagesLoaded.lookup name

/-- The dependents and the recorded dependencies of a package; none if it is not loaded. -/
def dependents (s : State F) (name : Str) : List Str :=
  ((s.record name).map PackageRecord.dependents).getD []

def dependencies (s : State F) (name : Str) : List Str :=
  ((s.record name).map PackageRecord.dependencies).getD []

def owned (s : State F) (name : Str) : List Str := s.resourceRegistry.owned name

def module (s : State F) (name : Str) : Namespace :=
  (s.sysModules.lookup name).getD Namespace.empty

def initial (π : Platform F) (fs : FileSystem F) (startupList : Option Str) : State F where
  packagesLoaded := ∅
  resourceRegistry := ResourceRegistry.initial π.packagePath
  sysModules := ∅
  fs := fs
  startupList := startupList
  tick := 0
  trace := []

def modifyRecord (name : Str) (f : PackageRecord F → PackageRecord F) (s : State F) : State F :=
  { s with packagesLoaded := Dict.modify name f s.packagesLoaded }

/-- `self._packages_loaded[dependency].add_dependent(name)`. -/
def addDependent (dependency name : Str) (s : State F) : State F :=
  s.modifyRecord dependency fun r ↦
    { r with dependents := if name ∈ r.dependents then r.dependents else r.dependents ++ [name] }

/-- `self._packages_loaded[dependency].del_dependent(name)`, where it does not raise. -/
def delDependent (dependency name : Str) (s : State F) : State F :=
  s.modifyRecord dependency fun r ↦ { r with dependents := r.dependents.filter (· ≠ name) }

def insert (name : Str) (r : PackageRecord F) (s : State F) : State F :=
  { s with packagesLoaded := s.packagesLoaded.insert name r }

def erase (name : Str) (s : State F) : State F :=
  { s with packagesLoaded := s.packagesLoaded.erase name }

def log (e : Event) (s : State F) : State F := { s with trace := s.trace ++ [e] }

theorem loaded_iff {s : State F} {name : Str} : s.Loaded name ↔ ∃ r, s.record name = some r :=
  Dict.mem_iff_lookup name s.packagesLoaded

theorem not_loaded_iff {s : State F} {name : Str} : ¬ s.Loaded name ↔ s.record name = none :=
  Dict.not_mem_iff_lookup name s.packagesLoaded

theorem loaded_of_record {s : State F} {name : Str} {r : PackageRecord F}
    (h : s.record name = some r) : s.Loaded name := loaded_iff.mpr ⟨r, h⟩

@[simp] theorem dependents_of_record {s : State F} {name : Str} {r : PackageRecord F}
    (h : s.record name = some r) : s.dependents name = r.dependents := by simp [dependents, h]

@[simp] theorem dependencies_of_record {s : State F} {name : Str} {r : PackageRecord F}
    (h : s.record name = some r) : s.dependencies name = r.dependencies := by
  simp [dependencies, h]

theorem loaded_of_mem_dependents {s : State F} {name other : Str}
    (h : other ∈ s.dependents name) : s.Loaded name := by
  by_contra hn
  simp [dependents, not_loaded_iff.mp hn] at h

theorem loaded_of_mem_dependencies {s : State F} {name other : Str}
    (h : other ∈ s.dependencies name) : s.Loaded name := by
  by_contra hn
  simp [dependencies, not_loaded_iff.mp hn] at h

theorem record_modifyRecord (name k : Str) (f : PackageRecord F → PackageRecord F)
    (s : State F) :
    (s.modifyRecord name f).record k = if k = name then (s.record k).map f else s.record k :=
  Dict.lookup_modify name k f s.packagesLoaded

theorem record_insert (name k : Str) (r : PackageRecord F) (s : State F) :
    (s.insert name r).record k = if k = name then some r else s.record k :=
  Dict.lookup_insert_eq name k r s.packagesLoaded

theorem record_erase (name k : Str) (s : State F) :
    (s.erase name).record k = if k = name then none else s.record k :=
  Dict.lookup_erase_eq name k s.packagesLoaded

@[simp] theorem record_log (e : Event) (s : State F) (k : Str) :
    (s.log e).record k = s.record k := rfl

@[simp] theorem loaded_log (e : Event) (s : State F) (k : Str) :
    (s.log e).Loaded k ↔ s.Loaded k := Iff.rfl

theorem loaded_modifyRecord (name k : Str) (f : PackageRecord F → PackageRecord F)
    (s : State F) : (s.modifyRecord name f).Loaded k ↔ s.Loaded k :=
  Dict.mem_modify name k f s.packagesLoaded

theorem loaded_insert (name k : Str) (r : PackageRecord F) (s : State F) :
    (s.insert name r).Loaded k ↔ k = name ∨ s.Loaded k := AList.mem_insert s.packagesLoaded

theorem loaded_erase (name k : Str) (s : State F) :
    (s.erase name).Loaded k ↔ k ≠ name ∧ s.Loaded k := AList.mem_erase

end State

/-- An entry of `track_list`. -/
structure TrackItem where
  name : Str
  ext : Ext
  sha1 : Str
  deriving DecidableEq, Repr

end Liota.PackageManager
