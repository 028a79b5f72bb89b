import Liota.PackageManager.Thread

namespace Liota.PackageManager

open Python Python.Computation Python.Text

/-- A package file given by its checksum and by what executing it defines. -/
structure Script where
  sha1 : Str
  defines : Namespace

/-- A package file with the usual definitions. It is documented unless a dependency is named
twice. -/
def Script.standard (sha1 : Str) (dependencies : List Str) (run : RunProg)
    (cleanUp : Option PyErr) : Script where
  sha1 := sha1
  defines :=
    { dependencies := some (.list (dependencies.map some))
      packageClass := some fun _ ↦ .ok ⟨true, run, cleanUp, .ret⟩ }

def scriptPlatform : Platform Script where
  packagePath := "/p".toList
  packagePath_abs := by decide
  packagePath_nul := by decide
  sha1 := Script.sha1
  assigns _ script := script.defines
  importing _ _ _ := .done
  keys := id
  keys_perm := List.Perm.refl
  isText _ := true
  isText_packageConf := rfl
  listsThreads _ := true

def scriptFiles (packages : List (Str × Script)) : FileSystem Script where
  files := packages.foldr
    (fun p d ↦ d.insert (candidate scriptPlatform p.1 .py) ⟨p.2, true⟩) ∅
  dirs := []
  mayMakedirs _ := false
  mayRename _ _ := false
  mayRemove _ := false

theorem mem_scriptFiles {packages : List (Str × Script)} {path : Str} {f : File Script}
    (h : (scriptFiles packages).files.lookup path = some f) :
    ∃ p ∈ packages, f.content = p.2 := by
  induction packages with
  | nil => simp [scriptFiles] at h
  | cons p rest ih =>
    simp only [scriptFiles, List.foldr_cons, Dict.lookup_insert_eq] at h
    split at h
    · exact ⟨p, by simp, by rw [← Option.some.inj h]⟩
    · obtain ⟨q, hq, heq⟩ := ih h
      exact ⟨q, by simp [hq], heq⟩

/-- A module with a list of strings and with a class whose instances do nothing when run. -/
structure Namespace.Quiet (n : Namespace) : Prop where
  strings : ∃ deps, dependencyList n.dependencies = .ok (some deps)
  packageClass : ∀ klass tick, n.packageClass = some klass →
    ∃ obj, klass tick = .ok obj ∧ obj.run = .ret

theorem quiet_empty : Namespace.empty.Quiet := ⟨⟨[], rfl⟩, by simp [Namespace.empty]⟩

theorem mapM_map_some (names : List Str) : (names.map some).mapM id = some names := by
  induction names with
  | nil => rfl
  | cons n rest ih =>
    rw [List.map_cons, List.mapM_cons, ih]
    rfl

theorem quiet_standard (sha1 : Str) (deps : List Str) (cleanUp : Option PyErr) :
    (Script.standard sha1 deps .ret cleanUp).defines.Quiet := by
  refine ⟨⟨deps, ?_⟩, fun klass tick hk ↦ ?_⟩
  · simp only [Script.standard, dependencyList, mapM_map_some]
  · obtain rfl := Option.some.inj hk
    exact ⟨_, rfl, rfl⟩

def words (line : String) : List Str := line.toList.splitOn ' '

@[irreducible]
def scriptThread (packages : List (Str × Script)) (startupList : Option Str)
    (lines : List String) : Thread Script :=
  serve scriptPlatform (lines.map words) (boot scriptPlatform (scriptFiles packages) startupList)

theorem scriptThread_nil (packages : List (Str × Script)) :
    (scriptThread packages none []).state =
      State.initial scriptPlatform (scriptFiles packages) none := by
  unfold scriptThread
  rfl

theorem reachable_scriptThread {files : FileSystem Script → Prop}
    {packages : List (Str × Script)} (h : files (scriptFiles packages))
    (startupList : Option Str) (lines : List String) :
    Reachable scriptPlatform files (fun _ _ ↦ True)
      (scriptThread packages startupList lines) := by
  unfold scriptThread
  refine reachable_serve scriptPlatform _ (fun msg hmsg ↦ ?_) (reachable_boot _ h startupList)
  obtain ⟨line, -, rfl⟩ := List.mem_map.mp hmsg
  exact List.splitOnP_ne_nil _ _

end Liota.PackageManager
