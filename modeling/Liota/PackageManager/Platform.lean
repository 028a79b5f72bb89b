import Liota.Python.Computation
import Liota.Python.Dict

namespace Liota.PackageManager

open Python Python.Computation Python.Text

inductive Ext
  | py | pyc | pyo
  deriving DecidableEq, Repr

def Ext.text : Ext → Str
  | .py => "py".toList
  | .pyc => "pyc".toList
  | .pyo => "pyo".toList

def extensions : List Ext := [.py, .pyc, .pyo]

/-- A resource reference kept in the registry. The manager never looks into it. -/
inductive Ref
  | text (s : Str)
  | object (id : ℕ)
  deriving DecidableEq, Repr

/-- The body of `PackageClass.run` as far as the manager can observe it: the calls on the
`ResourceRegistryPerPackage` it was given, in order, and how it ends. `register` and `get`
raise `KeyError` to the package, which may go on from there. -/
inductive RunProg
  | ret
  | raise (e : PyErr)
  | register (identifier : Str) (ref : Ref) (registered conflict : RunProg)
  | has (identifier : Str) (yes no : RunProg)
  | get (identifier : Str) (k : Option Ref → RunProg)

/-- The code calls `register` nowhere. -/
def RunProg.RegistersNothing : RunProg → Prop
  | .ret => True
  | .raise _ => True
  | .register .. => False
  | .has _ yes no => yes.RegistersNothing ∧ no.RegistersNothing
  | .get _ k => ∀ ref, (k ref).RegistersNothing

/-- What `PackageClass()` returns: what `run` does, how `clean_up` ends, and what it does before
with the registry that the instance may have kept from `run`. -/
structure Instance where
  isLiotaPackage : Bool
  run : RunProg
  cleanUp : Option PyErr
  atCleanUp : RunProg

/-- A package class; the outcome of its constructor may differ from call to call. -/
abbrev PackageClass := ℕ → Except PyErr Instance

/-- The value of a module's `dependencies`. Items that are not byte strings are `none`. -/
inductive DependencyValue
  | notList
  | list (items : List (Option Str))
  deriving DecidableEq, Repr

structure Namespace where
  dependencies : Option DependencyValue
  packageClass : Option PackageClass

def Namespace.empty : Namespace := ⟨none, none⟩

/-- `imp.load_source` and `imp.load_compiled` initialise an already imported module again in
its old dictionary, so a name that the new code does not assign keeps its old value. -/
def Namespace.initialise (old assigned : Namespace) : Namespace :=
  ⟨assigned.dependencies <|> old.dependencies, assigned.packageClass <|> old.packageClass⟩

/-- How executing a module file ends. A file that does not compile leaves `sys.modules`
alone; a body that raises has its module removed from it. -/
inductive Import
  | done
  | rejected (e : PyErr)
  | failed (e : PyErr)

def nul : Char := Char.ofNat 0

/-- What the manager takes from outside: its configuration, SHA-1, the meaning of package
files with contents in `F`, the order in which dictionaries list their keys, which registered
identifiers are strings, and when the names of all threads can be printed. -/
structure Platform (F : Type) where
  packagePath : Str
  packagePath_abs : abspath packagePath = packagePath
  packagePath_nul : nul ∉ packagePath
  sha1 : F → Str
  assigns : Ext → F → Namespace
  importing : Ext → F → ℕ → Import
  keys : List Str → List Str
  keys_perm : ∀ l, (keys l).Perm l
  isText : Str → Bool
  isText_packageConf : isText "package_conf".toList = true
  listsThreads : ℕ → Bool

structure File (F : Type) where
  content : F
  readable : Bool

/-- Files are keyed by normalised absolute path. The three predicates are the permissions
that decide whether a change is refused with `OSError`. -/
structure FileSystem (F : Type) where
  files : Dict (File F)
  dirs : List Str
  mayMakedirs : Str → Bool
  mayRename : Str → Str → Bool
  mayRemove : Str → Bool

/-- The path is that of a directory or of something in it. -/
def Inside (dir path : Str) : Prop := path = dir ∨ dir ++ ['/'] <+: path

instance (dir path : Str) : Decidable (Inside dir path) := inferInstanceAs (Decidable (_ ∨ _))

/-- Where a path leads once the directory `src` was moved to `dst`. -/
def relocated (src dst path : Str) : Str :=
  if Inside src path then dst ++ path.drop src.length else path

namespace FileSystem

variable {F : Type}

def file (fs : FileSystem F) (path : Str) : Option (File F) := fs.files.lookup (abspath path)

def isfile (fs : FileSystem F) (path : Str) : Bool := (fs.file path).isSome

def isdir (fs : FileSystem F) (path : Str) : Bool := abspath path ∈ fs.dirs

def pathExists (fs : FileSystem F) (path : Str) : Bool := fs.isfile path || fs.isdir path

def makedirs (fs : FileSystem F) (path : Str) : Option (FileSystem F) :=
  if fs.mayMakedirs path then some { fs with dirs := abspath path :: fs.dirs } else none

/-- There is nothing at the path, or a directory without contents. -/
def vacant (fs : FileSystem F) (path : Str) : Bool :=
  !fs.isfile path && (fs.files.keys ++ fs.dirs).all fun x ↦ ¬ abspath path ++ ['/'] <+: x

def relocate (fs : FileSystem F) (src dst : Str) : FileSystem F where
  files := fs.files.rekey (relocated src dst)
  dirs := fs.dirs.map (relocated src dst)
  mayMakedirs := fs.mayMakedirs
  mayRename := fs.mayRename
  mayRemove := fs.mayRemove

/-- A file replaces another, and a directory an empty one. -/
def rename (fs : FileSystem F) (src dst : Str) : Option (FileSystem F) :=
  if fs.isdir (dirname (abspath dst)) ∧ fs.mayRename src dst then
    match fs.file src with
    | some f =>
      if fs.isdir dst then none
      else some { fs with files := (fs.files.erase (abspath src)).insert (abspath dst) f }
    | none =>
      if ¬ fs.isdir src then none
      else if abspath src = abspath dst then some fs
      else if Inside (abspath src) (abspath dst) ∨ ¬ fs.vacant dst then none
      else some (fs.relocate (abspath src) (abspath dst))
  else none

theorem rename_eq_some {fs fs' : FileSystem F} {src dst : Str} (h : fs.rename src dst = some fs') :
    fs.isdir (dirname (abspath dst)) = true ∧ fs.mayRename src dst = true ∧
      ((∃ f, fs.file src = some f ∧ fs.isdir dst = false ∧ fs' =
          { fs with files := (fs.files.erase (abspath src)).insert (abspath dst) f }) ∨
        fs' = fs ∨ fs' = fs.relocate (abspath src) (abspath dst)) := by
  unfold rename at h
  split at h
  · next hmay =>
    refine ⟨hmay.1, hmay.2, ?_⟩
    split at h
    · next f hf =>
      split at h
      · cases h
      · next hdir => exact .inl ⟨f, hf, by simpa using hdir, (Option.some.inj h).symm⟩
    · right
      split at h
      · cases h
      · split at h
        · exact .inl (Option.some.inj h).symm
        · split at h
          · cases h
          · exact .inr (Option.some.inj h).symm
  · cases h

theorem rename_file {fs : FileSystem F} {src dst : Str} (hsrc : fs.isdir src = false) :
    fs.rename src dst =
      match fs.file src with
      | some f =>
        if fs.isdir (dirname (abspath dst)) ∧ fs.mayRename src dst ∧ fs.isdir dst = false then
          some { fs with files := (fs.files.erase (abspath src)).insert (abspath dst) f }
        else none
      | none => none := by
  unfold rename
  rw [hsrc]
  cases fs.file src with
  | none => simp
  | some f => cases fs.isdir dst <;> simp

def remove (fs : FileSystem F) (path : Str) : Option (FileSystem F) :=
  if fs.isfile path ∧ fs.mayRemove path then
    some { fs with files := fs.files.erase (abspath path) }
  else none

end FileSystem

section Paths

variable {F : Type} (π : Platform F)

/-- `package_path + c_slash + name`, which adds a slash only where one is missing. -/
def joinPath (name : Str) : Str :=
  π.packagePath ++ (if ['/'] <:+ π.packagePath then [] else ['/']) ++ name

def pathFile (fileName : Str) : Str := abspath (joinPath π fileName)

def candidate (fileName : Str) (ext : Ext) : Str := pathFile π fileName ++ '.' :: ext.text

/-- `sha1sum` of a path with a NUL raises `TypeError`, and of a file that cannot be opened
`IOError`. -/
def sha1sum (fs : FileSystem F) (path : Str) : Except PyErr (Option Str) :=
  if nul ∈ path then .error .typeError
  else match fs.file path with
  | none => .ok none
  | some f => if f.readable then .ok (some (π.sha1 f.content)) else .error .ioError

end Paths

end Liota.PackageManager
