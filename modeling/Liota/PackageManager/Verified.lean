import Liota.PackageManager.Recording

namespace Liota.PackageManager

open Python Python.Computation Python.Text Relation

variable {F : Type}

section Definitions

variable (π : Platform F)

def Platform.withCode (assigns : Ext → F → Namespace) (importing : Ext → F → ℕ → Import) :
    Platform F := { π with assigns := assigns, importing := importing }

variable (fs : FileSystem F) (upToDate : Str → Bool) (p : Str)

/-- The file that is executed where one with the extension `ext` was found. In place of a source
file `imp.load_source` executes the compiled file beside it, if that can be read and was made from
this version of the source (`upToDate`). -/
def executedFile : Ext → Option (File F)
  | .py =>
    match fs.file (candidate π p .pyc) with
    | some compiled =>
      if upToDate p ∧ compiled.readable then some compiled else fs.file (candidate π p .py)
    | none => fs.file (candidate π p .py)
  | ext => fs.file (candidate π p ext)

variable (extForced : Option Ext) (c : Str)

/-- Whatever the package code does and in whatever state the manager is: if the call records `p`,
then the file that it executed has the checksum that it was given, and so has the record. -/
def ExecutesVerified : Prop :=
  ∀ (assigns : Ext → F → Namespace) (importing : Ext → F → ℕ → Import) (autoload : Bool)
    (s : State F) (r : PackageRecord F), s.fs = fs → ¬ s.Loaded p →
    (packageLoad (π.withCode assigns importing) p (some c) autoload extForced s).2.record p =
      some r →
    ∃ f, executedFile π fs upToDate p r.ext = some f ∧ π.sha1 f.content = c ∧
      r.sha1 = π.sha1 f.content

def FoundVerified : Prop :=
  ∀ sums ext f, UnderPackagePath π p → checksumList π fs p extensions = .ok sums → c ∈ sums →
    fileExt π fs p extForced = some ext → executedFile π fs upToDate p ext = some f →
      π.sha1 f.content = c

end Definitions

section

variable {π : Platform F} {fs : FileSystem F} {upToDate : Str → Bool} {p : Str}
  {extForced : Option Ext} {c : Str}

variable (upToDate) in
theorem exists_executedFile {ext : Ext} {f : File F} (hf : fs.file (candidate π p ext) = some f) :
    ∃ g, executedFile π fs upToDate p ext = some g := by
  cases ext with
  | py =>
    rw [executedFile]
    split
    · split
      · exact ⟨_, rfl⟩
      · exact ⟨f, hf⟩
    · exact ⟨f, hf⟩
  | pyc | pyo => exact ⟨f, hf⟩

theorem FoundVerified.executes (h : FoundVerified π fs upToDate p extForced c) :
    ExecutesVerified π fs upToDate p extForced c := by
  intro assigns importing autoload s r hfs hn hr
  subst hfs
  obtain ⟨u, opened, obj, hopens, rfl⟩ := ((makeCall_ownEffect
    (π := π.withCode assigns importing) ⟨p, some c, autoload, extForced⟩ s).enters r hn hr).opened
  obtain ⟨sums, hsums⟩ := hopens.readable
  obtain ⟨f, hf, -, -⟩ := hopens.file
  obtain ⟨hsha1, hmatch⟩ := hopens.given c rfl
  obtain ⟨g, hg⟩ := exists_executedFile upToDate hf
  have hfound : π.sha1 g.content = c :=
    h sums opened.ext g hopens.under hsums (mem_checksumList hsums hmatch) hopens.ext hg
  exact ⟨g, hg, hfound, hsha1.trans hfound.symm⟩

def plainModule : Namespace where
  dependencies := none
  packageClass := some fun _ ↦ .ok ⟨true, .ret, none, .ret⟩

def Platform.plain (π : Platform F) : Platform F :=
  π.withCode (fun _ _ ↦ plainModule) fun _ _ _ ↦ .done

theorem startPackage_plain {name : Str} {checksum : Option Str} {opened : Opened F} {s : State F}
    (h : (s.module (moduleName name)).packageClass = plainModule.packageClass) :
    (startPackage name checksum false opened s).2.record name =
      some (opened.record ⟨true, .ret, none, .ret⟩) := by
  have hrun : runInstance name ⟨true, .ret, none, .ret⟩ { s with tick := s.tick + 1 } =
      (.ok true, { s with tick := s.tick + 1 }) := runInstance_ok rfl
  have hstart : startPackage name checksum false opened s =
      recordPackage name checksum false (opened.record ⟨true, .ret, none, .ret⟩)
        { s with tick := s.tick + 1 } := by
    unfold startPackage
    rw [h]
    exact (bind_ok hrun).trans rfl
  rw [hstart]
  exact (recordPackage_ownEffect name checksum false _ _).1

theorem packageLoad_plain {sums : List Str} {ext : Ext} {f : File F}
    (hunder : UnderPackagePath π p) (hsums : checksumList π fs p extensions = .ok sums)
    (hmem : c ∈ sums) (hext : fileExt π fs p extForced = some ext)
    (hf : fs.file (candidate π p ext) = some f) :
    ∃ r, r.ext = ext ∧ (packageLoad π.plain p (some c) false extForced
      (State.initial π fs none)).2.record p = some r := by
  have hreadable := readable_of_checksumList hsums (extensions_complete ext) hf
  have hverify : verifyIntegrity π fs (candidate π p ext) sums (some c) = .ok (some c) :=
    congrArg Except.ok (find?_eq_some_of_mem hmem)
  have hempty : ¬ (State.initial π fs none).Loaded p := by
    simp [State.Loaded, State.initial]
  have hopen : openPackage π.plain p (some c) extForced (State.initial π fs none) =
      (.ok (some ⟨ext, c, [], f.content⟩),
        executed π.plain p ext f.content (some c) (State.initial π fs none)) :=
    openPackage_eq hempty hunder hsums hext hf hreadable hverify rfl rfl
  refine ⟨Opened.record ⟨ext, c, [], f.content⟩ ⟨true, .ret, none, .ret⟩, rfl, ?_⟩
  rw [packageLoad, loadFuel, bind_ok hopen]
  apply startPackage_plain
  rw [module_executed, if_pos rfl]
  rfl

/-- The file that is executed always has the checksum that was given if and only if the checksums
of other candidates do not stand in for it. -/
theorem executes_verified_iff :
    ExecutesVerified π fs upToDate p extForced c ↔ FoundVerified π fs upToDate p extForced c := by
  constructor
  · intro h sums ext f hunder hsums hmem hext hf
    obtain ⟨g, hg⟩ := isfile_of_fileExt hext
    obtain ⟨r, rfl, hr⟩ := packageLoad_plain hunder hsums hmem hext hg
    have hempty : ¬ (State.initial π fs none).Loaded p := by
      simp [State.Loaded, State.initial]
    obtain ⟨f', hf', hsha1, -⟩ := h _ _ false (State.initial π fs none) r rfl hempty hr
    obtain rfl := Option.some.inj (hf.symm.trans hf')
    exact hsha1
  · exact FoundVerified.executes

end

def twoVersions : FileSystem Script :=
  let files := scriptFiles [("p".toList, .standard "2".toList [] .ret none)]
  { files with
    files := files.files.insert (candidate scriptPlatform "p".toList .pyc)
      ⟨.standard "1".toList [] .ret none, true⟩ }

/-- The checksum of the compiled file lets the source file be executed. -/
theorem other_file_verified :
    ¬ ∀ (fs : FileSystem Script) (upToDate : Str → Bool) (p : Str) (extForced : Option Ext)
      (c : Str), ExecutesVerified scriptPlatform fs upToDate p extForced c := by
  intro h
  let s := State.initial scriptPlatform twoVersions none
  have hload : ((packageLoad scriptPlatform "p".toList (some "1".toList) false none s).2.record
      "p".toList).map PackageRecord.ext = some .py := by decide
  obtain ⟨r, hr, hext⟩ := Option.map_eq_some_iff.mp hload
  have hempty : ¬ s.Loaded "p".toList := by decide
  have hsource : (executedFile scriptPlatform twoVersions (fun _ ↦ false) "p".toList .py).map
      (fun f ↦ f.content.sha1) = some "2".toList := by decide
  obtain ⟨f, hf, hsha1, -⟩ := h twoVersions (fun _ ↦ false) "p".toList none "1".toList
    scriptPlatform.assigns scriptPlatform.importing false s r rfl hempty hr
  rw [← hext, hf, Option.map_some, Option.some.injEq] at hsource
  exact absurd (hsha1.symm.trans hsource) (by decide)

end Liota.PackageManager
