import Liota.Python.Paths
import Liota.PackageManager.LoadRule

namespace Liota.PackageManager

open Python Python.Computation Python.Text Relation

variable {F : Type} {π : Platform F}

/-- Some candidate file of a package has the given checksum. -/
def Matches (π : Platform F) (fs : FileSystem F) (name sha1 : Str) : Prop :=
  ∃ ext f, fs.file (candidate π name ext) = some f ∧ π.sha1 f.content = sha1

def executed (π : Platform F) (name : Str) (ext : Ext) (content : F) (checksum : Option Str)
    (s : State F) : State F :=
  { s with
    tick := s.tick + 1
    sysModules := s.sysModules.insert (moduleName name)
      ((s.module (moduleName name)).initialise (π.assigns ext content))
    trace := s.trace ++ [.executed name checksum] }

theorem module_executed (name : Str) (ext : Ext) (content : F) (checksum : Option Str)
    (s : State F) (m : Str) :
    (executed π name ext content checksum s).module m =
      if m = moduleName name then (s.module m).initialise (π.assigns ext content)
      else s.module m := by
  simp only [executed, State.module, Dict.lookup_insert_eq]
  split
  · next h => rw [h]; rfl
  · rfl

theorem extensions_complete (ext : Ext) : ext ∈ extensions := by cases ext <;> simp [extensions]

theorem sha1sum_eq_some {fs : FileSystem F} {path sha1 : Str}
    (h : sha1sum π fs path = .ok (some sha1)) :
    ∃ f, fs.file path = some f ∧ f.readable = true ∧ π.sha1 f.content = sha1 := by
  unfold sha1sum at h
  split at h
  · cases h
  · split at h
    · cases h
    · next f hf =>
      split at h
      · next hreadable => exact ⟨f, hf, hreadable, Option.some.inj (Except.ok.inj h)⟩
      · cases h

theorem sha1sum_eq_none {fs : FileSystem F} {path : Str} (h : sha1sum π fs path = .ok none) :
    fs.file path = none := by
  unfold sha1sum at h
  split at h
  · cases h
  · split at h
    · next hf => exact hf
    · split at h <;> cases h

theorem sha1sum_of_readable {fs : FileSystem F} {path : Str} {f : File F} (hnul : nul ∉ path)
    (hf : fs.file path = some f) (hreadable : f.readable = true) :
    sha1sum π fs path = .ok (some (π.sha1 f.content)) := by
  simp only [sha1sum, if_neg hnul, hf, hreadable, if_true]

theorem not_nul_pathFile {name : Str} (h : nul ∉ name) : nul ∉ pathFile π name := by
  intro hmem
  rcases mem_abspath hmem with hslash | hmem
  · exact absurd hslash (by decide)
  · rw [joinPath, List.mem_append, List.mem_append] at hmem
    rcases hmem with (hpath | hslash) | hname
    · exact π.packagePath_nul hpath
    · split at hslash
      · cases hslash
      · exact absurd (List.mem_singleton.mp hslash) (by decide)
    · exact h hname

theorem nul_mem_candidate {name : Str} (ext : Ext) :
    nul ∈ candidate π name ext ↔ nul ∈ pathFile π name := by
  have hext : nul ∉ '.' :: ext.text := by
    cases ext <;> decide
  rw [candidate, List.mem_append, or_iff_left hext]

theorem not_nul_of_checksumList {fs : FileSystem F} {name : Str} {sums : List Str}
    (h : checksumList π fs name extensions = .ok sums) (ext : Ext) :
    nul ∉ candidate π name ext := by
  rw [nul_mem_candidate, ← nul_mem_candidate .py]
  intro hnul
  have hsum : sha1sum π fs (candidate π name .py) = .error .typeError := if_pos hnul
  rw [extensions, checksumList, hsum] at h
  cases h

theorem matches_of_mem_checksumList {fs : FileSystem F} {name sha1 : Str} {exts : List Ext}
    {sums : List Str} (h : checksumList π fs name exts = .ok sums) (hm : sha1 ∈ sums) :
    Matches π fs name sha1 := by
  induction exts generalizing sums with
  | nil =>
    simp only [checksumList, Except.ok.injEq] at h
    simp [← h] at hm
  | cons ext rest ih =>
    rw [checksumList] at h
    rcases hs : sha1sum π fs (candidate π name ext) with e | found <;> rw [hs] at h
    · simp at h
    · rcases hr : checksumList π fs name rest with e | others <;> rw [hr] at h
      · simp at h
      · simp only [Except.ok.injEq] at h
        rw [← h] at hm
        rcases List.mem_append.mp hm with hm | hm
        · obtain rfl : found = some sha1 := by simpa using hm
          obtain ⟨f, hf, -, hsum⟩ := sha1sum_eq_some hs
          exact ⟨ext, f, hf, hsum⟩
        · exact ih hr hm

/-- What is known when `_package_load` comes to the dependencies of a package. -/
structure Opens (π : Platform F) (name : Str) (checksum : Option Str) (extForced : Option Ext)
    (s t : State F) (opened : Opened F) : Prop where
  not_loaded : ¬ s.Loaded name
  under : UnderPackagePath π name
  readable : ∃ sums, checksumList π s.fs name extensions = .ok sums
  ext : fileExt π s.fs name extForced = some opened.ext
  file : ∃ f, s.fs.file (candidate π name opened.ext) = some f ∧ f.readable = true ∧
    f.content = opened.source
  importing : π.importing opened.ext opened.source s.tick = .done
  given : ∀ c, checksum = some c → opened.sha1 = c ∧ Matches π s.fs name c
  hashed : checksum = none → opened.sha1 = π.sha1 opened.source
  after : t = executed π name opened.ext opened.source checksum s
  dependencies : dependencyList (t.module (moduleName name)).dependencies =
    .ok (some opened.dependencies)

theorem verifyIntegrity_eq_some {fs : FileSystem F} {path : Str} {sums : List Str}
    {checksum : Option Str} {sha1 : Str}
    (h : verifyIntegrity π fs path sums checksum = .ok (some sha1)) :
    (∀ c, checksum = some c → sha1 = c ∧ c ∈ sums) ∧
      (checksum = none → sha1sum π fs path = .ok (some sha1)) := by
  cases checksum with
  | some c =>
    simp only [verifyIntegrity, Except.ok.injEq] at h
    obtain rfl : sha1 = c := by simpa using List.find?_some h
    exact ⟨fun c' hc ↦ by
      obtain rfl := Option.some.inj hc
      exact ⟨rfl, List.mem_of_find?_eq_some h⟩, by simp⟩
  | none =>
    simp only [verifyIntegrity] at h
    rcases hs : sha1sum π fs path with e | (_ | x) <;> rw [hs] at h
    · simp at h
    · simp at h
    · simp only [Except.ok.injEq, Option.some.injEq] at h
      exact ⟨by simp, fun _ ↦ by rw [h]⟩

theorem packageModuleLoad_eq_some {name : Str} {ext : Ext} {checksum : Option Str}
    {s t : State F} {source : F}
    (h : packageModuleLoad π name ext checksum s = (.ok (some source), t)) :
    (∃ f, s.fs.file (candidate π name ext) = some f ∧ f.readable = true ∧ f.content = source) ∧
      π.importing ext source s.tick = .done ∧ t = executed π name ext source checksum s := by
  unfold packageModuleLoad at h
  split at h
  · simp at h
  · next f hf =>
    split at h
    · next hreadable =>
      dsimp only at h
      split at h
      · next e _ => cases hexc : e.isLogged <;> simp [hexc] at h
      · next e _ => cases hexc : e.isLogged <;> simp [hexc] at h
      · next hdone =>
        simp only [Prod.mk.injEq, Outcome.ok.injEq, Option.some.injEq] at h
        obtain ⟨rfl, rfl⟩ := h
        exact ⟨⟨f, hf, hreadable, rfl⟩, hdone, rfl⟩
    · simp at h

theorem packageChkExists_ext {fs : FileSystem F} {name : Str} {extForced : Option Ext} {ext : Ext}
    {sums : List Str} (h : packageChkExists π fs name extForced = .ok (some (ext, sums))) :
    UnderPackagePath π name ∧ checksumList π fs name extensions = .ok sums ∧
      fileExt π fs name extForced = some ext := by
  unfold packageChkExists at h
  split at h
  · next hunder =>
    rcases hsums : checksumList π fs name extensions with e | sums' <;> rw [hsums] at h
    · simp at h
    · simp only [Except.ok.injEq, Option.map_eq_some_iff, Prod.mk.injEq] at h
      obtain ⟨ext', hext, rfl, rfl⟩ := h
      exact ⟨hunder, rfl, hext⟩
  · simp at h

theorem openPackage_opens {name : Str} {checksum : Option Str} {extForced : Option Ext}
    {s t : State F} {opened : Opened F}
    (h : openPackage π name checksum extForced s = (.ok (some opened), t)) :
    Opens π name checksum extForced s t opened := by
  unfold openPackage at h
  split at h
  · simp at h
  · next hn =>
    split at h
    · simp at h
    · simp at h
    · next ext sums hchk =>
      split at h
      · simp at h
      · simp at h
      · next sha1 hverify =>
        obtain ⟨loaded, u, hm, hrest⟩ := bind_eq_ok h
        cases loaded with
        | none => simp at hrest
        | some source =>
          obtain ⟨hunder, hsums, hext⟩ := packageChkExists_ext hchk
          obtain ⟨hfile, hdone, hu⟩ := packageModuleLoad_eq_some hm
          obtain ⟨hgiven, hhashed⟩ := verifyIntegrity_eq_some hverify
          dsimp only [readDependencies] at hrest
          rcases hdeps : dependencyList (u.module (moduleName name)).dependencies
            with e | (_ | deps) <;> rw [hdeps] at hrest
          · simp at hrest
          · simp at hrest
          · simp only [Prod.mk.injEq, Outcome.ok.injEq, Option.some.injEq] at hrest
            obtain ⟨rfl, rfl⟩ := hrest
            refine ⟨hn, hunder, ⟨_, hsums⟩, hext, hfile, hdone, fun c hc ↦ ?_, fun hc ↦ ?_,
              hu, hdeps⟩
            · exact ⟨(hgiven c hc).1, matches_of_mem_checksumList hsums (hgiven c hc).2⟩
            · obtain ⟨f, hf, hreadable, rfl⟩ := hfile
              have hsum := hhashed hc
              rw [sha1sum_of_readable (not_nul_of_checksumList hsums ext) hf hreadable,
                Except.ok.injEq, Option.some.injEq] at hsum
              exact hsum.symm

/-- How opening a package changes the state: at most one module file is executed. -/
inductive OpenStep (π : Platform F) (name : Str) (checksum : Option Str)
    (extForced : Option Ext) (s : State F) : State F → Prop
  | unchanged : OpenStep π name checksum extForced s s
  | rejected : OpenStep π name checksum extForced s { s with tick := s.tick + 1 }
  | failed (hgiven : ∀ c, checksum = some c → Matches π s.fs name c) :
      OpenStep π name checksum extForced s
      { s with
        tick := s.tick + 1
        sysModules := s.sysModules.erase (moduleName name)
        trace := s.trace ++ [.executed name checksum] }
  | executed {ext : Ext} {f : File F} (hext : fileExt π s.fs name extForced = some ext)
      (hf : s.fs.file (candidate π name ext) = some f)
      (hdone : π.importing ext f.content s.tick = .done)
      (hgiven : ∀ c, checksum = some c → Matches π s.fs name c) :
      OpenStep π name checksum extForced s
        (PackageManager.executed π name ext f.content checksum s)

theorem OpenStep.modules {name : Str} {checksum : Option Str} {extForced : Option Ext}
    {s t : State F} (h : OpenStep π name checksum extForced s t) :
    (∀ m, t.module m = s.module m) ∨
      (∀ m, t.module m = if m = moduleName name then .empty else s.module m) ∨
      ∃ ext f, fileExt π s.fs name extForced = some ext ∧
        s.fs.file (candidate π name ext) = some f ∧
        ∀ m, t.module m = if m = moduleName name then
          (s.module m).initialise (π.assigns ext f.content) else s.module m := by
  cases h with
  | unchanged | rejected => exact .inl fun _ ↦ rfl
  | failed =>
    refine .inr (.inl fun m ↦ ?_)
    simp only [State.module, Dict.lookup_erase_eq]
    split <;> rfl
  | @executed ext f hext hf =>
    exact .inr (.inr ⟨ext, f, hext, hf, module_executed name ext f.content checksum s⟩)

theorem OpenStep.frame {name : Str} {checksum : Option Str} {extForced : Option Ext}
    {s t : State F} (h : OpenStep π name checksum extForced s t) :
    t.fs = s.fs ∧ t.packagesLoaded = s.packagesLoaded := by
  cases h with
  | unchanged | rejected | failed | executed => exact ⟨rfl, rfl⟩

theorem OpenStep.trace {name : Str} {checksum : Option Str} {extForced : Option Ext}
    {s t : State F} (h : OpenStep π name checksum extForced s t) :
    t.trace = s.trace ∨ t.trace = s.trace ++ [.executed name checksum] ∧
      ∀ c, checksum = some c → Matches π s.fs name c := by
  cases h with
  | unchanged | rejected => exact .inl rfl
  | failed hgiven => exact .inr ⟨rfl, hgiven⟩
  | executed _ _ _ hgiven => exact .inr ⟨rfl, hgiven⟩

theorem openPackage_step (name : Str) (checksum : Option Str) (extForced : Option Ext)
    (s : State F) :
    OpenStep π name checksum extForced s (openPackage π name checksum extForced s).2 := by
  have hmodule (ext : Ext) (hext : fileExt π s.fs name extForced = some ext)
      (hgiven : ∀ c, checksum = some c → Matches π s.fs name c) :
      OpenStep π name checksum extForced s (packageModuleLoad π name ext checksum s).2 := by
    unfold packageModuleLoad
    split
    · exact .unchanged
    · next f hf =>
      split
      · dsimp only
        split
        · exact .rejected
        · exact .failed hgiven
        · next hdone => exact .executed hext hf hdone hgiven
      · exact .unchanged
  unfold openPackage
  split
  · exact .unchanged
  · split
    · exact .unchanged
    · exact .unchanged
    · next ext sums hchk =>
      split
      · exact .unchanged
      · exact .unchanged
      · next sha1 hverify =>
        obtain ⟨-, hsums, hext⟩ := packageChkExists_ext hchk
        have h := hmodule ext hext fun c hc ↦
          matches_of_mem_checksumList hsums ((verifyIntegrity_eq_some hverify).1 c hc).2
        rw [bind_apply]
        rcases hm : packageModuleLoad π name ext checksum s with ⟨(_ | source) | e | _, t⟩ <;>
          rw [hm] at h
        · exact h
        · dsimp only [readDependencies]
          split <;> exact h
        · exact h
        · exact h

/-- A package whose class, constructor or `run` failed. -/
structure StartFails (name : Str) (u : State F)
    (result : Outcome (Option (PackageRecord F)) × State F) : Prop where
  outcome : result.1 = .ok none ∨ ∃ klass obj e registry,
    (u.module (moduleName name)).packageClass = some klass ∧ klass u.tick = .ok obj ∧
      ResourceRegistry.exec name obj.run u.resourceRegistry = (.raised e, registry) ∧
      e.isLogged = false ∧ result.1 = .raised e.leaving
  packagesLoaded : result.2.packagesLoaded = u.packagesLoaded
  registers : ReflTransGen (ResourceRegistry.Registers name) u.resourceRegistry
    result.2.resourceRegistry
  frame : ∃ tick registry, result.2 = { u with tick := tick, resourceRegistry := registry }
  reason : ((u.module (moduleName name)).packageClass = none ∧
      result.2.resourceRegistry = u.resourceRegistry) ∨
    ∃ klass, (u.module (moduleName name)).packageClass = some klass ∧
      ((∃ e, klass u.tick = .error e ∧ result.2.resourceRegistry = u.resourceRegistry) ∨
        ∃ obj e, klass u.tick = .ok obj ∧
          ResourceRegistry.exec name obj.run u.resourceRegistry =
            (.raised e, result.2.resourceRegistry))

def ran (u : State F) (registry : ResourceRegistry) : State F :=
  { u with tick := u.tick + 1, resourceRegistry := registry }

theorem startPackage_cases (name : Str) (checksum : Option Str) (autoload : Bool)
    (opened : Opened F) (u : State F) :
    StartFails name u (startPackage name checksum autoload opened u) ∨
      ∃ klass obj registry, (u.module (moduleName name)).packageClass = some klass ∧
        klass u.tick = .ok obj ∧
        ResourceRegistry.exec name obj.run u.resourceRegistry = (.ok (), registry) ∧
        startPackage name checksum autoload opened u =
          recordPackage name checksum autoload (opened.record obj) (ran u registry) := by
  unfold startPackage
  split
  · next hclass =>
    exact .inl ⟨.inl rfl, rfl, .refl, ⟨u.tick, u.resourceRegistry, rfl⟩, .inl ⟨hclass, rfl⟩⟩
  · next klass hclass =>
    dsimp only
    split
    · next e he =>
      exact .inl ⟨.inl rfl, rfl, .refl, ⟨_, _, rfl⟩, .inr ⟨klass, hclass, .inl ⟨e, he, rfl⟩⟩⟩
    · next obj hobj =>
      have hregs := ResourceRegistry.exec_registers name obj.run u.resourceRegistry
      rcases hexec : ResourceRegistry.exec name obj.run u.resourceRegistry with
        ⟨_ | e | _, registry⟩ <;> rw [hexec] at hregs
      · exact .inr ⟨klass, obj, registry, hclass, hobj, hexec,
          (bind_ok (runInstance_ok (s := { u with tick := u.tick + 1 }) hexec)).trans rfl⟩
      · left
        have hrun := runInstance_raised (s := { u with tick := u.tick + 1 }) hexec
        cases he : e.isLogged with
        | true =>
          rw [bind_ok (hrun.trans (by rw [he]; rfl))]
          exact ⟨.inl rfl, rfl, hregs, ⟨_, _, rfl⟩,
            .inr ⟨klass, hclass, .inr ⟨obj, e, hobj, hexec⟩⟩⟩
        | false =>
          rw [bind_raised (hrun.trans (by rw [he]; rfl))]
          exact ⟨.inr ⟨klass, obj, e, registry, hclass, hobj, hexec, he, rfl⟩, rfl, hregs,
            ⟨_, _, rfl⟩, .inr ⟨klass, hclass, .inr ⟨obj, e, hobj, hexec⟩⟩⟩
      · exact absurd hexec (exec_ne_diverged _ _ _ _)

theorem recordPackage_snd (name : Str) (checksum : Option Str) (autoload : Bool)
    (record : PackageRecord F) (s : State F) :
    ∃ list, (recordPackage name checksum autoload record s).2 =
      { (s.insert name record).log (.loaded name checksum) with startupList := list } := by
  unfold recordPackage
  rw [modify_bind_apply]
  split
  · obtain ⟨list, hl⟩ := writePackageIntoAutoload_frame name record.sha1
      ((s.insert name record).log (.loaded name checksum))
    rw [bind_apply]
    rcases hw : writePackageIntoAutoload name record.sha1
      ((s.insert name record).log (.loaded name checksum)) with ⟨_ | e | _, t⟩ <;>
      rw [hw] at hl <;> exact ⟨list, hl⟩
  · exact ⟨s.startupList, rfl⟩

theorem recordPackage_fst (name : Str) (checksum : Option Str) (autoload : Bool)
    (record : PackageRecord F) (s : State F) :
    (recordPackage name checksum autoload record s).1 = .ok (some record) ∨
      ((recordPackage name checksum autoload record s).1 = .raised .valueError ∧
        autoload = true ∧ ¬ Parseable s.startupList) := by
  unfold recordPackage
  rw [modify_bind_apply]
  split
  · next hauto =>
    rw [bind_apply]
    rcases writePackageIntoAutoload_fst name record.sha1
      ((s.insert name record).log (.loaded name checksum)) with ⟨hpar, h⟩ | ⟨hpar, h⟩ <;>
      rcases hw : writePackageIntoAutoload name record.sha1
        ((s.insert name record).log (.loaded name checksum)) with ⟨o, t⟩ <;> rw [hw] at h <;>
      obtain rfl : o = _ := h
    · exact .inl rfl
    · exact .inr ⟨rfl, hauto, hpar⟩
  · exact .inl rfl

theorem recordPackage_false (name : Str) (checksum : Option Str) (record : PackageRecord F)
    (s : State F) :
    recordPackage name checksum false record s =
      (.ok (some record), (s.insert name record).log (.loaded name checksum)) := rfl

/-- Of the files, the modules and the records, starting a package changes at most its own record. -/
structure StartFrame (name : Str) (opened : Opened F) (u t : State F) : Prop where
  fs : t.fs = u.fs
  sysModules : t.sysModules = u.sysModules
  record : ∀ k r, t.record k = some r → u.record k = some r ∨ k = name ∧
    ∃ klass obj, (u.module (moduleName name)).packageClass = some klass ∧
      klass u.tick = .ok obj ∧ r = opened.record obj

theorem startPackage_startFrame (name : Str) (checksum : Option Str) (autoload : Bool)
    (opened : Opened F) (u : State F) :
    StartFrame name opened u (startPackage name checksum autoload opened u).2 := by
  rcases startPackage_cases name checksum autoload opened u with
    hfail | ⟨klass, obj, registry, hclass, hobj, -, heq⟩
  · obtain ⟨tick, registry, hframe⟩ := hfail.frame
    rw [hframe]
    exact ⟨rfl, rfl, fun _ _ hr ↦ .inl hr⟩
  · obtain ⟨list, hsnd⟩ := recordPackage_snd name checksum autoload (opened.record obj)
      (ran u registry)
    rw [heq, hsnd]
    refine ⟨rfl, rfl, ?_⟩
    intro k r hr
    have hr : ((ran u registry).insert name (opened.record obj)).record k = some r := hr
    rw [State.record_insert] at hr
    split at hr
    · next hk => exact .inr ⟨hk, klass, obj, hclass, hobj, (Option.some.inj hr).symm⟩
    · exact .inl hr

theorem startPackage_module (name : Str) (checksum : Option Str) (autoload : Bool)
    (opened : Opened F) (u : State F) (m : Str) :
    (startPackage name checksum autoload opened u).2.module m = u.module m := by
  simp only [State.module, (startPackage_startFrame name checksum autoload opened u).sysModules]

end Liota.PackageManager
