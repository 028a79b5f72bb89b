import Liota.PackageManager.Restoring
import Liota.PackageManager.Teardown

namespace Liota.PackageManager

open Python Python.Computation Python.Text Relation

variable {F : Type} {π : Platform F}

section Sourced

/-- The files meet a requirement, and every loaded package lies under the package path and was
loaded from a file that does. -/
structure State.Sourced (π : Platform F) (P : Ext → F → Prop) (s : State F) : Prop where
  files : s.fs.All P
  records : ∀ k r, s.record k = some r → UnderPackagePath π k ∧ P r.ext r.source

variable {P : Ext → F → Prop}

theorem State.Sourced.relinks {s t : State F} (hs : s.Sourced π P) (h : Relinks s t) :
    t.Sourced π P where
  files := by
    rw [h.fs]
    exact hs.files
  records k r hr := by
    obtain ⟨dependents, hr'⟩ := h.record k r hr
    have hold := hs.records k { r with dependents := dependents } hr'
    exact hold

theorem openPackage_sourced {call : Call} {s t : State F} {o : Outcome (Option (Opened F))}
    (ho : openPackage π call.name call.checksum call.ext s = (o, t)) (hs : s.Sourced π P) :
    t.Sourced π P := by
  have hstep := openPackage_step (π := π) call.name call.checksum call.ext s
  rw [ho] at hstep
  obtain ⟨hfs, hloaded⟩ : t.fs = s.fs ∧ t.packagesLoaded = s.packagesLoaded := hstep.frame
  refine ⟨hfs ▸ hs.files, fun k r hr ↦ ?_⟩
  simp only [State.record, hloaded] at hr
  exact hs.records k r hr

theorem startPackage_sourced {name : Str} (hname : UnderPackagePath π name) {opened : Opened F}
    (hopened : P opened.ext opened.source) (checksum : Option Str) (autoload : Bool)
    {u : State F} (hu : u.Sourced π P) :
    (startPackage name checksum autoload opened u).2.Sourced π P := by
  have hframe := startPackage_startFrame name checksum autoload opened u
  refine ⟨hframe.fs ▸ hu.files, fun k r hr ↦ ?_⟩
  rcases hframe.record k r hr with hr | ⟨rfl, klass, obj, -, -, rfl⟩
  · exact hu.records k r hr
  · exact ⟨hname, hopened⟩

theorem sourced_loadRule : LoadRule π (fun _ _ s _ t ↦ s.Sourced π P → t.Sourced π P)
    (fun _ _ _ s _ t ↦ s.Sourced π P → t.Sourced π P) where
  outOfFuel _ _ _ := id
  closed _ ho := openPackage_sourced ho
  refused _ ho := openPackage_sourced ho
  stopped _ ho hQ _ _ := fun hs ↦ hQ (openPackage_sourced ho hs)
  started _ ho hQ _ _ := by
    intro hs
    have hopens := openPackage_opens ho
    obtain ⟨f, hf, -, hsource⟩ := hopens.file
    apply startPackage_sourced hopens.under
    · exact hsource ▸ hs.files _ f hf _
    · exact hQ (openPackage_sourced ho hs)
  done _ _ _ := id
  cycle _ _ _ := id
  present _ _ _ hQ := fun hs ↦ hQ (hs.relinks (addDependent_relinks _ _ _))
  pulled _ _ _ hP _ _ hQ := fun hs ↦ hQ ((hP hs).relinks (addDependent_relinks _ _ _))
  missing _ _ hP _ _ := hP

theorem covers_sourced : Covers π (fun s t : State F ↦ s.Sourced π P → t.Sourced π P) := by
  refine covers_of_updates (fun _ ↦ id) (fun _ _ _ h h' hs ↦ h' (h hs)) ?_ ?_ ?_ ?_
  · intro name checksum autoload ext s
    exact sourced_loadRule.packageLoad name checksum autoload ext s
  · intro name track s hs
    exact hs.relinks (packageUnload_shrinks π name track s).relinks
  · intro s list hs
    exact hs.relinks (relinks_of_eq rfl rfl rfl)
  · intro s fs hfs hs
    exact ⟨hs.files.edits hfs, hs.records⟩

theorem Reachable.sourced {files : FileSystem F → Prop} {condition : State F → Request → Prop}
    (hfiles : ∀ fs, files fs → fs.All P) {t : Thread F} (ht : Reachable π files condition t) :
    t.state.Sourced π P := by
  refine ht.invariant (fun fs startupList hfs ↦ ⟨hfiles fs hfs, fun k r hr ↦ ?_⟩)
    (fun s fs startupList hfs hs ↦ ⟨hfiles fs hfs, hs.records⟩)
    fun s request _ hs ↦ covers_sourced.perform request s hs
  simp [State.record, State.initial] at hr

theorem Reachable.under {files : FileSystem F → Prop} {condition : State F → Request → Prop}
    {t : Thread F} (ht : Reachable π files condition t) {k : Str} (hk : t.state.Loaded k) :
    UnderPackagePath π k := by
  obtain ⟨r, hr⟩ := State.loaded_iff.mp hk
  have hs := ht.sourced (P := fun _ _ ↦ True) fun _ _ _ _ _ _ ↦ trivial
  exact (hs.records k r hr).1

end Sourced

/-- The file that a package was loaded from is still there, its candidate files can be read, and
the recorded checksum is that of one of them. -/
structure Unchanged (π : Platform F) (fs : FileSystem F) (q : Str) (r : PackageRecord F) :
    Prop where
  file : ∃ f, fs.file (candidate π q r.ext) = some f ∧ f.content = r.source
  readable : ∃ sums, checksumList π fs q extensions = .ok sums
  recorded : Matches π fs q r.sha1

theorem Unchanged.foundFile_forced {fs : FileSystem F} {q : Str} {r : PackageRecord F}
    (h : Unchanged π fs q r) : foundFile π fs q (some r.ext) = some (r.ext, r.source) := by
  obtain ⟨f, hf, hcontent⟩ := h.file
  have hisfile : fs.isfile (candidate π q r.ext) = true := by simp [FileSystem.isfile, hf]
  have hext : fileExt π fs q (some r.ext) = some r.ext := if_pos hisfile
  rw [(defines_eq hext hf).1, hcontent]

/-- `q` is loaded above one of `tops`, or is one of them. -/
def State.Above (s : State F) (tops : Str → Prop) (q : Str) : Prop :=
  ∃ p, tops p ∧ s.Loaded p ∧ s.Up p q

/-- What is loaded above `tops` can be unloaded and loaded again: its files are unchanged, and once
it is gone, executing and running them goes as before. -/
structure Repeatable (π : Platform F) (sources : Str → Ext → F → Prop)
    (post : Str → List Str → Prop) (s : State F) (tops : Str → Prop) : Prop where
  unchanged : ∀ q r, s.Above tops q → s.record q = some r → Unchanged π s.fs q r
  repeats : ∀ names, Enumerates s tops names → ∀ q ∈ names, ∀ r, s.record q = some r →
    Repeats π sources (retireAll s names) post q r

/-- No two packages above `tops` share a module. -/
def State.ModulesApart (s : State F) (tops : Str → Prop) : Prop :=
  ∀ q q', s.Above tops q → s.Above tops q' → moduleName q = moduleName q' → q = q'

section Restorable

variable {condition : State F → Request → Prop} {t : Thread F} {tops : Str → Prop}
  {names : List Str} {sources : Str → Ext → F → Prop} {post : Str → List Str → Prop}

theorem Reachable.loaded_dependency (ht : Reachable π (FileSystem.Documented π) condition t)
    {q d : Str} (hd : d ∈ t.state.dependencies q) : q ∈ t.state.dependents d := by
  refine ht.consistent.linked q ?_ d hd
  obtain ⟨r, hr⟩ := State.loaded_iff.mp (State.loaded_of_mem_dependencies hd)
  rw [State.dependencies_of_record hr]
  exact (ht.documented.records q r hr).1

theorem Enumerates.not_loaded_retireAll {s : State F} (h : Enumerates s tops names) {q : Str}
    (hq : q ∈ names) : ¬ (retireAll s names).Loaded q := by
  intro hl
  exact ((loaded_retireAll h.nodup q).mp hl).1 hq

theorem Enumerates.mem_of_gone {s : State F} (h : Enumerates s tops names) {q : Str}
    (hl : s.Loaded q) (hgone : ¬ (retireAll s names).Loaded q) : q ∈ names := by
  by_contra hq
  exact hgone ((loaded_retireAll h.nodup q).mpr ⟨hq, hl⟩)

theorem Reachable.reopens {files : FileSystem F → Prop} (ht : Reachable π files condition t)
    (hnames : Enumerates t.state tops names) (call : Call) {r : PackageRecord F}
    (hq : call.name ∈ names) (hr : t.state.record call.name = some r)
    (hun : Unchanged π t.state.fs call.name r)
    (hfound : foundFile π t.state.fs call.name call.ext = some (r.ext, r.source))
    (hgiven : ∀ c, call.checksum = some c → c = r.sha1) :
    Reopens π t.state (retireAll t.state names) call r where
  record := hr
  gone := hnames.not_loaded_retireAll hq
  under := ht.under (State.loaded_of_record hr)
  readable := by
    rw [(frame_retireAll t.state names).2.1]
    exact hun.readable
  found := by
    rw [(frame_retireAll t.state names).2.1]
    exact hfound
  given c hc := by
    rw [(frame_retireAll t.state names).2.1, hgiven c hc]
    exact hun.recorded

theorem Reachable.restorable (ht : Reachable π (FileSystem.Documented π) condition t)
    (hnames : Enumerates t.state tops names) (pull : Str → Prop)
    (hrepeats : ∀ q ∈ names, ∀ r, t.state.record q = some r →
      Repeats π sources (retireAll t.state names) post q r ∧ sources q r.ext r.source)
    (hpull : ∀ d, pull d → d ∈ names ∧ ∀ r, t.state.record d = some r →
      Unchanged π t.state.fs d r ∧ FoundFirst π t.state.fs d r.ext r.source ∧
      ∀ e ∈ r.dependencies, e ∈ names → pull e)
    (hapart : ∀ d, pull d → ∀ y ∈ names, moduleName y = moduleName d → y = d) :
    ∃ rank, Restorable π sources t.state (retireAll t.state names) post pull rank := by
  obtain ⟨rank, hrank⟩ := ht.consistent.ranked
  refine ⟨rank, ?_, ?_, ?_, ?_, ?_⟩
  · intro q r hr hgone
    exact (hrepeats q (hnames.mem_of_gone (State.loaded_of_record hr) hgone) r hr).1
  · intro q r hr hgone
    exact (hrepeats q (hnames.mem_of_gone (State.loaded_of_record hr) hgone) r hr).2
  · intro q r d hr hd
    have hmem := ht.loaded_dependency (by rwa [State.dependencies_of_record hr])
    exact ⟨State.loaded_of_mem_dependents hmem, hrank d q ⟨hmem, State.loaded_of_record hr⟩⟩
  · intro d hd
    obtain ⟨hdn, hrecord⟩ := hpull d hd
    obtain ⟨r, hr⟩ := State.loaded_iff.mp (hnames.loaded hdn)
    obtain ⟨hun, hfirst, hdeps⟩ := hrecord r hr
    refine ⟨r, ht.reopens hnames (.ofDependency d) hdn hr hun hfirst ?_, fun e he ↦ ?_⟩
    · intro c hc
      cases hc
    · by_cases hen : e ∈ names
      · exact .inr (hdeps e he hen)
      · have hmem := ht.loaded_dependency (by rwa [State.dependencies_of_record hr])
        exact .inl ((loaded_retireAll hnames.nodup e).mpr
          ⟨hen, State.loaded_of_mem_dependents hmem⟩)
  · intro d y hd hl hgone hm
    exact hapart d hd y (hnames.mem_of_gone hl hgone) hm

end Restorable

section Scripts

/-- A package with the usual definitions, whose `run` is among some programs. -/
def Script.Runs (R : RunProg → Prop) (script : Script) : Prop :=
  ∃ sha1 deps run cleanUp, deps.Nodup ∧ R run ∧ script = .standard sha1 deps run cleanUp

def withFile (name : Str) (ext : Ext) (file : File Script) (fs : FileSystem Script) :
    FileSystem Script :=
  { fs with files := fs.files.insert (candidate scriptPlatform name ext) file }

theorem all_withFile {P : Ext → Script → Prop} {fs : FileSystem Script} (hfs : fs.All P)
    (file : File Script) (h : ∀ ext, P ext file.content) (name : Str) (ext : Ext) :
    (withFile name ext file fs).All P := by
  intro path f hf
  simp only [withFile, Dict.lookup_insert_eq] at hf
  split at hf
  · obtain rfl := Option.some.inj hf
    exact h
  · exact hfs path f hf

theorem all_scriptFiles {P : Ext → Script → Prop} {packages : List (Str × Script)}
    (h : ∀ p ∈ packages, ∀ ext, P ext p.2) : (scriptFiles packages).All P := by
  intro path f hf
  obtain ⟨p, hp, heq⟩ := mem_scriptFiles hf
  exact heq ▸ h p hp

theorem Reachable.mono {files files' : FileSystem F → Prop}
    {condition : State F → Request → Prop} (hfiles : ∀ fs, files fs → files' fs) {t : Thread F}
    (ht : Reachable π files condition t) : Reachable π files' condition t := by
  induction ht with
  | init hfs => exact .init (hfiles _ hfs)
  | environment _ hfs ih => exact .environment ih (hfiles _ hfs)
  | start _ hs ih => exact .start ih hs
  | message _ hmsg hs ih => exact .message ih hmsg hs

/-- The programs of instances whose `clean_up` registers nothing, as a convention. -/
def runsAmong (R : RunProg → Prop) : Convention scriptPlatform where
  file _ content := content.Runs R
  module n := ∀ klass tick obj, n.packageClass = some klass → klass tick = .ok obj →
    (R obj.run ∧ obj.atCleanUp = .ret) ∧ klass 0 = .ok obj
  list _ := True
  object obj := R obj.run ∧ obj.atCleanUp = .ret
  empty klass _ _ h := by cases h
  initialise {old assigned} hold hnew klass tick obj hk hobj := by
    rcases ha : assigned.packageClass with _ | k
    · exact hold klass tick obj (by simpa [Namespace.initialise, ha] using hk) hobj
    · exact hnew klass tick obj (by simpa [Namespace.initialise, ha] using hk) hobj
  assigns {ext content _} h _ klass tick obj hk hobj := by
    obtain ⟨sha1, deps, run, cleanUp, -, hrun, rfl⟩ := h
    obtain rfl := Option.some.inj hk
    obtain rfl := Except.ok.inj hobj
    exact ⟨⟨hrun, rfl⟩, rfl⟩
  dependencies _ _ := trivial
  constructs h hk hobj := (h _ _ _ hk hobj).1

theorem ReadySteps.module {c : Convention π} {sources : Str → Ext → F → Prop} {s u : State F}
    (h : ReadySteps π sources s u) (hfiles : s.fs.All c.file) (hs : ∀ m, c.module (s.module m)) :
    ∀ m, c.module (u.module m) := by
  induction h with
  | refl => exact hs
  | @tail u v hsteps hstep ih =>
    intro m
    cases hstep with
    | quiet _ hmodule =>
      rcases hmodule m with heq | heq
      · exact heq ▸ ih m
      · rw [heq]
        exact c.empty
    | @imported name ext f _ hf _ hdone ht =>
      subst ht
      rw [(ReadySteps.steps hsteps).fs] at hf
      rw [module_executed]
      split
      · exact c.initialise (ih m) (c.assigns (hfiles _ f hf ext) hdone)
      · exact ih m
    | raised _ _ _ _ ht | loaded _ _ _ _ _ _ ht =>
      subst ht
      exact ih m

def RunsAlone (p : Str) (R : RunProg → Prop) (m : Str) (n : Namespace) : Prop :=
  ∀ klass tick obj, n.packageClass = some klass → klass tick = .ok obj →
    obj.run = .ret ∨ m = moduleName p ∧ R obj.run

theorem RunsAlone.initialise {p m : Str} {R : RunProg → Prop} {old assigned : Namespace}
    (hold : RunsAlone p R m old) (hnew : RunsAlone p R m assigned) :
    RunsAlone p R m (old.initialise assigned) := by
  intro klass tick obj hk hobj
  rcases ha : assigned.packageClass with _ | k
  · exact hold klass tick obj (by simpa [Namespace.initialise, ha] using hk) hobj
  · exact hnew klass tick obj (by simpa [Namespace.initialise, ha] using hk) hobj

/-- Where one package only does anything when it is run, and its `run` succeeds, nothing is
registered for others, and nothing at all before it is loaded. -/
theorem ReadySteps.registry_alone {R : RunProg → Prop} {sources : Str → Ext → Script → Prop}
    {s u : State Script} {p : Str} (h : ReadySteps scriptPlatform sources s u)
    (hs : ∀ m, RunsAlone p R m (s.module m))
    (hsources : ∀ name ext content, sources name ext content →
      RunsAlone p R (moduleName name) content.defines)
    (honly : ∀ name ext content, sources name ext content → moduleName name = moduleName p →
      name = p)
    (hruns : ∀ run, R run → ∃ registry, ResourceRegistry.exec p run s.resourceRegistry =
      (.ok (), registry)) :
    (∀ m, RunsAlone p R m (u.module m)) ∧ (∀ q, q ≠ p → u.owned q = s.owned q) ∧
      (u.Loaded p ∨ u.resourceRegistry = s.resourceRegistry) := by
  induction h with
  | refl => exact ⟨hs, fun _ _ ↦ rfl, .inr rfl⟩
  | @tail u v hsteps hstep ih =>
    obtain ⟨hmodules, howned, ih⟩ := ih
    have hname {name : Str} (hready : Ready scriptPlatform sources u name)
        (hm : moduleName name = moduleName p) : name = p := by
      obtain ⟨-, ext, f, _, _, _, hsource, -⟩ := hready
      exact honly name ext f.content hsource hm
    have hkeep (hreg : v.resourceRegistry = u.resourceRegistry) :
        (∀ q, q ≠ p → v.owned q = s.owned q) ∧
          (v.Loaded p ∨ v.resourceRegistry = s.resourceRegistry) := by
      refine ⟨fun q hq ↦ ?_, ?_⟩
      · rw [State.owned, hreg]
        exact howned q hq
      · exact ih.imp (fun hl ↦ ReadySteps.loaded (.single hstep) hl) fun hu ↦ hreg.trans hu
    cases hstep with
    | quiet _ hmodule hreg =>
      refine ⟨fun m ↦ ?_, hkeep hreg⟩
      rcases hmodule m with heq | heq
      · exact heq ▸ hmodules m
      · rw [heq]
        intro klass tick obj hk
        cases hk
    | @imported name ext f _ _ hsource _ ht =>
      subst ht
      refine ⟨fun m ↦ ?_, hkeep rfl⟩
      rw [module_executed]
      split
      · next hm =>
        subst hm
        exact (hmodules _).initialise (hsources name ext f.content hsource)
      · exact hmodules m
    | raised hready hclass hobj hexec ht =>
      subst ht
      refine ⟨hmodules, ?_⟩
      rcases hmodules _ _ _ _ hclass hobj with hret | ⟨hm, hrun⟩
      · rw [hret] at hexec
        cases hexec
      · obtain ⟨registry, hok⟩ := hruns _ hrun
        have hp := hname hready hm
        have hu := ih.resolve_left (hp ▸ hready.1)
        rw [hp, hu, hok] at hexec
        cases hexec
    | @loaded name _ _ r _ _ hready hclass hobj hexec _ _ ht =>
      subst ht
      refine ⟨hmodules, ?_⟩
      rcases hmodules _ _ _ _ hclass hobj with hret | ⟨hm, -⟩
      · rw [hret] at hexec
        obtain ⟨-, rfl⟩ := Prod.mk.inj hexec
        exact hkeep rfl
      · obtain rfl := hname hready hm
        refine ⟨fun q hq ↦ ?_, .inl ((State.loaded_insert name name r _).mpr (.inl rfl))⟩
        have hregs := ResourceRegistry.exec_registers name r.obj.run u.resourceRegistry
        rw [hexec] at hregs
        exact (owned_of_registers hregs hq).trans (howned q hq)

theorem ReadySteps.registry_plain {sources : Str → Ext → Script → Prop} {s u : State Script}
    (h : ReadySteps scriptPlatform sources s u) (hfiles : s.fs.All (runsAmong (· = .ret)).file)
    (hs : ∀ m, (runsAmong (· = .ret)).module (s.module m)) :
    u.resourceRegistry = s.resourceRegistry := by
  induction h with
  | refl => rfl
  | @tail u v hsteps hstep ih =>
    have hmodules := ReadySteps.module (c := runsAmong (· = .ret)) hsteps hfiles hs
    cases hstep with
    | quiet _ _ hreg => exact hreg.trans ih
    | imported _ _ _ ht =>
      subst ht
      exact ih
    | raised _ hclass hobj hexec =>
      rw [(hmodules _ _ _ _ hclass hobj).1.1] at hexec
      cases hexec
    | loaded _ hclass hobj hexec _ _ ht =>
      subst ht
      rw [(hmodules _ _ _ _ hclass hobj).1.1] at hexec
      obtain ⟨-, rfl⟩ := Prod.mk.inj hexec
      exact ih

/-- A thread whose package files are scripts from a list, told apart by their checksums, with what
can be evaluated about its loaded packages: their files are unchanged and list the dependencies
that were recorded. -/
structure ScriptThread (R : RunProg → Prop) (L : List Script) (t : Thread Script) : Prop where
  reachable : Reachable scriptPlatform (FileSystem.All fun _ script ↦ script ∈ L)
    (fun _ _ ↦ True) t
  runs : ∀ script ∈ L, script.Runs R
  distinct : (L.map Script.sha1).Nodup
  files : t.state.packagesLoaded.entries.all fun e ↦
    (t.state.fs.file (candidate scriptPlatform e.1 e.2.ext)).map (·.content.sha1) =
      some e.2.source.sha1
  dependencies : t.state.packagesLoaded.entries.all fun e ↦
    dependencyList e.2.source.defines.dependencies = .ok (some e.2.dependencies)

namespace ScriptThread

variable {R : RunProg → Prop} {L : List Script} {t : Thread Script} (h : ScriptThread R L t)
include h

theorem follows : t.state.Follows (runsAmong R) :=
  (h.reachable.mono fun _ hfs path f hf ext ↦ h.runs _ (hfs path f hf ext)).follows

theorem documented : Reachable scriptPlatform (FileSystem.Documented scriptPlatform)
    (fun _ _ ↦ True) t := by
  refine h.reachable.mono fun fs hfs path f hf ext tick _ ↦ ?_
  obtain ⟨sha1, deps, run, cleanUp, hnodup, -, heq⟩ := h.runs _ (hfs path f hf ext)
  have hdef : scriptPlatform.assigns ext f.content =
      (Script.standard sha1 deps run cleanUp).defines := by rw [heq]; rfl
  rw [hdef]
  exact documented_script _ hnodup _ _

variable {q : Str} {r : PackageRecord Script} (hr : t.state.record q = some r)
include hr

theorem file : ∃ f, t.state.fs.file (candidate scriptPlatform q r.ext) = some f ∧
    f.content = r.source := by
  have hs := h.reachable.sourced fun _ ↦ id
  have hfile := of_decide_eq_true (List.all_eq_true.mp h.files _ (AList.mem_lookup_iff.mp hr))
  obtain ⟨f, hf, hcontent⟩ := Option.map_eq_some_iff.mp hfile
  exact ⟨f, hf, List.inj_on_of_nodup_map h.distinct (hs.files _ f hf r.ext)
    (hs.records q r hr).2 hcontent⟩

theorem unchanged (hchecksums : t.state.packagesLoaded.entries.all fun e ↦
      (checksumList scriptPlatform t.state.fs e.1 extensions).toOption.any (e.2.sha1 ∈ ·)) :
    Unchanged scriptPlatform t.state.fs q r := by
  have hsums := List.all_eq_true.mp hchecksums _ (AList.mem_lookup_iff.mp hr)
  rcases hc : checksumList scriptPlatform t.state.fs q extensions with e | sums
  · simp [hc, Except.toOption] at hsums
  · simp only [hc, Except.toOption, Option.any_some, decide_eq_true_eq] at hsums
    exact ⟨h.file hr, ⟨sums, hc⟩, matches_of_mem_checksumList hc hsums⟩

theorem foundFirst (hentries : t.state.packagesLoaded.entries.all fun e ↦
      fileExt scriptPlatform t.state.fs e.1 none = some e.2.ext) :
    FoundFirst scriptPlatform t.state.fs q r.ext r.source := by
  have hext := of_decide_eq_true (List.all_eq_true.mp hentries _ (AList.mem_lookup_iff.mp hr))
  obtain ⟨f, hf, hcontent⟩ := h.file hr
  rw [FoundFirst, (defines_eq hext hf).1, hcontent]

theorem repeats {sha1 : Str} {deps : List Str} {run : RunProg} {cleanUp : Option PyErr}
    (hsource : r.source = .standard sha1 deps run cleanUp)
    {sources : Str → Ext → Script → Prop} {s₀ : State Script} {post : Str → List Str → Prop}
    (hruns : ∀ u, ReadySteps scriptPlatform sources s₀ u → ¬ u.Loaded q → ∃ registry,
      ResourceRegistry.exec q run u.resourceRegistry = (.ok (), registry) ∧
        post q (registry.owned q)) :
    Repeats scriptPlatform sources s₀ post q r := by
  have hdef : scriptPlatform.assigns r.ext r.source =
      (Script.standard sha1 deps run cleanUp).defines := by rw [hsource]; rfl
  refine ⟨fun _ ↦ rfl, ?_, ?_, ?_, ?_, ?_⟩
  · exact of_decide_eq_true (List.all_eq_true.mp h.dependencies _ (AList.mem_lookup_iff.mp hr))
  · rw [hdef]
    exact ⟨_, rfl, fun _ ↦ ⟨_, rfl⟩⟩
  · rw [hdef]
    exact ⟨nofun, nofun⟩
  · intro x ext f _ _ _
    rw [hdef]
    exact ⟨nofun, nofun⟩
  · intro klass tick obj u hk hobj hu _ hn
    rw [hdef] at hk
    obtain rfl := Option.some.inj hk
    obtain rfl := Except.ok.inj hobj
    exact hruns u hu hn

end ScriptThread

theorem State.Follows.retireAll {c : Convention π} {s : State F} (h : s.Follows c)
    (names : List Str) : (retireAll s names).fs.All c.file ∧
      ∀ m, c.module ((PackageManager.retireAll s names).module m) := by
  obtain ⟨-, hfs, hmodules, -⟩ := frame_retireAll s names
  refine ⟨hfs ▸ h.files, fun m ↦ ?_⟩
  simpa only [State.module, hmodules] using h.modules m

theorem ScriptThread.repeats_plain {L : List Script} {t : Thread Script}
    (h : ScriptThread (· = .ret) L t) {sources : Str → Ext → Script → Prop} {names : List Str}
    (hnodup : names.Nodup) {q : Str} (hq : q ∈ names) {r : PackageRecord Script}
    (hr : t.state.record q = some r) {post : Str → List Str → Prop} (hpost : post q []) :
    Repeats scriptPlatform sources (retireAll t.state names) post q r := by
  obtain ⟨sha1, deps, run, cleanUp, -, hrun, hsource⟩ :=
    h.runs _ ((h.reachable.sourced fun _ ↦ id).records q r hr).2
  apply h.repeats hr hsource
  intro u hu _
  obtain ⟨hfiles, hmodules⟩ := h.follows.retireAll names
  have hreg := hu.registry_plain hfiles hmodules
  refine ⟨u.resourceRegistry, by rw [hrun]; rfl, ?_⟩
  have hnothing : t.state.RegistersNothing q := by
    rw [State.RegistersNothing, State.atCleanUp_of_record hr, (h.follows.records q r hr).2.2]
    trivial
  have howned := owned_retireAll_of_mem t.state hnodup hq hnothing
  rw [State.owned, ← hreg] at howned
  exact howned ▸ hpost

theorem ScriptThread.repeatable {L : List Script} {t : Thread Script}
    (h : ScriptThread (· = .ret) L t)
    (hchecksums : t.state.packagesLoaded.entries.all fun e ↦
      (checksumList scriptPlatform t.state.fs e.1 extensions).toOption.any (e.2.sha1 ∈ ·))
    (sources : Str → Ext → Script → Prop) (post : Str → List Str → Prop) (hpost : ∀ q, post q [])
    (tops : Str → Prop) : Repeatable scriptPlatform sources post t.state tops where
  unchanged _ _ _ hr := h.unchanged hr hchecksums
  repeats _ hnames q hq _ hr := h.repeats_plain hnames.nodup hq hr (hpost q)

theorem modulesApart_of_keys {s : State F} (h : (s.packagesLoaded.keys.map moduleName).Nodup)
    (tops : Str → Prop) : s.ModulesApart tops := by
  rintro q q' ⟨p, -, hp, hup⟩ ⟨p', -, hp', hup'⟩ hm
  exact List.inj_on_of_nodup_map h (AList.mem_keys.mp (hup.loaded hp))
    (AList.mem_keys.mp (hup'.loaded hp')) hm

def pairLoaded : State Script := (scriptThread pairScripts none ["load p 2"]).state

theorem evaluated_pair :
    pairLoaded.startupList = none ∧
    (pairLoaded.packagesLoaded.entries.all fun e ↦
      (pairLoaded.fs.file (candidate scriptPlatform e.1 e.2.ext)).map (·.content.sha1) =
        some e.2.source.sha1) ∧
    (pairLoaded.packagesLoaded.entries.all fun e ↦
      dependencyList e.2.source.defines.dependencies = .ok (some e.2.dependencies)) ∧
    (pairLoaded.packagesLoaded.entries.all fun e ↦
      (checksumList scriptPlatform pairLoaded.fs e.1 extensions).toOption.any (e.2.sha1 ∈ ·)) ∧
    (pairLoaded.packagesLoaded.keys.map moduleName).Nodup ∧
    (pairLoaded.packagesLoaded.entries.all fun e ↦
      fileExt scriptPlatform pairLoaded.fs e.1 none = some e.2.ext) ∧
    (pairLoaded.packagesLoaded.entries.all fun e ↦
      e.2.obj.cleanUp.all PyErr.isLogged) ∧
    pairLoaded.packagesLoaded.keys = ["p".toList, "d".toList] ∧
    pairLoaded.dependencies "p".toList = ["d".toList] ∧
    checksumList scriptPlatform pairLoaded.fs "d".toList extensions = .ok ["1".toList] ∧
    (pairLoaded.record "d".toList).map (fun r ↦ (r.sha1, r.source.sha1)) =
      some ("1".toList, "1".toList) := by
  decide +kernel

theorem scriptThread_pair : ScriptThread (· = .ret) (pairScripts.map Prod.snd)
    (scriptThread pairScripts none ["load p 2"]) where
  reachable := reachable_scriptThread (all_scriptFiles fun _ hp _ ↦ List.mem_map_of_mem hp) _ _
  runs script hscript := by
    simp only [pairScripts, List.map_cons, List.map_nil, List.mem_cons, List.not_mem_nil,
      or_false] at hscript
    rcases hscript with rfl | rfl <;> exact ⟨_, _, _, _, by simp, rfl, rfl⟩
  distinct := by decide
  files := evaluated_pair.2.1
  dependencies := evaluated_pair.2.2.1

/-- The scripts of a package `p` that depends on `d`, whose `clean_up` exits. -/
def exitingPairScripts : List (Str × Script) :=
  [("d".toList, .standard "1".toList [] .ret (some .baseException)),
    ("p".toList, .standard "2".toList ["d".toList] .ret none)]

def exitingPairLoaded : State Script := (scriptThread exitingPairScripts none ["load p 2"]).state

theorem evaluated_exitingPair :
    exitingPairLoaded.startupList = none ∧
    (exitingPairLoaded.packagesLoaded.entries.all fun e ↦
      (exitingPairLoaded.fs.file (candidate scriptPlatform e.1 e.2.ext)).map (·.content.sha1) =
        some e.2.source.sha1) ∧
    (exitingPairLoaded.packagesLoaded.entries.all fun e ↦
      dependencyList e.2.source.defines.dependencies = .ok (some e.2.dependencies)) ∧
    (exitingPairLoaded.packagesLoaded.entries.all fun e ↦
      (checksumList scriptPlatform exitingPairLoaded.fs e.1 extensions).toOption.any
        (e.2.sha1 ∈ ·)) ∧
    (exitingPairLoaded.packagesLoaded.keys.map moduleName).Nodup ∧
    (exitingPairLoaded.packagesLoaded.entries.all fun e ↦
      fileExt scriptPlatform exitingPairLoaded.fs e.1 none = some e.2.ext) ∧
    (exitingPairLoaded.record "d".toList).map (·.sha1) = some "1".toList ∧
    exitingPairLoaded.Loaded "p".toList ∧
    (¬ (perform scriptPlatform (.reload "d".toList "1".toList false) exitingPairLoaded).2.Loaded
      "p".toList) ∧
    ¬ (packageUpdateList scriptPlatform [("d".toList, "1".toList), ("d".toList, "1".toList)] false
      exitingPairLoaded).2.Loaded "p".toList := by
  decide +kernel

theorem scriptThread_exitingPair : ScriptThread (· = .ret) (exitingPairScripts.map Prod.snd)
    (scriptThread exitingPairScripts none ["load p 2"]) where
  reachable := reachable_scriptThread (all_scriptFiles fun _ hp _ ↦ List.mem_map_of_mem hp) _ _
  runs script hscript := by
    simp only [exitingPairScripts, List.map_cons, List.map_nil, List.mem_cons, List.not_mem_nil,
      or_false] at hscript
    rcases hscript with rfl | rfl <;> exact ⟨_, _, _, _, by simp, rfl, rfl⟩
  distinct := by decide
  files := evaluated_exitingPair.2.1
  dependencies := evaluated_exitingPair.2.2.1

end Scripts

end Liota.PackageManager
