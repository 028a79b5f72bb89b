import Liota.PackageManager.LoadExact
import Liota.PackageManager.LoaderRules
import Liota.PackageManager.Documented

namespace Liota.PackageManager

open Python Python.Computation Python.Text Relation

variable {F : Type} {π : Platform F}

/-- Different names in `_packages_loaded` stand for different files. -/
def DistinctFiles (π : Platform F) (s : State F) : Prop :=
  ∀ p q r r', s.record p = some r → s.record q = some r' →
    candidate π p r.ext = candidate π q r'.ext → p = q

/-- A set of names that contains all that a request can load: what it asks for, what it restarts,
and what the files or modules of these list as dependencies. -/
structure Request.Scope (π : Platform F) (s : State F) (N : Str → Prop) (request : Request) : Prop
    extends request.Within s N where
  files : ∀ p ext f, N p → s.fs.file (candidate π p ext) = some f →
    ∀ d ∈ (π.assigns ext f.content).names, N d
  modules : ∀ p, N p → ∀ d ∈ (s.module (moduleName p)).names, N d

/-- Of the names that a request can load, none is another spelling for the path of one of them or of
a package that is loaded. -/
def OneSpelling (π : Platform F) (s : State F) (request : Request) : Prop :=
  ∃ N, request.Scope π s N ∧
    ∀ p q, N p → N q ∨ s.Loaded q → pathFile π p = pathFile π q → p = q

theorem pathFile_eq_of_candidate {p q : Str} {ext ext' : Ext}
    (h : candidate π p ext = candidate π q ext') : pathFile π p = pathFile π q := by
  unfold candidate at h
  have hext : ext = ext' := by
    have hlast := congrArg List.getLast? h
    cases ext <;> cases ext' <;> simp [Ext.text] at hlast <;> rfl
  rw [hext] at h
  exact List.append_cancel_right h

section Scope

variable {N : Str → Prop} {s₀ s t : State F}

/-- The state in the middle of a request that started in `s₀`. -/
structure InScope (N : Str → Prop) (s₀ t : State F) : Prop where
  fs : t.fs = s₀.fs
  modules : ∀ p, N p → ∀ d ∈ (t.module (moduleName p)).names, N d
  records : ∀ k r, t.record k = some r → N k ∨ ∃ r₀, s₀.record k = some r₀ ∧ r₀.ext = r.ext

theorem InScope.relinks (h : InScope N s₀ s) (hs : Relinks s t) : InScope N s₀ t where
  fs := hs.fs.trans h.fs
  modules p hp d hd := by
    rw [hs.module] at hd
    exact h.modules p hp d hd
  records k r hr := by
    obtain ⟨dependents, hr'⟩ := hs.record k r hr
    have hold := h.records k { r with dependents := dependents } hr'
    exact hold

def Listing (π : Platform F) (N : Str → Prop) (s₀ : State F) : Prop :=
  ∀ p ext f, N p → s₀.fs.file (candidate π p ext) = some f →
    ∀ d ∈ (π.assigns ext f.content).names, N d

theorem InScope.openPackage (hfiles : Listing π N s₀) {call : Call}
    {o : Outcome (Option (Opened F))}
    (ho : openPackage π call.name call.checksum call.ext s = (o, t)) (hcall : N call.name)
    (h : InScope N s₀ s) : InScope N s₀ t := by
  have hstep := openPackage_step (π := π) call.name call.checksum call.ext s
  rw [ho] at hstep
  have hrest : t.fs = s.fs ∧ t.packagesLoaded = s.packagesLoaded := hstep.frame
  refine ⟨hrest.1.trans h.fs, ?_, ?_⟩
  · intro p hp d hd
    rcases hstep.modules with hsame | hgone | ⟨ext, f, -, hf, hnew⟩
    · rw [hsame] at hd
      exact h.modules p hp d hd
    · rw [hgone] at hd
      split at hd
      · cases hd
      · exact h.modules p hp d hd
    · rw [hnew] at hd
      split at hd
      · rcases names_initialise _ _ d hd with hd | hd
        · exact hfiles call.name ext f hcall (h.fs ▸ hf) d hd
        · exact h.modules p hp d hd
      · exact h.modules p hp d hd
  · intro k r hr
    simp only [State.record, hrest.2] at hr
    exact h.records k r hr

theorem InScope.startPackage {name : Str} (hname : N name) (checksum : Option Str)
    (autoload : Bool) (opened : Opened F) (h : InScope N s₀ s) :
    InScope N s₀ (startPackage name checksum autoload opened s).2 := by
  have hframe := startPackage_startFrame name checksum autoload opened s
  refine ⟨hframe.fs.trans h.fs, ?_, ?_⟩
  · intro p hp d hd
    rw [startPackage_module] at hd
    exact h.modules p hp d hd
  · intro k r hr
    rcases hframe.record k r hr with hr | ⟨rfl, -⟩
    · exact h.records k r hr
    · exact .inl hname

theorem inScope_loadRule (hfiles : Listing π N s₀) :
    LoadRule π (fun _ call s _ t ↦ N call.name → InScope N s₀ s → InScope N s₀ t)
      (fun _ _ deps s _ t ↦ (∀ d ∈ deps, N d) → InScope N s₀ s → InScope N s₀ t) where
  outOfFuel _ _ _ _ := id
  closed _ ho hcall h := h.openPackage hfiles ho hcall
  refused _ ho hcall h := h.openPackage hfiles ho hcall
  stopped := by
    intro stack call s t u opened o _ ho hQ _ _ hcall h
    have ht := h.openPackage hfiles ho hcall
    apply hQ _ ht
    rw [← names_of_dependencyList (openPackage_opens ho).dependencies]
    exact ht.modules call.name hcall
  started := by
    intro stack call s t u opened _ ho hQ _ _ hcall h
    have ht := h.openPackage hfiles ho hcall
    apply InScope.startPackage hcall
    apply hQ _ ht
    rw [← names_of_dependencyList (openPackage_opens ho).dependencies]
    exact ht.modules call.name hcall
  done _ _ _ _ := id
  cycle _ _ _ _ := id
  present _ _ _ hQ hdeps h :=
    hQ (fun d hd ↦ hdeps d (List.mem_cons_of_mem _ hd)) (h.relinks (addDependent_relinks _ _ _))
  pulled _ _ _ hP _ _ hQ hdeps h :=
    hQ (fun d hd ↦ hdeps d (List.mem_cons_of_mem _ hd))
      ((hP (hdeps _ List.mem_cons_self) h).relinks (addDependent_relinks _ _ _))
  missing _ _ hP _ _ hdeps h := hP (hdeps _ List.mem_cons_self) h

theorem loaderRule_inScope (hfiles : Listing π N s₀) :
    LoaderRule π (makeCall π) (makeCall π) N False (fun t ↦ Consistent t ∧ InScope N s₀ t) where
  consistent _ h := h.1
  call call t hcall h :=
    ⟨rfl, covers_consistent.load call.name call.checksum call.autoload call.ext t h.1,
      (inScope_loadRule hfiles).packageLoad call.name call.checksum call.autoload call.ext t hcall
        h.2⟩
  unload _ _ hs hu h := ⟨hu, h.2.relinks hs.relinks⟩
  listed _ _ h := ⟨h.1.of_packagesLoaded_eq rfl rfl, h.2.relinks (relinks_of_eq rfl rfl rfl)⟩
  stash h := h.elim
  makeStash h := h.elim

theorem loaderRule_records (s₀ : State F) :
    LoaderRule π (makeCall π) (makeCall π) (fun _ ↦ False) True (fun t ↦ Consistent t ∧
      ∀ k r, t.record k = some r → ∃ dependents,
        s₀.record k = some { r with dependents := dependents }) where
  consistent _ h := h.1
  call _ _ hcall := hcall.elim
  unload s t hs hu h := by
    refine ⟨hu, ?_⟩
    intro k r hr
    obtain ⟨dependents, hr', -⟩ := hs.record k r hr
    obtain ⟨dependents', hr₀⟩ := h.2 k _ hr'
    exact ⟨dependents', hr₀⟩
  listed _ _ h := ⟨h.1.of_packagesLoaded_eq rfl rfl, h.2⟩
  stash _ name s h := by
    rcases stashFile_edits (π := π) name s with heq | ⟨fs, -, heq⟩
    · rw [heq]
      exact h
    · rw [heq]
      exact ⟨h.1.of_packagesLoaded_eq rfl rfl, h.2⟩
  makeStash _ s h := by
    rcases makeStash_edits (π := π) s with heq | ⟨fs, -, heq⟩
    · rw [heq]
      exact h
    · rw [heq]
      exact ⟨h.1.of_packagesLoaded_eq rfl rfl, h.2⟩

theorem deletes_loads_nothing {request : Request} (h : request.deletes ≠ []) (s : State F) :
    request.Within s fun _ ↦ False := by
  cases request with
  | delete | deleteList =>
    constructor
    · intro name hname
      cases hname
    · intro p hp
      cases hp
  | load | reload | update | loadList | updateList | unload | unloadList | loadAuto | unloadAll
  | updateAll | terminate | report | ignored => exact absurd rfl h

end Scope

theorem DistinctFiles.perform {s : State F} {request : Request} (hs : Consistent s)
    (hone : OneSpelling π s request) (h : DistinctFiles π s) :
    DistinctFiles π (perform π request s).2 := by
  obtain ⟨N, hscope, hinj⟩ := hone
  have hrecords : ∀ k r, (PackageManager.perform π request s).2.record k = some r →
      N k ∨ ∃ r₀, s.record k = some r₀ ∧ r₀.ext = r.ext := by
    rw [← performWith_makeCall]
    by_cases hdeletes : request.deletes = []
    · obtain ⟨-, -, ht⟩ := (loaderRule_inScope hscope.files).perform
        ⟨hs, rfl, hscope.modules, fun k r hr ↦ .inr ⟨r, hr, rfl⟩⟩ hscope.toWithin
        (fun hne ↦ hne hdeletes)
      exact ht.records
    · obtain ⟨-, -, ht⟩ := (loaderRule_records (π := π) s).perform
        ⟨hs, fun k r hr ↦ ⟨r.dependents, hr⟩⟩ (deletes_loads_nothing hdeletes s) (fun _ ↦ trivial)
      intro k r hr
      obtain ⟨dependents, hr₀⟩ := ht k r hr
      exact .inr ⟨_, hr₀, rfl⟩
  intro p q r r' hp hq heq
  have hpath := pathFile_eq_of_candidate heq
  rcases hrecords p r hp with hNp | ⟨r₀, hr₀, hext⟩
  · apply hinj p q hNp _ hpath
    rcases hrecords q r' hq with hNq | ⟨r₁, hr₁, -⟩
    · exact .inl hNq
    · exact .inr (State.loaded_of_record hr₁)
  · rcases hrecords q r' hq with hNq | ⟨r₁, hr₁, hext'⟩
    · exact (hinj q p hNq (.inr (State.loaded_of_record hr₀)) hpath.symm).symm
    · rw [← hext, ← hext'] at heq
      exact h p q r₀ r₁ hr₀ hr₁ heq

/-- No package file is loaded twice in a run whose requests each meet one spelling of every path. -/
theorem no_file_loaded_twice {t : Thread F}
    (ht : Reachable π (fun _ ↦ True) (OneSpelling π) t) : DistinctFiles π t.state := by
  have hboth : Consistent t.state ∧ DistinctFiles π t.state := by
    refine ht.invariant (I := fun s ↦ Consistent s ∧ DistinctFiles π s) ?_ ?_ ?_
    · intro fs startupList _
      refine ⟨consistent_initial fs startupList, ?_⟩
      intro p q r r' hp
      cases hp
    · intro s fs startupList _ hs
      exact ⟨hs.1.of_packagesLoaded_eq rfl rfl, hs.2⟩
    · intro s request hone hs
      exact ⟨covers_consistent.perform request s hs.1, hs.2.perform hs.1 hone⟩
  exact hboth.2

section Example

theorem oneSpelling_boot : OneSpelling scriptPlatform pairState .loadAuto := by
  refine ⟨fun _ ↦ False, ⟨⟨?_, ?_⟩, ?_, ?_⟩, ?_⟩
  · intro name hname
    cases hname
  · intro p hp
    cases hp
  · intro p ext f hp
    exact hp.elim
  · intro p hp
    exact hp.elim
  · intro p q hp
    exact hp.elim

theorem oneSpelling_pair :
    OneSpelling scriptPlatform pairState (parseMessage (words "load p 2")) := by
  have hmsg : parseMessage (words "load p 2") = .load "p".toList "2".toList false := by decide
  rw [hmsg]
  refine ⟨(· ∈ ["p".toList, "d".toList]), ⟨⟨?_, ?_⟩, ?_, ?_⟩, ?_⟩
  · intro name hname
    rw [List.mem_singleton.mp hname]
    exact List.mem_cons_self
  · intro p hp
    cases hp
  · intro p ext f _ hf d hd
    obtain ⟨entry, hentry, hcontent⟩ := mem_scriptFiles hf
    have hnames : ∀ entry ∈ pairScripts, ∀ d ∈ entry.2.defines.names,
        d ∈ ["p".toList, "d".toList] := by
      decide
    apply hnames entry hentry d
    rw [← hcontent]
    exact hd
  · intro p _ d hd
    cases hd
  · intro p q hp hq hpath
    have hcandidates : ∀ p ∈ ["p".toList, "d".toList], ∀ q ∈ ["p".toList, "d".toList],
        pathFile scriptPlatform p = pathFile scriptPlatform q → p = q := by decide
    exact hcandidates p hp q (hq.resolve_right (AList.notMem_empty q)) hpath

theorem no_file_loaded_twice_pair :
    let t := handled scriptPlatform (parseMessage (words "load p 2"))
      (boot scriptPlatform (scriptFiles pairScripts) none).state
    Reachable scriptPlatform (fun _ ↦ True) (OneSpelling scriptPlatform) t ∧
      DistinctFiles scriptPlatform t.state := by
  intro t
  have hboot : Reachable scriptPlatform (fun _ ↦ True) (OneSpelling scriptPlatform)
      (boot scriptPlatform (scriptFiles pairScripts) none) :=
    .start (.init trivial) oneSpelling_boot
  have ht : Reachable scriptPlatform (fun _ ↦ True) (OneSpelling scriptPlatform) t :=
    .message hboot (by decide) oneSpelling_pair
  exact ⟨ht, no_file_loaded_twice ht⟩

/-- One file under two names. -/
theorem respelled_package_loaded_twice :
    let t := scriptThread [("a".toList, .standard "1".toList [] .ret none)] none
      ["load a 1", "load ./a 1"]
    Reachable scriptPlatform (fun _ ↦ True) (fun _ _ ↦ True) t ∧
      ¬ DistinctFiles scriptPlatform t.state := by
  intro t
  refine ⟨reachable_scriptThread trivial none _, ?_⟩
  intro h
  have hfirst : (t.state.record "a".toList).map PackageRecord.ext = some .py := by decide +kernel
  have hsecond : (t.state.record "./a".toList).map PackageRecord.ext = some .py := by decide +kernel
  obtain ⟨r, hr, hext⟩ := Option.map_eq_some_iff.mp hfirst
  obtain ⟨r', hr', hext'⟩ := Option.map_eq_some_iff.mp hsecond
  have hsame :
      candidate scriptPlatform "a".toList .py = candidate scriptPlatform "./a".toList .py := by
    decide
  have hname := h _ _ r r' hr hr' (by rw [hext, hext', hsame])
  revert hname
  decide

end Example

end Liota.PackageManager
