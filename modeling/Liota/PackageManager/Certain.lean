import Liota.PackageManager.LoadExact
import Liota.PackageManager.StackFrame

namespace Liota.PackageManager

open Python Python.Computation Python.Text Relation

variable {F : Type}

section Definitions

variable (π : Platform F) (s₀ : State F)

/-- A package that, tried in a run of `_package_load` that starts in `s₀`, is loaded whenever its
dependencies are. -/
structure Loadable (x : Str) (ext : Option Ext) : Prop where
  under : UnderPackagePath π x
  readable : ∃ sums, checksumList π s₀.fs x extensions = .ok sums
  found : ∃ ext' content, foundFile π s₀.fs x ext = some (ext', content) ∧
    ∀ tick, π.importing ext' content tick = .done
  strings : ∃ deps, dependencyList (defines π s₀.fs x ext).dependencies = .ok (some deps)
  constructs : ∃ klass, (defines π s₀.fs x ext).packageClass = some klass ∧
    ∀ tick, ∃ obj, klass tick = .ok obj
  runs : ∀ klass tick obj u, (defines π s₀.fs x ext).packageClass = some klass →
    klass tick = .ok obj → LoadSteps π [] s₀ u → (∀ d ∈ declared π s₀.fs x ext, u.Loaded d) →
    ¬ u.Loaded x → ∃ r, ResourceRegistry.exec x obj.run u.resourceRegistry = (.ok (), r)

/-- The module of a call holds nothing but what its file defines, and of the calls that may be
made no other executes a file into it. -/
structure Tidy (calls : List Str → Call → Prop) (call : Call) : Prop where
  fresh : Fresh (s₀.module (moduleName call.name)) (defines π s₀.fs call.name call.ext)
  alone : ∀ stack other, calls stack other → moduleName other.name = moduleName call.name →
    other = call

abbrev Missing : Str → Str → Prop :=
  Graph.Needs (fun x ↦ declared π s₀.fs x none) s₀.Loaded

/-- Packages that are certain to load as dependencies: they and all that they need are loadable
and tidy. -/
abbrev Certain (calls : List Str → Call → Prop) : Str → Prop :=
  Graph.Buildable (fun x ↦ Loadable π s₀ x none ∧ Tidy π s₀ calls (.ofDependency x))
    (fun x ↦ declared π s₀.fs x none) s₀.Loaded

structure Sure (calls : List Str → Call → Prop) (call : Call) : Prop where
  loadable : Loadable π s₀ call.name call.ext
  tidy : Tidy π s₀ calls call
  given : ∀ c, call.checksum = some c → Matches π s₀.fs call.name c
  needs : ∀ d ∈ declared π s₀.fs call.name call.ext, ¬ s₀.Loaded d → Certain π s₀ calls d

def Source (calls : List Str → Call → Prop) (m : Str) (n : Namespace) : Prop :=
  n = s₀.module m ∨ ∃ stack call ext f, calls stack call ∧ moduleName call.name = m ∧
    fileExt π s₀.fs call.name call.ext = some ext ∧
    s₀.fs.file (candidate π call.name ext) = some f ∧ n = π.assigns ext f.content

/-- A list of dependencies that a call can find, if it comes to reading them: the one in the
file, or else one that was left in the module. -/
def Reads (calls : List Str → Call → Prop) (call : Call) (l : List Str) : Prop :=
  UnderPackagePath π call.name ∧
    (∀ c, call.checksum = some c → Matches π s₀.fs call.name c) ∧
    ∃ ext f, fileExt π s₀.fs call.name call.ext = some ext ∧
      s₀.fs.file (candidate π call.name ext) = some f ∧
      ∃ left, (left = none ∨ ∃ n, Source π s₀ calls (moduleName call.name) n ∧
        n.dependencies = left) ∧
        dependencyList ((π.assigns ext f.content).dependencies <|> left) = .ok (some l)

/-- The state in the middle of a run that starts in `s₀`, while the packages of `stack` are being
loaded. -/
structure LoadInv (calls : List Str → Call → Prop) (built : Str → Prop) (stack : List Str)
    (t : State F) : Prop where
  steps : LoadSteps π [] s₀ t
  dependencies : ∀ m, (t.module m).dependencies = none ∨
    ∃ n, Source π s₀ calls m n ∧ n.dependencies = (t.module m).dependencies
  packageClass : ∀ m, (t.module m).packageClass = none ∨
    ∃ n, Source π s₀ calls m n ∧ n.packageClass = (t.module m).packageClass
  fresh : ∀ call, Tidy π s₀ calls call →
    Fresh (t.module (moduleName call.name)) (defines π s₀.fs call.name call.ext)
  classes : ∀ call, call.name ∈ stack → Tidy π s₀ calls call →
    (t.module (moduleName call.name)).packageClass =
      (defines π s₀.fs call.name call.ext).packageClass
  built : ∀ y, t.Loaded y → s₀.Loaded y ∨ built y

/-- `calls` holds of every call that a call among them makes, and `built` of every package that
one of them loads. -/
structure RunOf (calls : List Str → Call → Prop) (built : Str → Prop) : Prop where
  pulls : ∀ {stack call s t opened}, calls stack call → LoadInv π s₀ calls built stack s →
    Opens π call.name call.checksum call.ext s t opened →
    ∀ d ∈ opened.dependencies, ¬ s₀.Loaded d → d ∉ call.name :: stack →
    calls (call.name :: stack) (.ofDependency d)
  builds : ∀ {stack call s t u opened klass obj registry}, calls stack call →
    LoadInv π s₀ calls built stack s →
    Opens π call.name call.checksum call.ext s t opened →
    LoadInv π s₀ calls built (call.name :: stack) u →
    (∀ d ∈ opened.dependencies, u.Loaded d) → ¬ u.Loaded call.name →
    (u.module (moduleName call.name)).packageClass = some klass → klass u.tick = .ok obj →
    ResourceRegistry.exec call.name obj.run u.resourceRegistry = (.ok (), registry) →
    built call.name

end Definitions

section Invariant

variable {π : Platform F} {s₀ : State F} {calls : List Str → Call → Prop} {built : Str → Prop}
  {stack : List Str}

theorem Certain.sure {x : Str} (h : Certain π s₀ calls x) :
    Sure π s₀ calls (.ofDependency x) where
  loadable := h.good_self.1
  tidy := h.good_self.2
  given := by simp [Call.ofDependency]
  needs _ hd hn := h.needs ⟨hd, hn⟩

theorem foundFile_eq_some {fs : FileSystem F} {x : Str} {ext : Option Ext} {ext' : Ext}
    {content : F} (h : foundFile π fs x ext = some (ext', content)) :
    fileExt π fs x ext = some ext' ∧
      ∃ f, fs.file (candidate π x ext') = some f ∧ f.content = content := by
  obtain ⟨e, he, hmap⟩ := Option.bind_eq_some_iff.mp h
  obtain ⟨f, hf, heq⟩ := Option.map_eq_some_iff.mp hmap
  obtain ⟨rfl, rfl⟩ := Prod.mk.inj heq
  exact ⟨he, f, hf, rfl⟩

theorem defines_eq {fs : FileSystem F} {x : Str} {ext : Option Ext} {ext' : Ext} {f : File F}
    (hext : fileExt π fs x ext = some ext') (hf : fs.file (candidate π x ext') = some f) :
    foundFile π fs x ext = some (ext', f.content) ∧
      defines π fs x ext = π.assigns ext' f.content := by
  have hfound : foundFile π fs x ext = some (ext', f.content) := by
    simp [foundFile, hext, hf]
  exact ⟨hfound, by simp only [defines, hfound]⟩

theorem declared_eq {fs : FileSystem F} {x : Str} {ext : Option Ext} {deps : List Str}
    (h : dependencyList (defines π fs x ext).dependencies = .ok (some deps)) :
    declared π fs x ext = deps := names_of_dependencyList h

theorem LoadInv.of_module_eq {t u : State F} (h : LoadInv π s₀ calls built stack t)
    (hsteps : LoadSteps π [] t u) (hm : ∀ m, u.module m = t.module m)
    (hl : ∀ y, u.Loaded y → s₀.Loaded y ∨ built y) : LoadInv π s₀ calls built stack u where
  steps := h.steps.trans hsteps
  dependencies m := hm m ▸ h.dependencies m
  packageClass m := hm m ▸ h.packageClass m
  fresh x hx := hm _ ▸ h.fresh x hx
  classes x hx ht := hm _ ▸ h.classes x hx ht
  built := hl

theorem LoadInv.mono {t : State F} {name : Str}
    (h : LoadInv π s₀ calls built (name :: stack) t) : LoadInv π s₀ calls built stack t :=
  ⟨h.steps, h.dependencies, h.packageClass, h.fresh,
    fun call hc ↦ h.classes call (List.mem_cons_of_mem _ hc), h.built⟩

theorem LoadInv.not_loaded {t : State F} (h : LoadInv π s₀ calls built stack t) {x : Str}
    (hx : ¬ t.Loaded x) : ¬ s₀.Loaded x := fun h₀ ↦ hx (h.steps.grows.loaded h₀)

theorem LoadInv.addDependent {t : State F} (h : LoadInv π s₀ calls built stack t) {d name : Str}
    (hd : t.Loaded d) (hn : ¬ t.Loaded name) :
    LoadInv π s₀ calls built stack (t.addDependent d name) :=
  h.of_module_eq (.single (.linked t hd hn)) (fun _ ↦ rfl)
    fun y hy ↦ h.built y ((State.loaded_modifyRecord _ _ _ t).mp hy)

theorem LoadInv.openStep {call : Call} {s t : State F} (h : LoadInv π s₀ calls built stack s)
    (hcall : calls stack call) (hstack : call.name ∉ stack)
    {o : Outcome (Option (Opened F))}
    (hopen : openPackage π call.name call.checksum call.ext s = (o, t)) :
    LoadInv π s₀ calls built stack t := by
  have hsteps := openPackage_steps (π := π) [] call.name call.checksum call.ext s
  have hstep := openPackage_step (π := π) call.name call.checksum call.ext s
  rw [hopen] at hsteps hstep
  have hother (x : Call) (hx : x.name ∈ stack) (ht : Tidy π s₀ calls x) :
      moduleName x.name ≠ moduleName call.name := by
    intro hm
    have hc := ht.alone stack call hcall hm.symm
    exact hstack (hc ▸ hx)
  have hbuilt : ∀ y, t.Loaded y → s₀.Loaded y ∨ built y := by
    intro y hy
    rw [State.loaded_iff, hstep.record.1, ← State.loaded_iff] at hy
    exact h.built y hy
  rcases hstep.modules with hm | hm | ⟨ext, f, hext, hf, hm⟩
  · exact h.of_module_eq hsteps hm hbuilt
  · refine ⟨h.steps.trans hsteps, fun m ↦ ?_, fun m ↦ ?_, fun x hx ↦ ?_, fun x hx ht ↦ ?_, hbuilt⟩
    · rw [hm]
      split
      · exact .inl rfl
      · exact h.dependencies m
    · rw [hm]
      split
      · exact .inl rfl
      · exact h.packageClass m
    · rw [hm]
      split
      · exact fresh_empty _
      · exact h.fresh x hx
    · rw [hm, if_neg (hother x hx ht)]
      exact h.classes x hx ht
  · have hsource : Source π s₀ calls (moduleName call.name) (π.assigns ext f.content) := by
      rw [h.steps.fs] at hext hf
      exact .inr ⟨stack, call, ext, f, hcall, rfl, hext, hf, rfl⟩
    refine ⟨h.steps.trans hsteps, fun m ↦ ?_, fun m ↦ ?_, fun x hx ↦ ?_, fun x hx ht ↦ ?_, hbuilt⟩
    · rw [hm]
      split
      · next heq =>
        subst heq
        rcases ha : (π.assigns ext f.content).dependencies with _ | v
        · simpa [Namespace.initialise, ha] using h.dependencies (moduleName call.name)
        · exact .inr ⟨_, hsource, by simp [Namespace.initialise, ha]⟩
      · exact h.dependencies m
    · rw [hm]
      split
      · next heq =>
        subst heq
        rcases ha : (π.assigns ext f.content).packageClass with _ | v
        · simpa [Namespace.initialise, ha] using h.packageClass (moduleName call.name)
        · exact .inr ⟨_, hsource, by simp [Namespace.initialise, ha]⟩
      · exact h.packageClass m
    · rw [hm]
      split
      · next heq =>
        have hc := hx.alone stack call hcall heq.symm
        rw [hc, h.steps.fs] at hext hf
        rw [← (defines_eq hext hf).2]
        exact (h.fresh x hx).initialise
      · exact h.fresh x hx
    · rw [hm, if_neg (hother x hx ht)]
      exact h.classes x hx ht

theorem LoadInv.reads {call : Call} {s t : State F} {opened : Opened F}
    (h : LoadInv π s₀ calls built stack s)
    (ho : Opens π call.name call.checksum call.ext s t opened) :
    Reads π s₀ calls call opened.dependencies := by
  have hfs := h.steps.fs
  obtain ⟨f, hf, -, hsource⟩ := ho.file
  refine ⟨ho.under, fun c hc ↦ hfs ▸ (ho.given c hc).2, opened.ext, f, hfs ▸ ho.ext, hfs ▸ hf,
    (s.module (moduleName call.name)).dependencies, h.dependencies (moduleName call.name), ?_⟩
  have hdeps := ho.dependencies
  rw [ho.after, module_executed, if_pos rfl, ← hsource] at hdeps
  exact hdeps

theorem LoadInv.opened {call : Call} {s t : State F} {opened : Opened F}
    (h : LoadInv π s₀ calls built stack s) (hc : Tidy π s₀ calls call)
    (ho : Opens π call.name call.checksum call.ext s t opened) :
    dependencyList (defines π s₀.fs call.name call.ext).dependencies =
        .ok (some opened.dependencies) ∧
      (t.module (moduleName call.name)).packageClass =
        (defines π s₀.fs call.name call.ext).packageClass ∧
      foundFile π s₀.fs call.name call.ext = some (opened.ext, opened.source) := by
  obtain ⟨f, hf, -, hsource⟩ := ho.file
  have hext := ho.ext
  rw [h.steps.fs] at hext hf
  obtain ⟨hfound, hdefines⟩ := defines_eq hext hf
  rw [hsource] at hfound hdefines
  have hmodule : t.module (moduleName call.name) =
      (s.module (moduleName call.name)).initialise (defines π s₀.fs call.name call.ext) := by
    rw [ho.after, module_executed, if_pos rfl, hdefines]
  have hfresh := h.fresh call hc
  refine ⟨?_, ?_, hfound⟩
  · rw [← hfresh.dependencyList, ← hmodule]
    exact ho.dependencies
  · rw [hmodule]
    exact hfresh.packageClass_eq

theorem LoadInv.push {call : Call} {s t : State F} {opened : Opened F}
    (h : LoadInv π s₀ calls built stack s) (hcall : calls stack call) (hstack : call.name ∉ stack)
    (hopen : openPackage π call.name call.checksum call.ext s = (.ok (some opened), t)) :
    LoadInv π s₀ calls built (call.name :: stack) t := by
  have ht := h.openStep hcall hstack hopen
  refine ⟨ht.steps, ht.dependencies, ht.packageClass, ht.fresh, fun x hx htidy ↦ ?_, ht.built⟩
  rcases List.mem_cons.mp hx with hname | hx
  · obtain rfl : call = x := htidy.alone stack call hcall (by rw [hname])
    exact (h.opened htidy (openPackage_opens hopen)).2.1
  · exact ht.classes x hx htidy

theorem LoadInv.opens {call : Call} {s : State F} (h : LoadInv π s₀ calls built stack s)
    (hc : Sure π s₀ calls call) (hn : ¬ s.Loaded call.name) :
    ∃ opened t, openPackage π call.name call.checksum call.ext s = (.ok (some opened), t) := by
  obtain ⟨ext, content, hfound, hdone⟩ := hc.loadable.found
  obtain ⟨hext, f, hf, rfl⟩ := foundFile_eq_some hfound
  obtain ⟨sums, hsums⟩ := hc.loadable.readable
  obtain ⟨deps, hdeps⟩ := hc.loadable.strings
  have hreadable := readable_of_checksumList hsums (extensions_complete ext) hf
  have hdefines := (defines_eq hext hf).2
  have hverify : ∃ sha1, verifyIntegrity π s₀.fs (candidate π call.name ext) sums call.checksum =
      .ok (some sha1) := by
    rcases hgiven : call.checksum with _ | c
    · refine ⟨π.sha1 f.content, ?_⟩
      exact verifyIntegrity_none hsums hf
    · have hmem := mem_checksumList hsums (hc.given c hgiven)
      refine ⟨c, ?_⟩
      simp only [verifyIntegrity]
      rw [find?_eq_some_of_mem hmem]
  obtain ⟨sha1, hverify⟩ := hverify
  rw [← h.steps.fs] at hsums hext hf hverify
  have hread : dependencyList ((s.module (moduleName call.name)).initialise
      (π.assigns ext f.content)).dependencies = .ok (some deps) := by
    rw [← hdefines, (h.fresh call hc.tidy).dependencyList]
    exact hdeps
  exact ⟨_, _, openPackage_eq hn hc.loadable.under hsums hext hf hreadable hverify
    (hdone s.tick) hread⟩

theorem LoadInv.starts {u : State F} {call : Call}
    (h : LoadInv π s₀ calls built (call.name :: stack) u)
    (hloadable : Loadable π s₀ call.name call.ext) (ht : Tidy π s₀ calls call)
    (hn : ¬ u.Loaded call.name)
    (hdeps : ∀ d ∈ declared π s₀.fs call.name call.ext, u.Loaded d) (opened : Opened F) :
    (startPackage call.name call.checksum call.autoload opened u).2.Loaded call.name ∧
      (call.autoload = false →
        ∃ r, (startPackage call.name call.checksum call.autoload opened u).1 = .ok (some r)) := by
  obtain ⟨klass, hklass, hconstruct⟩ := hloadable.constructs
  have hclass := (h.classes call List.mem_cons_self ht).trans hklass
  obtain ⟨obj, hobj⟩ := hconstruct u.tick
  obtain ⟨registry, hrun⟩ := hloadable.runs klass u.tick obj u hklass hobj h.steps hdeps hn
  rcases startPackage_cases call.name call.checksum call.autoload opened u with
    hfail | ⟨klass', obj', registry', -, -, -, heq⟩
  · rcases hfail.reason with ⟨hnone, -⟩ | ⟨k, hk, herr | ⟨o, e, ho, hraised⟩⟩
    · simp [hnone] at hclass
    · obtain rfl := Option.some.inj (hk.symm.trans hclass)
      obtain ⟨e, he, -⟩ := herr
      simp [he] at hobj
    · obtain rfl := Option.some.inj (hk.symm.trans hclass)
      obtain rfl := Except.ok.inj (ho.symm.trans hobj)
      simp [hraised] at hrun
  · obtain ⟨list, hsnd⟩ := recordPackage_snd call.name call.checksum call.autoload
      (opened.record obj') (ran u registry')
    rw [heq]
    refine ⟨?_, fun hauto ↦ ?_⟩
    · rw [hsnd]
      exact (State.loaded_insert _ _ _ (ran u registry')).mpr (.inl rfl)
    · rw [hauto, recordPackage_false]
      exact ⟨_, rfl⟩

theorem LoadInv.startPackage {s t u : State F} {call : Call} {opened : Opened F}
    (hrun : RunOf π s₀ calls built) (hcall : calls stack call)
    (hs : LoadInv π s₀ calls built stack s)
    (ho : Opens π call.name call.checksum call.ext s t opened)
    (h : LoadInv π s₀ calls built (call.name :: stack) u) (hn : ¬ u.Loaded call.name)
    (hlinked : ∀ d ∈ opened.dependencies, call.name ∈ u.dependents d) (autoload : Bool) :
    LoadInv π s₀ calls built stack
      (startPackage call.name call.checksum autoload opened u).2 := by
  have hsteps : LoadSteps π [] u (PackageManager.startPackage call.name call.checksum autoload
      opened u).2 := startPackage_steps call.checksum autoload opened hn (by simp) hlinked
  rcases startPackage_cases call.name call.checksum autoload opened u with
    hfail | ⟨klass, obj, registry, hclass, hobj, hexec, heq⟩
  · obtain ⟨tick, registry, hframe⟩ := hfail.frame
    refine h.mono.of_module_eq hsteps (fun m ↦ ?_) fun y hy ↦ ?_
    · rw [hframe]; rfl
    · rw [hframe] at hy
      exact h.built y hy
  · obtain ⟨list, hsnd⟩ := recordPackage_snd call.name call.checksum autoload
      (opened.record obj) (ran u registry)
    rw [heq] at hsteps ⊢
    refine h.mono.of_module_eq hsteps (fun m ↦ ?_) fun y hy ↦ ?_
    · rw [hsnd]; rfl
    · rw [hsnd] at hy
      rcases (State.loaded_insert call.name y (opened.record obj) (ran u registry)).mp hy
        with rfl | hy
      · exact .inr (hrun.builds hcall hs ho h
          (fun d hd ↦ State.loaded_of_mem_dependents (hlinked d hd)) hn hclass hobj hexec)
      · exact h.built y hy

/-- The packages of the stack are not loaded, and those among them that are certain to load need
`x`. -/
def Stacked (π : Platform F) (s₀ : State F) (calls : List Str → Call → Prop)
    (stack : List Str) (x : Str) : Prop :=
  ∀ y ∈ stack, ¬ s₀.Loaded y ∧ (Certain π s₀ calls y → ReflTransGen (Missing π s₀) y x)

/-- The loop stopped at a dependency that was not loaded before and is not certain to load, and
only those before it list the package now. -/
def StopsAt (π : Platform F) (s₀ : State F) (calls : List Str → Call → Prop) (name : Str)
    (deps : List Str) (s t : State F) : Prop :=
  ∃ mid d post, deps = mid ++ d :: post ∧ ¬ s₀.Loaded d ∧ ¬ Certain π s₀ calls d ∧
    ∀ e, name ∈ t.dependents e → name ∈ s.dependents e ∨ e ∈ mid

theorem StopsAt.cons {name d : Str} {rest : List Str} {s t u : State F}
    (h : StopsAt π s₀ calls name rest (t.addDependent d name) u)
    (hs : ∀ e, name ∈ t.dependents e → name ∈ s.dependents e) :
    StopsAt π s₀ calls name (d :: rest) s u := by
  obtain ⟨mid, x, post, rfl, hx, hc, hlinks⟩ := h
  refine ⟨d :: mid, x, post, rfl, hx, hc, fun e he ↦ ?_⟩
  rcases hlinks e he with he | he
  · rcases dependents_addDependent d name e t name he with he | ⟨rfl, -⟩
    · exact .inl (hs e he)
    · exact .inr List.mem_cons_self
  · exact .inr (List.mem_cons_of_mem _ he)

theorem Stacked.needs {name d : Str} (h : Stacked π s₀ calls stack name)
    (hd : Certain π s₀ calls name → Missing π s₀ name d) :
    ∀ y ∈ stack, ¬ s₀.Loaded y ∧ (Certain π s₀ calls y → TransGen (Missing π s₀) y d) := by
  intro y hy
  refine ⟨(h y hy).1, fun hc ↦ ?_⟩
  have hreach := (h y hy).2 hc
  exact .tail' hreach (hd (hc.reach hreach))

/-- What a call in a run that starts in `s₀` does. -/
def CertainCall (π : Platform F) (s₀ : State F) (calls : List Str → Call → Prop)
    (built : Str → Prop) (stack : List Str) (call : Call) (s : State F)
    (o : Outcome (Option (PackageRecord F))) (t : State F) : Prop :=
  KeepsStack stack call s o t ∧
    (calls stack call → LoadInv π s₀ calls built stack s →
      LoadInv π s₀ calls built stack t ∧
        (¬ s.Loaded call.name → Sure π s₀ calls call →
          (∀ y ∈ stack, ¬ s₀.Loaded y ∧ (Certain π s₀ calls y →
            TransGen (Missing π s₀) y call.name)) →
          o ≠ .diverged → t.Loaded call.name ∧ (call.autoload = false → ∃ r, o = .ok (some r))))

/-- What the loop over dependencies in such a run does. -/
def CertainLoop (π : Platform F) (s₀ : State F) (calls : List Str → Call → Prop)
    (built : Str → Prop) (stack : List Str) (name : Str) (deps : List Str) (s : State F)
    (o : Outcome Bool) (t : State F) : Prop :=
  KeepsStackLoop stack name deps s o t ∧
    ((∀ d ∈ deps, ¬ s₀.Loaded d → d ∉ stack → calls stack (.ofDependency d)) →
      LoadInv π s₀ calls built stack s →
      LoadInv π s₀ calls built stack t ∧
        (name ∈ stack → (Certain π s₀ calls name → deps ⊆ declared π s₀.fs name none) →
          Stacked π s₀ calls stack name →
          ((∀ d ∈ deps, ¬ s₀.Loaded d → Certain π s₀ calls d) → o ≠ .diverged → o = .ok true) ∧
            (o = .ok false → StopsAt π s₀ calls name deps s t)))

/-- In a run that starts in `s₀`, the invariant holds throughout and every package that is
certain to load is loaded when it is tried. -/
theorem certain_loadRule (hrun : RunOf π s₀ calls built) :
    LoadRule π (CertainCall π s₀ calls built) (CertainLoop π s₀ calls built) where
  outOfFuel stack call s :=
    ⟨stackFrame_loadRule (π := π).outOfFuel stack call s,
      fun _ hs ↦ ⟨hs, fun _ _ _ ho ↦ absurd rfl ho⟩⟩
  closed {stack call s t} hstack ho := by
    refine ⟨stackFrame_loadRule.closed hstack ho, fun hcall hs ↦
      ⟨hs.openStep hcall hstack ho, fun hn hc _ _ ↦ ?_⟩⟩
    obtain ⟨opened, u, h⟩ := hs.opens hc hn
    cases ho.symm.trans h
  refused {stack call s t e} hstack ho := by
    refine ⟨stackFrame_loadRule.refused hstack ho, fun hcall hs ↦
      ⟨hs.openStep hcall hstack ho, fun hn hc _ _ ↦ ?_⟩⟩
    obtain ⟨opened, u, h⟩ := hs.opens hc hn
    cases ho.symm.trans h
  stopped {stack call s t u opened o} hstack ho hQ hne hsteps := by
    refine ⟨stackFrame_loadRule.stopped hstack ho hQ.1 hne hsteps, fun hcall hs ↦ ?_⟩
    have hopens := openPackage_opens ho
    obtain ⟨hu, hall⟩ := hQ.2 (hrun.pulls hcall hs hopens) (hs.push hcall hstack ho)
    refine ⟨hu.mono, fun hn hc hst hd ↦ ?_⟩
    have hdeps := declared_eq (hs.opened hc.tidy hopens).1
    have hstacked : Stacked π s₀ calls (call.name :: stack) call.name := by
      intro y hy
      rcases List.mem_cons.mp hy with rfl | hy
      · exact ⟨hs.not_loaded hn, fun _ ↦ .refl⟩
      · exact ⟨(hst y hy).1, fun hcy ↦ ((hst y hy).2 hcy).to_reflTransGen⟩
    refine absurd ((hall List.mem_cons_self (fun hcn ↦ ?_) hstacked).1 (fun d hd ↦ ?_)
      fun h ↦ hd (by rw [h]; rfl)) hne
    · rw [show call.ext = none by rw [hcn.good_self.2.alone stack call hcall rfl]; rfl] at hdeps
      exact hdeps ▸ fun _ h ↦ h
    · exact hc.needs d (hdeps ▸ hd)
  started {stack call s t u opened} hstack ho hQ hsteps hlinked := by
    refine ⟨stackFrame_loadRule.started hstack ho hQ.1 hsteps hlinked, fun hcall hs ↦ ?_⟩
    have hopens := openPackage_opens ho
    obtain ⟨hu, -⟩ := hQ.2 (hrun.pulls hcall hs hopens) (hs.push hcall hstack ho)
    have hnu := hsteps.not_loaded List.mem_cons_self (openPackage_not_loaded_after ho)
    refine ⟨LoadInv.startPackage hrun hcall hs hopens hu hnu hlinked _, fun hn hc _ _ ↦ ?_⟩
    have hdeps := declared_eq (hs.opened hc.tidy hopens).1
    exact hu.starts hc.loadable hc.tidy hnu
      (fun d hd ↦ State.loaded_of_mem_dependents (hlinked d (hdeps ▸ hd))) opened
  done stack name s := ⟨stackFrame_loadRule (π := π).done stack name s,
    fun _ hs ↦ ⟨hs, fun _ _ _ ↦ ⟨fun _ _ ↦ rfl, by simp⟩⟩⟩
  cycle {stack name d} rest s hd := by
    refine ⟨stackFrame_loadRule (π := π).cycle rest s hd, fun _ hs ↦
      ⟨hs, fun _ hdeps hst ↦ ?_⟩⟩
    have hnot : ¬ Certain π s₀ calls d := by
      intro hcd
      have hreach := (hst d hd).2 hcd
      have hneed : Missing π s₀ name d :=
        ⟨hdeps (hcd.reach hreach) List.mem_cons_self, (hst d hd).1⟩
      exact hcd.acyclic (TransGen.tail' hreach hneed)
    refine ⟨fun hall _ ↦ absurd (hall d List.mem_cons_self (hst d hd).1) hnot,
      fun _ ↦ ⟨[], d, rest, rfl, (hst d hd).1, hnot, fun e ↦ .inl⟩⟩
  present {stack name d rest s t o} hd hl hn hQ := by
    refine ⟨stackFrame_loadRule.present (π := π) (o := o) hd hl hn hQ.1, fun hcalls hs ↦ ?_⟩
    obtain ⟨ht, hall⟩ := hQ.2 (fun d hd ↦ hcalls d (by simp [hd])) (hs.addDependent hl hn)
    refine ⟨ht, fun hname hdeps hst ↦ ?_⟩
    obtain ⟨htrue, hfalse⟩ := hall hname (fun hc _ h ↦ hdeps hc (by simp [h])) hst
    exact ⟨fun h ↦ htrue fun x hx ↦ h x (by simp [hx]), fun ho ↦ (hfalse ho).cons fun _ ↦ id⟩
  pulled {stack name d rest s t u o r} hd hl hn hP hsteps hld hQ := by
    refine ⟨stackFrame_loadRule.pulled (π := π) (o := o) hd hl hn hP.1 hsteps hld hQ.1,
      fun hcalls hs ↦ ?_⟩
    obtain ⟨ht, -⟩ := hP.2 (hcalls d (by simp) (hs.not_loaded hl) hd) hs
    obtain ⟨hu, hall⟩ := hQ.2 (fun d hd ↦ hcalls d (by simp [hd])) (ht.addDependent hld hn)
    refine ⟨hu, fun hname hdeps hst ↦ ?_⟩
    obtain ⟨htrue, hfalse⟩ := hall hname (fun hc _ h ↦ hdeps hc (by simp [h])) hst
    exact ⟨fun h ↦ htrue fun x hx ↦ h x (by simp [hx]),
      fun ho ↦ (hfalse ho).cons (hP.1.1 name hname).2⟩
  missing {stack name d rest s t o} hd hl hP hsteps hmiss := by
    refine ⟨stackFrame_loadRule.missing hd hl hP.1 hsteps hmiss, fun hcalls hs ↦ ?_⟩
    have hnd := hs.not_loaded hl
    obtain ⟨ht, hall⟩ := hP.2 (hcalls d (by simp) hnd hd) hs
    refine ⟨ht, fun hname hdeps hst ↦ ?_⟩
    have hload (hcd : Certain π s₀ calls d) (ho : o ≠ .diverged) : False := by
      obtain ⟨hld, hr⟩ := hall hl hcd.sure
        (hst.needs fun hc ↦ ⟨hdeps hc List.mem_cons_self, hnd⟩) ho
      obtain ⟨r, rfl⟩ := hr rfl
      exact hmiss _ rfl hld
    refine ⟨fun h ho ↦ ?_, fun ho ↦ ?_⟩
    · exact absurd (h d List.mem_cons_self hnd)
        fun hcd ↦ hload hcd fun h ↦ ho (by rw [h]; rfl)
    · refine ⟨[], d, rest, rfl, hnd, fun hcd ↦ hload hcd ?_, fun e he ↦ ?_⟩
      · rintro rfl
        cases ho
      · exact .inl ((hP.1.1 name hname).2 e he)

theorem loadInv_initial : LoadInv π s₀ calls built [] s₀ :=
  ⟨.refl, fun _ ↦ .inr ⟨_, .inl rfl, rfl⟩, fun _ ↦ .inr ⟨_, .inl rfl, rfl⟩,
    fun _ hx ↦ hx.fresh, by simp, fun _ ↦ .inl⟩

end Invariant

end Liota.PackageManager
