import Liota.PackageManager.WellFounded

namespace Liota.PackageManager

open Python Python.Computation Python.Text Relation

variable {F : Type}

section Definitions

variable (π : Platform F) (s₀ : State F) (top : Call)

/-- The file of a call defines `klass`, and no other call executes a file into its module. -/
def OwnClass (call : Call) (klass : PackageClass) : Prop :=
  (∃ ext f, fileExt π s₀.fs call.name call.ext = some ext ∧
    s₀.fs.file (candidate π call.name ext) = some f ∧
    (π.assigns ext f.content).packageClass = some klass) ∧
  ∀ stack other, callsOf π s₀ top stack other → moduleName other.name = moduleName call.name →
    other = call

def Starts (call : Call) : Prop :=
  ∃ klass, OwnClass π s₀ top call klass ∧ ∀ tick, ∃ obj, klass tick = .ok obj ∧
    ∀ u l, LoadSteps π [] s₀ u → Reads π s₀ (callsOf π s₀ top) call l → (∀ d ∈ l, u.Loaded d) →
      ¬ u.Loaded call.name →
      ∃ r, ResourceRegistry.exec call.name obj.run u.resourceRegistry = (.ok (), r)

/-- The calls that may fail: `top`, and those for dependencies that are neither loaded nor
certain to load. -/
inductive Suspect : Call → Prop
  | root : Suspect top
  | pulled {call : Call} {l : List Str} {d : Str} (h : Suspect call)
      (hl : Reads π s₀ (callsOf π s₀ top) call l) (hd : d ∈ l) (hn : ¬ s₀.Loaded d)
      (hne : d ≠ top.name) (hc : ¬ Certain π s₀ (callsOf π s₀ top) d) : Suspect (.ofDependency d)

/-- Where a call may fail, it has until then only met dependencies that are new or that list it
already, and `run` of its package does not raise after it has registered something. -/
structure Harmless : Prop where
  stopped : ∀ call pre d post, Suspect π s₀ top call →
    Reads π s₀ (callsOf π s₀ top) call (pre ++ d :: post) → ¬ s₀.Loaded d →
    ¬ Certain π s₀ (callsOf π s₀ top) d → ∀ e ∈ pre, s₀.Loaded e → call.name ∈ s₀.dependents e
  started : ∀ call l u, Suspect π s₀ top call → Reads π s₀ (callsOf π s₀ top) call l →
    LoadSteps π [] s₀ u → (∀ d ∈ l, u.Loaded d) → ¬ u.Loaded call.name →
    ¬ Starts π s₀ top call → ∀ e ∈ l, s₀.Loaded e → call.name ∈ s₀.dependents e
  ran : ∀ call l n klass tick obj u e r, Suspect π s₀ top call →
    Reads π s₀ (callsOf π s₀ top) call l →
    Source π s₀ (callsOf π s₀ top) (moduleName call.name) n → n.packageClass = some klass →
    klass tick = .ok obj → LoadSteps π [] s₀ u → (∀ d ∈ l, u.Loaded d) →
    ¬ u.Loaded call.name →
    ResourceRegistry.exec call.name obj.run u.resourceRegistry = (.raised e, r) →
    r.owned call.name ⊆ u.owned call.name

/-- The state in the middle of the call `top`: new dependents of the packages that were loaded
before are loaded, or they are being loaded, and what is not loaded owns nothing new. -/
structure TraceInv (stack : List Str) (t : State F) : Prop where
  load : LoadInv π s₀ (callsOf π s₀ top) (MayLoad π s₀ top) stack t
  absent : ∀ y ∈ stack, ¬ s₀.Loaded y
  links : ∀ e, s₀.Loaded e → ∀ y ∈ t.dependents e,
    y ∈ s₀.dependents e ∨ t.Loaded y ∨ y ∈ stack
  classes : ∀ call klass, call.name ∈ stack → OwnClass π s₀ top call klass →
    (t.module (moduleName call.name)).packageClass = some klass
  owned : ∀ y, ¬ t.Loaded y → t.owned y ⊆ s₀.owned y

end Definitions

section

variable {π : Platform F} {s₀ : State F} {top : Call} {stack : List Str}

theorem traceInv_initial : TraceInv π s₀ top [] s₀ where
  load := loadInv_initial
  absent := by simp
  links _ _ _ hy := .inl hy
  classes := by simp
  owned _ _ := List.Subset.refl _

theorem TraceInv.of_module_eq {t u : State F} (h : TraceInv π s₀ top stack t)
    (hload : LoadInv π s₀ (callsOf π s₀ top) (MayLoad π s₀ top) stack u)
    (hm : ∀ m, u.module m = t.module m)
    (hlinks : ∀ e, s₀.Loaded e → ∀ y ∈ u.dependents e,
      y ∈ s₀.dependents e ∨ u.Loaded y ∨ y ∈ stack)
    (howned : ∀ y, ¬ u.Loaded y → u.owned y ⊆ s₀.owned y) : TraceInv π s₀ top stack u where
  load := hload
  absent := h.absent
  links := hlinks
  classes call klass hc hk := hm _ ▸ h.classes call klass hc hk
  owned := howned

theorem TraceInv.openStep {call : Call} {s t : State F} {o : Outcome (Option (Opened F))}
    (h : TraceInv π s₀ top stack s) (hcall : callsOf π s₀ top stack call)
    (hstack : call.name ∉ stack)
    (hopen : openPackage π call.name call.checksum call.ext s = (o, t)) :
    TraceInv π s₀ top stack t := by
  have hload := h.load.openStep hcall hstack hopen
  have hstep := openPackage_step (π := π) call.name call.checksum call.ext s
  rw [hopen] at hstep
  have hlinks : ∀ e, s₀.Loaded e → ∀ y ∈ t.dependents e,
      y ∈ s₀.dependents e ∨ t.Loaded y ∨ y ∈ stack := by
    have hrec := hstep.record.1
    intro e he y hy
    rw [State.dependents, hrec] at hy
    rw [State.loaded_iff, hrec, ← State.loaded_iff]
    exact h.links e he y hy
  have hother (c : Call) (klass : PackageClass) (hc : c.name ∈ stack)
      (hk : OwnClass π s₀ top c klass) : moduleName c.name ≠ moduleName call.name := by
    intro hm
    have heq := hk.2 stack call hcall hm.symm
    exact hstack (heq ▸ hc)
  have howned : ∀ y, ¬ t.Loaded y → t.owned y ⊆ s₀.owned y := by
    intro y hy
    rw [State.loaded_iff, hstep.record.1, ← State.loaded_iff] at hy
    rw [State.owned, hstep.record.2]
    exact h.owned y hy
  refine ⟨hload, h.absent, hlinks, fun c klass hc hk ↦ ?_, howned⟩
  have hclass := h.classes c klass hc hk
  rcases hstep.modules with hm | hm | ⟨ext, f, -, -, hm⟩
  · rwa [hm]
  · rwa [hm, if_neg (hother c klass hc hk)]
  · rwa [hm, if_neg (hother c klass hc hk)]

theorem TraceInv.push {call : Call} {s t : State F} {opened : Opened F}
    (h : TraceInv π s₀ top stack s) (hcall : callsOf π s₀ top stack call)
    (hstack : call.name ∉ stack) (hn : ¬ s.Loaded call.name)
    (hopen : openPackage π call.name call.checksum call.ext s = (.ok (some opened), t)) :
    TraceInv π s₀ top (call.name :: stack) t := by
  have ht := h.openStep hcall hstack hopen
  refine ⟨h.load.push hcall hstack hopen, ?_, ?_, ?_, ht.owned⟩
  · intro y hy
    rcases List.mem_cons.mp hy with rfl | hy
    · exact h.load.not_loaded hn
    · exact h.absent y hy
  · intro e he y hy
    rcases ht.links e he y hy with h' | h' | h'
    · exact .inl h'
    · exact .inr (.inl h')
    · exact .inr (.inr (List.mem_cons_of_mem _ h'))
  · intro c klass hc hk
    rcases List.mem_cons.mp hc with hname | hc
    · obtain rfl : call = c := hk.2 stack call hcall (by rw [hname])
      obtain ⟨ext, f, hext, hf, hclass⟩ := hk.1
      have ho := openPackage_opens hopen
      have hfs := h.load.steps.fs
      obtain ⟨g, hg, -, hsource⟩ := ho.file
      have hext' := ho.ext
      rw [hfs] at hext' hg
      obtain rfl := Option.some.inj (hext.symm.trans hext')
      obtain rfl := Option.some.inj (hf.symm.trans hg)
      rw [ho.after, module_executed, if_pos rfl, ← hsource]
      simp [Namespace.initialise, hclass]
    · exact ht.classes c klass hc hk

theorem TraceInv.addDependent {t : State F} (h : TraceInv π s₀ top stack t) {d name : Str}
    (hd : t.Loaded d) (hn : ¬ t.Loaded name) (hname : name ∈ stack) :
    TraceInv π s₀ top stack (t.addDependent d name) := by
  have hloaded (y : Str) : (t.addDependent d name).Loaded y ↔ t.Loaded y :=
    State.loaded_modifyRecord _ _ _ t
  refine h.of_module_eq (h.load.addDependent hd hn) (fun _ ↦ rfl) (fun e he y hy ↦ ?_)
    fun y hy ↦ h.owned y fun hl ↦ hy ((hloaded y).mpr hl)
  rw [hloaded]
  rcases dependents_addDependent d name e t y hy with hy | ⟨-, rfl⟩
  · exact h.links e he y hy
  · exact .inr (.inr hname)

theorem TraceInv.pop {name : Str} {t : State F} (h : TraceInv π s₀ top (name :: stack) t)
    (hlinks : t.Loaded name ∨ ∀ e, s₀.Loaded e → name ∈ t.dependents e →
      name ∈ s₀.dependents e) : TraceInv π s₀ top stack t := by
  refine ⟨h.load.mono,
    fun y hy ↦ h.absent y (List.mem_cons_of_mem _ hy), fun e he y hy ↦ ?_,
    fun c klass hc ↦ h.classes c klass (List.mem_cons_of_mem _ hc), h.owned⟩
  rcases h.links e he y hy with h' | h' | h'
  · exact .inl h'
  · exact .inr (.inl h')
  · rcases List.mem_cons.mp h' with rfl | h'
    · rcases hlinks with hl | hl
      · exact .inr (.inl hl)
      · exact .inl (hl e he hy)
    · exact .inr (.inr h')

theorem Starts.not_fails {call : Call} {u : State F} {l : List Str}
    {result : Outcome (Option (PackageRecord F)) × State F} (h : Starts π s₀ top call)
    (hu : TraceInv π s₀ top (call.name :: stack) u) (hl : Reads π s₀ (callsOf π s₀ top) call l)
    (hdeps : ∀ d ∈ l, u.Loaded d) (hn : ¬ u.Loaded call.name)
    (hfail : StartFails call.name u result) : False := by
  obtain ⟨klass, hown, hstart⟩ := h
  have hclass := hu.classes call klass List.mem_cons_self hown
  obtain ⟨obj, hobj, hrun⟩ := hstart u.tick
  obtain ⟨r, hr⟩ := hrun u l hu.load.steps hl hdeps hn
  rcases hfail.reason with ⟨hnone, -⟩ | ⟨k, hk, ⟨e, he, -⟩ | ⟨o, e, ho, hraised⟩⟩
  · simp [hnone] at hclass
  · obtain rfl := Option.some.inj (hk.symm.trans hclass)
    simp [he] at hobj
  · obtain rfl := Option.some.inj (hk.symm.trans hclass)
    obtain rfl := Except.ok.inj (ho.symm.trans hobj)
    simp [hraised] at hr

theorem Suspect.mayCall {call : Call} (h : Suspect π s₀ top call) : MayCall π s₀ top call := by
  induction h with
  | root => exact .root
  | pulled _ hl hd hn hne _ ih => exact ih.pulled hl hd hn hne

/-- The calls that are made, given that `top` is made. -/
def Admitted (π : Platform F) (s₀ : State F) (top call : Call) : Prop :=
  Suspect π s₀ top call ∨ ∃ x, call = .ofDependency x ∧ Certain π s₀ (callsOf π s₀ top) x

theorem ofDependency_of_certain {call : Call} (hcall : callsOf π s₀ top stack call)
    (hc : Certain π s₀ (callsOf π s₀ top) call.name) : call = .ofDependency call.name :=
  hc.good_self.2.alone stack call hcall rfl

theorem Admitted.pulled {call : Call} {l : List Str} {d : Str}
    (h : Admitted π s₀ top call) (hl : Reads π s₀ (callsOf π s₀ top) call l) (hd : d ∈ l)
    (hn : ¬ s₀.Loaded d) (hne : d ≠ top.name)
    (hdeps : Certain π s₀ (callsOf π s₀ top) call.name → l ⊆ declared π s₀.fs call.name none) :
    Admitted π s₀ top (.ofDependency d) := by
  by_cases hc : Certain π s₀ (callsOf π s₀ top) d
  · exact .inr ⟨d, rfl, hc⟩
  · rcases h with h | ⟨x, rfl, hx⟩
    · exact .inl (.pulled h hl hd hn hne hc)
    · exact absurd (hx.needs ⟨hdeps hx hd, hn⟩) hc

section Steps

variable {call : Call} {s t u : State F} {opened : Opened F}

theorem TraceInv.opened_declared (h : TraceInv π s₀ top stack s)
    (hcall : callsOf π s₀ top stack call)
    (ho : Opens π call.name call.checksum call.ext s t opened)
    (hc : Certain π s₀ (callsOf π s₀ top) call.name) :
    opened.dependencies ⊆ declared π s₀.fs call.name none := by
  have hform := ofDependency_of_certain hcall hc
  have htidy : Tidy π s₀ (callsOf π s₀ top) call := hform ▸ hc.good_self.2
  have hdecl := declared_eq (h.load.opened htidy ho).1
  rw [show call.ext = none by rw [hform]; rfl] at hdecl
  exact hdecl ▸ fun _ hx ↦ hx

theorem TraceInv.old_links (h : TraceInv π s₀ top stack s) (hstack : call.name ∉ stack)
    (hn : ¬ s.Loaded call.name)
    (hopen : openPackage π call.name call.checksum call.ext s = (.ok (some opened), t))
    (e : Str) (he : s₀.Loaded e) (hmem : call.name ∈ t.dependents e) :
    call.name ∈ s₀.dependents e := by
  have hstep := openPackage_step (π := π) call.name call.checksum call.ext s
  rw [hopen] at hstep
  rw [State.dependents, hstep.record.1] at hmem
  rcases h.links e he _ hmem with hold | hl | hs
  · exact hold
  · exact absurd hl hn
  · exact absurd hs hstack

theorem TraceInv.leave_stopped (hharmless : Harmless π s₀ top)
    (h : TraceInv π s₀ top stack s) (hcall : callsOf π s₀ top stack call)
    (hadm : Admitted π s₀ top call) (hstack : call.name ∉ stack) (hn : ¬ s.Loaded call.name)
    (hopen : openPackage π call.name call.checksum call.ext s = (.ok (some opened), t))
    (hu : TraceInv π s₀ top (call.name :: stack) u)
    (hstop : StopsAt π s₀ (callsOf π s₀ top) call.name opened.dependencies t u) :
    TraceInv π s₀ top stack u := by
  have hopens := openPackage_opens hopen
  obtain ⟨mid, d, post, heq, hd, hc, hlinks⟩ := hstop
  refine hu.pop (.inr fun e he hmem ↦ ?_)
  rcases hlinks e hmem with hmem | hmem
  · exact h.old_links hstack hn hopen e he hmem
  · rcases hadm with hsus | ⟨x, rfl, hx⟩
    · exact hharmless.stopped call mid d post hsus (heq ▸ h.load.reads hopens) hd hc e hmem he
    · refine absurd (hx.needs ⟨h.opened_declared hcall hopens hx ?_, hd⟩) hc
      rw [heq]
      exact List.mem_append_right _ List.mem_cons_self

theorem Harmless.owned_fails (hharmless : Harmless π s₀ top) (hsus : Suspect π s₀ top call)
    (hl : Reads π s₀ (callsOf π s₀ top) call opened.dependencies)
    (hu : TraceInv π s₀ top (call.name :: stack) u) (hdeps : ∀ d ∈ opened.dependencies, u.Loaded d)
    (hnu : ¬ u.Loaded call.name) {result : Outcome (Option (PackageRecord F)) × State F}
    (hfail : StartFails call.name u result) : result.2.owned call.name ⊆ u.owned call.name := by
  rcases hfail.reason with ⟨-, hreg⟩ | ⟨klass, hk, ⟨e, -, hreg⟩ | ⟨obj, e, hobj, hexec⟩⟩
  · rw [State.owned, hreg]
    exact fun _ hi ↦ hi
  · rw [State.owned, hreg]
    exact fun _ hi ↦ hi
  · rcases hu.load.packageClass (moduleName call.name) with hclass | ⟨n, hn, hclass⟩
    · simp [hk] at hclass
    · exact hharmless.ran call _ n klass u.tick obj u e _ hsus hl hn (hclass.trans hk) hobj
        hu.load.steps hdeps hnu hexec

theorem TraceInv.owned_start {result : Outcome (Option (PackageRecord F)) × State F}
    (hu : TraceInv π s₀ top (call.name :: stack) u) (hnu : ¬ u.Loaded call.name)
    (hfail : StartFails call.name u result)
    (hself : result.2.owned call.name ⊆ u.owned call.name) {y : Str} (hy : ¬ result.2.Loaded y) :
    result.2.owned y ⊆ s₀.owned y := by
  by_cases hname : y = call.name
  · subst hname
    exact List.Subset.trans hself (hu.owned _ hnu)
  · have hloaded : ¬ u.Loaded y := by
      rw [State.Loaded, ← hfail.packagesLoaded]
      exact hy
    rw [State.owned, owned_of_registers hfail.registers hname]
    exact hu.owned y hloaded

theorem TraceInv.leave_started (hharmless : Harmless π s₀ top)
    (h : TraceInv π s₀ top stack s) (hcall : callsOf π s₀ top stack call)
    (hadm : Admitted π s₀ top call) (hstack : call.name ∉ stack) (hn : ¬ s.Loaded call.name)
    (hopen : openPackage π call.name call.checksum call.ext s = (.ok (some opened), t))
    (hframe : ∀ e, call.name ∈ u.dependents e →
      call.name ∈ t.dependents e ∨ e ∈ opened.dependencies)
    (hu : TraceInv π s₀ top (call.name :: stack) u) (hnu : ¬ u.Loaded call.name)
    (hlinked : ∀ d ∈ opened.dependencies, call.name ∈ u.dependents d) :
    TraceInv π s₀ top stack
      (startPackage call.name call.checksum call.autoload opened u).2 := by
  have hopens := openPackage_opens hopen
  have hload := LoadInv.startPackage (runOf_top π s₀ top) hcall h.load hopens hu.load hnu hlinked
    call.autoload
  have hdeps : ∀ d ∈ opened.dependencies, u.Loaded d :=
    fun d hd ↦ State.loaded_of_mem_dependents (hlinked d hd)
  rcases startPackage_cases call.name call.checksum call.autoload opened u with
    hfail | ⟨klass, obj, registry, -, -, hexec, heq⟩
  · have hsus : Suspect π s₀ top call := by
      rcases hadm with hsus | ⟨x, rfl, hx⟩
      · exact hsus
      · have hdecl := declared_eq (h.load.opened hx.good_self.2 hopens).1
        obtain ⟨r, hr⟩ := (hu.load.starts hx.good_self.1 hx.good_self.2 hnu
          (hdecl ▸ hdeps) opened).2 rfl
        rcases hfail.outcome with ho | ⟨_, _, _, _, -, -, -, -, ho⟩ <;> cases ho.symm.trans hr
    have hreads := h.load.reads hopens
    have hold : ∀ e, s₀.Loaded e → call.name ∈ u.dependents e → call.name ∈ s₀.dependents e := by
      intro e he hmem
      rcases hframe e hmem with hmem | hmem
      · exact h.old_links hstack hn hopen e he hmem
      · exact hharmless.started call _ u hsus hreads hu.load.steps hdeps hnu
          (fun hs ↦ hs.not_fails hu hreads hdeps hnu hfail) e hmem he
    have howned := hharmless.owned_fails hsus hreads hu hdeps hnu hfail
    have hafter := fun y ↦ hu.owned_start hnu hfail howned (y := y)
    obtain ⟨tick, registry, hsnd⟩ := hfail.frame
    refine (hu.pop (.inr hold)).of_module_eq hload (fun m ↦ by rw [hsnd]; rfl) ?_ hafter
    rw [hsnd]
    exact (hu.pop (.inr hold)).links
  · have hregisters := ResourceRegistry.exec_registers call.name obj.run u.resourceRegistry
    rw [hexec] at hregisters
    obtain ⟨list, hsnd⟩ := recordPackage_snd call.name call.checksum call.autoload
      (opened.record obj) (ran u registry)
    have hdependents := (startPackage_frame call.name call.checksum call.autoload opened u).2.1
    have hloaded (y : Str) (hy : y = call.name ∨ u.Loaded y) :
        (startPackage call.name call.checksum call.autoload opened u).2.Loaded y := by
      rw [heq, hsnd]
      exact (State.loaded_insert call.name y (opened.record obj) (ran u registry)).mpr hy
    refine ⟨hload, fun y hy ↦ hu.absent y (List.mem_cons_of_mem _ hy), fun e he y hy ↦ ?_,
      fun c klass hc hk ↦ ?_, fun y hy ↦ ?_⟩
    · rcases hu.links e he y (hdependents e y hy) with hy | hy | hy
      · exact .inl hy
      · exact .inr (.inl (hloaded y (.inr hy)))
      · rcases List.mem_cons.mp hy with rfl | hy
        · exact .inr (.inl (hloaded _ (.inl rfl)))
        · exact .inr (.inr hy)
    · rw [heq, hsnd]
      exact hu.classes c klass (List.mem_cons_of_mem _ hc) hk
    · obtain ⟨hne, hny⟩ := not_or.mp fun hor ↦ hy (hloaded y hor)
      have hregistry : (startPackage call.name call.checksum call.autoload opened u).2.owned y =
          registry.owned y := by
        rw [heq, hsnd]
        rfl
      rw [hregistry, owned_of_registers hregisters hne]
      exact hu.owned y hny

end Steps

/-- What a call that `top` makes does to the invariant. -/
def FailedCall (π : Platform F) (s₀ : State F) (top : Call) (stack : List Str) (call : Call)
    (s : State F) (o : Outcome (Option (PackageRecord F))) (t : State F) : Prop :=
  CertainCall π s₀ (callsOf π s₀ top) (MayLoad π s₀ top) stack call s o t ∧
    (callsOf π s₀ top stack call → TraceInv π s₀ top stack s → ¬ s.Loaded call.name →
      Admitted π s₀ top call →
      (∀ y ∈ stack, Certain π s₀ (callsOf π s₀ top) y → TransGen (Missing π s₀) y call.name) →
      ∀ r, o = .ok r → TraceInv π s₀ top stack t)

/-- What the loop over the dependencies of a package does to it. -/
def FailedLoop (π : Platform F) (s₀ : State F) (top : Call) (stack : List Str) (name : Str)
    (deps : List Str) (s : State F) (o : Outcome Bool) (t : State F) : Prop :=
  CertainLoop π s₀ (callsOf π s₀ top) (MayLoad π s₀ top) stack name deps s o t ∧
    ∀ call pre, call.name = name → Admitted π s₀ top call →
      Reads π s₀ (callsOf π s₀ top) call (pre ++ deps) →
      (Certain π s₀ (callsOf π s₀ top) name → pre ++ deps ⊆ declared π s₀.fs name none) →
      (∀ d ∈ deps, ¬ s₀.Loaded d → d ∉ stack → callsOf π s₀ top stack (.ofDependency d)) →
      name ∈ stack → TraceInv π s₀ top stack s → Stacked π s₀ (callsOf π s₀ top) stack name →
      ∀ b, o = .ok b → TraceInv π s₀ top stack t

theorem FailedLoop.of_opened {call : Call} {s t u : State F} {opened : Opened F} {b : Bool}
    (h : FailedLoop π s₀ top (call.name :: stack) call.name opened.dependencies t (.ok b) u)
    (hcall : callsOf π s₀ top stack call) (hstack : call.name ∉ stack)
    (hs : TraceInv π s₀ top stack s)
    (hn : ¬ s.Loaded call.name) (hadm : Admitted π s₀ top call)
    (hst : ∀ y ∈ stack, Certain π s₀ (callsOf π s₀ top) y → TransGen (Missing π s₀) y call.name)
    (hopen : openPackage π call.name call.checksum call.ext s = (.ok (some opened), t)) :
    TraceInv π s₀ top (call.name :: stack) u ∧
      (b = false → StopsAt π s₀ (callsOf π s₀ top) call.name opened.dependencies t u) := by
  have hopens := openPackage_opens hopen
  have hcalls := (runOf_top π s₀ top).pulls hcall hs.load hopens
  have ht := hs.push hcall hstack hn hopen
  have hdeps := hs.opened_declared hcall hopens
  have hstacked : Stacked π s₀ (callsOf π s₀ top) (call.name :: stack) call.name := by
    intro y hy
    refine ⟨ht.absent y hy, fun hc ↦ ?_⟩
    rcases List.mem_cons.mp hy with rfl | hy
    · exact .refl
    · exact (hst y hy hc).to_reflTransGen
  refine ⟨h.2 call [] rfl hadm (hs.load.reads hopens) hdeps hcalls List.mem_cons_self ht hstacked b
    rfl, fun hb ↦ ?_⟩
  obtain ⟨-, hall⟩ := h.1.2 hcalls ht.load
  exact (hall List.mem_cons_self hdeps hstacked).2 (by rw [hb])

theorem failed_loadRule (hharmless : Harmless π s₀ top) :
    LoadRule π (FailedCall π s₀ top) (FailedLoop π s₀ top) where
  outOfFuel stack call s :=
    ⟨(certain_loadRule (runOf_top π s₀ top)).outOfFuel stack call s,
      fun _ _ _ _ _ _ ho ↦ nomatch ho⟩
  closed {stack call s t} hstack ho := by
    exact ⟨(certain_loadRule (runOf_top π s₀ top)).closed hstack ho, fun hcall hs _ _ _ r _ ↦
      hs.openStep hcall hstack ho⟩
  refused {stack call s t e} hstack ho :=
    ⟨(certain_loadRule (runOf_top π s₀ top)).refused hstack ho, fun _ _ _ _ _ _ ho ↦ nomatch ho⟩
  stopped {stack call s t u opened o} hstack ho hQ hne hsteps := by
    refine ⟨(certain_loadRule (runOf_top π s₀ top)).stopped hstack ho hQ.1 hne hsteps,
      fun hcall hs hn hadm hst r hr ↦ ?_⟩
    rcases o with b | e | _
    · obtain rfl : b = false := by simpa using hne
      obtain ⟨hu, hstop⟩ := hQ.of_opened hcall hstack hs hn hadm hst ho
      exact TraceInv.leave_stopped hharmless hs hcall hadm hstack hn ho hu (hstop rfl)
    · cases hr
    · cases hr
  started {stack call s t u opened} hstack ho hQ hsteps hlinked := by
    refine ⟨(certain_loadRule (runOf_top π s₀ top)).started hstack ho hQ.1 hsteps hlinked,
      fun hcall hs hn hadm hst r hr ↦ ?_⟩
    obtain ⟨hu, -⟩ := hQ.of_opened hcall hstack hs hn hadm hst ho
    have hnu := hsteps.not_loaded List.mem_cons_self (openPackage_not_loaded_after ho)
    have hkeeps := hQ.1.1 call.name List.mem_cons_self
    refine hs.leave_started hharmless hcall hadm hstack hn ho (fun e he ↦ ?_) hu hnu hlinked
    rcases hkeeps.2 e he with he | ⟨-, he⟩
    · exact .inl he
    · exact .inr he
  done stack name s :=
    ⟨(certain_loadRule (runOf_top π s₀ top)).done stack name s, fun _ _ _ _ _ _ _ _ hs _ _ _ ↦ hs⟩
  cycle rest s hd :=
    ⟨(certain_loadRule (runOf_top π s₀ top)).cycle rest s hd, fun _ _ _ _ _ _ _ _ hs _ _ _ ↦ hs⟩
  present {stack name d rest s t o} hd hl hn hQ := by
    refine ⟨(certain_loadRule (runOf_top π s₀ top)).present (o := o) hd hl hn hQ.1, ?_⟩
    intro call pre hname hadm hreads hdeps hcalls hmem hs hst
    refine hQ.2 call (pre ++ [d]) hname hadm ?_ ?_ (fun x hx ↦ hcalls x (by simp [hx])) hmem
      (hs.addDependent hl hn hmem) hst
    · rwa [List.append_assoc]
    · rwa [List.append_assoc]
  pulled {stack name d rest s t u o r} hd hl hn hP hsteps hld hQ := by
    refine ⟨(certain_loadRule (runOf_top π s₀ top)).pulled (o := o) hd hl hn hP.1 hsteps hld hQ.1,
      ?_⟩
    intro call pre hname hadm hreads hdeps hcalls hmem hs hst
    have hnd : ¬ s₀.Loaded d := hs.load.not_loaded hl
    have hneed := hst.needs (d := d) fun hc ↦ ⟨hdeps hc (by simp), hnd⟩
    have hcall := hcalls d (by simp) hnd hd
    have ht := hP.2 hcall hs hl
      (hadm.pulled hreads (by simp) hnd (hcall.name_ne hmem) (hname ▸ hdeps))
      (fun y hy ↦ (hneed y hy).2) r rfl
    refine hQ.2 call (pre ++ [d]) hname hadm ?_ ?_ (fun x hx ↦ hcalls x (by simp [hx])) hmem
      (ht.addDependent hld hn hmem) hst
    · rwa [List.append_assoc]
    · rwa [List.append_assoc]
  missing {stack name d rest s t o} hd hl hP hsteps hmiss := by
    refine ⟨(certain_loadRule (runOf_top π s₀ top)).missing hd hl hP.1 hsteps hmiss, ?_⟩
    intro call pre hname hadm hreads hdeps hcalls hmem hs hst b hb
    have hnd : ¬ s₀.Loaded d := hs.load.not_loaded hl
    have hneed := hst.needs (d := d) fun hc ↦ ⟨hdeps hc (by simp), hnd⟩
    rcases o with r | e | _
    · have hcall := hcalls d (by simp) hnd hd
      exact hP.2 hcall hs hl
        (hadm.pulled hreads (by simp) hnd (hcall.name_ne hmem) (hname ▸ hdeps))
        (fun y hy ↦ (hneed y hy).2) r rfl
    · cases hb
    · cases hb

end

section Corrected

variable (π : Platform F)

def State.withFiles (fs : FileSystem F) (s : State F) : State F := { s with fs := fs }

/-- The call `top`, and what came before it, leave nothing in the modules of the packages that its
package needs with the files `fs` but what these files define, and no two of them share a module. -/
structure Replaceable (s₀ : State F) (top : Call) (fs : FileSystem F) : Prop where
  fresh : ∀ x n, Reached π (s₀.withFiles fs) top.name x →
    Source π s₀ (callsOf π s₀ top) (moduleName x) n → Fresh n (defines π fs x none)
  distinct : ∀ x y, Reached π (s₀.withFiles fs) top.name x →
    Reached π (s₀.withFiles fs) top.name y → moduleName x = moduleName y → x = y

/-- The package `p` is corrected in `s'`: it and all that it needs can be loaded, as far as nothing
is registered for them that was not in `s`. -/
structure Corrected (s s' : State F) (p : Str) : Prop where
  loadable : ∀ x, Reached π s' p x → s'.owned x ⊆ s.owned x → Loadable π s' x none
  acyclic : ∀ x, Reached π s' p x → ¬ TransGen (Missing π s') x x

/-- Nothing in `s'` goes back to an attempt to load `p` in `s`, and once the files are those of
`fs`, a later load does not fail because of it. -/
structure LeavesNoTrace (s s' : State F) (p : Str) (fs : FileSystem F) : Prop where
  not_loaded : ¬ s'.Loaded p
  owned : s'.owned p ⊆ s.owned p
  dependents : ∀ d, s.Loaded d → ∀ x ∈ s'.dependents d, x ∉ s.dependents d → s'.Loaded x
  later : ∀ checksum autoload, (∀ c, checksum = some c → Matches π fs p c) →
    Corrected π s (s'.withFiles fs) p →
    (packageLoad π p checksum autoload none (s'.withFiles fs)).2.Loaded p

end Corrected

section

variable {π : Platform F} {s₀ s s' : State F} {top : Call} {fs : FileSystem F} {p x : Str}

theorem Reached.of_loaded (h : Reached π (s'.withFiles fs) p x)
    (hloaded : ∀ y, s.Loaded y → s'.Loaded y) : Reached π (s.withFiles fs) p x :=
  ReflTransGen.mono (fun _ y hy ↦ ⟨hy.1, fun hl ↦ hy.2 (hloaded y hl)⟩) _ _ h

theorem Reached.not_loaded (h : Reached π s p x) (hp : ¬ s.Loaded p) : ¬ s.Loaded x := by
  rcases ReflTransGen.cases_tail h with rfl | ⟨y, -, hy⟩
  · exact hp
  · exact hy.2

theorem LoadInv.fresh_of_sources {calls : List Str → Call → Prop} {built : Str → Prop}
    {stack : List Str} {m : Str} {assigned : Namespace} (h : LoadInv π s₀ calls built stack s)
    (hsources : ∀ n, Source π s₀ calls m n → Fresh n assigned) : Fresh (s.module m) assigned := by
  constructor
  · intro ha
    rcases h.dependencies m with hnone | ⟨n, hn, heq⟩
    · rw [hnone]
      rfl
    · exact heq ▸ (hsources n hn).dependencies ha
  · intro ha
    rcases h.packageClass m with hnone | ⟨n, hn, heq⟩
    · exact hnone
    · exact heq ▸ (hsources n hn).packageClass ha

theorem Replaceable.unspoilt (h : Replaceable π s₀ top fs) (ht : TraceInv π s₀ top [] s) :
    Unspoilt π (s.withFiles fs) top.name := by
  have hreached (x : Str) (hx : Reached π (s.withFiles fs) top.name x) :
      Reached π (s₀.withFiles fs) top.name x :=
    hx.of_loaded fun y hy ↦ ht.load.steps.grows.loaded hy
  exact ⟨fun x hx ↦ ht.load.fresh_of_sources fun n hn ↦ h.fresh x n (hreached x hx) hn,
    fun x y hx hy ↦ h.distinct x y (hreached x hx) (hreached y hy)⟩

/-- A load that fails only where it is harmless leaves no trace, and a corrected package is loaded
later if its module, and those of its dependencies, hold nothing that its files do not define. -/
theorem failed_load_leaves_no_trace {checksum : Option Str} {autoload : Bool} {ext : Option Ext}
    (hp : ¬ s.Loaded p) (hharmless : Harmless π s ⟨p, checksum, autoload, ext⟩)
    (hreplace : Replaceable π s ⟨p, checksum, autoload, ext⟩ fs)
    (hnone : (packageLoad π p checksum autoload ext s).1 = .ok none) :
    LeavesNoTrace π s (packageLoad π p checksum autoload ext s).2 p fs := by
  obtain ⟨⟨⟨-, hout⟩, -⟩, hinv⟩ :=
    (failed_loadRule hharmless).packageLoad p checksum autoload ext s
  have ht := hinv callsOf_root traceInv_initial hp (.inl .root) (by simp) none hnone
  have hnot := hout hnone hp
  refine ⟨hnot, ht.owned p hnot, fun d hd x hx hnew ↦ ?_, fun c a hgiven hcorrected ↦ ?_⟩
  · rcases ht.links d hd x hx with hold | hl | hstack
    · exact absurd hold hnew
    · exact hl
    · exact absurd hstack List.not_mem_nil
  · refine loads_of_loadable a hnot (hreplace.unspoilt ht) (fun x hx ↦ ?_) hcorrected.acyclic hgiven
    exact hcorrected.loadable x hx (ht.owned x (hx.not_loaded hnot))

end

/-- A package `d` beside a package `p` with some dependencies. -/
def besideScripts (dependencies : List Str) : List (Str × Script) :=
  [("d".toList, .standard "1".toList [] .ret none),
    ("p".toList, .standard "2".toList dependencies .ret none)]

theorem failed_load_leaves_dependent :
    ¬ ∀ t, Reachable scriptPlatform (fun _ ↦ True) (fun _ _ ↦ True) t →
      ∀ p checksum autoload ext, ¬ t.state.Loaded p →
      (packageLoad scriptPlatform p checksum autoload ext t.state).1 = .ok none →
      ∀ fs, LeavesNoTrace scriptPlatform t.state
        (packageLoad scriptPlatform p checksum autoload ext t.state).2 p fs := by
  intro h
  have htrace := h (scriptThread (besideScripts ["d".toList, "m".toList]) none ["load d 1"])
    (reachable_scriptThread trivial none ["load d 1"]) "p".toList (some "2".toList) false none
    (by decide +kernel) (Outcome.eq_none_of_map_isSome (by decide +kernel)) (scriptFiles [])
  exact absurd (htrace.dependents "d".toList (by decide +kernel) "p".toList (by decide +kernel)
    (by decide +kernel)) (by decide +kernel)

section Witness

/-- The package `d` is loaded, and `p` depends on a missing package before it comes to `d`. -/
def besideState : State Script :=
  (packageLoad scriptPlatform "d".toList (some "1".toList) false none
    (.initial scriptPlatform (scriptFiles (besideScripts ["m".toList, "d".toList])) none)).2

def besideCall : Call := ⟨"p".toList, some "2".toList, false, none⟩

theorem evaluated_beside :
    besideState.Loaded "d".toList ∧ ¬ besideState.Loaded "p".toList ∧
    (packageLoad scriptPlatform "p".toList (some "2".toList) false none besideState).1.map
      Option.isSome = .ok false ∧
    fileExt scriptPlatform besideState.fs "p".toList none = some .py ∧
    fileExt scriptPlatform besideState.fs "m".toList none = none ∧
    ((besideState.fs.file (candidate scriptPlatform "p".toList .py)).map
        fun f ↦ (scriptPlatform.assigns .py f.content).dependencies) =
      some (some (.list [some "m".toList, some "d".toList])) ∧
    ((besideState.fs.file (candidate scriptPlatform "p".toList .py)).bind
      fun f ↦ (scriptPlatform.assigns .py f.content).packageClass).isSome ∧
    (∀ x ∈ ["p".toList, "m".toList],
      (besideState.sysModules.lookup (moduleName x)).isNone = true) ∧
    ∀ ext ∈ extensions,
      (besideState.fs.file (candidate scriptPlatform "m".toList ext)).isNone = true := by
  decide +kernel

theorem quiet_beside {path : Str} {f : File Script} (h : besideState.fs.file path = some f)
    (ext : Ext) : (scriptPlatform.assigns ext f.content).Quiet := by
  have hfs : besideState.fs = scriptFiles (besideScripts ["m".toList, "d".toList]) :=
    (packageLoad_steps (π := scriptPlatform) _ _ _ _ _).fs
  rw [hfs] at h
  obtain ⟨q, hq, heq⟩ := mem_scriptFiles h
  simp only [besideScripts, List.mem_cons, List.not_mem_nil, or_false] at hq
  rcases hq with rfl | rfl
  · exact heq ▸ quiet_standard "1".toList [] none
  · exact heq ▸ quiet_standard "2".toList ["m".toList, "d".toList] none

theorem reads_beside {calls : List Str → Call → Prop} {l : List Str}
    (h : Reads scriptPlatform besideState calls besideCall l) : l = ["m".toList, "d".toList] := by
  obtain ⟨-, -, ext, f, hext, hf, left, -, hl⟩ := h
  obtain ⟨-, -, -, hpy, -, hfile, -⟩ := evaluated_beside
  obtain rfl := Option.some.inj (hpy.symm.trans hext)
  have hf' : besideState.fs.file (candidate scriptPlatform "p".toList .py) = some f := hf
  rw [hf', Option.map_some, Option.some.injEq] at hfile
  rw [hfile] at hl
  exact (Option.some.inj (Except.ok.inj hl)).symm

theorem not_reads_missing {calls : List Str → Call → Prop} {l : List Str} :
    ¬ Reads scriptPlatform besideState calls (.ofDependency "m".toList) l := by
  rintro ⟨-, -, ext, f, hext, -⟩
  obtain ⟨-, -, -, -, hnone, -⟩ := evaluated_beside
  exact absurd (hnone.symm.trans hext) (by simp)

theorem callsClosed_beside : CallsClosed scriptPlatform besideState besideCall
    (fun call ↦ call = besideCall ∨ call = .ofDependency "m".toList) := by
  refine ⟨.inl rfl, ?_⟩
  rintro call l d (rfl | rfl) hl hd hn -
  · rw [reads_beside hl] at hd
    simp only [List.mem_cons, List.not_mem_nil, or_false] at hd
    rcases hd with rfl | rfl
    · exact .inr rfl
    · exact absurd evaluated_beside.1 hn
  · exact absurd hl not_reads_missing

theorem alone_beside {stack : List Str} {call : Call}
    (h : callsOf scriptPlatform besideState besideCall stack call)
    (hm : moduleName call.name = moduleName besideCall.name) : call = besideCall := by
  rcases h.1 _ callsClosed_beside with rfl | rfl
  · rfl
  · exact absurd hm (by decide)

theorem starts_beside : Starts scriptPlatform besideState besideCall besideCall := by
  obtain ⟨-, -, -, hext, -, -, hsome, -⟩ := evaluated_beside
  obtain ⟨klass, hklass⟩ := Option.isSome_iff_exists.mp hsome
  obtain ⟨f, hf, hclass⟩ := Option.bind_eq_some_iff.mp hklass
  refine ⟨klass, ⟨⟨.py, f, hext, hf, hclass⟩, fun _ _ ↦ alone_beside⟩, fun tick ↦ ?_⟩
  obtain ⟨obj, hobj, hret⟩ := (quiet_beside hf .py).packageClass klass tick hclass
  exact ⟨obj, hobj, fun u _ _ _ _ _ ↦ ⟨u.resourceRegistry, by rw [hret]; rfl⟩⟩

theorem harmless_beside : Harmless scriptPlatform besideState besideCall := by
  refine ⟨fun call pre d post hcall hl hd _ e he _ ↦ ?_,
    fun call l u hcall hl _ _ _ hstarts ↦ ?_,
    fun call l n klass tick obj u e r hcall hl hn hk hobj _ _ _ hexec ↦ ?_⟩
  · rcases hcall.mayCall _ callsClosed_beside with rfl | rfl
    · have hlist := reads_beside hl
      rcases pre with _ | ⟨x, _ | ⟨y, pre⟩⟩
      · simp at he
      · obtain ⟨rfl, rfl, -⟩ : x = "m".toList ∧ d = "d".toList ∧ post = [] := by simpa using hlist
        exact absurd evaluated_beside.1 hd
      · simp at hlist
    · exact absurd hl not_reads_missing
  · rcases hcall.mayCall _ callsClosed_beside with rfl | rfl
    · exact absurd starts_beside hstarts
    · exact absurd hl not_reads_missing
  · have hquiet : n.Quiet := by
      rcases hcall.mayCall _ callsClosed_beside with rfl | rfl
      · rcases hn with rfl | ⟨stack, call, ext, f, -, -, -, hf, rfl⟩
        · obtain ⟨-, -, -, -, -, -, -, hmodules, -⟩ := evaluated_beside
          have hnone := hmodules besideCall.name List.mem_cons_self
          rw [State.module, Option.isNone_iff_eq_none.mp hnone]
          exact quiet_empty
        · exact quiet_beside hf ext
      · exact absurd hl not_reads_missing
    obtain ⟨obj', hobj', hret⟩ := hquiet.packageClass klass tick hk
    obtain rfl := Except.ok.inj (hobj.symm.trans hobj')
    rw [hret] at hexec
    cases hexec

def correctedScripts : List (Str × Script) :=
  ("m".toList, .standard "3".toList [] .ret none) :: besideScripts ["m".toList, "d".toList]

theorem evaluated_corrected :
    declared scriptPlatform (scriptFiles correctedScripts) "p".toList none =
      ["m".toList, "d".toList] ∧
    declared scriptPlatform (scriptFiles correctedScripts) "m".toList none = [] ∧
    (defines scriptPlatform (scriptFiles correctedScripts) "p".toList none).dependencies ≠ none ∧
    (∀ y ∈ ["p".toList, "m".toList], UnderPackagePath scriptPlatform y ∧
      (checksumList scriptPlatform (scriptFiles correctedScripts) y extensions).toBool = true ∧
      (foundFile scriptPlatform (scriptFiles correctedScripts) y none).isSome = true ∧
      (defines scriptPlatform (scriptFiles correctedScripts) y none).packageClass.isSome = true) ∧
    ((scriptFiles correctedScripts).file (candidate scriptPlatform "p".toList .py)).map
      (fun f ↦ scriptPlatform.sha1 f.content) = some "2".toList := by
  decide +kernel

theorem reached_corrected {s : State Script} (hd : s.Loaded "d".toList) {x : Str}
    (h : Reached scriptPlatform (s.withFiles (scriptFiles correctedScripts)) "p".toList x) :
    x = "p".toList ∨ x = "m".toList := by
  obtain ⟨hp, hm, -⟩ := evaluated_corrected
  have hclosed : Graph.Closed (Missing scriptPlatform (s.withFiles (scriptFiles correctedScripts)))
      (fun x ↦ x = "p".toList ∨ x = "m".toList) := by
    rintro a b (rfl | rfl) ⟨hb, hn⟩
    · have hlist : b ∈ declared scriptPlatform (scriptFiles correctedScripts) "p".toList none := hb
      rw [hp] at hlist
      rcases List.mem_cons.mp hlist with rfl | hlist
      · exact .inr rfl
      · exact absurd (List.mem_singleton.mp hlist ▸ hd) hn
    · have hlist : b ∈ declared scriptPlatform (scriptFiles correctedScripts) "m".toList none := hb
      rw [hm] at hlist
      exact absurd hlist List.not_mem_nil
  exact hclosed.reach (.inl rfl) h

theorem quiet_corrected (x : Str) :
    (defines scriptPlatform (scriptFiles correctedScripts) x none).Quiet := by
  rcases defines_scriptFiles correctedScripts x none with hd | ⟨q, hq, hd⟩
  · exact hd ▸ quiet_empty
  · simp only [correctedScripts, besideScripts, List.mem_cons, List.not_mem_nil, or_false] at hq
    rcases hq with rfl | rfl | rfl <;> exact hd ▸ quiet_standard _ _ _

theorem replaceable_beside :
    Replaceable scriptPlatform besideState besideCall (scriptFiles correctedScripts) := by
  obtain ⟨hd, -, -, -, -, -, -, hmodules, hfiles⟩ := evaluated_beside
  constructor
  · intro x n hx hn
    rcases hn with rfl | ⟨stack, call, ext, f, hcall, hm, -, hf, -⟩
    · have hnone := hmodules x (List.mem_pair.mpr (reached_corrected hd hx))
      rw [State.module, Option.isNone_iff_eq_none.mp hnone]
      exact fresh_empty _
    · rcases reached_corrected hd hx with rfl | rfl
      · obtain ⟨-, -, hlists, hloadable, -⟩ := evaluated_corrected
        have hclass := (hloadable "p".toList List.mem_cons_self).2.2.2
        refine ⟨fun h ↦ absurd h hlists, fun h ↦ absurd hclass ?_⟩
        rw [Option.not_isSome_iff_eq_none]
        exact h
      · rcases hcall.1 _ callsClosed_beside with rfl | rfl
        · exact absurd hm (by decide)
        · have hnone := hfiles ext (extensions_complete ext)
          have hf' : besideState.fs.file (candidate scriptPlatform "m".toList ext) = some f := hf
          rw [hf'] at hnone
          exact absurd hnone Bool.false_ne_true
  · intro x y hx hy hm
    rcases reached_corrected hd hx with rfl | rfl <;> rcases reached_corrected hd hy with rfl | rfl
    · rfl
    · exact absurd hm (by decide)
    · exact absurd hm (by decide)
    · rfl

theorem corrected_beside {s : State Script} (hd : s.Loaded "d".toList) :
    Corrected scriptPlatform besideState (s.withFiles (scriptFiles correctedScripts))
      "p".toList := by
  constructor
  · intro x hx _
    obtain ⟨-, -, -, hfiles, -⟩ := evaluated_corrected
    obtain ⟨hunder, hreadable, hfound, hclass⟩ :=
      hfiles x (List.mem_pair.mpr (reached_corrected hd hx))
    exact loadable_of_quiet hunder hreadable hfound hclass (quiet_corrected x)
  · intro x hx hcycle
    obtain ⟨hp, hm, -⟩ := evaluated_corrected
    have hleaf (y : Str) : ¬ Missing scriptPlatform
        (s.withFiles (scriptFiles correctedScripts)) "m".toList y := by
      intro hy
      have hlist : y ∈ declared scriptPlatform (scriptFiles correctedScripts) "m".toList none :=
        hy.1
      rw [hm] at hlist
      exact absurd hlist List.not_mem_nil
    obtain ⟨y, hxy, hyx⟩ := TransGen.head'_iff.mp hcycle
    rcases reached_corrected hd hx with rfl | rfl
    · rcases reached_corrected hd (hx.tail hxy) with rfl | rfl
      · have hlist : "p".toList ∈
            declared scriptPlatform (scriptFiles correctedScripts) "p".toList none := hxy.1
        rw [hp] at hlist
        exact absurd hlist (by decide)
      · rcases ReflTransGen.cases_head hyx with heq | ⟨z, hz, -⟩
        · exact absurd heq (by decide)
        · exact hleaf z hz
    · exact hleaf y hxy

theorem failed_load_leaves_no_trace_beside :
    LeavesNoTrace scriptPlatform besideState
        (packageLoad scriptPlatform "p".toList (some "2".toList) false none besideState).2
        "p".toList (scriptFiles correctedScripts) ∧
      (packageLoad scriptPlatform "p".toList (some "2".toList) false none
        ((packageLoad scriptPlatform "p".toList (some "2".toList) false none
          besideState).2.withFiles (scriptFiles correctedScripts))).2.Loaded "p".toList := by
  obtain ⟨hd, hp, hnone, -⟩ := evaluated_beside
  obtain ⟨-, -, -, -, hsum⟩ := evaluated_corrected
  have htrace := failed_load_leaves_no_trace hp harmless_beside replaceable_beside
    (Outcome.eq_none_of_map_isSome hnone)
  refine ⟨htrace, htrace.later _ _ (fun c hc ↦ ?_) (corrected_beside ?_)⟩
  · cases hc
    obtain ⟨f, hf, hsum⟩ := Option.map_eq_some_iff.mp hsum
    exact ⟨.py, f, hf, hsum⟩
  · exact (packageLoad_steps _ _ _ _ _).grows.loaded hd

end Witness

end Liota.PackageManager
