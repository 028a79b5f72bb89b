import Liota.PackageManager.Certain

namespace Liota.PackageManager

open Python Python.Computation Python.Text Relation

variable {F : Type}

section Definitions

variable (π : Platform F) (sources : Str → Ext → F → Prop)

/-- A package that is not loaded, has a file among `sources`, and whose dependencies are loaded:
those that the file lists, or else those left in its module. -/
def Ready (s : State F) (name : Str) : Prop :=
  ¬ s.Loaded name ∧ ∃ ext f left deps, s.fs.file (candidate π name ext) = some f ∧
    sources name ext f.content ∧
    dependencyList ((π.assigns ext f.content).dependencies <|> left) = .ok (some deps) ∧
    ∀ d ∈ deps, s.Loaded d

/-- The steps of `_package_load` with what they say about package code: only files among `sources`
are executed, code runs for packages that are ready, registers for them, and only they become
loaded. -/
inductive ReadyStep (s t : State F) : Prop
  | quiet (h : LoadStep π [] s t)
      (hmodule : ∀ m, t.module m = s.module m ∨ t.module m = Namespace.empty)
      (hreg : t.resourceRegistry = s.resourceRegistry) (hloaded : ∀ k, t.Loaded k → s.Loaded k)
  | imported {name : Str} {ext : Ext} {f : File F} {checksum : Option Str}
      (hf : s.fs.file (candidate π name ext) = some f) (hsource : sources name ext f.content)
      (hdone : π.importing ext f.content s.tick = .done)
      (ht : t = executed π name ext f.content checksum s)
  | raised {name : Str} {klass : PackageClass} {tick : ℕ} {obj : Instance} {e : PyErr}
      {registry : ResourceRegistry} (hready : Ready π sources s name)
      (hclass : (s.module (moduleName name)).packageClass = some klass)
      (hobj : klass tick = .ok obj)
      (hexec : ResourceRegistry.exec name obj.run s.resourceRegistry = (.raised e, registry))
      (ht : t = { s with resourceRegistry := registry })
  | loaded {name : Str} {klass : PackageClass} {tick : ℕ} {r : PackageRecord F}
      {registry : ResourceRegistry} {checksum : Option Str} (hready : Ready π sources s name)
      (hclass : (s.module (moduleName name)).packageClass = some klass)
      (hobj : klass tick = .ok r.obj)
      (hexec : ResourceRegistry.exec name r.obj.run s.resourceRegistry = (.ok (), registry))
      (hr : r.dependents = []) (hlinked : ∀ d ∈ r.dependencies, name ∈ s.dependents d)
      (ht : t = (State.insert name r { s with resourceRegistry := registry }).log
        (.loaded name checksum))

abbrev ReadySteps : State F → State F → Prop := ReflTransGen (ReadyStep π sources)

def FoundFirst (fs : FileSystem F) (name : Str) (ext : Ext) (content : F) : Prop :=
  foundFile π fs name none = some (ext, content)

/-- What a call would execute is among `sources`. -/
def Finds (fs : FileSystem F) (call : Call) : Prop :=
  ∀ ext f, fileExt π fs call.name call.ext = some ext →
    fs.file (candidate π call.name ext) = some f → sources call.name ext f.content

end Definitions

variable {π : Platform F} {sources : Str → Ext → F → Prop}

theorem ReadyStep.step {s t : State F} (h : ReadyStep π sources s t) : LoadStep π [] s t := by
  cases h with
  | quiet h => exact h
  | imported hf _ _ ht =>
    subst ht
    exact .imported s hf
  | raised hready hclass hobj hexec ht =>
    subst ht
    exact .raised s hready.1 hclass hobj hexec
  | loaded hready hclass hobj hexec hr hlinked ht =>
    subst ht
    exact .loaded s hready.1 (by simp) hclass hobj hexec hr hlinked

theorem ReadySteps.steps {s t : State F} (h : ReadySteps π sources s t) : LoadSteps π [] s t :=
  ReflTransGen.mono (fun _ _ ↦ ReadyStep.step) _ _ h

theorem ReadySteps.loaded {s t : State F} (h : ReadySteps π sources s t) {k : Str}
    (hk : s.Loaded k) : t.Loaded k := (ReadySteps.steps h).grows.loaded hk

theorem ReadyStep.owned {s t : State F} (h : ReadyStep π sources s t) {k : Str}
    (hk : s.Loaded k) : t.owned k = s.owned k := by
  cases h with
  | quiet _ _ hreg => rw [State.owned, State.owned, hreg]
  | imported _ _ _ ht =>
    subst ht
    rfl
  | @raised name _ _ obj _ _ hready _ _ hexec ht =>
    subst ht
    have hregs := ResourceRegistry.exec_registers name obj.run s.resourceRegistry
    rw [hexec] at hregs
    have hne : k ≠ name := fun heq ↦ hready.1 (heq ▸ hk)
    exact owned_of_registers hregs hne
  | @loaded name _ _ r _ _ hready _ _ hexec _ _ ht =>
    subst ht
    have hregs := ResourceRegistry.exec_registers name r.obj.run s.resourceRegistry
    rw [hexec] at hregs
    have hne : k ≠ name := fun heq ↦ hready.1 (heq ▸ hk)
    exact owned_of_registers hregs hne

theorem ReadySteps.owned {s t : State F} (h : ReadySteps π sources s t) {k : Str}
    (hk : s.Loaded k) : t.owned k = s.owned k := by
  induction h with
  | refl => rfl
  | tail hsteps hstep ih => exact (hstep.owned (ReadySteps.loaded hsteps hk)).trans ih

section Fresh

theorem Fresh.of_initialise {old new assigned : Namespace} (hold : Fresh old assigned)
    (hnew : Fresh new assigned) : Fresh (old.initialise new) assigned := by
  refine ⟨fun ha ↦ ?_, fun ha ↦ ?_⟩
  · rcases hn : new.dependencies with _ | v
    · have heq : (old.initialise new).dependencies = old.dependencies := by
        simp [Namespace.initialise, hn]
      rw [heq]
      exact hold.dependencies ha
    · have heq : (old.initialise new).dependencies = new.dependencies := by
        simp [Namespace.initialise, hn]
      rw [heq]
      exact hnew.dependencies ha
  · simp [Namespace.initialise, hold.packageClass ha, hnew.packageClass ha]

theorem ReadyStep.fresh {s t : State F} (h : ReadyStep π sources s t) {m : Str}
    {assigned : Namespace}
    (hfiles : ∀ name ext f, s.fs.file (candidate π name ext) = some f →
      sources name ext f.content → moduleName name = m → Fresh (π.assigns ext f.content) assigned)
    (hs : Fresh (s.module m) assigned) : Fresh (t.module m) assigned := by
  cases h with
  | quiet _ hmodule =>
    rcases hmodule m with heq | heq
    · exact heq ▸ hs
    · rw [heq]
      exact fresh_empty _
  | @imported name ext f checksum hf hsource _ ht =>
    subst ht
    rw [module_executed]
    split
    · next hm => exact hs.of_initialise (hfiles name ext f hf hsource hm.symm)
    · exact hs
  | raised _ _ _ _ ht | loaded _ _ _ _ _ _ ht =>
    subst ht
    exact hs

theorem ReadySteps.fresh {s t : State F} (h : ReadySteps π sources s t) {m : Str}
    {assigned : Namespace}
    (hfiles : ∀ name ext f, s.fs.file (candidate π name ext) = some f →
      sources name ext f.content → moduleName name = m → Fresh (π.assigns ext f.content) assigned)
    (hs : Fresh (s.module m) assigned) : Fresh (t.module m) assigned := by
  induction h with
  | refl => exact hs
  | tail hsteps hstep ih =>
    refine hstep.fresh ?_ ih
    rw [(ReadySteps.steps hsteps).fs]
    exact hfiles

end Fresh

section Rule

theorem OpenStep.ready {call : Call} {s t : State F}
    (h : OpenStep π call.name call.checksum call.ext s t) (hfinds : Finds π sources s.fs call) :
    ReadySteps π sources s t := by
  cases h with
  | unchanged => exact .refl
  | rejected => exact .single (.quiet (.tick s) (fun _ ↦ .inl rfl) rfl fun _ ↦ id)
  | failed =>
    refine .single (.quiet (.dropped s) (fun m ↦ ?_) rfl fun _ ↦ id)
    simp only [State.module, Dict.lookup_erase_eq]
    split
    · exact .inr rfl
    · exact .inl rfl
  | executed hext hf hdone => exact .single (.imported hf (hfinds _ _ hext hf) hdone rfl)

theorem openPackage_ready {call : Call} {s t : State F} {o : Outcome (Option (Opened F))}
    (hfinds : Finds π sources s.fs call)
    (ho : openPackage π call.name call.checksum call.ext s = (o, t)) :
    ReadySteps π sources s t := by
  have hstep := openPackage_step (π := π) call.name call.checksum call.ext s
  rw [ho] at hstep
  exact hstep.ready hfinds

theorem addDependent_ready {s : State F} {d name : Str} (hd : s.Loaded d) (hn : ¬ s.Loaded name) :
    ReadySteps π sources s (s.addDependent d name) :=
  .single (.quiet (.linked s hd hn) (fun _ ↦ .inl rfl) rfl
    fun _ hk ↦ (State.loaded_modifyRecord _ _ _ s).mp hk)

theorem listed_ready (s : State F) (name sha1 : Str) :
    ReadyStep π sources s (writePackageIntoAutoload name sha1 s).2 := by
  obtain ⟨list, hl⟩ := writePackageIntoAutoload_frame name sha1 s
  refine .quiet (.listed s) (fun m ↦ .inl ?_) ?_ fun k hk ↦ ?_
  · rw [hl]
    rfl
  · rw [hl]
  · simpa using hk

theorem recordPackage_ready {name : Str} {s t : State F} (checksum : Option Str) (autoload : Bool)
    {record : PackageRecord F}
    (h : ReadyStep π sources s ((t.insert name record).log (.loaded name checksum))) :
    ReadySteps π sources s (recordPackage name checksum autoload record t).2 := by
  unfold recordPackage
  rw [modify_bind_apply]
  refine .head h ?_
  generalize (t.insert name record).log (.loaded name checksum) = u
  split
  · rw [bind_apply]
    have hlisted : ReadyStep π sources u (writePackageIntoAutoload name record.sha1 u).2 :=
      listed_ready u name record.sha1
    rcases hw : writePackageIntoAutoload name record.sha1 u with ⟨_ | e | _, v⟩ <;>
      rw [hw] at hlisted <;> exact .single hlisted
  · exact .refl

theorem startPackage_ready {name : Str} (checksum : Option Str) (autoload : Bool)
    (opened : Opened F) {s : State F} (hready : Ready π sources s name)
    (hlinked : ∀ d ∈ opened.dependencies, name ∈ s.dependents d) :
    ReadySteps π sources s (startPackage name checksum autoload opened s).2 := by
  have htick : ReadyStep π sources s { s with tick := s.tick + 1 } :=
    .quiet (.tick s) (fun _ ↦ .inl rfl) rfl fun _ ↦ id
  have hready' : Ready π sources { s with tick := s.tick + 1 } name := hready
  unfold startPackage
  split
  · exact .refl
  · next klass hclass =>
    dsimp only
    split
    · exact .single htick
    · next obj hobj =>
      refine .head htick ?_
      rcases hexec : ResourceRegistry.exec name obj.run s.resourceRegistry with
        ⟨_ | e | _, registry⟩
      · rw [bind_ok (runInstance_ok (s := { s with tick := s.tick + 1 }) hexec), if_pos rfl]
        exact recordPackage_ready checksum autoload
          (.loaded (r := opened.record obj) hready' hclass hobj hexec rfl hlinked rfl)
      · have hstep : ReadyStep π sources { s with tick := s.tick + 1 }
            { s with tick := s.tick + 1, resourceRegistry := registry } :=
          .raised hready' hclass hobj hexec rfl
        rw [bind_apply, runInstance_raised (s := { s with tick := s.tick + 1 }) hexec]
        cases e.isLogged <;> exact .single hstep
      · exact absurd hexec (exec_ne_diverged _ _ _ _)

theorem Opens.ready {call : Call} {s t u : State F} {opened : Opened F}
    (h : Opens π call.name call.checksum call.ext s t opened) (hfinds : Finds π sources s.fs call)
    (hfs : u.fs = s.fs) (hn : ¬ u.Loaded call.name)
    (hdeps : ∀ d ∈ opened.dependencies, u.Loaded d) : Ready π sources u call.name := by
  obtain ⟨f, hf, -, hsource⟩ := h.file
  have hlist := h.dependencies
  rw [h.after, module_executed, if_pos rfl, ← hsource] at hlist
  exact ⟨hn, opened.ext, f, (s.module (moduleName call.name)).dependencies, opened.dependencies,
    by rw [hfs]; exact hf, hfinds _ f h.ext hf, hlist, hdeps⟩

theorem started_ready {stack : List Str} {call : Call} {s t u : State F} {opened : Opened F}
    (hfinds : Finds π sources s.fs call)
    (ho : openPackage π call.name call.checksum call.ext s = (.ok (some opened), t))
    (hsteps : LoadSteps π (call.name :: stack) t u)
    (hlinked : ∀ d ∈ opened.dependencies, call.name ∈ u.dependents d) :
    ReadySteps π sources u (startPackage call.name call.checksum call.autoload opened u).2 := by
  have hopens := openPackage_opens ho
  have hn := hsteps.not_loaded List.mem_cons_self (openPackage_not_loaded_after ho)
  have hfs : u.fs = s.fs := by
    rw [hsteps.fs, hopens.after]
    rfl
  have hready := hopens.ready hfinds hfs hn
    fun d hd ↦ State.loaded_of_mem_dependents (hlinked d hd)
  exact startPackage_ready _ _ opened hready hlinked

theorem finds_foundFirst {fs : FileSystem F} {call : Call} (h : call.ext = none) :
    Finds π (FoundFirst π fs) fs call := by
  intro ext f hext hf
  rw [h] at hext
  exact (defines_eq hext hf).1

theorem ready_loadRule (fs : FileSystem F) : LoadRule π
    (fun _ call s _ t ↦ call.ext = none → s.fs = fs → ReadySteps π (FoundFirst π fs) s t)
    (fun _ _ _ s _ t ↦ s.fs = fs → ReadySteps π (FoundFirst π fs) s t) where
  outOfFuel _ _ _ _ _ := .refl
  closed _ ho hext hfs := openPackage_ready (hfs ▸ finds_foundFirst hext) ho
  refused _ ho hext hfs := openPackage_ready (hfs ▸ finds_foundFirst hext) ho
  stopped {_ call s t _ _ _} _ ho hQ _ _ hext hfs := by
    have hopen : ReadySteps π (FoundFirst π fs) s t :=
      openPackage_ready (hfs ▸ finds_foundFirst hext) ho
    exact hopen.trans (hQ (hopen.steps.fs.trans hfs))
  started {_ call s t _ _} _ ho hQ hsteps hlinked hext hfs := by
    have hfinds : Finds π (FoundFirst π fs) fs call := finds_foundFirst hext
    have hopen : ReadySteps π (FoundFirst π fs) s t := openPackage_ready (hfs ▸ hfinds) ho
    have hloop := hQ (hopen.steps.fs.trans hfs)
    exact (hopen.trans hloop).trans (started_ready (hfs ▸ hfinds) ho hsteps hlinked)
  done _ _ _ _ := .refl
  cycle _ _ _ _ := .refl
  present _ hl hn hQ hfs := (addDependent_ready hl hn).trans (hQ hfs)
  pulled _ _ hn hP hsteps hld hQ hfs := by
    have hpulled := hP rfl hfs
    exact hpulled.trans ((addDependent_ready hld hn).trans (hQ (hsteps.fs.trans hfs)))
  missing _ _ hP _ _ hfs := hP rfl hfs

end Rule

end Liota.PackageManager
