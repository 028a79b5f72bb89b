import Liota.PackageManager.Load

namespace Liota.PackageManager

open Python Python.Computation Python.Text Relation

variable {F : Type} (π : Platform F)

/-- Everything that a call of `_package_load` can do to the state, one change at a time, while
the packages of `stack` are being loaded further up. -/
inductive LoadStep (stack : List Str) : State F → State F → Prop
  | tick (s : State F) : LoadStep stack s { s with tick := s.tick + 1 }
  | imported (s : State F) {name : Str} {ext : Ext} {f : File F} {checksum : Option Str}
      (hf : s.fs.file (candidate π name ext) = some f) :
      LoadStep stack s
        { s with
          tick := s.tick + 1
          sysModules := s.sysModules.insert (moduleName name)
            ((s.module (moduleName name)).initialise (π.assigns ext f.content))
          trace := s.trace ++ [.executed name checksum] }
  | dropped (s : State F) {name : Str} {checksum : Option Str} :
      LoadStep stack s
        { s with
          tick := s.tick + 1
          sysModules := s.sysModules.erase (moduleName name)
          trace := s.trace ++ [.executed name checksum] }
  | linked (s : State F) {dependency name : Str} (hd : s.Loaded dependency)
      (hn : ¬ s.Loaded name) : LoadStep stack s (s.addDependent dependency name)
  | raised (s : State F) {name : Str} {klass : PackageClass} {tick : ℕ} {obj : Instance}
      {e : PyErr} {registry : ResourceRegistry} (hn : ¬ s.Loaded name)
      (hclass : (s.module (moduleName name)).packageClass = some klass)
      (hobj : klass tick = .ok obj)
      (hexec : ResourceRegistry.exec name obj.run s.resourceRegistry = (.raised e, registry)) :
      LoadStep stack s { s with resourceRegistry := registry }
  | loaded (s : State F) {name : Str} {klass : PackageClass} {tick : ℕ} {r : PackageRecord F}
      {registry : ResourceRegistry} {checksum : Option Str}
      (hn : ¬ s.Loaded name) (hstack : name ∉ stack)
      (hclass : (s.module (moduleName name)).packageClass = some klass)
      (hobj : klass tick = .ok r.obj)
      (hexec : ResourceRegistry.exec name r.obj.run s.resourceRegistry = (.ok (), registry))
      (hr : r.dependents = []) (hlinked : ∀ d ∈ r.dependencies, name ∈ s.dependents d) :
      LoadStep stack s
        ((State.insert name r { s with resourceRegistry := registry }).log
          (.loaded name checksum))
  | listed (s : State F) {name sha1 : Str} :
      LoadStep stack s (writePackageIntoAutoload name sha1 s).2

abbrev LoadSteps (stack : List Str) : State F → State F → Prop :=
  ReflTransGen (LoadStep π stack)

variable {π}

theorem LoadStep.mono {stack stack' : List Str} (hsub : stack' ⊆ stack) {s s' : State F}
    (h : LoadStep π stack s s') : LoadStep π stack' s s' := by
  cases h with
  | tick => exact .tick s
  | imported hf => exact .imported s hf
  | dropped => exact .dropped s
  | linked hd hn => exact .linked s hd hn
  | raised hn hclass hobj hexec => exact .raised s hn hclass hobj hexec
  | loaded hn hstack hclass hobj hexec hr hlinked =>
    exact .loaded s hn (fun hm ↦ hstack (hsub hm)) hclass hobj hexec hr hlinked
  | listed => exact .listed s

theorem LoadSteps.mono {stack stack' : List Str} (hsub : stack' ⊆ stack) {s s' : State F}
    (h : LoadSteps π stack s s') : LoadSteps π stack' s s' :=
  ReflTransGen.mono (fun _ _ ↦ LoadStep.mono hsub) _ _ h

section Frame

@[simp] theorem record_writePackageIntoAutoload (name sha1 k : Str) (s : State F) :
    (writePackageIntoAutoload name sha1 s).2.record k = s.record k := by
  unfold writePackageIntoAutoload
  split
  · rfl
  · split <;> rfl

@[simp] theorem loaded_writePackageIntoAutoload (name sha1 k : Str) (s : State F) :
    (writePackageIntoAutoload name sha1 s).2.Loaded k ↔ s.Loaded k := by
  simp only [State.loaded_iff, record_writePackageIntoAutoload]

theorem writePackageIntoAutoload_frame (name sha1 : Str) (s : State F) :
    ∃ list, (writePackageIntoAutoload name sha1 s).2 = { s with startupList := list } := by
  unfold writePackageIntoAutoload
  split
  · exact ⟨s.startupList, rfl⟩
  · split <;> exact ⟨_, rfl⟩

def Grows (s s' : State F) : Prop :=
  ∀ k r, s.record k = some r →
    ∃ dependents, s'.record k = some { r with dependents := dependents } ∧
      r.dependents ⊆ dependents

theorem Grows.refl (s : State F) : Grows s s := fun _ r h ↦ ⟨r.dependents, h, fun _ ↦ id⟩

theorem Grows.trans {s t u : State F} (h : Grows s t) (h' : Grows t u) : Grows s u := by
  intro k r hr
  obtain ⟨d, hd, hsub⟩ := h k r hr
  obtain ⟨d', hd', hsub'⟩ := h' k _ hd
  exact ⟨d', hd', fun x hx ↦ hsub' (hsub hx)⟩

theorem grows_of_record_eq {s s' : State F} (h : ∀ k, s'.record k = s.record k) : Grows s s' :=
  fun k r hr ↦ ⟨r.dependents, (h k).trans hr, fun _ ↦ id⟩

theorem addDependent_grows (dependency name : Str) (s : State F) :
    Grows s (s.addDependent dependency name) := by
  intro k r hr
  rw [State.addDependent, State.record_modifyRecord]
  split
  · refine ⟨_, by rw [hr]; rfl, fun x hx ↦ ?_⟩
    split
    · exact hx
    · exact List.mem_append_left _ hx
  · exact ⟨r.dependents, hr, fun _ ↦ id⟩

theorem LoadStep.grows {stack : List Str} {s s' : State F} (h : LoadStep π stack s s') :
    Grows s s' := by
  cases h with
  | tick | imported | dropped | raised => exact grows_of_record_eq fun _ ↦ rfl
  | linked => exact addDependent_grows _ _ s
  | loaded hn =>
    intro k r' hr'
    refine ⟨r'.dependents, ?_, fun _ ↦ id⟩
    rw [State.record_log, State.record_insert, if_neg]
    · exact hr'
    · rintro rfl
      exact hn (State.loaded_of_record hr')
  | listed => exact grows_of_record_eq fun k ↦ record_writePackageIntoAutoload _ _ k s

theorem LoadSteps.grows {stack : List Str} {s s' : State F} (h : LoadSteps π stack s s') :
    Grows s s' := by
  induction h with
  | refl => exact Grows.refl s
  | tail _ hstep ih => exact ih.trans hstep.grows

theorem Grows.loaded {s s' : State F} (h : Grows s s') {k : Str} (hk : s.Loaded k) :
    s'.Loaded k := by
  obtain ⟨r, hr⟩ := State.loaded_iff.mp hk
  obtain ⟨d, hd, -⟩ := h k r hr
  exact State.loaded_of_record hd

theorem Grows.dependents {s s' : State F} (h : Grows s s') (k : Str) :
    s.dependents k ⊆ s'.dependents k := by
  intro x hx
  obtain ⟨r, hr⟩ := State.loaded_iff.mp (State.loaded_of_mem_dependents hx)
  obtain ⟨d, hd, hsub⟩ := h k r hr
  rw [State.dependents_of_record hr] at hx
  rw [State.dependents_of_record hd]
  exact hsub hx

theorem LoadStep.not_loaded {stack : List Str} {s s' : State F} (h : LoadStep π stack s s')
    {n : Str} (hn : n ∈ stack) (hs : ¬ s.Loaded n) : ¬ s'.Loaded n := by
  cases h with
  | tick | imported | dropped | raised => exact hs
  | linked => exact fun hl ↦ hs ((State.loaded_modifyRecord _ _ _ s).mp hl)
  | loaded _ hstack =>
    intro hl
    rcases (State.loaded_insert _ _ _ _).mp hl with rfl | hl
    · exact hstack hn
    · exact hs hl
  | listed => simpa using hs

theorem LoadSteps.not_loaded {stack : List Str} {s s' : State F} (h : LoadSteps π stack s s')
    {n : Str} (hn : n ∈ stack) (hs : ¬ s.Loaded n) : ¬ s'.Loaded n := by
  induction h with
  | refl => exact hs
  | tail _ hstep ih => exact hstep.not_loaded hn ih

end Frame

theorem packageModuleLoad_steps (stack : List Str) (name : Str) (ext : Ext)
    (checksum : Option Str) (s : State F) :
    LoadSteps π stack s (packageModuleLoad π name ext checksum s).2 := by
  unfold packageModuleLoad
  split
  · exact .refl
  · next f hf =>
    split
    · dsimp only
      split
      · exact .single (.tick s)
      · exact .single (.dropped s)
      · exact .single (.imported s hf)
    · exact .refl

theorem openPackage_steps (stack : List Str) (name : Str) (checksum : Option Str)
    (extForced : Option Ext) (s : State F) :
    LoadSteps π stack s (openPackage π name checksum extForced s).2 := by
  unfold openPackage
  split
  · exact .refl
  · split
    · exact .refl
    · exact .refl
    · next ext sums _ =>
      split
      · exact .refl
      · exact .refl
      · have h := packageModuleLoad_steps (π := π) stack name ext checksum s
        rw [bind_apply]
        rcases hm : packageModuleLoad π name ext checksum s with ⟨(_ | source) | e | _, t⟩ <;>
          rw [hm] at h
        · exact h
        · dsimp only [readDependencies]
          split <;> exact h
        · exact h
        · exact h

theorem openPackage_not_loaded {name : Str} {checksum : Option Str} {extForced : Option Ext}
    {s s' : State F} {opened : Opened F}
    (h : openPackage π name checksum extForced s = (.ok (some opened), s')) :
    ¬ s.Loaded name := by
  intro hl
  rw [openPackage, if_pos hl] at h
  simp at h

theorem exec_ne_diverged (name : Str) (prog : RunProg) (r r' : ResourceRegistry) :
    ResourceRegistry.exec name prog r ≠ (.diverged, r') := by
  induction prog generalizing r with
  | ret => simp [ResourceRegistry.exec]
  | raise e => simp [ResourceRegistry.exec]
  | register identifier ref registered conflict ihr ihc =>
    simp only [ResourceRegistry.exec, ResourceRegistry.register]
    split
    · exact ihr _
    · exact ihc _
  | has identifier yes no ihy ihn =>
    simp only [ResourceRegistry.exec]
    split
    · exact ihy r
    · exact ihn r
  | get identifier k ih => exact ih _ r

theorem runInstance_ok {name : Str} {obj : Instance} {s : State F} {registry : ResourceRegistry}
    (h : ResourceRegistry.exec name obj.run s.resourceRegistry = (.ok (), registry)) :
    runInstance name obj s = (.ok true, { s with resourceRegistry := registry }) := by
  simp only [runInstance, Py.tryLogged, bind_apply, Py.zoom, h]
  rfl

theorem runInstance_raised {name : Str} {obj : Instance} {s : State F} {e : PyErr}
    {registry : ResourceRegistry}
    (h : ResourceRegistry.exec name obj.run s.resourceRegistry = (.raised e, registry)) :
    runInstance name obj s = (if e.isLogged then .ok false else .raised e.leaving,
      { s with resourceRegistry := registry }) := by
  simp only [runInstance, Py.tryLogged, bind_apply, Py.zoom, h]
  cases e.isLogged <;> rfl

theorem recordPackage_steps {stack : List Str} {name : Str} {s t : State F}
    (checksum : Option Str) (autoload : Bool) {record : PackageRecord F}
    (h : LoadStep π stack s ((t.insert name record).log (.loaded name checksum))) :
    LoadSteps π stack s (recordPackage name checksum autoload record t).2 := by
  unfold recordPackage
  rw [modify_bind_apply]
  refine .head h ?_
  generalize (t.insert name record).log (.loaded name checksum) = u
  split
  · rw [bind_apply]
    have hlisted : LoadStep π stack u (writePackageIntoAutoload name record.sha1 u).2 := .listed u
    rcases hw : writePackageIntoAutoload name record.sha1 u with ⟨_ | e | _, v⟩ <;>
      rw [hw] at hlisted <;> exact .single hlisted
  · exact .refl

theorem startPackage_steps {stack : List Str} {name : Str} (checksum : Option Str)
    (autoload : Bool) (opened : Opened F) {s : State F} (hn : ¬ s.Loaded name)
    (hstack : name ∉ stack) (hlinked : ∀ d ∈ opened.dependencies, name ∈ s.dependents d) :
    LoadSteps π stack s (startPackage name checksum autoload opened s).2 := by
  unfold startPackage
  split
  · exact .refl
  · next klass hclass =>
    dsimp only
    split
    · exact .single (.tick s)
    · next obj hobj =>
      refine .head (.tick s) ?_
      rcases hexec : ResourceRegistry.exec name obj.run s.resourceRegistry with
        ⟨_ | e | _, registry⟩
      · rw [bind_ok (runInstance_ok (s := { s with tick := s.tick + 1 }) hexec), if_pos rfl]
        exact recordPackage_steps checksum autoload
          (.loaded { s with tick := s.tick + 1 } hn hstack hclass hobj hexec rfl hlinked)
      · have hstep : LoadStep π stack { s with tick := s.tick + 1 }
            { s with tick := s.tick + 1, resourceRegistry := registry } :=
          .raised _ hn hclass hobj hexec
        rw [bind_apply, runInstance_raised (s := { s with tick := s.tick + 1 }) hexec]
        cases e.isLogged <;> exact .single hstep
      · exact absurd hexec (exec_ne_diverged _ _ _ _)

theorem followDependencies_steps (stack : List Str) (name : Str)
    {load : Str → Manager F (Option (PackageRecord F))} (hname : name ∈ stack)
    (hload : ∀ d ∉ stack, ∀ s, LoadSteps π stack s (load d s).2) (deps : List Str)
    {s : State F} (hn : ¬ s.Loaded name) :
    LoadSteps π stack s (followDependencies load name stack deps s).2 ∧
      ∀ s', followDependencies load name stack deps s = (.ok true, s') →
        ∀ d ∈ deps, name ∈ s'.dependents d := by
  induction deps generalizing s with
  | nil => exact ⟨.refl, fun s' _ d hd ↦ by simp at hd⟩
  | cons d rest ih =>
    unfold followDependencies
    split
    · exact ⟨.refl, fun s' h ↦ by simp at h⟩
    · next hd =>
      have hensure : LoadSteps π stack s (ensureLoaded load d s).2 := by
        unfold ensureLoaded
        split
        · exact .refl
        · have h := hload d hd s
          rw [bind_apply]
          rcases hl : load d s with ⟨_ | e | _, t⟩ <;> rw [hl] at h <;> exact h
      rw [bind_apply]
      rcases he : ensureLoaded load d s with ⟨_ | e | _, t⟩ <;> rw [he] at hensure
      · dsimp only
        rw [get_bind_apply]
        split
        · next hl =>
          have hnt := hensure.not_loaded hname hn
          have hstep : LoadStep π stack t (t.addDependent d name) := .linked t hl hnt
          rw [modify_bind_apply]
          obtain ⟨hsteps, hall⟩ := ih (hstep.not_loaded hname hnt)
          refine ⟨hensure.trans (.head hstep hsteps), fun s' h k hk ↦ ?_⟩
          rcases List.mem_cons.mp hk with rfl | hk
          · have hgrows := hsteps.grows
            rw [h] at hgrows
            refine hgrows.dependents k ?_
            obtain ⟨r, hr⟩ := State.loaded_iff.mp hl
            rw [State.addDependent, State.dependents, State.record_modifyRecord, if_pos rfl, hr]
            simp only [Option.map_some, Option.getD_some]
            split
            · assumption
            · simp
          · exact hall s' h k hk
        · exact ⟨hensure, fun s' h ↦ by simp at h⟩
      · exact ⟨hensure, fun s' h ↦ by simp at h⟩
      · exact ⟨hensure, fun s' h ↦ by simp at h⟩

theorem loadFuel_steps (fuel : ℕ) (name : Str) (checksum : Option Str) (autoload : Bool)
    (extForced : Option Ext) (stack : List Str) (s : State F) (hstack : name ∉ stack) :
    LoadSteps π stack s (loadFuel π fuel name checksum autoload extForced stack s).2 := by
  induction fuel generalizing name checksum autoload extForced stack s with
  | zero => exact .refl
  | succ fuel ih =>
    unfold loadFuel
    have hopen := openPackage_steps (π := π) stack name checksum extForced s
    rw [bind_apply]
    rcases ho : openPackage π name checksum extForced s with ⟨(_ | opened) | e | _, t⟩ <;>
      rw [ho] at hopen
    · exact hopen
    · have hn : ¬ t.Loaded name := by
        have h := openPackage_steps (π := π) [name] name checksum extForced s
        rw [ho] at h
        exact h.not_loaded (by simp) (openPackage_not_loaded ho)
      obtain ⟨hfollow, hall⟩ := followDependencies_steps (π := π) (name :: stack) name (by simp)
        (fun d hd u ↦ ih d none false none (name :: stack) u hd) opened.dependencies hn
      have hfollow' := hfollow.mono (List.subset_cons_self name stack)
      dsimp only
      rw [bind_apply]
      rcases hf : followDependencies (fun d ↦ loadFuel π fuel d none false none (name :: stack))
        name (name :: stack) opened.dependencies t with ⟨followed | e | _, u⟩ <;>
        rw [hf] at hfollow hfollow'
      · cases followed with
        | false => exact hopen.trans hfollow'
        | true =>
          have hnu := hfollow.not_loaded (by simp) hn
          exact (hopen.trans hfollow').trans
            (startPackage_steps checksum autoload opened hnu hstack (hall u hf))
      · exact hopen.trans hfollow'
      · exact hopen.trans hfollow'
    · exact hopen
    · exact hopen

theorem packageLoad_steps (name : Str) (checksum : Option Str) (autoload : Bool)
    (extForced : Option Ext) (s : State F) :
    LoadSteps π [] s (packageLoad π name checksum autoload extForced s).2 :=
  loadFuel_steps _ name checksum autoload extForced [] s (by simp)

end Liota.PackageManager
