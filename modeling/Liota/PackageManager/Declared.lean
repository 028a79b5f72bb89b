import Liota.PackageManager.Spellings
import Liota.PackageManager.WellFounded

namespace Liota.PackageManager

open Python Python.Computation Python.Text Relation

variable {F : Type}

section Definitions

variable (π : Platform F)

def readDeclared (ext : Ext) (sha1 : Str) (source : F) : Manager F (Option (Opened F)) := fun s ↦
  match dependencyList (π.assigns ext source).dependencies with
  | .error e => (.raised e, s)
  | .ok none => (.ok none, s)
  | .ok (some dependencies) => (.ok (some ⟨ext, sha1, dependencies, source⟩), s)

def openDeclared (fileName : Str) (checksum : Option Str) (extForced : Option Ext) :
    Manager F (Option (Opened F)) := fun s ↦
  if s.Loaded fileName then (.ok none, s)
  else match packageChkExists π s.fs fileName extForced with
    | .error e => (.raised e, s)
    | .ok none => (.ok none, s)
    | .ok (some (ext, sums)) =>
      match verifyIntegrity π s.fs (candidate π fileName ext) sums checksum with
      | .error e => (.raised e, s)
      | .ok none => (.ok none, s)
      | .ok (some sha1) =>
        (do
          let loaded ← packageModuleLoad π fileName ext checksum
          match loaded with
          | none => pure none
          | some source => readDeclared π ext sha1 source) s

def startDeclared (fileName : Str) (checksum : Option Str) (autoload : Bool)
    (opened : Opened F) : Manager F (Option (PackageRecord F)) := fun s ↦
  match (π.assigns opened.ext opened.source).packageClass with
  | none => (.ok none, s)
  | some klass =>
    let t := { s with tick := s.tick + 1 }
    match klass s.tick with
    | .error _ => (.ok none, t)
    | .ok obj =>
      (do
        let ran ← runInstance fileName obj
        if ran then recordPackage fileName checksum autoload (opened.record obj)
        else pure none) t

def declaredFuel : ℕ → Str → Option Str → Bool → Option Ext → List Str →
    Manager F (Option (PackageRecord F))
  | 0, _, _, _, _, _ => Py.diverge
  | fuel + 1, fileName, checksum, autoload, extForced, checkStack => do
    let opened ← openDeclared π fileName checksum extForced
    match opened with
    | none => pure none
    | some opened => do
      let followed ← followDependencies
        (fun dependency ↦ declaredFuel fuel dependency none false none (fileName :: checkStack))
        fileName (fileName :: checkStack) opened.dependencies
      if followed then startDeclared π fileName checksum autoload opened else pure none

def declaredLoad : Loader F := fun call s ↦
  declaredFuel π ((knownNames π s).length + 1) call.name call.checksum call.autoload call.ext [] s

def PackageRecord.Declared (r : PackageRecord F) : Prop :=
  dependencyList (π.assigns r.ext r.source).dependencies = .ok (some r.dependencies) ∧
    ∃ klass tick, (π.assigns r.ext r.source).packageClass = some klass ∧ klass tick = .ok r.obj

/-- A file of `p` lists `d` as a dependency. -/
def Lists (s : State F) (p d : Str) : Prop :=
  ∃ ext f, s.fs.file (candidate π p ext) = some f ∧ d ∈ (π.assigns ext f.content).names

/-- No package in scope shares a module with one that it depends on, and neither a module that was
imported before nor another file for the same module adds to what a file in scope defines. -/
structure Clean (s : State F) (N : Str → Prop) : Prop where
  listing : Listing π N s
  apart : ∀ p d, N p → TransGen (Lists π s) p d → moduleName p = moduleName d → p = d
  fresh : ∀ p ext f, N p → s.fs.file (candidate π p ext) = some f →
    Fresh (s.module (moduleName p)) (π.assigns ext f.content)
  alike : ∀ p q ext ext' f f', N p → N q → moduleName p = moduleName q →
    s.fs.file (candidate π p ext) = some f → s.fs.file (candidate π q ext') = some f' →
    Fresh (π.assigns ext f.content) (π.assigns ext' f'.content)

def Undisturbed (s : State F) (request : Request) : Prop :=
  ∃ N, request.Within s N ∧ Clean π s N

end Definitions

section Clean

variable {π : Platform F} {N : Str → Prop} {s₀ s t : State F}

/-- The state in the middle of a request that started in `s₀`. -/
structure StaysClean (π : Platform F) (N : Str → Prop) (s₀ t : State F) : Prop where
  fs : t.fs = s₀.fs
  fresh : ∀ p ext f, N p → s₀.fs.file (candidate π p ext) = some f →
    Fresh (t.module (moduleName p)) (π.assigns ext f.content)
  records : ∀ k r, t.record k = some r → r.Declared π

theorem StaysClean.relinks (h : StaysClean π N s₀ s) (hs : Relinks s t) : StaysClean π N s₀ t where
  fs := hs.fs.trans h.fs
  fresh p ext f hp hf := by
    rw [hs.module]
    exact h.fresh p ext f hp hf
  records k r hr := by
    obtain ⟨dependents, hr'⟩ := hs.record k r hr
    have hold := h.records k { r with dependents := dependents } hr'
    exact hold

theorem Clean.fresh_initialise (hclean : Clean π s₀ N) {p q : Str} (hp : N p) (hq : N q)
    (hsame : moduleName p = moduleName q) {ext ext' : Ext} {f f' : File F}
    (hf : s₀.fs.file (candidate π p ext) = some f)
    (hf' : s₀.fs.file (candidate π q ext') = some f') {old : Namespace}
    (hold : Fresh old (π.assigns ext f.content)) :
    Fresh (old.initialise (π.assigns ext f.content)) (π.assigns ext' f'.content) where
  dependencies hnone := by
    rw [hold.dependencyList]
    exact (hclean.alike p q ext ext' f f' hp hq hsame hf hf').dependencies hnone
  packageClass hnone := by
    rw [hold.packageClass_eq]
    exact (hclean.alike p q ext ext' f f' hp hq hsame hf hf').packageClass hnone

theorem StaysClean.openPackage (hclean : Clean π s₀ N) {call : Call}
    {o : Outcome (Option (Opened F))}
    (ho : openPackage π call.name call.checksum call.ext s = (o, t)) (hcall : N call.name)
    (h : StaysClean π N s₀ s) :
    StaysClean π N s₀ t ∧
      ∀ m, m ≠ moduleName call.name → t.module m = s.module m := by
  have hstep := openPackage_step (π := π) call.name call.checksum call.ext s
  rw [ho] at hstep
  have hrest : t.fs = s.fs ∧ t.packagesLoaded = s.packagesLoaded := hstep.frame
  have hrecords : ∀ k r, t.record k = some r → r.Declared π := by
    intro k r hr
    simp only [State.record, hrest.2] at hr
    exact h.records k r hr
  rcases hstep.modules with hsame | hgone | ⟨ext, f, -, hf, hnew⟩
  · refine ⟨⟨hrest.1.trans h.fs, ?_, hrecords⟩, fun m _ ↦ hsame m⟩
    intro p ext f hp hf
    rw [hsame]
    exact h.fresh p ext f hp hf
  · refine ⟨⟨hrest.1.trans h.fs, ?_, hrecords⟩, ?_⟩
    · intro p ext f hp hf
      rw [hgone]
      split
      · exact fresh_empty _
      · exact h.fresh p ext f hp hf
    · intro m hm
      rw [hgone, if_neg hm]
  · rw [h.fs] at hf
    refine ⟨⟨hrest.1.trans h.fs, ?_, hrecords⟩, ?_⟩
    · intro p ext' f' hp hf'
      rw [hnew]
      split
      · next hsame =>
        exact hclean.fresh_initialise hcall hp hsame.symm hf hf'
          (hsame ▸ h.fresh call.name ext f hcall hf)
      · exact h.fresh p ext' f' hp hf'
    · intro m hm
      rw [hnew, if_neg hm]

/-- A package that was opened is taken for what its file defines. -/
structure Opened.Honest (π : Platform F) (N : Str → Prop) (s₀ : State F) (name : Str)
    (opened : Opened F) (t : State F) : Prop where
  dependencies : dependencyList (π.assigns opened.ext opened.source).dependencies =
    .ok (some opened.dependencies)
  lists : ∀ d ∈ opened.dependencies, N d ∧ Lists π s₀ name d
  packageClass : (t.module (moduleName name)).packageClass =
    (π.assigns opened.ext opened.source).packageClass

theorem StaysClean.honest (hclean : Clean π s₀ N) {call : Call} {opened : Opened F}
    (ho : PackageManager.openPackage π call.name call.checksum call.ext s = (.ok (some opened), t))
    (hcall : N call.name) (h : StaysClean π N s₀ s) : opened.Honest π N s₀ call.name t := by
  have hopens := openPackage_opens ho
  obtain ⟨f, hf, -, hsource⟩ := hopens.file
  rw [h.fs] at hf
  have hfresh := h.fresh call.name opened.ext f hcall hf
  have hmodule : t.module (moduleName call.name) =
      (s.module (moduleName call.name)).initialise (π.assigns opened.ext f.content) := by
    rw [hopens.after, module_executed, if_pos rfl, hsource]
  have hdeps : dependencyList (π.assigns opened.ext f.content).dependencies =
      .ok (some opened.dependencies) := by
    rw [← hfresh.dependencyList, ← hmodule]
    exact hopens.dependencies
  constructor
  · rw [← hsource]
    exact hdeps
  · intro d hd
    rw [← names_of_dependencyList hdeps] at hd
    exact ⟨hclean.listing call.name opened.ext f hcall hf d hd, opened.ext, f, hf, hd⟩
  · rw [hmodule, hfresh.packageClass_eq, hsource]

theorem Opened.Honest.of_module_eq {name : Str} {opened : Opened F}
    (h : opened.Honest π N s₀ name s)
    (heq : t.module (moduleName name) = s.module (moduleName name)) :
    opened.Honest π N s₀ name t where
  dependencies := h.dependencies
  lists := h.lists
  packageClass := by
    rw [heq]
    exact h.packageClass

theorem StaysClean.startPackage {name : Str} {opened : Opened F} (checksum : Option Str)
    (autoload : Bool) (hopened : opened.Honest π N s₀ name s) (h : StaysClean π N s₀ s) :
    StaysClean π N s₀ (PackageManager.startPackage name checksum autoload opened s).2 := by
  have hframe := startPackage_startFrame name checksum autoload opened s
  refine ⟨hframe.fs.trans h.fs, ?_, ?_⟩
  · intro p ext f hp hf
    rw [startPackage_module]
    exact h.fresh p ext f hp hf
  · intro k r hr
    rcases hframe.record k r hr with hr | ⟨-, klass, obj, hclass, hobj, rfl⟩
    · exact h.records k r hr
    · exact ⟨hopened.dependencies, klass, s.tick, hopened.packageClass.symm.trans hclass, hobj⟩

def Above (π : Platform F) (N : Str → Prop) (s₀ : State F) (stack : List Str) (d : Str) : Prop :=
  N d ∧ ∀ p ∈ stack, N p ∧ TransGen (Lists π s₀) p d

theorem Above.module_ne (hclean : Clean π s₀ N) {stack : List Str} {d p : Str}
    (h : Above π N s₀ stack d) (hd : d ∉ stack) (hp : p ∈ stack) : moduleName p ≠ moduleName d := by
  intro hsame
  obtain ⟨hN, hbelow⟩ := h.2 p hp
  apply hd
  rw [← hclean.apart p d hN hbelow hsame]
  exact hp

theorem Above.dependencies {stack : List Str} {name : Str} {opened : Opened F}
    (h : Above π N s₀ stack name) (hopened : opened.Honest π N s₀ name t) :
    ∀ d ∈ opened.dependencies, Above π N s₀ (name :: stack) d := by
  intro d hd
  obtain ⟨hN, hlists⟩ := hopened.lists d hd
  refine ⟨hN, List.forall_mem_cons.mpr ⟨⟨h.1, .single hlists⟩, ?_⟩⟩
  intro p hp
  obtain ⟨hp, hbelow⟩ := h.2 p hp
  exact ⟨hp, hbelow.tail hlists⟩

def Kept (π : Platform F) (N : Str → Prop) (s₀ : State F) (stack : List Str) (m : Str → Namespace)
    (t : State F) : Prop :=
  StaysClean π N s₀ t ∧ ∀ p ∈ stack, t.module (moduleName p) = m p

theorem StaysClean.openPackage_eq {call : Call} (hcall : N call.name) (h : StaysClean π N s₀ s) :
    PackageManager.openPackage π call.name call.checksum call.ext s =
      openDeclared π call.name call.checksum call.ext s := by
  simp only [PackageManager.openPackage, openDeclared]
  split
  · rfl
  · rcases packageChkExists π s.fs call.name call.ext with e | _ | ⟨ext, sums⟩
    · rfl
    · rfl
    · dsimp only
      rcases verifyIntegrity π s.fs (candidate π call.name ext) sums call.checksum with
        e | _ | sha1
      · rfl
      · rfl
      · dsimp only
        rw [bind_apply, bind_apply]
        rcases hload : packageModuleLoad π call.name ext call.checksum s with
          ⟨(_ | source) | e | _, t⟩
        · rfl
        · obtain ⟨⟨f, hf, -, rfl⟩, -, rfl⟩ := packageModuleLoad_eq_some hload
          rw [h.fs] at hf
          have hdeps : dependencyList
              ((executed π call.name ext f.content call.checksum s).module
                (moduleName call.name)).dependencies =
              dependencyList (π.assigns ext f.content).dependencies := by
            rw [module_executed, if_pos rfl, (h.fresh call.name ext f hcall hf).dependencyList]
          rcases hread : dependencyList (π.assigns ext f.content).dependencies with e | _ | deps <;>
            simp only [readDependencies, readDeclared, hdeps, hread]
        · rfl
        · rfl

theorem Opened.Honest.startPackage_eq {name : Str} {opened : Opened F}
    (h : opened.Honest π N s₀ name s) (checksum : Option Str) (autoload : Bool) :
    startPackage name checksum autoload opened s =
      startDeclared π name checksum autoload opened s := by
  rcases hclass : (π.assigns opened.ext opened.source).packageClass with _ | klass
  · simp only [startPackage, startDeclared, h.packageClass, hclass]
  · rcases hobj : klass s.tick with e | obj <;>
      simp only [startPackage, startDeclared, h.packageClass, hclass, hobj]

theorem agree_followDependencies {load load' : Str → Manager F (Option (PackageRecord F))}
    {stack : List Str} {m : Str → Namespace}
    (hload : ∀ d s, Above π N s₀ stack d → d ∉ stack → Kept π N s₀ stack m s →
      AgreeAt (Kept π N s₀ stack m) (fun _ ↦ True) (load d) (load' d) s)
    (name : Str) (deps : List Str) (hdeps : ∀ d ∈ deps, Above π N s₀ stack d)
    (hs : Kept π N s₀ stack m s) :
    AgreeAt (Kept π N s₀ stack m) (fun _ ↦ True) (followDependencies load name stack deps)
      (followDependencies load' name stack deps) s := by
  induction deps generalizing s with
  | nil => exact agreeAt_pure hs trivial
  | cons d rest ih =>
    have hrest : ∀ e ∈ rest, Above π N s₀ stack e := fun e he ↦ hdeps e (List.mem_cons_of_mem _ he)
    apply agreeAt_ite
    · intro _
      exact agreeAt_pure hs trivial
    · intro hd
      refine agreeAt_bind (Q := fun _ ↦ True) ?_ ?_
      · by_cases hl : s.Loaded d
        · have hskip (l : Str → Manager F (Option (PackageRecord F))) :
              ensureLoaded l d s = (.ok (), s) := by rw [ensureLoaded, if_pos hl]
          exact ⟨by rw [hskip, hskip], by rw [hskip]; exact hs, fun _ _ ↦ trivial⟩
        · have hcall := agreeAt_bind (hload d s (hdeps d List.mem_cons_self) hd hs)
            (fun _ t _ ht ↦ agreeAt_pure (a := ()) (Q := fun _ ↦ True) ht trivial)
          have hpull (l : Str → Manager F (Option (PackageRecord F))) :
              ensureLoaded l d s = (l d >>= fun _ ↦ pure ()) s := by
            rw [ensureLoaded, if_neg hl]
          exact ⟨by rw [hpull, hpull, hcall.eq], by rw [hpull]; exact hcall.inv, fun _ _ ↦ trivial⟩
      · intro _ t _ ht
        apply agreeAt_get_bind
        apply agreeAt_ite
        · intro _
          refine agreeAt_bind (agreeAt_self ?_) fun _ u _ hu ↦ ih hrest hu
          exact ⟨ht.1.relinks (addDependent_relinks d name t), ht.2⟩
        · intro _
          exact agreeAt_pure ht trivial

theorem agree_loadFuel (hclean : Clean π s₀ N) (fuel : ℕ) (call : Call) (stack : List Str)
    (m : Str → Namespace) (s : State F) (hcall : Above π N s₀ stack call.name)
    (hstack : call.name ∉ stack) (hs : Kept π N s₀ stack m s) :
    AgreeAt (Kept π N s₀ stack m) (fun _ ↦ True)
      (loadFuel π fuel call.name call.checksum call.autoload call.ext stack)
      (declaredFuel π fuel call.name call.checksum call.autoload call.ext stack) s := by
  induction fuel generalizing call stack m s with
  | zero => exact agreeAt_self hs
  | succ fuel ih =>
    have hkept {o : Outcome (Option (Opened F))} {t : State F}
        (ho : openPackage π call.name call.checksum call.ext s = (o, t)) :
        Kept π N s₀ stack m t := by
      obtain ⟨ht, hmod⟩ := hs.1.openPackage hclean ho hcall.1
      refine ⟨ht, ?_⟩
      intro p hp
      rw [hmod _ (hcall.module_ne hclean hstack hp)]
      exact hs.2 p hp
    refine agreeAt_bind_of_eq (hs.1.openPackage_eq hcall.1) (hkept rfl) ?_
    intro opened t ho
    have ht := hkept ho
    cases opened with
    | none => exact agreeAt_pure ht trivial
    | some opened =>
      have hhonest := hs.1.honest hclean ho hcall.1
      let m' (p : Str) : Namespace := t.module (moduleName p)
      have hnested (d : Str) (u : State F) (hd : Above π N s₀ (call.name :: stack) d)
          (hdstack : d ∉ call.name :: stack) (hu : Kept π N s₀ (call.name :: stack) m' u) :
          AgreeAt (Kept π N s₀ (call.name :: stack) m') (fun _ ↦ True)
            (loadFuel π fuel d none false none (call.name :: stack))
            (declaredFuel π fuel d none false none (call.name :: stack)) u :=
        ih (.ofDependency d) (call.name :: stack) m' u hd hdstack hu
      have hfollow := agree_followDependencies hnested call.name opened.dependencies
        (hcall.dependencies hhonest) ⟨ht.1, fun _ _ ↦ rfl⟩
      have hback {u : State F} (hu : Kept π N s₀ (call.name :: stack) m' u) :
          Kept π N s₀ stack m u := by
        refine ⟨hu.1, ?_⟩
        intro p hp
        rw [hu.2 p (List.mem_cons_of_mem _ hp)]
        exact ht.2 p hp
      refine agreeAt_bind_of_eq hfollow.eq (hback hfollow.inv) ?_
      intro followed u hr
      have hu := hfollow.inv
      rw [hr] at hu
      apply agreeAt_ite
      · intro _
        have hhonest' := hhonest.of_module_eq (hu.2 call.name List.mem_cons_self)
        refine ⟨hhonest'.startPackage_eq call.checksum call.autoload,
          ⟨hu.1.startPackage call.checksum call.autoload hhonest', ?_⟩, fun _ _ ↦ trivial⟩
        intro p hp
        rw [startPackage_module]
        exact (hback hu).2 p hp
      · intro _
        exact agreeAt_pure (hback hu) trivial

theorem loaderRule_declared (hclean : Clean π s₀ N) :
    LoaderRule π (makeCall π) (declaredLoad π) N False
      (fun t ↦ Consistent t ∧ StaysClean π N s₀ t) where
  consistent _ h := h.1
  call call t hcall h := by
    have hagree := agree_loadFuel hclean ((knownNames π t).length + 1) call []
      (fun p ↦ t.module (moduleName p)) t ⟨hcall, List.forall_mem_nil _⟩ List.not_mem_nil
      ⟨h.2, fun _ _ ↦ rfl⟩
    exact ⟨hagree.eq,
      covers_consistent.load call.name call.checksum call.autoload call.ext t h.1, hagree.inv.1⟩
  unload _ _ hs hu h := ⟨hu, h.2.relinks hs.relinks⟩
  listed _ _ h := ⟨h.1.of_packagesLoaded_eq rfl rfl, h.2.relinks (relinks_of_eq rfl rfl rfl)⟩
  stash h := h.elim
  makeStash h := h.elim

theorem performWith_of_deletes (load : Loader F) {request : Request} (h : request.deletes ≠ []) :
    performWith π load request = perform π request := by
  cases request with
  | delete | deleteList => rfl
  | load | reload | update | loadList | updateList | unload | unloadList | loadAuto | unloadAll
  | updateAll | terminate | report | ignored => exact absurd rfl h

theorem perform_declared {request : Request} (hs : Consistent s)
    (hrecords : ∀ k r, s.record k = some r → r.Declared π) (h : Undisturbed π s request) :
    perform π request s = performWith π (declaredLoad π) request s ∧
      ∀ k r, (perform π request s).2.record k = some r → r.Declared π := by
  obtain ⟨N, hwithin, hclean⟩ := h
  by_cases hdeletes : request.deletes = []
  · rw [← performWith_makeCall]
    obtain ⟨heq, -, ht⟩ := (loaderRule_declared hclean).perform ⟨hs, rfl, hclean.fresh, hrecords⟩
      hwithin (fun hne ↦ hne hdeletes)
    exact ⟨heq, ht.records⟩
  · refine ⟨by rw [performWith_of_deletes _ hdeletes], ?_⟩
    obtain ⟨-, -, ht⟩ := (loaderRule_records (π := π) s).perform
      ⟨hs, fun k r hr ↦ ⟨r.dependents, hr⟩⟩ (deletes_loads_nothing hdeletes s) (fun _ ↦ trivial)
    rw [performWith_makeCall] at ht
    intro k r hr
    obtain ⟨dependents, hr₀⟩ := ht k r hr
    have hdeclared := hrecords k { r with dependents := dependents } hr₀
    exact hdeclared

end Clean

/-- In a run whose requests meet nothing that was left over, each request does what the loader does
that uses only what the files define, and so do the records say. -/
theorem only_declared_is_used {π : Platform F} {t : Thread F}
    (ht : Reachable π (fun _ ↦ True) (Undisturbed π) t) :
    (∀ k r, t.state.record k = some r → r.Declared π) ∧
      ∀ request, Undisturbed π t.state request →
        perform π request t.state = performWith π (declaredLoad π) request t.state := by
  have hboth : Consistent t.state ∧ ∀ k r, t.state.record k = some r → r.Declared π := by
    refine ht.invariant (I := fun s ↦ Consistent s ∧ ∀ k r, s.record k = some r → r.Declared π)
      ?_ ?_ ?_
    · intro fs startupList _
      refine ⟨consistent_initial fs startupList, ?_⟩
      intro k r hr
      cases hr
    · intro s fs startupList _ hs
      exact ⟨hs.1.of_packagesLoaded_eq rfl rfl, hs.2⟩
    · intro s request hclean hs
      exact ⟨covers_consistent.perform request s hs.1, (perform_declared hs.1 hs.2 hclean).2⟩
  refine ⟨hboth.2, ?_⟩
  intro request hclean
  exact (perform_declared hboth.1 hboth.2 hclean).1

section Example

theorem undisturbed_nothing {s : State Script} {request : Request} (hasked : request.asked s = [])
    (hrestarts : request.restarts = []) : Undisturbed scriptPlatform s request := by
  refine ⟨fun _ ↦ False, ⟨?_, ?_⟩, ⟨?_, ?_, ?_, ?_⟩⟩
  · intro name hname
    rw [hasked] at hname
    cases hname
  · intro p hp
    rw [hrestarts] at hp
    cases hp
  · intro p ext f hp
    exact hp.elim
  · intro p d hp
    exact hp.elim
  · intro p ext f hp
    exact hp.elim
  · intro p q ext ext' f f' hp
    exact hp.elim

/-- Each script defines both names, and lists no package but `d`. -/
def Complete (packages : List (Str × Script)) : Prop :=
  ∀ entry ∈ packages, (∀ d ∈ entry.2.defines.names, d = "d".toList) ∧
    entry.2.defines.dependencies ≠ none ∧ entry.2.defines.packageClass.isSome

theorem Complete.file {packages : List (Str × Script)} (h : Complete packages) {ext : Ext}
    {path : Str} {f : File Script} (hf : (scriptFiles packages).file path = some f) :
    (∀ d ∈ (scriptPlatform.assigns ext f.content).names, d = "d".toList) ∧
      ∀ old, Fresh old (scriptPlatform.assigns ext f.content) := by
  obtain ⟨entry, hentry, hcontent⟩ := mem_scriptFiles hf
  obtain ⟨hnames, hdeps, hclass⟩ := h entry hentry
  have hassigns : scriptPlatform.assigns ext f.content = entry.2.defines := by
    rw [hcontent]
    rfl
  rw [hassigns]
  refine ⟨hnames, ?_⟩
  intro old
  refine ⟨fun hnone ↦ absurd hnone hdeps, ?_⟩
  intro hnone
  rw [hnone] at hclass
  cases hclass

theorem Complete.undisturbed {packages : List (Str × Script)} (h : Complete packages)
    {s : State Script} (hfs : s.fs = scriptFiles packages) (checksum : Str) :
    Undisturbed scriptPlatform s (.load "p".toList checksum false) := by
  have hfile {ext : Ext} {path : Str} {f : File Script} (hf : s.fs.file path = some f) :
      (∀ d ∈ (scriptPlatform.assigns ext f.content).names, d = "d".toList) ∧
        ∀ old, Fresh old (scriptPlatform.assigns ext f.content) := by
    rw [hfs] at hf
    exact h.file hf
  have hlists : ∀ p d, TransGen (Lists scriptPlatform s) p d → d = "d".toList := by
    intro p d hd
    obtain ⟨q, -, ext, f, hf, hd⟩ := TransGen.tail'_iff.mp hd
    exact (hfile hf).1 d hd
  refine ⟨(· ∈ ["p".toList, "d".toList]), ⟨?_, ?_⟩, ⟨?_, ?_, ?_, ?_⟩⟩
  · intro name hname
    rw [List.mem_singleton.mp hname]
    exact List.mem_cons_self
  · intro p hp
    cases hp
  · intro p ext f _ hf d hd
    rw [(hfile hf).1 d hd]
    decide
  · intro p d hp hd hsame
    have hmodules : ∀ p ∈ ["p".toList, "d".toList],
        moduleName p = moduleName "d".toList → p = "d".toList := by decide
    rw [hlists p d hd] at hsame ⊢
    exact hmodules p hp hsame
  · intro p ext f _ hf
    exact (hfile hf).2 _
  · intro p q ext ext' f f' _ _ _ _ hf'
    exact (hfile hf').2 _

theorem complete_of_all {packages : List (Str × Script)} (h : packages.all fun entry ↦
      entry.2.defines.names.all (· = "d".toList) && entry.2.defines.dependencies.isSome &&
        entry.2.defines.packageClass.isSome) : Complete packages := by
  intro entry hentry
  have hall := List.all_eq_true.mp h entry hentry
  simp only [Bool.and_eq_true, List.all_eq_true, decide_eq_true_eq] at hall
  exact ⟨hall.1.1, Option.isSome_iff_ne_none.mp hall.1.2, hall.2⟩

/-- The scripts after `p` was replaced by a version that no longer depends on `d`. -/
def freedScripts : List (Str × Script) :=
  [("d".toList, .standard "1".toList [] .ret none), ("p".toList, .standard "3".toList [] .ret none)]

def loadedThread : Thread Script :=
  handled scriptPlatform (parseMessage (words "load p 2"))
    (boot scriptPlatform (scriptFiles pairScripts) none).state

def unloadedThread : Thread Script :=
  handled scriptPlatform (parseMessage (words "unload p")) loadedThread.state

/-- `p` was loaded and unloaded, and then its file was replaced by one with an empty list. -/
def freedThread : Thread Script where
  state := { unloadedThread.state with fs := scriptFiles freedScripts, startupList := none }
  status := unloadedThread.status

theorem running_before_freed :
    (boot scriptPlatform (scriptFiles pairScripts) none).status = .running ∧
      loadedThread.status = .running ∧ freedThread.status = .running := by
  decide +kernel

theorem reachable_freedThread :
    Reachable scriptPlatform (fun _ ↦ True) (Undisturbed scriptPlatform) freedThread := by
  have hload : parseMessage (words "load p 2") = .load "p".toList "2".toList false := by decide
  have hunload : parseMessage (words "unload p") = .unload "p".toList := by decide
  obtain ⟨hbooted, hrunning, -⟩ := running_before_freed
  have hboot : Reachable scriptPlatform (fun _ ↦ True) (Undisturbed scriptPlatform)
      (boot scriptPlatform (scriptFiles pairScripts) none) :=
    .start (.init trivial) (undisturbed_nothing rfl rfl)
  have hcomplete : Complete pairScripts := complete_of_all (by decide)
  have hloaded : Reachable scriptPlatform (fun _ ↦ True) (Undisturbed scriptPlatform)
      loadedThread := by
    apply hboot.next _ hbooted (by decide)
    rw [hload]
    exact hcomplete.undisturbed rfl _
  have hunloaded : Reachable scriptPlatform (fun _ ↦ True) (Undisturbed scriptPlatform)
      unloadedThread := by
    apply hloaded.next _ hrunning (by decide)
    rw [hunload]
    exact undisturbed_nothing rfl rfl
  exact hunloaded.replaceFiles _ trivial none

theorem only_declared_is_used_replaced :
    let t := handled scriptPlatform (parseMessage (words "load p 3")) freedThread.state
    Reachable scriptPlatform (fun _ ↦ True) (Undisturbed scriptPlatform) t ∧
      (t.state.record "p".toList).map (·.dependencies) = some [] ∧ t.state.Loaded "d".toList ∧
      ∀ k r, t.state.record k = some r → r.Declared scriptPlatform := by
  intro t
  have hload : parseMessage (words "load p 3") = .load "p".toList "3".toList false := by decide
  have ht : Reachable scriptPlatform (fun _ ↦ True) (Undisturbed scriptPlatform) t := by
    apply reachable_freedThread.next _ running_before_freed.2.2 (by decide)
    rw [hload]
    have hcomplete : Complete freedScripts := complete_of_all (by decide)
    exact hcomplete.undisturbed rfl _
  have hkeeps : (t.state.record "p".toList).map (·.dependencies) = some [] ∧
      t.state.Loaded "d".toList := by decide +kernel
  exact ⟨ht, hkeeps.1, hkeeps.2, (only_declared_is_used ht).1⟩

/-- `p` was loaded and unloaded, and then its file was replaced by one that lists no
dependencies. -/
def droppedThread : Thread Script where
  state :=
    { (scriptThread pairScripts none ["load p 2", "unload p"]).state with
      fs := scriptFiles [("d".toList, .standard "1".toList [] .ret none),
        ("p".toList, independentScript)]
      startupList := none }
  status := (scriptThread pairScripts none ["load p 2", "unload p"]).status

theorem dropped_dependencies_recorded :
    ¬ ∀ t, Reachable scriptPlatform (fun _ ↦ True) (fun _ _ ↦ True) t →
      (∀ k r, t.state.record k = some r → r.Declared scriptPlatform) ∧
        ∀ request, perform scriptPlatform request t.state =
          performWith scriptPlatform (declaredLoad scriptPlatform) request t.state := by
  intro h
  have hdropped : Reachable scriptPlatform (fun _ ↦ True) (fun _ _ ↦ True) droppedThread :=
    .environment (reachable_scriptThread trivial none ["load p 2", "unload p"]) trivial
  have hrunning : droppedThread.status = .running := by decide +kernel
  let t := handled scriptPlatform (parseMessage (words "load p 2")) droppedThread.state
  have ht : Reachable scriptPlatform (fun _ ↦ True) (fun _ _ ↦ True) t :=
    hdropped.next _ hrunning (by decide) trivial
  have hrecord : (t.state.record "p".toList).map
      (fun r ↦ (r.dependencies, dependencyList r.source.defines.dependencies)) =
        some (["d".toList], .ok (some [])) := by decide +kernel
  obtain ⟨r, hr, hpair⟩ := Option.map_eq_some_iff.mp hrecord
  obtain ⟨hdeps, hdefines⟩ := Prod.mk.inj hpair
  have hdeclared := ((h t ht).1 _ r hr).1
  have hassigns : dependencyList (scriptPlatform.assigns r.ext r.source).dependencies =
      .ok (some []) := hdefines
  rw [hassigns, hdeps] at hdeclared
  cases hdeclared

end Example

end Liota.PackageManager
