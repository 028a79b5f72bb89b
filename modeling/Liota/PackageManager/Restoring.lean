import Liota.PackageManager.Ready
import Liota.PackageManager.Tries

namespace Liota.PackageManager

open Python Python.Computation Python.Text Relation

variable {F : Type}

section Definitions

variable (π : Platform F) (sources : Str → Ext → F → Prop) (s s₀ : State F)

/-- What a package was loaded from can be executed and run again from `s₀` on: what its module
defines depends on this file only, and `run` succeeds whenever the dependencies are loaded, after
which `post` holds of what the package owns. -/
structure Repeats (post : Str → List Str → Prop) (q : Str) (r : PackageRecord F) : Prop where
  importing : ∀ tick, π.importing r.ext r.source tick = .done
  dependencies : dependencyList (π.assigns r.ext r.source).dependencies = .ok (some r.dependencies)
  constructs : ∃ klass, (π.assigns r.ext r.source).packageClass = some klass ∧
    ∀ tick, ∃ obj, klass tick = .ok obj
  fresh : Fresh (s₀.module (moduleName q)) (π.assigns r.ext r.source)
  alone : ∀ x ext f, s₀.fs.file (candidate π x ext) = some f → sources x ext f.content →
    moduleName x = moduleName q → Fresh (π.assigns ext f.content) (π.assigns r.ext r.source)
  runs : ∀ klass tick obj u, (π.assigns r.ext r.source).packageClass = some klass →
    klass tick = .ok obj → ReadySteps π sources s₀ u → (∀ d ∈ r.dependencies, u.Loaded d) →
    ¬ u.Loaded q → ∃ registry, ResourceRegistry.exec q obj.run u.resourceRegistry =
      (.ok (), registry) ∧ post q (registry.owned q)

/-- A call that finds the file which the package was loaded from before. -/
structure Reopens (call : Call) (r : PackageRecord F) : Prop where
  record : s.record call.name = some r
  gone : ¬ s₀.Loaded call.name
  under : UnderPackagePath π call.name
  readable : ∃ sums, checksumList π s₀.fs call.name extensions = .ok sums
  found : foundFile π s₀.fs call.name call.ext = some (r.ext, r.source)
  given : ∀ c, call.checksum = some c → Matches π s₀.fs call.name c

/-- The packages of `s` that are not loaded in `s₀` can be loaded again, those of `pull` also as
dependencies of others. -/
structure Restorable (post : Str → List Str → Prop) (pull : Str → Prop) (rank : Str → ℕ) :
    Prop where
  repeats : ∀ {q r}, s.record q = some r → ¬ s₀.Loaded q → Repeats π sources s₀ post q r
  source : ∀ {q r}, s.record q = some r → ¬ s₀.Loaded q → sources q r.ext r.source
  linked : ∀ {q r d}, s.record q = some r → d ∈ r.dependencies → s.Loaded d ∧ rank d < rank q
  pulled : ∀ {d}, pull d → ∃ r, Reopens π s s₀ (.ofDependency d) r ∧
    ∀ e ∈ r.dependencies, s₀.Loaded e ∨ pull e
  apart : ∀ {d y}, pull d → s.Loaded y → ¬ s₀.Loaded y → moduleName y = moduleName d → y = d

structure Remakes (call : Call) (r new : PackageRecord F) : Prop where
  ext : new.ext = r.ext
  dependencies : new.dependencies = r.dependencies
  sha1 : new.sha1 = call.checksum.getD (π.sha1 r.source)

/-- What is loaded in between was loaded in `s`, by one of the calls of `made`, and has the record
that the call makes. -/
structure Gains (post : Str → List Str → Prop) (made : Call → Prop) (u t : State F) : Prop where
  records : ∀ {k new}, t.record k = some new → u.Loaded k ∨ ∃ call r, made call ∧
    call.name = k ∧ s.record k = some r ∧ Remakes π call r new ∧ post k (t.owned k)
  trace : ∃ added, t.trace = u.trace ++ added ∧ ∀ k c, Event.loaded k c ∈ added →
    ∃ call, made call ∧ call.name = k ∧ call.checksum = c

def Pulled (pull : Str → Prop) (call : Call) : Prop := ∃ k, pull k ∧ call = .ofDependency k

def KeepsModules (stack : List Str) (u t : State F) : Prop :=
  ∀ y ∈ stack, s.Loaded y → ¬ s₀.Loaded y → t.module (moduleName y) = u.module (moduleName y)

/-- A call is made to load a package again, while those of `stack` are being loaded. -/
structure Restarts (pull : Str → Prop) (rank : Str → ℕ) (stack : List Str) (call : Call)
    (u : State F) (r : PackageRecord F) : Prop extends Reopens π s s₀ call r where
  absent : ¬ u.Loaded call.name
  dependencies : ∀ d ∈ r.dependencies, u.Loaded d ∨ pull d
  below : ∀ y ∈ stack, s.Loaded y → rank call.name < rank y
  apart : ∀ y ∈ stack, s.Loaded y → ¬ s₀.Loaded y → moduleName y ≠ moduleName call.name

/-- What happens while packages are loaded again. -/
structure Restores (post : Str → List Str → Prop) (made : Call → Prop) (stack : List Str)
    (u t : State F) : Prop where
  steps : ReadySteps π sources u t
  modules : KeepsModules s s₀ stack u t
  gains : Gains π s post made u t

def RestoreCall (post : Str → List Str → Prop) (pull : Str → Prop) (rank : Str → ℕ)
    (stack : List Str) (call : Call) (u : State F) (o : Outcome (Option (PackageRecord F)))
    (t : State F) : Prop :=
  ReadySteps π sources s₀ u → ∀ r, Restarts π s s₀ pull rank stack call u r → o ≠ .diverged →
    Restores π sources s s₀ post (fun c ↦ c = call ∨ Pulled pull c) stack u t ∧
      t.Loaded call.name ∧ (call.autoload = false → ∃ new, o = .ok (some new))

/-- What the loop over the dependencies of a package does in the meantime. -/
def RestoreLoop (post : Str → List Str → Prop) (pull : Str → Prop) (rank : Str → ℕ)
    (stack : List Str) (_ : Str) (deps : List Str) (u : State F) (o : Outcome Bool)
    (t : State F) : Prop :=
  ReadySteps π sources s₀ u →
    (∀ d ∈ deps, (u.Loaded d ∨ pull d) ∧ s.Loaded d ∧
      ∀ y ∈ stack, s.Loaded y → rank d < rank y) → o ≠ .diverged →
    o = .ok true ∧ Restores π sources s s₀ post (Pulled pull) stack u t

end Definitions

section Gains

variable {π : Platform F} {sources : Str → Ext → F → Prop} {s s₀ : State F}
  {post : Str → List Str → Prop} {made made' : Call → Prop} {stack : List Str} {u v t : State F}

theorem Gains.mono (h : Gains π s post made u t) (hmade : ∀ call, made call → made' call) :
    Gains π s post made' u t := by
  refine ⟨fun hk ↦ ?_, ?_⟩
  · rcases h.records hk with hl | ⟨call, r, hcall, hrest⟩
    · exact .inl hl
    · exact .inr ⟨call, r, hmade call hcall, hrest⟩
  · obtain ⟨added, htrace, hadded⟩ := h.trace
    refine ⟨added, htrace, fun k c he ↦ ?_⟩
    obtain ⟨call, hcall, hrest⟩ := hadded k c he
    exact ⟨call, hmade call hcall, hrest⟩

theorem gains_of_loaded (hloaded : ∀ k, t.Loaded k → u.Loaded k) (htrace : t.trace = u.trace) :
    Gains π s post made u t :=
  ⟨fun hk ↦ .inl (hloaded _ (State.loaded_of_record hk)), [], by simp [htrace], by simp⟩

theorem gains_addDependent (u : State F) (d name : Str) :
    Gains π s post made u (u.addDependent d name) := by
  apply gains_of_loaded
  · intro k hk
    exact (State.loaded_modifyRecord _ _ _ u).mp hk
  · rfl

theorem Gains.trans (h : Gains π s post made u v) (h' : Gains π s post made v t)
    (hsteps : ReadySteps π sources v t) : Gains π s post made u t := by
  refine ⟨fun {k new} hk ↦ ?_, ?_⟩
  · rcases h'.records hk with hl | hnew
    · obtain ⟨old, hold⟩ := State.loaded_iff.mp hl
      obtain ⟨dependents, hsame, -⟩ := hsteps.steps.grows k old hold
      obtain rfl := Option.some.inj (hsame.symm.trans hk)
      rcases h.records hold with hu | ⟨call, r, hcall, hname, hr, hmakes, hpost⟩
      · exact .inl hu
      · refine .inr ⟨call, r, hcall, hname, hr, ⟨hmakes.ext, hmakes.dependencies, hmakes.sha1⟩, ?_⟩
        rw [hsteps.owned hl]
        exact hpost
    · exact .inr hnew
  · obtain ⟨added, htrace, hadded⟩ := h.trace
    obtain ⟨added', htrace', hadded'⟩ := h'.trace
    refine ⟨added ++ added', by rw [htrace', htrace, List.append_assoc], fun k c he ↦ ?_⟩
    rcases List.mem_append.mp he with he | he
    · exact hadded k c he
    · exact hadded' k c he

theorem KeepsModules.trans (h : KeepsModules s s₀ stack u v) (h' : KeepsModules s s₀ stack v t) :
    KeepsModules s s₀ stack u t := by
  intro y hy hl hgone
  exact (h' y hy hl hgone).trans (h y hy hl hgone)

theorem KeepsModules.tail {name : Str} (h : KeepsModules s s₀ (name :: stack) u t) :
    KeepsModules s s₀ stack u t := by
  intro y hy
  exact h y (List.mem_cons_of_mem _ hy)

theorem Restores.refl (u : State F) : Restores π sources s s₀ post made stack u u :=
  ⟨.refl, fun _ _ _ _ ↦ rfl, gains_of_loaded (fun _ ↦ id) rfl⟩

theorem Restores.trans (h : Restores π sources s s₀ post made stack u v)
    (h' : Restores π sources s s₀ post made stack v t) :
    Restores π sources s s₀ post made stack u t :=
  ⟨h.steps.trans h'.steps, h.modules.trans h'.modules, h.gains.trans h'.gains h'.steps⟩

theorem Restores.mono (h : Restores π sources s s₀ post made stack u t)
    (hmade : ∀ call, made call → made' call) : Restores π sources s s₀ post made' stack u t :=
  ⟨h.steps, h.modules, h.gains.mono hmade⟩

theorem restores_addDependent {d name : Str} (hd : u.Loaded d) (hn : ¬ u.Loaded name) :
    Restores π sources s s₀ post made stack u (u.addDependent d name) :=
  ⟨addDependent_ready hd hn, fun _ _ _ _ ↦ rfl, gains_addDependent u d name⟩

end Gains

section Rule

variable {π : Platform F} {sources : Str → Ext → F → Prop} {s s₀ : State F}
  {post : Str → List Str → Prop} {pull : Str → Prop} {rank : Str → ℕ} {call : Call}
  {r : PackageRecord F} {u : State F}

theorem Reopens.finds (h : Restorable π sources s s₀ post pull rank) (hc : Reopens π s s₀ call r) :
    Finds π sources s₀.fs call := by
  intro ext f hext hf
  obtain ⟨hfound, -⟩ := defines_eq hext hf
  obtain ⟨rfl, hcontent⟩ := Prod.mk.inj (Option.some.inj (hfound.symm.trans hc.found))
  rw [hcontent]
  exact h.source hc.record hc.gone

theorem Restorable.module_fresh (h : Restorable π sources s s₀ post pull rank)
    (hc : Reopens π s s₀ call r) (hu : ReadySteps π sources s₀ u) :
    Fresh (u.module (moduleName call.name)) (π.assigns r.ext r.source) := by
  have hrep := h.repeats hc.record hc.gone
  exact hu.fresh hrep.alone hrep.fresh

theorem Reopens.open_eq (h : Restorable π sources s s₀ post pull rank)
    (hc : Reopens π s s₀ call r) (hu : ReadySteps π sources s₀ u) (hn : ¬ u.Loaded call.name) :
    openPackage π call.name call.checksum call.ext u =
      (.ok (some ⟨r.ext, call.checksum.getD (π.sha1 r.source), r.dependencies, r.source⟩),
        executed π call.name r.ext r.source call.checksum u) := by
  have hrep := h.repeats hc.record hc.gone
  have hfs := hu.steps.fs
  obtain ⟨sums, hsums⟩ := hc.readable
  obtain ⟨hext, f, hf, hcontent⟩ := foundFile_eq_some hc.found
  have hreadable := readable_of_checksumList hsums (extensions_complete r.ext) hf
  have hfresh := h.module_fresh hc hu
  have hverify : verifyIntegrity π s₀.fs (candidate π call.name r.ext) sums call.checksum =
      .ok (some (call.checksum.getD (π.sha1 r.source))) := by
    rcases hgiven : call.checksum with _ | c
    · rw [verifyIntegrity_none hsums hf, hcontent, Option.getD_none]
    · simp only [verifyIntegrity, Option.getD_some]
      rw [find?_eq_some_of_mem (mem_checksumList hsums (hc.given c hgiven))]
  rw [← hfs] at hsums hext hf hverify
  have hopen := openPackage_eq hn hc.under hsums hext hf hreadable hverify
    (hcontent ▸ hrep.importing u.tick)
    (by rw [hcontent, hfresh.dependencyList]; exact hrep.dependencies)
  rw [hopen, hcontent]

theorem Restarts.keepsModules_executed {stack : List Str}
    (hc : Restarts π s s₀ pull rank stack call u r) :
    KeepsModules s s₀ stack u (executed π call.name r.ext r.source call.checksum u) := by
  intro y hy hl hgone
  rw [module_executed, if_neg (hc.apart y hy hl hgone)]

theorem Restarts.follows (h : Restorable π sources s s₀ post pull rank) {stack : List Str}
    (hc : Restarts π s s₀ pull rank stack call u r) {t : State F}
    (hut : ∀ k, u.Loaded k → t.Loaded k) :
    ∀ d ∈ r.dependencies, (t.Loaded d ∨ pull d) ∧ s.Loaded d ∧
      ∀ y ∈ call.name :: stack, s.Loaded y → rank d < rank y := by
  intro d hd
  obtain ⟨hl, hlt⟩ := h.linked hc.record hd
  refine ⟨(hc.dependencies d hd).imp_left (hut d), hl, fun y hy hly ↦ ?_⟩
  rcases List.mem_cons.mp hy with rfl | hy
  · exact hlt
  · exact hlt.trans (hc.below y hy hly)

theorem Restorable.starts (h : Restorable π sources s s₀ post pull rank)
    (hc : Reopens π s s₀ call r) {t v : State F} (hu : ReadySteps π sources s₀ u)
    (ht : t = executed π call.name r.ext r.source call.checksum u)
    (hv : ReadySteps π sources s₀ v)
    (hmodule : v.module (moduleName call.name) = t.module (moduleName call.name))
    (hgains : Gains π s post (Pulled pull) t v) (hnv : ¬ v.Loaded call.name)
    (hdeps : ∀ d ∈ r.dependencies, v.Loaded d) (opened : Opened F)
    (hopened : opened = ⟨r.ext, call.checksum.getD (π.sha1 r.source), r.dependencies, r.source⟩) :
    Gains π s post (fun c ↦ c = call ∨ Pulled pull c) u
        (startPackage call.name call.checksum call.autoload opened v).2 ∧
      (startPackage call.name call.checksum call.autoload opened v).2.Loaded call.name ∧
      (call.autoload = false → ∃ new,
        (startPackage call.name call.checksum call.autoload opened v).1 = .ok (some new)) := by
  have hrep := h.repeats hc.record hc.gone
  have hfresh := h.module_fresh hc hu
  obtain ⟨klass, hklass, hconstruct⟩ := hrep.constructs
  have hclass : (v.module (moduleName call.name)).packageClass = some klass := by
    rw [hmodule, ht, module_executed, if_pos rfl, hfresh.packageClass_eq]
    exact hklass
  obtain ⟨obj, hobj⟩ := hconstruct v.tick
  obtain ⟨registry, hexec, hpost⟩ := hrep.runs klass v.tick obj v hklass hobj hv hdeps hnv
  rcases startPackage_cases call.name call.checksum call.autoload opened v with
    hfail | ⟨klass', obj', registry', hclass', hobj', hexec', heq⟩
  · rcases hfail.reason with ⟨hnone, -⟩ | ⟨k, hk, ⟨e, he, -⟩ | ⟨o, e, ho, hraised⟩⟩
    · rw [hnone] at hclass
      cases hclass
    · obtain rfl := Option.some.inj (hk.symm.trans hclass)
      rw [he] at hobj
      cases hobj
    · obtain rfl := Option.some.inj (hk.symm.trans hclass)
      obtain rfl := Except.ok.inj (ho.symm.trans hobj)
      rw [hraised] at hexec
      cases hexec
  · obtain rfl := Option.some.inj (hclass'.symm.trans hclass)
    obtain rfl := Except.ok.inj (hobj'.symm.trans hobj)
    obtain rfl : registry' = registry := congrArg Prod.snd (hexec'.symm.trans hexec)
    obtain ⟨list, hsnd⟩ := recordPackage_snd call.name call.checksum call.autoload
      (opened.record obj') (ran v registry')
    have hregs := ResourceRegistry.exec_registers call.name obj'.run v.resourceRegistry
    rw [hexec] at hregs
    rw [heq]
    refine ⟨⟨fun {k new} hk ↦ ?_, ?_⟩, ?_, fun hauto ↦ ?_⟩
    · rw [hsnd] at hk ⊢
      have hk : ((ran v registry').insert call.name (opened.record obj')).record k = some new := hk
      rw [State.record_insert] at hk
      split at hk
      · next hname =>
        obtain rfl := Option.some.inj hk
        subst hname
        subst hopened
        exact .inr ⟨call, r, .inl rfl, rfl, hc.record, ⟨rfl, rfl, rfl⟩, hpost⟩
      · next hname =>
        rcases hgains.records hk with hl | ⟨made, r', hmade, hname', hr', hmakes, hpost'⟩
        · rw [ht] at hl
          exact .inl hl
        · refine .inr ⟨made, r', .inr hmade, hname', hr', hmakes, ?_⟩
          have howned := owned_of_registers hregs hname
          change post k (registry'.owned k)
          rw [howned]
          exact hpost'
    · obtain ⟨added, htrace, hadded⟩ := hgains.trace
      refine ⟨.executed call.name call.checksum :: added ++ [.loaded call.name call.checksum],
        ?_, fun k c he ↦ ?_⟩
      · rw [hsnd]
        change v.trace ++ [.loaded call.name call.checksum] = _
        rw [htrace, ht]
        simp [executed]
      · simp only [List.cons_append, List.mem_cons, reduceCtorEq, List.mem_append, List.not_mem_nil,
          or_false, false_or] at he
        rcases he with he | he
        · obtain ⟨made, hmade, hrest⟩ := hadded k c he
          exact ⟨made, .inr hmade, hrest⟩
        · obtain ⟨rfl, rfl⟩ := Event.loaded.inj he
          exact ⟨call, .inl rfl, rfl, rfl⟩
    · rw [hsnd]
      exact (State.loaded_insert _ _ _ (ran v registry')).mpr (.inl rfl)
    · rw [hauto, recordPackage_false]
      exact ⟨_, rfl⟩

theorem Restorable.pulls (h : Restorable π sources s s₀ post pull rank) {stack : List Str} {d : Str}
    {t : State F} {o : Outcome (Option (PackageRecord F))}
    (hP : RestoreCall π sources s s₀ post pull rank stack (.ofDependency d) u o t)
    (hu : ReadySteps π sources s₀ u) (hn : ¬ u.Loaded d) (hd : u.Loaded d ∨ pull d)
    (hrank : ∀ y ∈ stack, s.Loaded y → rank d < rank y) (hne : o ≠ .diverged) :
    Restores π sources s s₀ post (Pulled pull) stack u t ∧ t.Loaded d ∧
      ∃ new, o = .ok (some new) := by
  have hpull := hd.resolve_left hn
  obtain ⟨r, hc, hdeps⟩ := h.pulled hpull
  have hdeps' (e : Str) (he : e ∈ r.dependencies) : u.Loaded e ∨ pull e :=
    (hdeps e he).imp_left hu.loaded
  have hapart (y : Str) (hy : y ∈ stack) (hl : s.Loaded y) (hgone : ¬ s₀.Loaded y) :
      moduleName y ≠ moduleName d := by
    intro hm
    have hlt := hrank y hy hl
    rw [h.apart hpull hl hgone hm] at hlt
    exact lt_irrefl _ hlt
  obtain ⟨hrestores, hloaded, hok⟩ := hP hu r ⟨hc, hn, hdeps', hrank, hapart⟩ hne
  refine ⟨hrestores.mono fun c hmade ↦ ?_, hloaded, hok rfl⟩
  rcases hmade with rfl | hmade
  · exact ⟨d, hpull, rfl⟩
  · exact hmade

theorem restore_loadRule (h : Restorable π sources s s₀ post pull rank) :
    LoadRule π (RestoreCall π sources s s₀ post pull rank)
      (RestoreLoop π sources s s₀ post pull rank) where
  outOfFuel stack call u := fun _ _ _ hne ↦ absurd rfl hne
  closed {stack call u t} _ ho := by
    intro hu r hc
    have hopen := hc.open_eq h hu hc.absent
    rw [ho] at hopen
    cases hopen
  refused {stack call u t e} _ ho := by
    intro hu r hc
    have hopen := hc.open_eq h hu hc.absent
    rw [ho] at hopen
    cases hopen
  stopped {stack call u t v opened o} _ ho hQ hne _ := by
    intro hu r hc hnd
    have hopens := openPackage_ready (hu.steps.fs ▸ hc.finds h) ho
    have hopen := hc.open_eq h hu hc.absent
    rw [ho] at hopen
    obtain ⟨hopened, -⟩ := Prod.mk.inj hopen
    obtain rfl := Option.some.inj (Outcome.ok.inj hopened)
    have hod : o ≠ .diverged := fun heq ↦ hnd (by rw [heq]; rfl)
    exact absurd (hQ (hu.trans hopens) (hc.follows h fun k ↦ hopens.loaded) hod).1 hne
  started {stack call u t v opened} _ ho hQ hsteps hlinked := by
    intro hu r hc _
    have hopens := openPackage_ready (hu.steps.fs ▸ hc.finds h) ho
    have hopen := hc.open_eq h hu hc.absent
    rw [ho] at hopen
    obtain ⟨hopened, ht⟩ := Prod.mk.inj hopen
    have hopened := Option.some.inj (Outcome.ok.inj hopened)
    have hlist : opened.dependencies = r.dependencies := by rw [hopened]
    have hstarted := started_ready (hu.steps.fs ▸ hc.finds h) ho hsteps hlinked
    rw [hlist] at hQ hlinked
    obtain ⟨-, hloop⟩ := hQ (hu.trans hopens) (hc.follows h fun k ↦ hopens.loaded) (by simp)
    have hmodule := hloop.modules call.name List.mem_cons_self
      (State.loaded_of_record hc.record) hc.gone
    have hnv := hsteps.not_loaded List.mem_cons_self (openPackage_not_loaded_after ho)
    obtain ⟨hgains, hrest⟩ := h.starts hc.toReopens hu ht (hu.trans (hopens.trans hloop.steps))
      hmodule hloop.gains hnv (fun d hd ↦ State.loaded_of_mem_dependents (hlinked d hd)) opened
      hopened
    refine ⟨⟨hopens.trans (hloop.steps.trans hstarted), ?_, hgains⟩, hrest⟩
    have hkeeps := hc.keepsModules_executed
    rw [← ht] at hkeeps
    refine (hkeeps.trans hloop.modules.tail).trans fun y _ _ _ ↦ ?_
    exact startPackage_module _ _ _ _ _ _
  done stack name u := fun _ _ _ ↦ ⟨rfl, .refl u⟩
  cycle {stack name d} rest u hd := by
    intro _ hall _
    obtain ⟨-, hl, hrank⟩ := hall d List.mem_cons_self
    exact absurd (hrank d hd hl) (lt_irrefl _)
  present {stack name d rest u t o} _ hl hn hQ := by
    intro hu hall hne
    have hlink : Restores π sources s s₀ post (Pulled pull) stack u (u.addDependent d name) :=
      restores_addDependent hl hn
    have hfollows (d' : Str) (hd' : d' ∈ rest) := hall d' (List.mem_cons_of_mem _ hd')
    obtain ⟨hok, hrest⟩ := hQ (hu.trans hlink.steps) (fun d' hd' ↦
      (hfollows d' hd').imp_left fun hor ↦ hor.imp_left hlink.steps.loaded) hne
    exact ⟨hok, hlink.trans hrest⟩
  pulled {stack name d rest u t v o r} _ hl hn hP _ hld hQ := by
    intro hu hall hne
    obtain ⟨hor, -, hrank⟩ := hall d List.mem_cons_self
    obtain ⟨hpulls, -, -⟩ := h.pulls hP hu hl hor hrank (by simp)
    have hlink := hpulls.trans (restores_addDependent hld hn)
    have hfollows (d' : Str) (hd' : d' ∈ rest) := hall d' (List.mem_cons_of_mem _ hd')
    obtain ⟨hok, hrest⟩ := hQ (hu.trans hlink.steps) (fun d' hd' ↦
      (hfollows d' hd').imp_left fun hor ↦ hor.imp_left hlink.steps.loaded) hne
    exact ⟨hok, hlink.trans hrest⟩
  missing {stack name d rest u t o} _ hl hP _ hmiss := by
    intro hu hall hne
    obtain ⟨hor, -, hrank⟩ := hall d List.mem_cons_self
    have hod : o ≠ .diverged := fun heq ↦ hne (by rw [heq]; rfl)
    obtain ⟨-, hloaded, new, hok⟩ := h.pulls hP hu hl hor hrank hod
    exact absurd hloaded (hmiss _ hok)

theorem Restorable.makeCall_restores (h : Restorable π sources s s₀ post pull rank)
    (hc : Reopens π s s₀ call r) (hu : ReadySteps π sources s₀ u) (hn : ¬ u.Loaded call.name)
    (hdeps : ∀ d ∈ r.dependencies, u.Loaded d ∨ pull d) :
    Restores π sources s s₀ post (fun c ↦ c = call ∨ Pulled pull c) [] u (makeCall π call u).2 ∧
      (makeCall π call u).2.Loaded call.name ∧
      (call.autoload = false → ∃ new, (makeCall π call u).1 = .ok (some new)) := by
  have hP := (restore_loadRule h).packageLoad call.name call.checksum call.autoload call.ext u
  have hterm := packageLoad_terminates (π := π) call.name call.checksum call.autoload call.ext u
  exact hP hu r ⟨hc, hn, hdeps, by simp, by simp⟩ hterm

end Rule

end Liota.PackageManager
