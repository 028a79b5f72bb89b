import Mathlib.Order.UpperLower.Closure
import Liota.PackageManager.Certain
import Liota.PackageManager.Listing
import Liota.PackageManager.Teardown

namespace Liota.PackageManager

open Python Python.Computation Python.Text Relation

variable {F : Type}

def Event.isLoaded (x : Str) : Event → Bool
  | .loaded y _ => y = x
  | _ => false

def Event.isCleanedUp (x : Str) : Event → Bool
  | .cleanedUp y => y = x
  | _ => false

/-- An instance that can be unloaded and whose `run`, once its dependencies have registered what
they provide, registers what the package provides. -/
structure Serves (depends provides : Str → List Str) (x : Str) (obj : Instance) : Prop where
  isLiotaPackage : obj.isLiotaPackage = true
  cleanUp : ∀ e, obj.cleanUp = some e → e.isLogged = true
  atCleanUp : obj.atCleanUp.RegistersNothing
  run : ∀ r : ResourceRegistry, "package_conf".toList ∈ r.registry →
    (∀ i ∈ provides x, i ∉ r.registry) →
    (∀ d ∈ depends x, ∀ i ∈ provides d, i ∈ r.registry) →
    ∃ r', ResourceRegistry.exec x obj.run r = (.ok (), r') ∧
      ∀ i, i ∈ r'.registry ↔ i ∈ r.registry ∨ i ∈ provides x

/-- Package files that keep to the documentation: the packages of a catalogue depend on each other
only, without cycles, and each has resources and a module of its own. -/
structure Catalogue (π : Platform F) (fs : FileSystem F) where
  stocks : Str → Prop
  depends : Str → List Str
  provides : Str → List Str
  rank : Str → ℕ
  named : ∀ x, stocks x → x ≠ [] ∧ Plain x
  modules : ∀ x y, stocks x → stocks y → moduleName x = moduleName y → x = y
  under : ∀ x, stocks x → UnderPackagePath π x
  readable : ∀ x, stocks x → ∃ sums, checksumList π fs x extensions = .ok sums
  found : ∀ x, stocks x → ∃ ext, fileExt π fs x none = some ext
  digests : ∀ x ext f, stocks x → fs.file (candidate π x ext) = some f → Hex (π.sha1 f.content)
  imports : ∀ x ext f, stocks x → fs.file (candidate π x ext) = some f → ∀ tick,
    π.importing ext f.content tick = .done
  declares : ∀ x ext f, stocks x → fs.file (candidate π x ext) = some f →
    (π.assigns ext f.content).dependencies = some (.list ((depends x).map some))
  defines : ∀ x ext f, stocks x → fs.file (candidate π x ext) = some f →
    ∃ klass, (π.assigns ext f.content).packageClass = some klass ∧
      ∀ tick, ∃ obj, klass tick = .ok obj ∧ Serves depends provides x obj
  nodup : ∀ x, stocks x → (depends x).Nodup
  closed : ∀ x, stocks x → ∀ d ∈ depends x, stocks d ∧ rank d < rank x
  apart : ∀ x y i, stocks x → stocks y → i ∈ provides x → i ∈ provides y → x = y
  unreserved : ∀ x, stocks x → "package_conf".toList ∉ provides x
  texts : ∀ x i, stocks x → i ∈ provides x → π.isText i = true

namespace Catalogue

section Definitions

variable {π : Platform F} {fs : FileSystem F} (C : Catalogue π fs)

structure Package where
  name : Str
  stocked : C.stocks name

def Needs (x y : Str) : Prop := y ∈ C.depends x

/-- The packages that loading `x` takes, `x` among them. -/
def Below (x y : Str) : Prop := ReflTransGen C.Needs x y

instance : Preorder C.Package where
  le p q := C.Below q.name p.name
  le_refl _ := .refl
  le_trans _ _ _ h h' := h'.trans h

structure Records (x : Str) (r : PackageRecord F) : Prop where
  stocked : C.stocks x
  dependencies : r.dependencies = C.depends x
  isLiotaPackage : r.obj.isLiotaPackage = true
  cleanUp : ∀ e, r.obj.cleanUp = some e → e.isLogged = true
  atCleanUp : r.obj.atCleanUp.RegistersNothing
  sha1 : Matches π fs x r.sha1
  ext : (fs.file (candidate π x r.ext)).isSome

/-- The state while the packages of `stack` are being loaded: nothing but the packages that are
loaded, all of them from the catalogue, has left a trace. -/
structure Shelved (stack : List Str) (s : State F) : Prop where
  fs : s.fs = fs
  consistent : Consistent s
  parseable : Parseable s.startupList
  records : ∀ x r, s.record x = some r → C.Records x r
  dependents : ∀ x y, y ∈ s.dependents x → x ∈ C.depends y ∧ (s.Loaded y ∨ y ∈ stack)
  classes : ∀ x ∈ stack, C.stocks x ∧ ∃ klass,
    (s.module (moduleName x)).packageClass = some klass ∧
      ∀ tick, ∃ obj, klass tick = .ok obj ∧ Serves C.depends C.provides x obj
  registry : ∀ i, i ∈ s.resourceRegistry.registry ↔
    i = "package_conf".toList ∨ ∃ x, s.Loaded x ∧ i ∈ C.provides x
  owned : ∀ x i, i ∈ s.owned x ↔ s.Loaded x ∧ i ∈ C.provides x
  balanced : ∀ x, s.trace.countP (Event.isLoaded x) =
    s.trace.countP (Event.isCleanedUp x) + if s.Loaded x then 1 else 0

structure Orders (call : Call) : Prop where
  stocked : C.stocks call.name
  checksum : ∀ c, call.checksum = some c → Matches π fs call.name c
  ext : ∀ e, call.ext = some e → (fs.file (candidate π call.name e)).isSome

def Pulls (stack : List Str) (call : Call) (s : State F)
    (o : Outcome (Option (PackageRecord F))) (t : State F) : Prop :=
  C.Orders call → C.Shelved stack s → ¬ s.Loaded call.name →
    (∀ y ∈ stack, C.rank call.name < C.rank y) → o ≠ .diverged →
    (∃ r, o = .ok (some r) ∧ Matches π fs call.name r.sha1) ∧ C.Shelved stack t ∧
      ∀ k, t.Loaded k ↔ s.Loaded k ∨ C.Below call.name k

/-- What the loop over dependencies in such a state does. -/
def PullsAll (stack : List Str) (name : Str) (deps : List Str) (s : State F) (o : Outcome Bool)
    (t : State F) : Prop :=
  name ∈ stack → (∀ y ∈ stack, C.rank name ≤ C.rank y) → deps ⊆ C.depends name →
    C.Shelved stack s → ¬ s.Loaded name → o ≠ .diverged →
    o = .ok true ∧ C.Shelved stack t ∧ ∀ k, t.Loaded k ↔ s.Loaded k ∨ ∃ d ∈ deps, C.Below d k

end Definitions

section Invariant

variable {π : Platform F} {fs : FileSystem F} {C : Catalogue π fs} {stack : List Str}
  {s t : State F}

theorem Below.stocks {x y : Str} (h : C.Below x y) (hx : C.stocks x) : C.stocks y := by
  induction h with
  | refl => exact hx
  | tail _ hs ih => exact (C.closed _ ih _ hs).1

theorem Shelved.stocks (h : C.Shelved stack s) {x : Str} (hx : s.Loaded x) : C.stocks x := by
  obtain ⟨r, hr⟩ := State.loaded_iff.mp hx
  exact (h.records x r hr).stocked

theorem Shelved.dependencies (h : C.Shelved stack s) {x : Str} (hx : s.Loaded x) :
    s.dependencies x = C.depends x := by
  obtain ⟨r, hr⟩ := State.loaded_iff.mp hx
  rw [State.dependencies_of_record hr]
  exact (h.records x r hr).dependencies

theorem Shelved.linked (h : C.Shelved stack s) {x d : Str} (hx : s.Loaded x)
    (hd : d ∈ C.depends x) : x ∈ s.dependents d := by
  have hdeps := h.dependencies hx
  apply h.consistent.linked x
  · rw [hdeps]
    exact C.nodup x (h.stocks hx)
  · rwa [hdeps]

theorem Shelved.loaded_below (h : C.Shelved stack s) {x y : Str} (hxy : C.Below x y)
    (hx : s.Loaded x) : s.Loaded y := by
  induction hxy with
  | refl => exact hx
  | tail _ hs ih => exact State.loaded_of_mem_dependents (h.linked ih hs)

theorem Shelved.edge_iff (h : C.Shelved stack s) {d q : Str} :
    s.Edge d q ↔ s.Loaded q ∧ d ∈ C.depends q := by
  constructor
  · intro he
    exact ⟨he.2, (h.dependents d q he.1).1⟩
  · intro he
    exact ⟨h.linked he.1 he.2, he.1⟩

theorem Shelved.up_iff (h : C.Shelved stack s) {p q : Str} (hp : s.Loaded p) :
    s.Up p q ↔ s.Loaded q ∧ C.Below q p := by
  constructor
  · intro hup
    refine ⟨hup.loaded hp, ?_⟩
    induction hup with
    | refl => exact .refl
    | tail _ he ih => exact .head (h.edge_iff.mp he).2 ih
  · rintro ⟨hq, hbelow⟩
    induction hbelow using ReflTransGen.head_induction_on with
    | refl => exact .refl
    | head hs _ ih =>
      have hl : s.Loaded _ := State.loaded_of_mem_dependents (h.linked hq hs)
      exact (ih hl).tail (h.edge_iff.mpr ⟨hq, hs⟩)

theorem Shelved.removable (h : C.Shelved stack s) {q : Str} (hq : s.Loaded q) :
    Removable s q := by
  obtain ⟨r, hr⟩ := State.loaded_iff.mp hq
  have hrecord := h.records q r hr
  refine ⟨fun r' e hr' he ↦ ?_, fun r' hr' ↦ ?_, ?_⟩
  · obtain rfl := Option.some.inj (hr.symm.trans hr')
    exact hrecord.cleanUp e he
  · obtain rfl := Option.some.inj (hr.symm.trans hr')
    exact hrecord.isLiotaPackage
  · rw [h.dependencies hq]
    exact C.nodup q hrecord.stocked

theorem Shelved.registersNothing (h : C.Shelved stack s) {q : Str} (hq : s.Loaded q) :
    s.RegistersNothing q := by
  obtain ⟨r, hr⟩ := State.loaded_iff.mp hq
  rw [State.RegistersNothing, State.atCleanUp_of_record hr]
  exact (h.records q r hr).atCleanUp

theorem Shelved.free (h : C.Shelved stack s) {x i : Str} (hx : C.stocks x) (hn : ¬ s.Loaded x)
    (hi : i ∈ C.provides x) : i ∉ s.resourceRegistry.registry := by
  intro hmem
  rcases (h.registry i).mp hmem with rfl | ⟨y, hy, hiy⟩
  · exact C.unreserved x hx hi
  · exact hn (C.apart x y i hx (h.stocks hy) hi hiy ▸ hy)

end Invariant

end Catalogue

theorem exists_file_of_fileExt {π : Platform F} {fs : FileSystem F} {x : Str} {e : Option Ext}
    {ext : Ext} (h : fileExt π fs x e = some ext) : ∃ f, fs.file (candidate π x ext) = some f := by
  have hfile : fs.isfile (candidate π x ext) = true := by
    cases e with
    | none =>
      exact List.find?_some (p := fun ext ↦ fs.isfile (candidate π x ext)) h
    | some e =>
      rw [fileExt] at h
      split at h
      · next hfile => exact Option.some.inj h ▸ hfile
      · cases h
  exact Option.isSome_iff_exists.mp hfile

theorem owned_of_run {x : Str} (hx : x ≠ []) {r r' : ResourceRegistry}
    (h : ReflTransGen (ResourceRegistry.Registers x) r r') :
    (∀ i ∈ r.registry, i ∈ r'.registry) ∧
      ∀ i, i ∈ r'.owned x ↔ i ∈ r.owned x ∨ i ∈ r'.registry ∧ i ∉ r.registry := by
  induction h with
  | refl => exact ⟨fun _ ↦ id, fun i ↦ by tauto⟩
  | tail _ hstep ih =>
    obtain ⟨hsub, howned⟩ := ih
    obtain ⟨identifier, ref, hfresh, rfl⟩ := hstep
    refine ⟨fun i hi ↦ ?_, fun i ↦ ?_⟩
    · rw [ResourceRegistry.mem_registry_store]
      exact .inr (hsub i hi)
    · rw [ResourceRegistry.owned_store, if_pos ⟨rfl, hx⟩, List.mem_append, howned,
        ResourceRegistry.mem_registry_store, List.mem_singleton]
      by_cases hi : i = identifier
      · have hold : i ∉ r.registry := fun hmem ↦ hfresh (hi ▸ hsub i hmem)
        tauto
      · tauto

theorem parseable_recordPackage {x : Str} {checksum : Option Str} {autoload : Bool}
    {record : PackageRecord F} {s : State F} (hpar : Parseable s.startupList) (hname : Plain x)
    (hsum : Plain record.sha1) :
    Parseable (recordPackage x checksum autoload record s).2.startupList := by
  have hwritten : Parseable (writePackageIntoAutoload x record.sha1
      ((s.insert x record).log (.loaded x checksum))).2.startupList :=
    parseable_written (s := (s.insert x record).log (.loaded x checksum)) hpar hname hsum
  unfold recordPackage
  rw [modify_bind_apply]
  split
  · rw [bind_apply]
    rcases hw : writePackageIntoAutoload x record.sha1
      ((s.insert x record).log (.loaded x checksum)) with ⟨_ | e | _, t⟩ <;>
      rw [hw] at hwritten <;> exact hwritten
  · exact hpar

namespace Catalogue

section Load

variable {π : Platform F} {fs : FileSystem F} {C : Catalogue π fs} {stack : List Str} {call : Call}
  {s t u : State F} {opened : Opened F}

theorem plain_of_matches (C : Catalogue π fs) {x sha1 : Str} (hx : C.stocks x)
    (h : Matches π fs x sha1) : Plain sha1 := by
  obtain ⟨ext, f, hf, rfl⟩ := h
  exact (C.digests x ext f hx hf).plain

theorem dependencyList_initialise (C : Catalogue π fs) {x : Str} {ext : Ext} {f : File F}
    (hx : C.stocks x) (hf : fs.file (candidate π x ext) = some f) (old : Namespace) :
    dependencyList (old.initialise (π.assigns ext f.content)).dependencies =
      .ok (some (C.depends x)) := by
  have hdeps : (old.initialise (π.assigns ext f.content)).dependencies =
      some (.list ((C.depends x).map some)) := by
    rw [Namespace.initialise, C.declares x ext f hx hf]
    rfl
  rw [hdeps]
  simp only [dependencyList, mapM_map_some]

theorem Shelved.opens (h : C.Shelved stack s) (hcall : C.Orders call)
    (hn : ¬ s.Loaded call.name) :
    ∃ opened t, openPackage π call.name call.checksum call.ext s = (.ok (some opened), t) := by
  have hx := hcall.stocked
  obtain ⟨sums, hsums⟩ := C.readable _ hx
  have hfound : ∃ ext, fileExt π fs call.name call.ext = some ext := by
    rcases he : call.ext with _ | e
    · exact C.found _ hx
    · exact ⟨e, if_pos (hcall.ext e he)⟩
  obtain ⟨ext, hext⟩ := hfound
  obtain ⟨f, hf⟩ := exists_file_of_fileExt hext
  have hreadable := readable_of_checksumList hsums (extensions_complete ext) hf
  have hverify : ∃ sha1, verifyIntegrity π fs (candidate π call.name ext) sums call.checksum =
      .ok (some sha1) := by
    rcases hgiven : call.checksum with _ | c
    · refine ⟨π.sha1 f.content, ?_⟩
      exact verifyIntegrity_none hsums hf
    · refine ⟨c, ?_⟩
      rw [verifyIntegrity, find?_eq_some_of_mem (mem_checksumList hsums (hcall.checksum c hgiven))]
  obtain ⟨sha1, hverify⟩ := hverify
  have hread := C.dependencyList_initialise hx hf (s.module (moduleName call.name))
  have hdone := C.imports _ ext f hx hf s.tick
  rw [← h.fs] at hsums hext hf hverify
  exact ⟨_, _, openPackage_eq hn (C.under _ hx) hsums hext hf hreadable hverify hdone hread⟩

theorem Shelved.after_open (h : C.Shelved stack s) (hcall : C.Orders call)
    (hstack : call.name ∉ stack)
    (ho : openPackage π call.name call.checksum call.ext s = (.ok (some opened), t)) :
    C.Shelved (call.name :: stack) t ∧ (∀ k, t.record k = s.record k) ∧
      opened.dependencies = C.depends call.name ∧ Matches π fs call.name opened.sha1 ∧
      (fs.file (candidate π call.name opened.ext)).isSome := by
  have hx := hcall.stocked
  have hopens := openPackage_opens ho
  have hsteps := openPackage_steps (π := π) [] call.name call.checksum call.ext s
  rw [ho] at hsteps
  obtain ⟨f, hf, -, hsource⟩ := hopens.file
  rw [h.fs] at hf
  have hafter := hopens.after
  rw [← hsource] at hafter
  have hrecord (k : Str) : t.record k = s.record k := by rw [hafter]; rfl
  have hloaded (k : Str) : t.Loaded k ↔ s.Loaded k := by
    rw [State.loaded_iff, hrecord, ← State.loaded_iff]
  have hmodule (m : Str) : t.module m = if m = moduleName call.name then
      (s.module m).initialise (π.assigns opened.ext f.content) else s.module m := by
    rw [hafter]
    exact module_executed _ _ _ _ s m
  refine ⟨?_, hrecord, ?_, ?_, by rw [hf]; rfl⟩
  · constructor
    · rw [hsteps.fs]
      exact h.fs
    · exact hsteps.consistent h.consistent
    · rw [hafter]
      exact h.parseable
    · intro x r hr
      rw [hrecord] at hr
      exact h.records x r hr
    · intro x y hy
      rw [State.dependents, hrecord] at hy
      obtain ⟨hd, hl | hl⟩ := h.dependents x y hy
      · exact ⟨hd, .inl ((hloaded y).mpr hl)⟩
      · exact ⟨hd, .inr (List.mem_cons_of_mem _ hl)⟩
    · intro x hmem
      rw [hmodule]
      rcases List.mem_cons.mp hmem with rfl | hmem
      · obtain ⟨klass, hklass, hserves⟩ := C.defines _ opened.ext f hx hf
        refine ⟨hx, klass, ?_, hserves⟩
        rw [if_pos rfl]
        rw [Namespace.initialise, hklass]
        rfl
      · have hy := (h.classes x hmem).1
        have hne : moduleName x ≠ moduleName call.name := by
          intro heq
          exact hstack (C.modules x call.name hy hx heq ▸ hmem)
        rw [if_neg hne]
        exact h.classes x hmem
    · intro i
      rw [hafter]
      exact h.registry i
    · intro x i
      rw [hafter]
      exact h.owned x i
    · intro x
      have htrace : t.trace = s.trace ++ [.executed call.name call.checksum] := by rw [hafter]; rfl
      have hbalanced := h.balanced x
      simp only [hloaded, htrace, List.countP_append, List.countP_singleton, Event.isLoaded,
        Event.isCleanedUp]
      exact hbalanced
  · have hdeps := hopens.dependencies
    rw [hmodule, if_pos rfl, C.dependencyList_initialise hx hf] at hdeps
    exact (Option.some.inj (Except.ok.inj hdeps)).symm
  · rcases hgiven : call.checksum with _ | c
    · rw [hopens.hashed hgiven, ← hsource]
      exact ⟨opened.ext, f, hf, rfl⟩
    · obtain ⟨hsha1, hmatches⟩ := hopens.given c hgiven
      rw [hsha1]
      exact h.fs ▸ hmatches

theorem Shelved.link {name d : Str} (h : C.Shelved stack s) (hname : name ∈ stack)
    (hd : d ∈ C.depends name) (hl : s.Loaded d) (hn : ¬ s.Loaded name) :
    C.Shelved stack (s.addDependent d name) := by
  have hstep : LoadStep π [] s (s.addDependent d name) := .linked s hl hn
  have hloaded (k : Str) : (s.addDependent d name).Loaded k ↔ s.Loaded k :=
    State.loaded_modifyRecord _ _ _ s
  have hrecords : ∀ x r, (s.addDependent d name).record x = some r → C.Records x r := by
    intro x r hr
    rw [State.addDependent, State.record_modifyRecord] at hr
    split at hr
    · obtain ⟨r₀, hr₀, rfl⟩ := Option.map_eq_some_iff.mp hr
      have hold := h.records x r₀ hr₀
      exact ⟨hold.stocked, hold.dependencies, hold.isLiotaPackage, hold.cleanUp, hold.atCleanUp,
        hold.sha1, hold.ext⟩
    · exact h.records x r hr
  refine ⟨h.fs, LoadSteps.consistent (.single hstep) h.consistent, h.parseable, hrecords, ?_,
    h.classes, fun i ↦ ?_, fun x i ↦ ?_, fun x ↦ ?_⟩
  · intro x y hy
    rw [hloaded]
    rcases dependents_addDependent d name x s y hy with hy | ⟨rfl, rfl⟩
    · exact h.dependents x y hy
    · exact ⟨hd, .inr hname⟩
  · simp only [hloaded]
    exact h.registry i
  · rw [hloaded]
    exact h.owned x i
  · simp only [hloaded]
    exact h.balanced x

theorem Shelved.starts {x : Str} (h : C.Shelved (x :: stack) u) (hn : ¬ u.Loaded x)
    (hstack : x ∉ stack)
    (hdeps : opened.dependencies = C.depends x) (hsha1 : Matches π fs x opened.sha1)
    (hext : (fs.file (candidate π x opened.ext)).isSome)
    (hlinked : ∀ d ∈ opened.dependencies, x ∈ u.dependents d) (checksum : Option Str)
    (autoload : Bool) :
    (∃ r, (startPackage x checksum autoload opened u).1 = .ok (some r) ∧
        Matches π fs x r.sha1) ∧
      C.Shelved stack (startPackage x checksum autoload opened u).2 ∧
      ∀ k, (startPackage x checksum autoload opened u).2.Loaded k ↔ u.Loaded k ∨ k = x := by
  obtain ⟨hx, klass, hklass, hserves⟩ := h.classes x List.mem_cons_self
  obtain ⟨obj, hobj, hserves⟩ := hserves u.tick
  have hconf : "package_conf".toList ∈ u.resourceRegistry.registry := (h.registry _).mpr (.inl rfl)
  have hpresent : ∀ d ∈ C.depends x, ∀ i ∈ C.provides d, i ∈ u.resourceRegistry.registry := by
    intro d hd i hi
    have hl : u.Loaded d := State.loaded_of_mem_dependents (hlinked d (hdeps ▸ hd))
    exact (h.registry i).mpr (.inr ⟨d, hl, hi⟩)
  obtain ⟨registry, hexec, hregistry⟩ :=
    hserves.run u.resourceRegistry hconf (fun i hi ↦ h.free hx hn hi) hpresent
  have hsteps : LoadSteps π stack u (startPackage x checksum autoload opened u).2 :=
    startPackage_steps checksum autoload opened hn hstack hlinked
  rcases startPackage_cases x checksum autoload opened u with
    hfail | ⟨klass', obj', registry', hklass', hobj', hexec', heq⟩
  · exfalso
    rcases hfail.reason with ⟨hnone, -⟩ | ⟨k, hk, ⟨e, he, -⟩ | ⟨o, e, ho, hraised⟩⟩
    · simp [hnone] at hklass
    · obtain rfl := Option.some.inj (hk.symm.trans hklass)
      simp [he] at hobj
    · obtain rfl := Option.some.inj (hk.symm.trans hklass)
      obtain rfl := Except.ok.inj (ho.symm.trans hobj)
      simp [hraised] at hexec
  obtain rfl := Option.some.inj (hklass'.symm.trans hklass)
  obtain rfl := Except.ok.inj (hobj'.symm.trans hobj)
  obtain rfl : registry' = registry := congrArg Prod.snd (hexec'.symm.trans hexec)
  obtain ⟨list, hsnd⟩ := recordPackage_snd x checksum autoload (opened.record obj')
    (ran u registry')
  have hpar : Parseable (recordPackage x checksum autoload (opened.record obj')
      (ran u registry')).2.startupList :=
    parseable_recordPackage h.parseable (C.named x hx).2 (C.plain_of_matches hx hsha1)
  have hregisters := ResourceRegistry.exec_registers x obj'.run u.resourceRegistry
  rw [hexec] at hregisters
  have howned := (owned_of_run (C.named x hx).1 hregisters).2
  rw [heq] at hsteps ⊢
  have hloaded (k : Str) : (recordPackage x checksum autoload (opened.record obj')
      (ran u registry')).2.Loaded k ↔ u.Loaded k ∨ k = x := by
    rw [hsnd]
    exact (State.loaded_insert x k (opened.record obj') (ran u registry')).trans or_comm
  refine ⟨?_, ?_, hloaded⟩
  · rcases recordPackage_fst x checksum autoload (opened.record obj') (ran u registry') with
      hok | ⟨-, -, hnot⟩
    · exact ⟨_, hok, hsha1⟩
    · exact absurd h.parseable hnot
  have hrecord (k : Str) : (recordPackage x checksum autoload (opened.record obj')
      (ran u registry')).2.record k = if k = x then some (opened.record obj') else u.record k := by
    rw [hsnd]
    exact State.record_insert x k (opened.record obj') (ran u registry')
  have hreg : (recordPackage x checksum autoload (opened.record obj')
      (ran u registry')).2.resourceRegistry = registry' := by rw [hsnd]; rfl
  constructor
  · rw [hsteps.fs]
    exact h.fs
  · exact hsteps.consistent h.consistent
  · exact hpar
  · intro k r hr
    rw [hrecord] at hr
    split at hr
    · next hk =>
      obtain rfl := Option.some.inj hr
      subst hk
      exact ⟨hx, hdeps, hserves.isLiotaPackage, hserves.cleanUp, hserves.atCleanUp, hsha1, hext⟩
    · exact h.records k r hr
  · intro k y hy
    rw [hloaded]
    rw [State.dependents, hrecord] at hy
    split at hy
    · exact absurd hy List.not_mem_nil
    · obtain ⟨hd, hl | hl⟩ := h.dependents k y hy
      · exact ⟨hd, .inl (.inl hl)⟩
      · rcases List.mem_cons.mp hl with rfl | hl
        · exact ⟨hd, .inl (.inr rfl)⟩
        · exact ⟨hd, .inr hl⟩
  · intro k hk
    have hmodule : (recordPackage x checksum autoload (opened.record obj')
        (ran u registry')).2.module (moduleName k) = u.module (moduleName k) := by rw [hsnd]; rfl
    rw [hmodule]
    exact h.classes k (List.mem_cons_of_mem _ hk)
  · intro i
    rw [hreg, hregistry, h.registry]
    simp only [hloaded, or_and_right, exists_or, exists_eq_left, or_assoc]
  · intro k i
    rw [hloaded, State.owned, hreg]
    by_cases hk : k = x
    · subst hk
      rw [howned, hregistry]
      have hnone : i ∉ u.resourceRegistry.owned k := fun hmem ↦ hn ((h.owned k i).mp hmem).1
      have hfree := h.free hx hn (i := i)
      tauto
    · rw [owned_of_registers hregisters hk]
      have hold := h.owned k i
      simp only [hk, or_false]
      exact hold
  · intro k
    have htrace : (recordPackage x checksum autoload (opened.record obj')
        (ran u registry')).2.trace = u.trace ++ [.loaded x checksum] := by rw [hsnd]; rfl
    have hbalanced := h.balanced k
    simp only [hloaded, htrace, List.countP_append, List.countP_singleton, Event.isLoaded,
      Event.isCleanedUp, decide_eq_true_eq]
    by_cases hk : x = k
    · subst hk
      simp only [if_neg hn] at hbalanced
      simp only [or_true, if_true, hbalanced]
      simp
    · simp only [hk, Ne.symm hk, or_false, if_false]
      simpa using hbalanced

theorem pulls_loadRule (C : Catalogue π fs) : LoadRule π C.Pulls C.PullsAll where
  outOfFuel _ _ _ := fun _ _ _ _ ho ↦ absurd rfl ho
  closed _ ho := by
    intro hcall hs hn _ _
    obtain ⟨opened, u, h⟩ := hs.opens hcall hn
    cases ho.symm.trans h
  refused _ ho := by
    intro hcall hs hn _ _
    obtain ⟨opened, u, h⟩ := hs.opens hcall hn
    cases ho.symm.trans h
  stopped {stack call s t u opened o} hstack ho hQ hne _ := by
    intro hcall hs hn hrank hd
    obtain ⟨ht, hrecord, hdeps, -⟩ := hs.after_open hcall hstack ho
    have hranks : ∀ y ∈ call.name :: stack, C.rank call.name ≤ C.rank y := by
      intro y hy
      rcases List.mem_cons.mp hy with rfl | hy
      · exact le_rfl
      · exact (hrank y hy).le
    have hod : o ≠ .diverged := fun h ↦ hd (by rw [h]; rfl)
    exact absurd (hQ List.mem_cons_self hranks (fun _ h ↦ hdeps ▸ h) ht
      (openPackage_not_loaded_after ho) hod).1 hne
  started {stack call s t u opened} hstack ho hQ hsteps hlinked := by
    intro hcall hs hn hrank _
    obtain ⟨ht, hrecord, hdeps, hsha1, hext⟩ := hs.after_open hcall hstack ho
    have hranks : ∀ y ∈ call.name :: stack, C.rank call.name ≤ C.rank y := by
      intro y hy
      rcases List.mem_cons.mp hy with rfl | hy
      · exact le_rfl
      · exact (hrank y hy).le
    have hnt := openPackage_not_loaded_after ho
    obtain ⟨-, hu, hloaded⟩ := hQ List.mem_cons_self hranks (fun _ h ↦ hdeps ▸ h) ht hnt (by simp)
    obtain ⟨hresult, hend, hlast⟩ := hu.starts (hsteps.not_loaded List.mem_cons_self hnt) hstack
      hdeps hsha1 hext hlinked call.checksum call.autoload
    refine ⟨hresult, hend, fun k ↦ ?_⟩
    have hsame : t.Loaded k ↔ s.Loaded k := by
      rw [State.loaded_iff, hrecord, ← State.loaded_iff]
    have hbelow : C.Below call.name k ↔ k = call.name ∨ ∃ d ∈ opened.dependencies, C.Below d k := by
      rw [hdeps]
      exact ReflTransGen.cases_head_iff.trans (or_congr eq_comm Iff.rfl)
    rw [hlast, hloaded, hsame, hbelow]
    exact or_assoc.trans (or_congr_right or_comm)
  done _ _ s := fun _ _ _ hs _ _ ↦ ⟨rfl, hs, by simp⟩
  cycle {stack name d} rest s hd := by
    intro hname hrank hdeps hs _ _
    have hlt := (C.closed name (hs.classes name hname).1 d (hdeps List.mem_cons_self)).2
    have hle := hrank d hd
    omega
  present {stack name d rest s t o} hd hl hn hQ := by
    intro hname hrank hdeps hs _ hod
    have hlink := hs.link hname (hdeps List.mem_cons_self) hl hn
    have hsame (k : Str) : (s.addDependent d name).Loaded k ↔ s.Loaded k :=
      State.loaded_modifyRecord _ _ _ s
    obtain ⟨ho, ht, hloaded⟩ := hQ hname hrank (List.subset_of_cons_subset hdeps) hlink
      (fun h ↦ hn ((hsame name).mp h)) hod
    refine ⟨ho, ht, fun k ↦ ?_⟩
    have hbelow : C.Below d k → s.Loaded k := fun h ↦ hs.loaded_below h hl
    rw [hloaded, hsame]
    simp only [List.mem_cons, exists_eq_or_imp]
    tauto
  pulled {stack name d rest s t u o r} hd hl hn hP hsteps hld hQ := by
    intro hname hrank hdeps hs hns hod
    have hmem := hdeps List.mem_cons_self
    obtain ⟨hstocks, hlt⟩ := C.closed name (hs.classes name hname).1 d hmem
    have horders : C.Orders (.ofDependency d) := ⟨hstocks, by simp [Call.ofDependency],
      by simp [Call.ofDependency]⟩
    obtain ⟨-, ht, hpulled⟩ := hP horders hs hl (fun y hy ↦ hlt.trans_le (hrank y hy)) (by simp)
    have hlink := ht.link hname hmem hld hn
    have hsame (k : Str) : (t.addDependent d name).Loaded k ↔ t.Loaded k :=
      State.loaded_modifyRecord _ _ _ t
    obtain ⟨ho, hu, hloaded⟩ := hQ hname hrank (List.subset_of_cons_subset hdeps) hlink
      (fun h ↦ hn ((hsame name).mp h)) hod
    refine ⟨ho, hu, fun k ↦ ?_⟩
    rw [hloaded, hsame, hpulled]
    simp only [List.mem_cons, exists_eq_or_imp]
    exact or_assoc
  missing {stack name d rest s t o} hd hl hP _ hmiss := by
    intro hname hrank hdeps hs hns hod
    have hmem := hdeps List.mem_cons_self
    obtain ⟨hstocks, hlt⟩ := C.closed name (hs.classes name hname).1 d hmem
    have horders : C.Orders (.ofDependency d) := ⟨hstocks, by simp [Call.ofDependency],
      by simp [Call.ofDependency]⟩
    have hdiv : o ≠ .diverged := fun h ↦ hod (by rw [h]; rfl)
    obtain ⟨⟨r, hr, -⟩, -, hpulled⟩ :=
      hP horders hs hl (fun y hy ↦ hlt.trans_le (hrank y hy)) hdiv
    exact absurd ((hpulled d).mpr (.inr .refl)) (hmiss _ hr)

theorem Shelved.load (h : C.Shelved [] s) (hcall : C.Orders call) (hn : ¬ s.Loaded call.name) :
    ∃ r t, packageLoad π call.name call.checksum call.autoload call.ext s = (.ok (some r), t) ∧
      C.Shelved [] t ∧ (∀ k, t.Loaded k ↔ s.Loaded k ∨ C.Below call.name k) ∧
      Matches π fs call.name r.sha1 := by
  have hrule := C.pulls_loadRule.packageLoad call.name call.checksum call.autoload call.ext s
  obtain ⟨⟨r, hr, hsha1⟩, ht, hloaded⟩ := hrule hcall h hn (by simp)
    (packageLoad_terminates call.name call.checksum call.autoload call.ext s)
  exact ⟨r, _, Prod.ext hr rfl, ht, hloaded, hsha1⟩

end Load

end Catalogue

end Liota.PackageManager
