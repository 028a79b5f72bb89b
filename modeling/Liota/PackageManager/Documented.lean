import Liota.PackageManager.Convention
import Liota.PackageManager.Scripts

namespace Liota.PackageManager

open Python Python.Computation Python.Text Relation

variable {F : Type} {π : Platform F}

/-- The documented format of a package module: `dependencies`, if there, is a list of different
strings, and `PackageClass` extends `LiotaPackage`. -/
structure Namespace.Documented (n : Namespace) : Prop where
  dependencies : ∀ v, n.dependencies = some v →
    ∃ names : List Str, v = .list (names.map some) ∧ names.Nodup
  packageClass : ∀ klass tick obj, n.packageClass = some klass → klass tick = .ok obj →
    obj.isLiotaPackage = true

def FileSystem.Documented (π : Platform F) (fs : FileSystem F) : Prop :=
  ∀ path f, fs.files.lookup path = some f → ∀ ext tick,
    π.importing ext f.content tick = .done → (π.assigns ext f.content).Documented

structure State.Documented (π : Platform F) (s : State F) : Prop where
  files : s.fs.Documented π
  modules : ∀ m, (s.module m).Documented
  records : ∀ k r, s.record k = some r → r.dependencies.Nodup ∧ r.obj.isLiotaPackage = true

theorem documented_empty : Namespace.empty.Documented :=
  ⟨by simp [Namespace.empty], by simp [Namespace.empty]⟩

theorem Namespace.Documented.initialise {old assigned : Namespace} (hold : old.Documented)
    (hnew : assigned.Documented) : (old.initialise assigned).Documented := by
  refine ⟨fun v hv ↦ ?_, fun klass tick obj hk hobj ↦ ?_⟩
  · rcases ha : assigned.dependencies with _ | w
    · exact hold.dependencies v (by simpa [Namespace.initialise, ha] using hv)
    · exact hnew.dependencies v (by simpa [Namespace.initialise, ha] using hv)
  · rcases ha : assigned.packageClass with _ | w
    · exact hold.packageClass klass tick obj (by simpa [Namespace.initialise, ha] using hk) hobj
    · exact hnew.packageClass klass tick obj (by simpa [Namespace.initialise, ha] using hk) hobj

theorem Namespace.Documented.dependencyList {n : Namespace} (h : n.Documented) :
    ∃ names, dependencyList n.dependencies = .ok (some names) ∧ names.Nodup := by
  rcases hd : n.dependencies with _ | v
  · exact ⟨[], rfl, List.nodup_nil⟩
  · obtain ⟨names, rfl, hnodup⟩ := h.dependencies v hd
    exact ⟨names, by simp only [PackageManager.dependencyList, mapM_map_some], hnodup⟩

def documented (π : Platform F) : Convention π where
  file ext content := ∀ tick, π.importing ext content tick = .done →
    (π.assigns ext content).Documented
  module := Namespace.Documented
  list := List.Nodup
  object obj := obj.isLiotaPackage = true
  empty := documented_empty
  initialise hold hnew := hold.initialise hnew
  assigns h hdone := h _ hdone
  dependencies {n deps} h hdeps := by
    obtain ⟨names, hnames, hnodup⟩ := h.dependencyList
    rw [hnames, Except.ok.injEq, Option.some.injEq] at hdeps
    exact hdeps ▸ hnodup
  constructs h hk hobj := h.packageClass _ _ _ hk hobj

theorem documented_script (sha1 : Str) {dependencies : List Str} (hnodup : dependencies.Nodup)
    (run : RunProg) (cleanUp : Option PyErr) :
    (Script.standard sha1 dependencies run cleanUp).defines.Documented := by
  refine ⟨fun v hv ↦ ⟨dependencies, (Option.some.inj hv).symm, hnodup⟩,
    fun klass tick obj hk hobj ↦ ?_⟩
  obtain rfl := Option.some.inj hk
  obtain rfl := Except.ok.inj hobj
  rfl

theorem documented_scriptFiles {packages : List (Str × Script)}
    (h : ∀ p ∈ packages, p.2.defines.Documented) :
    (scriptFiles packages).Documented scriptPlatform := by
  intro path f hf ext tick _
  obtain ⟨p, hp, heq⟩ := mem_scriptFiles hf
  exact heq ▸ h p hp

theorem Reachable.documented {condition : State F → Request → Prop} {t : Thread F}
    (ht : Reachable π (FileSystem.Documented π) condition t) : t.state.Documented π := by
  have h := Reachable.follows (c := PackageManager.documented π) ht
  exact ⟨h.files, h.modules, h.records⟩

/-- For documented package files, every recorded dependency of a loaded package is loaded and
lists the package among its dependents, and recorded dependencies form no cycle. -/
theorem recorded_dependencies_linked_acyclic {condition : State F → Request → Prop}
    {t : Thread F} (ht : Reachable π (FileSystem.Documented π) condition t) :
    (∀ p r, t.state.record p = some r → ∀ d ∈ r.dependencies,
      ∃ rd, t.state.record d = some rd ∧ p ∈ rd.dependents) ∧
    ∀ p, ¬ TransGen (fun p d ↦ d ∈ t.state.dependencies p) p p := by
  have hdoc := ht.documented
  have hcon := ht.consistent
  have hlinked (p d : Str) (hd : d ∈ t.state.dependencies p) : p ∈ t.state.dependents d := by
    refine hcon.linked p ?_ d hd
    obtain ⟨r, hr⟩ := State.loaded_iff.mp (State.loaded_of_mem_dependencies hd)
    rw [State.dependencies_of_record hr]
    exact (hdoc.records p r hr).1
  refine ⟨fun p r hr d hd ↦ ?_, fun p hp ↦ ?_⟩
  · have hmem := hlinked p d (by rwa [State.dependencies_of_record hr])
    obtain ⟨rd, hrd⟩ := State.loaded_iff.mp (State.loaded_of_mem_dependents hmem)
    exact ⟨rd, hrd, by rwa [State.dependents_of_record hrd] at hmem⟩
  · obtain ⟨rank, hrank⟩ := hcon.ranked
    have hswap : TransGen t.state.Edge p p := by
      refine TransGen.mono (fun d q h ↦ ?_) _ _ (transGen_swap.mpr hp)
      exact ⟨hlinked q d h, State.loaded_of_mem_dependencies h⟩
    exact Graph.acyclic_of_rank hrank p hswap

/-- The scripts of a package `p` that depends on `d`. -/
def pairScripts : List (Str × Script) :=
  [("d".toList, .standard "1".toList [] .ret none),
    ("p".toList, .standard "2".toList ["d".toList] .ret none)]

def pairState : State Script := State.initial scriptPlatform (scriptFiles pairScripts) none

theorem documented_pairScripts : (scriptFiles pairScripts).Documented scriptPlatform := by
  refine documented_scriptFiles fun p hp ↦ ?_
  simp only [pairScripts, List.mem_cons, List.not_mem_nil, or_false] at hp
  rcases hp with rfl | rfl <;> exact documented_script _ (by simp) _ _

theorem recorded_dependencies_linked_acyclic_pair :
    (scriptThread pairScripts none ["load p 2"]).state.dependencies "p".toList = ["d".toList] ∧
      ∀ p, ¬ TransGen (fun p d ↦ d ∈
        (scriptThread pairScripts none ["load p 2"]).state.dependencies p) p p :=
  ⟨by decide +kernel, (recorded_dependencies_linked_acyclic
    (reachable_scriptThread documented_pairScripts none ["load p 2"])).2⟩

end Liota.PackageManager
