import Liota.PackageManager.LoadCases
import Liota.PackageManager.Linked

namespace Liota.PackageManager

open Python Python.Computation Python.Text Relation

variable {F : Type} {π : Platform F}

/-- Something required of package files: what it means for a file, for a module, for recorded
dependencies and for instances. -/
structure Convention (π : Platform F) where
  file : Ext → F → Prop
  module : Namespace → Prop
  list : List Str → Prop
  object : Instance → Prop
  empty : module .empty
  initialise : ∀ {old assigned : Namespace}, module old → module assigned →
    module (old.initialise assigned)
  assigns : ∀ {ext : Ext} {content : F} {tick : ℕ}, file ext content →
    π.importing ext content tick = .done → module (π.assigns ext content)
  dependencies : ∀ {n : Namespace} {deps : List Str}, module n →
    dependencyList n.dependencies = .ok (some deps) → list deps
  constructs : ∀ {n : Namespace} {klass : PackageClass} {tick : ℕ} {obj : Instance}, module n →
    n.packageClass = some klass → klass tick = .ok obj → object obj

def FileSystem.All (P : Ext → F → Prop) (fs : FileSystem F) : Prop :=
  ∀ path f, fs.files.lookup path = some f → ∀ ext, P ext f.content

structure State.Follows (c : Convention π) (s : State F) : Prop where
  files : s.fs.All c.file
  modules : ∀ m, c.module (s.module m)
  records : ∀ k r, s.record k = some r → c.list r.dependencies ∧ c.object r.obj

section

variable {c : Convention π}

theorem State.Follows.relinks {s t : State F} (hs : s.Follows c) (h : Relinks s t) :
    t.Follows c where
  files := by
    rw [h.fs]
    exact hs.files
  modules m := by
    rw [h.module]
    exact hs.modules m
  records k r hr := by
    obtain ⟨dependents, hr'⟩ := h.record k r hr
    have hold := hs.records k { r with dependents := dependents } hr'
    exact hold

theorem OpenStep.follows {name : Str} {checksum : Option Str} {extForced : Option Ext}
    {s t : State F} (h : OpenStep π name checksum extForced s t) (hs : s.Follows c) :
    t.Follows c := by
  cases h with
  | unchanged => exact hs
  | rejected => exact hs.relinks (relinks_of_eq rfl rfl rfl)
  | failed =>
    refine ⟨hs.files, fun m ↦ ?_, hs.records⟩
    simp only [State.module, Dict.lookup_erase_eq]
    split
    · exact c.empty
    · exact hs.modules m
  | @executed ext f _ hf hdone =>
    refine ⟨hs.files, fun m ↦ ?_, hs.records⟩
    rw [module_executed]
    split
    · exact c.initialise (hs.modules m) (c.assigns (hs.files _ f hf ext) hdone)
    · exact hs.modules m

theorem startPackage_follows {name : Str} {opened : Opened F} {u : State F}
    (hu : u.Follows c) (hlist : c.list opened.dependencies) (checksum : Option Str)
    (autoload : Bool) : (startPackage name checksum autoload opened u).2.Follows c := by
  have hframe := startPackage_startFrame name checksum autoload opened u
  refine ⟨hframe.fs ▸ hu.files, fun m ↦ ?_, fun k r hr ↦ ?_⟩
  · rw [startPackage_module]
    exact hu.modules m
  · rcases hframe.record k r hr with hr | ⟨-, klass, obj, hclass, hobj, rfl⟩
    · exact hu.records k r hr
    · exact ⟨hlist, c.constructs (hu.modules _) hclass hobj⟩

theorem follows_loadRule : LoadRule π
    (fun _ _ s _ t ↦ s.Follows c → t.Follows c)
    (fun _ _ _ s _ t ↦ s.Follows c → t.Follows c) where
  outOfFuel _ _ _ := id
  closed {_ call s _} _ ho hs := by
    have h := openPackage_step (π := π) call.name call.checksum call.ext s
    exact (ho ▸ h).follows hs
  refused {_ call s _ _} _ ho hs := by
    have h := openPackage_step (π := π) call.name call.checksum call.ext s
    exact (ho ▸ h).follows hs
  stopped {_ call s _ _ _ _} _ ho hQ _ _ hs := by
    have h := openPackage_step (π := π) call.name call.checksum call.ext s
    exact hQ ((ho ▸ h).follows hs)
  started {_ call s t u opened} _ ho hQ _ _ hs := by
    have h := openPackage_step (π := π) call.name call.checksum call.ext s
    have ht : t.Follows c := (ho ▸ h).follows hs
    have hlist := c.dependencies (ht.modules (moduleName call.name))
      (openPackage_opens ho).dependencies
    exact startPackage_follows (hQ ht) hlist _ _
  done _ _ _ := id
  cycle _ _ _ := id
  present _ _ _ hQ hs := hQ (hs.relinks (addDependent_relinks _ _ _))
  pulled _ _ _ hP _ _ hQ hs := hQ ((hP hs).relinks (addDependent_relinks _ _ _))
  missing _ _ hP _ _ := hP

theorem all_rename {P : Ext → F → Prop} {fs fs' : FileSystem F} {src dst : Str} (hfs : fs.All P)
    (h : fs.rename src dst = some fs') : fs'.All P := by
  obtain ⟨-, -, ⟨f, hf, -, rfl⟩ | rfl | rfl⟩ := FileSystem.rename_eq_some h
  · intro path g hg
    simp only [Dict.lookup_insert_eq, Dict.lookup_erase_eq] at hg
    split at hg
    · exact Option.some.inj hg ▸ hfs _ f hf
    · split at hg
      · simp at hg
      · exact hfs path g hg
  · exact hfs
  · intro path g hg
    obtain ⟨k, -, hk⟩ := Dict.lookup_rekey_eq_some hg
    exact hfs k g hk

theorem all_remove {P : Ext → F → Prop} {fs fs' : FileSystem F} {path : Str} (hfs : fs.All P)
    (h : fs.remove path = some fs') : fs'.All P := by
  unfold FileSystem.remove at h
  split at h
  · obtain rfl := Option.some.inj h
    intro k g hg
    simp only [Dict.lookup_erase_eq] at hg
    split at hg
    · simp at hg
    · exact hfs k g hg
  · simp at h

theorem all_makedirs {P : Ext → F → Prop} {fs fs' : FileSystem F} {path : Str} (hfs : fs.All P)
    (h : fs.makedirs path = some fs') : fs'.All P := by
  unfold FileSystem.makedirs at h
  split at h
  · obtain rfl := Option.some.inj h
    exact hfs
  · simp at h

theorem FileSystem.All.edits {P : Ext → F → Prop} {fs fs' : FileSystem F} (hfs : fs.All P)
    (h : fs.Edits fs') : fs'.All P := by
  cases h with
  | renamed h => exact all_rename hfs h
  | removed h => exact all_remove hfs h
  | madeDirs h => exact all_makedirs hfs h

theorem covers_follows :
    Covers π (fun s s' : State F ↦ s.Follows c → s'.Follows c) := by
  refine covers_of_updates (fun _ ↦ id) (fun _ _ _ h h' hs ↦ h' (h hs)) ?_ ?_ ?_ ?_
  · intro name checksum autoload ext s
    exact follows_loadRule.packageLoad name checksum autoload ext s
  · intro name track s hs
    exact hs.relinks (packageUnload_shrinks π name track s).relinks
  · intro s list hs
    exact hs.relinks (relinks_of_eq rfl rfl rfl)
  · intro s fs hfs hs
    exact ⟨hs.files.edits hfs, hs.modules, hs.records⟩

theorem follows_initial {fs : FileSystem F} (hfs : fs.All c.file)
    (startupList : Option Str) : (State.initial π fs startupList).Follows c := by
  refine ⟨hfs, fun m ↦ c.empty, fun k r hr ↦ ?_⟩
  simp [State.record, State.initial] at hr

theorem Reachable.follows {condition : State F → Request → Prop} {t : Thread F}
    (ht : Reachable π (FileSystem.All c.file) condition t) : t.state.Follows c :=
  ht.invariant (fun _ startupList hfs ↦ follows_initial hfs startupList)
    (fun _ _ _ hfs hs ↦ ⟨hfs, hs.modules, hs.records⟩)
    fun s request _ hs ↦ covers_follows.perform request s hs

end

end Liota.PackageManager
