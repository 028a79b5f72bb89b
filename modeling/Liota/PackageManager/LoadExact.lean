import Liota.Graph.Buildable
import Liota.PackageManager.Linked
import Liota.PackageManager.LoadTermination

namespace Liota.PackageManager

open Python Python.Computation Python.Text Relation

variable {F : Type}

section Sources

variable (π : Platform F) (fs : FileSystem F)

/-- The file that `_package_load` picks, where `ext` is the extension forced on it. -/
def foundFile (name : Str) (ext : Option Ext) : Option (Ext × F) :=
  (fileExt π fs name ext).bind fun ext ↦
    (fs.file (candidate π name ext)).map fun f ↦ (ext, f.content)

def defines (name : Str) (ext : Option Ext) : Namespace :=
  match foundFile π fs name ext with
  | some (ext, content) => π.assigns ext content
  | none => .empty

def declared (name : Str) (ext : Option Ext) : List Str := (defines π fs name ext).names

end Sources

/-- A module left over from before adds nothing to what executing a file defines. -/
structure Fresh (old assigned : Namespace) : Prop where
  dependencies : assigned.dependencies = none → dependencyList old.dependencies = .ok (some [])
  packageClass : assigned.packageClass = none → old.packageClass = none

theorem fresh_empty (assigned : Namespace) : Fresh .empty assigned := ⟨fun _ ↦ rfl, fun _ ↦ rfl⟩

theorem Fresh.dependencyList {old assigned : Namespace} (h : Fresh old assigned) :
    dependencyList (old.initialise assigned).dependencies =
      PackageManager.dependencyList assigned.dependencies := by
  rcases ha : assigned.dependencies with _ | v
  · have hold : (old.initialise assigned).dependencies = old.dependencies := by
      simp [Namespace.initialise, ha]
    rw [hold]
    exact h.dependencies ha
  · simp [Namespace.initialise, ha]

theorem Fresh.packageClass_eq {old assigned : Namespace} (h : Fresh old assigned) :
    (old.initialise assigned).packageClass = assigned.packageClass := by
  rcases ha : assigned.packageClass with _ | v
  · simpa [Namespace.initialise, ha] using h.packageClass ha
  · simp [Namespace.initialise, ha]

theorem Fresh.initialise {old assigned : Namespace} (h : Fresh old assigned) :
    Fresh (old.initialise assigned) assigned := by
  refine ⟨fun ha ↦ ?_, fun ha ↦ h.packageClass_eq.trans ha⟩
  rw [h.dependencyList, ha]
  rfl

section

variable {π : Platform F}

theorem LoadStep.fs {stack : List Str} {s s' : State F} (h : LoadStep π stack s s') :
    s'.fs = s.fs := by
  cases h with
  | listed =>
    obtain ⟨list, hl⟩ := writePackageIntoAutoload_frame _ _ s
    rw [hl]
  | tick | imported | dropped | linked | raised | loaded => rfl

theorem LoadSteps.fs {stack : List Str} {s s' : State F} (h : LoadSteps π stack s s') :
    s'.fs = s.fs := by
  induction h with
  | refl => rfl
  | tail _ hstep ih => exact hstep.fs.trans ih

theorem openPackage_eq {name : Str} {checksum : Option Str} {extForced : Option Ext}
    {s : State F} {sums : List Str} {ext : Ext} {f : File F} {sha1 : Str} {deps : List Str}
    (hn : ¬ s.Loaded name) (hunder : UnderPackagePath π name)
    (hsums : checksumList π s.fs name extensions = .ok sums)
    (hext : fileExt π s.fs name extForced = some ext)
    (hf : s.fs.file (candidate π name ext) = some f) (hreadable : f.readable = true)
    (hverify : verifyIntegrity π s.fs (candidate π name ext) sums checksum = .ok (some sha1))
    (hdone : π.importing ext f.content s.tick = .done)
    (hdeps : dependencyList ((s.module (moduleName name)).initialise
      (π.assigns ext f.content)).dependencies = .ok (some deps)) :
    openPackage π name checksum extForced s =
      (.ok (some ⟨ext, sha1, deps, f.content⟩), executed π name ext f.content checksum s) := by
  have hchk : packageChkExists π s.fs name extForced = .ok (some (ext, sums)) := by
    simp only [packageChkExists, if_pos hunder, hsums, hext, Option.map_some]
  have hmodule : packageModuleLoad π name ext checksum s =
      (.ok (some f.content), executed π name ext f.content checksum s) := by
    simp only [packageModuleLoad, hf, hreadable, if_true, hdone]
    rfl
  have hdeps' : dependencyList
      ((executed π name ext f.content checksum s).module (moduleName name)).dependencies =
        .ok (some deps) := by
    rw [module_executed, if_pos rfl, hdeps]
  unfold openPackage
  rw [if_neg hn]
  simp only [hchk, hverify]
  rw [bind_ok hmodule]
  simp only [readDependencies, hdeps']

theorem mem_checksumList {fs : FileSystem F} {name sha1 : Str} {sums : List Str}
    (h : checksumList π fs name extensions = .ok sums) (hm : Matches π fs name sha1) :
    sha1 ∈ sums := by
  obtain ⟨ext, f, hf, rfl⟩ := hm
  suffices ∀ exts sums, checksumList π fs name exts = .ok sums → ext ∈ exts →
      π.sha1 f.content ∈ sums from this extensions sums h (extensions_complete ext)
  intro exts
  induction exts with
  | nil => simp
  | cons e rest ih =>
    intro sums h hext
    rw [checksumList] at h
    rcases hs : sha1sum π fs (candidate π name e) with err | found <;> rw [hs] at h
    · simp at h
    · rcases hr : checksumList π fs name rest with err | others <;> rw [hr] at h
      · simp at h
      · simp only [Except.ok.injEq] at h
        rw [← h, List.mem_append]
        rcases List.mem_cons.mp hext with rfl | hext
        · left
          rcases found with _ | sum
          · exact absurd hf (by simp [sha1sum_eq_none hs])
          · obtain ⟨f', hf', -, rfl⟩ := sha1sum_eq_some hs
            obtain rfl := Option.some.inj (hf.symm.trans hf')
            simp
        · exact .inr (ih others hr hext)

theorem find?_eq_some_of_mem {sums : List Str} {c : Str} (h : c ∈ sums) :
    sums.find? (· = c) = some c := by
  induction sums with
  | nil => simp at h
  | cons x rest ih =>
    by_cases hx : x = c
    · simp [hx]
    · rw [List.find?_cons_of_neg (by simpa using hx)]
      exact ih (List.mem_of_ne_of_mem (Ne.symm hx) h)

theorem readable_of_checksumList {fs : FileSystem F} {name : Str} {exts : List Ext}
    {sums : List Str} (h : checksumList π fs name exts = .ok sums) {ext : Ext} (hext : ext ∈ exts)
    {f : File F} (hf : fs.file (candidate π name ext) = some f) : f.readable = true := by
  induction exts generalizing sums with
  | nil => simp at hext
  | cons e rest ih =>
    rw [checksumList] at h
    rcases hs : sha1sum π fs (candidate π name e) with err | found <;> rw [hs] at h
    · simp at h
    · rcases hr : checksumList π fs name rest with err | others <;> rw [hr] at h
      · simp at h
      · rcases List.mem_cons.mp hext with rfl | hext
        · rcases found with _ | sum
          · exact absurd hf (by simp [sha1sum_eq_none hs])
          · obtain ⟨f', hf', hreadable, -⟩ := sha1sum_eq_some hs
            obtain rfl := Option.some.inj (hf.symm.trans hf')
            exact hreadable
        · exact ih hr hext

theorem verifyIntegrity_none {fs : FileSystem F} {name : Str} {sums : List Str}
    (h : checksumList π fs name extensions = .ok sums) {ext : Ext} {f : File F}
    (hf : fs.file (candidate π name ext) = some f) :
    verifyIntegrity π fs (candidate π name ext) sums none = .ok (some (π.sha1 f.content)) := by
  have hreadable := readable_of_checksumList h (extensions_complete ext) hf
  simp only [verifyIntegrity, sha1sum_of_readable (not_nul_of_checksumList h ext) hf hreadable]

end

end Liota.PackageManager
