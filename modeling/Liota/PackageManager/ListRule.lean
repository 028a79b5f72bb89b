import Liota.PackageManager.Listing
import Liota.PackageManager.LoadCases
import Liota.PackageManager.LoadExact

namespace Liota.PackageManager

open Python Python.Computation Python.Text Relation

variable {F : Type} {π : Platform F}

/-- What a call does to the start-up list: nothing unless it loads its package, and then it
writes the line of the package if that is asked for. -/
inductive ListEffect (π : Platform F) (call : Call) (s : State F) :
    Outcome (Option (PackageRecord F)) → State F → Prop
  | unchanged {o : Outcome (Option (PackageRecord F))} {t : State F}
      (hlist : t.startupList = s.startupList)
      (hloaded : t.Loaded call.name → s.Loaded call.name) : ListEffect π call s o t
  | recorded {o : Outcome (Option (PackageRecord F))} {t u : State F} {r : PackageRecord F}
      (hu : u.startupList = s.startupList) (hmatch : Matches π s.fs call.name r.sha1)
      (hlist : t.startupList = if call.autoload then
        (writePackageIntoAutoload call.name r.sha1 u).2.startupList else u.startupList)
      (ho : call.autoload = false → o = .ok (some r)) : ListEffect π call s o t

theorem ListEffect.startupList {call : Call} {s t : State F}
    {o : Outcome (Option (PackageRecord F))} (h : ListEffect π call s o t)
    (hauto : call.autoload = false) : t.startupList = s.startupList := by
  cases h with
  | unchanged hlist => exact hlist
  | recorded hu _ hlist =>
    rw [hlist, hauto]
    exact hu

theorem ListEffect.listed {call : Call} {s t : State F}
    {o : Outcome (Option (PackageRecord F))} (h : ListEffect π call s o t) {name : Str}
    (hl : Listed s.startupList name) : Listed t.startupList name := by
  cases h with
  | unchanged hlist => exact hlist ▸ hl
  | recorded hu _ hlist =>
    rw [hlist]
    rw [← hu] at hl
    split
    · exact listed_write _ _ hl
    · exact hl

theorem OpenStep.startupList {name : Str} {checksum : Option Str} {extForced : Option Ext}
    {s t : State F} (h : OpenStep π name checksum extForced s t) :
    t.startupList = s.startupList := by
  cases h <;> rfl

theorem Opens.sha1_matches {name : Str} {checksum : Option Str} {extForced : Option Ext}
    {s t : State F} {opened : Opened F} (h : Opens π name checksum extForced s t opened) :
    Matches π s.fs name opened.sha1 := by
  cases checksum with
  | some c =>
    obtain ⟨heq, hmatch⟩ := h.given c rfl
    exact heq ▸ hmatch
  | none =>
    obtain ⟨f, hf, -, hcontent⟩ := h.file
    exact ⟨opened.ext, f, hf, by rw [hcontent, h.hashed rfl]⟩

theorem recordPackage_startupList (name : Str) (checksum : Option Str) (autoload : Bool)
    (record : PackageRecord F) (s : State F) :
    ∃ u : State F, u.startupList = s.startupList ∧
      (recordPackage name checksum autoload record s).2.startupList =
        if autoload then (writePackageIntoAutoload name record.sha1 u).2.startupList
        else u.startupList := by
  refine ⟨(s.insert name record).log (.loaded name checksum), rfl, ?_⟩
  unfold recordPackage
  rw [modify_bind_apply]
  cases autoload with
  | true => exact congrArg _ (bind_pure_snd _ _ _)
  | false => rfl

theorem startPackage_listEffect {call : Call} {s t u : State F} {opened : Opened F}
    (ho : openPackage π call.name call.checksum call.ext s = (.ok (some opened), t))
    (hlist : u.startupList = s.startupList) (hn : ¬ u.Loaded call.name) :
    ListEffect π call s (startPackage call.name call.checksum call.autoload opened u).1
      (startPackage call.name call.checksum call.autoload opened u).2 := by
  rcases startPackage_cases call.name call.checksum call.autoload opened u with
    hfail | ⟨klass, obj, registry, -, -, -, heq⟩
  · obtain ⟨tick, registry, hframe⟩ := hfail.frame
    rw [hframe]
    exact .unchanged hlist fun hl ↦ absurd hl hn
  · obtain ⟨v, hv, hrecord⟩ := recordPackage_startupList call.name call.checksum call.autoload
      (opened.record obj) (ran u registry)
    rw [heq]
    refine .recorded (r := opened.record obj) (hv.trans hlist) (openPackage_opens ho).sha1_matches
      hrecord fun hauto ↦ ?_
    rw [hauto]
    rfl

theorem list_loadRule : LoadRule π (fun _ call s o t ↦ ListEffect π call s o t)
    (fun _ _ _ s _ t ↦ t.startupList = s.startupList) where
  outOfFuel _ _ _ := .unchanged rfl id
  closed {_ call s _} _ ho := by
    have hstep := openPackage_step (π := π) call.name call.checksum call.ext s
    have hsteps := openPackage_steps (π := π) [call.name] call.name call.checksum call.ext s
    rw [ho] at hstep hsteps
    exact .unchanged hstep.startupList fun hl ↦
      not_imp_not.mp (LoadSteps.not_loaded hsteps (by simp)) hl
  refused {_ call s _ _} _ ho := by
    have hstep := openPackage_step (π := π) call.name call.checksum call.ext s
    have hsteps := openPackage_steps (π := π) [call.name] call.name call.checksum call.ext s
    rw [ho] at hstep hsteps
    exact .unchanged hstep.startupList fun hl ↦
      not_imp_not.mp (LoadSteps.not_loaded hsteps (by simp)) hl
  stopped {_ call s _ _ _ _} _ ho hQ _ hsteps := by
    have hstep := openPackage_step (π := π) call.name call.checksum call.ext s
    rw [ho] at hstep
    exact .unchanged (hQ.trans hstep.startupList) fun hl ↦
      absurd hl (LoadSteps.not_loaded hsteps (by simp) (openPackage_not_loaded_after ho))
  started {_ call s t u opened} _ ho hQ hsteps _ := by
    have hstep := openPackage_step (π := π) call.name call.checksum call.ext s
    rw [ho] at hstep
    exact startPackage_listEffect ho (hQ.trans hstep.startupList)
      (LoadSteps.not_loaded hsteps (by simp) (openPackage_not_loaded_after ho))
  done _ _ _ := rfl
  cycle _ _ _ := rfl
  present _ _ _ hQ := hQ
  pulled _ _ _ hP _ _ hQ := hQ.trans (hP.startupList rfl)
  missing _ _ hP _ _ := hP.startupList rfl

end Liota.PackageManager
