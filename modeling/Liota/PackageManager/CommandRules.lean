import Liota.PackageManager.Thread
import Liota.PackageManager.UnloadSteps

namespace Liota.PackageManager

open Python Python.Computation Python.Text

variable {F : Type} {π : Platform F}

/-- A preorder on states that contains what loading one package, unloading one package and each
change to the start-up list or to the files does. Every request then stays within it. -/
structure Covers (π : Platform F) (R : State F → State F → Prop) : Prop where
  refl : ∀ s, R s s
  trans : ∀ s t u, R s t → R t u → R s u
  load : ∀ name checksum autoload ext, Within R (packageLoad π name checksum autoload ext)
  unload : ∀ name track, Within R (packageUnload π name track)
  listed : ∀ name sha1, Within R (writePackageIntoAutoload name sha1)
  delisted : ∀ name, Within R (removePackageFromAutoload name)
  stash : ∀ name, Within R (stashFile π name)
  makeStash : Within R (makeStash π)

/-- What deleting packages does to the files, one step at a time. -/
inductive FileSystem.Edits (fs : FileSystem F) : FileSystem F → Prop
  | renamed {src dst : Str} {fs' : FileSystem F} (h : fs.rename src dst = some fs') : Edits fs fs'
  | removed {path : Str} {fs' : FileSystem F} (h : fs.remove path = some fs') : Edits fs fs'
  | madeDirs {path : Str} {fs' : FileSystem F} (h : fs.makedirs path = some fs') : Edits fs fs'

theorem stashFile_edits (name : Str) (s : State F) :
    (stashFile π name s).2 = s ∨
      ∃ fs, s.fs.Edits fs ∧ (stashFile π name s).2 = { s with fs := fs } := by
  unfold stashFile
  dsimp only
  split
  · next fs hfs => exact .inr ⟨fs, .renamed hfs, rfl⟩
  · split
    · next fs hfs => exact .inr ⟨fs, .removed hfs, rfl⟩
    · exact .inl rfl

theorem makeStash_edits (s : State F) :
    (makeStash π s).2 = s ∨ ∃ fs, s.fs.Edits fs ∧ (makeStash π s).2 = { s with fs := fs } := by
  rw [makeStash, modify_apply]
  dsimp only
  split
  · exact .inl rfl
  · cases hfs : s.fs.makedirs (joinPath π "stash".toList) with
    | none => exact .inl rfl
    | some fs => exact .inr ⟨fs, .madeDirs hfs, rfl⟩

theorem covers_of_updates {R : State F → State F → Prop} (hrefl : ∀ s, R s s)
    (htrans : ∀ s t u, R s t → R t u → R s u)
    (hload : ∀ name checksum autoload ext, Within R (packageLoad π name checksum autoload ext))
    (hunload : ∀ name track, Within R (packageUnload π name track))
    (hlist : ∀ s list, R s { s with startupList := list })
    (hfiles : ∀ s fs, s.fs.Edits fs → R s { s with fs := fs }) : Covers π R where
  refl := hrefl
  trans := htrans
  load := hload
  unload := hunload
  listed name sha1 s := by
    obtain ⟨list, h⟩ := writePackageIntoAutoload_frame name sha1 s
    rw [h]
    exact hlist s list
  delisted name s := by
    obtain ⟨list, h⟩ := removePackageFromAutoload_frame name s
    rw [h]
    exact hlist s list
  stash name s := by
    rcases stashFile_edits (π := π) name s with h | ⟨fs, hfs, h⟩
    · rw [h]
      exact hrefl s
    · rw [h]
      exact hfiles s fs hfs
  makeStash s := by
    rcases makeStash_edits (π := π) s with h | ⟨fs, hfs, h⟩
    · rw [h]
      exact hrefl s
    · rw [h]
      exact hfiles s fs hfs

theorem within_unloadListFrom {R : State F → State F → Prop} (hrefl : ∀ s, R s s)
    (htrans : ∀ s t u, R s t → R t u → R s u)
    (hunload : ∀ name track, Within R (packageUnload π name track)) (packages failed : List Str)
    (track : List TrackItem) : Within R (unloadListFrom π packages failed track) := by
  induction packages generalizing failed track with
  | nil => exact within_pure hrefl _
  | cons name rest ih =>
    refine within_bind htrans (within_get hrefl) fun s ↦ within_ite ?_ (ih failed track)
    exact within_bind htrans (hunload name track) fun p ↦ ih _ p.2

namespace Covers

variable {R : State F → State F → Prop} (h : Covers π R)
include h

theorem pure {α : Type} (a : α) : Within R (Pure.pure a : Manager F α) := within_pure h.refl a

theorem get : Within R (Py.get : Manager F (State F)) := within_get h.refl

theorem raise {α : Type} (e : PyErr) : Within R (Py.raise e : Manager F α) :=
  within_raise h.refl e

theorem bind {α β : Type} {x : Manager F α} {f : α → Manager F β} (hx : Within R x)
    (hf : ∀ a, Within R (f a)) : Within R (x >>= f) := within_bind h.trans hx hf

theorem handle {α : Type} {x handler : Manager F α} {catches : PyErr → Bool} (hx : Within R x)
    (hh : Within R handler) : Within R (Py.tryExcept catches x handler) :=
  within_tryExcept h.trans hx hh

theorem reloadTracked {load : TrackItem → Str → Manager F (Option (PackageRecord F))}
    (hload : ∀ item sha1, Within R (load item sha1)) (name checksum : Str)
    (items : List TrackItem) (record : Option (PackageRecord F)) :
    Within R (reloadTracked load name checksum items record) := by
  induction items generalizing record with
  | nil => exact h.pure record
  | cons item rest ih =>
    refine h.bind h.get fun s ↦ within_ite (ih record) ?_
    exact h.bind (hload item _) fun temp ↦ ih _

theorem restart {load : TrackItem → Str → Manager F (Option (PackageRecord F))}
    (hload : ∀ item sha1, Within R (load item sha1)) (name checksum : Str) (autoload : Bool) :
    Within R (restart π load name checksum autoload) := by
  refine h.bind (h.unload name []) fun p ↦ within_ite ?_ (h.pure none)
  refine h.bind (h.reloadTracked hload name checksum _ none) fun record ↦ ?_
  cases record with
  | none => exact h.pure none
  | some r =>
    refine within_ite (h.bind (h.listed name r.sha1) fun _ ↦ h.pure _) (h.pure _)

theorem packageLoadList (packages : List (Str × Str)) (autoload : Bool) :
    Within R (packageLoadList π packages autoload) := by
  have hloop (failed : List Str) : Within R (loadListFrom π autoload packages failed) := by
    induction packages generalizing failed with
    | nil => exact h.pure failed
    | cons entry rest ih =>
      refine h.bind (h.handle ?_ (h.pure failed)) fun failed' ↦ ih failed'
      refine h.bind h.get fun s ↦ within_ite (h.pure failed) ?_
      exact h.bind (h.load _ _ _ _) fun record ↦ h.pure _
  exact h.bind (hloop []) fun failed ↦ h.pure _

theorem packageUnloadList (packages : List Str) (track : List TrackItem) :
    Within R (packageUnloadList π packages track) := by
  exact h.bind (within_unloadListFrom h.refl h.trans h.unload packages [] track) fun p ↦ h.pure _

theorem packageUpdateList (packages : List (Str × Str)) (autoload : Bool) :
    Within R (packageUpdateList π packages autoload) := by
  refine h.bind (h.packageUnloadList _ []) fun p ↦ ?_
  refine h.bind (h.packageLoadList packages autoload) fun loaded ↦ ?_
  refine h.bind (within_ite (h.pure true) (h.packageLoadList _ autoload)) fun restored ↦ ?_
  exact h.pure _

theorem packageLoadAuto : Within R (packageLoadAuto π) := by
  intro s
  unfold PackageManager.packageLoadAuto
  split
  · exact h.refl s
  · split
    · exact h.refl s
    · exact within_ite (h.pure ()) (h.bind (h.packageLoadList _ false) fun _ ↦ h.pure ()) s

theorem packageDelete (name : Str) : Within R (packageDelete π name) := by
  have hstash (names : List Str) : Within R (stashFiles π names) := by
    induction names with
    | nil => exact h.pure true
    | cons n rest ih =>
      exact h.bind (h.stash n) fun stashed ↦ h.bind ih fun others ↦ h.pure _
  have hfiles : Within R (packageDeleteFiles π name) := by
    refine h.bind h.get fun s ↦ within_ite (h.raise _) ?_
    refine within_ite (h.pure false) (h.bind h.makeStash fun _ ↦ ?_)
    refine within_ite (h.raise _) (h.bind (hstash _) fun stashed ↦ ?_)
    exact within_ite (h.bind (h.delisted name) fun _ ↦ h.pure _) (h.pure _)
  refine h.bind h.get fun s ↦ within_ite ?_ hfiles
  exact h.bind (h.unload name []) fun _ ↦ hfiles

theorem packageDeleteList (packages : List Str) : Within R (packageDeleteList π packages) := by
  have hloop (failed : List Str) : Within R (deleteListFrom π packages failed) := by
    induction packages generalizing failed with
    | nil => exact h.pure failed
    | cons name rest ih =>
      refine h.bind (h.handle ?_ (h.pure failed)) fun failed' ↦ ih failed'
      exact h.bind (h.packageDelete name) fun deleted ↦ h.pure _
  exact h.bind (hloop []) fun failed ↦ h.pure _

theorem perform (request : Request) : Within R (perform π request) := by
  have hthen {α : Type} {x : Manager F α} (hx : Within R x) :
      Within R (x >>= fun _ ↦ (Pure.pure true : Manager F Bool)) := h.bind hx fun _ ↦ h.pure true
  cases request with
  | load name checksum autoload => exact hthen (h.load _ _ _ _)
  | reload name checksum autoload =>
    refine hthen (h.bind h.get fun s ↦ within_ite ?_ (h.pure none))
    exact h.restart (fun item sha1 ↦ h.load _ _ _ _) name checksum autoload
  | update name checksum autoload =>
    refine hthen (h.bind h.get fun s ↦ within_ite ?_ (h.load _ _ _ _))
    exact h.restart (fun item sha1 ↦ h.load _ _ _ _) name checksum autoload
  | loadList packages autoload => exact hthen (h.packageLoadList packages autoload)
  | updateList packages autoload => exact hthen (h.packageUpdateList packages autoload)
  | unload name => exact hthen (h.unload name [])
  | unloadList packages => exact hthen (h.packageUnloadList packages [])
  | delete name => exact hthen (h.packageDelete name)
  | deleteList packages => exact hthen (h.packageDeleteList packages)
  | loadAuto => exact hthen h.packageLoadAuto
  | unloadAll => exact h.bind h.get fun s ↦ hthen (h.packageUnloadList _ [])
  | updateAll => exact h.raise _
  | terminate =>
    refine h.bind (h.bind h.get fun s ↦ ?_) fun terminated ↦ h.pure _
    exact h.bind (h.packageUnloadList _ []) fun p ↦ h.pure _
  | report what =>
    intro s
    rw [PackageManager.perform, report_snd]
    exact h.refl s
  | ignored => exact h.pure true

end Covers

/-- The invariant rule for whole runs: what holds at first, survives every change made from
outside and every request that meets the condition, holds in every reachable state. -/
theorem Reachable.invariant {files : FileSystem F → Prop} {condition : State F → Request → Prop}
    {I : State F → Prop} (hinit : ∀ fs startupList, files fs → I (State.initial π fs startupList))
    (henv : ∀ s fs startupList, files fs → I s → I { s with fs := fs, startupList := startupList })
    (hperform : ∀ s request, condition s request → I s → I (perform π request s).2)
    {t : Thread F} (ht : Reachable π files condition t) : I t.state := by
  induction ht with
  | init hfs => exact hinit _ _ hfs
  | environment _ hfs ih => exact henv _ _ _ hfs ih
  | start _ hs ih => exact hperform _ _ hs ih
  | message _ _ hs ih => exact hperform _ _ hs ih

end Liota.PackageManager
