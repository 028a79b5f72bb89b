import Liota.Python.Batch
import Liota.PackageManager.Deletion
import Liota.PackageManager.Recording

namespace Liota.PackageManager

open Python Python.Computation Python.Text Relation

variable {F : Type}

section Steps

variable (π : Platform F)

/-- One round of the loop in `_package_load_list`; `false` if it names a failure. -/
def loadPasses (autoload : Bool) (entry : Str × Str) : Manager F Bool :=
  Py.tryExcept catchAll
    (do
      let s ← Py.get
      if s.Loaded entry.1 then pure true
      else do
        let record ← packageLoad π entry.1 (some entry.2) autoload none
        pure record.isSome)
    (pure true)

/-- One round of the loop in `_package_delete_list`. -/
def deletePasses (fileName : Str) : Manager F Bool :=
  Py.tryExcept catchAll (packageDelete π fileName) (pure true)

end Steps

section Load

variable {π : Platform F} {s u : State F} {autoload : Bool}

theorem loadPasses_eq (entry : Str × Str) (s : State F) :
    loadPasses π autoload entry s = if s.Loaded entry.1 then (.ok true, s)
      else match packageLoad π entry.1 (some entry.2) autoload none s with
        | (.ok record, t) => (.ok record.isSome, t)
        | (.raised _, t) => (.ok true, t)
        | (.diverged, t) => (.diverged, t) := by
  unfold loadPasses Py.tryExcept
  rw [get_bind_apply]
  by_cases hl : s.Loaded entry.1
  · rw [if_pos hl, if_pos hl]
    rfl
  · rw [if_neg hl, if_neg hl, bind_apply]
    rcases packageLoad π entry.1 (some entry.2) autoload none s with ⟨record | e | _, t⟩ <;> rfl

theorem loadListed_eq_passes (autoload : Bool) (entry : Str × Str) (failed : List Str) :
    loadListed π autoload entry failed = (do
      let passed ← loadPasses π autoload entry
      pure (if passed then failed else failed ++ [entry.1])) := by
  funext s
  rw [bind_apply, loadPasses_eq]
  unfold loadListed Py.tryExcept
  rw [get_bind_apply]
  by_cases hl : s.Loaded entry.1
  · rw [if_pos hl, if_pos hl]
    rfl
  · rw [if_neg hl, if_neg hl, bind_apply]
    rcases packageLoad π entry.1 (some entry.2) autoload none s with ⟨record | e | _, t⟩ <;> rfl

theorem loadListFrom_eq_failures (autoload : Bool) (packages : List (Str × Str))
    (failed : List Str) :
    loadListFrom π autoload packages failed =
      Py.failures (loadPasses π autoload) Prod.fst packages failed := by
  induction packages generalizing failed with
  | nil => rfl
  | cons entry rest ih =>
    funext s
    rw [loadListFrom, loadListed_eq_passes, Py.failures, bind_apply, bind_apply, bind_apply]
    rcases hr : loadPasses π autoload entry s with ⟨passed | e | _, t⟩
    · exact congrFun (ih _) t
    · rfl
    · rfl

theorem packageLoadList_eq_allPass (packages : List (Str × Str)) (autoload : Bool) :
    packageLoadList π packages autoload =
      Py.allPass (loadPasses π autoload) Prod.fst packages := by
  rw [packageLoadList, loadListFrom_eq_failures]
  rfl

theorem loadPasses_ok {entry : Str × Str} {passed : Bool}
    (h : loadPasses π autoload entry s = (.ok passed, u)) :
    s.Loaded entry.1 ∧ passed = true ∧ u = s ∨ ¬ s.Loaded entry.1 ∧
      ((∃ r, packageLoad π entry.1 (some entry.2) autoload none s = (.ok r, u) ∧
          passed = r.isSome) ∨
        ∃ e, packageLoad π entry.1 (some entry.2) autoload none s = (.raised e, u) ∧
          passed = true) := by
  rw [loadPasses_eq] at h
  split at h
  · next hl =>
    cases h
    exact .inl ⟨hl, rfl, rfl⟩
  · next hl =>
    refine .inr ⟨hl, ?_⟩
    rcases hm : packageLoad π entry.1 (some entry.2) autoload none s with ⟨r | e | _, t⟩ <;>
      rw [hm] at h
    · cases h
      exact .inl ⟨r, rfl, rfl⟩
    · cases h
      exact .inr ⟨e, rfl, rfl⟩
    · cases h

theorem loadPasses_false {entry : Str × Str}
    (h : loadPasses π autoload entry s = (.ok false, u)) :
    ¬ s.Loaded entry.1 ∧ packageLoad π entry.1 (some entry.2) autoload none s = (.ok none, u) := by
  obtain ⟨-, hpassed, -⟩ | ⟨hn, ⟨r, hr, hpassed⟩ | ⟨e, -, hpassed⟩⟩ := loadPasses_ok h
  · cases hpassed
  · cases r with
    | none => exact ⟨hn, hr⟩
    | some r => cases hpassed
  · cases hpassed

theorem startPackage_autoload (name : Str) (checksum : Option Str) (opened : Opened F)
    (s : State F) :
    startPackage name checksum true opened s =
      (startPackage name checksum false opened >>= fun r ↦ match r with
        | none => pure none
        | some r => do
          writePackageIntoAutoload name r.sha1
          pure (some r)) s := by
  rw [bind_apply]
  unfold startPackage
  split
  · rfl
  · dsimp only
    split
    · rfl
    · rw [bind_apply, bind_apply]
      rcases runInstance name _ _ with ⟨(_ | _) | e | _, t⟩ <;> rfl

theorem packageLoad_autoload (name : Str) (checksum : Option Str) (ext : Option Ext)
    (s : State F) :
    packageLoad π name checksum true ext s =
      (packageLoad π name checksum false ext >>= fun r ↦ match r with
        | none => pure none
        | some r => do
          writePackageIntoAutoload name r.sha1
          pure (some r)) s := by
  rw [bind_apply]
  unfold packageLoad
  rw [loadFuel, loadFuel, bind_apply, bind_apply]
  rcases openPackage π name checksum ext s with ⟨(_ | opened) | e | _, t⟩
  · rfl
  · dsimp only
    rw [bind_apply, bind_apply]
    rcases followDependencies _ name [name] opened.dependencies t with ⟨(_ | _) | e | _, u⟩
    · rfl
    · exact startPackage_autoload name checksum opened u
    · rfl
    · rfl
  · rfl
  · rfl

/-- None of the loads of a batch meets anything that raises. -/
def LoadsCalmly (π : Platform F) (s : State F) (packages : List (Str × Str)) : Prop :=
  ∀ entry ∈ packages, ¬ s.Loaded entry.1 → Calm π s (listCall false entry)

theorem loaded_of_passes {entry : Str × Str} {t : State F} (hsteps : LoadSteps π [] s t)
    (htame : t.Follows (tame π)) (hn : ¬ t.Loaded entry.1)
    (hcalm : Calm π s (listCall false entry))
    (hpass : loadPasses π autoload entry t = (.ok true, u)) : u.Loaded entry.1 := by
  obtain ⟨r, v, hload, -⟩ := makeCall_ok hsteps htame hcalm (by simp [listCall])
  have hloaded : ∀ r', r = some r' → v.Loaded entry.1 := by
    rintro r' rfl
    have heffect := makeCall_ownEffect (π := π) (listCall false entry) t
    rw [hload] at heffect
    exact State.loaded_of_record (heffect.loaded r' rfl)
  change packageLoad π entry.1 (some entry.2) false none t = (.ok r, v) at hload
  rw [loadPasses_eq, if_neg hn] at hpass
  cases autoload with
  | false =>
    rw [hload] at hpass
    cases r with
    | none => cases hpass
    | some r =>
      cases hpass
      exact hloaded r rfl
  | true =>
    rw [packageLoad_autoload, bind_ok hload] at hpass
    cases r with
    | none => cases hpass
    | some r =>
      dsimp only at hpass
      obtain ⟨list, hlist⟩ := writePackageIntoAutoload_frame entry.1 r.sha1 v
      rw [bind_apply] at hpass
      rcases hw : writePackageIntoAutoload entry.1 r.sha1 v with ⟨_ | e | _, w⟩ <;>
        rw [hw] at hpass hlist
      · cases hpass
        obtain rfl : u = _ := hlist
        exact hloaded r rfl
      · cases hpass
        obtain rfl : u = _ := hlist
        exact hloaded r rfl
      · cases hpass

theorem loads_truthful {packages : List (Str × Str)} (htame : s.Follows (tame π))
    (hcalm : LoadsCalmly π s packages) (h : Passes (loadPasses π autoload) packages s u) :
    ∀ entry ∈ packages, u.Loaded entry.1 := by
  refine h.rule (I := fun t ↦ LoadSteps π [] s t ∧ t.Follows (tame π))
    (D := fun entry t ↦ t.Loaded entry.1) (fun entry hentry t v ht hstep ↦ ?_) ⟨.refl, htame⟩
  obtain ⟨hsteps, hfollows⟩ := ht
  obtain ⟨hl, -, rfl⟩ | ⟨hn, hload⟩ := loadPasses_ok hstep
  · exact ⟨⟨hsteps, hfollows⟩, hl, fun _ _ ↦ id⟩
  · have hrun : (packageLoad π entry.1 (some entry.2) autoload none t).2 = v := by
      obtain ⟨r, hr, -⟩ | ⟨e, he, -⟩ := hload
      · rw [hr]
      · rw [he]
    have hmore := packageLoad_steps (π := π) entry.1 (some entry.2) autoload none t
    have hkeeps := covers_follows.load (π := π) entry.1 (some entry.2) autoload none t hfollows
    rw [hrun] at hmore hkeeps
    have hnew : ¬ s.Loaded entry.1 := fun hl ↦ hn (hsteps.grows.loaded hl)
    exact ⟨⟨hsteps.trans hmore, hkeeps⟩,
      loaded_of_passes hsteps hfollows hn (hcalm entry hentry hnew) hstep,
      fun x _ hx ↦ hmore.grows.loaded hx⟩

end Load

section Delete

variable {π : Platform F} {s t u : State F} {p : Str}

theorem deletePasses_eq (p : Str) (s : State F) :
    deletePasses π p s = match packageDelete π p s with
      | (.ok deleted, t) => (.ok deleted, t)
      | (.raised _, t) => (.ok true, t)
      | (.diverged, t) => (.diverged, t) := by
  unfold deletePasses Py.tryExcept
  rcases packageDelete π p s with ⟨deleted | e | _, t⟩ <;> rfl

theorem deleteListFrom_eq_failures (packages failed : List Str) :
    deleteListFrom π packages failed = Py.failures (deletePasses π) id packages failed := by
  induction packages generalizing failed with
  | nil => rfl
  | cons p rest ih =>
    funext s
    rw [deleteListFrom, Py.failures, bind_apply, bind_apply, deletePasses_eq]
    unfold Py.tryExcept
    rw [bind_apply]
    rcases packageDelete π p s with ⟨deleted | e | _, t⟩
    · exact congrFun (ih _) t
    · exact congrFun (ih failed) t
    · rfl

theorem packageDeleteList_eq_allPass (packages : List Str) :
    packageDeleteList π packages = Py.allPass (deletePasses π) id packages := by
  rw [packageDeleteList, deleteListFrom_eq_failures]
  rfl

/-- Unloading the package before its files are looked for, if it is loaded, raises nothing. -/
def UnloadReturns (π : Platform F) (t : State F) (p : Str) : Prop :=
  t.Loaded p → ∃ r, (packageUnload π p [] t).1 = .ok r

def unloadedFirst (π : Platform F) (t : State F) (p : Str) : State F :=
  if t.Loaded p then (packageUnload π p [] t).2 else t

theorem unloadedFirst_shrinks (t : State F) (p : Str) : Shrinks t (unloadedFirst π t p) := by
  unfold unloadedFirst
  split
  · exact packageUnload_shrinks π p [] t
  · exact .refl t

theorem packageDelete_eq (h : UnloadReturns π t p) :
    packageDelete π p t = packageDeleteFiles π p (unloadedFirst π t p) := by
  unfold packageDelete unloadedFirst
  rw [get_bind_apply]
  by_cases hl : t.Loaded p
  · obtain ⟨r, hr⟩ := h hl
    rw [if_pos hl, if_pos hl, bind_of_fst hr]
  · rw [if_neg hl, if_neg hl]

theorem stashes_of_passes (hret : UnloadReturns π t p) (hnul : nul ∉ p)
    (hfiles : FilesOnly π t.fs p) (h : deletePasses π p t = (.ok true, u)) :
    u = (packageDelete π p t).2 ∧ Stashes π (foundNames π t.fs p) (withStash π t.fs) u.fs := by
  have hu : u = (packageDelete π p t).2 := by
    rw [deletePasses_eq] at h
    rcases hd : packageDelete π p t with ⟨deleted | e | _, v⟩ <;> rw [hd] at h <;> cases h <;> rfl
  refine ⟨hu, ?_⟩
  have hfs : (unloadedFirst π t p).fs = t.fs := (unloadedFirst_shrinks t p).fs
  obtain ⟨hall, hnone⟩ := packageDeleteFiles_spec hnul (s := unloadedFirst π t p)
    (by rw [hfs]; exact hfiles)
  rw [hfs, ← packageDelete_eq hret] at hall hnone
  by_cases hdel : Deletable π t.fs p
  · exact hu ▸ (hall hdel).2.2
  · rw [deletePasses_eq] at h
    rcases hd : packageDelete π p t with ⟨deleted | e | _, v⟩ <;> rw [hd] at h hnone
    · cases hnone hdel
      cases h
    · cases hnone hdel
    · cases hnone hdel

end Delete

section Deleted

variable {π : Platform F} {s t u : State F} {p q : Str} {packages : List Str}

/-- No candidate file of the package is left in the package directory. -/
def Deleted (π : Platform F) (fs : FileSystem F) (p : Str) : Prop :=
  UnderPackagePath π p → ∀ ext, fs.isfile (candidate π p ext) = false

/-- What a batch deletion needs to keep what its result promises: the loaded packages that it names
can be unloaded, the candidates that are found are the very files that are moved, and no file is
moved onto a candidate of a package that is named. -/
structure DeletesCleanly (π : Platform F) (s : State F) (packages : List Str) : Prop where
  nul : ∀ p ∈ packages, nul ∉ p
  list : (∃ p ∈ packages, s.Loaded p) → Parseable s.startupList
  above : ∀ p ∈ packages, s.Loaded p → ∀ q, s.Up p q → Detachable s q
  files : ∀ p ∈ packages, ∀ ext,
    s.fs.isdir (candidate π p ext) = false ∧ NoDirectory π s.fs (namedFile p ext)
  spelled : ∀ p ∈ packages, UnderPackagePath π p → ∀ ext,
    s.fs.isfile (candidate π p ext) = true →
      sourcePath π (namedFile p ext) = abspath (candidate π p ext)
  lands : ∀ p ∈ packages, ∀ q ∈ packages, UnderPackagePath π q → ∀ ext,
    stashPath π (namedFile p ext) ≠ abspath (candidate π q ext)

structure Deleting (π : Platform F) (s : State F) (packages : List Str) (t : State F) : Prop where
  consistent : Consistent t
  follows : t.Follows (tame π)
  record : ∀ k r, t.record k = some r → ∃ dependents,
    s.record k = some { r with dependents := dependents } ∧ r.dependents ⊆ dependents
  list : Parseable s.startupList → Parseable t.startupList
  isdir : ∀ x, abspath x ≠ abspath (joinPath π "stash".toList) → t.fs.isdir x = s.fs.isdir x
  isfile : ∀ q ∈ packages, UnderPackagePath π q → ∀ ext,
    t.fs.isfile (candidate π q ext) = true → s.fs.isfile (candidate π q ext) = true

namespace Deleting

theorem loaded (h : Deleting π s packages t) {k : Str} (hk : t.Loaded k) : s.Loaded k := by
  obtain ⟨r, hr⟩ := State.loaded_iff.mp hk
  obtain ⟨dependents, hs, -⟩ := h.record k r hr
  exact State.loaded_of_record hs

theorem edge (h : Deleting π s packages t) {x y : Str} (hxy : t.Edge x y) : s.Edge x y := by
  refine ⟨?_, h.loaded hxy.2⟩
  obtain ⟨r, hr⟩ := State.loaded_iff.mp (State.loaded_of_mem_dependents hxy.1)
  obtain ⟨dependents, hs, hsub⟩ := h.record x r hr
  have hmem := hxy.1
  rw [State.dependents_of_record hr] at hmem
  rw [State.dependents_of_record hs]
  exact hsub hmem

theorem detachable (h : Deleting π s packages t) (hq : Detachable s q) : Detachable t q := by
  constructor
  · intro r hr
    obtain ⟨dependents, hs, -⟩ := h.record q r hr
    have hobj := hq.isLiotaPackage _ hs
    exact hobj
  · by_cases hl : t.Loaded q
    · obtain ⟨r, hr⟩ := State.loaded_iff.mp hl
      obtain ⟨dependents, hs, -⟩ := h.record q r hr
      have hnodup := hq.nodup
      rw [State.dependencies_of_record hs] at hnodup
      rw [State.dependencies_of_record hr]
      exact hnodup
    · have hnil : t.dependencies q = [] := by
        by_contra hne
        obtain ⟨d, hd⟩ := List.exists_mem_of_ne_nil _ hne
        exact hl (State.loaded_of_mem_dependencies hd)
      rw [hnil]
      exact List.nodup_nil

theorem filesOnly (h : Deleting π s packages t) (hp : ∀ ext,
      s.fs.isdir (candidate π p ext) = false ∧ NoDirectory π s.fs (namedFile p ext)) :
    FilesOnly π t.fs p where
  candidates ext := (h.isdir _ (ne_stash (suffix_candidate p ext))).trans (hp ext).1
  sources ext _ := (h.isdir _ (ne_stash (suffix_sourcePath p ext))).trans (hp ext).2

theorem unloads (h : Deleting π s packages t) (hclean : DeletesCleanly π s packages)
    (hp : p ∈ packages) :
    UnloadReturns π t p ∧
      (Parseable t.startupList → Parseable (unloadedFirst π t p).startupList) := by
  have hup (hl : t.Loaded p) (q : Str) (hq : t.Up p q) : Detachable t q := by
    refine h.detachable (hclean.above p hp (h.loaded hl) q ?_)
    exact ReflTransGen.mono (fun _ _ hxy ↦ h.edge hxy) _ _ hq
  obtain ⟨names, result, hrun⟩ := packageUnload_returns (π := π) h.consistent h.follows p
    (fun hl ↦ h.list (hclean.list ⟨p, hp, h.loaded hl⟩)) hup []
  refine ⟨fun _ ↦ ⟨result, congrArg Prod.fst hrun⟩, fun hpar ↦ ?_⟩
  unfold unloadedFirst
  split
  · rw [hrun]
    exact parseable_retireAll hpar names
  · exact hpar

end Deleting

theorem isfile_of_stashes {fs fs' : FileSystem F}
    (h : Stashes π (foundNames π fs p) (withStash π fs) fs') (hunder : UnderPackagePath π q)
    (hlands : UnderPackagePath π q → ∀ ext,
      stashPath π (namedFile p ext) ≠ abspath (candidate π q ext)) {ext : Ext}
    (hfile : fs'.isfile (candidate π q ext) = true) :
    fs.isfile (candidate π q ext) = true ∧
      ∀ n ∈ foundNames π fs p, abspath (candidate π q ext) ≠ sourcePath π n := by
  rcases (h.isfile _).mp hfile with ⟨n, hn, -, heq⟩ | ⟨hsources, hold⟩
  · obtain ⟨ext', -, rfl⟩ := mem_foundNames.mp hn
    have hsuffix := suffix_candidate (π := π) q ext
    rw [heq] at hsuffix
    obtain rfl := ext_eq_of_suffix hsuffix (suffix_stashPath p ext')
    exact absurd heq.symm (hlands hunder ext)
  · rw [isfile_withStash] at hold
    exact ⟨hold, hsources⟩

theorem Deleting.step (h : Deleting π s packages t) (hclean : DeletesCleanly π s packages)
    (hp : p ∈ packages) (hstep : deletePasses π p t = (.ok true, u)) :
    Deleting π s packages u ∧ Deleted π u.fs p ∧
      ∀ q ∈ packages, Deleted π t.fs q → Deleted π u.fs q := by
  obtain ⟨hret, hlist⟩ := h.unloads hclean hp
  have hfiles := h.filesOnly (hclean.files p hp)
  obtain ⟨hu, hstashes⟩ := stashes_of_passes hret (hclean.nul p hp) hfiles hstep
  have hcand (q : Str) (hq : q ∈ packages) (hunder : UnderPackagePath π q) (ext : Ext)
      (hfile : u.fs.isfile (candidate π q ext) = true) :=
    isfile_of_stashes hstashes hunder (hclean.lands p hp q hq) hfile
  have hshrinks := unloadedFirst_shrinks (π := π) t p
  obtain ⟨fs, list, hframe, hparse⟩ := packageDeleteFiles_frame (π := π) p (unloadedFirst π t p)
  rw [← packageDelete_eq hret, ← hu] at hframe
  refine ⟨⟨?_, ?_, fun k r hr ↦ ?_, fun hpar ↦ ?_, fun x hx ↦ ?_, fun q hq hunder ext hfile ↦ ?_⟩,
    fun hunder ext ↦ ?_, fun q hq hdel hunder ext ↦ ?_⟩
  · exact hu ▸ covers_consistent.packageDelete p t h.consistent
  · exact hu ▸ covers_follows.packageDelete p t h.follows
  · rw [hframe] at hr
    obtain ⟨dependents, ht, hsub⟩ := hshrinks.record k r hr
    obtain ⟨dependents', hs, hsub'⟩ := h.record k _ ht
    exact ⟨dependents', hs, List.Subset.trans hsub hsub'⟩
  · rw [hframe]
    exact hparse (hlist (h.list hpar))
  · rw [hstashes.rights.isdir, isdir_withStash hx]
    exact h.isdir x hx
  · exact h.isfile q hq hunder ext (hcand q hq hunder ext hfile).1
  · by_contra hfile
    obtain ⟨hold, hsources⟩ := hcand p hp hunder ext (by simpa using hfile)
    have hfound : namedFile p ext ∈ foundNames π t.fs p :=
      mem_foundNames.mpr ⟨ext, (hfiles.pathExists ext).trans hold, rfl⟩
    exact hsources _ hfound
      (hclean.spelled p hp hunder ext (h.isfile p hp hunder ext hold)).symm
  · by_contra hfile
    have hold := (hcand q hq hunder ext (by simpa using hfile)).1
    rw [hdel hunder ext] at hold
    cases hold

theorem deletes_truthful (hs : Consistent s) (htame : s.Follows (tame π))
    (hclean : DeletesCleanly π s packages) (h : Passes (deletePasses π) packages s u) :
    ∀ p ∈ packages, Deleted π u.fs p :=
  h.rule (I := Deleting π s packages) (D := fun p t ↦ Deleted π t.fs p)
    (fun _ hp _ _ ht hstep ↦ ht.step hclean hp hstep)
    ⟨hs, htame, fun _ r hr ↦ ⟨r.dependents, hr, fun _ ↦ id⟩, id, fun _ _ ↦ rfl,
      fun _ _ _ _ ↦ id⟩

end Deleted

section Unload

variable {π : Platform F} {s u : State F}

theorem unloadListFrom_result (packages failed failed' : List Str) (track track' : List TrackItem)
    (h : unloadListFrom π packages failed track s = (.ok (failed', track'), u)) :
    failed' = failed ∧ ∀ p ∈ packages, ¬ u.Loaded p := by
  induction packages generalizing failed track s with
  | nil =>
    cases h
    exact ⟨rfl, by simp⟩
  | cons p rest ih =>
    rw [unloadListFrom, get_bind_apply] at h
    have hshrinks := within_unloadListFrom Shrinks.refl Shrinks.trans (packageUnload_shrinks π)
      rest
    split at h
    · next hl =>
      obtain ⟨⟨unloaded, track₁⟩, t, hfirst, hrest⟩ := bind_eq_ok h
      obtain ⟨rfl, hgone⟩ := unloadFuel_ok hl hfirst
      obtain ⟨hfailed, hall⟩ := ih failed track₁ hrest
      refine ⟨hfailed, List.forall_mem_cons.mpr ⟨fun hu ↦ hgone ?_, hall⟩⟩
      have hrun : (unloadListFrom π rest failed track₁ t).2 = u := congrArg Prod.snd hrest
      exact (hrun ▸ hshrinks failed track₁ t : Shrinks t u).loaded hu
    · next hl =>
      obtain ⟨hfailed, hall⟩ := ih failed track h
      refine ⟨hfailed, List.forall_mem_cons.mpr ⟨fun hu ↦ hl ?_, hall⟩⟩
      have hrun : (unloadListFrom π rest failed track s).2 = u := congrArg Prod.snd h
      exact (hrun ▸ hshrinks failed track s : Shrinks s u).loaded hu

end Unload

section Results

variable {π : Platform F} {s u : State F}

/-- The results of the batch operations from a state: with `True` every named package is in the
state that was asked for, at least where the batch is among `Loads` or `Deletes`, and with `False`
the operation on some named package failed. A batch unload does not return `False`. -/
structure BatchesTruthful (π : Platform F) (s : State F) (Loads : List (Str × Str) → Prop)
    (Deletes : List Str → Prop) : Prop where
  loaded : ∀ packages autoload u, Loads packages →
    packageLoadList π packages autoload s = (.ok true, u) → ∀ entry ∈ packages, u.Loaded entry.1
  notLoaded : ∀ packages autoload u, packageLoadList π packages autoload s = (.ok false, u) →
    ∃ pre entry post b t v, packages = pre ++ entry :: post ∧
      packageLoadList π pre autoload s = (.ok b, t) ∧ ¬ t.Loaded entry.1 ∧
      packageLoad π entry.1 (some entry.2) autoload none t = (.ok none, v)
  deleted : ∀ packages u, Deletes packages →
    packageDeleteList π packages s = (.ok true, u) → ∀ p ∈ packages, Deleted π u.fs p
  notDeleted : ∀ packages u, packageDeleteList π packages s = (.ok false, u) →
    ∃ pre p post b t v, packages = pre ++ p :: post ∧
      packageDeleteList π pre s = (.ok b, t) ∧ packageDelete π p t = (.ok false, v)
  unloaded : ∀ packages track track' u,
    packageUnloadList π packages track s = (.ok (true, track'), u) → ∀ p ∈ packages, ¬ u.Loaded p
  notUnloaded : ∀ packages track track' u,
    packageUnloadList π packages track s ≠ (.ok (false, track'), u)

theorem packageLoadList_failed {packages : List (Str × Str)} {autoload : Bool}
    (h : packageLoadList π packages autoload s = (.ok false, u)) :
    ∃ pre entry post b t v, packages = pre ++ entry :: post ∧
      packageLoadList π pre autoload s = (.ok b, t) ∧ ¬ t.Loaded entry.1 ∧
      packageLoad π entry.1 (some entry.2) autoload none t = (.ok none, v) := by
  rw [packageLoadList_eq_allPass] at h
  obtain ⟨pre, entry, post, b, t, v, hsplit, hpre, hfails⟩ := allPass_false h
  rw [← packageLoadList_eq_allPass] at hpre
  exact ⟨pre, entry, post, b, t, v, hsplit, hpre, loadPasses_false hfails⟩

theorem packageDeleteList_failed {packages : List Str}
    (h : packageDeleteList π packages s = (.ok false, u)) :
    ∃ pre p post b t v, packages = pre ++ p :: post ∧
      packageDeleteList π pre s = (.ok b, t) ∧ packageDelete π p t = (.ok false, v) := by
  rw [packageDeleteList_eq_allPass] at h
  obtain ⟨pre, p, post, b, t, v, hsplit, hpre, hfails⟩ := allPass_false h
  rw [← packageDeleteList_eq_allPass] at hpre
  rw [deletePasses_eq] at hfails
  refine ⟨pre, p, post, b, t, v, hsplit, hpre, ?_⟩
  rcases hd : packageDelete π p t with ⟨deleted | e | _, w⟩ <;> rw [hd] at hfails
  · cases hfails
    rfl
  · cases hfails
  · cases hfails

theorem packageUnloadList_result {packages : List Str} {track track' : List TrackItem} {b : Bool}
    (h : packageUnloadList π packages track s = (.ok (b, track'), u)) :
    b = true ∧ ∀ p ∈ packages, ¬ u.Loaded p := by
  obtain ⟨⟨failed, track₁⟩, t, hrun, hlast⟩ := bind_eq_ok h
  obtain ⟨rfl, hall⟩ := unloadListFrom_result packages [] failed track track₁ hrun
  obtain ⟨hb, rfl⟩ := Prod.mk.inj hlast
  obtain ⟨rfl, -⟩ := Prod.mk.inj (Outcome.ok.inj hb)
  exact ⟨rfl, hall⟩

/-- The results tell the truth where no load of a batch meets anything that raises and every
deletion of a batch is clean. -/
theorem batches_truthful {condition : State F → Request → Prop} {t : Thread F}
    (ht : Reachable π (FileSystem.All (tame π).file) condition t) :
    BatchesTruthful π t.state (LoadsCalmly π t.state) (DeletesCleanly π t.state) where
  loaded packages autoload u hcalm h := by
    rw [packageLoadList_eq_allPass] at h
    exact loads_truthful ht.follows hcalm (allPass_true_iff.mp h)
  notLoaded _ _ _ h := packageLoadList_failed h
  deleted packages u hclean h := by
    rw [packageDeleteList_eq_allPass] at h
    exact deletes_truthful ht.consistent ht.follows hclean (allPass_true_iff.mp h)
  notDeleted _ _ h := packageDeleteList_failed h
  unloaded _ _ _ _ h := (packageUnloadList_result h).2
  notUnloaded packages track track' u h := absurd (packageUnloadList_result h).1 (by simp)

end Results

section Witness

theorem exists_eq_of_fst {α β : Type*} {r : α × β} {a : α} (h : r.1 = a) : ∃ b, r = (a, b) :=
  ⟨r.2, Prod.ext h rfl⟩

def movablePair : FileSystem Script where
  files := (scriptFiles pairScripts).files
  dirs := ["/p".toList, "/p/stash".toList]
  mayMakedirs _ := true
  mayRename _ _ := true
  mayRemove _ := true

def movableThread : Thread Script := boot scriptPlatform movablePair none

theorem loadsCalmly_movable :
    LoadsCalmly scriptPlatform movableThread.state [("p".toList, "2".toList)] := by
  have hstrings := strings_scriptFiles strings_pairScripts none
  have hmovable : movableThread.state.Strings scriptPlatform :=
    ⟨hstrings.readable, hstrings.files, hstrings.modules⟩
  intro entry hentry _
  obtain rfl := List.mem_singleton.mp hentry
  exact calm_of_strings hmovable (by decide)

theorem deletesCleanly_movable :
    DeletesCleanly scriptPlatform movableThread.state ["p".toList] := by
  have hnot : ¬ movableThread.state.Loaded "p".toList := by decide +kernel
  refine ⟨by decide, fun ⟨p, hp, hl⟩ ↦ ?_, fun p hp hl ↦ ?_, fun p hp ext ↦ ?_,
    fun p hp _ ext _ ↦ ?_, fun p hp q hq _ ext ↦ ?_⟩
  · exact absurd (List.mem_singleton.mp hp ▸ hl) hnot
  · exact absurd (List.mem_singleton.mp hp ▸ hl) hnot
  · obtain rfl := List.mem_singleton.mp hp
    cases ext <;> decide +kernel
  · obtain rfl := List.mem_singleton.mp hp
    cases ext <;> decide +kernel
  · obtain rfl := List.mem_singleton.mp hp
    obtain rfl := List.mem_singleton.mp hq
    cases ext <;> decide +kernel

theorem batches_truthful_movable :
    (∃ u, packageLoadList scriptPlatform [("p".toList, "2".toList)] true movableThread.state =
      (.ok true, u) ∧ ∀ entry ∈ [("p".toList, "2".toList)], u.Loaded entry.1) ∧
    ∃ u, packageDeleteList scriptPlatform ["p".toList] movableThread.state = (.ok true, u) ∧
      ∀ p ∈ ["p".toList], Deleted scriptPlatform u.fs p := by
  have hfiles : movablePair.All (tame scriptPlatform).file := tame_pairScripts
  have htruthful := batches_truthful (reachable_boot scriptPlatform hfiles none)
  have hload : (packageLoadList scriptPlatform [("p".toList, "2".toList)] true
      movableThread.state).1 = .ok true := by decide +kernel
  have hdelete : (packageDeleteList scriptPlatform ["p".toList] movableThread.state).1 =
      .ok true := by decide +kernel
  obtain ⟨u, hload⟩ := exists_eq_of_fst hload
  obtain ⟨v, hdelete⟩ := exists_eq_of_fst hdelete
  exact ⟨⟨u, hload, htruthful.loaded _ true u loadsCalmly_movable hload⟩,
    ⟨v, hdelete, htruthful.deleted _ v deletesCleanly_movable hdelete⟩⟩

end Witness

/-- A package whose `run` exits. -/
def exitScripts : List (Str × Script) :=
  [("x".toList, .standard "1".toList [] (.raise .baseException) none)]

/-- The exit of a package passes for its being loaded. -/
theorem exit_passes_for_loaded :
    ¬ ∀ t, Reachable scriptPlatform (fun _ ↦ True) (fun _ _ ↦ True) t →
      BatchesTruthful scriptPlatform t.state (fun _ ↦ True) fun _ ↦ True := by
  intro h
  let t := scriptThread exitScripts none []
  have htruthful := h t (reachable_scriptThread trivial none [])
  let result := packageLoadList scriptPlatform [("x".toList, "1".toList)] false t.state
  have htrue : result.1 = .ok true := by decide +kernel
  have hnot : ¬ result.2.Loaded "x".toList := by decide +kernel
  exact hnot (htruthful.loaded _ false result.2 trivial (by rw [← htrue]) _
    (List.mem_singleton_self _))

end Liota.PackageManager
