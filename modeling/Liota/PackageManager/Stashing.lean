import Liota.PackageManager.BatchResults

namespace Liota.PackageManager

open Python Python.Computation Python.Text

variable {F : Type} {π : Platform F}

def walksFrom (dirs : List Str) : Str → Str → Bool
  | _, [] => true
  | seen, c :: rest =>
    (c != '/' || seen.isEmpty || decide (abspath seen ∈ dirs)) && walksFrom dirs (seen ++ [c]) rest

def walks (dirs : List Str) (path : Str) : Bool := walksFrom dirs [] path

section

variable (π)

/-- The path of a file in the stash, as it is passed to `os.rename`. -/
def stashName (p : Str) (ext : Ext) : Str := joinPath π ("stash/".toList ++ namedFile p ext)

/-- Directories can be created, and moving a file fails only where a directory on the way to it or
to its new place is missing. -/
structure OneVolume (fs : FileSystem F) : Prop where
  makedirs : ∀ path, fs.mayMakedirs path = true
  rename : ∀ src dst, fs.mayRename src dst =
    (walks (withStash π fs).dirs src && walks (withStash π fs).dirs dst)
  remove : ∀ path, fs.mayRemove path = true → walks (withStash π fs).dirs path = true

/-- The files of the package were moved to the stash, and nothing else happened to any file. -/
structure KeptInStash (p : Str) (fs fs' : FileSystem F) : Prop where
  stashed : ∀ ext f, fs.file (candidate π p ext) = some f →
    fs'.file (stashName π p ext) = some f ∧
      StrictlyBelow (joinPath π "stash".toList) (stashName π p ext)
  gone : ∀ ext, fs.isfile (candidate π p ext) = true → fs'.file (candidate π p ext) = none
  others : ∀ path f, (∀ ext, path ≠ abspath (candidate π p ext)) →
    fs.files.lookup path = some f → fs'.files.lookup path = some f

/-- The place of the file in the stash is in a directory that exists, and is not one itself. -/
def HasDirectory (fs : FileSystem F) (p : Str) (ext : Ext) : Prop :=
  (withStash π fs).isdir (dirname (abspath (stashName π p ext))) = true ∧
    (withStash π fs).isdir (stashName π p ext) = false ∧
    walks (withStash π fs).dirs (stashName π p ext) = true

/-- The candidate file `f` is the one that is moved, and its place is in the stash, in a directory
that exists, and not taken by another file. -/
structure SafePlace (fs : FileSystem F) (p : Str) (ext : Ext) (f : File F) : Prop where
  source : sourcePath π (namedFile p ext) = abspath (candidate π p ext)
  below : StrictlyBelow (joinPath π "stash".toList) (stashName π p ext)
  elsewhere : stashPath π (namedFile p ext) ≠ sourcePath π (namedFile p ext)
  place : fs.file (stashName π p ext) = some f ∨
    fs.file (stashName π p ext) = none ∧ HasDirectory π fs p ext

end

section Agree

variable {fs fs' fs'' : FileSystem F} {ext ext' : Ext} {p : Str}

structure AgreeOn (ext : Ext) (fs fs' : FileSystem F) : Prop where
  rights : SameRights fs fs'
  files : ∀ x, '.' :: ext.text <:+ x → fs'.files.lookup x = fs.files.lookup x

theorem AgreeOn.refl (ext : Ext) (fs : FileSystem F) : AgreeOn ext fs fs :=
  ⟨⟨rfl, rfl, rfl⟩, fun _ _ ↦ rfl⟩

theorem AgreeOn.trans (h : AgreeOn ext fs fs') (h' : AgreeOn ext fs' fs'') :
    AgreeOn ext fs fs'' :=
  ⟨h.rights.trans h'.rights, fun x hx ↦ (h'.files x hx).trans (h.files x hx)⟩

theorem sameRights_stashFile {n : Str} {s : State F} (hdir : NoDirectory π s.fs n) :
    SameRights s.fs (stashFile π n s).2.fs := by
  obtain ⟨-, fs', heq, hstashes⟩ | ⟨-, heq⟩ := stashFile_spec hdir
  · rw [heq]
    exact hstashes.rights
  · rw [heq]
    exact ⟨rfl, rfl, rfl⟩

theorem stashFile_returns (n : Str) (s : State F) :
    ∃ b, stashFile π n s = (.ok b, (stashFile π n s).2) := by
  unfold stashFile
  dsimp only
  split
  · exact ⟨true, rfl⟩
  · split
    · exact ⟨true, rfl⟩
    · exact ⟨false, rfl⟩

theorem fs_stashFile (p : Str) (ext : Ext) (s : State F) :
    (stashFile π (namedFile p ext) s).2.fs =
      (s.fs.rename (joinPath π (namedFile p ext)) (stashName π p ext)).getD
        ((s.fs.remove (joinPath π (namedFile p ext))).getD s.fs) := by
  unfold stashFile stashName
  dsimp only
  cases s.fs.rename (joinPath π (namedFile p ext))
    (joinPath π ("stash/".toList ++ namedFile p ext)) with
  | some fs => rfl
  | none =>
    cases s.fs.remove (joinPath π (namedFile p ext)) with
    | some fs => rfl
    | none => rfl

theorem rename_stash (hdir : NoDirectory π fs (namedFile p ext)) :
    fs.rename (joinPath π (namedFile p ext)) (stashName π p ext) =
      match fs.file (joinPath π (namedFile p ext)) with
      | some f =>
        if fs.isdir (dirname (abspath (stashName π p ext))) ∧
            fs.mayRename (joinPath π (namedFile p ext)) (stashName π p ext) ∧
            fs.isdir (stashName π p ext) = false then
          some { fs with
            files := (fs.files.erase (abspath (joinPath π (namedFile p ext)))).insert
              (abspath (stashName π p ext)) f }
        else none
      | none => none := FileSystem.rename_file hdir

theorem lookup_stashFile_of_ne {s : State F} (hdir : NoDirectory π s.fs (namedFile p ext)) {x : Str}
    (hsrc : x ≠ sourcePath π (namedFile p ext)) (hdst : x ≠ stashPath π (namedFile p ext)) :
    (stashFile π (namedFile p ext) s).2.fs.files.lookup x = s.fs.files.lookup x := by
  rw [fs_stashFile]
  cases hrename : s.fs.rename (joinPath π (namedFile p ext)) (stashName π p ext) with
  | some fs' =>
    rw [rename_stash hdir] at hrename
    split at hrename
    · split at hrename
      · obtain rfl := Option.some.inj hrename
        rw [Option.getD_some, Dict.lookup_insert_eq, Dict.lookup_erase_eq]
        exact (if_neg hdst).trans (if_neg hsrc)
      · cases hrename
    · cases hrename
  | none =>
    rw [Option.getD_none]
    cases hremove : s.fs.remove (joinPath π (namedFile p ext)) with
    | some fs' =>
      unfold FileSystem.remove at hremove
      split at hremove
      · obtain rfl := Option.some.inj hremove
        rw [Option.getD_some, Dict.lookup_erase_eq]
        exact if_neg hsrc
      · cases hremove
    | none => rfl

theorem agreeOn_stashFile (hne : ext' ≠ ext) {s : State F}
    (hdir : NoDirectory π s.fs (namedFile p ext')) :
    AgreeOn ext s.fs (stashFile π (namedFile p ext') s).2.fs := by
  refine ⟨sameRights_stashFile hdir, fun x hx ↦ lookup_stashFile_of_ne hdir ?_ ?_⟩
  · rintro rfl
    exact hne (ext_eq_of_suffix (suffix_sourcePath p ext') hx)
  · rintro rfl
    exact hne (ext_eq_of_suffix (suffix_stashPath p ext') hx)

theorem agreeOn_rename (h : AgreeOn ext fs fs') (hdir : NoDirectory π fs (namedFile p ext)) :
    (fs.rename (joinPath π (namedFile p ext)) (stashName π p ext) = none ∧
      fs'.rename (joinPath π (namedFile p ext)) (stashName π p ext) = none) ∨
    ∃ g g', fs.rename (joinPath π (namedFile p ext)) (stashName π p ext) = some g ∧
      fs'.rename (joinPath π (namedFile p ext)) (stashName π p ext) = some g' ∧
      AgreeOn ext g g' := by
  have hsrc : fs'.file (joinPath π (namedFile p ext)) = fs.file (joinPath π (namedFile p ext)) :=
    h.files _ (suffix_sourcePath p ext)
  have hrights := h.rights
  have hdir' := hdir.congr hrights
  rw [rename_stash hdir, rename_stash hdir', hsrc, hrights.isdir, hrights.mayRename,
    hrights.isdir (stashName π p ext)]
  cases hf : fs.file (joinPath π (namedFile p ext)) with
  | none => exact .inl ⟨rfl, rfl⟩
  | some f =>
    dsimp only
    split
    · refine .inr ⟨_, _, rfl, rfl, ⟨hrights.dirs, rfl, hrights.mayRemove⟩, ?_⟩
      intro x hx
      rw [Dict.lookup_insert_eq, Dict.lookup_insert_eq, Dict.lookup_erase_eq,
        Dict.lookup_erase_eq, h.files x hx]
    · exact .inl ⟨rfl, rfl⟩

theorem agreeOn_remove (h : AgreeOn ext fs fs') :
    (fs.remove (joinPath π (namedFile p ext)) = none ∧
      fs'.remove (joinPath π (namedFile p ext)) = none) ∨
    ∃ g g', fs.remove (joinPath π (namedFile p ext)) = some g ∧
      fs'.remove (joinPath π (namedFile p ext)) = some g' ∧ AgreeOn ext g g' := by
  have hsrc : fs'.file (joinPath π (namedFile p ext)) = fs.file (joinPath π (namedFile p ext)) :=
    h.files _ (suffix_sourcePath p ext)
  have hrights := h.rights
  unfold FileSystem.remove
  rw [FileSystem.isfile, FileSystem.isfile, hsrc, hrights.mayRemove]
  split
  · refine .inr ⟨_, _, rfl, rfl, ⟨hrights.dirs, hrights.mayRename, rfl⟩, ?_⟩
    intro x hx
    rw [Dict.lookup_erase_eq, Dict.lookup_erase_eq, h.files x hx]
  · exact .inl ⟨rfl, rfl⟩

theorem AgreeOn.stashFile {s s' : State F} (h : AgreeOn ext s.fs s'.fs)
    (hdir : NoDirectory π s.fs (namedFile p ext)) :
    AgreeOn ext (stashFile π (namedFile p ext) s).2.fs (stashFile π (namedFile p ext) s').2.fs := by
  rw [fs_stashFile, fs_stashFile]
  obtain ⟨hr, hr'⟩ | ⟨g, g', hr, hr', hg⟩ := agreeOn_rename h hdir
  · rw [hr, hr']
    obtain ⟨hm, hm'⟩ | ⟨g, g', hm, hm', hg⟩ := agreeOn_remove (π := π) (p := p) h
    · rw [hm, hm']
      exact h
    · rw [hm, hm']
      exact hg
  · rw [hr, hr']
    exact hg

/-- Of the files that are stashed one after the other, those with one extension are affected by the
file with this extension alone. -/
theorem agreeOn_stashFiles {exts : List Ext} (hnodup : exts.Nodup) {s : State F}
    (hdirs : ∀ ext ∈ exts, NoDirectory π s.fs (namedFile p ext)) :
    (ext ∈ exts → AgreeOn ext (stashFile π (namedFile p ext) s).2.fs
      (stashFiles π (exts.map (namedFile p)) s).2.fs) ∧
    (ext ∉ exts → AgreeOn ext s.fs (stashFiles π (exts.map (namedFile p)) s).2.fs) := by
  induction exts generalizing s with
  | nil => exact ⟨fun h ↦ absurd h List.not_mem_nil, fun _ ↦ .refl ext s.fs⟩
  | cons ext' rest ih =>
    obtain ⟨hnotin, hrest⟩ := List.nodup_cons.mp hnodup
    obtain ⟨hdir, hdirs⟩ := List.forall_mem_cons.mp hdirs
    obtain ⟨b, hb⟩ := stashFile_returns (π := π) (namedFile p ext') s
    obtain ⟨hmem, hnot⟩ := ih hrest (s := (stashFile π (namedFile p ext') s).2)
      fun ext hext ↦ (hdirs ext hext).congr (sameRights_stashFile hdir)
    rw [List.map_cons, stashFiles, bind_ok hb, bind_pure_snd]
    constructor
    · intro h
      obtain rfl | h := List.mem_cons.mp h
      · exact hnot hnotin
      · have hne : ext' ≠ ext := fun heq ↦ hnotin (heq ▸ h)
        exact ((agreeOn_stashFile hne hdir).stashFile (hdirs ext h)).trans (hmem h)
    · intro h
      obtain ⟨hne, hnotrest⟩ := not_or.mp fun hor ↦ h (List.mem_cons.mpr hor)
      exact (agreeOn_stashFile (Ne.symm hne) hdir).trans (hnot hnotrest)

theorem lookup_stashFiles_of_ne {exts : List Ext} {s : State F}
    (hdirs : ∀ ext ∈ exts, NoDirectory π s.fs (namedFile p ext)) {x : Str}
    (h : ∀ ext ∈ exts, x ≠ sourcePath π (namedFile p ext) ∧ x ≠ stashPath π (namedFile p ext)) :
    (stashFiles π (exts.map (namedFile p)) s).2.fs.files.lookup x = s.fs.files.lookup x := by
  induction exts generalizing s with
  | nil => rfl
  | cons ext rest ih =>
    obtain ⟨⟨hsrc, hdst⟩, hrest⟩ := List.forall_mem_cons.mp h
    obtain ⟨hdir, hdirs⟩ := List.forall_mem_cons.mp hdirs
    obtain ⟨b, hb⟩ := stashFile_returns (π := π) (namedFile p ext) s
    rw [List.map_cons, stashFiles, bind_ok hb, bind_pure_snd,
      ih (fun ext' hext ↦ (hdirs ext' hext).congr (sameRights_stashFile hdir)) hrest]
    exact lookup_stashFile_of_ne hdir hsrc hdst

end Agree

section Delete

variable {s t : State F} {ext : Ext} {p : Str}

theorem lookup_moved (hdir : NoDirectory π s.fs (namedFile p ext))
    (h : Moves π s.fs (namedFile p ext)) (x : Str) :
    (stashFile π (namedFile p ext) s).2.fs.files.lookup x =
      if x = stashPath π (namedFile p ext) then
        s.fs.files.lookup (sourcePath π (namedFile p ext))
      else if x = sourcePath π (namedFile p ext) then none
      else s.fs.files.lookup x := by
  obtain ⟨fs', hfs'⟩ := Option.isSome_iff_exists.mp h
  change s.fs.rename (joinPath π (namedFile p ext)) (stashName π p ext) = some fs' at hfs'
  rw [fs_stashFile, hfs', Option.getD_some]
  rw [rename_stash hdir] at hfs'
  split at hfs'
  · next f hf =>
    split at hfs'
    · obtain rfl := Option.some.inj hfs'
      have hsrc : s.fs.files.lookup (sourcePath π (namedFile p ext)) = some f := hf
      rw [Dict.lookup_insert_eq, Dict.lookup_erase_eq, hsrc]
      rfl
    · cases hfs'
  · cases hfs'

theorem lookup_removed (hno : ¬ Moves π s.fs (namedFile p ext))
    (h : Stashable π s.fs (namedFile p ext)) (x : Str) :
    (stashFile π (namedFile p ext) s).2.fs.files.lookup x =
      if x = sourcePath π (namedFile p ext) then none else s.fs.files.lookup x := by
  have hnone : s.fs.rename (joinPath π (namedFile p ext)) (stashName π p ext) = none := by
    rw [Moves, Option.not_isSome_iff_eq_none] at hno
    exact hno
  obtain ⟨fs', hfs'⟩ := Option.isSome_iff_exists.mp (h.resolve_left hno)
  rw [fs_stashFile, hnone, hfs', Option.getD_none, Option.getD_some]
  unfold FileSystem.remove at hfs'
  split at hfs'
  · obtain rfl := Option.some.inj hfs'
    rw [Dict.lookup_erase_eq]
    rfl
  · cases hfs'

theorem lookup_source (hdir : NoDirectory π s.fs (namedFile p ext))
    (h : Stashable π s.fs (namedFile p ext))
    (hne : stashPath π (namedFile p ext) ≠ sourcePath π (namedFile p ext)) :
    (stashFile π (namedFile p ext) s).2.fs.files.lookup (sourcePath π (namedFile p ext)) =
      none := by
  by_cases hmoves : Moves π s.fs (namedFile p ext)
  · rw [lookup_moved hdir hmoves, if_neg (Ne.symm hne), if_pos rfl]
  · rw [lookup_removed hmoves h, if_pos rfl]

theorem files_withStash (fs : FileSystem F) : (withStash π fs).files = fs.files := by
  unfold withStash
  split
  · rfl
  · unfold FileSystem.makedirs
    split <;> rfl

theorem mayRename_withStash (fs : FileSystem F) :
    (withStash π fs).mayRename = fs.mayRename ∧ (withStash π fs).mayRemove = fs.mayRemove := by
  unfold withStash
  split
  · exact ⟨rfl, rfl⟩
  · unfold FileSystem.makedirs
    split <;> exact ⟨rfl, rfl⟩

theorem not_nul_of_deleted (h : (packageDeleteFiles π p s).1 = .ok true) : nul ∉ p := by
  intro hnul
  unfold packageDeleteFiles at h
  rw [get_bind_apply] at h
  by_cases hpath : nul ∈ pathFile π p
  · rw [if_pos hpath] at h
    cases h
  by_cases hfound : (extensions.filter fun ext ↦ s.fs.pathExists (candidate π p ext)) = []
  · rw [if_neg hpath, if_pos hfound] at h
    cases h
  · rw [if_neg hpath, if_neg hfound, bind_ok (makeStash_eq s), if_pos hnul] at h
    cases h

theorem unloadReturns_of_deleted (h : (packageDelete π p s).1 = .ok true) :
    UnloadReturns π s p := by
  intro hl
  unfold packageDelete at h
  rw [get_bind_apply, if_pos hl] at h
  cases hu : packageUnload π p [] s with
  | mk o u =>
    cases o with
    | ok r => exact ⟨r, rfl⟩
    | raised e =>
      rw [bind_raised hu] at h
      cases h
    | diverged =>
      rw [bind_diverged hu] at h
      cases h

theorem packageDelete_true (hfiles : FilesOnly π s.fs p)
    (h : (packageDelete π p s).1 = .ok true) :
    ∃ s₁ : State F, s₁.fs = withStash π s.fs ∧
      (∀ n ∈ foundNames π s.fs p, Stashable π s₁.fs n) ∧
      (packageDelete π p s).2.fs = (stashFiles π (foundNames π s.fs p) s₁).2.fs := by
  have heq := packageDelete_eq (unloadReturns_of_deleted h)
  have hv : (unloadedFirst π s p).fs = s.fs := (unloadedFirst_shrinks s p).fs
  generalize unloadedFirst π s p = v at heq hv
  rw [heq] at h ⊢
  rw [← hv] at hfiles ⊢
  have hnul := not_nul_of_deleted h
  have hdel : Deletable π v.fs p := by
    by_contra hno
    rw [(packageDeleteFiles_spec hnul hfiles).2 hno] at h
    cases h
  refine ⟨{ v with fs := withStash π v.fs }, rfl, hdel.2, ?_⟩
  rw [packageDeleteFiles_eq hnul hdel.1, bind_apply]
  cases hr : stashFiles π (foundNames π v.fs p) { v with fs := withStash π v.fs } with
  | mk o u =>
    cases o with
    | ok b =>
      cases b with
      | false => rfl
      | true =>
        dsimp only
        rw [if_pos rfl, bind_apply]
        obtain ⟨list, hlist⟩ := removePackageFromAutoload_frame p u
        cases hauto : removePackageFromAutoload p u with
        | mk o' w =>
          rw [hauto] at hlist
          obtain rfl : w = _ := hlist
          cases o' <;> rfl
    | raised e => rfl
    | diverged => rfl

theorem found_iff (hfiles : FilesOnly π s.fs p) : namedFile p ext ∈ foundNames π s.fs p ↔
    s.fs.isfile (candidate π p ext) = true := by
  rw [mem_foundNames]
  constructor
  · rintro ⟨ext', hext', heq⟩
    have hexts := List.append_cancel_left heq
    have hself : '.' :: ext.text <:+ '.' :: ext.text := List.suffix_refl _
    have hsame : ext = ext' := ext_eq_of_suffix hself (hexts ▸ List.suffix_refl _)
    rw [hsame, ← hfiles.pathExists]
    exact hext'
  · intro h
    exact ⟨ext, (hfiles.pathExists ext).trans h, rfl⟩

theorem packageDelete_effect (hfiles : FilesOnly π s.fs p)
    (h : (packageDelete π p s).1 = .ok true) :
    ∃ s₁ : State F, s₁.fs = withStash π s.fs ∧
      (∀ ext, s.fs.isfile (candidate π p ext) = true → Stashable π s₁.fs (namedFile p ext) ∧
        ∀ x, '.' :: ext.text <:+ x → (packageDelete π p s).2.fs.files.lookup x =
          (stashFile π (namedFile p ext) s₁).2.fs.files.lookup x) ∧
      ∀ x, (∀ ext, '.' :: ext.text <:+ x → s.fs.isfile (candidate π p ext) = false) →
        (packageDelete π p s).2.fs.files.lookup x = s.fs.files.lookup x := by
  obtain ⟨s₁, hs₁, hall, heq⟩ := packageDelete_true hfiles h
  have hnodup : (foundExts π s.fs p).Nodup := List.Nodup.filter _ (by decide)
  have hdirs : ∀ ext ∈ foundExts π s.fs p, NoDirectory π s₁.fs (namedFile p ext) := by
    intro ext hext
    rw [hs₁]
    exact hfiles.noDirectory ((hfiles.pathExists ext).symm.trans (mem_foundExts.mp hext))
  refine ⟨s₁, hs₁, fun ext hext ↦ ⟨hall _ ((found_iff hfiles).mpr hext), fun x hx ↦ ?_⟩, ?_⟩
  · rw [heq]
    have hmem : ext ∈ foundExts π s.fs p :=
      mem_foundExts.mpr ((hfiles.pathExists ext).trans hext)
    exact ((agreeOn_stashFiles hnodup hdirs).1 hmem).files x hx
  · intro x hx
    rw [heq, foundNames, lookup_stashFiles_of_ne hdirs, hs₁, files_withStash]
    intro ext hext
    have hfile := (hfiles.pathExists ext).symm.trans (mem_foundExts.mp hext)
    constructor
    · rintro rfl
      rw [hx ext (suffix_sourcePath p ext)] at hfile
      cases hfile
    · rintro rfl
      rw [hx ext (suffix_stashPath p ext)] at hfile
      cases hfile

theorem SafePlace.lookup (hfs : OneVolume π s.fs) (hfiles : FilesOnly π s.fs p) {s₁ : State F}
    (hs₁ : s₁.fs = withStash π s.fs)
    {f : File F} (hf : s.fs.file (candidate π p ext) = some f)
    (hstash : Stashable π s₁.fs (namedFile p ext)) (h : SafePlace π s.fs p ext f) :
    (stashFile π (namedFile p ext) s₁).2.fs.files.lookup (stashPath π (namedFile p ext)) =
      some f := by
  have hsrc : s₁.fs.files.lookup (sourcePath π (namedFile p ext)) = some f := by
    rw [hs₁, files_withStash, h.source]
    exact hf
  have hdir : NoDirectory π s₁.fs (namedFile p ext) := by
    rw [hs₁]
    exact hfiles.noDirectory (Option.isSome_iff_exists.mpr ⟨f, hf⟩)
  by_cases hmoves : Moves π s₁.fs (namedFile p ext)
  · rw [lookup_moved hdir hmoves, if_pos rfl, hsrc]
  · rw [lookup_removed hmoves hstash, if_neg h.elsewhere, hs₁, files_withStash]
    obtain hsame | ⟨-, hparent, hplace, hwalks⟩ := h.place
    · exact hsame
    · -- the file can be reached, since it could be removed, so the move does not fail
      exfalso
      apply hmoves
      have hremove := (remove_isSome_iff.mp (hstash.resolve_left hmoves)).2
      rw [hs₁, (mayRename_withStash s.fs).2] at hremove
      apply (rename_isSome_iff hdir).mpr
      refine ⟨(isfile_iff _ _).mpr ⟨f, hsrc⟩, by rw [hs₁]; exact hparent, ?_,
        by rw [hs₁]; exact hplace⟩
      rw [hs₁, (mayRename_withStash s.fs).1, hfs.rename, hfs.remove _ hremove]
      exact hwalks

theorem keptInStash_of_safePlace (hfs : OneVolume π s.fs) (hfiles : FilesOnly π s.fs p)
    (htrue : (packageDelete π p s).1 = .ok true)
    (hsafe : ∀ ext f, s.fs.file (candidate π p ext) = some f → SafePlace π s.fs p ext f) :
    KeptInStash π p s.fs (packageDelete π p s).2.fs := by
  obtain ⟨s₁, hs₁, hfound, hrest⟩ := packageDelete_effect hfiles htrue
  have hdir {ext : Ext} (hext : s.fs.isfile (candidate π p ext) = true) :
      NoDirectory π s₁.fs (namedFile p ext) := by
    rw [hs₁]
    exact hfiles.noDirectory hext
  constructor
  · intro ext f hf
    have hplace := hsafe ext f hf
    obtain ⟨hstash, hlookup⟩ := hfound ext (Option.isSome_iff_exists.mpr ⟨f, hf⟩)
    refine ⟨?_, hplace.below⟩
    exact (hlookup _ (suffix_stashPath p ext)).trans (hplace.lookup hfs hfiles hs₁ hf hstash)
  · intro ext hext
    obtain ⟨f, hf⟩ := Option.isSome_iff_exists.mp hext
    have hplace := hsafe ext f hf
    obtain ⟨hstash, hlookup⟩ := hfound ext hext
    have hnone := (hlookup _ (suffix_sourcePath p ext)).trans
      (lookup_source (hdir hext) hstash hplace.elsewhere)
    rw [hplace.source] at hnone
    exact hnone
  · intro path g hpath hg
    by_cases hsuffix : ∃ ext, '.' :: ext.text <:+ path ∧
        s.fs.isfile (candidate π p ext) = true
    · obtain ⟨ext, hsuffix, hext⟩ := hsuffix
      obtain ⟨f, hf⟩ := Option.isSome_iff_exists.mp hext
      have hplace := hsafe ext f hf
      obtain ⟨hstash, hlookup⟩ := hfound ext hext
      have hsource : path ≠ sourcePath π (namedFile p ext) := by
        rw [hplace.source]
        exact hpath ext
      rw [hlookup path hsuffix]
      by_cases hdst : path = stashPath π (namedFile p ext)
      · rw [hdst, hplace.lookup hfs hfiles hs₁ hf hstash]
        rw [hdst] at hg
        obtain hsame | ⟨hnone, -⟩ := hplace.place
        · exact hsame.symm.trans hg
        · cases hnone.symm.trans hg
      · rw [lookup_stashFile_of_ne (hdir hext) hsource hdst, hs₁, files_withStash, hg]
    · rw [hrest path, hg]
      intro ext hext
      by_contra hfile
      exact hsuffix ⟨ext, hext, by simpa using hfile⟩

theorem KeptInStash.safePlace (hfs : OneVolume π s.fs) (hfiles : FilesOnly π s.fs p)
    (htrue : (packageDelete π p s).1 = .ok true)
    (h : KeptInStash π p s.fs (packageDelete π p s).2.fs) {f : File F}
    (hf : s.fs.file (candidate π p ext) = some f) : SafePlace π s.fs p ext f := by
  obtain ⟨s₁, hs₁, hfound, -⟩ := packageDelete_effect hfiles htrue
  have hext : s.fs.isfile (candidate π p ext) = true := Option.isSome_iff_exists.mpr ⟨f, hf⟩
  have hdir : NoDirectory π s₁.fs (namedFile p ext) := by
    rw [hs₁]
    exact hfiles.noDirectory hext
  obtain ⟨hstash, hlookup⟩ := hfound ext hext
  have hbefore (x : Str) : s₁.fs.files.lookup x = s.fs.files.lookup x := by
    rw [hs₁, files_withStash]
  have hgone : (packageDelete π p s).2.fs.files.lookup (abspath (candidate π p ext)) = none :=
    h.gone ext hext
  have hnot {x : Str} (hx : '.' :: ext.text <:+ x) (hne : x ≠ abspath (candidate π p ext))
      (ext' : Ext) : x ≠ abspath (candidate π p ext') := by
    rintro rfl
    have hsame := ext_eq_of_suffix (suffix_candidate p ext') hx
    rw [hsame] at hne
    exact hne rfl
  have hstashed :
      (packageDelete π p s).2.fs.files.lookup (stashPath π (namedFile p ext)) = some f :=
    (h.stashed ext f hf).1
  have hsource : sourcePath π (namedFile p ext) = abspath (candidate π p ext) := by
    by_contra hne
    have hsuffix := suffix_sourcePath (π := π) p ext
    have hfile : s₁.fs.isfile (joinPath π (namedFile p ext)) = true := by
      obtain hmoves | hremove := hstash
      · exact ((rename_isSome_iff hdir).mp hmoves).1
      · exact (remove_isSome_iff.mp hremove).1
    obtain ⟨g, hg⟩ := (isfile_iff _ _).mp hfile
    change s₁.fs.files.lookup (sourcePath π (namedFile p ext)) = some g at hg
    rw [hbefore] at hg
    have hstays := h.others _ g (hnot hsuffix hne) hg
    rw [hlookup _ hsuffix] at hstays
    by_cases hdst : stashPath π (namedFile p ext) = sourcePath π (namedFile p ext)
    · have hcand : abspath (candidate π p ext) ≠ sourcePath π (namedFile p ext) := Ne.symm hne
      rw [hlookup _ (suffix_candidate p ext),
        lookup_stashFile_of_ne hdir hcand (by rw [hdst]; exact hcand), hbefore] at hgone
      cases hf.symm.trans hgone
    · rw [lookup_source hdir hstash hdst] at hstays
      cases hstays
  have helsewhere : stashPath π (namedFile p ext) ≠ sourcePath π (namedFile p ext) := by
    intro heq
    rw [heq, hsource, hgone] at hstashed
    cases hstashed
  refine ⟨hsource, (h.stashed ext f hf).2, helsewhere, ?_⟩
  have hsuffix := suffix_stashPath (π := π) p ext
  cases hdst : s.fs.file (stashName π p ext) with
  | some g =>
    have hstays := h.others _ g (hnot hsuffix (by rw [← hsource]; exact helsewhere)) hdst
    exact .inl (hstays.symm.trans hstashed)
  | none =>
    refine .inr ⟨rfl, ?_⟩
    rw [hlookup _ hsuffix] at hstashed
    by_cases hmoves : Moves π s₁.fs (namedFile p ext)
    · obtain ⟨-, hparent, hmay, hplace⟩ := (rename_isSome_iff hdir).mp hmoves
      rw [hs₁] at hparent hmay hplace
      rw [(mayRename_withStash s.fs).1, hfs.rename, Bool.and_eq_true] at hmay
      exact ⟨hparent, hplace, hmay.2⟩
    · rw [lookup_removed hmoves hstash, if_neg helsewhere, hbefore] at hstashed
      cases hdst.symm.trans hstashed

/-- Where no directory is taken for a file, a deletion that returns `True` keeps the files of the
package in the stash, and touches no other, if and only if each of them has a safe place. -/
theorem keptInStash_iff (hfs : OneVolume π s.fs) (hfiles : FilesOnly π s.fs p)
    (htrue : (packageDelete π p s).1 = .ok true) :
    KeptInStash π p s.fs (packageDelete π p s).2.fs ↔
      ∀ ext f, s.fs.file (candidate π p ext) = some f → SafePlace π s.fs p ext f :=
  ⟨fun h _ _ hf ↦ h.safePlace hfs hfiles htrue hf, keptInStash_of_safePlace hfs hfiles htrue⟩

end Delete

section Example

def volume (name : Str) (dirs : List Str) : FileSystem Script where
  files := AList.insert (abspath (candidate scriptPlatform name .py))
    ⟨.standard "1".toList [] .ret none, true⟩ ∅
  dirs := dirs
  mayMakedirs _ := true
  mayRename src dst :=
    walks ("/p/stash".toList :: dirs) src && walks ("/p/stash".toList :: dirs) dst
  mayRemove path := walks ("/p/stash".toList :: dirs) path

theorem oneVolume_volume {name : Str} {dirs : List Str} (h : "/p/stash".toList ∉ dirs) :
    OneVolume scriptPlatform (volume name dirs) := by
  have hdirs : (withStash scriptPlatform (volume name dirs)).dirs = "/p/stash".toList :: dirs := by
    have hpath : abspath (joinPath scriptPlatform "stash".toList) = "/p/stash".toList := by
      decide
    have hno : ¬ (volume name dirs).isdir (joinPath scriptPlatform "stash".toList) = true :=
      fun hin ↦ h (hpath ▸ of_decide_eq_true hin)
    rw [withStash, if_neg hno]
    exact congrArg (· :: dirs) hpath
  constructor
  · intro path
    rfl
  · intro src dst
    rw [hdirs]
    rfl
  · intro path hpath
    rw [hdirs]
    exact hpath

theorem keptInStash_plain :
    KeptInStash scriptPlatform "a".toList (volume "a".toList ["/p".toList])
      (packageDelete scriptPlatform "a".toList
        (State.initial scriptPlatform (volume "a".toList ["/p".toList]) none)).2.fs := by
  have htrue : (packageDelete scriptPlatform "a".toList
      (State.initial scriptPlatform (volume "a".toList ["/p".toList]) none)).1 = .ok true := by
    decide
  have hfiles : FilesOnly scriptPlatform (volume "a".toList ["/p".toList]) "a".toList :=
    ⟨fun ext ↦ by cases ext <;> decide, fun ext _ ↦ by cases ext <;> decide⟩
  apply (keptInStash_iff (oneVolume_volume (by decide)) hfiles htrue).mpr
  intro ext f hf
  constructor
  · cases ext <;> decide
  · cases ext <;> decide
  · cases ext <;> decide
  · apply Or.inr
    constructor
    · cases ext <;> rfl
    · constructor
      · cases ext <;> decide
      · cases ext <;> decide

/-- The directory `dev_disc` of the package is not made in the stash: the file is removed. -/
theorem subdirectory_destroyed :
    UnderPackagePath scriptPlatform "dev_disc/dev_disc".toList ∧
    OneVolume scriptPlatform
      (volume "dev_disc/dev_disc".toList ["/p".toList, "/p/dev_disc".toList]) ∧
    (packageDelete scriptPlatform "dev_disc/dev_disc".toList (State.initial scriptPlatform
      (volume "dev_disc/dev_disc".toList ["/p".toList, "/p/dev_disc".toList]) none)).1 =
      .ok true ∧
    ¬ KeptInStash scriptPlatform "dev_disc/dev_disc".toList
      (volume "dev_disc/dev_disc".toList ["/p".toList, "/p/dev_disc".toList])
      (packageDelete scriptPlatform "dev_disc/dev_disc".toList (State.initial scriptPlatform
        (volume "dev_disc/dev_disc".toList ["/p".toList, "/p/dev_disc".toList]) none)).2.fs := by
  refine ⟨by decide, oneVolume_volume (by decide), by decide, fun h ↦ ?_⟩
  have hstashed := (h.stashed .py ⟨.standard "1".toList [] .ret none, true⟩ rfl).1
  have hno : FileSystem.isfile (packageDelete scriptPlatform "dev_disc/dev_disc".toList
      (State.initial scriptPlatform
        (volume "dev_disc/dev_disc".toList ["/p".toList, "/p/dev_disc".toList]) none)).2.fs
      (stashName scriptPlatform "dev_disc/dev_disc".toList .py) = false := by
    decide
  rw [FileSystem.isfile, hstashed] at hno
  cases hno

end Example

end Liota.PackageManager
