import Liota.PackageManager.Confinement
import Liota.PackageManager.UnloadTermination

namespace Liota.PackageManager

open Python Python.Computation Python.Text Relation

variable {F : Type} {π : Platform F}

section Files

variable {fs fs' : FileSystem F} {src dst path : Str}

theorem isfile_iff (fs : FileSystem F) (x : Str) :
    fs.isfile x = true ↔ ∃ f, fs.files.lookup (abspath x) = some f :=
  Option.isSome_iff_exists

theorem isfile_rename (hsrc : fs.isdir src = false) (h : fs.rename src dst = some fs') (x : Str) :
    fs'.isfile x = true ↔
      abspath x = abspath dst ∨ abspath x ≠ abspath src ∧ fs.isfile x = true := by
  rw [FileSystem.rename_file hsrc] at h
  split at h
  · split at h
    · obtain rfl := Option.some.inj h
      simp only [isfile_iff, Dict.lookup_insert_eq, Dict.lookup_erase_eq]
      by_cases hdst : abspath x = abspath dst
      · simp [hdst]
      · by_cases hsrc : abspath x = abspath src
        · simp [hsrc]
        · simp [hdst, hsrc]
    · cases h
  · cases h

theorem isfile_remove (h : fs.remove path = some fs') (x : Str) :
    fs'.isfile x = true ↔ abspath x ≠ abspath path ∧ fs.isfile x = true := by
  unfold FileSystem.remove at h
  split at h
  · obtain rfl := Option.some.inj h
    simp only [isfile_iff, Dict.lookup_erase_eq]
    by_cases hpath : abspath x = abspath path
    · simp [hpath]
    · simp [hpath]
  · cases h

theorem rename_isSome_iff (hsrc : fs.isdir src = false) :
    (fs.rename src dst).isSome = true ↔ fs.isfile src = true ∧
      fs.isdir (dirname (abspath dst)) = true ∧ fs.mayRename src dst = true ∧
        fs.isdir dst = false := by
  rw [FileSystem.rename_file hsrc, FileSystem.isfile]
  rcases fs.file src with _ | f
  · simp
  · simp

theorem remove_isSome_iff : (fs.remove path).isSome = true ↔
    fs.isfile path = true ∧ fs.mayRemove path = true := by
  unfold FileSystem.remove
  split
  · next h => simpa using h
  · next h => simpa using h

structure SameRights (fs fs' : FileSystem F) : Prop where
  dirs : fs'.dirs = fs.dirs
  mayRename : fs'.mayRename = fs.mayRename
  mayRemove : fs'.mayRemove = fs.mayRemove

theorem SameRights.trans {fs'' : FileSystem F} (h : SameRights fs fs') (h' : SameRights fs' fs'') :
    SameRights fs fs'' :=
  ⟨h'.dirs.trans h.dirs, h'.mayRename.trans h.mayRename, h'.mayRemove.trans h.mayRemove⟩

theorem SameRights.isdir (h : SameRights fs fs') (x : Str) : fs'.isdir x = fs.isdir x := by
  rw [FileSystem.isdir, FileSystem.isdir, h.dirs]

theorem sameRights_rename (hsrc : fs.isdir src = false) (h : fs.rename src dst = some fs') :
    SameRights fs fs' := by
  rw [FileSystem.rename_file hsrc] at h
  split at h
  · split at h
    · obtain rfl := Option.some.inj h
      exact ⟨rfl, rfl, rfl⟩
    · cases h
  · cases h

theorem sameRights_remove (h : fs.remove path = some fs') : SameRights fs fs' := by
  unfold FileSystem.remove at h
  split at h
  · obtain rfl := Option.some.inj h
    exact ⟨rfl, rfl, rfl⟩
  · cases h

end Files

section Stash

variable (π)

/-- Where `_package_delete` looks for a file that it names, and where it moves the file. -/
def sourcePath (name : Str) : Str := abspath (joinPath π name)

def stashPath (name : Str) : Str := abspath (joinPath π ("stash/".toList ++ name))

def Moves (fs : FileSystem F) (name : Str) : Prop :=
  (fs.rename (joinPath π name) (joinPath π ("stash/".toList ++ name))).isSome = true

def NoDirectory (fs : FileSystem F) (name : Str) : Prop := fs.isdir (joinPath π name) = false

instance (fs : FileSystem F) (name : Str) : Decidable (NoDirectory π fs name) :=
  inferInstanceAs (Decidable (_ = _))

def Stashable (fs : FileSystem F) (name : Str) : Prop :=
  Moves π fs name ∨ (fs.remove (joinPath π name)).isSome = true

/-- What stashing files, all of which can be moved or removed, leaves of a file system. -/
structure Stashes (names : List Str) (fs fs' : FileSystem F) : Prop where
  rights : SameRights fs fs'
  isfile : ∀ x, fs'.isfile x = true ↔ (∃ n ∈ names, Moves π fs n ∧ abspath x = stashPath π n) ∨
    (∀ n ∈ names, abspath x ≠ sourcePath π n) ∧ fs.isfile x = true

def Apart (n m : Str) : Prop := sourcePath π m ≠ sourcePath π n ∧ sourcePath π m ≠ stashPath π n

end Stash

section

variable {fs fs' fs'' : FileSystem F} {n m : Str} {names : List Str}

theorem NoDirectory.congr (h : NoDirectory π fs n) (hrights : SameRights fs fs') :
    NoDirectory π fs' n := (hrights.isdir _).trans h

theorem stashable_congr (hdir : NoDirectory π fs m) (hrights : SameRights fs fs')
    (hfile : fs'.isfile (joinPath π m) = fs.isfile (joinPath π m)) :
    (Moves π fs' m ↔ Moves π fs m) ∧ (Stashable π fs' m ↔ Stashable π fs m) := by
  have hdir' := hdir.congr hrights
  simp only [Stashable, Moves, rename_isSome_iff hdir, rename_isSome_iff hdir', remove_isSome_iff,
    hfile, FileSystem.isdir, hrights.dirs, hrights.mayRename, hrights.mayRemove, and_self]

theorem Stashes.isfile_apart (h : Stashes π [n] fs fs') (hm : Apart π n m) :
    fs'.isfile (joinPath π m) = fs.isfile (joinPath π m) := by
  apply Bool.eq_iff_iff.mpr
  rw [h.isfile]
  constructor
  · rintro (⟨n', hn', -, heq⟩ | ⟨-, hfile⟩)
    · obtain rfl := List.mem_singleton.mp hn'
      exact absurd heq hm.2
    · exact hfile
  · intro hfile
    refine .inr ⟨fun n' hn' ↦ ?_, hfile⟩
    obtain rfl := List.mem_singleton.mp hn'
    exact hm.1

theorem Stashes.cons (h : Stashes π [n] fs fs') (h' : Stashes π names fs' fs'')
    (hdirs : ∀ m ∈ names, NoDirectory π fs m) (hapart : ∀ m ∈ names, Apart π n m) :
    Stashes π (n :: names) fs fs'' := by
  have hmoves (m : Str) (hm : m ∈ names) : Moves π fs' m ↔ Moves π fs m :=
    (stashable_congr (hdirs m hm) h.rights (h.isfile_apart (hapart m hm))).1
  refine ⟨h.rights.trans h'.rights, fun x ↦ ?_⟩
  rw [h'.isfile, h.isfile]
  constructor
  · rintro (⟨m, hm, hmove, heq⟩ | ⟨hsources, ⟨n', hn', hmove, heq⟩ | ⟨hsource, hfile⟩⟩)
    · exact .inl ⟨m, by simp [hm], (hmoves m hm).mp hmove, heq⟩
    · exact .inl ⟨n', by simp [List.mem_singleton.mp hn'], hmove, heq⟩
    · refine .inr ⟨fun m hm ↦ ?_, hfile⟩
      rcases List.mem_cons.mp hm with rfl | hm
      · exact hsource m (by simp)
      · exact hsources m hm
  · rintro (⟨m, hm, hmove, heq⟩ | ⟨hsources, hfile⟩)
    · rcases List.mem_cons.mp hm with rfl | hm
      · refine .inr ⟨fun m' hm' ↦ ?_, .inl ⟨m, by simp, hmove, heq⟩⟩
        rw [heq]
        exact Ne.symm (hapart m' hm').2
      · exact .inl ⟨m, hm, (hmoves m hm).mpr hmove, heq⟩
    · refine .inr ⟨fun m hm ↦ hsources m (by simp [hm]), .inr ⟨fun m hm ↦ ?_, hfile⟩⟩
      exact hsources m (by simp [List.mem_singleton.mp hm])

theorem stashFile_spec {n : Str} {s : State F} (hdir : NoDirectory π s.fs n) :
    (Stashable π s.fs n ∧ ∃ fs', stashFile π n s = (.ok true, { s with fs := fs' }) ∧
      Stashes π [n] s.fs fs') ∨
    ¬ Stashable π s.fs n ∧ stashFile π n s = (.ok false, s) := by
  unfold stashFile
  dsimp only
  rcases hrename : s.fs.rename (joinPath π n) (joinPath π ("stash/".toList ++ n)) with _ | fs'
  · have hmoves : ¬ Moves π s.fs n := by
      rw [Moves, hrename]
      simp
    rcases hremove : s.fs.remove (joinPath π n) with _ | fs'
    · refine .inr ⟨?_, rfl⟩
      rintro (h | h)
      · exact hmoves h
      · simp [hremove] at h
    · refine .inl ⟨.inr (by simp [hremove]), fs', rfl, sameRights_remove hremove, fun x ↦ ?_⟩
      rw [isfile_remove hremove]
      simp [hmoves, sourcePath]
  · have hmoves : Moves π s.fs n := by
      rw [Moves, hrename]
      rfl
    refine .inl ⟨.inl hmoves, fs', rfl, sameRights_rename hdir hrename, fun x ↦ ?_⟩
    rw [isfile_rename hdir hrename]
    simp [hmoves, sourcePath, stashPath]

theorem stashFiles_spec {names : List Str} (hapart : names.Pairwise (Apart π)) {s : State F}
    (hdirs : ∀ n ∈ names, NoDirectory π s.fs n) :
    ((∀ n ∈ names, Stashable π s.fs n) → ∃ fs',
      stashFiles π names s = (.ok true, { s with fs := fs' }) ∧ Stashes π names s.fs fs') ∧
    ((∃ n ∈ names, ¬ Stashable π s.fs n) → (stashFiles π names s).1 = .ok false) := by
  induction names generalizing s with
  | nil =>
    refine ⟨fun _ ↦ ⟨s.fs, rfl, ⟨rfl, rfl, rfl⟩, by simp⟩, ?_⟩
    rintro ⟨n, hn, -⟩
    cases hn
  | cons n rest ih =>
    obtain ⟨hn, hrest⟩ := List.pairwise_cons.mp hapart
    obtain ⟨hdir, hdirs⟩ := List.forall_mem_cons.mp hdirs
    rcases stashFile_spec hdir with ⟨hstash, fs', heq, hstashes⟩ | ⟨hno, heq⟩
    · have hsame (m : Str) (hm : m ∈ rest) : Stashable π fs' m ↔ Stashable π s.fs m :=
        (stashable_congr (hdirs m hm) hstashes.rights (hstashes.isfile_apart (hn m hm))).2
      obtain ⟨hall, hsome⟩ := ih hrest (s := { s with fs := fs' })
        fun m hm ↦ (hdirs m hm).congr hstashes.rights
      rw [stashFiles, bind_ok heq]
      constructor
      · intro h
        obtain ⟨fs'', hrun, hlast⟩ := hall fun m hm ↦ (hsame m hm).mpr (h m (by simp [hm]))
        rw [bind_ok hrun]
        exact ⟨fs'', rfl, hstashes.cons hlast hdirs hn⟩
      · rintro ⟨m, hm, hno⟩
        have hm' : m ∈ rest := by
          rcases List.mem_cons.mp hm with rfl | hm
          · exact absurd hstash hno
          · exact hm
        have hfalse := hsome ⟨m, hm', fun h ↦ hno ((hsame m hm').mp h)⟩
        rw [bind_of_fst hfalse]
        rfl
    · rw [stashFiles, bind_ok heq]
      constructor
      · intro h
        exact absurd (h n (by simp)) hno
      · intro _
        obtain ⟨hall, hsome⟩ := ih hrest hdirs
        by_cases h : ∀ m ∈ rest, Stashable π s.fs m
        · obtain ⟨fs', hrun, -⟩ := hall h
          rw [bind_ok hrun]
          rfl
        · push Not at h
          have hfalse := hsome h
          rw [bind_of_fst hfalse]
          rfl

end

section Names

theorem ext_eq_of_suffix {ext ext' : Ext} {path : Str} (h : '.' :: ext.text <:+ path)
    (h' : '.' :: ext'.text <:+ path) : ext = ext' := by
  have hnested : '.' :: ext.text <:+ '.' :: ext'.text ∨ '.' :: ext'.text <:+ '.' :: ext.text :=
    List.suffix_or_suffix_of_suffix h h'
  revert hnested
  cases ext <;> cases ext' <;> decide

theorem suffix_sourcePath (p : Str) (ext : Ext) :
    '.' :: ext.text <:+ sourcePath π (namedFile p ext) := by
  have h := suffix_abspath (joinPath π p) (slash_not_mem_ext ext) fun last ↦
    ordinary_fileName last ext
  rw [sourcePath, namedFile, joinPath, ← List.append_assoc]
  exact h

theorem suffix_stashPath (p : Str) (ext : Ext) :
    '.' :: ext.text <:+ stashPath π (namedFile p ext) := by
  have h := suffix_sourcePath (π := π) ("stash/".toList ++ p) ext
  rw [sourcePath, namedFile, List.append_assoc] at h
  exact h

theorem suffix_candidate (p : Str) (ext : Ext) :
    '.' :: ext.text <:+ abspath (candidate π p ext) :=
  suffix_abspath (pathFile π p) (slash_not_mem_ext ext) fun last ↦ ordinary_fileName last ext

variable (π)

def foundExts (fs : FileSystem F) (p : Str) : List Ext :=
  extensions.filter fun ext ↦ fs.pathExists (candidate π p ext)

/-- The files that `_package_delete` stashes. -/
def foundNames (fs : FileSystem F) (p : Str) : List Str := (foundExts π fs p).map (namedFile p)

variable {π}

theorem mem_foundExts {fs : FileSystem F} {p : Str} {ext : Ext} :
    ext ∈ foundExts π fs p ↔ fs.pathExists (candidate π p ext) = true := by
  simp [foundExts, extensions_complete]

theorem mem_foundNames {fs : FileSystem F} {p n : Str} :
    n ∈ foundNames π fs p ↔
      ∃ ext, fs.pathExists (candidate π p ext) = true ∧ n = namedFile p ext := by
  simp only [foundNames, List.mem_map, mem_foundExts]
  constructor
  · rintro ⟨ext, hext, rfl⟩
    exact ⟨ext, hext, rfl⟩
  · rintro ⟨ext, hext, rfl⟩
    exact ⟨ext, hext, rfl⟩

theorem foundNames_apart (fs : FileSystem F) (p : Str) :
    (foundNames π fs p).Pairwise (Apart π) := by
  have hnodup : (foundExts π fs p).Nodup := by
    apply List.Nodup.filter
    decide
  apply List.pairwise_map.mpr
  refine List.Pairwise.imp ?_ hnodup
  intro ext ext' hne
  constructor
  · intro heq
    have hsuffix := suffix_sourcePath (π := π) p ext'
    rw [heq] at hsuffix
    exact hne (ext_eq_of_suffix (suffix_sourcePath p ext) hsuffix)
  · intro heq
    have hsuffix := suffix_sourcePath (π := π) p ext'
    rw [heq] at hsuffix
    exact hne (ext_eq_of_suffix (suffix_stashPath p ext) hsuffix)

end Names

section Delete

variable (π)

def withStash (fs : FileSystem F) : FileSystem F :=
  if fs.isdir (joinPath π "stash".toList) then fs
  else (fs.makedirs (joinPath π "stash".toList)).getD fs

def Deletable (fs : FileSystem F) (p : Str) : Prop :=
  foundNames π fs p ≠ [] ∧ ∀ n ∈ foundNames π fs p, Stashable π (withStash π fs) n

/-- None of the paths at which the deletion of a package looks for a file is that of a directory,
nor one that it moves. -/
structure FilesOnly (fs : FileSystem F) (p : Str) : Prop where
  candidates : ∀ ext, fs.isdir (candidate π p ext) = false
  sources : ∀ ext, fs.isfile (candidate π p ext) = true → NoDirectory π fs (namedFile p ext)

variable {π}

theorem makeStash_eq (s : State F) :
    makeStash π s = (.ok (), { s with fs := withStash π s.fs }) := by
  rw [makeStash, modify_apply, withStash]
  dsimp only
  split <;> rfl

theorem isfile_withStash (fs : FileSystem F) (x : Str) :
    (withStash π fs).isfile x = fs.isfile x := by
  unfold withStash
  split
  · rfl
  · unfold FileSystem.makedirs
    split <;> rfl

theorem isdir_withStash {fs : FileSystem F} {x : Str}
    (hx : abspath x ≠ abspath (joinPath π "stash".toList)) :
    (withStash π fs).isdir x = fs.isdir x := by
  unfold withStash
  split
  · rfl
  · unfold FileSystem.makedirs
    split
    · rw [Option.getD_some, FileSystem.isdir, FileSystem.isdir, decide_eq_decide, List.mem_cons,
        or_iff_right hx]
    · rfl

theorem ne_stash {x : Str} {ext : Ext} (hx : '.' :: ext.text <:+ abspath x) :
    abspath x ≠ abspath (joinPath π "stash".toList) := by
  intro heq
  have hstash : "stash".toList <:+ abspath (joinPath π "stash".toList) := by
    refine suffix_abspath _ (by decide) fun last ↦ ⟨by simp, fun h ↦ ?_, fun h ↦ ?_⟩
    · have hlength := congrArg List.length h
      simp at hlength
    · have hlength := congrArg List.length h
      simp at hlength
  have hnested := List.suffix_or_suffix_of_suffix hstash (heq ▸ hx)
  revert hnested
  cases ext <;> decide

theorem FilesOnly.pathExists {fs : FileSystem F} {p : Str} (h : FilesOnly π fs p) (ext : Ext) :
    fs.pathExists (candidate π p ext) = fs.isfile (candidate π p ext) := by
  rw [FileSystem.pathExists, h.candidates ext, Bool.or_false]

theorem FilesOnly.noDirectory {fs : FileSystem F} {p : Str} {ext : Ext} (h : FilesOnly π fs p)
    (hext : fs.isfile (candidate π p ext) = true) :
    NoDirectory π (withStash π fs) (namedFile p ext) :=
  (isdir_withStash (ne_stash (suffix_sourcePath p ext))).trans (h.sources ext hext)

theorem FilesOnly.found {fs : FileSystem F} {p : Str} (h : FilesOnly π fs p) :
    ∀ n ∈ foundNames π fs p, NoDirectory π (withStash π fs) n := by
  intro n hn
  obtain ⟨ext, hext, rfl⟩ := mem_foundNames.mp hn
  exact h.noDirectory ((h.pathExists ext).symm.trans hext)

theorem packageDeleteFiles_eq {p : Str} {s : State F} (hnul : nul ∉ p)
    (hne : foundNames π s.fs p ≠ []) :
    packageDeleteFiles π p s =
      (stashFiles π (foundNames π s.fs p) >>= fun stashed ↦ if stashed then do
        removePackageFromAutoload p
        pure stashed
      else pure stashed) { s with fs := withStash π s.fs } := by
  have hfound : (extensions.filter fun ext ↦ s.fs.pathExists (candidate π p ext)) ≠ [] :=
    fun h ↦ hne (List.map_eq_nil_iff.mpr h)
  unfold packageDeleteFiles
  rw [get_bind_apply, if_neg (not_nul_pathFile hnul)]
  rw [if_neg hfound, bind_ok (makeStash_eq s), if_neg hnul]
  rfl

theorem packageDeleteFiles_frame (p : Str) (s : State F) :
    ∃ fs list, (packageDeleteFiles π p s).2 = { s with fs := fs, startupList := list } ∧
      (Parseable s.startupList → Parseable list) := by
  have hstash (names : List Str) (t : State F) :
      ∃ b fs, stashFiles π names t = (.ok b, { t with fs := fs }) := by
    induction names generalizing t with
    | nil => exact ⟨true, t.fs, rfl⟩
    | cons n rest ih =>
      have hone : ∃ b fs, stashFile π n t = (.ok b, { t with fs := fs }) := by
        unfold stashFile
        dsimp only
        split
        · exact ⟨true, _, rfl⟩
        · split
          · exact ⟨true, _, rfl⟩
          · exact ⟨false, t.fs, rfl⟩
      obtain ⟨b, fs, hb⟩ := hone
      obtain ⟨b', fs', hb'⟩ := ih { t with fs := fs }
      refine ⟨b && b', fs', ?_⟩
      rw [stashFiles, bind_ok hb, bind_ok hb']
      rfl
  unfold packageDeleteFiles
  rw [get_bind_apply]
  by_cases hpath : nul ∈ pathFile π p
  · rw [if_pos hpath]
    exact ⟨s.fs, s.startupList, rfl, id⟩
  by_cases hfound : (extensions.filter fun ext ↦ s.fs.pathExists (candidate π p ext)) = []
  · rw [if_neg hpath, if_pos hfound]
    exact ⟨s.fs, s.startupList, rfl, id⟩
  rw [if_neg hpath, if_neg hfound, bind_ok (makeStash_eq s)]
  by_cases hnul : nul ∈ p
  · rw [if_pos hnul]
    exact ⟨withStash π s.fs, s.startupList, rfl, id⟩
  rw [if_neg hnul]
  obtain ⟨b, fs, hb⟩ := hstash ((extensions.filter fun ext ↦ s.fs.pathExists
    (candidate π p ext)).map fun ext ↦ p ++ '.' :: ext.text) { s with fs := withStash π s.fs }
  rw [bind_ok hb]
  cases b with
  | false => exact ⟨fs, s.startupList, rfl, id⟩
  | true =>
    rw [if_pos rfl, bind_pure_snd]
    obtain ⟨list, hlist⟩ := removePackageFromAutoload_frame p { s with fs := fs }
    refine ⟨fs, list, hlist, fun hpar ↦ ?_⟩
    have hremove := removePackageFromAutoload_eq p { s with fs := fs } hpar
    rw [hremove] at hlist
    have heq : delist p s.startupList = list := congrArg State.startupList hlist
    exact heq ▸ hpar.delist p

theorem packageDeleteFiles_spec {p : Str} (hnul : nul ∉ p) {s : State F}
    (hfiles : FilesOnly π s.fs p) :
    (Deletable π s.fs p → (packageDeleteFiles π p s).1 ≠ .diverged ∧
      (packageDeleteFiles π p s).1 ≠ .ok false ∧
      Stashes π (foundNames π s.fs p) (withStash π s.fs) (packageDeleteFiles π p s).2.fs) ∧
    (¬ Deletable π s.fs p → (packageDeleteFiles π p s).1 = .ok false) := by
  obtain ⟨hall, hsome⟩ := stashFiles_spec (foundNames_apart s.fs p)
    (s := { s with fs := withStash π s.fs }) hfiles.found
  constructor
  · rintro ⟨hne, hstash⟩
    obtain ⟨fs', hok, hstashes⟩ := hall hstash
    rw [packageDeleteFiles_eq hnul hne, bind_ok hok, if_pos rfl, bind_apply]
    obtain ⟨list, hframe⟩ := removePackageFromAutoload_frame p { s with fs := fs' }
    have hterm := removePackageFromAutoload_terminates p { s with fs := fs' }
    rcases hr : removePackageFromAutoload p { s with fs := fs' } with ⟨_ | e | _, t⟩ <;>
      rw [hr] at hframe hterm
    · refine ⟨by simp, by simp, ?_⟩
      obtain rfl : t = _ := hframe
      exact hstashes
    · refine ⟨by simp, by simp, ?_⟩
      obtain rfl : t = _ := hframe
      exact hstashes
    · exact absurd rfl hterm
  · intro hno
    by_cases hne : foundNames π s.fs p = []
    · have hfound : (extensions.filter fun ext ↦ s.fs.pathExists (candidate π p ext)) = [] :=
        List.map_eq_nil_iff.mp hne
      unfold packageDeleteFiles
      rw [get_bind_apply, if_neg (not_nul_pathFile hnul)]
      rw [if_pos hfound]
      rfl
    · have hfails : ∃ n ∈ foundNames π s.fs p, ¬ Stashable π (withStash π s.fs) n := by
        by_contra h
        push Not at h
        exact hno ⟨hne, h⟩
      have hfalse := hsome hfails
      rw [packageDeleteFiles_eq hnul hne, bind_of_fst hfalse]
      rfl

end Delete

end Liota.PackageManager
