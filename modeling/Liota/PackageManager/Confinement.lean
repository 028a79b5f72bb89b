import Liota.Python.Paths
import Liota.PackageManager.LoadExact
import Liota.PackageManager.UnloadSteps
import Liota.PackageManager.CommandRules
import Liota.PackageManager.LoaderRules
import Liota.PackageManager.Scripts

namespace Liota.PackageManager

open Python Python.Computation Python.Text Relation

variable {F : Type} {π : Platform F}

section Paths

theorem ordinary_fileName (last : Str) (ext : Ext) : OrdinaryComp (last ++ '.' :: ext.text) := by
  refine ⟨by simp, ?_, ?_⟩
  · intro h
    have hlength := congrArg List.length h
    cases ext <;> simp [Ext.text] at hlength
  · intro h
    have hlength := congrArg List.length h
    cases ext <;> simp [Ext.text] at hlength

theorem slash_not_mem_ext (ext : Ext) : '/' ∉ '.' :: ext.text := by
  cases ext <;> decide

theorem candidate_below {name : Str} (h : UnderPackagePath π name) (ext : Ext) :
    StrictlyBelow π.packagePath (candidate π name ext) := by
  unfold UnderPackagePath at h
  rw [π.packagePath_abs] at h
  exact strictlyBelow_of_prefix h (slash_not_mem_ext ext) fun last ↦ ordinary_fileName last ext

theorem components_joinPath (name : Str) :
    components (joinPath π name) =
      (normComps (components π.packagePath).reverse (name.splitOn '/')).reverse := by
  unfold joinPath
  split
  · next h =>
    obtain ⟨root, hroot⟩ := h
    rw [← hroot, List.append_nil, List.append_assoc, List.singleton_append,
      components_append_slash, components_append_slash, List.splitOn_nil]
    simp [normComps]
  · rw [List.append_assoc, List.singleton_append, components_append_slash]

theorem components_joinPath_dirname {name : Str} {pre : List Str} {last : Str}
    (h : name.splitOn '/' = pre ++ [last]) :
    components (joinPath π (dirname name)) =
      (normComps (components π.packagePath).reverse pre).reverse := by
  rw [components_joinPath, dirname, h, List.dropLast_concat]
  by_cases hnil : pre = []
  · rw [hnil]
    rfl
  · rw [List.splitOn_intercalate '/' _ hnil]
    intro comp hcomp
    apply slash_not_mem_of_mem_splitOn (h ▸ List.mem_append_left _ hcomp)

/-- A file that is named as `_package_delete` names it lies below the package path if and only if
the part of the name before its last slash does not lead out of it. -/
theorem named_below_iff (name : Str) (ext : Ext) :
    StrictlyBelow π.packagePath (joinPath π (name ++ '.' :: ext.text)) ↔
      AtOrBelow π.packagePath (joinPath π (dirname name)) := by
  obtain ⟨pre, last, hsplit, hsplit'⟩ := splitOn_append_of_not_mem name (slash_not_mem_ext ext)
  apply strictlyBelow_concat_iff
  rw [components_joinPath, hsplit', normComps_append,
    normComps_ordinary (ordinary_fileName last ext),
    List.reverse_cons, components_joinPath_dirname hsplit]

end Paths

section Touched

variable (π)

def stashTouches (name : Str) (s : State F) : List Str :=
  let src := joinPath π name
  let dst := joinPath π ("stash/".toList ++ name)
  match s.fs.rename src dst with
  | some _ => [abspath src, abspath dst]
  | none =>
    match s.fs.remove src with
    | some _ => [abspath src]
    | none => []

def stashFilesTouches : List Str → State F → List Str
  | [], _ => []
  | name :: rest, s => stashTouches π name s ++ stashFilesTouches rest (stashFile π name s).2

def deleteFilesTouches (fileName : Str) (s : State F) : List Str :=
  let found := extensions.filter fun ext ↦ s.fs.pathExists (candidate π fileName ext)
  if nul ∈ pathFile π fileName ∨ found = [] ∨ nul ∈ fileName then []
  else stashFilesTouches π (found.map fun ext ↦ fileName ++ '.' :: ext.text) (makeStash π s).2

def deleteTouches (fileName : Str) (s : State F) : List Str :=
  if s.Loaded fileName then
    match packageUnload π fileName [] s with
    | (.ok _, t) => deleteFilesTouches π fileName t
    | _ => []
  else deleteFilesTouches π fileName s

def deleteListTouches : List Str → State F → List Str
  | [], _ => []
  | fileName :: rest, s =>
    deleteTouches π fileName s ++ deleteListTouches rest (packageDelete π fileName s).2

/-- The paths of all files and directories that a request renames, from and to, or removes. -/
def Request.touches (s : State F) : Request → List Str
  | .delete fileName => deleteTouches π fileName s
  | .deleteList packages => deleteListTouches π packages s
  | _ => []

/-- The packages whose module files a request executes. -/
def Request.executes (s : State F) (request : Request) : List Str :=
  ((perform π request s).2.trace.drop s.trace.length).filterMap fun
    | .executed name _ => some name
    | _ => none

/-- The name does not lead out of the package directory, neither from there nor from the stash
directory. -/
def StaysInside (fileName : Str) : Prop :=
  AtOrBelow π.packagePath (joinPath π (dirname fileName)) ∧
  AtOrBelow π.packagePath (joinPath π (dirname ("stash/".toList ++ fileName)))

instance (fileName : Str) : Decidable (StaysInside π fileName) :=
  inferInstanceAs (Decidable (_ ∧ _))

end Touched

section Executed

def ExecutesUnder (π : Platform F) (s t : State F) : Prop :=
  ∃ events, t.trace = s.trace ++ events ∧
    ∀ name checksum, Event.executed name checksum ∈ events → UnderPackagePath π name

theorem executesUnder_of_eq {s t : State F} (h : t.trace = s.trace) : ExecutesUnder π s t :=
  ⟨[], by simp [h], by simp⟩

theorem ExecutesUnder.trans {s t u : State F} (h : ExecutesUnder π s t)
    (h' : ExecutesUnder π t u) : ExecutesUnder π s u := by
  obtain ⟨events, htrace, hevents⟩ := h
  obtain ⟨events', htrace', hevents'⟩ := h'
  refine ⟨events ++ events', by rw [htrace', htrace, List.append_assoc], ?_⟩
  intro name checksum hmem
  rcases List.mem_append.mp hmem with hmem | hmem
  · exact hevents name checksum hmem
  · exact hevents' name checksum hmem

theorem openPackage_executesUnder {call : Call} {s t : State F} {o : Outcome (Option (Opened F))}
    (ho : openPackage π call.name call.checksum call.ext s = (o, t)) : ExecutesUnder π s t := by
  by_cases hunder : UnderPackagePath π call.name
  · have hstep := openPackage_step (π := π) call.name call.checksum call.ext s
    rw [ho] at hstep
    rcases hstep.trace with heq | ⟨heq, -⟩
    · exact executesUnder_of_eq heq
    · refine ⟨_, heq, ?_⟩
      intro n c hmem
      cases List.mem_singleton.mp hmem
      exact hunder
  · have hrefused : (openPackage π call.name call.checksum call.ext s).2 = s := by
      unfold openPackage packageChkExists
      rw [if_neg hunder]
      split <;> rfl
    rw [ho] at hrefused
    exact executesUnder_of_eq (congrArg State.trace hrefused)

theorem startPackage_executesUnder (name : Str) (checksum : Option Str) (autoload : Bool)
    (opened : Opened F) (u : State F) :
    ExecutesUnder π u (startPackage name checksum autoload opened u).2 := by
  rcases startPackage_cases name checksum autoload opened u with
    hfail | ⟨klass, obj, registry, -, -, -, heq⟩
  · obtain ⟨tick, registry, hframe⟩ := hfail.frame
    rw [hframe]
    exact executesUnder_of_eq rfl
  · obtain ⟨list, hsnd⟩ := recordPackage_snd name checksum autoload (opened.record obj)
      (ran u registry)
    rw [heq, hsnd]
    refine ⟨[.loaded name checksum], rfl, ?_⟩
    intro n c hmem
    cases List.mem_singleton.mp hmem

theorem executesUnder_loadRule : LoadRule π (fun _ _ s _ t ↦ ExecutesUnder π s t)
    (fun _ _ _ s _ t ↦ ExecutesUnder π s t) where
  outOfFuel _ _ _ := executesUnder_of_eq rfl
  closed _ ho := openPackage_executesUnder ho
  refused _ ho := openPackage_executesUnder ho
  stopped _ ho hQ _ _ := (openPackage_executesUnder ho).trans hQ
  started _ ho hQ _ _ :=
    ((openPackage_executesUnder ho).trans hQ).trans (startPackage_executesUnder _ _ _ _ _)
  done _ _ _ := executesUnder_of_eq rfl
  cycle _ _ _ := executesUnder_of_eq rfl
  present _ _ _ hQ := hQ
  pulled _ _ _ hP _ _ hQ := hP.trans hQ
  missing _ _ hP _ _ := hP

theorem covers_executesUnder : Covers π (fun s t : State F ↦ ExecutesUnder π s t) := by
  refine covers_of_updates (fun _ ↦ executesUnder_of_eq rfl) (fun _ _ _ h h' ↦ h.trans h') ?_ ?_
    (fun _ _ ↦ executesUnder_of_eq rfl) (fun _ _ _ ↦ executesUnder_of_eq rfl)
  · intro name checksum autoload ext s
    exact executesUnder_loadRule.packageLoad name checksum autoload ext s
  · intro name track s
    obtain ⟨names, htrace⟩ := (packageUnload_shrinks π name track s).trace
    refine ⟨_, htrace, ?_⟩
    intro n c hmem
    obtain ⟨_, -, heq⟩ := List.mem_map.mp hmem
    cases heq

theorem executes_under {request : Request} {s : State F} {name : Str}
    (h : name ∈ request.executes π s) : UnderPackagePath π name := by
  obtain ⟨events, htrace, hevents⟩ := covers_executesUnder.perform (π := π) request s
  rw [Request.executes, htrace, List.drop_left] at h
  obtain ⟨event, hmem, heq⟩ := List.mem_filterMap.mp h
  cases event with
  | executed n checksum =>
    cases heq
    exact hevents name checksum hmem
  | loaded | cleanedUp => cases heq

end Executed

section Deleted

variable {s : State F} {path : Str}

/-- The file of a package as `_package_delete` names it. -/
def namedFile (fileName : Str) (ext : Ext) : Str := fileName ++ '.' :: ext.text

theorem mem_stashTouches {name : Str} (h : path ∈ stashTouches π name s) :
    path = abspath (joinPath π name) ∨ path = abspath (joinPath π ("stash/".toList ++ name)) := by
  unfold stashTouches at h
  dsimp only at h
  split at h
  · simpa only [List.mem_cons, List.not_mem_nil, or_false] using h
  · split at h
    · exact .inl (List.mem_singleton.mp h)
    · cases h

theorem mem_stashFilesTouches {names : List Str} (h : path ∈ stashFilesTouches π names s) :
    ∃ name ∈ names, path = abspath (joinPath π name) ∨
      path = abspath (joinPath π ("stash/".toList ++ name)) := by
  induction names generalizing s with
  | nil => cases h
  | cons name rest ih =>
    rcases List.mem_append.mp h with h | h
    · exact ⟨name, List.mem_cons_self, mem_stashTouches h⟩
    · obtain ⟨n, hn, heq⟩ := ih h
      exact ⟨n, List.mem_cons_of_mem _ hn, heq⟩

theorem mem_deleteFilesTouches {fileName : Str} (h : path ∈ deleteFilesTouches π fileName s) :
    nul ∉ fileName ∧ ∃ ext, path = abspath (joinPath π (namedFile fileName ext)) ∨
      path = abspath (joinPath π ("stash/".toList ++ namedFile fileName ext)) := by
  unfold deleteFilesTouches at h
  dsimp only at h
  split at h
  · cases h
  · next hfound =>
    obtain ⟨name, hname, heq⟩ := mem_stashFilesTouches h
    obtain ⟨ext, -, rfl⟩ := List.mem_map.mp hname
    exact ⟨(not_or.mp (not_or.mp hfound).2).2, ext, heq⟩

theorem mem_deleteTouches {fileName : Str} (h : path ∈ deleteTouches π fileName s) :
    nul ∉ fileName ∧ ∃ ext, path = abspath (joinPath π (namedFile fileName ext)) ∨
      path = abspath (joinPath π ("stash/".toList ++ namedFile fileName ext)) := by
  unfold deleteTouches at h
  split at h
  · split at h
    · exact mem_deleteFilesTouches h
    · cases h
  · exact mem_deleteFilesTouches h

theorem mem_touches {request : Request} (h : path ∈ request.touches π s) :
    ∃ fileName ∈ request.deletes, nul ∉ fileName ∧
      ∃ ext, path = abspath (joinPath π (namedFile fileName ext)) ∨
        path = abspath (joinPath π ("stash/".toList ++ namedFile fileName ext)) := by
  cases request with
  | delete fileName => exact ⟨fileName, List.mem_singleton_self _, mem_deleteTouches h⟩
  | deleteList packages =>
    change path ∈ deleteListTouches π packages s at h
    induction packages generalizing s with
    | nil => cases h
    | cons fileName rest ih =>
      rcases List.mem_append.mp h with h | h
      · exact ⟨fileName, List.mem_cons_self, mem_deleteTouches h⟩
      · obtain ⟨n, hn, hpath⟩ := ih h
        exact ⟨n, List.mem_cons_of_mem _ hn, hpath⟩
  | load | reload | update | loadList | updateList | unload | unloadList | loadAuto | unloadAll
  | updateAll | terminate | report | ignored => cases h

theorem strictlyBelow_abspath_iff (dir path : Str) :
    StrictlyBelow dir (abspath path) ↔ StrictlyBelow dir path := by
  rw [StrictlyBelow, StrictlyBelow, AtOrBelow, AtOrBelow, components_abspath]

theorem staysInside_iff (fileName : Str) (ext : Ext) :
    StaysInside π fileName ↔
      StrictlyBelow π.packagePath (abspath (joinPath π (namedFile fileName ext))) ∧
      StrictlyBelow π.packagePath
        (abspath (joinPath π ("stash/".toList ++ namedFile fileName ext))) := by
  rw [StaysInside, strictlyBelow_abspath_iff, strictlyBelow_abspath_iff, namedFile,
    ← List.append_assoc, named_below_iff, named_below_iff]

end Deleted

section Frame

variable {s : State F} {path : Str}

theorem inside_relocated {src dst : Str} (h : Inside src path) :
    Inside dst (relocated src dst path) := by
  rw [relocated, if_pos h]
  rcases h with rfl | ⟨rest, rfl⟩
  · exact .inl (by simp)
  · exact .inr ⟨rest, by simp⟩

theorem lookup_rename {fs fs' : FileSystem F} {src dst : Str} (h : fs.rename src dst = some fs')
    (hsrc : ¬ Inside (abspath src) path) (hdst : ¬ Inside (abspath dst) path) :
    fs'.files.lookup path = fs.files.lookup path := by
  obtain ⟨-, -, ⟨f, -, -, rfl⟩ | rfl | rfl⟩ := FileSystem.rename_eq_some h
  · simp only [Dict.lookup_insert_eq, Dict.lookup_erase_eq, if_neg fun heq ↦ hsrc (.inl heq),
      if_neg fun heq ↦ hdst (.inl heq)]
  · rfl
  · refine Dict.lookup_rekey_of_fixed (fun k ↦ ?_) fs.files
    by_cases hk : Inside (abspath src) k
    · constructor
      · intro heq
        exact absurd (heq ▸ inside_relocated hk) hdst
      · intro heq
        exact absurd (heq ▸ hk) hsrc
    · rw [relocated, if_neg hk]

theorem lookup_stashFile {name : Str} (h : ∀ x ∈ stashTouches π name s, ¬ Inside x path) :
    (stashFile π name s).2.fs.files.lookup path = s.fs.files.lookup path := by
  unfold stashTouches at h
  unfold stashFile
  dsimp only at h ⊢
  cases hrename : s.fs.rename (joinPath π name) (joinPath π ("stash/".toList ++ name)) with
  | some fs =>
    rw [hrename] at h
    exact lookup_rename hrename (h _ (by simp)) (h _ (by simp))
  | none =>
    rw [hrename] at h
    dsimp only at h ⊢
    cases hremove : s.fs.remove (joinPath π name) with
    | some fs =>
      rw [hremove] at h
      unfold FileSystem.remove at hremove
      split at hremove
      · cases hremove
        simp only [Dict.lookup_erase_eq,
          if_neg fun heq ↦ h _ (List.mem_singleton_self _) (.inl heq)]
      · cases hremove
    | none => rfl

theorem lookup_stashFiles {names : List Str}
    (h : ∀ x ∈ stashFilesTouches π names s, ¬ Inside x path) :
    (stashFiles π names s).2.fs.files.lookup path = s.fs.files.lookup path := by
  induction names generalizing s with
  | nil => rfl
  | cons name rest ih =>
    obtain ⟨hfirst, hrest⟩ := List.forall_mem_append.mp h
    have hok : ∃ b, stashFile π name s = (.ok b, (stashFile π name s).2) := by
      unfold stashFile
      dsimp only
      split
      · exact ⟨true, rfl⟩
      · split
        · exact ⟨true, rfl⟩
        · exact ⟨false, rfl⟩
    obtain ⟨b, hb⟩ := hok
    rw [stashFiles, bind_ok hb, bind_pure_snd, ih hrest, lookup_stashFile hfirst]

theorem files_makeStash (s : State F) : (makeStash π s).2.fs.files = s.fs.files := by
  rw [makeStash, modify_apply]
  dsimp only
  split
  · rfl
  · unfold FileSystem.makedirs
    split
    · rfl
    · rfl

theorem lookup_packageDeleteFiles {fileName : Str}
    (h : ∀ x ∈ deleteFilesTouches π fileName s, ¬ Inside x path) :
    (packageDeleteFiles π fileName s).2.fs.files.lookup path = s.fs.files.lookup path := by
  unfold deleteFilesTouches at h
  unfold packageDeleteFiles
  rw [get_bind_apply]
  dsimp only at h ⊢
  split
  · rfl
  next hpath =>
  split
  · rfl
  next hfound =>
  rw [bind_ok (show makeStash π s = (.ok (), (makeStash π s).2) from rfl),
    ← files_makeStash (π := π) s]
  split
  · rfl
  · next hnul =>
    rw [if_neg (by simp [hpath, hfound, hnul])] at h
    rw [← lookup_stashFiles h, bind_apply]
    rcases PackageManager.stashFiles π _ (makeStash π s).2 with ⟨b | e | _, t⟩
    · dsimp only
      split
      · rw [bind_pure_snd]
        obtain ⟨list, hlist⟩ := removePackageFromAutoload_frame fileName t
        rw [hlist]
      · rfl
    · rfl
    · rfl

theorem lookup_packageDelete {fileName : Str}
    (h : ∀ x ∈ deleteTouches π fileName s, ¬ Inside x path) :
    (packageDelete π fileName s).2.fs.files.lookup path = s.fs.files.lookup path := by
  unfold deleteTouches at h
  unfold packageDelete
  rw [get_bind_apply]
  split
  · next hl =>
    rw [if_pos hl] at h
    have hfs := (packageUnload_shrinks π fileName [] s).fs
    rw [bind_apply, ← hfs]
    rcases hu : packageUnload π fileName [] s with ⟨b | e | _, t⟩
    · rw [hu] at h
      exact lookup_packageDeleteFiles h
    · rfl
    · rfl
  · next hl =>
    rw [if_neg hl] at h
    exact lookup_packageDeleteFiles h

theorem lookup_packageDeleteList {packages : List Str}
    (h : ∀ x ∈ deleteListTouches π packages s, ¬ Inside x path) :
    (packageDeleteList π packages s).2.fs.files.lookup path = s.fs.files.lookup path := by
  have hloop (failed : List Str) :
      (deleteListFrom π packages failed s).2.fs.files.lookup path = s.fs.files.lookup path := by
    induction packages generalizing failed s with
    | nil => rfl
    | cons fileName rest ih =>
      obtain ⟨hfirst, hrest⟩ := List.forall_mem_append.mp h
      have hround (x : List Str → Bool → List Str) :
          (Py.tryExcept catchAll (do
            let deleted ← packageDelete π fileName
            pure (x failed deleted)) (pure failed) s).2 = (packageDelete π fileName s).2 := by
        rw [Py.tryExcept, bind_apply]
        rcases packageDelete π fileName s with ⟨b | e | _, t⟩
        · rfl
        · rfl
        · rfl
      rw [deleteListFrom, bind_apply]
      have hstate := hround fun failed deleted ↦ if deleted then failed else failed ++ [fileName]
      rcases hr : Py.tryExcept catchAll (do
          let deleted ← packageDelete π fileName
          pure (if deleted then failed else failed ++ [fileName])) (pure failed) s with
        ⟨failed' | e | _, t⟩
      · rw [hr] at hstate
        dsimp only at hstate ⊢
        rw [hstate, ih hrest, lookup_packageDelete hfirst]
      · rw [hr] at hstate
        dsimp only at hstate ⊢
        rw [hstate, lookup_packageDelete hfirst]
      · rw [hr] at hstate
        dsimp only at hstate ⊢
        rw [hstate, lookup_packageDelete hfirst]
  rw [packageDeleteList, bind_pure_snd]
  exact hloop []

theorem loaderRule_fs (s : State F) :
    LoaderRule π (makeCall π) (makeCall π) (fun _ ↦ True) False
      (fun t ↦ Consistent t ∧ t.fs = s.fs) where
  consistent _ ht := ht.1
  call call t _ ht := by
    have hsteps := packageLoad_steps (π := π) call.name call.checksum call.autoload call.ext t
    exact ⟨rfl, hsteps.consistent ht.1, hsteps.fs.trans ht.2⟩
  unload _ _ h hu ht := ⟨hu, h.fs.trans ht.2⟩
  listed _ _ ht := ⟨ht.1.of_packagesLoaded_eq rfl rfl, ht.2⟩
  stash h := h.elim
  makeStash h := h.elim

theorem lookup_perform (hs : Consistent s) {request : Request}
    (h : ∀ x ∈ request.touches π s, ¬ Inside x path) :
    (perform π request s).2.fs.files.lookup path = s.fs.files.lookup path := by
  have hother (hdeletes : request.deletes = []) :
      (perform π request s).2.fs.files.lookup path = s.fs.files.lookup path := by
    obtain ⟨-, -, hfs⟩ := (loaderRule_fs (π := π) s).perform ⟨hs, rfl⟩
      ⟨fun _ _ ↦ trivial, fun _ _ _ _ _ ↦ trivial⟩ (fun hne ↦ hne hdeletes)
    rw [performWith_makeCall] at hfs
    rw [hfs]
  cases request with
  | delete fileName =>
    rw [perform, bind_pure_snd]
    exact lookup_packageDelete h
  | deleteList packages =>
    rw [perform, bind_pure_snd]
    exact lookup_packageDeleteList h
  | load | reload | update | loadList | updateList | unload | unloadList | loadAuto | unloadAll
  | updateAll | terminate | report | ignored => exact hother rfl

end Frame

section Movable

variable (π) in
/-- A file system in which the source file of one package is found, can be moved to the stash, and
is all that can be changed. -/
def movableFile (content : F) (fileName : Str) : FileSystem F where
  files :=
    (AList.insert (abspath (candidate π fileName .py)) ⟨content, true⟩ (∅ : Dict (File F))).insert
      (abspath (joinPath π (namedFile fileName .py))) ⟨content, true⟩
  dirs := [abspath (dirname (abspath (joinPath π ("stash/".toList ++ namedFile fileName .py))))]
  mayMakedirs _ := false
  mayRename src _ := src = joinPath π (namedFile fileName .py)
  mayRemove _ := false

theorem namedFile_py_inj {name fileName : Str} {ext : Ext}
    (h : namedFile name ext = namedFile fileName .py) : name = fileName := by
  unfold namedFile at h
  cases ext with
  | py => exact List.append_cancel_right h
  | pyc =>
    have hlast := congrArg List.getLast? h
    simp [Ext.text] at hlast
  | pyo =>
    have hlast := congrArg List.getLast? h
    simp [Ext.text] at hlast

theorem joinPath_inj {a b : Str} (h : joinPath π a = joinPath π b) : a = b :=
  List.append_cancel_left h

variable {content : F} {fileName : Str}

theorem makeStash_movable (s : State F) (hfs : s.fs = movableFile π content fileName) :
    makeStash π s = (.ok (), s) := by
  have hmakedirs (path : Str) : s.fs.makedirs path = none := by
    rw [hfs]
    rfl
  rw [makeStash, modify_apply]
  dsimp only
  split
  · rfl
  · rw [hmakedirs]
    rfl

theorem stashFile_other {s : State F} (hfs : s.fs = movableFile π content fileName) {name : Str}
    (hne : name ≠ fileName) (ext : Ext) : stashFile π (namedFile name ext) s = (.ok false, s) := by
  have hrename (dst : Str) : s.fs.rename (joinPath π (namedFile name ext)) dst = none := by
    unfold FileSystem.rename
    rw [if_neg]
    rintro ⟨-, hmay⟩
    rw [hfs] at hmay
    exact hne (namedFile_py_inj (joinPath_inj (of_decide_eq_true hmay)))
  have hremove : s.fs.remove (joinPath π (namedFile name ext)) = none := by
    unfold FileSystem.remove
    rw [if_neg]
    rintro ⟨-, hmay⟩
    rw [hfs] at hmay
    cases hmay
  unfold stashFile
  dsimp only
  rw [hrename, hremove]

theorem stashFiles_other {s : State F} {names : List Str}
    (h : ∀ name ∈ names, stashFile π name s = (.ok false, s)) :
    stashFiles π names s = (.ok (names = []), s) := by
  induction names with
  | nil => rfl
  | cons name rest ih =>
    rw [stashFiles, bind_ok (h name (by simp)), bind_ok (ih fun n hn ↦ h n (by simp [hn]))]
    simp

theorem packageDelete_other {s : State F} (hfs : s.fs = movableFile π content fileName)
    {name : Str} (hne : name ≠ fileName) (hl : ¬ s.Loaded name) :
    (packageDelete π name s).2 = s := by
  unfold packageDelete packageDeleteFiles
  rw [get_bind_apply, if_neg hl, get_bind_apply]
  split
  · rfl
  dsimp only
  split
  · rfl
  next hfound =>
  rw [bind_ok (makeStash_movable s hfs)]
  split
  · rfl
  · rw [bind_ok (stashFiles_other ?_), if_neg (by simpa using hfound)]
    · rfl
    · intro file hfile
      obtain ⟨ext, -, rfl⟩ := List.mem_map.mp hfile
      exact stashFile_other hfs hne ext

theorem components_file_ne_nil (name : Str) (ext : Ext) :
    components (joinPath π (name ++ '.' :: ext.text)) ≠ [] := by
  obtain ⟨pre, last, -, hsplit⟩ := splitOn_append_of_not_mem name (slash_not_mem_ext ext)
  rw [components_joinPath, hsplit, normComps_append,
    normComps_ordinary (ordinary_fileName last ext), List.reverse_cons]
  exact List.append_ne_nil_of_right_ne_nil _ (List.cons_ne_nil _ _)

theorem isdir_movable :
    (movableFile π content fileName).isdir
      (joinPath π ("stash/".toList ++ namedFile fileName .py)) = false := by
  rw [FileSystem.isdir, decide_eq_false_iff_not]
  intro hmem
  have heq := congrArg components (List.mem_singleton.mp hmem)
  rw [components_abspath, components_abspath, components_dirname_abspath] at heq
  have hne := components_file_ne_nil (π := π) ("stash/".toList ++ fileName) .py
  rw [List.append_assoc] at hne
  have hlength := congrArg List.length heq
  rw [List.length_dropLast] at hlength
  have hpos := List.length_pos_of_ne_nil hne
  rw [← namedFile] at hpos
  omega

theorem rename_movable {s : State F} (hfs : s.fs = movableFile π content fileName) :
    s.fs.rename (joinPath π (namedFile fileName .py))
      (joinPath π ("stash/".toList ++ namedFile fileName .py)) ≠ none := by
  rw [hfs]
  have hfile : (movableFile π content fileName).file (joinPath π (namedFile fileName .py)) =
      some ⟨content, true⟩ := AList.lookup_insert _
  unfold FileSystem.rename
  rw [hfile, if_pos]
  · dsimp only
    rw [isdir_movable]
    exact Option.some_ne_none _
  · exact ⟨by simp [FileSystem.isdir, movableFile], by simp [movableFile]⟩

theorem mem_deleteTouches_movable {s : State F} (hfs : s.fs = movableFile π content fileName)
    (hnul : nul ∉ fileName) (hl : ¬ s.Loaded fileName) :
    abspath (joinPath π (namedFile fileName .py)) ∈ deleteTouches π fileName s ∧
      abspath (joinPath π ("stash/".toList ++ namedFile fileName .py)) ∈
        deleteTouches π fileName s := by
  have hfile : s.fs.isfile (candidate π fileName .py) = true := by
    rw [hfs, FileSystem.isfile, FileSystem.file, movableFile, Dict.lookup_insert_eq]
    split
    · rfl
    · rw [Dict.lookup_insert_eq, if_pos rfl]
      rfl
  have hfound : s.fs.pathExists (candidate π fileName .py) = true := by
    rw [FileSystem.pathExists, hfile, Bool.true_or]
  unfold deleteTouches deleteFilesTouches
  rw [if_neg hl]
  dsimp only
  have hfilter : extensions.filter (fun ext ↦ s.fs.pathExists (candidate π fileName ext)) =
      .py :: [Ext.pyc, .pyo].filter (fun ext ↦ s.fs.pathExists (candidate π fileName ext)) :=
    List.filter_cons_of_pos hfound
  rw [hfilter, if_neg (by simp [hnul, not_nul_pathFile hnul]), List.map_cons,
    makeStash_movable s hfs, stashFilesTouches]
  have htouched : stashTouches π (namedFile fileName .py) s =
      [abspath (joinPath π (namedFile fileName .py)),
        abspath (joinPath π ("stash/".toList ++ namedFile fileName .py))] := by
    unfold stashTouches
    dsimp only
    split
    · rfl
    · next hnone => exact absurd hnone (rename_movable hfs)
  change _ ∈ stashTouches π (namedFile fileName .py) s ++ _ ∧
    _ ∈ stashTouches π (namedFile fileName .py) s ++ _
  rw [htouched]
  simp

theorem mem_touches_movable {request : Request} (h : fileName ∈ request.deletes)
    (hnul : nul ∉ fileName) {s : State F} (hfs : s.fs = movableFile π content fileName)
    (hl : ∀ name, ¬ s.Loaded name) :
    abspath (joinPath π (namedFile fileName .py)) ∈ request.touches π s ∧
      abspath (joinPath π ("stash/".toList ++ namedFile fileName .py)) ∈ request.touches π s := by
  obtain ⟨hsrc, hdst⟩ := mem_deleteTouches_movable hfs hnul (hl fileName)
  cases request with
  | delete name =>
    obtain rfl := List.mem_singleton.mp h
    exact ⟨hsrc, hdst⟩
  | deleteList packages =>
    change _ ∈ deleteListTouches π packages s ∧ _ ∈ deleteListTouches π packages s
    change fileName ∈ packages at h
    induction packages with
    | nil => cases h
    | cons name rest ih =>
      rw [deleteListTouches, List.mem_append, List.mem_append]
      by_cases hname : name = fileName
      · rw [hname]
        exact ⟨.inl hsrc, .inl hdst⟩
      · obtain ⟨hsrc', hdst'⟩ := ih ((List.mem_cons.mp h).resolve_left (Ne.symm hname))
        rw [packageDelete_other hfs hname (hl name)]
        exact ⟨.inr hsrc', .inr hdst'⟩
  | load | reload | update | loadList | updateList | unload | unloadList | loadAuto | unloadAll
  | updateAll | terminate | report | ignored => cases h

end Movable

/-- Every file that a request executes, renames, from and to, or removes lies strictly below the
package path, in every state that the thread can be in, if and only if no name that it deletes leads
out of the package directory. A name with a NUL is refused. -/
theorem commands_stay_inside_iff [Inhabited F] (π : Platform F) (request : Request) :
    (∀ t, Reachable π (fun _ ↦ True) (fun _ _ ↦ True) t → t.status = .running →
      (∀ name ∈ request.executes π t.state, ∀ ext,
        StrictlyBelow π.packagePath (candidate π name ext)) ∧
      ∀ path ∈ request.touches π t.state, StrictlyBelow π.packagePath path) ↔
    ∀ fileName ∈ request.deletes, nul ∉ fileName → StaysInside π fileName := by
  constructor
  · intro h fileName hname hnul
    have hboot : Reachable π (fun _ ↦ True) (fun _ _ ↦ True)
        (boot π (movableFile π default fileName) none) := reachable_boot π trivial none
    obtain ⟨-, htouched⟩ := h _ hboot rfl
    have hfs : (boot π (movableFile π default fileName) none).state.fs =
        movableFile π default fileName := rfl
    have hl (name : Str) : ¬ (boot π (movableFile π default fileName) none).state.Loaded name :=
      AList.notMem_empty name
    obtain ⟨hsrc, hdst⟩ := mem_touches_movable hname hnul hfs hl
    rw [staysInside_iff fileName .py]
    exact ⟨htouched _ hsrc, htouched _ hdst⟩
  · intro h t ht hrunning
    constructor
    · intro name hname ext
      exact candidate_below (executes_under hname) ext
    · intro path hpath
      obtain ⟨fileName, hname, hnul, ext, rfl | rfl⟩ := mem_touches hpath
      · exact ((staysInside_iff fileName ext).mp (h fileName hname hnul)).1
      · exact ((staysInside_iff fileName ext).mp (h fileName hname hnul)).2

/-- A package name that leads to the parent of the package directory. -/
theorem delete_leaves_package_path :
    Reachable scriptPlatform (fun _ ↦ True) (fun _ _ ↦ True)
      (boot scriptPlatform
        (movableFile scriptPlatform (.standard "1".toList [] .ret none) "../x".toList) none) ∧
    Request.touches scriptPlatform
      (boot scriptPlatform
        (movableFile scriptPlatform (.standard "1".toList [] .ret none) "../x".toList) none).state
      (parseMessage (words "delete ../x")) = ["/x.py".toList, "/p/x.py".toList] ∧
    ¬ StrictlyBelow scriptPlatform.packagePath "/x.py".toList := by
  refine ⟨reachable_boot scriptPlatform trivial none, ?_, ?_⟩
  · decide
  · decide

end Liota.PackageManager
