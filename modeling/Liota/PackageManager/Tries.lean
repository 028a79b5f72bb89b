import Liota.PackageManager.LoadTermination
import Liota.PackageManager.UnloadExact

namespace Liota.PackageManager

open Python Python.Computation Python.Text Relation

variable {F : Type} {π : Platform F}

abbrev makeCall (π : Platform F) (call : Call) : Manager F (Option (PackageRecord F)) :=
  packageLoad π call.name call.checksum call.autoload call.ext

/-- The effect of making calls one after the other, except those for loaded packages. -/
inductive Tries (π : Platform F) : List Call → State F → State F → Prop
  | done (s : State F) : Tries π [] s s
  | skipped {call : Call} {calls : List Call} {s t : State F} (hl : s.Loaded call.name)
      (h : Tries π calls s t) : Tries π (call :: calls) s t
  | made {call : Call} {calls : List Call} {s t : State F} (hl : ¬ s.Loaded call.name)
      (h : Tries π calls (makeCall π call s).2 t) : Tries π (call :: calls) s t

theorem Tries.append {calls calls' : List Call} {s t u : State F} (h : Tries π calls s t)
    (h' : Tries π calls' t u) : Tries π (calls ++ calls') s u := by
  induction h with
  | done => exact h'
  | skipped hl _ ih => exact .skipped hl (ih h')
  | made hl _ ih => exact .made hl (ih h')

theorem Tries.steps {calls : List Call} {s t : State F} (h : Tries π calls s t) :
    LoadSteps π [] s t := by
  induction h with
  | done => exact .refl
  | skipped _ _ ih => exact ih
  | made _ _ ih => exact (packageLoad_steps _ _ _ _ _).trans ih

def restartCall (ext : TrackItem → Option Ext) (fileName checksum : Str) (item : TrackItem) :
    Call where
  name := item.name
  checksum := some (if item.name = fileName ∧ checksum ≠ item.sha1 then checksum else item.sha1)
  autoload := false
  ext := ext item

def listCall (autoload : Bool) (entry : Str × Str) : Call := ⟨entry.1, some entry.2, autoload, none⟩

theorem reloadTracked_tries (ext : TrackItem → Option Ext) (fileName checksum : Str)
    (items : List TrackItem) (record : Option (PackageRecord F)) (s : State F) :
    ∃ pre, pre <+: items.map (restartCall ext fileName checksum) ∧
      Tries π pre s (reloadTracked (fun item sha1 ↦
        packageLoad π item.name (some sha1) false (ext item))
        fileName checksum items record s).2 := by
  induction items generalizing record s with
  | nil => exact ⟨[], List.nil_prefix, .done s⟩
  | cons item rest ih =>
    rw [reloadTracked, get_bind_apply]
    split
    · next hl =>
      obtain ⟨pre, hpre, htries⟩ := ih record s
      exact ⟨restartCall ext fileName checksum item :: pre,
        List.cons_prefix_cons.mpr ⟨rfl, hpre⟩, .skipped hl htries⟩
    · next hl =>
      have hcall : makeCall π (restartCall ext fileName checksum item) s =
          packageLoad π item.name (some (if item.name = fileName ∧ checksum ≠ item.sha1 then
            checksum else item.sha1)) false (ext item) s := rfl
      rcases hm : packageLoad π item.name (some (if item.name = fileName ∧ checksum ≠ item.sha1 then
        checksum else item.sha1)) false (ext item) s with ⟨temp | e | _, t⟩ <;> rw [hm] at hcall
      · obtain ⟨pre, hpre, htries⟩ :=
          ih (if item.name = fileName then temp <|> record else record) t
        refine ⟨restartCall ext fileName checksum item :: pre,
          List.cons_prefix_cons.mpr ⟨rfl, hpre⟩, .made hl ?_⟩
        rw [bind_ok hm, hcall]
        exact htries
      · refine ⟨[restartCall ext fileName checksum item],
          List.cons_prefix_cons.mpr ⟨rfl, List.nil_prefix⟩, .made hl ?_⟩
        rw [bind_raised hm, hcall]
        exact .done t
      · refine ⟨[restartCall ext fileName checksum item],
          List.cons_prefix_cons.mpr ⟨rfl, List.nil_prefix⟩, .made hl ?_⟩
        rw [bind_diverged hm, hcall]
        exact .done t

theorem loadListed_eq (autoload : Bool) (entry : Str × Str) (failed : List Str) (s : State F) :
    (∃ failed', (loadListed π autoload entry failed s).1 = .ok failed') ∧
      (loadListed π autoload entry failed s).2 =
        if s.Loaded entry.1 then s else (makeCall π (listCall autoload entry) s).2 := by
  have hcall : makeCall π (listCall autoload entry) s =
    packageLoad π entry.1 (some entry.2) autoload none s := rfl
  unfold loadListed Py.tryExcept
  rw [get_bind_apply]
  by_cases hl : s.Loaded entry.1
  · rw [if_pos hl, if_pos hl]
    exact ⟨⟨failed, rfl⟩, rfl⟩
  · have hterm := packageLoad_terminates (π := π) entry.1 (some entry.2) autoload none s
    rw [if_neg hl, if_neg hl, bind_apply, hcall]
    rcases hm : packageLoad π entry.1 (some entry.2) autoload none s with ⟨record | e | _, t⟩ <;>
      rw [hm] at hterm
    · exact ⟨⟨_, rfl⟩, rfl⟩
    · exact ⟨⟨failed, rfl⟩, rfl⟩
    · exact absurd rfl hterm

theorem loadListFrom_tries (autoload : Bool) (list : List (Str × Str)) (failed : List Str)
    (s : State F) :
    (∃ failed', (loadListFrom π autoload list failed s).1 = .ok failed') ∧
      Tries π (list.map (listCall autoload)) s (loadListFrom π autoload list failed s).2 := by
  induction list generalizing failed s with
  | nil => exact ⟨⟨failed, rfl⟩, .done s⟩
  | cons entry rest ih =>
    obtain ⟨⟨failed', hok⟩, hsnd⟩ := loadListed_eq (π := π) autoload entry failed s
    obtain ⟨hrest, htries⟩ := ih failed' (loadListed π autoload entry failed s).2
    rw [loadListFrom, bind_of_fst hok]
    refine ⟨hrest, ?_⟩
    rw [hsnd] at htries ⊢
    by_cases hl : s.Loaded entry.1
    · rw [if_pos hl] at htries ⊢
      exact .skipped hl htries
    · rw [if_neg hl] at htries ⊢
      exact .made hl htries

theorem packageLoadList_tries (autoload : Bool) (list : List (Str × Str)) (s : State F) :
    (∃ b, (packageLoadList π list autoload s).1 = .ok b) ∧
      Tries π (list.map (listCall autoload)) s (packageLoadList π list autoload s).2 := by
  obtain ⟨⟨failed, hok⟩, htries⟩ := loadListFrom_tries (π := π) autoload list [] s
  unfold packageLoadList
  rw [bind_of_fst hok]
  exact ⟨⟨_, rfl⟩, htries⟩

section Unload

variable {s s' : State F}

theorem packageUnload_ok (hs : Consistent s) {p : Str} (hp : s.Loaded p)
    {track track' : List TrackItem} {b : Bool}
    (h : packageUnload π p track s = (.ok (b, track'), s')) :
    Parseable s.startupList ∧ ∃ names, Enumerates s (· = p) names ∧ b = true ∧
      track' = track ++ names.map (trackItem s) ∧ s' = retireAll s names := by
  obtain rfl := (unloadFuel_ok hp h).1
  obtain ⟨hpar, hall⟩ := unloadFuel_true _ p track track' s s' hs.ranked h
  obtain ⟨names, hnames, hrun⟩ := packageUnload_eq (π := π) hs hpar hp hall track
  simp only [hrun, Prod.mk.injEq, Outcome.ok.injEq] at h
  exact ⟨hpar, names, hnames, rfl, h.1.2.symm, h.2.symm⟩

theorem unloadListFrom_ok {packages failed failed' : List Str} {track track' : List TrackItem}
    (hs : Consistent s)
    (h : unloadListFrom π packages failed track s = (.ok (failed', track'), s')) :
    ∃ names, Enumerates s (· ∈ packages) names ∧ (names ≠ [] → Parseable s.startupList) ∧
      track' = track ++ names.map (trackItem s) ∧ s' = retireAll s names := by
  induction packages generalizing failed track s with
  | nil =>
    simp only [unloadListFrom, pure_apply, Prod.mk.injEq, Outcome.ok.injEq] at h
    obtain ⟨⟨-, rfl⟩, rfl⟩ := h
    exact ⟨[], (Enumerates.empty s).congr (by simp), by simp, by simp, rfl⟩
  | cons p rest ih =>
    rw [unloadListFrom, get_bind_apply] at h
    by_cases hp : s.Loaded p
    · rw [if_pos hp] at h
      obtain ⟨⟨b, track₁⟩, t, hfirst, hrest⟩ := bind_eq_ok h
      have ht : Consistent t := by
        have hcon := covers_consistent (π := π).unload p track s hs
        rwa [hfirst] at hcon
      obtain ⟨hpar, names, hnames, -, rfl, rfl⟩ := packageUnload_ok hs hp hfirst
      obtain ⟨names', hnames', -, rfl, rfl⟩ := ih ht hrest
      have hitems : names'.map (trackItem (retireAll s names)) = names'.map (trackItem s) :=
        List.map_congr_left fun q hq ↦ hnames.trackItem_retireAll
          ((loaded_retireAll hnames.nodup q).mp (hnames'.loaded hq)).1
      refine ⟨names ++ names', (hnames.append hnames').congr (by simp), fun _ ↦ hpar, ?_, ?_⟩
      · rw [hitems, List.map_append, List.append_assoc]
      · rw [retireAll_append]
    · rw [if_neg hp] at h
      obtain ⟨names, hnames, hpar, htrack, hstate⟩ := ih hs h
      refine ⟨names, hnames.congr fun q ↦ ?_, hpar, htrack, hstate⟩
      constructor
      · rintro ⟨p', hp', hl, hup⟩
        rcases List.mem_cons.mp hp' with rfl | hp'
        · exact absurd hl hp
        · exact ⟨p', hp', hl, hup⟩
      · rintro ⟨p', hp', hl, hup⟩
        exact ⟨p', by simp [hp'], hl, hup⟩

end Unload

/-- The packages that a request unloads by name without handling exceptions. -/
def Request.Unloads : Request → Str → Prop
  | .reload fileName _ _, p => p = fileName
  | .update fileName _ _, p => p = fileName
  | .updateList packages _, p => p ∈ packages.map Prod.fst
  | .unload fileName, p => p = fileName
  | .unloadList packages, p => p ∈ packages
  | .delete fileName, p => p = fileName
  | .unloadAll, _ => True
  | .terminate, _ => True
  | _, _ => False

def Request.named : Request → List (Str × Str)
  | .load fileName checksum _ => [(fileName, checksum)]
  | .reload fileName checksum _ => [(fileName, checksum)]
  | .update fileName checksum _ => [(fileName, checksum)]
  | .loadList packages _ => packages
  | .updateList packages _ => packages
  | _ => []

/-- The calls that a request makes, if it comes to making any, and the state in which it
begins. -/
inductive Loads (s : State F) : Request → State F → List Call → Prop
  | load (fileName checksum : Str) (autoload : Bool) :
      Loads s (.load fileName checksum autoload) s [listCall autoload (fileName, checksum)]
  | loadList (packages : List (Str × Str)) (autoload : Bool) :
      Loads s (.loadList packages autoload) s (packages.map (listCall autoload))
  | reload {fileName : Str} (checksum : Str) (autoload : Bool) {names : List Str}
      (hp : s.Loaded fileName) (h : Enumerates s (· = fileName) names) :
      Loads s (.reload fileName checksum autoload) (retireAll s names)
        ((names.map (trackItem s)).reverse.map
          (restartCall (fun item ↦ some item.ext) fileName checksum))
  | update {fileName : Str} (checksum : Str) (autoload : Bool) {names : List Str}
      (hp : s.Loaded fileName) (h : Enumerates s (· = fileName) names) :
      Loads s (.update fileName checksum autoload) (retireAll s names)
        ((names.map (trackItem s)).reverse.map (restartCall (fun _ ↦ none) fileName checksum))
  | updateNew {fileName : Str} (checksum : Str) (autoload : Bool) (hp : ¬ s.Loaded fileName) :
      Loads s (.update fileName checksum autoload) s [listCall false (fileName, checksum)]
  | updateList (packages : List (Str × Str)) (autoload : Bool) {names : List Str}
      (h : Enumerates s (· ∈ packages.map Prod.fst) names) :
      Loads s (.updateList packages autoload) (retireAll s names)
        (packages.map (listCall autoload) ++ (names.map (trackItem s)).reverse.map fun item ↦
          listCall autoload (item.name, item.sha1))

def Request.Tried (π : Platform F) (s : State F) (request : Request) : Prop :=
  (∃ names : List Str, (perform π request s).2.trace = s.trace ++ names.map .cleanedUp) ∨
    ∃ s₁ calls pre t, Loads s request s₁ calls ∧ pre <+: calls ∧ Tries π pre s₁ t ∧
      (perform π request s).2.trace = t.trace

section Perform

variable {s : State F}

theorem packageLoad_of_loaded {name : Str} (hl : s.Loaded name) (checksum : Option Str)
    (autoload : Bool) (ext : Option Ext) :
    packageLoad π name checksum autoload ext s = (.ok none, s) := by
  have hopen : openPackage π name checksum ext s = (.ok none, s) := if_pos hl
  exact (bind_ok hopen).trans rfl

theorem tries_call (call : Call) : Tries π [call] s (makeCall π call s).2 := by
  by_cases hl : s.Loaded call.name
  · rw [makeCall, packageLoad_of_loaded hl]
    exact .skipped hl (.done s)
  · exact .made hl (.done _)

theorem trace_of_written {fileName : Str} {t u : State F}
    (h : u = t ∨ ∃ sha1, u = (writePackageIntoAutoload fileName sha1 t).2) :
    u.trace = t.trace := by
  rcases h with rfl | ⟨sha1, rfl⟩
  · rfl
  · obtain ⟨list, hlist⟩ := writePackageIntoAutoload_frame fileName sha1 t
    rw [hlist]

theorem restart_of_unload {fileName : Str} {names : List Str}
    (h : packageUnload π fileName [] s =
      (.ok (true, names.map (trackItem s)), retireAll s names))
    (load : TrackItem → Str → Manager F (Option (PackageRecord F))) (checksum : Str)
    (autoload : Bool) :
    let t := (reloadTracked load fileName checksum (names.map (trackItem s)).reverse none
      (retireAll s names)).2
    (restart π load fileName checksum autoload s).2 = t ∨
      ∃ sha1, (restart π load fileName checksum autoload s).2 =
        (writePackageIntoAutoload fileName sha1 t).2 := by
  rw [restart, bind_ok h]
  dsimp only
  rw [if_pos rfl, bind_apply]
  rcases reloadTracked load fileName checksum (names.map (trackItem s)).reverse none
    (retireAll s names) with ⟨(_ | r) | e | _, t⟩
  · exact .inl rfl
  · dsimp only
    split
    · exact .inr ⟨r.sha1, bind_pure_snd _ _ _⟩
    · exact .inl rfl
  · exact .inl rfl
  · exact .inl rfl

/-- Reload and update either fail to unload, or make some of their calls from the state in which
the packages above are gone, and may write a line in the end. -/
theorem restart_tried (hs : Consistent s) {fileName : Str} (hp : s.Loaded fileName)
    (ext : TrackItem → Option Ext) (checksum : Str) (autoload : Bool) :
    let result := restart π (fun item sha1 ↦ packageLoad π item.name (some sha1) false (ext item))
      fileName checksum autoload s
    Shrinks s result.2 ∨
      ∃ names pre t, Enumerates s (· = fileName) names ∧ Parseable s.startupList ∧
        packageUnload π fileName [] s =
          (.ok (true, names.map (trackItem s)), retireAll s names) ∧
        pre <+: (names.map (trackItem s)).reverse.map (restartCall ext fileName checksum) ∧
        Tries π pre (retireAll s names) t ∧
        (result.2 = t ∨ ∃ sha1, result.2 = (writePackageIntoAutoload fileName sha1 t).2) := by
  intro result
  have hshrinks := packageUnload_shrinks π fileName [] s
  rcases hu : packageUnload π fileName [] s with ⟨⟨b, track⟩ | e | _, t⟩
  · obtain ⟨hpar, names, hnames, rfl, rfl, rfl⟩ := packageUnload_ok hs hp hu
    obtain ⟨pre, hpre, htries⟩ := reloadTracked_tries (π := π) ext fileName checksum
      (names.map (trackItem s)).reverse none (retireAll s names)
    exact .inr ⟨names, pre, _, hnames, hpar, rfl, hpre, htries,
      restart_of_unload hu _ checksum autoload⟩
  · rw [hu] at hshrinks
    refine .inl ?_
    change Shrinks s (restart π _ fileName checksum autoload s).2
    rw [restart, bind_raised hu]
    exact hshrinks
  · rw [hu] at hshrinks
    refine .inl ?_
    change Shrinks s (restart π _ fileName checksum autoload s).2
    rw [restart, bind_diverged hu]
    exact hshrinks

theorem packageUpdateList_tries {packages : List (Str × Str)} {names : List Str} {b : Bool}
    (h : packageUnloadList π (packages.map Prod.fst) [] s =
      (.ok (b, names.map (trackItem s)), retireAll s names)) (autoload : Bool) :
    Tries π (packages.map (listCall autoload) ++ (names.map (trackItem s)).reverse.map
      fun item ↦ listCall autoload (item.name, item.sha1)) (retireAll s names)
      (packageUpdateList π packages autoload s).2 := by
  unfold packageUpdateList
  rw [bind_ok h]
  obtain ⟨⟨b', hb⟩, hload⟩ := packageLoadList_tries (π := π) autoload packages (retireAll s names)
  dsimp only
  rw [bind_of_fst hb, bind_pure_snd]
  by_cases htrack : names.map (trackItem s) = []
  · rw [if_pos htrack, htrack]
    simpa using hload
  · obtain ⟨-, hrestored⟩ := packageLoadList_tries (π := π) autoload
      ((names.map (trackItem s)).reverse.map fun item ↦ (item.name, item.sha1))
      (packageLoadList π packages autoload (retireAll s names)).2
    rw [if_neg htrack]
    rw [List.map_map] at hrestored
    exact hload.append hrestored

theorem packageUpdateList_tried (hs : Consistent s) (packages : List (Str × Str))
    (autoload : Bool) :
    Shrinks s (packageUpdateList π packages autoload s).2 ∨
      ∃ names, Enumerates s (· ∈ packages.map Prod.fst) names ∧
        (names ≠ [] → Parseable s.startupList) ∧
        Tries π (packages.map (listCall autoload) ++ (names.map (trackItem s)).reverse.map
          fun item ↦ listCall autoload (item.name, item.sha1)) (retireAll s names)
          (packageUpdateList π packages autoload s).2 := by
  have hshrinks := within_unloadListFrom Shrinks.refl Shrinks.trans (packageUnload_shrinks π)
    (packages.map Prod.fst) [] [] s
  rcases hu : unloadListFrom π (packages.map Prod.fst) [] [] s with ⟨⟨failed, track⟩ | e | _, t⟩
  · obtain ⟨names, hnames, hpar, rfl, rfl⟩ := unloadListFrom_ok hs hu
    have hlist : packageUnloadList π (packages.map Prod.fst) [] s =
        (.ok (decide (failed = []), names.map (trackItem s)), retireAll s names) :=
      (bind_ok hu).trans rfl
    exact .inr ⟨names, hnames, hpar, packageUpdateList_tries hlist autoload⟩
  · rw [hu] at hshrinks
    rw [packageUpdateList, bind_raised (show packageUnloadList π _ [] s = _ from bind_raised hu)]
    exact .inl hshrinks
  · rw [hu] at hshrinks
    rw [packageUpdateList,
      bind_diverged (show packageUnloadList π _ [] s = _ from bind_diverged hu)]
    exact .inl hshrinks

theorem perform_tried (hs : Consistent s) (request : Request) (h : request.named ≠ []) :
    request.Tried π s := by
  unfold Request.Tried
  cases request with
  | load fileName checksum autoload =>
    rw [perform, bind_pure_snd]
    exact .inr ⟨s, _, _, _, .load fileName checksum autoload, List.prefix_refl _,
      tries_call (listCall autoload (fileName, checksum)), rfl⟩
  | loadList packages autoload =>
    rw [perform, bind_pure_snd]
    exact .inr ⟨s, _, _, _, .loadList packages autoload, List.prefix_refl _,
      (packageLoadList_tries autoload packages s).2, rfl⟩
  | reload fileName checksum autoload =>
    rw [perform, bind_pure_snd, packageReload, get_bind_apply]
    by_cases hp : s.Loaded fileName
    · rw [if_pos hp]
      rcases restart_tried (π := π) hs hp (fun item ↦ some item.ext) checksum autoload with
        hleft | ⟨names, pre, t, hnames, -, -, hpre, htries, hend⟩
      · exact .inl hleft.trace
      · exact .inr ⟨_, _, pre, t, .reload checksum autoload hp hnames, hpre, htries,
          trace_of_written hend⟩
    · rw [if_neg hp]
      exact .inl ⟨[], by simp⟩
  | update fileName checksum autoload =>
    rw [perform, bind_pure_snd, packageUpdate, get_bind_apply]
    by_cases hp : s.Loaded fileName
    · rw [if_pos hp]
      rcases restart_tried (π := π) hs hp (fun _ ↦ none) checksum autoload with
        hleft | ⟨names, pre, t, hnames, -, -, hpre, htries, hend⟩
      · exact .inl hleft.trace
      · exact .inr ⟨_, _, pre, t, .update checksum autoload hp hnames, hpre, htries,
          trace_of_written hend⟩
    · rw [if_neg hp]
      exact .inr ⟨s, _, _, _, .updateNew checksum autoload hp, List.prefix_refl _,
        tries_call (listCall false (fileName, checksum)), rfl⟩
  | updateList packages autoload =>
    rw [perform, bind_pure_snd]
    rcases packageUpdateList_tried (π := π) hs packages autoload with
      hleft | ⟨names, hn, -, htries⟩
    · exact .inl hleft.trace
    · exact .inr ⟨_, _, _, _, .updateList packages autoload hn, List.prefix_refl _, htries, rfl⟩
  | unload | unloadList | delete | deleteList | loadAuto | unloadAll | updateAll | terminate
  | report | ignored => exact absurd rfl h

end Perform

end Liota.PackageManager
