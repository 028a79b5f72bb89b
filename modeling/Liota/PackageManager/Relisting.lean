import Liota.PackageManager.Pulling
import Liota.PackageManager.Survival

namespace Liota.PackageManager

open Python Python.Computation Python.Text Relation

variable {F : Type} {π : Platform F}

def Request.Removes : Request → Prop
  | .unload _ => True
  | .unloadList _ => True
  | .unloadAll => True
  | .delete _ => True
  | .deleteList _ => True
  | _ => False

/-- Every package with a line in the start-up list that is loaded after the request still has a
line then; after `terminate` also those that are not loaded. -/
def Request.KeepsLines (π : Platform F) (s : State F) (request : Request) : Prop :=
  ∀ q, Listed s.startupList q → (request ≠ .terminate → (perform π request s).2.Loaded q) →
    Listed (perform π request s).2.startupList q

/-- With `-r` a request writes the line of the package again once its own call loaded it. -/
def Request.Relists : Request → Str → Prop
  | .reload fileName _ autoload, q => autoload = true ∧ q = fileName
  | .update fileName _ autoload, q => autoload = true ∧ q = fileName
  | .updateList _ autoload, _ => autoload = true
  | _, _ => False

/-- What it takes for a line that was removed to be written again: only its own call loads the
package, no exception ends a single reload or update before its end, and no name that a batch
writes spoils the list. -/
structure Request.Rewrites (π : Platform F) (s : State F) (request : Request) (q : Str)
    (s₁ : State F) (calls : List Call) : Prop where
  unpulled : Unpulled π s₁ q calls
  tame : request.LoadsSingly → s.Follows (tame π)
  calm : request.LoadsSingly → ∀ call ∈ calls, Calm π s₁ call
  plain : ∀ call ∈ calls, call.autoload = true → Plain call.name

/-- No package that the request unloads has a line in the start-up list, unless the request
writes it again. -/
def Request.SparesLines (π : Platform F) (s : State F) (request : Request) : Prop :=
  ∀ p q, request.Unloads p → s.Loaded p → s.Up p q → Listed s.startupList q →
    request.Relists q ∧ ∀ s₁ calls, Loads s request s₁ calls → request.Rewrites π s q s₁ calls

section Calls

variable {s t u : State F}

theorem makeCall_listEffect (call : Call) (u : State F) :
    ListEffect π call u (makeCall π call u).1 (makeCall π call u).2 :=
  list_loadRule.packageLoad call.name call.checksum call.autoload call.ext u

theorem Tries.listed {calls : List Call} (h : Tries π calls s t) {q : Str}
    (hl : Listed s.startupList q) : Listed t.startupList q := by
  induction h with
  | done => exact hl
  | skipped _ _ ih => exact ih hl
  | made _ _ ih => exact ih ((makeCall_listEffect _ _).listed hl)

theorem hex_of_matches {fs : FileSystem F} (hfs : fs.All fun _ content ↦ Hex (π.sha1 content))
    {name sha1 : Str} (h : Matches π fs name sha1) : Hex sha1 := by
  obtain ⟨ext, f, hf, rfl⟩ := h
  exact hfs _ f hf ext

/-- The list can be rewritten, and the package is in it if it is loaded. -/
structure Relisted (q : Str) (u : State F) : Prop where
  parseable : Parseable u.startupList
  some : u.startupList ≠ none
  listed : u.Loaded q → Listed u.startupList q

theorem relisted_makeCall {q : Str} {call : Call}
    (hhex : u.fs.All fun _ content ↦ Hex (π.sha1 content))
    (hplain : call.autoload = true → Plain call.name) (hu : Relisted q u)
    (hq : call.name = q ∧ call.autoload = true ∨ u.Loaded q ∨ ¬ (makeCall π call u).2.Loaded q) :
    Relisted q (makeCall π call u).2 := by
  have heffect := makeCall_listEffect (π := π) call u
  have hlisted (hl : u.Loaded q) : Listed (makeCall π call u).2.startupList q :=
    heffect.listed (hu.listed hl)
  rcases heffect with ⟨hlist, hloaded⟩ | ⟨hv, hmatch, hlist, -⟩
  · refine ⟨hlist ▸ hu.parseable, hlist ▸ hu.some, fun hl ↦ ?_⟩
    rcases hq with ⟨rfl, -⟩ | hq | hq
    · exact hlisted (hloaded hl)
    · exact hlisted hq
    · exact absurd hl hq
  · have hsum := (hex_of_matches hhex hmatch).plain
    by_cases hauto : call.autoload = true
    · rw [if_pos hauto] at hlist
      have hpar := hu.parseable
      have hsome := hu.some
      rw [← hv] at hpar hsome
      refine ⟨?_, ?_, fun hl ↦ ?_⟩
      · rw [hlist]
        exact parseable_written hpar (hplain hauto) hsum
      · rw [hlist]
        exact startupList_written_ne_none _ _ hsome
      · rcases hq with ⟨rfl, -⟩ | hq | hq
        · rw [hlist]
          exact listed_written hpar (hplain hauto) hsum hsome
        · exact hlisted hq
        · exact absurd hl hq
    · rw [if_neg hauto, hv] at hlist
      refine ⟨hlist ▸ hu.parseable, hlist ▸ hu.some, fun hl ↦ ?_⟩
      rcases hq with ⟨-, h⟩ | hq | hq
      · exact absurd h hauto
      · exact hlisted hq
      · exact absurd hl hq

end Calls

section Retired

variable {s : State F} {names : List Str}

theorem listed_retireAll {q : Str} (hq : q ∉ names) (h : Listed s.startupList q) :
    Listed (retireAll s names).startupList q := by
  induction names generalizing s with
  | nil => exact h
  | cons n rest ih =>
    obtain ⟨text, htext, values, hv, hkey⟩ := h
    refine ih (fun hmem ↦ hq (by simp [hmem])) ⟨_, by rw [retire, htext]; rfl, values, ?_, hkey⟩
    rw [splitlines_delist]
    have hne : q ≠ n := fun hqn ↦ hq (by simp [hqn])
    exact List.mem_filter.mpr ⟨hv, by simpa [hkey] using hne⟩

theorem retireAll_startupList_ne_none (h : s.startupList ≠ none) :
    (retireAll s names).startupList ≠ none := by
  induction names generalizing s with
  | nil => exact h
  | cons n rest ih =>
    apply ih
    simpa [retire, delist] using h

end Retired

section Unload

variable {s : State F} {C : Str → Prop}

theorem unloadListFrom_confined (packages failed : List Str) (track : List TrackItem)
    (hC : Graph.Closed s.Edge C) (hall : ∀ p ∈ packages, s.Loaded p → C p) :
    Confined C s (unloadListFrom π packages failed track s).2 := by
  induction packages generalizing failed track s with
  | nil => exact Confined.refl s
  | cons p rest ih =>
    rw [unloadListFrom, get_bind_apply]
    by_cases hp : s.Loaded p
    · have hfirst : Confined C s (packageUnload π p track s).2 :=
        unloadFuel_confined _ p track s hC (hall p (by simp) hp)
      have hshrinks := packageUnload_shrinks π p track s
      rw [if_pos hp, bind_apply]
      rcases hu : packageUnload π p track s with ⟨⟨b, track'⟩ | e | _, t⟩ <;>
        rw [hu] at hfirst hshrinks
      · have hrest := ih (if b then failed else failed ++ [p]) track' (hshrinks.closed hC)
          fun q hq hl ↦ hall q (by simp [hq]) (hshrinks.loaded hl)
        exact Confined.trans _ _ _ hfirst hrest
      · exact hfirst
      · exact hfirst
    · rw [if_neg hp]
      exact ih failed track hC fun q hq ↦ hall q (by simp [hq])

end Unload

section Restart

variable {s : State F}

theorem reloadTracked_record (ext : TrackItem → Option Ext) (fileName checksum : Str)
    (items : List TrackItem) (hitems : ∀ item ∈ items, item.name ≠ fileName)
    (record r : Option (PackageRecord F)) {t : State F}
    (h : reloadTracked (fun item sha1 ↦ packageLoad π item.name (some sha1) false (ext item))
      fileName checksum items record s = (.ok r, t)) : r = record := by
  induction items generalizing s with
  | nil =>
    obtain ⟨h, -⟩ := Prod.mk.inj h
    exact (Outcome.ok.inj h).symm
  | cons item rest ih =>
    have hrest : ∀ item ∈ rest, item.name ≠ fileName := fun x hx ↦ hitems x (by simp [hx])
    rw [reloadTracked, get_bind_apply] at h
    split at h
    · exact ih hrest h
    · obtain ⟨temp, u, -, hu⟩ := bind_eq_ok h
      rw [if_neg (hitems item (by simp))] at hu
      exact ih hrest hu

/-- Where its own call is the only one that loads the package and no call raises, the loop in
reload and update returns a record for the package if it is loaded in the end. -/
theorem reloadTracked_returns (htame : s.Follows (tame π)) {p : Str} {above : List Str}
    (hnodup : (above ++ [p]).Nodup) (ext : TrackItem → Option Ext) (checksum : Str)
    (hpull : Unpulled π (retireAll s (above ++ [p])) p
      (((above ++ [p]).map (trackItem s)).reverse.map (restartCall ext p checksum)))
    (hcalm : ∀ call ∈ ((above ++ [p]).map (trackItem s)).reverse.map (restartCall ext p checksum),
      Calm π (retireAll s (above ++ [p])) call) :
    ∃ r v, reloadTracked (fun item sha1 ↦ packageLoad π item.name (some sha1) false (ext item))
        p checksum ((above ++ [p]).map (trackItem s)).reverse none (retireAll s (above ++ [p])) =
        (.ok r, v) ∧ v.startupList = (retireAll s (above ++ [p])).startupList ∧
      (v.Loaded p → ∃ r₀, r = some r₀ ∧ Matches π s.fs p r₀.sha1) := by
  have hname (item : TrackItem) (h : item ∈ (above.map (trackItem s)).reverse) : item.name ≠ p := by
    obtain ⟨q, hq, rfl⟩ := List.mem_map.mp (List.mem_reverse.mp h)
    rw [trackItem_name]
    exact (List.nodup_append.mp hnodup).2.2 q hq p (by simp)
  rw [List.map_append, List.map_singleton, List.reverse_append, List.reverse_singleton,
    List.singleton_append] at hpull hcalm ⊢
  rw [List.map_cons] at hpull hcalm
  have hgone : ¬ (retireAll s (above ++ [p])).Loaded p := fun hl ↦
    ((loaded_retireAll hnodup p).mp hl).1 (by simp)
  have hfollows := follows_retireAll htame hnodup
  obtain ⟨r, u, hown, hfu, heffect⟩ := makeCall_ok .refl hfollows
    (hcalm (restartCall ext p checksum (trackItem s p)) (by simp)) (by simp [restartCall])
  have hsteps : LoadSteps π [] (retireAll s (above ++ [p])) u := by
    have h := packageLoad_steps (π := π) (restartCall ext p checksum (trackItem s p)).name
      (restartCall ext p checksum (trackItem s p)).checksum false
      (restartCall ext p checksum (trackItem s p)).ext (retireAll s (above ++ [p]))
    change LoadSteps π [] _ (makeCall π (restartCall ext p checksum (trackItem s p)) _).2 at h
    rwa [hown] at h
  obtain ⟨r', v, hrest, hlist⟩ := reloadTracked_ok ext p checksum (above.map (trackItem s)).reverse
    (r <|> none) hsteps hfu fun call hc ↦ hcalm call (by simp at hc ⊢; exact .inr hc)
  have hloop : reloadTracked (fun item sha1 ↦ packageLoad π item.name (some sha1) false (ext item))
      p checksum (trackItem s p :: (above.map (trackItem s)).reverse) none
      (retireAll s (above ++ [p])) = (.ok r', v) := by
    rw [reloadTracked, get_bind_apply, trackItem_name, if_neg hgone]
    rw [restartCall, makeCall, trackItem_name] at hown
    rw [bind_ok hown, if_pos rfl]
    exact hrest
  have hrecord := reloadTracked_record ext p checksum _ hname _ _ hrest
  refine ⟨r', v, hloop, ?_, fun hl ↦ ?_⟩
  · rw [hlist]
    exact heffect.startupList rfl
  cases heffect with
  | unchanged _ hloaded =>
    have hnu : ¬ u.Loaded p := by
      rw [restartCall, trackItem_name] at hloaded
      exact fun hl ↦ hgone (hloaded hl)
    obtain ⟨pre, hpre, htries⟩ := reloadTracked_tries (π := π) ext p checksum
      (above.map (trackItem s)).reverse (r <|> none) u
    rw [hrest] at htries
    have hpull' : Unpulled π (retireAll s (above ++ [p])) p
        ([restartCall ext p checksum (trackItem s p)] ++ pre) :=
      hpull.mono (List.cons_prefix_cons.mpr ⟨rfl, hpre⟩)
    refine absurd hl (htries.unpulled (R := fun a b ↦ ¬ a.Loaded p → ¬ b.Loaded p) (fun _ ↦ id)
      (fun _ _ _ h h' hn ↦ h' (h hn)) hpull' hsteps ?_ ?_ ?_ hnu)
    · intro own hmem hname' hcertain
      have hload := makeCall_certainlyLoads .refl
        (by rw [List.mem_singleton.mp hmem, restartCall, trackItem_name]; exact hgone) hcertain
      rw [List.mem_singleton.mp hmem, hown, restartCall, trackItem_name] at hload
      exact hload
    · intro call hmem a _ _ heq
      obtain ⟨item, hi, rfl⟩ := List.mem_map.mp (hpre.subset hmem)
      exact absurd heq (hname item hi)
    · intro call _ a ha hn hne hor hna
      exact hor.elim (fun hl ↦ absurd hl hna) fun hnever ↦ makeCall_neverPulls ha hn hne hnever hna
  | recorded hw hmatch hlist' ho =>
    obtain ⟨-, hfs, -, -⟩ := frame_retireAll s (above ++ [p])
    rw [hfs, restartCall, trackItem_name] at hmatch
    obtain rfl := Outcome.ok.inj (ho rfl)
    exact ⟨_, hrecord, hmatch⟩

theorem restart_relists (htame : s.Follows (tame π))
    (hhex : s.fs.All fun _ content ↦ Hex (π.sha1 content)) {p : Str} (hp : s.Loaded p)
    (hlisted : Listed s.startupList p) (ext : TrackItem → Option Ext) (checksum : Str)
    {names : List Str} (hnames : Enumerates s (· = p) names)
    (hrun : packageUnload π p [] s = (.ok (true, names.map (trackItem s)), retireAll s names))
    (hpar : Parseable s.startupList)
    (hpull : Unpulled π (retireAll s names) p
      ((names.map (trackItem s)).reverse.map (restartCall ext p checksum)))
    (hcalm : ∀ call ∈ (names.map (trackItem s)).reverse.map (restartCall ext p checksum),
      Calm π (retireAll s names) call) :
    let t := (restart π (fun item sha1 ↦ packageLoad π item.name (some sha1) false (ext item))
      p checksum true s).2
    t.Loaded p → Listed t.startupList p := by
  intro t
  obtain ⟨above, rfl⟩ := hnames.eq_concat hp
  obtain ⟨r, v, hloop, hlist, hrecord⟩ :=
    reloadTracked_returns htame hnames.nodup ext checksum hpull hcalm
  change (restart π _ p checksum true s).2.Loaded p →
    Listed (restart π _ p checksum true s).2.startupList p
  rw [restart, bind_ok hrun]
  dsimp only
  rw [if_pos rfl, bind_ok hloop]
  cases r with
  | none =>
    intro hl
    obtain ⟨r₀, hr₀, -⟩ := hrecord hl
    cases hr₀
  | some r =>
    intro hl
    have hl' : v.Loaded p := by simpa [bind_pure_snd] using hl
    obtain ⟨r₀, hr₀, hmatch⟩ := hrecord hl'
    obtain rfl := Option.some.inj hr₀
    have hwritten := listed_written (s := v) (by rw [hlist]; exact parseable_retireAll hpar _)
      hlisted.plain (hex_of_matches hhex hmatch).plain
      (by
        rw [hlist]
        obtain ⟨text, htext, -⟩ := hlisted
        exact retireAll_startupList_ne_none (by simp [htext]))
    simpa [bind_pure_snd] using hwritten

end Restart

section Perform

variable {s : State F}

theorem restart_keepsLines (hs : Consistent s)
    (hhex : s.fs.All fun _ content ↦ Hex (π.sha1 content)) {p : Str} (hp : s.Loaded p)
    (ext : TrackItem → Option Ext) (checksum : Str) (autoload : Bool)
    (hspare : ∀ q, s.Up p q → Listed s.startupList q → (autoload = true ∧ q = p) ∧
      ∀ names, Enumerates s (· = p) names → s.Follows (tame π) ∧
        Unpulled π (retireAll s names) q
          ((names.map (trackItem s)).reverse.map (restartCall ext p checksum)) ∧
        ∀ call ∈ (names.map (trackItem s)).reverse.map (restartCall ext p checksum),
          Calm π (retireAll s names) call)
    {q : Str} (hq : Listed s.startupList q) :
    let t := (restart π (fun item sha1 ↦ packageLoad π item.name (some sha1) false (ext item))
      p checksum autoload s).2
    t.Loaded q → Listed t.startupList q := by
  intro t hl
  rcases restart_tried (π := π) hs hp ext checksum autoload with
    hshrinks | ⟨names, pre, u, hnames, hpar, hrun, -, htries, hend⟩
  · exact hshrinks.listed q hl hq
  by_cases hup : s.Up p q
  · obtain ⟨⟨rfl, rfl⟩, hcalls⟩ := hspare q hup hq
    obtain ⟨htame, hpull, hcalm⟩ := hcalls names hnames
    exact restart_relists htame hhex hp hq ext checksum hnames hrun hpar hpull hcalm hl
  · have hmem : q ∉ names := by
      intro h
      obtain ⟨p', rfl, -, hup'⟩ := (hnames.mem q).mp h
      exact hup hup'
    have hlisted := htries.listed (listed_retireAll hmem hq)
    change t = u ∨ ∃ sha1, t = _ at hend
    rcases hend with hend | ⟨sha1, hend⟩
    · rw [hend]
      exact hlisted
    · rw [hend]
      exact listed_write p sha1 hlisted

theorem packageUpdateList_keepsLines (hs : Consistent s)
    (hhex : s.fs.All fun _ content ↦ Hex (π.sha1 content)) (packages : List (Str × Str))
    (autoload : Bool)
    (hspare : ∀ p q, p ∈ packages.map Prod.fst → s.Loaded p → s.Up p q →
      Listed s.startupList q → autoload = true ∧
        ∀ names, Enumerates s (· ∈ packages.map Prod.fst) names →
          let calls := packages.map (listCall autoload) ++ (names.map (trackItem s)).reverse.map
            fun item ↦ listCall autoload (item.name, item.sha1)
          Unpulled π (retireAll s names) q calls ∧
            ∀ call ∈ calls, call.autoload = true → Plain call.name)
    {q : Str} (hq : Listed s.startupList q)
    (hl : (packageUpdateList π packages autoload s).2.Loaded q) :
    Listed (packageUpdateList π packages autoload s).2.startupList q := by
  have hstate := packageUpdateList_tried (π := π) hs packages autoload
  generalize (packageUpdateList π packages autoload s).2 = t at hl hstate ⊢
  rcases hstate with hshrinks | ⟨names, hnames, hpar, htries⟩
  · exact hshrinks.listed q hl hq
  by_cases hmem : q ∈ names
  · obtain ⟨p, hp, hlp, hup⟩ := (hnames.mem q).mp hmem
    obtain ⟨rfl, hcalls⟩ := hspare p q hp hlp hup hq
    obtain ⟨hpull, hplain⟩ := hcalls names hnames
    obtain ⟨-, hfs, -, -⟩ := frame_retireAll s names
    have hstart : Relisted q (retireAll s names) := by
      refine ⟨parseable_retireAll (hpar (List.ne_nil_of_mem hmem)) names, ?_, fun hl ↦ ?_⟩
      · obtain ⟨text, htext, -⟩ := hq
        exact retireAll_startupList_ne_none (by simp [htext])
      · exact absurd hmem ((loaded_retireAll hnames.nodup q).mp hl).1
    have hfiles {u : State F} (hu : LoadSteps π [] (retireAll s names) u) :
        u.fs.All fun _ content ↦ Hex (π.sha1 content) := by
      rw [hu.fs, hfs]
      exact hhex
    have hauto : ∀ call ∈ packages.map (listCall true) ++ (names.map (trackItem s)).reverse.map
        fun item ↦ listCall true (item.name, item.sha1), call.autoload = true := by
      intro call hc
      rcases List.mem_append.mp hc with hc | hc <;> obtain ⟨entry, -, rfl⟩ := List.mem_map.mp hc <;>
        rfl
    have hpull' : Unpulled π (retireAll s names) q ([] ++ (packages.map (listCall true) ++
      (names.map (trackItem s)).reverse.map fun item ↦ listCall true (item.name, item.sha1))) :=
      hpull
    have hend : Relisted q t := by
      refine htries.unpulled (R := fun a b ↦ Relisted q a → Relisted q b) (fun _ ↦ id)
        (fun _ _ _ h h' ha ↦ h' (h ha)) hpull' .refl (by simp) ?_ ?_ hstart
      · intro call hc u hu _ hname hrel
        exact relisted_makeCall (hfiles hu) (hplain call hc) hrel (.inl ⟨hname, hauto call hc⟩)
      · intro call hc u hu hn hne hor hrel
        apply relisted_makeCall (hfiles hu) (hplain call hc) hrel
        by_cases hlu : u.Loaded q
        · exact .inr (.inl hlu)
        · exact .inr (.inr (makeCall_neverPulls hu hn hne (hor.resolve_left hlu) hlu))
    exact hend.listed hl
  · exact htries.listed (listed_retireAll hmem hq)

end Perform

/-- Packages keep their lines in the start-up list through every request that spares them. -/
theorem startup_lines_survive {files : FileSystem F → Prop}
    {condition : State F → Request → Prop} {t : Thread F} (ht : Reachable π files condition t)
    (hhex : t.state.fs.All fun _ content ↦ Hex (π.sha1 content)) {request : Request}
    (hremoves : ¬ request.Removes) (h : request.SparesLines π t.state) :
    request.KeepsLines π t.state := by
  intro q hq hloaded
  cases request with
  | load fileName checksum autoload =>
    rw [perform, bind_pure_snd]
    exact (makeCall_listEffect (listCall autoload (fileName, checksum)) t.state).listed hq
  | reload fileName checksum autoload =>
    have hl := hloaded (by simp)
    rw [perform, bind_pure_snd, packageReload, get_bind_apply] at hl ⊢
    by_cases hp : t.state.Loaded fileName
    · rw [if_pos hp] at hl ⊢
      refine restart_keepsLines ht.consistent hhex hp (fun item ↦ some item.ext) checksum autoload
        (fun x hup hx ↦ ?_) hq hl
      obtain ⟨hrelist, hcalls⟩ := h fileName x rfl hp hup hx
      refine ⟨hrelist, fun names hnames ↦ ?_⟩
      have hrewrites := hcalls _ _ (.reload checksum autoload hp hnames)
      exact ⟨hrewrites.tame trivial, hrewrites.unpulled, hrewrites.calm trivial⟩
    · rw [if_neg hp]
      exact hq
  | update fileName checksum autoload =>
    have hl := hloaded (by simp)
    rw [perform, bind_pure_snd, packageUpdate, get_bind_apply] at hl ⊢
    by_cases hp : t.state.Loaded fileName
    · rw [if_pos hp] at hl ⊢
      refine restart_keepsLines ht.consistent hhex hp (fun _ ↦ none) checksum autoload
        (fun x hup hx ↦ ?_) hq hl
      obtain ⟨hrelist, hcalls⟩ := h fileName x rfl hp hup hx
      refine ⟨hrelist, fun names hnames ↦ ?_⟩
      have hrewrites := hcalls _ _ (.update checksum autoload hp hnames)
      exact ⟨hrewrites.tame trivial, hrewrites.unpulled, hrewrites.calm trivial⟩
    · rw [if_neg hp]
      exact (makeCall_listEffect (listCall false (fileName, checksum)) t.state).listed hq
  | loadList packages autoload =>
    rw [perform, bind_pure_snd]
    exact (packageLoadList_tries autoload packages t.state).2.listed hq
  | updateList packages autoload =>
    have hl := hloaded (by simp)
    rw [perform, bind_pure_snd] at hl ⊢
    refine packageUpdateList_keepsLines ht.consistent hhex packages autoload
      (fun p x hp hlp hup hx ↦ ?_) hq hl
    obtain ⟨hauto, hcalls⟩ := h p x hp hlp hup hx
    refine ⟨hauto, fun names hnames ↦ ?_⟩
    have hrewrites := hcalls _ _ (.updateList packages autoload hnames)
    exact ⟨hrewrites.unpulled, hrewrites.plain⟩
  | loadAuto =>
    rw [perform, bind_pure_snd]
    unfold packageLoadAuto
    split
    · exact hq
    · split
      · exact hq
      · next list _ =>
        split
        · exact hq
        · rw [bind_pure_snd]
          exact (packageLoadList_tries false list t.state).2.listed hq
  | terminate =>
    rw [perform, bind_pure_snd, terminateAll, get_bind_apply, bind_pure_snd, packageUnloadList,
      bind_pure_snd]
    refine (unloadListFrom_confined (C := t.state.Loaded) (loadedNames π t.state) [] []
      (fun a b _ hab ↦ hab.2) fun p _ hp ↦ hp).listed q (fun hl ↦ ?_) hq
    exact (h q q trivial hl .refl hq).1
  | report what =>
    rw [perform, report_snd]
    exact hq
  | updateAll | ignored => exact hq
  | unload | unloadList | delete | deleteList | unloadAll => exact absurd trivial hremoves

/-- Checksums are hexadecimal digests. -/
def checksummed (π : Platform F) : Convention π where
  file _ content := Hex (π.sha1 content)
  module _ := True
  list _ := True
  object _ := True
  empty := trivial
  initialise _ _ := trivial
  assigns _ _ := trivial
  dependencies _ _ := trivial
  constructs _ _ _ := trivial

/-- The thread whose start-up list has a line for `d`, after it loaded `d` and then `p`. -/
def listedThread : Thread Script :=
  scriptThread pairScripts (some "d:1\n".toList) ["load p 2"]

theorem checksummed_pairScripts :
    (scriptFiles pairScripts).All (checksummed scriptPlatform).file := by
  intro path f hf ext
  obtain ⟨q, hq, heq⟩ := mem_scriptFiles hf
  rw [heq]
  simp only [pairScripts, List.mem_cons, List.not_mem_nil, or_false] at hq
  rcases hq with rfl | rfl
  · exact (by decide : Hex "1".toList)
  · exact (by decide : Hex "2".toList)

theorem startup_lines_survive_pair :
    listedThread.state.Loaded "d".toList ∧ Listed listedThread.state.startupList "d".toList ∧
      (parseMessage (words "reload p 2")).KeepsLines scriptPlatform listedThread.state := by
  have hlist : listedThread.state.startupList = some "d:1\n".toList := by decide +kernel
  have hlines : splitlines "d:1\n".toList = ["d:1".toList] := by decide +kernel
  have hkey : lineKey "d:1".toList = some "d".toList := by decide +kernel
  have hmsg : parseMessage (words "reload p 2") = .reload "p".toList "2".toList false := by
    decide +kernel
  have hreach : Reachable scriptPlatform (FileSystem.All (checksummed scriptPlatform).file)
      (fun _ _ ↦ True) listedThread := reachable_scriptThread checksummed_pairScripts _ _
  refine ⟨by decide +kernel, ⟨_, hlist, _, by rw [hlines]; simp, hkey⟩, ?_⟩
  rw [hmsg]
  refine startup_lines_survive hreach hreach.follows.files id fun p q hp _ hup hq ↦ ?_
  obtain rfl : p = "p".toList := hp
  have hq' : q = "d".toList := by
    obtain ⟨text, htext, values, hv, hkey'⟩ := hq
    obtain rfl := Option.some.inj (hlist.symm.trans htext)
    rw [hlines, List.mem_singleton] at hv
    rw [hv, hkey] at hkey'
    exact (Option.some.inj hkey').symm
  have hnone : listedThread.state.dependents "p".toList = [] := by decide +kernel
  rcases ReflTransGen.cases_head hup with heq | ⟨x, he, -⟩
  · rw [← heq] at hq'
    exact absurd hq' (by decide)
  · have hx := he.1
    rw [hnone] at hx
    simp at hx

/-- Reloading a listed package takes it from the list. -/
theorem reload_loses_line :
    ¬ ∀ t, Reachable scriptPlatform (fun _ ↦ True) (fun _ _ ↦ True) t →
      ∀ msg : List Str, msg ≠ [] → ¬ (parseMessage msg).Removes →
        (parseMessage msg).KeepsLines scriptPlatform t.state := by
  intro h
  let t := scriptThread pairScripts (some "p:2\n".toList) []
  have hmsg : parseMessage (words "reload p 2") = .reload "p".toList "2".toList false := by
    decide +kernel
  have hkeep := h t (reachable_scriptThread trivial _ _) (words "reload p 2") (by decide +kernel)
    (by rw [hmsg]; exact id)
  have hlist : t.state.startupList = some "p:2\n".toList := by decide +kernel
  have hend : (perform scriptPlatform (parseMessage (words "reload p 2")) t.state).2.startupList =
      some [] := by decide +kernel
  obtain ⟨text, htext, values, hv, -⟩ := hkeep "p".toList
    ⟨_, hlist, "p:2".toList, by decide +kernel, by decide +kernel⟩ fun _ ↦ by decide +kernel
  rw [hend] at htext
  rw [← Option.some.inj htext] at hv
  simp at hv

end Liota.PackageManager
