import Liota.PackageManager.RoundTrip

namespace Liota.PackageManager

open Python Python.Computation Python.Text Relation

variable {F : Type} {π : Platform F}

theorem packageLoad_rejected {name c : Str} (autoload : Bool) (ext : Option Ext) {s : State F}
    (hreadable : ∃ sums, checksumList π s.fs name extensions = .ok sums)
    (hc : ¬ Matches π s.fs name c) :
    packageLoad π name (some c) autoload ext s = (.ok none, s) := by
  obtain ⟨sums, hsums⟩ := hreadable
  have hverify (path : Str) : verifyIntegrity π s.fs path sums (some c) = .ok none := by
    have hnone : sums.find? (· = c) = none := by
      refine List.find?_eq_none.mpr fun x hx hxc ↦ hc ?_
      exact matches_of_mem_checksumList hsums (of_decide_eq_true hxc ▸ hx)
    rw [verifyIntegrity, hnone]
  have hopen : openPackage π name (some c) ext s = (.ok none, s) := by
    unfold openPackage packageChkExists
    rw [hsums]
    by_cases hl : s.Loaded name
    · rw [if_pos hl]
    · by_cases hu : UnderPackagePath π name
      · rw [if_neg hl, if_pos hu]
        rcases hext : fileExt π s.fs name ext with _ | ext'
        · rfl
        · simp only [Option.map_some, hverify]
      · rw [if_neg hl, if_neg hu]
  exact (bind_ok hopen).trans rfl

/-- The same packages are loaded, and `p` has the same recorded checksum. -/
def Unaffected (s s' : State F) (p : Str) : Prop :=
  (∀ q, s'.Loaded q ↔ s.Loaded q) ∧ (s'.record p).map (·.sha1) = (s.record p).map (·.sha1)

section Restart

variable {condition : State F → Request → Prop} {t : Thread F}

theorem reloadTracked_rejected (load : TrackItem → Str → Manager F (Option (PackageRecord F)))
    (item : TrackItem) {c : Str} (hne : c ≠ item.sha1) {s : State F} (hn : ¬ s.Loaded item.name)
    (hload : load item c s = (.ok none, s)) (items : List TrackItem) :
    reloadTracked load item.name c (item :: items) none s =
      reloadTracked load item.name c items none s := by
  rw [reloadTracked, get_bind_apply, if_neg hn, if_pos ⟨rfl, hne⟩, bind_ok hload, if_pos rfl]
  rfl

/-- Only `p` is pulled in, and only if a package records it as a dependency. -/
def PulledBack (s : State F) (p d : Str) : Prop := d = p ∧ ∃ q, p ∈ s.dependencies q

variable (ht : Reachable π (FileSystem.Documented π) condition t) {p : Str}
  {rp : PackageRecord F} (hp : t.state.record p = some rp) {above : List Str}
  (hnames : Enumerates t.state (· = p) (above ++ [p]))
  (hrepeatable : Repeatable π t.state.Recorded (fun _ _ ↦ True) t.state (· = p))
  (hapart : t.state.ModulesApart (· = p))
  (hback : (∃ q, p ∈ t.state.dependencies q) →
    FoundFirst π t.state.fs p rp.ext rp.source ∧ rp.sha1 = π.sha1 rp.source)
include ht hp hnames hrepeatable hapart hback

theorem Reachable.restorable_rejected : ∃ rank, Restorable π t.state.Recorded t.state
    (retireAll t.state (above ++ [p])) (fun _ _ ↦ True) (PulledBack t.state p) rank := by
  refine ht.restorable hnames (PulledBack t.state p) (fun q hq r hr ↦ ?_) ?_ ?_
  · exact ⟨hrepeatable.repeats _ hnames q hq r hr, r, hr, rfl, rfl⟩
  · rintro d ⟨rfl, hdep⟩
    have hd : d ∈ above ++ [d] := by simp
    refine ⟨hd, fun r hr ↦ ?_⟩
    obtain rfl := Option.some.inj (hr.symm.trans hp)
    refine ⟨hrepeatable.unchanged d r ((hnames.mem d).mp hd) hr, (hback hdep).1, ?_⟩
    intro e he hen
    obtain ⟨x, hx, -, hup⟩ := (hnames.mem e).mp hen
    have he' : e ∈ t.state.dependencies d := by rwa [State.dependencies_of_record hr]
    have hedge : t.state.Edge e d := ⟨ht.loaded_dependency he', State.loaded_of_record hr⟩
    exact absurd (hx ▸ hup) (ht.consistent.ranked.irrefl hedge)
  · rintro d ⟨rfl, -⟩ y hy hm
    exact hapart y d ((hnames.mem y).mp hy) ((hnames.mem d).mp (by simp)) hm

theorem Reachable.restores_rejected (c : Str) (ext : TrackItem → Option Ext)
    (hfound : ∀ q r, t.state.Above (· = p) q → q ≠ p → t.state.record q = some r →
      foundFile π t.state.fs q (ext ⟨q, r.ext, r.sha1⟩) = some (r.ext, r.source)) :
    let u := (reloadTracked (fun item sha1 ↦
      packageLoad π item.name (some sha1) false (ext item)) p c
      (above.reverse.map (trackItem t.state)) none (retireAll t.state (above ++ [p]))).2
    Restores π t.state.Recorded t.state (retireAll t.state (above ++ [p])) (fun _ _ ↦ True)
      (fun call ↦ call.name ∈ above ∨ Pulled (PulledBack t.state p) call) []
      (retireAll t.state (above ++ [p])) u ∧ ∀ q ∈ above, u.Loaded q := by
  intro u
  obtain ⟨rank, hrestorable⟩ :=
    ht.restorable_rejected hp hnames hrepeatable hapart hback
  have hpabove : p ∉ above := by
    have hnodup := List.nodup_append.mp hnames.nodup
    exact fun h ↦ hnodup.2.2 p h p List.mem_cons_self rfl
  have horder := ht.order_reverse hnames
  rw [List.reverse_append] at horder
  have hcalls (q : Str) (hq : q ∈ above.reverse) : ∃ r, Reopens π t.state
      (retireAll t.state (above ++ [p])) (restartCall ext p c (trackItem t.state q)) r := by
    have hq := List.mem_reverse.mp hq
    have hqn : q ∈ above ++ [p] := List.mem_append_left _ hq
    have hqp : q ≠ p := fun h ↦ hpabove (h ▸ hq)
    obtain ⟨r, hr⟩ := State.loaded_iff.mp (hnames.loaded hqn)
    have habove := (hnames.mem q).mp hqn
    refine ⟨r, ?_⟩
    rw [restartCall_eq hr]
    apply ht.reopens hnames _ hqn hr (hrepeatable.unchanged q r habove hr)
      (hfound q r habove hqp hr)
    intro c' hc'
    simpa [hqp] using hc'.symm
  have hdeps (q : Str) (_ : q ∈ above.reverse) (d : Str) (hd : d ∈ t.state.dependencies q) :
      (retireAll t.state (above ++ [p])).Loaded d ∨ PulledBack t.state p d ∨
        d ∈ above.reverse := by
    rcases ht.dependency_kept hnames hd with hl | hl
    · exact .inl hl
    · rcases List.mem_append.mp hl with hl | hl
      · exact .inr (.inr (List.mem_reverse.mpr hl))
      · exact .inr (.inl ⟨List.mem_singleton.mp hl, q, List.mem_singleton.mp hl ▸ hd⟩)
  obtain ⟨hrestores, hall⟩ := hrestorable.reloadTracked_restores ext p c
    (fun call ↦ call.name ∈ above ∨ Pulled (PulledBack t.state p) call) (fun _ ↦ .inr)
    above.reverse (fun q hq ↦ .inl (by simpa using hq)) (List.pairwise_cons.mp horder).2
    hcalls none .refl hdeps
  exact ⟨hrestores, fun q hq ↦ hall q (List.mem_reverse.mpr hq)⟩

end Restart

theorem Restores.unaffected_iff {condition : State F → Request → Prop} {t : Thread F}
    (ht : Reachable π (FileSystem.Documented π) condition t) {p : Str} {rp : PackageRecord F}
    (hp : t.state.record p = some rp) {above : List Str}
    (hnames : Enumerates t.state (· = p) (above ++ [p]))
    (hback : (∃ q, p ∈ t.state.dependencies q) → rp.sha1 = π.sha1 rp.source)
    {sources : Str → Ext → F → Prop} {post : Str → List Str → Prop} {stack : List Str}
    {u v : State F}
    (h : Restores π sources t.state (retireAll t.state (above ++ [p])) post
      (fun call ↦ call.name ∈ above ∨ Pulled (PulledBack t.state p) call) stack
      (retireAll t.state (above ++ [p])) u)
    (hall : ∀ q ∈ above, u.Loaded q) (hv : Consistent v) (hsame : ∀ k, v.record k = u.record k) :
    Unaffected t.state v p ↔ ∃ q, p ∈ t.state.dependencies q := by
  have hl := State.loaded_of_record hp
  have hpn : p ∈ above ++ [p] := by simp
  have hpabove : p ∉ above := by
    have hnodup := List.nodup_append.mp hnames.nodup
    exact fun h ↦ hnodup.2.2 p h p List.mem_cons_self rfl
  have hloaded (k : Str) : v.Loaded k ↔ u.Loaded k := by
    rw [State.loaded_iff, State.loaded_iff, hsame]
  have hmade (hlu : u.Loaded p) : ∃ new, u.record p = some new ∧
      new.sha1 = π.sha1 rp.source ∧ ∃ q, p ∈ t.state.dependencies q := by
    obtain ⟨call, new, hcall, hname, hnew, hmakes, -⟩ := h.record_inside hnames hpn hp hlu
    rcases hcall with hcall | ⟨k, ⟨-, hdep⟩, rfl⟩
    · exact absurd (hname ▸ hcall) hpabove
    · exact ⟨new, hnew, hmakes.sha1, hdep⟩
  constructor
  · rintro ⟨hsets, -⟩
    obtain ⟨-, -, -, hdep⟩ := hmade ((hloaded p).mp ((hsets p).mpr hl))
    exact hdep
  · rintro ⟨q, hdep⟩
    have hedge : t.state.Edge p q :=
      ⟨ht.loaded_dependency hdep, State.loaded_of_mem_dependencies hdep⟩
    have hqn : q ∈ above ++ [p] := (hnames.mem q).mpr ⟨p, rfl, hl, .single hedge⟩
    have hqp : q ≠ p := by
      rintro rfl
      exact ht.consistent.ranked.irrefl hedge .refl
    have hq : q ∈ above := by simpa [hqp] using hqn
    obtain ⟨r, hr⟩ := State.loaded_iff.mp hedge.2
    obtain ⟨call, new, -, -, hnew, hmakes, -⟩ := h.record_inside hnames hqn hr (hall q hq)
    have hdeps : v.dependencies q = r.dependencies := by
      rw [State.dependencies_of_record (hsame q ▸ hnew), hmakes.dependencies]
    have hlp : u.Loaded p := by
      apply (hloaded p).mp
      refine State.loaded_of_mem_dependents (hv.linked q ?_ p ?_)
      · rw [hdeps]
        exact (ht.documented.records q r hr).1
      · rw [hdeps, ← State.dependencies_of_record hr]
        exact hdep
    obtain ⟨new', hnew', hsha1, -⟩ := hmade hlp
    refine ⟨fun k ↦ (hloaded k).trans (h.loaded_iff hnames (fun k hk ↦ ?_) k), ?_⟩
    · rcases List.mem_append.mp hk with hk | hk
      · exact hall k hk
      · exact List.mem_singleton.mp hk ▸ hlp
    · rw [hsame, hnew', hp, Option.map_some, Option.map_some, hsha1, hback ⟨q, hdep⟩]

/-- Reload and update with a checksum that no candidate file of the package has, where `ext` is how
the other packages are looked for. -/
theorem restart_rejected {condition : State F → Request → Prop} {t : Thread F}
    (ht : Reachable π (FileSystem.Documented π) condition t)
    (hpar : Parseable t.state.startupList) {p : Str} {rp : PackageRecord F}
    (hp : t.state.record p = some rp) {c : Str} (hc : ¬ Matches π t.state.fs p c)
    (ext : TrackItem → Option Ext) (autoload : Bool)
    (hrepeatable : Repeatable π t.state.Recorded (fun _ _ ↦ True) t.state (· = p))
    (hapart : t.state.ModulesApart (· = p))
    (hclean : ∀ q, t.state.Above (· = p) q → t.state.CleansUp q)
    (hback : (∃ q, p ∈ t.state.dependencies q) →
      FoundFirst π t.state.fs p rp.ext rp.source ∧ rp.sha1 = π.sha1 rp.source)
    (hfound : ∀ q r, t.state.Above (· = p) q → q ≠ p → t.state.record q = some r →
      foundFile π t.state.fs q (ext ⟨q, r.ext, r.sha1⟩) = some (r.ext, r.source)) :
    Unaffected t.state (restart π (fun item sha1 ↦
        packageLoad π item.name (some sha1) false (ext item)) p c autoload t.state).2 p ↔
      ∃ q, p ∈ t.state.dependencies q := by
  have hl := State.loaded_of_record hp
  obtain ⟨names, hnames, hunload⟩ := packageUnload_eq (π := π) ht.consistent hpar hl
    (fun q hup ↦ ht.documented.removable (hclean q ⟨p, rfl, hl, hup⟩)) []
  obtain ⟨above, rfl⟩ := hnames.eq_concat hl
  have hpn : p ∈ above ++ [p] := by simp
  have hun := hrepeatable.unchanged p rp ((hnames.mem p).mp hpn) hp
  have hend := restart_of_unload hunload
    (fun item sha1 ↦ packageLoad π item.name (some sha1) false (ext item)) c autoload
  have hitems : ((above ++ [p]).map (trackItem t.state)).reverse =
      ⟨p, rp.ext, rp.sha1⟩ :: above.reverse.map (trackItem t.state) := by
    simp [trackItem, hp, List.map_reverse]
  have hload : packageLoad π p (some c) false (ext ⟨p, rp.ext, rp.sha1⟩)
      (retireAll t.state (above ++ [p])) = (.ok none, retireAll t.state (above ++ [p])) := by
    apply packageLoad_rejected <;> rw [(frame_retireAll t.state (above ++ [p])).2.1]
    · exact hun.readable
    · exact hc
  have hne : c ≠ rp.sha1 := fun h ↦ hc (h ▸ hun.recorded)
  have hfirst := reloadTracked_rejected (fun item sha1 ↦
    packageLoad π item.name (some sha1) false (ext item)) ⟨p, rp.ext, rp.sha1⟩ hne
    (hnames.not_loaded_retireAll hpn) hload (above.reverse.map (trackItem t.state))
  dsimp only at hend hfirst
  rw [hitems, hfirst] at hend
  obtain ⟨hrestores, hall⟩ := ht.restores_rejected hp hnames hrepeatable hapart hback c ext hfound
  apply hrestores.unaffected_iff ht hp hnames (fun hdep ↦ (hback hdep).2) hall
  · exact (covers_consistent (π := π)).restart (fun item sha1 ↦ covers_consistent.load _ _ _ _) p
      c autoload t.state ht.consistent
  · intro k
    rcases hend with hend | ⟨sha1, hend⟩
    · rw [hend]
    · obtain ⟨list, hlist⟩ := writePackageIntoAutoload_frame p sha1 (reloadTracked
        (fun item sha1 ↦ packageLoad π item.name (some sha1) false (ext item)) p c
        (above.reverse.map (trackItem t.state)) none (retireAll t.state (above ++ [p]))).2
      rw [hend, hlist]
      rfl

/-- A rejected reload changes nothing if and only if another package records the one it names, which
is then pulled in again; so does a rejected update, where all files are found first. -/
theorem rejected_unaffected_iff {condition : State F → Request → Prop} {t : Thread F}
    (ht : Reachable π (FileSystem.Documented π) condition t)
    (hpar : Parseable t.state.startupList) {p : Str} {rp : PackageRecord F}
    (hp : t.state.record p = some rp) {c : Str} (hc : ¬ Matches π t.state.fs p c) (autoload : Bool)
    (hrepeatable : Repeatable π t.state.Recorded (fun _ _ ↦ True) t.state (· = p))
    (hapart : t.state.ModulesApart (· = p))
    (hclean : ∀ q, t.state.Above (· = p) q → t.state.CleansUp q)
    (hback : (∃ q, p ∈ t.state.dependencies q) →
      FoundFirst π t.state.fs p rp.ext rp.source ∧ rp.sha1 = π.sha1 rp.source) :
    (Unaffected t.state (perform π (.reload p c autoload) t.state).2 p ↔
      ∃ q, p ∈ t.state.dependencies q) ∧
    ((∀ q r, t.state.Above (· = p) q → q ≠ p → t.state.record q = some r →
        FoundFirst π t.state.fs q r.ext r.source) →
      (Unaffected t.state (perform π (.update p c autoload) t.state).2 p ↔
        ∃ q, p ∈ t.state.dependencies q)) := by
  have hl := State.loaded_of_record hp
  refine ⟨?_, fun hfirst ↦ ?_⟩
  · rw [perform, bind_pure_snd, packageReload, get_bind_apply, if_pos hl]
    apply restart_rejected ht hpar hp hc (fun item ↦ some item.ext) autoload hrepeatable hapart
      hclean hback
    intro q r habove _ hr
    exact (hrepeatable.unchanged q r habove hr).foundFile_forced
  · rw [perform, bind_pure_snd, packageUpdate, get_bind_apply, if_pos hl]
    exact restart_rejected ht hpar hp hc (fun _ ↦ none) autoload hrepeatable hapart hclean hback
      hfirst

/-- With `p` loaded, which depends on `d`, a rejected reload or update of `d` changes nothing. -/
theorem rejected_unaffected_iff_pair :
    let s := (scriptThread pairScripts none ["load p 2"]).state
    s.dependencies "p".toList = ["d".toList] ∧
      Unaffected s (perform scriptPlatform (.reload "d".toList "9".toList false) s).2 "d".toList ∧
      Unaffected s (perform scriptPlatform (.update "d".toList "9".toList false) s).2
        "d".toList := by
  intro s
  have hthread := scriptThread_pair
  obtain ⟨hlist, -, -, hchecksums, hapart, hexts, hcleanUps, -, hdeps, hsums, hsha1⟩ :=
    evaluated_pair
  obtain ⟨rp, hp, hrp⟩ := Option.map_eq_some_iff.mp hsha1
  obtain ⟨hrecorded, hsource⟩ := Prod.mk.inj hrp
  have hfirst (q : Str) (r : PackageRecord Script) (hr : s.record q = some r) :
      FoundFirst scriptPlatform s.fs q r.ext r.source := hthread.foundFirst hr hexts
  have hc : ¬ Matches scriptPlatform s.fs "d".toList "9".toList := fun h ↦
    absurd (mem_checksumList hsums h) (by decide)
  have hiff := rejected_unaffected_iff hthread.documented (parseable_of_none hlist)
    hp hc false (hthread.repeatable hchecksums _ _ (fun _ ↦ trivial) _)
    (modulesApart_of_keys hapart _) (fun q _ ↦ cleansUp_of_entries hcleanUps q)
    (fun _ ↦ ⟨hfirst _ rp hp, hrecorded.trans hsource.symm⟩)
  have hdep : ∃ q, "d".toList ∈ pairLoaded.dependencies q := ⟨"p".toList, by rw [hdeps]; simp⟩
  exact ⟨hdeps, hiff.1.mpr hdep, (hiff.2 fun q r _ _ hr ↦ hfirst q r hr).mpr hdep⟩

def singleLoaded : State Script := (scriptThread pairScripts none ["load d 1"]).state

theorem evaluated_single :
    singleLoaded.startupList = none ∧
    (singleLoaded.packagesLoaded.entries.all fun e ↦
      (singleLoaded.fs.file (candidate scriptPlatform e.1 e.2.ext)).map (·.content.sha1) =
        some e.2.source.sha1) ∧
    (singleLoaded.packagesLoaded.entries.all fun e ↦
      dependencyList e.2.source.defines.dependencies = .ok (some e.2.dependencies)) ∧
    (singleLoaded.packagesLoaded.entries.all fun e ↦
      (checksumList scriptPlatform singleLoaded.fs e.1 extensions).toOption.any (e.2.sha1 ∈ ·)) ∧
    (singleLoaded.packagesLoaded.keys.map moduleName).Nodup ∧
    (singleLoaded.packagesLoaded.entries.all fun e ↦
      fileExt scriptPlatform singleLoaded.fs e.1 none = some e.2.ext) ∧
    (singleLoaded.packagesLoaded.entries.all fun e ↦
      e.2.obj.cleanUp.all PyErr.isLogged) ∧
    (singleLoaded.packagesLoaded.entries.all fun e ↦ e.2.sha1 = e.2.source.sha1) ∧
    checksumList scriptPlatform singleLoaded.fs "d".toList extensions = .ok ["1".toList] ∧
    singleLoaded.Loaded "d".toList ∧
    (¬ (perform scriptPlatform (.reload "d".toList "9".toList false) singleLoaded).2.Loaded
      "d".toList) ∧
    ¬ (perform scriptPlatform (.update "d".toList "9".toList false) singleLoaded).2.Loaded
      "d".toList := by
  decide +kernel

theorem scriptThread_single : ScriptThread (· = .ret) (pairScripts.map Prod.snd)
    (scriptThread pairScripts none ["load d 1"]) where
  reachable := reachable_scriptThread (all_scriptFiles fun _ hp _ ↦ List.mem_map_of_mem hp) _ _
  runs := scriptThread_pair.runs
  distinct := scriptThread_pair.distinct
  files := evaluated_single.2.1
  dependencies := evaluated_single.2.2.1

/-- With `d` loaded alone, a rejected reload loses it, and so does a rejected update. -/
theorem rejected_restart_loses :
    ¬ ∀ t : Thread Script,
      Reachable scriptPlatform (FileSystem.Documented scriptPlatform) (fun _ _ ↦ True) t →
      Parseable t.state.startupList → ∀ p c, t.state.Loaded p →
      ¬ Matches scriptPlatform t.state.fs p c →
      Repeatable scriptPlatform t.state.Recorded (fun _ _ ↦ True) t.state (· = p) →
      (∀ q r, t.state.record q = some r →
        FoundFirst scriptPlatform t.state.fs q r.ext r.source ∧
          r.sha1 = scriptPlatform.sha1 r.source) →
      t.state.ModulesApart (· = p) → (∀ q, t.state.CleansUp q) →
      Unaffected t.state (perform scriptPlatform (.reload p c false) t.state).2 p ∨
        Unaffected t.state (perform scriptPlatform (.update p c false) t.state).2 p := by
  intro h
  have hthread := scriptThread_single
  obtain ⟨hlist, -, -, hchecksums, hapart, hfirst, hcleanUps, hown, hsums, hloaded, hreload,
    hupdate⟩ := evaluated_single
  have hunaffected := h _ hthread.documented (parseable_of_none hlist) "d".toList "9".toList
    hloaded (fun hm ↦ absurd (mem_checksumList hsums hm) (by decide))
    (hthread.repeatable hchecksums _ _ (fun _ ↦ trivial) _)
    (fun q r hr ↦ ⟨hthread.foundFirst hr hfirst,
      of_decide_eq_true (List.all_eq_true.mp hown _ (AList.mem_lookup_iff.mp hr))⟩)
    (modulesApart_of_keys hapart _) (cleansUp_of_entries hcleanUps)
  rcases hunaffected with hsets | hsets
  · exact hreload ((hsets.1 "d".toList).mpr hloaded)
  · exact hupdate ((hsets.1 "d".toList).mpr hloaded)

end Liota.PackageManager
