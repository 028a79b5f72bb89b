import Liota.PackageManager.Unchanged
import Liota.PackageManager.Ownership

namespace Liota.PackageManager

open Python Python.Computation Python.Text Relation

variable {F : Type} {π : Platform F}

section Loop

variable {sources : Str → Ext → F → Prop} {s s₀ : State F} {post : Str → List Str → Prop}
  {pull : Str → Prop} {rank : Str → ℕ}

@[simp] theorem restartCall_name (ext : TrackItem → Option Ext) (fileName checksum : Str)
    (q : Str) : (restartCall ext fileName checksum (trackItem s q)).name = q := trackItem_name s q

theorem Restorable.reloadTracked_restores (h : Restorable π sources s s₀ post pull rank)
    (ext : TrackItem → Option Ext) (fileName checksum : Str) (made : Call → Prop)
    (hpulled : ∀ c, Pulled pull c → made c) (l : List Str)
    (hmade : ∀ q ∈ l, made (restartCall ext fileName checksum (trackItem s q)))
    (horder : l.Pairwise fun a b ↦ b ∉ s.dependencies a)
    (hcalls : ∀ q ∈ l, ∃ r, Reopens π s s₀ (restartCall ext fileName checksum (trackItem s q)) r)
    (record : Option (PackageRecord F)) {u : State F} (hu : ReadySteps π sources s₀ u)
    (hdeps : ∀ q ∈ l, ∀ d ∈ s.dependencies q, u.Loaded d ∨ pull d ∨ d ∈ l) :
    let t := (reloadTracked (fun item sha1 ↦
      packageLoad π item.name (some sha1) false (ext item)) fileName checksum
      (l.map (trackItem s)) record u).2
    Restores π sources s s₀ post made [] u t ∧ ∀ q ∈ l, t.Loaded q := by
  induction l generalizing record u with
  | nil => exact ⟨.refl u, by simp⟩
  | cons q rest ih =>
    obtain ⟨hfirst, hrest⟩ := List.pairwise_cons.mp horder
    have hmade' (x : Str) (hx : x ∈ rest) := hmade x (List.mem_cons_of_mem _ hx)
    have hcalls' (x : Str) (hx : x ∈ rest) := hcalls x (List.mem_cons_of_mem _ hx)
    -- what is loaded after `q` finds its dependencies as soon as `q` is loaded
    have hdeps' {v : State F} (hv : ReadySteps π sources u v) (hq : v.Loaded q) :
        ∀ x ∈ rest, ∀ d ∈ s.dependencies x, v.Loaded d ∨ pull d ∨ d ∈ rest := by
      intro x hx d hd
      rcases hdeps x (List.mem_cons_of_mem _ hx) d hd with hl | hl | hl
      · exact .inl (hv.loaded hl)
      · exact .inr (.inl hl)
      · rcases List.mem_cons.mp hl with rfl | hl
        · exact .inl hq
        · exact .inr (.inr hl)
    rw [List.map_cons, reloadTracked, get_bind_apply, trackItem_name]
    split
    · next hl =>
      obtain ⟨hrestores, hall⟩ := ih hmade' hrest hcalls' record hu (hdeps' .refl hl)
      refine ⟨hrestores, fun x hx ↦ ?_⟩
      rcases List.mem_cons.mp hx with rfl | hx
      · exact hrestores.steps.loaded hl
      · exact hall x hx
    · next hl =>
      obtain ⟨r, hc⟩ := hcalls q List.mem_cons_self
      have hr : s.record q = some r := by
        have hrecord := hc.record
        rwa [restartCall_name] at hrecord
      have hnow (d : Str) (hd : d ∈ r.dependencies) : u.Loaded d ∨ pull d := by
        have hd' : d ∈ s.dependencies q := by rwa [State.dependencies_of_record hr]
        rcases hdeps q List.mem_cons_self d hd' with hl | hl | hl
        · exact .inl hl
        · exact .inr hl
        · rcases List.mem_cons.mp hl with rfl | hl
          · exact absurd (h.linked hr hd).2 (lt_irrefl _)
          · exact absurd hd' (hfirst d hl)
      obtain ⟨hstep, hloaded, hok⟩ := h.makeCall_restores hc hu (by rwa [restartCall_name]) hnow
      obtain ⟨new, hnew⟩ := hok rfl
      rw [restartCall_name] at hloaded
      have hmade'' (c : Call) (hc : c = restartCall ext fileName checksum (trackItem s q) ∨
          Pulled pull c) : made c := by
        rcases hc with rfl | hc
        · exact hmade q List.mem_cons_self
        · exact hpulled c hc
      have hstep := hstep.mono hmade''
      have hcall : makeCall π (restartCall ext fileName checksum (trackItem s q)) u =
          packageLoad π q (some (if q = fileName ∧ checksum ≠ (trackItem s q).sha1 then
            checksum else (trackItem s q).sha1)) false (ext (trackItem s q)) u := by
        simp only [makeCall, restartCall, trackItem_name]
      rcases hm : makeCall π (restartCall ext fileName checksum (trackItem s q)) u with ⟨o, v⟩
      rw [hm] at hstep hloaded hnew
      obtain rfl : o = .ok (some new) := hnew
      rw [bind_ok (hcall.symm.trans hm)]
      obtain ⟨hrestores, hall⟩ := ih hmade' hrest hcalls' _ (hu.trans hstep.steps)
        (hdeps' hstep.steps hloaded)
      refine ⟨hstep.trans hrestores, fun x hx ↦ ?_⟩
      rcases List.mem_cons.mp hx with rfl | hx
      · exact hrestores.steps.loaded hloaded
      · exact hall x hx

end Loop

section Restored

variable {condition : State F → Request → Prop} {t : Thread F} {tops : Str → Prop}
  {names : List Str}

theorem restartCall_eq {s : State F} {q : Str} {r : PackageRecord F} (hr : s.record q = some r)
    (ext : TrackItem → Option Ext) (fileName checksum : Str) :
    restartCall ext fileName checksum (trackItem s q) =
      ⟨q, some (if q = fileName ∧ checksum ≠ r.sha1 then checksum else r.sha1), false,
        ext ⟨q, r.ext, r.sha1⟩⟩ := by
  simp [restartCall, trackItem, hr]

theorem Reachable.order_reverse (ht : Reachable π (FileSystem.Documented π) condition t)
    (hnames : Enumerates t.state tops names) :
    names.reverse.Pairwise fun a b ↦ b ∉ t.state.dependencies a := by
  refine List.pairwise_reverse.mpr (hnames.order.imp fun {a b} hab hdep ↦ ?_)
  exact hab (ht.loaded_dependency hdep)

theorem Reachable.dependency_kept (ht : Reachable π (FileSystem.Documented π) condition t)
    (hnames : Enumerates t.state tops names) {q d : Str} (hd : d ∈ t.state.dependencies q) :
    (retireAll t.state names).Loaded d ∨ d ∈ names := by
  by_cases hdn : d ∈ names
  · exact .inr hdn
  · have hl := State.loaded_of_mem_dependents (ht.loaded_dependency hd)
    exact .inl ((loaded_retireAll hnames.nodup d).mpr ⟨hdn, hl⟩)

variable {sources : Str → Ext → F → Prop} {post : Str → List Str → Prop} {made : Call → Prop}
  {s u : State F} {stack : List Str}

theorem Restores.record_outside
    (h : Restores π sources s (retireAll s names) post made stack (retireAll s names) u)
    (hnames : Enumerates s tops names) {q : Str} (hq : q ∉ names) {r : PackageRecord F}
    (hr : s.record q = some r) :
    ∃ dependents, u.record q = some { r with dependents := dependents } := by
  obtain ⟨dependents, hr'⟩ := hnames.record_retireAll_of_not_mem hq hr
  obtain ⟨dependents', hr'', -⟩ := h.steps.steps.grows q _ hr'
  exact ⟨dependents', hr''⟩

theorem Restores.record_inside
    (h : Restores π sources s (retireAll s names) post made stack (retireAll s names) u)
    (hnames : Enumerates s tops names) {q : Str} (hq : q ∈ names) {r : PackageRecord F}
    (hr : s.record q = some r) (hl : u.Loaded q) :
    ∃ call new, made call ∧ call.name = q ∧ u.record q = some new ∧ Remakes π call r new ∧
      post q (u.owned q) := by
  obtain ⟨new, hnew⟩ := State.loaded_iff.mp hl
  rcases h.gains.records hnew with hl | ⟨call, r', hcall, hname, hr', hmakes, hpost⟩
  · exact absurd hl (hnames.not_loaded_retireAll hq)
  · obtain rfl := Option.some.inj (hr'.symm.trans hr)
    exact ⟨call, new, hcall, hname, hnew, hmakes, hpost⟩

theorem Restores.loaded_iff
    (h : Restores π sources s (retireAll s names) post made stack (retireAll s names) u)
    (hnames : Enumerates s tops names) (hall : ∀ q ∈ names, u.Loaded q) (k : Str) :
    u.Loaded k ↔ s.Loaded k := by
  constructor
  · intro hk
    obtain ⟨new, hnew⟩ := State.loaded_iff.mp hk
    rcases h.gains.records hnew with hl | ⟨call, r, -, -, hr, -⟩
    · exact ((loaded_retireAll hnames.nodup k).mp hl).2
    · exact State.loaded_of_record hr
  · intro hk
    by_cases hkn : k ∈ names
    · exact hall k hkn
    · exact h.steps.loaded ((loaded_retireAll hnames.nodup k).mpr ⟨hkn, hk⟩)

end Restored

def State.Recorded (s : State F) (q : Str) (ext : Ext) (content : F) : Prop :=
  ∃ r, s.record q = some r ∧ r.ext = ext ∧ r.source = content

/-- What a reload of `p` leaves unchanged between `s` and `s'`; `ids` are the identifiers that the
packages register. -/
structure RoundTrip (s s' : State F) (p : Str) (ids : Str → List Str) : Prop where
  loaded : ∀ q, s'.Loaded q ↔ s.Loaded q
  records : ∀ q r, s.record q = some r → ∃ r', s'.record q = some r' ∧ r'.ext = r.ext ∧
    r'.sha1 = r.sha1 ∧ r'.dependencies = r.dependencies
  owned : ∀ q, s.Up p q → s'.owned q = ids q ∧ ∀ i ∈ ids q, i ∈ s'.resourceRegistry.registry
  others : ∀ q, s.Loaded q → ¬ s.Up p q → s'.owned q = s.owned q
  checked : ∃ added, s'.trace = s.trace ++ added ∧ ∀ k, Event.loaded k none ∉ added

theorem Restores.roundTrip {sources : Str → Ext → F → Prop} {made : Call → Prop} {s u : State F}
    {stack names : List Str} {tops : Str → Prop} {p : Str} {ids : Str → List Str}
    (h : Restores π sources s (retireAll s names) (fun q owned ↦ owned = ids q) made stack
      (retireAll s names) u)
    (hs : Well s) (hnames : Enumerates s tops names) (hmem : ∀ q, q ∈ names ↔ s.Up p q)
    (hall : ∀ q ∈ names, u.Loaded q)
    (hmade : ∀ call, made call → ∃ r, s.record call.name = some r ∧ call.checksum = some r.sha1) :
    RoundTrip s u p ids where
  loaded := h.loaded_iff hnames hall
  records q r hr := by
    by_cases hq : q ∈ names
    · obtain ⟨call, new, hcall, rfl, hnew, hmakes, -⟩ := h.record_inside hnames hq hr (hall q hq)
      obtain ⟨r', hr', hsum⟩ := hmade call hcall
      obtain rfl := Option.some.inj (hr'.symm.trans hr)
      refine ⟨new, hnew, hmakes.ext, ?_, hmakes.dependencies⟩
      rw [hmakes.sha1, hsum, Option.getD_some]
    · obtain ⟨dependents, hr'⟩ := h.record_outside hnames hq hr
      exact ⟨_, hr', rfl, rfl, rfl⟩
  owned q hup := by
    have hq := (hmem q).mpr hup
    obtain ⟨r, hr⟩ := State.loaded_iff.mp (hnames.loaded hq)
    obtain ⟨-, -, -, -, -, -, howned⟩ := h.record_inside hnames hq hr (hall q hq)
    refine ⟨howned, fun i hi ↦ ?_⟩
    have hwell := h.steps.steps.well (well_retireAll hs names)
    rw [← howned] at hi
    exact hwell.partitioned.registered q i hi
  others q hl hup := by
    have hq : q ∉ names := fun hq ↦ hup ((hmem q).mp hq)
    rw [h.steps.owned ((loaded_retireAll hnames.nodup q).mpr ⟨hq, hl⟩),
      owned_retireAll_of_not_mem s hq]
  checked := by
    obtain ⟨added, htrace, hadded⟩ := h.gains.trace
    refine ⟨names.map .cleanedUp ++ added, ?_, fun k hk ↦ ?_⟩
    · rw [htrace, (frame_retireAll s names).1, List.append_assoc]
    · rcases List.mem_append.mp hk with hk | hk
      · simp at hk
      · obtain ⟨call, hcall, -, hnone⟩ := hadded k none hk
        obtain ⟨r, -, hsum⟩ := hmade call hcall
        rw [hsum] at hnone
        cases hnone

theorem RoundTrip.of_written {s t u : State F} {p fileName : Str} {ids : Str → List Str}
    (h : RoundTrip s t p ids)
    (hend : u = t ∨ ∃ sha1, u = (writePackageIntoAutoload fileName sha1 t).2) :
    RoundTrip s u p ids := by
  rcases hend with rfl | ⟨sha1, rfl⟩
  · exact h
  · obtain ⟨list, hlist⟩ := writePackageIntoAutoload_frame fileName sha1 t
    rw [hlist]
    exact ⟨h.loaded, h.records, h.owned, h.others, h.checked⟩

/-- Reloading a package with its recorded checksum brings back all that was loaded, from the same
files and with the same checksums, dependencies and registered identifiers. -/
theorem reload_round_trip {condition : State F → Request → Prop} {t : Thread F}
    (ht : Reachable π (FileSystem.Documented π) condition t)
    (hpar : Parseable t.state.startupList) {p : Str} {rp : PackageRecord F}
    (hp : t.state.record p = some rp) (autoload : Bool) (ids : Str → List Str)
    (hrepeatable : Repeatable π t.state.Recorded (fun q owned ↦ owned = ids q) t.state (· = p))
    (hclean : ∀ q, t.state.Up p q → t.state.CleansUp q) :
    RoundTrip t.state (perform π (.reload p rp.sha1 autoload) t.state).2 p ids := by
  have hl := State.loaded_of_record hp
  obtain ⟨names, hnames, hunload⟩ := packageUnload_eq (π := π) ht.consistent hpar hl
    (fun q hup ↦ ht.documented.removable (hclean q hup)) []
  have hmem (q : Str) : q ∈ names ↔ t.state.Up p q := by
    rw [hnames.mem]
    constructor
    · rintro ⟨p', rfl, -, hup⟩
      exact hup
    · exact fun hup ↦ ⟨p, rfl, hl, hup⟩
  have habove (q : Str) (hq : q ∈ names) : t.state.Above (· = p) q := (hnames.mem q).mp hq
  have hrepeats (q : Str) (hq : q ∈ names) (r : PackageRecord F)
      (hr : t.state.record q = some r) : Repeats π t.state.Recorded (retireAll t.state names)
        (fun q owned ↦ owned = ids q) q r ∧ t.state.Recorded q r.ext r.source :=
    ⟨hrepeatable.repeats names hnames q hq r hr, r, hr, rfl, rfl⟩
  obtain ⟨rank, hrestorable⟩ := ht.restorable hnames (fun _ ↦ False) hrepeats nofun nofun
  have hcall (q : Str) (r : PackageRecord F) (hr : t.state.record q = some r) :
      restartCall (fun item ↦ some item.ext) p rp.sha1 (trackItem t.state q) =
        ⟨q, some r.sha1, false, some r.ext⟩ := by
    rw [restartCall_eq hr]
    by_cases hq : q = p
    · subst hq
      obtain rfl := Option.some.inj (hr.symm.trans hp)
      simp
    · simp [hq]
  have hcalls (q : Str) (hq : q ∈ names.reverse) : ∃ r, Reopens π t.state
      (retireAll t.state names)
      (restartCall (fun item ↦ some item.ext) p rp.sha1 (trackItem t.state q)) r := by
    have hq := List.mem_reverse.mp hq
    obtain ⟨r, hr⟩ := State.loaded_iff.mp (hnames.loaded hq)
    have hun := hrepeatable.unchanged q r (habove q hq) hr
    refine ⟨r, ?_⟩
    rw [hcall q r hr]
    apply ht.reopens hnames _ hq hr hun hun.foundFile_forced
    intro c hc
    exact (Option.some.inj hc).symm
  obtain ⟨hrestores, hall⟩ := hrestorable.reloadTracked_restores
    (fun item ↦ some item.ext) p rp.sha1
    (fun c ↦ ∃ q ∈ names, c =
      restartCall (fun item ↦ some item.ext) p rp.sha1 (trackItem t.state q))
    (by rintro c ⟨k, hk, -⟩; exact hk.elim) names.reverse
    (fun q hq ↦ ⟨q, List.mem_reverse.mp hq, rfl⟩) (ht.order_reverse hnames) hcalls none .refl
    (fun q hq d hd ↦ (ht.dependency_kept hnames hd).imp_right fun h ↦
      .inr (List.mem_reverse.mpr h))
  have hall (q : Str) (hq : q ∈ names) := hall q (List.mem_reverse.mpr hq)
  rw [List.map_reverse] at hrestores hall
  rw [perform, bind_pure_snd, packageReload, get_bind_apply, if_pos hl]
  refine RoundTrip.of_written ?_ (restart_of_unload hunload _ rp.sha1 autoload)
  apply hrestores.roundTrip ht.consistent.toWell hnames hmem hall
  rintro call ⟨q, hq, rfl⟩
  obtain ⟨r, hr⟩ := State.loaded_iff.mp (hnames.loaded hq)
  rw [hcall q r hr]
  exact ⟨r, hr, rfl⟩

section Scripts

/-- The program of a package that registers `x`. -/
def registerX : RunProg := .register "x".toList (.object 0) .ret (.raise .keyError)

/-- The scripts of a package `p` that depends on `d` and registers `x`. -/
def ownerScripts : List (Str × Script) :=
  [("d".toList, .standard "1".toList [] .ret none),
    ("p".toList, .standard "2".toList ["d".toList] registerX none)]

def ownerState : State Script := (scriptThread ownerScripts none ["load p 2"]).state

/-- Both packages are unloaded. -/
def ownerRestart : State Script := retireAll ownerState ["p".toList, "d".toList]

theorem evaluated_owner :
    (ownerState.startupList = none ∧
    (ownerState.packagesLoaded.entries.all fun e ↦
      (ownerState.fs.file (candidate scriptPlatform e.1 e.2.ext)).map (·.content.sha1) =
        some e.2.source.sha1) ∧
    (ownerState.packagesLoaded.entries.all fun e ↦
      dependencyList e.2.source.defines.dependencies = .ok (some e.2.dependencies)) ∧
    (ownerState.packagesLoaded.entries.all fun e ↦
      (checksumList scriptPlatform ownerState.fs e.1 extensions).toOption.any (e.2.sha1 ∈ ·)) ∧
    ownerState.packagesLoaded.entries.all fun e ↦ e.2.obj.cleanUp.all PyErr.isLogged) ∧
    ownerState.packagesLoaded.keys = ["p".toList, "d".toList] ∧
    ownerState.owned "p".toList = ["x".toList] ∧ ownerState.dependents "d".toList = ["p".toList] ∧
    (ownerState.record "p".toList).map (·.source.sha1) = some "2".toList ∧
    (ownerState.record "d".toList).map (·.source.sha1) = some "1".toList ∧
    (ownerState.record "d".toList).map (·.sha1) = some "1".toList := by
  decide +kernel

theorem restart_owner :
    (ownerRestart.sysModules.entries.all fun e ↦ e.1 = moduleName "p".toList ||
      e.2.packageClass.all fun klass ↦ (klass 0).toOption.all (·.run matches .ret)) ∧
    ownerRestart.owned "d".toList = [] ∧
    (ResourceRegistry.exec "p".toList registerX ownerRestart.resourceRegistry).1 = .ok () ∧
    (ResourceRegistry.exec "p".toList registerX ownerRestart.resourceRegistry).2.owned
      "p".toList = ["x".toList] := by
  decide +kernel

theorem scriptThread_owner : ScriptThread (fun run ↦ run = .ret ∨ run = registerX)
    (ownerScripts.map Prod.snd) (scriptThread ownerScripts none ["load p 2"]) where
  reachable := reachable_scriptThread (all_scriptFiles fun _ hp _ ↦ List.mem_map_of_mem hp) _ _
  runs script hscript := by
    simp only [ownerScripts, List.map_cons, List.map_nil, List.mem_cons, List.not_mem_nil,
      or_false] at hscript
    rcases hscript with rfl | rfl
    · exact ⟨_, _, _, _, by simp, .inl rfl, rfl⟩
    · exact ⟨_, _, _, _, by simp, .inr rfl, rfl⟩
  distinct := by decide
  files := evaluated_owner.1.2.1
  dependencies := evaluated_owner.1.2.2.1

theorem runsAlone_of_entries {R : RunProg → Prop} {s : State Script}
    (hs : ∀ m, (runsAmong fun run ↦ run = .ret ∨ R run).module (s.module m)) {p : Str}
    (h : s.sysModules.entries.all fun e ↦ e.1 = moduleName p ||
      e.2.packageClass.all fun klass ↦ (klass 0).toOption.all (·.run matches .ret)) (m : Str) :
    RunsAlone p R m (s.module m) := by
  intro klass tick obj hk hobj
  obtain ⟨⟨hrun, -⟩, hfirst⟩ := hs m klass tick obj hk hobj
  by_cases hm : m = moduleName p
  · exact hrun.imp_right fun hR ↦ ⟨hm, hR⟩
  · left
    unfold State.module at hk
    cases hn : s.sysModules.lookup m with
    | none => simp [hn, Namespace.empty] at hk
    | some n =>
      rw [hn, Option.getD_some] at hk
      have hret := List.all_eq_true.mp h _ (AList.mem_lookup_iff.mp hn)
      simp only [hm, decide_false, Bool.false_or, hk, Option.all_some, hfirst, Except.toOption]
        at hret
      split at hret
      · assumption
      · cases hret

theorem loaded_owner {q : Str} :
    ownerState.Loaded q ↔ q = "p".toList ∨ q = "d".toList := by
  obtain ⟨-, hkeys, -⟩ := evaluated_owner
  have hkey : q ∈ ownerState.packagesLoaded.keys ↔ ownerState.Loaded q := AList.mem_keys.symm
  rw [← hkey, hkeys, List.mem_pair]

theorem enumerates_owner {names : List Str}
    (h : Enumerates ownerState (· = "d".toList) names) : names = ["p".toList, "d".toList] := by
  obtain ⟨-, -, -, hdependents, -⟩ := evaluated_owner
  have hd : ownerState.Loaded "d".toList := loaded_owner.mpr (.inr rfl)
  have hp : ownerState.Loaded "p".toList := loaded_owner.mpr (.inl rfl)
  obtain ⟨above, rfl⟩ := h.eq_concat hd
  obtain ⟨hnodup, -, hapart⟩ := List.nodup_append.mp h.nodup
  have hmem : "p".toList ∈ above := by
    have hup := (h.mem "p".toList).mpr
      ⟨_, rfl, hd, .single ⟨hdependents ▸ List.mem_singleton_self _, hp⟩⟩
    exact (List.mem_append.mp hup).resolve_right (by decide)
  have hall : ∀ q ∈ above, q = "p".toList := fun q hq ↦
    (loaded_owner.mp (h.loaded (List.mem_append_left _ hq))).resolve_right
      (hapart q hq _ (List.mem_singleton_self _))
  have hsub : above ⊆ ["p".toList] := fun q hq ↦ List.mem_singleton.mpr (hall q hq)
  have hperm : above.Perm ["p".toList] :=
    (hnodup.subperm hsub).perm_of_length_le (List.length_pos_of_mem hmem)
  rw [List.perm_singleton.mp hperm, List.singleton_append]

theorem source_owner {name : Str} {r : PackageRecord Script}
    (hr : ownerState.record name = some r) :
    name = "p".toList ∧ r.source = .standard "2".toList ["d".toList] registerX none ∨
      name = "d".toList ∧ r.source = .standard "1".toList [] .ret none := by
  have hthread := scriptThread_owner
  have hmem := ((hthread.reachable.sourced fun _ ↦ id).records _ r hr).2
  obtain ⟨-, -, -, -, hp, hd, -⟩ := evaluated_owner
  rcases loaded_owner.mp (State.loaded_of_record hr) with rfl | rfl
  · rw [hr] at hp
    exact .inl ⟨rfl, List.inj_on_of_nodup_map hthread.distinct hmem (by simp [ownerScripts])
      (Option.some.inj hp)⟩
  · rw [hr] at hd
    exact .inr ⟨rfl, List.inj_on_of_nodup_map hthread.distinct hmem (by simp [ownerScripts])
      (Option.some.inj hd)⟩

theorem registry_owner {u : State Script}
    (hu : ReadySteps scriptPlatform ownerState.Recorded ownerRestart u) :
    u.owned "d".toList = [] ∧
      (u.Loaded "p".toList ∨ u.resourceRegistry = ownerRestart.resourceRegistry) := by
  have hmodules := (scriptThread_owner.follows.retireAll ["p".toList, "d".toList]).2
  obtain ⟨hplain, howned, hexec, -⟩ := restart_owner
  have halone := hu.registry_alone (R := (· = registerX))
    (runsAlone_of_entries (p := "p".toList) hmodules hplain) ?sources ?only ?runs
  · exact ⟨(halone.2.1 "d".toList (by decide)).trans howned, halone.2.2⟩
  case sources =>
    rintro name ext content ⟨r, hr, -, rfl⟩ klass tick obj hk hobj
    rcases source_owner hr with ⟨rfl, hsource⟩ | ⟨rfl, hsource⟩ <;> rw [hsource] at hk <;>
      obtain rfl := Option.some.inj hk <;> obtain rfl := Except.ok.inj hobj
    · exact .inr ⟨rfl, rfl⟩
    · exact .inl rfl
  case only =>
    rintro name ext content ⟨r, hr, -, rfl⟩ hm
    rcases source_owner hr with ⟨rfl, -⟩ | ⟨rfl, -⟩
    · rfl
    · exact absurd hm (by decide)
  case runs =>
    rintro run rfl
    exact ⟨_, Prod.ext hexec rfl⟩

theorem reload_round_trip_owner :
    let s := (scriptThread ownerScripts none ["load p 2"]).state
    (s.owned "p".toList = ["x".toList] ∧ s.dependents "d".toList = ["p".toList]) ∧
      RoundTrip s (perform scriptPlatform (.reload "d".toList "1".toList false) s).2 "d".toList
        fun q ↦ if q = "p".toList then ["x".toList] else [] := by
  intro s
  have hthread := scriptThread_owner
  obtain ⟨⟨hlist, -, -, hsums, hcleanUps⟩, -, howned, hdependents, -, -, hsha1⟩ := evaluated_owner
  obtain ⟨-, -, hexec, hregisters⟩ := restart_owner
  obtain ⟨rd, hd, hrd⟩ := Option.map_eq_some_iff.mp hsha1
  refine ⟨⟨howned, hdependents⟩, ?_⟩
  rw [← hrd]
  apply reload_round_trip hthread.documented (parseable_of_none hlist) hd
  · refine ⟨fun q r _ hr ↦ hthread.unchanged hr hsums, ?_⟩
    intro names hnames q hq r hr
    obtain rfl := enumerates_owner hnames
    rcases source_owner hr with ⟨rfl, hsource⟩ | ⟨rfl, hsource⟩
    · apply hthread.repeats hr hsource
      intro u hu hn
      rw [(registry_owner hu).2.resolve_left hn]
      exact ⟨_, Prod.ext hexec rfl, hregisters⟩
    · apply hthread.repeats hr hsource
      intro u hu hn
      exact ⟨u.resourceRegistry, rfl, (registry_owner hu).1⟩
  · exact fun q _ ↦ cleansUp_of_entries hcleanUps q

def ReloadRestores (assumed : Thread Script → Str → (Str → List Str) → Prop) : Prop :=
  ∀ t p rp autoload ids,
    Reachable scriptPlatform (FileSystem.Documented scriptPlatform) (fun _ _ ↦ True) t →
    Parseable t.state.startupList → t.state.record p = some rp → assumed t p ids →
    RoundTrip t.state (perform scriptPlatform (.reload p rp.sha1 autoload) t.state).2 p ids

/-- Two candidate files of `p`. -/
def firstScript : Script := .standard "1".toList [] .ret none

def secondScript : Script := .standard "2".toList [] .ret none

/-- After `p` was loaded from its compiled file, a source file is added that cannot be read. -/
def unreadableThread : Thread Script :=
  let compiled := withFile "p".toList .pyc ⟨firstScript, true⟩ (scriptFiles [])
  let t := serve scriptPlatform [words "load p 1"] (boot scriptPlatform compiled none)
  { t with state.fs := withFile "p".toList .py ⟨secondScript, false⟩ compiled }

/-- After `p` was loaded from its source file with the checksum of the compiled one, the latter is
removed. -/
def removedThread : Thread Script :=
  let source := withFile "p".toList .py ⟨firstScript, true⟩ (scriptFiles [])
  let t := serve scriptPlatform [words "load p 2"]
    (boot scriptPlatform (withFile "p".toList .pyc ⟨secondScript, true⟩ source) none)
  { t with state.fs := source }

theorem runs_twoScripts (script : Script) (h : script ∈ [firstScript, secondScript]) :
    script.Runs (· = .ret) := by
  simp only [List.mem_cons, List.not_mem_nil, or_false] at h
  rcases h with rfl | rfl <;> exact ⟨_, _, _, _, by simp, rfl, rfl⟩

theorem allTwo_nil :
    (scriptFiles []).All fun _ script ↦ script ∈ [firstScript, secondScript] :=
  all_scriptFiles (by simp)

theorem evaluated_unreadable :
    ((unreadableThread.state.packagesLoaded.entries.all fun e ↦
        (unreadableThread.state.fs.file (candidate scriptPlatform e.1 e.2.ext)).map
          (·.content.sha1) = some e.2.source.sha1) ∧
      (unreadableThread.state.packagesLoaded.entries.all fun e ↦
        dependencyList e.2.source.defines.dependencies = .ok (some e.2.dependencies)) ∧
      (unreadableThread.state.packagesLoaded.entries.all fun e ↦ extensions.any fun ext ↦
        (unreadableThread.state.fs.file (candidate scriptPlatform e.1 ext)).map (·.content.sha1) =
          some e.2.sha1) ∧
      unreadableThread.state.packagesLoaded.entries.all fun e ↦
        e.2.obj.cleanUp.all PyErr.isLogged) ∧
    unreadableThread.state.startupList = none ∧
    (unreadableThread.state.record "p".toList).map (·.sha1) = some "1".toList ∧
    ¬ (perform scriptPlatform (.reload "p".toList "1".toList false)
      unreadableThread.state).2.Loaded "p".toList := by
  decide +kernel

theorem evaluated_removed :
    ((removedThread.state.packagesLoaded.entries.all fun e ↦
        (removedThread.state.fs.file (candidate scriptPlatform e.1 e.2.ext)).map
          (·.content.sha1) = some e.2.source.sha1) ∧
      (removedThread.state.packagesLoaded.entries.all fun e ↦
        dependencyList e.2.source.defines.dependencies = .ok (some e.2.dependencies)) ∧
      (removedThread.state.packagesLoaded.entries.all fun e ↦
        (checksumList scriptPlatform removedThread.state.fs e.1 extensions).toBool) ∧
      removedThread.state.packagesLoaded.entries.all fun e ↦
        e.2.obj.cleanUp.all PyErr.isLogged) ∧
    removedThread.state.startupList = none ∧
    (removedThread.state.record "p".toList).map (·.sha1) = some "2".toList ∧
    ¬ (perform scriptPlatform (.reload "p".toList "2".toList false)
      removedThread.state).2.Loaded "p".toList := by
  decide +kernel

theorem scriptThread_unreadable :
    ScriptThread (· = .ret) [firstScript, secondScript] unreadableThread where
  reachable := by
    have hcompiled := all_withFile allTwo_nil ⟨firstScript, true⟩ (by simp) "p".toList .pyc
    refine .environment ?_ (all_withFile hcompiled _ (by simp) _ _)
    apply reachable_serve
    · decide
    · exact reachable_boot scriptPlatform hcompiled none
  runs := runs_twoScripts
  distinct := by decide
  files := evaluated_unreadable.1.1
  dependencies := evaluated_unreadable.1.2.1

theorem scriptThread_removed :
    ScriptThread (· = .ret) [firstScript, secondScript] removedThread where
  reachable := by
    have hsource := all_withFile allTwo_nil ⟨firstScript, true⟩ (by simp) "p".toList .py
    refine .environment ?_ hsource
    apply reachable_serve
    · decide
    · exact reachable_boot scriptPlatform (all_withFile hsource _ (by simp) _ _) none
  runs := runs_twoScripts
  distinct := by decide
  files := evaluated_removed.1.1
  dependencies := evaluated_removed.1.2.1

theorem matches_of_entries {s : State Script} (h : s.packagesLoaded.entries.all fun e ↦
      extensions.any fun ext ↦
        (s.fs.file (candidate scriptPlatform e.1 ext)).map (·.content.sha1) = some e.2.sha1)
    {q : Str} {r : PackageRecord Script} (hr : s.record q = some r) :
    Matches scriptPlatform s.fs q r.sha1 := by
  have hany := List.all_eq_true.mp h _ (AList.mem_lookup_iff.mp hr)
  obtain ⟨ext, -, hsum⟩ := List.any_eq_true.mp hany
  obtain ⟨f, hf, heq⟩ := Option.map_eq_some_iff.mp (of_decide_eq_true hsum)
  exact ⟨ext, f, hf, heq⟩

theorem readable_of_entries {s : State Script} (h : s.packagesLoaded.entries.all fun e ↦
      (checksumList scriptPlatform s.fs e.1 extensions).toBool)
    {q : Str} {r : PackageRecord Script} (hr : s.record q = some r) :
    ∃ sums, checksumList scriptPlatform s.fs q extensions = .ok sums := by
  have hok := List.all_eq_true.mp h _ (AList.mem_lookup_iff.mp hr)
  rcases hc : checksumList scriptPlatform s.fs q extensions with e | sums
  · simp [hc, Except.toBool] at hok
  · exact ⟨sums, rfl⟩

/-- A reload can lose packages if `clean_up` may exit, if a candidate file cannot be read, or if no
candidate file has the recorded checksum any more. -/
theorem reload_may_lose :
    (¬ ReloadRestores fun t p ids ↦
      Repeatable scriptPlatform t.state.Recorded (fun q owned ↦ owned = ids q) t.state (· = p)) ∧
    (¬ ReloadRestores fun t p ids ↦ (∀ q, t.state.CleansUp q) ∧
      (∀ q r, t.state.record q = some r →
        (∃ f, t.state.fs.file (candidate scriptPlatform q r.ext) = some f ∧
          f.content = r.source) ∧ Matches scriptPlatform t.state.fs q r.sha1) ∧
      ∀ names, Enumerates t.state (· = p) names → ∀ q ∈ names, ∀ r, t.state.record q = some r →
        Repeats scriptPlatform t.state.Recorded (retireAll t.state names)
          (fun q owned ↦ owned = ids q) q r) ∧
    ¬ ReloadRestores fun t p ids ↦ (∀ q, t.state.CleansUp q) ∧
      (∀ q r, t.state.record q = some r →
        (∃ f, t.state.fs.file (candidate scriptPlatform q r.ext) = some f ∧
          f.content = r.source) ∧
        ∃ sums, checksumList scriptPlatform t.state.fs q extensions = .ok sums) ∧
      ∀ names, Enumerates t.state (· = p) names → ∀ q ∈ names, ∀ r, t.state.record q = some r →
        Repeats scriptPlatform t.state.Recorded (retireAll t.state names)
          (fun q owned ↦ owned = ids q) q r := by
  refine ⟨fun h ↦ ?_, fun h ↦ ?_, fun h ↦ ?_⟩
  · have hthread := scriptThread_exitingPair
    obtain ⟨hlist, -, -, hsums, -, -, hsha1, hloaded, hlost, -⟩ := evaluated_exitingPair
    obtain ⟨rp, hp, hrp⟩ := Option.map_eq_some_iff.mp hsha1
    have hround := h _ _ rp false (fun _ ↦ []) hthread.documented (parseable_of_none hlist) hp
      (hthread.repeatable hsums _ (fun _ owned ↦ owned = []) (fun _ ↦ rfl) _)
    rw [hrp] at hround
    exact hlost ((hround.loaded "p".toList).mpr hloaded)
  · have hthread := scriptThread_unreadable
    obtain ⟨⟨-, -, hmatches, hcleanUps⟩, hlist, hsha1, hlost⟩ := evaluated_unreadable
    obtain ⟨rp, hp, hrp⟩ := Option.map_eq_some_iff.mp hsha1
    have hround := h _ _ rp false (fun _ ↦ []) hthread.documented (parseable_of_none hlist) hp
      ⟨cleansUp_of_entries hcleanUps,
        fun q r hr ↦ ⟨hthread.file hr, matches_of_entries hmatches hr⟩,
        fun names hnames q hq r hr ↦ hthread.repeats_plain hnames.nodup hq hr rfl⟩
    rw [hrp] at hround
    exact hlost ((hround.loaded "p".toList).mpr (State.loaded_of_record hp))
  · have hthread := scriptThread_removed
    obtain ⟨⟨-, -, hreadable, hcleanUps⟩, hlist, hsha1, hlost⟩ := evaluated_removed
    obtain ⟨rp, hp, hrp⟩ := Option.map_eq_some_iff.mp hsha1
    have hround := h _ _ rp false (fun _ ↦ []) hthread.documented (parseable_of_none hlist) hp
      ⟨cleansUp_of_entries hcleanUps,
        fun q r hr ↦ ⟨hthread.file hr, readable_of_entries hreadable hr⟩,
        fun names hnames q hq r hr ↦ hthread.repeats_plain hnames.nodup hq hr rfl⟩
    rw [hrp] at hround
    exact hlost ((hround.loaded "p".toList).mpr (State.loaded_of_record hp))

end Scripts

end Liota.PackageManager
