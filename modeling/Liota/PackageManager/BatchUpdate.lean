import Liota.PackageManager.Unchanged

namespace Liota.PackageManager

open Python Python.Computation Python.Text Relation

variable {F : Type} {π : Platform F}

section Tries

theorem Tries.ready {calls : List Call} {u t : State F} (h : Tries π calls u t)
    {fs : FileSystem F} (hfs : u.fs = fs) (hcalls : ∀ call ∈ calls, call.ext = none) :
    ReadySteps π (FoundFirst π fs) u t := by
  induction h with
  | done => exact .refl
  | skipped _ _ ih => exact ih hfs fun call hcall ↦ hcalls call (List.mem_cons_of_mem _ hcall)
  | @made call calls u t _ h ih =>
    have hready := (ready_loadRule (π := π) fs).packageLoad call.name call.checksum call.autoload
      call.ext u (hcalls call List.mem_cons_self) hfs
    refine hready.trans (ih ?_ fun call' hcall ↦ hcalls call' (List.mem_cons_of_mem _ hcall))
    exact hready.steps.fs.trans hfs

variable {s s₀ : State F} {post : Str → List Str → Prop} {pull : Str → Prop} {rank : Str → ℕ}

/-- In the end every package is loaded for which one of the calls finds the file that it was
loaded from, whatever the other calls did. -/
theorem Tries.restored (h : Restorable π (FoundFirst π s₀.fs) s s₀ post pull rank)
    {calls : List Call} {u t : State F} (htries : Tries π calls u t)
    (hu : ReadySteps π (FoundFirst π s₀.fs) s₀ u) (hcalls : ∀ call ∈ calls, call.ext = none)
    {call : Call} (hcall : call ∈ calls) {r : PackageRecord F} (hc : Reopens π s s₀ call r)
    (hdeps : ∀ d ∈ r.dependencies, s₀.Loaded d ∨ pull d) : t.Loaded call.name := by
  induction htries with
  | done => exact absurd hcall List.not_mem_nil
  | @skipped first rest u t hl htries ih =>
    have hrest (c : Call) (hc : c ∈ rest) := hcalls c (List.mem_cons_of_mem _ hc)
    rcases List.mem_cons.mp hcall with rfl | hcall
    · exact htries.steps.grows.loaded hl
    · exact ih hu hrest hcall
  | @made first rest u t hl htries ih =>
    have hrest (c : Call) (hc : c ∈ rest) := hcalls c (List.mem_cons_of_mem _ hc)
    have hready := (ready_loadRule (π := π) s₀.fs).packageLoad first.name first.checksum
      first.autoload first.ext u (hcalls first List.mem_cons_self) hu.steps.fs
    rcases List.mem_cons.mp hcall with rfl | hcall
    · have hdeps' (d : Str) (hd : d ∈ r.dependencies) : u.Loaded d ∨ pull d :=
        (hdeps d hd).imp_left hu.loaded
      obtain ⟨-, hloaded, -⟩ := h.makeCall_restores hc hu hl hdeps'
      exact htries.steps.grows.loaded hloaded
    · exact ih (hu.trans hready) hrest hcall

end Tries

/-- After a batch update every package is loaded that was loaded before, whatever names and
checksums it is given. -/
theorem update_list_keeps_loaded {condition : State F → Request → Prop} {t : Thread F}
    (ht : Reachable π (FileSystem.Documented π) condition t)
    (hpar : Parseable t.state.startupList) (packages : List (Str × Str)) (autoload : Bool)
    (hrepeatable : Repeatable π (FoundFirst π t.state.fs) (fun _ _ ↦ True) t.state
      (· ∈ packages.map Prod.fst))
    (hapart : t.state.ModulesApart (· ∈ packages.map Prod.fst))
    (hclean : ∀ q, t.state.Above (· ∈ packages.map Prod.fst) q → t.state.CleansUp q)
    (hfirst : ∀ q r, t.state.Above (· ∈ packages.map Prod.fst) q → t.state.record q = some r →
      FoundFirst π t.state.fs q r.ext r.source) :
    ∀ k, t.state.Loaded k → (packageUpdateList π packages autoload t.state).2.Loaded k := by
  have hremovable (p : Str) (hp : p ∈ packages.map Prod.fst) (hl : t.state.Loaded p) (q : Str)
      (hup : t.state.Up p q) : Removable t.state q :=
    ht.documented.removable (hclean q ⟨p, hp, hl, hup⟩)
  obtain ⟨names, hnames, hunload⟩ := packageUnloadList_eq (π := π) ht.consistent hpar hremovable []
  have hmem (q : Str) : q ∈ names ↔ t.state.Above (· ∈ packages.map Prod.fst) q := hnames.mem q
  have hfs := (frame_retireAll t.state names).2.1
  have hrepeats (q : Str) (hq : q ∈ names) (r : PackageRecord F)
      (hr : t.state.record q = some r) :=
    And.intro (hrepeatable.repeats names hnames q hq r hr) (hfirst q r ((hmem q).mp hq) hr)
  have hpull (d : Str) (hd : d ∈ names) (r : PackageRecord F) (hr : t.state.record d = some r) :
      Unchanged π t.state.fs d r ∧ FoundFirst π t.state.fs d r.ext r.source ∧
        ∀ e ∈ r.dependencies, e ∈ names → e ∈ names :=
    ⟨hrepeatable.unchanged d r ((hmem d).mp hd) hr, hfirst d r ((hmem d).mp hd) hr, fun _ _ ↦ id⟩
  have hmodules (d : Str) (hd : d ∈ names) (y : Str) (hy : y ∈ names)
      (hm : moduleName y = moduleName d) : y = d :=
    hapart y d ((hmem y).mp hy) ((hmem d).mp hd) hm
  obtain ⟨rank, hrestorable⟩ := ht.restorable hnames (· ∈ names) hrepeats
    (fun d hd ↦ ⟨hd, hpull d hd⟩) hmodules
  have htries := packageUpdateList_tries hunload autoload
  intro k hk
  by_cases hkn : k ∈ names
  · obtain ⟨r, hr⟩ := State.loaded_iff.mp hk
    obtain ⟨hun, hfound, -⟩ := hpull k hkn r hr
    have hitem : trackItem t.state k = ⟨k, r.ext, r.sha1⟩ := by simp [trackItem, hr]
    have hc : Reopens π t.state (retireAll t.state names) (listCall autoload (k, r.sha1)) r := by
      refine ht.reopens hnames (listCall autoload (k, r.sha1)) hkn hr hun hfound ?_
      intro c hc
      exact (Option.some.inj hc).symm
    rw [← hfs] at hrestorable
    refine htries.restored hrestorable .refl ?_ ?_ hc ?_
    · intro call hcall
      rcases List.mem_append.mp hcall with hcall | hcall
      · obtain ⟨entry, -, rfl⟩ := List.mem_map.mp hcall
        rfl
      · obtain ⟨item, -, rfl⟩ := List.mem_map.mp hcall
        rfl
    · apply List.mem_append_right
      refine List.mem_map.mpr ⟨trackItem t.state k, ?_, by rw [hitem]⟩
      exact List.mem_reverse.mpr (List.mem_map.mpr ⟨k, hkn, rfl⟩)
    · intro d hd
      obtain ⟨hl, -⟩ := hrestorable.linked hr hd
      by_cases hdn : d ∈ names
      · exact .inr hdn
      · exact .inl ((loaded_retireAll hnames.nodup d).mpr ⟨hdn, hl⟩)
  · have hkept := (loaded_retireAll hnames.nodup k).mpr ⟨hkn, hk⟩
    exact htries.steps.grows.loaded hkept

theorem update_list_keeps_loaded_pair :
    let s := (scriptThread pairScripts none ["load p 2"]).state
    (s.Loaded "d".toList ∧ s.Loaded "p".toList) ∧ ∀ k, s.Loaded k →
      (packageUpdateList scriptPlatform [("d".toList, "1".toList), ("p".toList, "9".toList)] false
        s).2.Loaded k := by
  intro s
  have hthread := scriptThread_pair
  obtain ⟨hlist, -, -, hsums, hapart, hfirst, hcleanUps, hkeys, -⟩ := evaluated_pair
  have hloaded {q : Str} (hq : q ∈ ["p".toList, "d".toList]) : s.Loaded q :=
    AList.mem_keys.mpr (hkeys ▸ hq)
  refine ⟨⟨hloaded (by simp), hloaded (by simp)⟩, ?_⟩
  apply update_list_keeps_loaded hthread.documented (parseable_of_none hlist)
  · exact hthread.repeatable hsums _ _ (fun _ ↦ trivial) _
  · exact modulesApart_of_keys hapart _
  · exact fun q _ ↦ cleansUp_of_entries hcleanUps q
  · exact fun q r _ hr ↦ hthread.foundFirst hr hfirst

/-- A compiled package, and a source file for it which lists a dependency that does not exist. -/
def compiledScript : Script := .standard "1".toList [] .ret none

def sourceScript : Script := .standard "2".toList ["x".toList] .ret none

def compiledFiles : FileSystem Script :=
  withFile "p".toList .pyc ⟨compiledScript, true⟩ (scriptFiles [])

def sourceFiles : FileSystem Script := withFile "p".toList .py ⟨sourceScript, true⟩ compiledFiles

/-- The compiled file is loaded, the source file is added, and the package is reloaded, which
takes the compiled file again. -/
def reloadedThread : Thread Script :=
  let t := serve scriptPlatform [words "load p 1"] (boot scriptPlatform compiledFiles none)
  serve scriptPlatform [words "reload p 1"]
    { t with state.fs := sourceFiles }

theorem evaluated_reloaded :
    reloadedThread.state.startupList = none ∧
    (reloadedThread.state.packagesLoaded.entries.all fun e ↦
      (reloadedThread.state.fs.file (candidate scriptPlatform e.1 e.2.ext)).map (·.content.sha1) =
        some e.2.source.sha1) ∧
    (reloadedThread.state.packagesLoaded.entries.all fun e ↦
      dependencyList e.2.source.defines.dependencies = .ok (some e.2.dependencies)) ∧
    (reloadedThread.state.packagesLoaded.entries.all fun e ↦
      (checksumList scriptPlatform reloadedThread.state.fs e.1 extensions).toOption.any
        (e.2.sha1 ∈ ·)) ∧
    (reloadedThread.state.packagesLoaded.keys.map moduleName).Nodup ∧
    (reloadedThread.state.packagesLoaded.entries.all fun e ↦
      e.2.obj.cleanUp.all PyErr.isLogged) ∧
    reloadedThread.state.Loaded "p".toList ∧
    ¬ (packageUpdateList scriptPlatform [("p".toList, "1".toList), ("p".toList, "1".toList)] false
      reloadedThread.state).2.Loaded "p".toList := by
  decide +kernel

theorem scriptThread_reloaded :
    ScriptThread (· = .ret) [compiledScript, sourceScript] reloadedThread where
  reachable := by
    have hcompiled : compiledFiles.All fun _ script ↦ script ∈ [compiledScript, sourceScript] :=
      all_withFile (all_scriptFiles (by simp)) _ (by simp) _ _
    have hboth := all_withFile hcompiled ⟨sourceScript, true⟩ (by simp) "p".toList .py
    apply reachable_serve
    · decide
    · refine .environment ?_ hboth
      apply reachable_serve
      · decide
      · exact reachable_boot scriptPlatform hcompiled none
  runs script hscript := by
    simp only [List.mem_cons, List.not_mem_nil, or_false] at hscript
    rcases hscript with rfl | rfl <;> exact ⟨_, _, _, _, by simp, rfl, rfl⟩
  distinct := by decide
  files := evaluated_reloaded.2.1
  dependencies := evaluated_reloaded.2.2.1

/-- Without the condition on `clean_up`, and without the one on which file is found first, a batch
update can lose a package. -/
theorem update_list_may_lose :
    (¬ ∀ t : Thread Script,
      Reachable scriptPlatform (FileSystem.Documented scriptPlatform) (fun _ _ ↦ True) t →
      Parseable t.state.startupList → ∀ packages autoload,
      Repeatable scriptPlatform (FoundFirst scriptPlatform t.state.fs) (fun _ _ ↦ True) t.state
        (· ∈ packages.map Prod.fst) →
      t.state.ModulesApart (· ∈ packages.map Prod.fst) →
      (∀ q r, t.state.Above (· ∈ packages.map Prod.fst) q → t.state.record q = some r →
        FoundFirst scriptPlatform t.state.fs q r.ext r.source) →
      ∀ k, t.state.Loaded k → (packageUpdateList scriptPlatform packages autoload
        t.state).2.Loaded k) ∧
    ¬ ∀ t : Thread Script,
      Reachable scriptPlatform (FileSystem.Documented scriptPlatform) (fun _ _ ↦ True) t →
      Parseable t.state.startupList → ∀ packages autoload,
      Repeatable scriptPlatform (FoundFirst scriptPlatform t.state.fs) (fun _ _ ↦ True) t.state
        (· ∈ packages.map Prod.fst) →
      t.state.ModulesApart (· ∈ packages.map Prod.fst) →
      (∀ q, t.state.Above (· ∈ packages.map Prod.fst) q → t.state.CleansUp q) →
      ∀ k, t.state.Loaded k → (packageUpdateList scriptPlatform packages autoload
        t.state).2.Loaded k := by
  refine ⟨fun h ↦ ?_, fun h ↦ ?_⟩
  · have hthread := scriptThread_exitingPair
    obtain ⟨hlist, -, -, hsums, hapart, hfirst, -, hp, -, hlost⟩ := evaluated_exitingPair
    exact hlost (h _ hthread.documented (parseable_of_none hlist)
      [("d".toList, "1".toList), ("d".toList, "1".toList)] false
      (hthread.repeatable hsums _ _ (fun _ ↦ trivial) _) (modulesApart_of_keys hapart _)
      (fun q r _ hr ↦ hthread.foundFirst hr hfirst) "p".toList hp)
  · have hthread := scriptThread_reloaded
    obtain ⟨hlist, -, -, hsums, hapart, hcleanUps, hp, hlost⟩ := evaluated_reloaded
    exact hlost (h _ hthread.documented (parseable_of_none hlist)
      [("p".toList, "1".toList), ("p".toList, "1".toList)] false
      (hthread.repeatable hsums _ _ (fun _ ↦ trivial) _) (modulesApart_of_keys hapart _)
      (fun q _ ↦ cleansUp_of_entries hcleanUps q) "p".toList hp)

end Liota.PackageManager
