import Liota.PackageManager.Documented
import Liota.PackageManager.UnloadSpec

namespace Liota.PackageManager

open Python Python.Computation Python.Text Relation

variable {F : Type} {π : Platform F}

/-- `clean_up` of a loaded package raises nothing but what a handler can log. -/
def State.CleansUp (s : State F) (name : Str) : Prop :=
  ∀ r e, s.record name = some r → r.obj.cleanUp = some e → e.isLogged = true

/-- `clean_up` of a package registers nothing. -/
def State.RegistersNothing (s : State F) (name : Str) : Prop :=
  (s.atCleanUp name).RegistersNothing

theorem registersNothing_of_entries {s : State F} (h : s.packagesLoaded.entries.all fun entry ↦
    entry.2.obj.atCleanUp matches .ret) (name : Str) : s.RegistersNothing name := by
  unfold State.RegistersNothing State.atCleanUp
  cases hr : s.record name with
  | none => trivial
  | some r =>
    have hret := List.all_eq_true.mp h _ (AList.mem_lookup_iff.mp hr)
    rw [Option.map_some, Option.getD_some]
    split at hret
    · next heq => rw [heq]; trivial
    · cases hret

theorem cleansUp_of_entries {s : State F} (h : s.packagesLoaded.entries.all fun entry ↦
    entry.2.obj.cleanUp.all PyErr.isLogged) (name : Str) : s.CleansUp name := by
  intro r e hr he
  have hmem := AList.mem_lookup_iff.mp hr
  simpa [he] using List.all_eq_true.mp h _ hmem

/-- What unloading needs of a loaded package, apart from its links. -/
structure Removable (s : State F) (name : Str) : Prop where
  cleansUp : s.CleansUp name
  isLiotaPackage : ∀ r, s.record name = some r → r.obj.isLiotaPackage = true
  nodup : (s.dependencies name).Nodup

theorem Removable.unloadable {s : State F} {name : Str} (h : Removable s name) (hs : Linked s)
    (hl : s.Loaded name) : Unloadable s name := by
  obtain ⟨r, hr⟩ := State.loaded_iff.mp hl
  have hdeps := State.dependencies_of_record hr
  exact ⟨r, hr, h.isLiotaPackage r hr, fun e ↦ h.cleansUp r e hr, hdeps ▸ h.nodup,
    fun d hd ↦ hs name h.nodup d (hdeps ▸ hd)⟩

theorem State.Documented.removable {s : State F} (hs : s.Documented π) {name : Str}
    (h : s.CleansUp name) : Removable s name where
  cleansUp := h
  isLiotaPackage r hr := (hs.records name r hr).2
  nodup := by
    by_cases hl : s.Loaded name
    · obtain ⟨r, hr⟩ := State.loaded_iff.mp hl
      rw [State.dependencies_of_record hr]
      exact (hs.records name r hr).1
    · simp [State.dependencies, State.not_loaded_iff.mp hl]

theorem packageUnload_eq {s : State F} (hs : Consistent s) (hpar : Parseable s.startupList)
    {p : Str} (hp : s.Loaded p) (hall : ∀ q, s.Up p q → Removable s q)
    (track : List TrackItem) : UnloadsTo s (· = p) track (packageUnload π p track s) := by
  refine unloadFuel_eq _ p track s s.packagesLoaded.keys (Nat.le_succ _) hs.toWell hpar hp
    fun q hq ↦ ?_
  have hl := hq.loaded hp
  exact ⟨AList.mem_keys.mp hl, (hall q hq).unloadable hs.linked hl⟩

/-- What the removal of all packages above some others leaves behind. -/
structure Removes (s s' : State F) (names : List Str) : Prop where
  loaded : ∀ q, s'.Loaded q ↔ s.Loaded q ∧ q ∉ names
  order : names.Pairwise fun a b ↦ a ∉ s.dependencies b
  trace : s'.trace = s.trace ++ names.map .cleanedUp
  registry : ∀ i, s'.resourceRegistry.registry.lookup i =
    if ∃ q ∈ names, i ∈ s.owned q then none else s.resourceRegistry.registry.lookup i
  owned : ∀ q, s'.owned q = if q ∈ names then [] else s.owned q
  record : ∀ q ∉ names, ∀ r, s.record q = some r → ∃ dependents,
    s'.record q = some { r with dependents := dependents } ∧ dependents ⊆ r.dependents ∧
      ∀ x ∈ r.dependents, x ∉ names → x ∈ dependents
  fs : s'.fs = s.fs
  sysModules : s'.sysModules = s.sysModules

theorem lookup_registry_drop (name i : Str) (r : ResourceRegistry) :
    (r.drop name).registry.lookup i = if i ∈ r.owned name then none else r.registry.lookup i := by
  unfold ResourceRegistry.drop
  dsimp only
  generalize r.owned name = identifiers
  generalize r.registry = d
  induction identifiers generalizing d with
  | nil => simp
  | cons j rest ih =>
    rw [List.foldl_cons, ih, Dict.lookup_erase_eq]
    by_cases hi : i = j <;> simp [hi]

theorem resourceRegistry_retire {s : State F} {name : Str} (h : s.RegistersNothing name) :
    (retire s name).resourceRegistry = s.resourceRegistry.drop name :=
  ResourceRegistry.exec_of_registersNothing name h _

theorem registersNothing_retire {s : State F} {q : Str} (h : s.RegistersNothing q) (name : Str) :
    (retire s name).RegistersNothing q := by
  unfold State.RegistersNothing State.atCleanUp at h ⊢
  rw [record_retire]
  split
  · trivial
  · cases hr : s.record q with
    | none => trivial
    | some r =>
      rw [hr] at h
      rw [Option.map_some]
      split <;> exact h

theorem registersNothing_retireAll {s : State F} {q : Str} (h : s.RegistersNothing q)
    (names : List Str) : (retireAll s names).RegistersNothing q := by
  induction names generalizing s with
  | nil => exact h
  | cons n rest ih => exact ih (registersNothing_retire h n)

theorem owned_retireAll_of_not_mem (s : State F) {names : List Str} {q : Str} (hq : q ∉ names) :
    (retireAll s names).owned q = s.owned q := by
  induction names generalizing s with
  | nil => rfl
  | cons n rest ih =>
    obtain ⟨hne, hrest⟩ := not_or.mp fun h ↦ hq (List.mem_cons.mpr h)
    refine (ih (retire s n) hrest).trans ?_
    refine (owned_of_registers (ResourceRegistry.exec_registers n _ _) hne).trans ?_
    exact (ResourceRegistry.owned_drop n q s.resourceRegistry).trans (if_neg hne)

theorem lookup_retireAll_of_not_mem {s : State F} (hs : Well s) {names : List Str} {q i : Str}
    (hq : q ∉ names) (hi : i ∈ s.owned q) :
    (retireAll s names).resourceRegistry.registry.lookup i =
      s.resourceRegistry.registry.lookup i := by
  induction names generalizing s with
  | nil => rfl
  | cons n rest ih =>
    obtain ⟨hne, hrest⟩ := not_or.mp fun h ↦ hq (List.mem_cons.mpr h)
    have hother : i ∉ s.resourceRegistry.owned n := fun hn ↦
      hne (hs.partitioned.disjoint q n i hi hn)
    have hkept := lookup_of_registers
      (ResourceRegistry.exec_registers n (s.atCleanUp n) (s.resourceRegistry.drop n))
      ((ResourceRegistry.mem_registry_drop n i _).mpr
        ⟨hs.partitioned.registered q i hi, hother⟩)
    have howned : i ∈ (retire s n).owned q :=
      (show (retireAll s [n]).owned q = _ from
        owned_retireAll_of_not_mem s (by simpa using hne)).symm ▸ hi
    refine (ih (well_retire hs n) hrest howned).trans (hkept.2.trans ?_)
    rw [lookup_registry_drop, if_neg hother]

theorem owned_retireAll_of_mem (s : State F) {names : List Str} (hnodup : names.Nodup) {q : Str}
    (hq : q ∈ names) (hnothing : s.RegistersNothing q) : (retireAll s names).owned q = [] := by
  induction names generalizing s with
  | nil => cases hq
  | cons n rest ih =>
    obtain ⟨hn, hrest⟩ := List.nodup_cons.mp hnodup
    obtain rfl | hq := List.mem_cons.mp hq
    · refine (owned_retireAll_of_not_mem (retire s q) hn).trans ?_
      rw [State.owned, resourceRegistry_retire hnothing, ResourceRegistry.owned_drop, if_pos rfl]
    · exact ih (retire s n) hrest hq (registersNothing_retire hnothing n)

theorem owned_retireAll (s : State F) {names : List Str} (hnodup : names.Nodup)
    (hnothing : ∀ q ∈ names, s.RegistersNothing q) (q : Str) :
    (retireAll s names).owned q = if q ∈ names then [] else s.owned q := by
  split
  · next hq => exact owned_retireAll_of_mem s hnodup hq (hnothing q hq)
  · next hq => exact owned_retireAll_of_not_mem s hq

theorem registry_retireAll (s : State F) (names : List Str) (hnodup : names.Nodup)
    (hnothing : ∀ q ∈ names, s.RegistersNothing q) (i : Str) :
    (retireAll s names).resourceRegistry.registry.lookup i =
      if ∃ q ∈ names, i ∈ s.owned q then none else s.resourceRegistry.registry.lookup i := by
  induction names generalizing s with
  | nil => simp [retireAll]
  | cons n rest ih =>
    obtain ⟨hn, hrest⟩ := List.nodup_cons.mp hnodup
    obtain ⟨hnone, hnothing⟩ := List.forall_mem_cons.mp hnothing
    have hregistry := resourceRegistry_retire hnone
    have howned (q : Str) (hq : q ∈ rest) : (retire s n).owned q = s.owned q := by
      rw [State.owned, hregistry, ResourceRegistry.owned_drop, if_neg fun h : q = n ↦ hn (h ▸ hq)]
      rfl
    have hiff : (∃ q ∈ rest, i ∈ (retire s n).owned q) ↔ ∃ q ∈ rest, i ∈ s.owned q :=
      exists_congr fun q ↦ and_congr_right fun hq ↦ by rw [howned q hq]
    refine (ih (retire s n) hrest fun x hx ↦ registersNothing_retire (hnothing x hx) n).trans ?_
    rw [hregistry, lookup_registry_drop n i s.resourceRegistry]
    simp only [hiff, List.mem_cons, exists_eq_or_imp]
    by_cases hrest' : ∃ q ∈ rest, i ∈ s.owned q
    · simp [hrest']
    · simp only [hrest', if_false, or_false]
      rfl

theorem frame_retireAll (s : State F) (names : List Str) :
    (retireAll s names).trace = s.trace ++ names.map .cleanedUp ∧
      (retireAll s names).fs = s.fs ∧ (retireAll s names).sysModules = s.sysModules ∧
      (retireAll s names).tick = s.tick := by
  induction names generalizing s with
  | nil => simp [retireAll]
  | cons n rest ih =>
    obtain ⟨htrace, hfs, hmodules, htick⟩ := ih (retire s n)
    refine ⟨htrace.trans ?_, hfs, hmodules, htick⟩
    simp [retire]

theorem Enumerates.removes {s : State F} {tops : Str → Prop} {names : List Str}
    (h : Enumerates s tops names) (hs : Linked s)
    (hnodup : ∀ q ∈ names, (s.dependencies q).Nodup)
    (hnothing : ∀ q ∈ names, s.RegistersNothing q) :
    Removes s (retireAll s names) names where
  loaded q := (loaded_retireAll h.nodup q).trans and_comm
  order := by
    refine h.order.imp_of_mem fun {a b} _ hb hab hdep ↦ hab ?_
    exact hs b (hnodup b hb) a hdep
  trace := (frame_retireAll s names).1
  registry := registry_retireAll s names h.nodup hnothing
  owned := owned_retireAll s h.nodup hnothing
  record q hq r hr := by
    refine ⟨_, by rw [record_retireAll s names h.nodup, if_neg hq, hr]; rfl, ?_, ?_⟩
    · exact fun x hx ↦ (List.mem_filter.mp hx).1
    · intro x hx hxn
      exact List.mem_filter.mpr ⟨hx, by simp [hxn]⟩
  fs := (frame_retireAll s names).2.1
  sysModules := (frame_retireAll s names).2.2.1

theorem unloadListFrom_eq (packages failed : List Str) (track : List TrackItem) (s : State F)
    (hs : Consistent s) (hpar : Parseable s.startupList)
    (hall : ∀ p ∈ packages, s.Loaded p → ∀ q, s.Up p q → Removable s q) :
    ∃ names, Enumerates s (· ∈ packages) names ∧
      unloadListFrom π packages failed track s =
        (.ok (failed, track ++ names.map (trackItem s)), retireAll s names) := by
  induction packages generalizing track s with
  | nil => exact ⟨[], (Enumerates.empty s).congr (by simp), by simp [unloadListFrom, retireAll]⟩
  | cons p rest ih =>
    rw [unloadListFrom, get_bind_apply]
    by_cases hp : s.Loaded p
    · obtain ⟨names, hnames, hrun⟩ :=
        packageUnload_eq (π := π) hs hpar hp (hall p (by simp) hp) track
      have hs' : Consistent (retireAll s names) := by
        have h := unloadFuel_consistent (π := π) (s.packagesLoaded.keys.length + 1) p track s hs
        have hrun' : unloadFuel π (s.packagesLoaded.keys.length + 1) p track s = _ := hrun
        rwa [hrun'] at h
      have hrest : ∀ p' ∈ rest, (retireAll s names).Loaded p' →
          ∀ q, (retireAll s names).Up p' q → Removable (retireAll s names) q := by
        intro p' hp' hl q hup
        have hlq := (loaded_retireAll hnames.nodup q).mp (hup.loaded hl)
        have h := hall p' (by simp [hp']) ((loaded_retireAll hnames.nodup p').mp hl).2 q
          (hnames.up_retireAll hup)
        obtain ⟨r, hr⟩ := State.loaded_iff.mp hlq.2
        obtain ⟨d, hd⟩ := hnames.record_retireAll_of_not_mem hlq.1 hr
        refine ⟨fun r' e hr' ↦ ?_, fun r' hr' ↦ ?_, ?_⟩
        · obtain rfl := Option.some.inj (hr'.symm.trans hd)
          exact h.cleansUp r e hr
        · obtain rfl := Option.some.inj (hr'.symm.trans hd)
          exact h.isLiotaPackage r hr
        · rw [dependencies_retireAll hnames.nodup hlq.1]
          exact h.nodup
      obtain ⟨names', hnames', hrun'⟩ := ih (track ++ names.map (trackItem s))
        (retireAll s names) hs' (parseable_retireAll hpar names) hrest
      have hitems : names'.map (trackItem (retireAll s names)) = names'.map (trackItem s) :=
        List.map_congr_left fun q hq ↦ hnames.trackItem_retireAll
          ((loaded_retireAll hnames.nodup q).mp (hnames'.loaded hq)).1
      refine ⟨names ++ names', (hnames.append hnames').congr (by simp), ?_⟩
      rw [if_pos hp, bind_ok hrun]
      dsimp only
      rw [if_pos rfl, hrun', hitems, retireAll_append, List.map_append, List.append_assoc]
    · obtain ⟨names, hnames, hrun⟩ := ih track s hs hpar fun p' hp' ↦ hall p' (by simp [hp'])
      refine ⟨names, hnames.congr fun q ↦ ?_, by rw [if_neg hp, hrun]⟩
      constructor
      · rintro ⟨p', hp', hl, hup⟩
        rcases List.mem_cons.mp hp' with rfl | hp'
        · exact absurd hl hp
        · exact ⟨p', hp', hl, hup⟩
      · rintro ⟨p', hp', hl, hup⟩
        exact ⟨p', by simp [hp'], hl, hup⟩

theorem packageUnloadList_eq {s : State F} (hs : Consistent s) (hpar : Parseable s.startupList)
    {packages : List Str} (hall : ∀ p ∈ packages, s.Loaded p → ∀ q, s.Up p q → Removable s q)
    (track : List TrackItem) :
    UnloadsTo s (· ∈ packages) track (packageUnloadList π packages track s) := by
  obtain ⟨names, hnames, hrun⟩ := unloadListFrom_eq (π := π) packages [] track s hs hpar hall
  exact ⟨names, hnames, (bind_ok hrun).trans rfl⟩

/-- The call returns `True` and removes exactly the packages above `tops`, each entered once at
the end of the track list. -/
def UnloadsExactly (s : State F) (tops : Str → Prop) (track : List TrackItem)
    (result : Outcome (Bool × List TrackItem) × State F) : Prop :=
  ∃ names s', result = (.ok (true, track ++ names.map (trackItem s)), s') ∧ names.Nodup ∧
    (∀ q, q ∈ names ↔ ∃ p, tops p ∧ s.Loaded p ∧ s.Up p q) ∧ Removes s s' names

theorem UnloadsTo.exactly {s : State F} {tops : Str → Prop} {track : List TrackItem}
    {result : Outcome (Bool × List TrackItem) × State F} (h : UnloadsTo s tops track result)
    (hs : Linked s) (hall : ∀ p, tops p → s.Loaded p → ∀ q, s.Up p q → Removable s q)
    (hnothing : ∀ p, tops p → s.Loaded p → ∀ q, s.Up p q → s.RegistersNothing q) :
    UnloadsExactly s tops track result := by
  obtain ⟨names, hnames, hrun⟩ := h
  refine ⟨names, _, hrun, hnames.nodup, hnames.mem,
    hnames.removes hs (fun q hq ↦ ?_) fun q hq ↦ ?_⟩
  · obtain ⟨p, htop, hp, hup⟩ := (hnames.mem q).mp hq
    exact (hall p htop hp q hup).nodup
  · obtain ⟨p, htop, hp, hup⟩ := (hnames.mem q).mp hq
    exact hnothing p htop hp q hup

/-- For documented packages whose `clean_up` raises nothing but what can be logged and registers
nothing, unloading a package or a list of packages removes exactly what is loaded above them,
dependents first. -/
theorem unload_removes_upward_closure {condition : State F → Request → Prop} {t : Thread F}
    (ht : Reachable π (FileSystem.Documented π) condition t)
    (hpar : Parseable t.state.startupList) (track : List TrackItem) :
    (∀ p, t.state.Loaded p →
      (∀ q, t.state.Up p q → t.state.CleansUp q ∧ t.state.RegistersNothing q) →
      UnloadsExactly t.state (· = p) track (packageUnload π p track t.state)) ∧
    ∀ packages, (∀ p ∈ packages, t.state.Loaded p →
        ∀ q, t.state.Up p q → t.state.CleansUp q ∧ t.state.RegistersNothing q) →
      UnloadsExactly t.state (· ∈ packages) track
        (packageUnloadList π packages track t.state) := by
  have hs := ht.consistent
  refine ⟨fun p hp hclean ↦ ?_, fun packages hclean ↦ ?_⟩
  · have hall (q : Str) (hq : t.state.Up p q) : Removable t.state q :=
      ht.documented.removable (hclean q hq).1
    exact (packageUnload_eq hs hpar hp hall track).exactly hs.linked
      (fun p' hp' _ q hq ↦ hall q (hp' ▸ hq)) fun p' hp' _ q hq ↦ (hclean q (hp' ▸ hq)).2
  · have hall (p : Str) (hp : p ∈ packages) (hl : t.state.Loaded p) (q : Str)
        (hq : t.state.Up p q) : Removable t.state q :=
      ht.documented.removable (hclean p hp hl q hq).1
    exact (packageUnloadList_eq hs hpar hall track).exactly hs.linked hall
      fun p hp hl q hq ↦ (hclean p hp hl q hq).2

/-- A documented package whose `clean_up` exits. -/
def exitingScripts : List (Str × Script) :=
  [("p".toList, .standard "1".toList [] .ret (some .baseException))]

theorem documented_exitingScripts :
    (scriptFiles exitingScripts).Documented scriptPlatform := by
  refine documented_scriptFiles fun p hp ↦ ?_
  obtain rfl := List.mem_singleton.mp hp
  exact documented_script _ List.nodup_nil _ _

theorem unload_exiting_not_exact :
    ¬ ∀ t, Reachable scriptPlatform (FileSystem.Documented scriptPlatform) (fun _ _ ↦ True) t →
      Parseable t.state.startupList → ∀ p, t.state.Loaded p →
      UnloadsExactly t.state (· = p) [] (packageUnload scriptPlatform p [] t.state) := by
  intro h
  obtain ⟨names, s', hrun, -⟩ := h (scriptThread exitingScripts none ["load p 1"])
    (reachable_scriptThread documented_exitingScripts none _)
    (parseable_of_none (by decide +kernel)) "p".toList (by decide +kernel)
  have hraised : (packageUnload scriptPlatform "p".toList []
      (scriptThread exitingScripts none ["load p 1"]).state).1 = .raised .baseException := by
    decide +kernel
  rw [hrun] at hraised
  cases hraised

theorem unload_removes_upward_closure_pair :
    (scriptThread pairScripts none ["load p 2"]).state.Loaded "d".toList ∧
      UnloadsExactly (scriptThread pairScripts none ["load p 2"]).state (· = "d".toList) []
        (packageUnload scriptPlatform "d".toList []
          (scriptThread pairScripts none ["load p 2"]).state) :=
  ⟨by decide +kernel, (unload_removes_upward_closure
    (reachable_scriptThread documented_pairScripts none ["load p 2"])
    (parseable_of_none (by decide +kernel)) []).1 "d".toList (by decide +kernel)
    fun q _ ↦ ⟨cleansUp_of_entries (by decide +kernel) q,
      registersNothing_of_entries (by decide +kernel) q⟩⟩

end Liota.PackageManager
