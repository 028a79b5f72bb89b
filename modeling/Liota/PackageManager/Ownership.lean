import Liota.PackageManager.Scripts
import Liota.PackageManager.StackFrame
import Liota.PackageManager.Tries

namespace Liota.PackageManager

open Python Python.Computation Python.Text Relation

variable {F : Type} {π : Platform F}

def confIdentifier : Str := "package_conf".toList

namespace ResourceRegistry

/-- Every registered identifier but one is attributed to a package, and that one to none. -/
structure Attributed (r : ResourceRegistry) : Prop extends r.Partitioned where
  conf : confIdentifier ∈ r.registry
  unowned : ∀ p, confIdentifier ∉ r.owned p
  covered : ∀ i ∈ r.registry, i = confIdentifier ∨ ∃ p, i ∈ r.owned p

theorem attributed_initial (packagePath : Str) : (initial packagePath).Attributed where
  toPartitioned := partitioned_initial packagePath
  conf := (AList.mem_insert (∅ : Dict Ref)).mpr (.inl rfl)
  unowned p := by
    rw [show (initial packagePath).owned p = [] from rfl]
    simp
  covered i hi := by
    rcases (AList.mem_insert (∅ : Dict Ref)).mp hi with rfl | hi
    · exact .inl rfl
    · exact absurd hi (AList.notMem_empty i)

theorem Registers.attributed {name : Str} {r r' : ResourceRegistry} (h : Registers name r r')
    (hname : name ≠ []) (hr : r.Attributed) : r'.Attributed := by
  have hpart := h.partitioned hr.toPartitioned
  obtain ⟨identifier, ref, hi, rfl⟩ := h
  have howned (p : Str) : (r.store identifier ref name).owned p =
      if p = name then r.owned p ++ [identifier] else r.owned p := by
    rw [owned_store]
    simp [hname]
  refine ⟨hpart, (mem_registry_store _ _ _ _ _).mpr (.inr hr.conf), ?_, ?_⟩
  · intro p hp
    rw [howned] at hp
    split at hp
    · rcases List.mem_append.mp hp with hp | hp
      · exact hr.unowned p hp
      · exact hi (List.mem_singleton.mp hp ▸ hr.conf)
    · exact hr.unowned p hp
  · intro i hm
    rcases (mem_registry_store _ _ _ _ _).mp hm with rfl | hm
    · exact .inr ⟨name, by simp [howned]⟩
    · rcases hr.covered i hm with hconf | ⟨p, hp⟩
      · exact .inl hconf
      · refine .inr ⟨p, ?_⟩
        rw [howned]
        split
        · exact List.mem_append_left _ hp
        · exact hp

theorem attributed_of_registers {name : Str} {r r' : ResourceRegistry}
    (h : ReflTransGen (Registers name) r r') (hname : name ≠ []) (hr : r.Attributed) :
    r'.Attributed := by
  induction h with
  | refl => exact hr
  | tail _ hstep ih => exact hstep.attributed hname ih

theorem Attributed.drop {r : ResourceRegistry} (hr : r.Attributed) (name : Str) :
    (r.drop name).Attributed where
  toPartitioned := hr.toPartitioned.drop name
  conf := (mem_registry_drop _ _ _).mpr ⟨hr.conf, hr.unowned name⟩
  unowned p := by
    rw [owned_drop]
    split
    · simp
    · exact hr.unowned p
  covered i hi := by
    obtain ⟨hi, hn⟩ := (mem_registry_drop _ _ _).mp hi
    rcases hr.covered i hi with hconf | ⟨p, hp⟩
    · exact .inl hconf
    · refine .inr ⟨p, ?_⟩
      rw [owned_drop, if_neg]
      · exact hp
      · intro hpn
        exact hn (hpn ▸ hp)

end ResourceRegistry

theorem ne_nil_of_underPackagePath {name : Str} (h : UnderPackagePath π name) : name ≠ [] := by
  intro hname
  subst hname
  have hpath : pathFile π [] = abspath π.packagePath := by
    unfold pathFile joinPath
    split
    · simp
    · next hslash => simpa using abspath_append_slash hslash
  have hlength := h.length_le
  rw [hpath, List.length_append, List.length_singleton] at hlength
  omega

/-- The registry is attributed, and no package with the empty name, for which nothing would be
attributed, is loaded. -/
structure State.Attributed (s : State F) : Prop where
  registry : s.resourceRegistry.Attributed
  named : ¬ s.Loaded []

abbrev KeepsAttributed (s t : State F) : Prop := s.Attributed → t.Attributed

theorem State.Attributed.addDependent {s : State F} (hs : s.Attributed) (d name : Str) :
    (s.addDependent d name).Attributed :=
  ⟨hs.registry, fun hl ↦ hs.named ((State.loaded_modifyRecord _ _ _ s).mp hl)⟩

theorem startPackage_attributed {name : Str} (hname : name ≠ []) (checksum : Option Str)
    (autoload : Bool) (opened : Opened F) (u : State F) :
    KeepsAttributed u (startPackage name checksum autoload opened u).2 := by
  intro hu
  rcases startPackage_cases name checksum autoload opened u with
    hfail | ⟨klass, obj, registry, -, -, hexec, heq⟩
  · refine ⟨ResourceRegistry.attributed_of_registers hfail.registers hname hu.registry, ?_⟩
    rw [State.Loaded, hfail.packagesLoaded]
    exact hu.named
  · obtain ⟨list, hsnd⟩ := recordPackage_snd name checksum autoload (opened.record obj)
      (ran u registry)
    have hregs := ResourceRegistry.exec_registers name obj.run u.resourceRegistry
    rw [hexec] at hregs
    rw [heq, hsnd]
    refine ⟨ResourceRegistry.attributed_of_registers hregs hname hu.registry, fun hl ↦ ?_⟩
    obtain hnil | hl := (State.loaded_insert name [] _ _).mp hl
    · exact hname hnil.symm
    · exact hu.named hl

theorem openPackage_attributed (call : Call) (s : State F) :
    KeepsAttributed s (openPackage π call.name call.checksum call.ext s).2 := by
  have hstep := openPackage_step (π := π) call.name call.checksum call.ext s
  intro hs
  refine ⟨?_, ?_⟩
  · rw [hstep.record.2]
    exact hs.registry
  · rw [State.loaded_iff, hstep.record.1, ← State.loaded_iff]
    exact hs.named

theorem attributed_loadRule : LoadRule π (fun _ _ s _ t ↦ KeepsAttributed (F := F) s t)
    (fun _ _ _ s _ t ↦ KeepsAttributed s t) where
  outOfFuel _ _ _ := id
  closed {_ call s _} _ ho := by
    have h := openPackage_attributed (π := π) call s
    rwa [ho] at h
  refused {_ call s _ _} _ ho := by
    have h := openPackage_attributed (π := π) call s
    rwa [ho] at h
  stopped {_ call s _ _ _ _} _ ho hQ _ _ := by
    have h := openPackage_attributed (π := π) call s
    rw [ho] at h
    exact fun hs ↦ hQ (h hs)
  started {_ call s _ _ opened} _ ho hQ _ _ := by
    have h := openPackage_attributed (π := π) call s
    rw [ho] at h
    intro hs
    apply startPackage_attributed
    · exact ne_nil_of_underPackagePath (openPackage_opens ho).under
    · exact hQ (h hs)
  done _ _ _ := id
  cycle _ _ _ := id
  present _ _ _ hQ := fun hs ↦ hQ (hs.addDependent _ _)
  pulled _ _ _ hP _ _ hQ := fun hs ↦ hQ ((hP hs).addDependent _ _)
  missing _ _ hP _ _ := hP

theorem stopPackage_attributed {name : Str} (hname : name ≠ []) (r : PackageRecord F)
    (track : List TrackItem) :
    Within (fun s t ↦ s.resourceRegistry.Attributed → t.resourceRegistry.Attributed)
      (stopPackage name r track) := by
  let R (s t : State F) : Prop := s.resourceRegistry.Attributed → t.resourceRegistry.Attributed
  have htrans (s t u : State F) (h : R s t) (h' : R t u) : R s u := fun hs ↦ h' (h hs)
  have hsame {α : Type} {x : Manager F α}
      (h : ∀ s, (x s).2.resourceRegistry = s.resourceRegistry) : Within R x :=
    fun s hs ↦ (h s).symm ▸ hs
  have hderegister : Within R (Py.zoom State.resourceRegistry
      (fun r s ↦ { s with resourceRegistry := r })
      (ResourceRegistry.deregisterPackage name)) := by
    intro s hs
    simpa only [Py.zoom, ResourceRegistry.deregisterPackage_eq hs.toPartitioned name]
      using hs.drop name
  have hcleanUp : Within R (cleanUp name r.obj) := by
    intro s hs
    rw [cleanUp_snd]
    exact ResourceRegistry.attributed_of_registers
      (ResourceRegistry.exec_registers name r.obj.atCleanUp s.resourceRegistry) hname hs
  have hunlink (deps : List Str) (s : State F) :
      (deleteFromDependencies name deps s).2.resourceRegistry = s.resourceRegistry := by
    induction deps generalizing s with
    | nil => rfl
    | cons d rest ih =>
      unfold deleteFromDependencies
      split
      · exact (ih _).trans rfl
      · rfl
  unfold stopPackage
  split
  · refine within_bind htrans hderegister fun _ ↦ ?_
    refine within_bind htrans hcleanUp fun _ ↦ ?_
    refine within_bind htrans (hsame (hunlink r.dependencies)) fun _ ↦ ?_
    refine within_bind htrans (hsame fun s ↦ ?_) fun _ ↦ ?_
    · unfold deleteRecord
      split <;> rfl
    refine within_bind htrans (hsame fun s ↦ ?_) fun _ ↦ within_pure (fun _ ↦ id) _
    obtain ⟨list, hlist⟩ := removePackageFromAutoload_frame name s
    rw [hlist]
  · exact within_raise (fun _ ↦ id) _

theorem covers_attributed : Covers π (KeepsAttributed (F := F)) := by
  refine covers_of_updates (fun _ ↦ id) (fun _ _ _ h h' hs ↦ h' (h hs)) ?_ ?_
    (fun _ _ hs ↦ ⟨hs.registry, hs.named⟩) (fun _ _ _ hs ↦ ⟨hs.registry, hs.named⟩)
  · intro name checksum autoload ext s
    exact attributed_loadRule.packageLoad name checksum autoload ext s
  · intro name track s
    refine within_unloadFuel π (fun _ ↦ id) (fun _ _ _ h h' hs ↦ h' (h hs)) ?_ _ name track s
    intro s name r track u hl hu hs
    have hname : name ≠ [] := fun hnil ↦ hs.named (hnil ▸ hl)
    exact ⟨stopPackage_attributed hname r track u (hu hs).registry,
      fun hgone ↦ (hu hs).named ((stopPackage_shrinks name r track u).loaded hgone)⟩

theorem Reachable.attributed {files : FileSystem F → Prop}
    {condition : State F → Request → Prop} {t : Thread F} (ht : Reachable π files condition t) :
    t.state.Attributed :=
  ht.invariant
    (fun _ _ _ ↦ ⟨ResourceRegistry.attributed_initial _, AList.notMem_empty []⟩)
    (fun _ _ _ _ hs ↦ ⟨hs.registry, hs.named⟩)
    fun s request _ hs ↦ covers_attributed.perform request s hs

/-- In every reachable state the registered identifiers are partitioned by their owners;
deregistering a package never raises and takes away its own identifiers only, and so does
unloading one with all that is above it, as far as their `clean_up` registers nothing. -/
theorem registry_partitioned {files : FileSystem F → Prop}
    {condition : State F → Request → Prop} {t : Thread F} (ht : Reachable π files condition t) :
    let r := t.state.resourceRegistry
    ((∀ p, (r.owned p).Nodup) ∧ (∀ p q, p ≠ q → (r.owned p).Disjoint (r.owned q)) ∧
      ∀ i, i ∈ r.registry ↔ i = "package_conf".toList ∨ ∃ p, i ∈ r.owned p) ∧
    (∀ p, ∃ r', ResourceRegistry.deregisterPackage p r = (.ok (), r') ∧
      (∀ i ∈ r.owned p, i ∉ r'.registry) ∧
      ∀ q, q ≠ p → r'.owned q = r.owned q ∧
        ∀ i ∈ r.owned q, r'.registry.lookup i = r.registry.lookup i) ∧
    ∀ p, t.state.Loaded p → ∀ track track' s',
      packageUnload π p track t.state = (.ok (true, track'), s') →
      (t.state.RegistersNothing p → ∀ i ∈ r.owned p, i ∉ s'.resourceRegistry.registry) ∧
      (∀ q, t.state.Up p q → t.state.RegistersNothing q → s'.owned q = []) ∧
      ∀ q, ¬ t.state.Up p q → s'.owned q = r.owned q ∧
        ∀ i ∈ r.owned q, s'.resourceRegistry.registry.lookup i = r.registry.lookup i := by
  intro r
  have hr : r.Attributed := ht.attributed.registry
  refine ⟨⟨hr.nodup, fun p q hne i hp hq ↦ hne (hr.disjoint p q i hp hq), fun i ↦ ?_⟩,
    fun p ↦ ?_, fun p hp track track' s' hunload ↦ ?_⟩
  · refine ⟨hr.covered i, ?_⟩
    rintro (rfl | ⟨p, hp⟩)
    · exact hr.conf
    · exact hr.registered p i hp
  · refine ⟨r.drop p, ResourceRegistry.deregisterPackage_eq hr.toPartitioned p, ?_, ?_⟩
    · intro i hi hreg
      exact ((ResourceRegistry.mem_registry_drop _ _ _).mp hreg).2 hi
    · intro q hq
      refine ⟨?_, fun i hi ↦ ?_⟩
      · rw [ResourceRegistry.owned_drop, if_neg hq]
      · rw [lookup_registry_drop, if_neg]
        intro hip
        exact hq (hr.disjoint q p i hi hip)
  · obtain ⟨-, names, hnames, -, -, rfl⟩ := packageUnload_ok ht.consistent hp hunload
    have hmem (q : Str) : q ∈ names ↔ t.state.Up p q := by
      rw [hnames.mem]
      constructor
      · rintro ⟨p', rfl, -, hup⟩
        exact hup
      · exact fun hup ↦ ⟨p, rfl, hp, hup⟩
    refine ⟨fun hnothing i hi hreg ↦ ?_, fun q hup hnothing ↦ ?_, fun q hup ↦ ?_⟩
    · obtain ⟨above, rfl⟩ := hnames.eq_concat hp
      have habove : p ∉ above := fun h ↦
        (List.nodup_append.mp hnames.nodup).2.2 p h p (List.mem_singleton_self p) rfl
      have hlast : (retireAll (retireAll t.state above) [p]).resourceRegistry =
          (retireAll t.state above).resourceRegistry.drop p :=
        resourceRegistry_retire (registersNothing_retireAll hnothing above)
      rw [retireAll_append, hlast] at hreg
      apply ((ResourceRegistry.mem_registry_drop _ _ _).mp hreg).2
      have howned := owned_retireAll_of_not_mem t.state habove
      exact (show ResourceRegistry.owned p _ = r.owned p from howned).symm ▸ hi
    · exact owned_retireAll_of_mem t.state hnames.nodup ((hmem q).mpr hup) hnothing
    · have hq : q ∉ names := fun h ↦ hup ((hmem q).mp h)
      exact ⟨owned_retireAll_of_not_mem t.state hq,
        fun i hi ↦ lookup_retireAll_of_not_mem ht.consistent.toWell hq hi⟩

/-- A package that registers `x`, and one that registers `y` and then fails. -/
def registeringScripts : List (Str × Script) :=
  [("a".toList, .standard "1".toList [] (.register "x".toList (.object 0) .ret .ret) none),
    ("b".toList, .standard "2".toList []
      (.register "y".toList (.object 1) (.raise .keyError) .ret) none)]

theorem registry_partitioned_registering :
    let s := (scriptThread registeringScripts none ["load a 1", "load b 2"]).state
    s.owned "a".toList = ["x".toList] ∧ s.owned "b".toList = ["y".toList] ∧
      ¬ s.Loaded "b".toList ∧
      (∀ i, i ∈ s.resourceRegistry.registry ↔ i = "package_conf".toList ∨ ∃ p, i ∈ s.owned p) ∧
      ∃ track s', packageUnload scriptPlatform "a".toList [] s = (.ok (true, track), s') ∧
        "x".toList ∉ s'.resourceRegistry.registry := by
  intro s
  have ht : Reachable scriptPlatform (fun _ ↦ True) (fun _ _ ↦ True)
      (scriptThread registeringScripts none ["load a 1", "load b 2"]) :=
    reachable_scriptThread trivial _ _
  obtain ⟨⟨-, -, hcovered⟩, -, hunloaded⟩ := registry_partitioned ht
  have howned : s.owned "a".toList = ["x".toList] := by decide +kernel
  refine ⟨howned, by decide +kernel, by decide +kernel, hcovered, ?_⟩
  have htrue : (packageUnload scriptPlatform "a".toList [] s).1 =
      .ok (true, [⟨"a".toList, .py, "1".toList⟩]) := by decide +kernel
  rcases hunload : packageUnload scriptPlatform "a".toList [] s with ⟨o, s'⟩
  rw [hunload] at htrue
  obtain rfl : o = _ := htrue
  have hgone := (hunloaded "a".toList (by decide +kernel) [] _ s' hunload).1
    (registersNothing_of_entries (by decide +kernel) _)
  exact ⟨_, s', rfl, hgone _ (by rw [show ResourceRegistry.owned _ _ = _ from howned]; simp)⟩

/-- A package that registers `x` when it is run, and again when it is cleaned up. -/
def persistentScripts : List (Str × Script) :=
  [("p".toList,
    { sha1 := "1".toList
      defines :=
        { dependencies := some (.list [])
          packageClass := some fun _ ↦ .ok
            { isLiotaPackage := true
              run := .register "x".toList (.object 0) .ret .ret
              cleanUp := none
              atCleanUp := .register "x".toList (.object 1) .ret .ret } } })]

/-- What a package registers when it is cleaned up outlives it. -/
theorem registered_after_unload :
    ¬ ∀ t, Reachable scriptPlatform (fun _ ↦ True) (fun _ _ ↦ True) t →
      ∀ p, t.state.Loaded p → ∀ track track' s',
      packageUnload scriptPlatform p track t.state = (.ok (true, track'), s') →
      ∀ i ∈ t.state.owned p, i ∉ s'.resourceRegistry.registry := by
  intro h
  let t := scriptThread persistentScripts none ["load p 1"]
  let result := packageUnload scriptPlatform "p".toList [] t.state
  have htrue : result.1 = .ok (true, [⟨"p".toList, .py, "1".toList⟩]) := by decide +kernel
  have howned : t.state.owned "p".toList = ["x".toList] := by decide +kernel
  have hstays : "x".toList ∈ result.2.resourceRegistry.registry := by decide +kernel
  exact h t (reachable_scriptThread trivial none _) "p".toList (by decide +kernel) [] _ result.2
    (by rw [← htrue]) "x".toList (howned ▸ List.mem_singleton_self _) hstays

end Liota.PackageManager
