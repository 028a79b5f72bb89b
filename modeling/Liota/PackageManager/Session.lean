import Liota.PackageManager.Inventory
import Liota.PackageManager.Survival

namespace Liota.PackageManager

open Python Python.Computation Python.Text Relation

variable {F : Type}

namespace Catalogue

section Run

variable {π : Platform F} {fs : FileSystem F} {C : Catalogue π fs} {s : State F}
  {inventory : LowerSet C.Package}

theorem rejected_of_not_loaded (h : C.Holds s inventory) {x : Str} (hx : ¬ s.Loaded x) (c : Str) :
    inventory.sdiff (C.rejected inventory x c) = inventory := by
  refine Graph.sdiff_of_disjoint fun p hp hmem ↦ hx ?_
  rw [← hp.1]
  exact (h.loaded p).mpr hmem

def trackEntries (s : State F) (names : List Str) : List (Str × Str) :=
  (names.map (trackItem s)).reverse.map fun item ↦ (item.name, item.sha1)

theorem mem_trackEntries {names : List Str} {entry : Str × Str} :
    entry ∈ trackEntries s names ↔ ∃ q ∈ names, entry = (q, (trackItem s q).sha1) := by
  constructor
  · intro hentry
    obtain ⟨item, hitem, rfl⟩ := List.mem_map.mp hentry
    obtain ⟨q, hq, rfl⟩ := List.mem_map.mp (List.mem_reverse.mp hitem)
    exact ⟨q, hq, by rw [trackItem_name]⟩
  · rintro ⟨q, hq, rfl⟩
    refine List.mem_map.mpr ⟨trackItem s q, ?_, by rw [trackItem_name]⟩
    exact List.mem_reverse.mpr (List.mem_map_of_mem hq)

theorem Holds.sha1_matches (h : C.Holds s inventory) {q : Str} (hq : s.Loaded q) :
    Matches π fs q (trackItem s q).sha1 := by
  have hsha1 := (h.tracked hq).sha1
  rwa [trackItem_name] at hsha1

theorem Holds.wanted_trackEntries (h : C.Holds s inventory) {packages names : List Str}
    (hnames : Enumerates s (· ∈ packages) names) :
    C.wanted (trackEntries s names) = {p | p ∈ inventory ∧ ∃ p' ∈ C.among packages, p' ≤ p} := by
  ext p
  constructor
  · rintro ⟨c, hmem, -⟩
    obtain ⟨q, hq, heq⟩ := mem_trackEntries.mp hmem
    obtain ⟨rfl, -⟩ := Prod.mk.inj heq
    obtain ⟨y, hy, hly, hup⟩ := (hnames.mem _).mp hq
    exact ⟨(h.loaded p).mp (hnames.loaded hq), ⟨y, h.shelved.stocks hly⟩, hy,
      ((h.shelved.up_iff hly).mp hup).2⟩
  · rintro ⟨hp, p', hp', hle⟩
    have hlp := (h.loaded p).mpr hp
    have hlp' := h.shelved.loaded_below hle hlp
    have hq : p.name ∈ names :=
      (hnames.mem _).mpr ⟨p'.name, hp', hlp', (h.shelved.up_iff hlp').mpr ⟨hlp, hle⟩⟩
    exact ⟨_, mem_trackEntries.mpr ⟨p.name, hq, rfl⟩, h.sha1_matches hlp⟩

theorem Holds.knows_trackEntries (h : C.Holds s inventory) {packages names : List Str}
    (hnames : Enumerates s (· ∈ packages) names) :
    ∀ entry ∈ trackEntries s names, C.Knows entry.1 := by
  intro entry hentry
  obtain ⟨q, hq, rfl⟩ := mem_trackEntries.mp hentry
  exact .inl (h.shelved.stocks (hnames.loaded hq))

theorem sup_wanted_nil : inventory ⊔ lowerClosure (C.wanted []) = inventory := by
  apply Graph.sup_lowerClosure_of_subset
  rintro p ⟨c, hmem, -⟩
  exact absurd hmem List.not_mem_nil

theorem Holds.updateList (h : C.Holds s inventory) {entries : List (Str × Str)}
    (hall : ∀ entry ∈ entries, C.Knows entry.1) (autoload : Bool) :
    ∃ b t, packageUpdateList π entries autoload s = (.ok b, t) ∧
      C.Holds t (inventory ⊔ lowerClosure (C.wanted entries)) := by
  obtain ⟨names, hnames, hunload, hgone⟩ := h.unloadList (entries.map Prod.fst)
  obtain ⟨loaded, t, hload, ht⟩ := hgone.loadList hall autoload
  have hrestored : inventory.sdiff (C.among (entries.map Prod.fst)) ⊔
      lowerClosure (C.wanted entries) ⊔ lowerClosure (C.wanted (trackEntries s names)) =
      inventory ⊔ lowerClosure (C.wanted entries) := by
    rw [sup_right_comm, h.wanted_trackEntries hnames, Graph.sdiff_sup_removed]
  obtain ⟨restored, u, hrestore, hu⟩ := ht.loadList (h.knows_trackEntries hnames) autoload
  rw [hrestored] at hu
  unfold PackageManager.packageUpdateList
  rw [bind_ok hunload]
  dsimp only
  rw [bind_ok hload]
  split
  · next hnil =>
    refine ⟨_, t, rfl, ?_⟩
    rw [trackEntries, hnil, List.reverse_nil, List.map_nil, sup_wanted_nil] at hrestored
    exact hrestored ▸ ht
  · exact ⟨_, u, (bind_ok hrestore).trans rfl, hu⟩

theorem Holds.sdiff_loadedNames (h : C.Holds s inventory) :
    inventory.sdiff (C.among (loadedNames π s)) = ⊥ := by
  apply eq_bot_iff.mpr
  intro q hq
  obtain ⟨hmem, hnot⟩ := Graph.mem_sdiff.mp hq
  refine absurd le_rfl (hnot q ?_)
  have hkey := AList.mem_keys.mp ((h.loaded q).mpr hmem)
  exact (π.keys_perm _).mem_iff.mpr hkey

theorem Holds.unloadAll (h : C.Holds s inventory) :
    ∃ track t, packageUnloadList π (loadedNames π s) [] s = (.ok (true, track), t) ∧
      C.Holds t ⊥ := by
  obtain ⟨names, -, hrun, ht⟩ := h.unloadList (loadedNames π s)
  rw [h.sdiff_loadedNames] at ht
  exact ⟨_, _, hrun, ht⟩

theorem Holds.perform (h : C.Holds s inventory) {request : Request} (hr : C.Handles request) :
    ∃ t, perform π request s = (.ok true, t) ∧ C.Holds t (C.after inventory request) := by
  have hload (x c : Str) (hx : C.Knows x) (autoload : Bool) :=
    h.load hx c none (by simp) autoload
  cases request with
  | load x c autoload =>
    obtain ⟨r, t, hrun, ht, -⟩ := hload x c hr autoload
    exact ⟨t, (bind_ok hrun).trans rfl, ht⟩
  | reload x c autoload =>
    by_cases hx : s.Loaded x
    · obtain ⟨r, t, hrun, ht⟩ := h.restart hx (fun item ↦ some item.ext)
        (fun item e he ↦ (Option.some.inj he).symm) c autoload
      have hreload : packageReload π x c autoload s = (.ok r, t) := by
        rw [packageReload, get_bind_apply, if_pos hx]
        exact hrun
      exact ⟨t, (bind_ok hreload).trans rfl, ht⟩
    · have hreload : packageReload π x c autoload s = (.ok none, s) := by
        rw [packageReload, get_bind_apply, if_neg hx]
        rfl
      refine ⟨s, (bind_ok hreload).trans rfl, ?_⟩
      rw [after, rejected_of_not_loaded h hx]
      exact h
  | update x c autoload =>
    by_cases hx : s.Loaded x
    · obtain ⟨r, t, hrun, ht⟩ := h.restart hx (fun _ ↦ none) (by simp) c autoload
      have hupdate : packageUpdate π x c autoload s = (.ok r, t) := by
        rw [packageUpdate, get_bind_apply, if_pos hx]
        exact hrun
      refine ⟨t, (bind_ok hupdate).trans rfl, ?_⟩
      rw [after, Graph.sup_lowerClosure_of_subset]
      · exact ht
      · intro p hp
        obtain ⟨rfl, hmatches⟩ := mem_wanted_singleton.mp hp
        refine Graph.mem_sdiff.mpr ⟨(h.loaded p).mp hx, fun q hq _ ↦ hq.2.1 hmatches⟩
    · obtain ⟨r, t, hrun, ht, -⟩ := hload x c hr false
      have hupdate : packageUpdate π x c autoload s = (.ok r, t) := by
        rw [packageUpdate, get_bind_apply, if_neg hx]
        exact hrun
      refine ⟨t, (bind_ok hupdate).trans rfl, ?_⟩
      rw [after, rejected_of_not_loaded h hx]
      exact ht
  | loadList entries autoload =>
    obtain ⟨b, t, hrun, ht⟩ := h.loadList hr autoload
    exact ⟨t, (bind_ok hrun).trans rfl, ht⟩
  | updateList entries autoload =>
    obtain ⟨b, t, hrun, ht⟩ := h.updateList hr autoload
    exact ⟨t, (bind_ok hrun).trans rfl, ht⟩
  | unload x =>
    by_cases hx : s.Loaded x
    · obtain ⟨names, -, hrun, ht⟩ := h.unload hx
      exact ⟨_, (bind_ok hrun).trans rfl, ht⟩
    · refine ⟨s, (bind_ok (packageUnload_of_not_loaded hx)).trans rfl, ?_⟩
      rw [after, h.sdiff_of_not_loaded fun y hy ↦ List.mem_singleton.mp hy ▸ hx]
      exact h
  | unloadList names =>
    obtain ⟨_, -, hrun, ht⟩ := h.unloadList names
    exact ⟨_, (bind_ok hrun).trans rfl, ht⟩
  | unloadAll =>
    obtain ⟨track, t, hrun, ht⟩ := h.unloadAll
    refine ⟨t, ?_, ht⟩
    rw [PackageManager.perform, get_bind_apply, bind_ok hrun]
    rfl
  | report what =>
    have hprintable : what.Printable π s := by
      cases what with
      | resources =>
        intro i hi
        rcases (h.shelved.registry i).mp hi with rfl | ⟨x, hx, hmem⟩
        · exact π.isText_packageConf
        · exact C.texts x i (h.shelved.stocks hx) hmem
      | threads => exact hr rfl s.tick
      | other => trivial
    refine ⟨s, ?_, h⟩
    rw [PackageManager.perform, report, if_pos hprintable]
  | ignored => exact ⟨s, rfl, h⟩
  | delete | deleteList | loadAuto | updateAll | terminate => exact hr.elim

theorem shelved_initial (C : Catalogue π fs) {startupList : Option Str}
    (hpar : Parseable startupList) : C.Shelved [] (State.initial π fs startupList) := by
  have hnone (x : Str) : ¬ (State.initial π fs startupList).Loaded x :=
    fun h ↦ AList.notMem_empty x h
  have hrecord (x : Str) : (State.initial π fs startupList).record x = none := rfl
  refine ⟨rfl, consistent_initial fs startupList, hpar, ?_, ?_, by simp, ?_, ?_, ?_⟩
  · intro x r hr
    rw [hrecord] at hr
    cases hr
  · intro x y hy
    exact absurd (State.loaded_of_mem_dependents hy) (hnone x)
  · intro i
    have hmem : i ∈ (State.initial π fs startupList).resourceRegistry.registry ↔
        i = "package_conf".toList ∨ i ∈ (∅ : Dict Ref) := AList.mem_insert ∅
    rw [hmem]
    simp [hnone]
  · intro x i
    have hempty : (State.initial π fs startupList).owned x = [] := rfl
    simp [hempty, hnone]
  · intro x
    simp only [if_neg (hnone x)]
    rfl

theorem holds_initial (C : Catalogue π fs) {startupList : Option Str}
    (hpar : Parseable startupList) : C.Holds (State.initial π fs startupList) ⊥ :=
  ⟨C.shelved_initial hpar, fun p ↦
    iff_of_false (AList.notMem_empty p.name) fun hp ↦ LowerSet.notMem_bot hp⟩

def startupEntries (startupList : Option Str) : List (Str × Str) :=
  (startupList.bind fun text ↦ readStartupList (splitlines text)).getD []

theorem holds_boot (C : Catalogue π fs) {startupList : Option Str} (hpar : Parseable startupList)
    (hknown : ∀ entry ∈ startupEntries startupList, C.Knows entry.1) :
    (boot π fs startupList).status = .running ∧
      C.Holds (boot π fs startupList).state
        (lowerClosure (C.wanted (startupEntries startupList))) := by
  have h := C.holds_initial hpar
  suffices ∃ t, packageLoadAuto π (State.initial π fs startupList) = (.ok (), t) ∧
      C.Holds t (lowerClosure (C.wanted (startupEntries startupList))) by
    obtain ⟨t, hrun, ht⟩ := this
    have hperform : perform π .loadAuto (State.initial π fs startupList) = (.ok true, t) :=
      (bind_ok hrun).trans rfl
    rw [boot, handled, hperform]
    exact ⟨rfl, ht⟩
  have hempty : lowerClosure (C.wanted []) = ⊥ := by
    rw [← bot_sup_eq (lowerClosure (C.wanted [])), sup_wanted_nil]
  cases startupList with
  | none => exact ⟨_, rfl, hempty.symm ▸ h⟩
  | some text =>
    have hread := readStartupList_isSome ((parseable_iff text).mp hpar)
    obtain ⟨entries, hentries⟩ := Option.isSome_iff_exists.mp hread
    have hlist : startupEntries (some text) = entries := by
      simp [startupEntries, hentries]
    rw [hlist] at hknown ⊢
    unfold packageLoadAuto
    simp only [State.initial, hentries]
    split
    · next hnil =>
      rw [hnil]
      exact ⟨_, rfl, hempty.symm ▸ h⟩
    · obtain ⟨b, t, hrun, ht⟩ := h.loadList hknown false
      rw [bot_sup_eq] at ht
      exact ⟨t, (bind_ok hrun).trans rfl, ht⟩

def session (C : Catalogue π fs) (startupList : Option Str) (msgs : List (List Str)) :
    LowerSet C.Package :=
  msgs.foldl (fun inventory msg ↦ C.after inventory (parseMessage msg))
    (lowerClosure (C.wanted (startupEntries startupList)))

theorem Holds.serve (msgs : List (List Str)) (hmsgs : ∀ msg ∈ msgs, C.Handles (parseMessage msg))
    {t : Thread F} (hrunning : t.status = .running) (h : C.Holds t.state inventory) :
    (serve π msgs t).status = .running ∧ C.Holds (serve π msgs t).state
      (msgs.foldl (fun inventory msg ↦ C.after inventory (parseMessage msg)) inventory) := by
  induction msgs generalizing t inventory with
  | nil => exact ⟨hrunning, h⟩
  | cons msg rest ih =>
    obtain ⟨u, hrun, hu⟩ := h.perform (hmsgs msg List.mem_cons_self)
    rw [PackageManager.serve, hrunning]
    dsimp only
    rw [handled, hrun, List.foldl_cons]
    exact ih (fun m hm ↦ hmsgs m (List.mem_cons_of_mem _ hm)) rfl hu

/-- Over package files that keep to the documentation, the manager is a set of packages closed
under dependencies: whatever requests it serves, it keeps running, what is loaded is what the
requests make of that set, and nothing else has left a trace. -/
theorem session_refines (C : Catalogue π fs) {startupList : Option Str}
    (hpar : Parseable startupList)
    (hknown : ∀ entry ∈ startupEntries startupList, C.Knows entry.1) (msgs : List (List Str))
    (hmsgs : ∀ msg ∈ msgs, C.Handles (parseMessage msg)) :
    (serve π msgs (boot π fs startupList)).status = .running ∧
      C.Holds (serve π msgs (boot π fs startupList)).state (C.session startupList msgs) := by
  obtain ⟨hrunning, h⟩ := C.holds_boot hpar hknown
  exact h.serve msgs hmsgs hrunning

/-- What the manager holds is determined by the set of loaded packages. -/
structure Agrees (C : Catalogue π fs) (s t : State F) : Prop where
  loaded : ∀ x, s.Loaded x ↔ t.Loaded x
  dependents : ∀ x y, y ∈ s.dependents x ↔ y ∈ t.dependents x
  registry : ∀ i, i ∈ s.resourceRegistry.registry ↔ i ∈ t.resourceRegistry.registry
  owned : ∀ x i, i ∈ s.owned x ↔ i ∈ t.owned x

theorem Shelved.mem_dependents (h : C.Shelved [] s) (x y : Str) :
    y ∈ s.dependents x ↔ s.Loaded y ∧ x ∈ C.depends y := by
  constructor
  · intro hy
    obtain ⟨hd, hl | hl⟩ := h.dependents x y hy
    · exact ⟨hl, hd⟩
    · exact absurd hl List.not_mem_nil
  · rintro ⟨hl, hd⟩
    exact h.linked hl hd

theorem Holds.agrees (h : C.Holds s inventory) {t : State F} (ht : C.Holds t inventory) :
    C.Agrees s t := by
  have hloaded (x : Str) : s.Loaded x ↔ t.Loaded x := by
    constructor
    · intro hx
      exact (ht.loaded _).mpr (h.mem hx)
    · intro hx
      exact (h.loaded _).mpr (ht.mem hx)
  refine ⟨hloaded, fun x y ↦ ?_, fun i ↦ ?_, fun x i ↦ ?_⟩
  · rw [h.shelved.mem_dependents, ht.shelved.mem_dependents, hloaded]
  · rw [h.shelved.registry, ht.shelved.registry]
    simp only [hloaded]
  · rw [h.shelved.owned, ht.shelved.owned, hloaded]

end Run

end Catalogue

def Request.entries : Request → List (Str × Str)
  | .load x c _ => [(x, c)]
  | .loadList entries _ | .updateList entries _ => entries
  | _ => []

def Request.OnlyLoads : Request → Prop
  | .load _ _ _ | .loadList _ _ | .updateList _ _ | .report _ | .ignored => True
  | _ => False

namespace Catalogue

section Sessions

variable {π : Platform F} {fs : FileSystem F} {C : Catalogue π fs} {s : State F}
  {inventory : LowerSet C.Package} {startupList : Option Str}

theorem wanted_append (entries entries' : List (Str × Str)) :
    C.wanted (entries ++ entries') = C.wanted entries ∪ C.wanted entries' := by
  ext p
  simp only [wanted, List.mem_append, Set.mem_union, Set.mem_ofPred_eq, or_and_right, exists_or]

theorem after_of_onlyLoads {request : Request} (h : request.OnlyLoads) :
    C.after inventory request = inventory ⊔ lowerClosure (C.wanted request.entries) := by
  cases request with
  | load | loadList | updateList => rfl
  | report | ignored => exact sup_wanted_nil.symm
  | reload | update | unload | unloadList | delete | deleteList | loadAuto | unloadAll | updateAll
  | terminate => exact h.elim

theorem session_of_onlyLoads (msgs : List (List Str))
    (h : ∀ msg ∈ msgs, (parseMessage msg).OnlyLoads) :
    C.session startupList msgs = lowerClosure (C.wanted (startupEntries startupList ++
      msgs.flatMap fun msg ↦ (parseMessage msg).entries)) := by
  unfold session
  generalize startupEntries startupList = entries
  induction msgs generalizing entries with
  | nil => rw [List.flatMap_nil, List.append_nil, List.foldl_nil]
  | cons msg rest ih =>
    rw [List.foldl_cons, after_of_onlyLoads (h msg List.mem_cons_self), ← lowerClosure_union,
      ← wanted_append, ih fun m hm ↦ h m (List.mem_cons_of_mem _ hm), List.flatMap_cons,
      List.append_assoc]

/-- In a session that only loads, what is loaded in the end does not depend on the order of the
packages, on how they are batched and on repetitions. -/
theorem loads_confluent (C : Catalogue π fs) (hpar : Parseable startupList)
    (hknown : ∀ entry ∈ startupEntries startupList, C.Knows entry.1) (msgs msgs' : List (List Str))
    (hmsgs : ∀ msg ∈ msgs ++ msgs', C.Handles (parseMessage msg) ∧ (parseMessage msg).OnlyLoads)
    (hsame : ∀ entry, (∃ msg ∈ msgs, entry ∈ (parseMessage msg).entries) ↔
      ∃ msg ∈ msgs', entry ∈ (parseMessage msg).entries) :
    C.Agrees (serve π msgs (boot π fs startupList)).state
      (serve π msgs' (boot π fs startupList)).state := by
  obtain ⟨hrunning, h⟩ := C.holds_boot hpar hknown
  have hleft := h.serve msgs (fun msg hm ↦ (hmsgs msg (by simp [hm])).1) hrunning
  have hright := h.serve msgs' (fun msg hm ↦ (hmsgs msg (by simp [hm])).1) hrunning
  have heq : C.session startupList msgs = C.session startupList msgs' := by
    rw [session_of_onlyLoads msgs fun msg hm ↦ (hmsgs msg (by simp [hm])).2,
      session_of_onlyLoads msgs' fun msg hm ↦ (hmsgs msg (by simp [hm])).2]
    congr 1
    ext p
    simp only [wanted, List.mem_append, List.mem_flatMap, hsame]
  have hstate : C.Holds (serve π msgs' (boot π fs startupList)).state
      (C.session startupList msgs') := hright.2
  rw [← heq] at hstate
  exact hleft.2.agrees hstate

theorem serve_append (msgs msgs' : List (List Str)) (t : Thread F)
    (h : (serve π msgs t).status = .running) :
    serve π (msgs ++ msgs') t = serve π msgs' (serve π msgs t) := by
  induction msgs generalizing t with
  | nil => rfl
  | cons msg rest ih =>
    rw [serve] at h
    rw [List.cons_append, serve, serve]
    cases hs : t.status with
    | running =>
      simp only [hs] at h
      exact ih _ h
    | starting | exited | crashed | hung =>
      simp only [hs] at h
      cases h

end Sessions

end Catalogue

section Shared

def registering (identifier : String) : RunProg :=
  .register identifier.toList (.object 0) .ret (.raise .keyError)

def sharedScripts : List (Str × Script) :=
  [("edge".toList, .standard "1".toList [] (registering "gateway") none),
    ("app".toList, .standard "2".toList ["edge".toList]
      (.has "gateway".toList (registering "metric") (.raise .keyError)) none)]

def sharedDepends (x : Str) : List Str := if x = "app".toList then ["edge".toList] else []

def sharedProvides (x : Str) : List Str :=
  if x = "app".toList then ["metric".toList] else ["gateway".toList]

theorem runs_registering {provides : Str → List Str} {x : Str} {identifier : String}
    (hx : provides x = [identifier.toList]) :
    ∀ r : ResourceRegistry, (∀ i ∈ provides x, i ∉ r.registry) →
      ∃ r', ResourceRegistry.exec x (registering identifier) r = (.ok (), r') ∧
        ∀ i, i ∈ r'.registry ↔ i ∈ r.registry ∨ i ∈ provides x := by
  intro r hfree
  have hnot : identifier.toList ∉ r.registry := hfree _ (by simp [hx])
  refine ⟨r.store identifier.toList (.object 0) x, ?_, fun i ↦ ?_⟩
  · simp only [registering, ResourceRegistry.exec, ResourceRegistry.register, if_neg hnot]
    rfl
  · rw [ResourceRegistry.mem_registry_store, hx, List.mem_singleton, or_comm]

theorem file_edge {ext : Ext} {f : File Script}
    (h : (scriptFiles sharedScripts).file (candidate scriptPlatform "edge".toList ext) = some f) :
    f.content = .standard "1".toList [] (registering "gateway") none := by
  cases ext with
  | py => exact congrArg File.content (Option.some.inj h).symm
  | pyc | pyo => cases h

theorem file_app {ext : Ext} {f : File Script}
    (h : (scriptFiles sharedScripts).file (candidate scriptPlatform "app".toList ext) = some f) :
    f.content = .standard "2".toList ["edge".toList]
      (.has "gateway".toList (registering "metric") (.raise .keyError)) none := by
  cases ext with
  | py => exact congrArg File.content (Option.some.inj h).symm
  | pyc | pyo => cases h

theorem serves_edge (cleanUp : Option PyErr) (h : ∀ e, cleanUp = some e → e.isLogged = true) :
    Serves sharedDepends sharedProvides "edge".toList
      ⟨true, registering "gateway", cleanUp, .ret⟩ where
  isLiotaPackage := rfl
  cleanUp := h
  atCleanUp := trivial
  run r _ hfree _ := runs_registering (by decide) r hfree

theorem serves_app (cleanUp : Option PyErr) (h : ∀ e, cleanUp = some e → e.isLogged = true) :
    Serves sharedDepends sharedProvides "app".toList
      ⟨true, .has "gateway".toList (registering "metric") (.raise .keyError), cleanUp, .ret⟩ where
  isLiotaPackage := rfl
  cleanUp := h
  atCleanUp := trivial
  run r _ hfree hpresent := by
    have hgateway : "gateway".toList ∈ r.registry :=
      hpresent "edge".toList (by decide) _ (by decide)
    have hhas : r.has "gateway".toList = true := decide_eq_true hgateway
    simp only [ResourceRegistry.exec, hhas, if_true]
    exact runs_registering (by decide) r hfree

def SharedStocks (x : Str) : Prop := x = "edge".toList ∨ x = "app".toList

def sharedRank (x : Str) : ℕ := if x = "app".toList then 1 else 0

theorem sharedStocks_named : ∀ x, SharedStocks x → x ≠ [] ∧ Plain x := by
  rintro x (rfl | rfl)
  · exact ⟨by decide, by decide, by simp [NoNewline]⟩
  · exact ⟨by decide, by decide, by simp [NoNewline]⟩

theorem sharedStocks_modules :
    ∀ x y, SharedStocks x → SharedStocks y → moduleName x = moduleName y → x = y := by
  rintro x y (rfl | rfl) (rfl | rfl) h
  · rfl
  · exact absurd h (by decide)
  · exact absurd h (by decide)
  · rfl

theorem sharedStocks_under : ∀ x, SharedStocks x → UnderPackagePath scriptPlatform x := by
  rintro x (rfl | rfl)
  · decide
  · decide

theorem sharedStocks_readable : ∀ x, SharedStocks x →
    ∃ sums, checksumList scriptPlatform (scriptFiles sharedScripts) x extensions = .ok sums := by
  rintro x (rfl | rfl)
  · exact ⟨["1".toList], rfl⟩
  · exact ⟨["2".toList], rfl⟩

theorem sharedStocks_found : ∀ x, SharedStocks x →
    ∃ ext, fileExt scriptPlatform (scriptFiles sharedScripts) x none = some ext := by
  rintro x (rfl | rfl)
  · exact ⟨.py, by decide⟩
  · exact ⟨.py, by decide⟩

theorem sharedStocks_digests : ∀ x ext f, SharedStocks x →
    (scriptFiles sharedScripts).file (candidate scriptPlatform x ext) = some f →
      Hex (scriptPlatform.sha1 f.content) := by
  rintro x ext f (rfl | rfl) hf
  · rw [file_edge hf]
    decide
  · rw [file_app hf]
    decide

theorem sharedStocks_imports : ∀ x ext f, SharedStocks x →
    (scriptFiles sharedScripts).file (candidate scriptPlatform x ext) = some f →
      ∀ tick, scriptPlatform.importing ext f.content tick = .done :=
  fun _ _ _ _ _ _ ↦ rfl

theorem sharedStocks_declares : ∀ x ext f, SharedStocks x →
    (scriptFiles sharedScripts).file (candidate scriptPlatform x ext) = some f →
      (scriptPlatform.assigns ext f.content).dependencies =
        some (.list ((sharedDepends x).map some)) := by
  rintro x ext f (rfl | rfl) hf
  · rw [file_edge hf]
    rfl
  · rw [file_app hf]
    rfl

theorem sharedStocks_defines : ∀ x ext f, SharedStocks x →
    (scriptFiles sharedScripts).file (candidate scriptPlatform x ext) = some f →
      ∃ klass, (scriptPlatform.assigns ext f.content).packageClass = some klass ∧
        ∀ tick, ∃ obj, klass tick = .ok obj ∧ Serves sharedDepends sharedProvides x obj := by
  rintro x ext f (rfl | rfl) hf
  · rw [file_edge hf]
    exact ⟨_, rfl, fun _ ↦ ⟨_, rfl, serves_edge none (by simp)⟩⟩
  · rw [file_app hf]
    exact ⟨_, rfl, fun _ ↦ ⟨_, rfl, serves_app none (by simp)⟩⟩

theorem sharedStocks_nodup : ∀ x, SharedStocks x → (sharedDepends x).Nodup := by
  rintro x (rfl | rfl)
  · decide
  · decide

theorem sharedStocks_closed : ∀ x, SharedStocks x → ∀ d ∈ sharedDepends x,
    SharedStocks d ∧ sharedRank d < sharedRank x := by
  rintro x (rfl | rfl) d hd
  · exact absurd hd (by simp [sharedDepends])
  · obtain rfl : d = "edge".toList := by simpa [sharedDepends] using hd
    exact ⟨.inl rfl, by decide⟩

theorem sharedStocks_apart : ∀ x y i, SharedStocks x → SharedStocks y →
    i ∈ sharedProvides x → i ∈ sharedProvides y → x = y := by
  rintro x y i (rfl | rfl) (rfl | rfl) hx hy
  · rfl
  · obtain rfl : i = "gateway".toList := by simpa [sharedProvides] using hx
    exact absurd hy (by decide)
  · obtain rfl : i = "metric".toList := by simpa [sharedProvides] using hx
    exact absurd hy (by decide)
  · rfl

theorem sharedStocks_unreserved :
    ∀ x, SharedStocks x → "package_conf".toList ∉ sharedProvides x := by
  rintro x (rfl | rfl)
  · decide
  · decide

def sharedCatalogue : Catalogue scriptPlatform (scriptFiles sharedScripts) where
  stocks := SharedStocks
  depends := sharedDepends
  provides := sharedProvides
  rank := sharedRank
  named := sharedStocks_named
  modules := sharedStocks_modules
  under := sharedStocks_under
  readable := sharedStocks_readable
  found := sharedStocks_found
  digests := sharedStocks_digests
  imports := sharedStocks_imports
  declares := sharedStocks_declares
  defines := sharedStocks_defines
  nodup := sharedStocks_nodup
  closed := sharedStocks_closed
  apart := sharedStocks_apart
  unreserved := sharedStocks_unreserved
  texts _ _ _ _ := rfl

theorem knows_startup :
    ∀ entry ∈ Catalogue.startupEntries none, sharedCatalogue.Knows entry.1 := by
  simp [Catalogue.startupEntries]

theorem parse_load_app :
    parseMessage (words "load app 2") = .load "app".toList "2".toList false := by
  decide

theorem parse_load_edge :
    parseMessage (words "load edge 1") = .load "edge".toList "1".toList false := by
  decide

theorem parse_load_both : parseMessage (words "load edge 1 app 2") =
    .loadList [("edge".toList, "1".toList), ("app".toList, "2".toList)] false := by
  decide

theorem knows_edge : sharedCatalogue.Knows "edge".toList := .inl (.inl rfl)

theorem knows_app : sharedCatalogue.Knows "app".toList := .inl (.inr rfl)

theorem session_refines_shared :
    (serve scriptPlatform [words "load app 2", words "unload edge"]
        (boot scriptPlatform (scriptFiles sharedScripts) none)).status = .running ∧
      sharedCatalogue.Holds (serve scriptPlatform [words "load app 2", words "unload edge"]
          (boot scriptPlatform (scriptFiles sharedScripts) none)).state
        (sharedCatalogue.session none [words "load app 2", words "unload edge"]) :=
  Catalogue.session_refines sharedCatalogue (parseable_of_none rfl) knows_startup _ (by
    intro msg hmsg
    simp only [List.mem_cons, List.not_mem_nil, or_false] at hmsg
    rcases hmsg with rfl | rfl
    · exact knows_app
    · exact trivial)

theorem loads_confluent_shared :
    sharedCatalogue.Agrees
      (serve scriptPlatform [words "load edge 1 app 2"]
        (boot scriptPlatform (scriptFiles sharedScripts) none)).state
      (serve scriptPlatform [words "load app 2", words "load edge 1", words "load app 2"]
        (boot scriptPlatform (scriptFiles sharedScripts) none)).state :=
  Catalogue.loads_confluent sharedCatalogue (parseable_of_none rfl) knows_startup
    [words "load edge 1 app 2"] [words "load app 2", words "load edge 1", words "load app 2"]
    (by
      simp only [List.cons_append, List.nil_append, List.forall_mem_cons, parse_load_app,
        parse_load_edge, parse_load_both]
      have hboth : ∀ entry ∈ [("edge".toList, "1".toList), ("app".toList, "2".toList)],
          sharedCatalogue.Knows entry.1 := by
        simp only [List.forall_mem_cons]
        exact ⟨knows_edge, knows_app, by simp⟩
      exact ⟨⟨hboth, trivial⟩, ⟨knows_app, trivial⟩, ⟨knows_edge, trivial⟩, ⟨knows_app, trivial⟩,
        by simp⟩)
    (by
      intro entry
      simp only [List.mem_cons, List.not_mem_nil, or_false, exists_eq_or_imp, exists_eq_left,
        parse_load_app, parse_load_edge, parse_load_both, Request.entries]
      tauto)

end Shared

end Liota.PackageManager
