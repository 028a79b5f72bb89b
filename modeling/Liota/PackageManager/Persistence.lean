import Liota.PackageManager.Recording
import Liota.PackageManager.Session

namespace Liota.PackageManager

open Python Python.Computation Python.Text Relation

variable {F : Type}

namespace Catalogue

section Definitions

variable {π : Platform F} {fs : FileSystem F} (C : Catalogue π fs)

/-- The packages that are loaded, and those that the next start loads with what they need. -/
structure Ledger where
  inventory : LowerSet C.Package
  recorded : Set C.Package

/-- The start-up list is there, and what it lists are these packages, each with a checksum of its
own. -/
structure Lists (startupList : Option Str) (recorded : Set C.Package) : Prop where
  present : startupList ≠ none
  parseable : Parseable startupList
  sound : ∀ entry ∈ startupEntries startupList, C.stocks entry.1 ∧ Matches π fs entry.1 entry.2
  mem : ∀ p : C.Package, p ∈ recorded ↔ p.name ∈ (startupEntries startupList).map Prod.fst

/-- The state of the manager and its start-up list are as the ledger says. -/
structure Keeps (s : State F) (ledger : C.Ledger) : Prop where
  holds : C.Holds s ledger.inventory
  lists : C.Lists s.startupList ledger.recorded
  loaded : ledger.recorded ⊆ ledger.inventory

end Definitions

namespace Ledger

variable {π : Platform F} {fs : FileSystem F} {C : Catalogue π fs}

def load (autoload : Bool) (ledger : C.Ledger) (entry : Str × Str) : C.Ledger where
  inventory := ledger.inventory ⊔ lowerClosure (C.wanted [entry])
  recorded :=
    if autoload then ledger.recorded ∪ (C.wanted [entry] \ ledger.inventory) else ledger.recorded

def loadList (autoload : Bool) (ledger : C.Ledger) (entries : List (Str × Str)) : C.Ledger :=
  entries.foldl (load autoload) ledger

def unload (ledger : C.Ledger) (names : List Str) : C.Ledger where
  inventory := ledger.inventory.sdiff (C.among names)
  recorded := ledger.recorded ∩ ledger.inventory.sdiff (C.among names)

/-- Of all that is unloaded and loaded again, only the package that is named can get a line. -/
def restart (autoload : Bool) (ledger : C.Ledger) (x c : Str) : C.Ledger where
  inventory := ledger.inventory.sdiff (C.rejected ledger.inventory x c)
  recorded := (ledger.unload [x]).recorded ∪
    if autoload then C.wanted [(x, c)] ∩ ledger.inventory else ∅

def restore (autoload : Bool) (ledger : C.Ledger) (inventory : LowerSet C.Package) :
    C.Ledger where
  inventory := ledger.inventory ⊔ inventory
  recorded :=
    if autoload then ledger.recorded ∪ (inventory \ ledger.inventory) else ledger.recorded

def after (ledger : C.Ledger) : Request → C.Ledger
  | .load x c autoload => ledger.load autoload (x, c)
  | .reload x c autoload => ledger.restart autoload x c
  | .update x c autoload => (ledger.restart autoload x c).load false (x, c)
  | .loadList entries autoload => ledger.loadList autoload entries
  | .updateList entries autoload =>
    ((ledger.unload (entries.map Prod.fst)).loadList autoload entries).restore autoload
      ledger.inventory
  | .unload x => ledger.unload [x]
  | .unloadList names => ledger.unload names
  | .unloadAll | .terminate => ⟨⊥, ∅⟩
  | .delete _ | .deleteList _ | .loadAuto | .updateAll | .report _ | .ignored => ledger

theorem load_recorded_subset {ledger : C.Ledger} (h : ledger.recorded ⊆ ledger.inventory)
    (autoload : Bool) (entry : Str × Str) :
    (ledger.load autoload entry).recorded ⊆ (ledger.load autoload entry).inventory := by
  have hle : (ledger.inventory : Set C.Package) ⊆ (ledger.load autoload entry).inventory :=
    fun q hq ↦ Graph.mem_sup_lowerClosure.mpr (.inl hq)
  cases autoload with
  | false => exact h.trans hle
  | true =>
    rintro q (hq | ⟨hq, -⟩)
    · exact hle (h hq)
    · exact Graph.mem_sup_lowerClosure.mpr (.inr ⟨q, hq, le_rfl⟩)

theorem loadList_inventory (autoload : Bool) (entries : List (Str × Str)) (ledger : C.Ledger) :
    (ledger.loadList autoload entries).inventory =
      ledger.inventory ⊔ lowerClosure (C.wanted entries) := by
  induction entries generalizing ledger with
  | nil => exact sup_wanted_nil.symm
  | cons entry rest ih =>
    rw [loadList, List.foldl_cons, ← loadList, ih, wanted_cons, ← Graph.sup_lowerClosure_union]
    rfl

/-- Packages that are loaded one after the other, none of them below one that comes before it, get
a line each unless they were loaded. -/
theorem loadList_recorded {entries : List (Str × Str)}
    (h : entries.Pairwise fun entry entry' ↦
      ∀ p ∈ C.wanted [entry], ∀ q ∈ C.wanted [entry'], ¬ q ≤ p) (ledger : C.Ledger) :
    (ledger.loadList true entries).recorded =
      ledger.recorded ∪ (C.wanted entries \ ledger.inventory) := by
  induction entries generalizing ledger with
  | nil =>
    have hnil : C.wanted [] = ∅ := by simp [wanted]
    rw [hnil, Set.empty_sdiff, Set.union_empty]
    rfl
  | cons entry rest ih =>
    obtain ⟨hfirst, hrest⟩ := List.pairwise_cons.mp h
    rw [loadList, List.foldl_cons, ← loadList, ih hrest, wanted_cons entry rest,
      Set.union_sdiff_distrib, ← Set.union_assoc]
    apply congrArg₂ (· ∪ ·) rfl
    ext q
    refine and_congr_right fun hq ↦ not_congr ?_
    rw [load, SetLike.mem_coe, SetLike.mem_coe, Graph.mem_sup_lowerClosure]
    constructor
    · rintro (hmem | ⟨p, hp, hle⟩)
      · exact hmem
      · obtain ⟨c, hc, hmatches⟩ := hq
        refine absurd hle (hfirst _ hc p hp q ?_)
        exact ⟨c, List.mem_singleton_self _, hmatches⟩
    · exact .inl

end Ledger

section List

variable {π : Platform F} {fs : FileSystem F} {C : Catalogue π fs} {s : State F}
  {recorded : Set C.Package} {names : List Str} {entry : Str × Str}

theorem readStartupList_eq {lines : List Str}
    (h : ∀ values ∈ lines, (splitRecord values).isSome) :
    readStartupList lines = some (lines.filterMap splitRecord) := by
  induction lines with
  | nil => rfl
  | cons values rest ih =>
    obtain ⟨kv, hkv⟩ := Option.isSome_iff_exists.mp (h values List.mem_cons_self)
    rw [readStartupList, hkv, ih fun w hw ↦ h w (List.mem_cons_of_mem _ hw),
      List.filterMap_cons_some hkv]

theorem mem_startupEntries {startupList : Option Str} (hpar : Parseable startupList) :
    entry ∈ startupEntries startupList ↔
      ∃ values ∈ startupLines startupList, splitRecord values = some entry := by
  cases startupList with
  | none => simp [startupEntries, startupLines]
  | some text =>
    rw [parseable_iff] at hpar
    simp [startupEntries, startupLines, readStartupList_eq hpar, List.mem_filterMap]

theorem mem_startupEntries_retireAll (hpar : Parseable s.startupList) (names : List Str) :
    entry ∈ startupEntries (retireAll s names).startupList ↔
      entry ∈ startupEntries s.startupList ∧ entry.1 ∉ names := by
  rw [mem_startupEntries (parseable_retireAll hpar names), mem_startupEntries hpar,
    startupLines_retireAll]
  have hkey {values : Str} (h : splitRecord values = some entry) :
      lineKey values = some entry.1 := by
    rw [lineKey, h]
    rfl
  constructor
  · rintro ⟨values, hvalues, h⟩
    simp only [List.mem_filter, decide_eq_true_eq] at hvalues
    exact ⟨⟨values, hvalues.1, h⟩, fun hmem ↦ hvalues.2 _ hmem (hkey h)⟩
  · rintro ⟨⟨values, hvalues, h⟩, hnot⟩
    refine ⟨values, ?_, h⟩
    simp only [List.mem_filter, decide_eq_true_eq]
    refine ⟨hvalues, fun n hn heq ↦ hnot ?_⟩
    rw [hkey h] at heq
    exact Option.some.inj heq ▸ hn

theorem linesOf_eq_nil_iff {name : Str} {startupList : Option Str}
    (hpar : Parseable startupList) :
    linesOf name startupList = [] ↔ name ∉ (startupEntries startupList).map Prod.fst := by
  rw [linesOf, List.filter_eq_nil_iff]
  simp only [decide_eq_true_eq, List.mem_map, mem_startupEntries hpar, not_exists, not_and]
  constructor
  · rintro h ⟨k, v⟩ ⟨values, hvalues, hsplit⟩ rfl
    apply h values hvalues
    rw [lineKey, hsplit]
    rfl
  · intro h values hvalues hkey
    obtain ⟨kv, hkv, rfl⟩ := Option.map_eq_some_iff.mp hkey
    exact h kv ⟨values, hvalues, hkv⟩ rfl

theorem mem_startupEntries_written {name sum : Str} (hpar : Parseable s.startupList)
    (hsome : s.startupList ≠ none) (hname : Plain name) (hsum : Plain sum) :
    entry ∈ startupEntries (writePackageIntoAutoload name sum s).2.startupList ↔
      entry ∈ startupEntries s.startupList ∨
        entry = (name, sum) ∧ name ∉ (startupEntries s.startupList).map Prod.fst := by
  rw [mem_startupEntries (parseable_written hpar hname hsum), mem_startupEntries hpar,
    startupLines_written hpar hsome hname hsum]
  simp only [linesOf_eq_nil_iff hpar, List.mem_append, or_and_right, exists_or]
  refine or_congr_right ?_
  split
  · next hnot => simp [hnot, splitRecord_append hname.1 hsum.1, eq_comm]
  · next hmem => simp only [List.not_mem_nil, false_and, exists_false, hmem, and_false]

theorem Lists.retireAll (h : C.Lists s.startupList recorded) (names : List Str) :
    C.Lists (PackageManager.retireAll s names).startupList {p ∈ recorded | p.name ∉ names} := by
  refine ⟨retireAll_startupList_ne_none h.present, parseable_retireAll h.parseable names, ?_,
    fun p ↦ ?_⟩
  · intro entry hentry
    exact h.sound entry ((mem_startupEntries_retireAll h.parseable names).mp hentry).1
  · simp only [Set.mem_ofPred_eq, h.mem, List.mem_map, mem_startupEntries_retireAll h.parseable]
    constructor
    · rintro ⟨⟨entry, hentry, hname⟩, hnot⟩
      exact ⟨entry, ⟨hentry, hname ▸ hnot⟩, hname⟩
    · rintro ⟨entry, ⟨hentry, hnot⟩, hname⟩
      exact ⟨⟨entry, hentry, hname⟩, hname ▸ hnot⟩

theorem Lists.written (h : C.Lists s.startupList recorded) {x sum : Str} (hx : C.stocks x)
    (hsum : Matches π fs x sum) :
    C.Lists (writePackageIntoAutoload x sum s).2.startupList (recorded ∪ {p | p.name = x}) := by
  have hname := (C.named x hx).2
  have hplain := C.plain_of_matches hx hsum
  have hmem (entry : Str × Str) :
      entry ∈ startupEntries (writePackageIntoAutoload x sum s).2.startupList ↔
        entry ∈ startupEntries s.startupList ∨
          entry = (x, sum) ∧ x ∉ (startupEntries s.startupList).map Prod.fst :=
    mem_startupEntries_written h.parseable h.present hname hplain
  refine ⟨startupList_written_ne_none x sum h.present, parseable_written h.parseable hname hplain,
    ?_, fun p ↦ ?_⟩
  · intro entry hentry
    rcases (hmem entry).mp hentry with hentry | ⟨rfl, -⟩
    · exact h.sound entry hentry
    · exact ⟨hx, hsum⟩
  · simp only [Set.mem_union, Set.mem_ofPred_eq, h.mem, List.mem_map, hmem]
    constructor
    · rintro (⟨entry, hentry, heq⟩ | rfl)
      · exact ⟨entry, .inl hentry, heq⟩
      · by_cases hl : p.name ∈ (startupEntries s.startupList).map Prod.fst
        · obtain ⟨entry, hentry, heq⟩ := List.mem_map.mp hl
          exact ⟨entry, .inl hentry, heq⟩
        · exact ⟨(p.name, sum), .inr ⟨rfl, fun hex ↦ hl (List.mem_map.mpr hex)⟩, rfl⟩
    · rintro ⟨entry, hentry | ⟨rfl, -⟩, heq⟩
      · exact .inl ⟨entry, hentry, heq⟩
      · exact .inr heq.symm

theorem Lists.wanted_eq {startupList : Option Str} (h : C.Lists startupList recorded) :
    C.wanted (startupEntries startupList) = recorded := by
  ext p
  rw [h.mem]
  constructor
  · rintro ⟨c, hmem, -⟩
    exact List.mem_map.mpr ⟨_, hmem, rfl⟩
  · intro hp
    obtain ⟨entry, hentry, hname⟩ := List.mem_map.mp hp
    exact ⟨entry.2, hname ▸ hentry, hname ▸ (h.sound entry hentry).2⟩

end List

section Steps

variable {π : Platform F} {fs : FileSystem F} {C : Catalogue π fs} {s t : State F}
  {ledger : C.Ledger} {x c : Str}

theorem Keeps.retireAll (h : C.Keeps s ledger) {packages names : List Str}
    (hnames : Enumerates s (· ∈ packages) names) :
    C.Keeps (PackageManager.retireAll s names) (ledger.unload packages) := by
  have hgone : C.Holds (PackageManager.retireAll s names) (ledger.unload packages).inventory :=
    h.holds.retireAll hnames
  refine ⟨hgone, ?_, Set.inter_subset_right⟩
  have hsame : (ledger.unload packages).recorded = {p ∈ ledger.recorded | p.name ∉ names} := by
    ext p
    refine and_congr_right fun hp ↦ ?_
    change p ∈ (ledger.unload packages).inventory ↔ _
    rw [← hgone.loaded, loaded_retireAll hnames.nodup]
    exact and_iff_left ((h.holds.loaded p).mpr (h.loaded hp))
  rw [hsame]
  exact h.lists.retireAll names

theorem Keeps.made (h : C.Keeps s ledger) (hx : C.Knows x) (c : Str) (autoload : Bool) :
    C.Keeps (makeCall π (listCall autoload (x, c)) s).2 (ledger.load autoload (x, c)) := by
  have hcall : makeCall π (listCall autoload (x, c)) s = packageLoad π x (some c) autoload none s :=
    rfl
  by_cases hnone : ∀ p ∈ C.wanted [(x, c)], p ∈ ledger.inventory
  · have hsame : ledger.load autoload (x, c) = ledger := by
      have hempty : C.wanted [(x, c)] \ ledger.inventory = ∅ := Set.sdiff_eq_empty.mpr hnone
      rw [Ledger.load, Graph.sup_lowerClosure_of_subset hnone, hempty, Set.union_empty, ite_self]
    rw [hcall, h.holds.refused hx hnone (by simp) autoload, hsame]
    exact h
  · push Not at hnone
    obtain ⟨p, hp, hnot⟩ := hnone
    obtain ⟨rfl, hmatches⟩ := mem_wanted_singleton.mp hp
    obtain ⟨r, t, hrun, ht, hsha1⟩ := h.holds.load hx c none (by simp) autoload
    have hown := makeCall_ownEffect (π := π) (listCall autoload (p.name, c)) s
    rw [hcall, hrun] at hown ⊢
    have hl : t.Loaded p.name :=
      (ht.loaded p).mpr (Graph.mem_sup_lowerClosure.mpr (.inr ⟨p, hp, le_rfl⟩))
    obtain ⟨r', hr'⟩ := State.loaded_iff.mp hl
    obtain ⟨u, hu, hlist⟩ := (hown.enters r' (fun hs ↦ hnot ((h.holds.loaded p).mp hs)) hr').listed
    have hwanted : C.wanted [(p.name, c)] \ ledger.inventory = {q | q.name = p.name} := by
      ext q
      rw [Set.mem_sdiff, mem_wanted_singleton]
      constructor
      · exact fun hq ↦ hq.1.1
      · intro hq
        obtain rfl : q = p := by cases q; cases p; exact Package.mk.injEq .. ▸ hq
        exact ⟨⟨rfl, hmatches⟩, hnot⟩
    refine ⟨ht, ?_, Ledger.load_recorded_subset h.loaded autoload (p.name, c)⟩
    rw [hlist, Ledger.load]
    cases autoload with
    | false =>
      rw [hu]
      exact h.lists
    | true =>
      rw [hwanted]
      exact (hu ▸ h.lists).written p.stocked (ht.shelved.records _ _ hr').sha1

theorem Keeps.tries {autoload : Bool} {entries : List (Str × Str)}
    (hall : ∀ entry ∈ entries, C.Knows entry.1)
    (htries : Tries π (entries.map (listCall autoload)) s t) (h : C.Keeps s ledger) :
    C.Keeps t (ledger.loadList autoload entries) := by
  induction entries generalizing s ledger with
  | nil =>
    cases htries
    exact h
  | cons entry rest ih =>
    have hrest := fun e he ↦ hall e (List.mem_cons_of_mem _ he)
    have hmade := h.made (hall entry List.mem_cons_self) entry.2 autoload
    cases htries with
    | skipped hl htries =>
      refine ih hrest htries ?_
      have hnone : ∀ p ∈ C.wanted [entry], p ∈ ledger.inventory := by
        intro p hp
        rw [← h.holds.loaded, (mem_wanted_singleton.mp hp).1]
        exact hl
      have hrefused : packageLoad π entry.1 (some entry.2) autoload none s = (.ok none, s) :=
        h.holds.refused (hall entry List.mem_cons_self) hnone (by simp) autoload
      have hsame : (makeCall π (listCall autoload entry) s).2 = s := congrArg Prod.snd hrefused
      rwa [hsame] at hmade
    | made _ htries => exact ih hrest htries hmade

theorem Keeps.loadList (h : C.Keeps s ledger) {entries : List (Str × Str)}
    (hall : ∀ entry ∈ entries, C.Knows entry.1) {autoload b : Bool}
    (hrun : packageLoadList π entries autoload s = (.ok b, t)) :
    C.Keeps t (ledger.loadList autoload entries) := by
  obtain ⟨-, htries⟩ := packageLoadList_tries (π := π) autoload entries s
  rw [hrun] at htries
  exact h.tries hall htries

theorem Holds.isSome_iff {inventory : LowerSet C.Package} (h : C.Holds s inventory)
    (hx : C.stocks x) (hn : ¬ s.Loaded x) {ext : Option Ext}
    (hext : ∀ e, ext = some e → (fs.file (candidate π x e)).isSome) {autoload : Bool}
    {r : Option (PackageRecord F)} (hrun : packageLoad π x (some c) autoload ext s = (.ok r, t)) :
    r.isSome ↔ Matches π fs x c := by
  by_cases hmatches : Matches π fs x c
  · have hcall : C.Orders ⟨x, some c, autoload, ext⟩ :=
      ⟨hx, fun c' hc ↦ Option.some.inj hc ▸ hmatches, hext⟩
    obtain ⟨r', t', hload, -⟩ := h.shelved.load hcall hn
    obtain ⟨hok, -⟩ := Prod.mk.inj (hrun.symm.trans hload)
    rw [Outcome.ok.inj hok]
    simp [hmatches]
  · have hload := h.refused (.inl hx) (fun p hp ↦ absurd (mem_wanted_singleton.mp hp).2 hmatches)
      (fun _ (_ : ext = some _) ↦ hx) autoload
    obtain ⟨hok, -⟩ := Prod.mk.inj (hrun.symm.trans hload)
    rw [Outcome.ok.inj hok]
    simp [hmatches]

theorem Keeps.unload_of_not_loaded (h : C.Keeps s ledger) {names : List Str}
    (hn : ∀ x ∈ names, ¬ s.Loaded x) : ledger.unload names = ledger := by
  rw [Ledger.unload, h.holds.sdiff_of_not_loaded hn, Set.inter_eq_left.mpr h.loaded]

theorem Keeps.restart_of_not_loaded (h : C.Keeps s ledger) (hx : ¬ s.Loaded x) (c : Str)
    (autoload : Bool) : ledger.restart autoload x c = ledger := by
  have hnone : C.wanted [(x, c)] ∩ ledger.inventory = ∅ := by
    apply Set.eq_empty_iff_forall_notMem.mpr
    rintro p ⟨hp, hmem⟩
    apply hx
    rw [← (mem_wanted_singleton.mp hp).1]
    exact (h.holds.loaded p).mpr hmem
  rw [Ledger.restart, h.unload_of_not_loaded fun y hy ↦ List.mem_singleton.mp hy ▸ hx,
    rejected_of_not_loaded h.holds hx, hnone, ite_self, Set.union_empty]

theorem Ledger.wanted_subset_restart (ledger : C.Ledger) (autoload : Bool) (x c : Str) :
    C.wanted [(x, c)] ∩ ledger.inventory ⊆ (ledger.restart autoload x c).inventory := by
  rintro p ⟨hp, hmem⟩
  obtain ⟨rfl, hmatches⟩ := mem_wanted_singleton.mp hp
  exact Graph.mem_sdiff.mpr ⟨hmem, fun q hq _ ↦ hq.2.1 hmatches⟩

theorem Ledger.restart_recorded_subset (ledger : C.Ledger) (autoload : Bool) (x c : Str) :
    (ledger.restart autoload x c).recorded ⊆ (ledger.restart autoload x c).inventory := by
  rintro p (⟨-, hp⟩ | hp)
  · obtain ⟨hmem, hnot⟩ := Graph.mem_sdiff.mp hp
    exact Graph.mem_sdiff.mpr ⟨hmem, fun q hq ↦ hnot q (List.mem_singleton.mpr hq.1)⟩
  · cases autoload with
    | false => exact hp.elim
    | true => exact ledger.wanted_subset_restart true x c hp

theorem restart_snd {load : TrackItem → Str → Manager F (Option (PackageRecord F))}
    {track : List TrackItem} {s₁ v : State F} {r : Option (PackageRecord F)} (autoload : Bool)
    (hu : packageUnload π x [] s = (.ok (true, track), s₁))
    (hloop : reloadTracked load x c track.reverse none s₁ = (.ok r, v)) :
    (PackageManager.restart π load x c autoload s).2 =
      r.elim v fun r ↦ if autoload then (writePackageIntoAutoload x r.sha1 v).2 else v := by
  rw [PackageManager.restart, bind_ok hu]
  dsimp only
  rw [if_pos rfl, bind_ok hloop]
  cases r with
  | none => rfl
  | some r =>
    cases autoload with
    | false => rfl
    | true => exact bind_pure_snd _ _ _

theorem restartCall_own (extOf : TrackItem → Option Ext) (s : State F) (x c : Str) :
    restartCall extOf x c (trackItem s x) = ⟨x, some c, false, extOf (trackItem s x)⟩ := by
  unfold restartCall
  rw [trackItem_name]
  congr 2
  split
  · rfl
  · next hsame => simpa [eq_comm] using hsame

theorem Keeps.lists_restart (h : C.Keeps s ledger) (hx : C.stocks x) (hmem : s.Loaded x)
    {gone v : State F} (hgone : C.Lists gone.startupList (ledger.unload [x]).recorded)
    (hlist : v.startupList = gone.startupList) {r : Option (PackageRecord F)}
    (hr : r.isSome ↔ Matches π fs x c) (hsha1 : ∀ r', r = some r' → Matches π fs x r'.sha1)
    (autoload : Bool) :
    C.Lists (r.elim v fun r ↦
        if autoload then (writePackageIntoAutoload x r.sha1 v).2 else v).startupList
      (ledger.restart autoload x c).recorded := by
  have hwanted : C.wanted [(x, c)] ∩ ledger.inventory =
      if r.isSome then {p | p.name = x} else ∅ := by
    ext p
    rw [Set.mem_inter_iff, mem_wanted_singleton, ← hr]
    split
    · next hsome =>
      refine ⟨fun hp ↦ hp.1.1, fun hp ↦ ⟨⟨hp, hsome⟩, (h.holds.loaded p).mp ?_⟩⟩
      have hname : p.name = x := hp
      rw [hname]
      exact hmem
    · next hnone => exact iff_of_false (fun hp ↦ hnone hp.1.2) id
  rw [Ledger.restart, hwanted]
  rw [← hlist] at hgone
  cases r with
  | none => simpa using hgone
  | some r =>
    cases autoload with
    | false => simpa using hgone
    | true => exact hgone.written hx (hsha1 r rfl)

/-- The list after a restart: what was unloaded has lost its line, and the package that was named
has one if it was loaded again by its own call and that was asked for. -/
theorem Keeps.restart (h : C.Keeps s ledger) (hx : s.Loaded x) (extOf : TrackItem → Option Ext)
    (hextOf : ∀ item e, extOf item = some e → e = item.ext) (c : Str) (autoload : Bool) :
    C.Keeps (PackageManager.restart π (loadTracked π extOf) x c autoload s).2
      (ledger.restart autoload x c) := by
  obtain ⟨names, r, v, hnames, hunload, hloop, -, hsha1⟩ :=
    h.holds.reload_unloaded hx extOf hextOf c
  obtain ⟨r₀, t, hrun, ht⟩ := h.holds.restart hx extOf hextOf c autoload
  have htops : Enumerates s (· ∈ [x]) names := hnames.congr fun q ↦ by simp
  have hgone := h.retireAll htops
  have hstocks := h.holds.shelved.stocks hx
  have hext : ∀ e, extOf (trackItem s x) = some e → (fs.file (candidate π x e)).isSome := by
    intro e he
    have htracked := (h.holds.tracked hx).ext
    rw [trackItem_name] at htracked
    rwa [hextOf _ e he]
  have hlist := reloadTracked_startupList (π := π) extOf x c (names.map (trackItem s)).reverse none
    (PackageManager.retireAll s names)
  rw [hloop] at hlist
  have hsome : r.isSome ↔ Matches π fs x c := by
    obtain ⟨above, rfl⟩ := hnames.eq_concat hx
    have hn := not_loaded_retired (s := s) hnames.nodup
    have hfirst := hloop
    rw [trackItems_reverse] at hfirst
    obtain ⟨u, hown, -⟩ := reloadTracked_own extOf (trackItem_name s x)
      (name_ne_of_above hnames.nodup) hn hfirst
    rw [restartCall_own] at hown
    exact hgone.holds.isSome_iff hstocks hn hext hown
  have hsnd := restart_snd autoload hunload hloop
  refine ⟨?_, ?_, ledger.restart_recorded_subset autoload x c⟩
  · rw [hrun]
    exact ht
  · rw [hsnd]
    exact h.lists_restart hstocks hx hgone.lists hlist hsome hsha1 autoload

theorem Keeps.unload (h : C.Keeps s ledger) (x : Str) :
    C.Keeps (packageUnload π x [] s).2 (ledger.unload [x]) := by
  by_cases hx : s.Loaded x
  · obtain ⟨names, hnames, hrun, -⟩ := h.holds.unload hx
    rw [hrun]
    exact h.retireAll (hnames.congr fun q ↦ by simp)
  · rw [packageUnload_of_not_loaded hx,
      h.unload_of_not_loaded fun y hy ↦ List.mem_singleton.mp hy ▸ hx]
    exact h

theorem Keeps.unloadList (h : C.Keeps s ledger) (packages : List Str) :
    C.Keeps (packageUnloadList π packages [] s).2 (ledger.unload packages) := by
  obtain ⟨names, hnames, hrun, -⟩ := h.holds.unloadList packages
  rw [hrun]
  exact h.retireAll hnames

theorem Keeps.unloadAll (h : C.Keeps s ledger) :
    C.Keeps (packageUnloadList π (loadedNames π s) [] s).2 ⟨⊥, ∅⟩ := by
  have hnone : ledger.unload (loadedNames π s) = ⟨⊥, ∅⟩ := by
    rw [Ledger.unload, h.holds.sdiff_loadedNames, LowerSet.coe_bot, Set.inter_empty]
  rw [← hnone]
  exact h.unloadList (loadedNames π s)

theorem Holds.pairwise_trackEntries {inventory : LowerSet C.Package} (h : C.Holds s inventory)
    {tops : Str → Prop} {names : List Str} (hnames : Enumerates s tops names) :
    (trackEntries s names).Pairwise fun entry entry' ↦
      ∀ p ∈ C.wanted [entry], ∀ q ∈ C.wanted [entry'], ¬ q ≤ p := by
  rw [trackEntries, List.pairwise_map, List.pairwise_reverse, List.pairwise_map]
  refine hnames.pairwise_up.imp_of_mem ?_
  intro a b ha hb hup p hp q hq hle
  rw [trackItem_name] at hp hq
  have hbelow : C.Below p.name q.name := hle
  rw [(mem_wanted_singleton.mp hp).1, (mem_wanted_singleton.mp hq).1] at hbelow
  exact hup ((h.shelved.up_iff (hnames.loaded ha)).mpr ⟨hnames.loaded hb, hbelow⟩)

theorem Ledger.loadList_not_recorded (ledger : C.Ledger) (entries : List (Str × Str)) :
    (ledger.loadList false entries).recorded = ledger.recorded := by
  induction entries generalizing ledger with
  | nil => rfl
  | cons entry rest ih => exact ih (ledger.load false entry)

theorem Holds.loadList_trackEntries {inventory : LowerSet C.Package} (h : C.Holds s inventory)
    {packages names : List Str} (hnames : Enumerates s (· ∈ packages) names)
    (hle : inventory.sdiff (C.among packages) ≤ ledger.inventory) (autoload : Bool) :
    ledger.loadList autoload (trackEntries s names) = ledger.restore autoload inventory := by
  have hwanted := h.wanted_trackEntries hnames
  have hleft : inventory.sdiff (C.among packages) ≤ inventory := LowerSet.sdiff_le_left
  have hinventory : (ledger.loadList autoload (trackEntries s names)).inventory =
      (ledger.restore autoload inventory).inventory := by
    rw [Ledger.loadList_inventory, hwanted, Ledger.restore, ← sup_eq_left.mpr hle, sup_assoc,
      sup_assoc, Graph.sdiff_sup_removed, sup_eq_right.mpr hleft]
  have hrecorded : (ledger.loadList autoload (trackEntries s names)).recorded =
      (ledger.restore autoload inventory).recorded := by
    cases autoload with
    | false => exact ledger.loadList_not_recorded _
    | true =>
      rw [Ledger.loadList_recorded (h.pairwise_trackEntries hnames), hwanted]
      apply congrArg (ledger.recorded ∪ ·)
      ext p
      refine and_congr_left fun hnot ↦ and_iff_left_of_imp fun hp ↦ ?_
      by_contra hno
      push Not at hno
      exact hnot (hle (Graph.mem_sdiff.mpr ⟨hp, hno⟩))
  calc ledger.loadList autoload (trackEntries s names)
    _ = ⟨(ledger.loadList autoload (trackEntries s names)).inventory,
        (ledger.loadList autoload (trackEntries s names)).recorded⟩ := rfl
    _ = ledger.restore autoload inventory := by rw [hinventory, hrecorded]

theorem Keeps.updateList (h : C.Keeps s ledger) {entries : List (Str × Str)}
    (hall : ∀ entry ∈ entries, C.Knows entry.1) (autoload : Bool) :
    C.Keeps (packageUpdateList π entries autoload s).2
      (((ledger.unload (entries.map Prod.fst)).loadList autoload entries).restore autoload
        ledger.inventory) := by
  obtain ⟨names, hnames, hunload, -⟩ := h.holds.unloadList (entries.map Prod.fst)
  have hgone := h.retireAll hnames
  obtain ⟨loaded, t, hload, -⟩ := hgone.holds.loadList hall autoload
  have ht := hgone.loadList hall hload
  have hknown := h.holds.knows_trackEntries hnames
  obtain ⟨restored, u, hrestore, -⟩ := ht.holds.loadList hknown autoload
  have hu := ht.loadList hknown hrestore
  have hle : ledger.inventory.sdiff (C.among (entries.map Prod.fst)) ≤
      ((ledger.unload (entries.map Prod.fst)).loadList autoload entries).inventory := by
    rw [Ledger.loadList_inventory]
    exact le_sup_left
  rw [h.holds.loadList_trackEntries hnames hle] at hu
  unfold packageUpdateList
  rw [bind_ok hunload]
  dsimp only
  rw [bind_ok hload]
  split
  · next hnil =>
    have hsame : u = t := by
      rw [trackEntries, hnil] at hrestore
      exact (Prod.mk.inj hrestore).2.symm
    rw [hsame] at hu
    exact hu
  · rw [trackEntries] at hrestore
    rw [bind_ok hrestore]
    exact hu

theorem Keeps.perform (h : C.Keeps s ledger) {request : Request} (hr : C.Handles request) :
    C.Keeps (PackageManager.perform π request s).2 (ledger.after request) := by
  cases request with
  | load x c autoload =>
    have hsnd : (PackageManager.perform π (.load x c autoload) s).2 =
        (makeCall π (listCall autoload (x, c)) s).2 := bind_pure_snd _ _ _
    rw [hsnd]
    exact h.made hr c autoload
  | reload x c autoload =>
    have hsnd : (PackageManager.perform π (.reload x c autoload) s).2 =
        (packageReload π x c autoload s).2 := bind_pure_snd _ _ _
    rw [hsnd, packageReload, get_bind_apply]
    split
    · next hx => exact h.restart hx _ (by simp) c autoload
    · next hx =>
      rw [Ledger.after, h.restart_of_not_loaded hx]
      exact h
  | update x c autoload =>
    have hsnd : (PackageManager.perform π (.update x c autoload) s).2 =
        (packageUpdate π x c autoload s).2 := bind_pure_snd _ _ _
    rw [hsnd, packageUpdate, get_bind_apply]
    split
    · next hx =>
      have hsub : ∀ p ∈ C.wanted [(x, c)], p ∈ (ledger.restart autoload x c).inventory := by
        intro p hp
        apply ledger.wanted_subset_restart autoload x c
        refine ⟨hp, (h.holds.loaded p).mp ?_⟩
        rw [(mem_wanted_singleton.mp hp).1]
        exact hx
      have hsame : (ledger.restart autoload x c).load false (x, c) =
          ledger.restart autoload x c := by
        rw [Ledger.load, Graph.sup_lowerClosure_of_subset hsub]
        rfl
      rw [Ledger.after, hsame]
      exact h.restart hx _ (by simp) c autoload
    · next hx =>
      rw [Ledger.after, h.restart_of_not_loaded hx]
      exact h.made hr c false
  | loadList entries autoload =>
    have hsnd : (PackageManager.perform π (.loadList entries autoload) s).2 =
        (packageLoadList π entries autoload s).2 := bind_pure_snd _ _ _
    obtain ⟨b, t, hrun, -⟩ := h.holds.loadList hr autoload
    rw [hsnd, hrun]
    exact h.loadList hr hrun
  | updateList entries autoload =>
    have hsnd : (PackageManager.perform π (.updateList entries autoload) s).2 =
        (packageUpdateList π entries autoload s).2 := bind_pure_snd _ _ _
    rw [hsnd]
    exact h.updateList hr autoload
  | unload x =>
    have hsnd : (PackageManager.perform π (.unload x) s).2 = (packageUnload π x [] s).2 :=
      bind_pure_snd _ _ _
    rw [hsnd]
    exact h.unload x
  | unloadList names =>
    have hsnd : (PackageManager.perform π (.unloadList names) s).2 =
        (packageUnloadList π names [] s).2 := bind_pure_snd _ _ _
    rw [hsnd]
    exact h.unloadList names
  | unloadAll =>
    have hsnd : (PackageManager.perform π .unloadAll s).2 =
        (packageUnloadList π (loadedNames π s) [] s).2 := by
      rw [PackageManager.perform, get_bind_apply]
      exact bind_pure_snd _ _ _
    rw [hsnd]
    exact h.unloadAll
  | report what =>
    rw [PackageManager.perform, report_snd]
    exact h
  | ignored => exact h
  | delete | deleteList | loadAuto | updateAll | terminate => exact hr.elim

end Steps

namespace Ledger

variable {π : Platform F} {fs : FileSystem F} {C : Catalogue π fs}

def start (recorded : Set C.Package) : C.Ledger := ⟨lowerClosure recorded, recorded⟩

def serve (ledger : C.Ledger) (msgs : List (List Str)) : C.Ledger :=
  msgs.foldl (fun ledger msg ↦ ledger.after (parseMessage msg)) ledger

def Covered (ledger : C.Ledger) : Prop := ledger.inventory = lowerClosure ledger.recorded

theorem subset_loadList (entries : List (Str × Str)) (ledger : C.Ledger) :
    ledger.recorded ⊆ (ledger.loadList true entries).recorded := by
  induction entries generalizing ledger with
  | nil => exact subset_rfl
  | cons entry rest ih => exact Set.subset_union_left.trans (ih (ledger.load true entry))

theorem loadList_covers (entries : List (Str × Str)) {ledger : C.Ledger}
    (h : ledger.recorded ⊆ ledger.inventory) :
    (ledger.loadList true entries).inventory =
      ledger.inventory ⊔ lowerClosure (ledger.loadList true entries).recorded := by
  induction entries generalizing ledger with
  | nil => exact (Graph.sup_lowerClosure_of_subset fun p hp ↦ h hp).symm
  | cons entry rest ih =>
    have hsub := subset_loadList rest (ledger.load true entry)
    have hrest := ih (load_recorded_subset h true entry)
    rw [loadList, List.foldl_cons, ← loadList, hrest]
    apply le_antisymm
    · apply sup_le _ le_sup_right
      apply sup_le le_sup_left
      apply lowerClosure_le.mpr
      intro p hp
      by_cases hmem : p ∈ ledger.inventory
      · exact Graph.mem_sup_lowerClosure.mpr (.inl hmem)
      · exact Graph.mem_sup_lowerClosure.mpr (.inr ⟨p, hsub (.inr ⟨hp, hmem⟩), le_rfl⟩)
    · exact sup_le_sup_right le_sup_left _

theorem Covered.subset {ledger : C.Ledger} (h : ledger.Covered) :
    ledger.recorded ⊆ ledger.inventory := by
  rw [h]
  exact subset_lowerClosure

theorem Covered.loadList {ledger : C.Ledger} (h : ledger.Covered) (entries : List (Str × Str)) :
    (ledger.loadList true entries).Covered := by
  rw [Covered, loadList_covers entries h.subset, sup_eq_right, h]
  exact lowerClosure_mono (subset_loadList entries ledger)

theorem Covered.update {ledger : C.Ledger} (h : ledger.Covered) (names : List Str)
    (entries : List (Str × Str)) :
    (((ledger.unload names).loadList true entries).restore true ledger.inventory).Covered := by
  have hsub : (ledger.unload names).recorded ⊆ (ledger.unload names).inventory :=
    Set.inter_subset_right
  have hcovers := loadList_covers entries hsub
  have hkept := subset_loadList entries (ledger.unload names)
  generalize (ledger.unload names).loadList true entries = loaded at hcovers hkept
  have hold : (ledger.unload names).inventory ≤ ledger.inventory := LowerSet.sdiff_le_left
  apply le_antisymm
  · have hall : ledger.inventory ≤
        lowerClosure (loaded.restore true ledger.inventory).recorded := by
      refine h.le.trans (lowerClosure_le.mpr ?_)
      intro p hp
      by_cases hmem : p ∈ loaded.inventory
      · by_cases hrest : p ∈ (ledger.unload names).inventory
        · exact subset_lowerClosure (.inl (hkept ⟨hp, hrest⟩))
        · rw [hcovers, LowerSet.mem_sup_iff] at hmem
          exact lowerClosure_mono Set.subset_union_left (hmem.resolve_left hrest)
      · exact subset_lowerClosure (.inr ⟨h.subset hp, hmem⟩)
    refine sup_le ?_ hall
    rw [hcovers]
    exact sup_le (hold.trans hall) (lowerClosure_mono Set.subset_union_left)
  · apply lowerClosure_le.mpr
    rintro p (hp | ⟨hp, -⟩)
    · refine LowerSet.mem_sup_iff.mpr (.inl ?_)
      rw [hcovers]
      exact LowerSet.mem_sup_iff.mpr (.inr (subset_lowerClosure hp))
    · exact LowerSet.mem_sup_iff.mpr (.inr hp)

end Ledger

end Catalogue

def Request.LoadsListed : Request → Prop
  | .load _ _ autoload | .loadList _ autoload | .updateList _ autoload => autoload = true
  | .report _ | .ignored => True
  | _ => False

/-- What the manager serves from one start to the next: the power is cut, or `terminate` is
sent. -/
structure Life where
  msgs : List (List Str)
  terminated : Bool

def Life.messages (life : Life) : List (List Str) :=
  life.msgs ++ if life.terminated then [["terminate".toList]] else []

theorem packageLoadAuto_startupList (π : Platform F) (s : State F) :
    (packageLoadAuto π s).2.startupList = s.startupList := by
  unfold packageLoadAuto
  split
  · rfl
  · next text htext =>
    cases hread : readStartupList (splitlines text) with
    | none => rfl
    | some entries =>
      dsimp only
      split
      · rfl
      · obtain ⟨-, htries⟩ := packageLoadList_tries (π := π) false entries s
        rw [bind_pure_snd]
        apply htries.startupList
        intro call hcall
        obtain ⟨entry, -, rfl⟩ := List.mem_map.mp hcall
        rfl

theorem terminate_snd (π : Platform F) (s : State F) :
    (perform π .terminate s).2 = (packageUnloadList π (loadedNames π s) [] s).2 := by
  rw [perform, bind_pure_snd, terminateAll, get_bind_apply]
  exact bind_pure_snd _ _ _

namespace Catalogue

section Lives

variable {π : Platform F} {fs : FileSystem F} {C : Catalogue π fs} {startupList : Option Str}
  {recorded : Set C.Package} {ledger : C.Ledger}

theorem Ledger.Covered.after (h : ledger.Covered) {request : Request} (hr : request.LoadsListed) :
    (ledger.after request).Covered := by
  cases request with
  | load x c autoload =>
    obtain rfl : autoload = true := hr
    exact h.loadList [(x, c)]
  | loadList entries autoload =>
    obtain rfl : autoload = true := hr
    exact h.loadList entries
  | updateList entries autoload =>
    obtain rfl : autoload = true := hr
    exact h.update (entries.map Prod.fst) entries
  | report | ignored => exact h
  | reload | update | unload | unloadList | delete | deleteList | loadAuto | unloadAll | updateAll
  | terminate => exact hr.elim

theorem Ledger.Covered.serve (h : ledger.Covered) (msgs : List (List Str))
    (hmsgs : ∀ msg ∈ msgs, (parseMessage msg).LoadsListed) : (ledger.serve msgs).Covered := by
  induction msgs generalizing ledger with
  | nil => exact h
  | cons msg rest ih =>
    exact ih (h.after (hmsgs msg List.mem_cons_self)) fun m hm ↦ hmsgs m (List.mem_cons_of_mem _ hm)

theorem Lists.boot (h : C.Lists startupList recorded) :
    (boot π fs startupList).status = .running ∧
      C.Keeps (boot π fs startupList).state (Ledger.start recorded) := by
  have hknown : ∀ entry ∈ startupEntries startupList, C.Knows entry.1 :=
    fun entry hentry ↦ .inl (h.sound entry hentry).1
  obtain ⟨hrunning, hholds⟩ := C.holds_boot h.parseable hknown
  rw [h.wanted_eq] at hholds
  refine ⟨hrunning, hholds, ?_, subset_lowerClosure⟩
  have hsnd : (PackageManager.boot π fs startupList).state =
      (packageLoadAuto π (State.initial π fs startupList)).2 := bind_pure_snd _ _ _
  rw [hsnd, packageLoadAuto_startupList]
  exact h

theorem Keeps.serve (msgs : List (List Str)) (hmsgs : ∀ msg ∈ msgs, C.Handles (parseMessage msg))
    {t : Thread F} (hrunning : t.status = .running) (h : C.Keeps t.state ledger) :
    (serve π msgs t).status = .running ∧ C.Keeps (serve π msgs t).state (ledger.serve msgs) := by
  induction msgs generalizing t ledger with
  | nil => exact ⟨hrunning, h⟩
  | cons msg rest ih =>
    have hmsg := hmsgs msg List.mem_cons_self
    obtain ⟨u, hrun, -⟩ := h.holds.perform hmsg
    have hkeeps := h.perform hmsg
    rw [hrun] at hkeeps
    rw [PackageManager.serve, hrunning]
    dsimp only
    rw [handled, hrun]
    exact ih (fun m hm ↦ hmsgs m (List.mem_cons_of_mem _ hm)) rfl hkeeps

/-- The packages that have a line after a life that began with lines for `recorded`. -/
def recordedAfter (recorded : Set C.Package) (life : Life) : Set C.Package :=
  if life.terminated then ∅ else ((Ledger.start recorded).serve life.msgs).recorded

theorem Lists.live (h : C.Lists startupList recorded) {life : Life}
    (hlife : ∀ msg ∈ life.msgs, C.Handles (parseMessage msg)) :
    C.Lists (PackageManager.serve π life.messages
      (PackageManager.boot π fs startupList)).state.startupList (recordedAfter recorded life) := by
  obtain ⟨hrunning, hkeeps⟩ := h.boot
  obtain ⟨hserved, hend⟩ := hkeeps.serve life.msgs hlife hrunning
  rw [Life.messages, recordedAfter]
  split
  · rw [serve_append life.msgs _ _ hserved, PackageManager.serve, hserved]
    have hgone := hend.unloadAll
    rw [← terminate_snd] at hgone
    exact hgone.lists
  · rw [List.append_nil]
    exact hend.lists

/-- A start after the power was cut brings nothing back that was not loaded, and everything if all
that was asked for was to be loaded at the start as well. -/
theorem restart_restores (C : Catalogue π fs) {recorded : Set C.Package}
    (hlist : C.Lists startupList recorded) (msgs : List (List Str))
    (hmsgs : ∀ msg ∈ msgs, C.Handles (parseMessage msg)) {t u : Thread F}
    (ht : serve π msgs (boot π fs startupList) = t)
    (hu : boot π fs t.state.startupList = u) :
    u.status = .running ∧ (∀ x, u.state.Loaded x → t.state.Loaded x) ∧
      ((∀ msg ∈ msgs, (parseMessage msg).LoadsListed) → C.Agrees t.state u.state) := by
  obtain ⟨hrunning, hboot⟩ := hlist.boot
  obtain ⟨-, hkeeps⟩ := hboot.serve msgs hmsgs hrunning
  rw [ht] at hkeeps
  obtain ⟨hagain, hrestored⟩ := hkeeps.lists.boot
  rw [hu] at hagain hrestored
  refine ⟨hagain, ?_, ?_⟩
  · intro x hx
    have hmem := hrestored.holds.mem hx
    have hle : lowerClosure ((Ledger.start recorded).serve msgs).recorded ≤
        ((Ledger.start recorded).serve msgs).inventory := lowerClosure_le.mpr hkeeps.loaded
    exact (hkeeps.holds.loaded _).mpr (hle hmem)
  · intro hlisted
    have hstart : (Ledger.start recorded).Covered := rfl
    have hcovered := hstart.serve msgs hlisted
    have hholds : C.Holds u.state ((Ledger.start recorded).serve msgs).inventory := by
      rw [hcovered]
      exact hrestored.holds
    exact hkeeps.holds.agrees hholds

end Lives

end Catalogue

section Shared

theorem lists_nothing : sharedCatalogue.Lists (some []) ∅ where
  present := Option.some_ne_none _
  parseable := (parseable_iff []).mpr (by simp)
  sound := by simp [Catalogue.startupEntries, readStartupList]
  mem := by simp [Catalogue.startupEntries, readStartupList]

theorem parse_record_app :
    parseMessage (words "load -r app 2") = .load "app".toList "2".toList true := by
  decide

theorem restart_restores_shared :
    sharedCatalogue.Agrees
      (serve scriptPlatform [words "load -r app 2"]
        (boot scriptPlatform (scriptFiles sharedScripts) (some []))).state
      (boot scriptPlatform (scriptFiles sharedScripts) (serve scriptPlatform
        [words "load -r app 2"] (boot scriptPlatform (scriptFiles sharedScripts)
          (some []))).state.startupList).state :=
  (Catalogue.restart_restores sharedCatalogue lists_nothing [words "load -r app 2"] (by
    intro msg hmsg
    obtain rfl := List.mem_singleton.mp hmsg
    rw [parse_record_app]
    exact knows_app) rfl rfl).2.2 (by
    intro msg hmsg
    obtain rfl := List.mem_singleton.mp hmsg
    rw [parse_record_app]
    rfl)

end Shared

end Liota.PackageManager
