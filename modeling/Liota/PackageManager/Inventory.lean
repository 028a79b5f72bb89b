import Liota.Graph.LowerSets
import Liota.PackageManager.Catalogue

namespace Liota.PackageManager

open Python Python.Computation Python.Text Relation

variable {F : Type}

namespace Catalogue

section Definitions

variable {π : Platform F} {fs : FileSystem F} (C : Catalogue π fs)

def wanted (entries : List (Str × Str)) : Set C.Package :=
  {p | ∃ c, (p.name, c) ∈ entries ∧ Matches π fs p.name c}

def among (names : List Str) : Set C.Package := {p | p.name ∈ names}

/-- A package that is not loaded again when its reload is rejected: no other package that is
loaded, and loaded again after it, needs it. -/
def rejected (inventory : LowerSet C.Package) (x c : Str) : Set C.Package :=
  {p | p.name = x ∧ ¬ Matches π fs x c ∧ ∀ q ∈ inventory, p ≤ q → q.name = x}

def after (inventory : LowerSet C.Package) : Request → LowerSet C.Package
  | .load x c _ => inventory ⊔ lowerClosure (C.wanted [(x, c)])
  | .reload x c _ => inventory.sdiff (C.rejected inventory x c)
  | .update x c _ =>
    inventory.sdiff (C.rejected inventory x c) ⊔ lowerClosure (C.wanted [(x, c)])
  | .loadList entries _ => inventory ⊔ lowerClosure (C.wanted entries)
  | .updateList entries _ => inventory ⊔ lowerClosure (C.wanted entries)
  | .unload x => inventory.sdiff (C.among [x])
  | .unloadList names => inventory.sdiff (C.among names)
  | .unloadAll | .terminate => ⊥
  | .delete _ | .deleteList _ | .loadAuto | .updateAll | .report _ | .ignored => inventory

def Knows (x : Str) : Prop := C.stocks x ∨ packageChkExists π fs x none = .ok none

/-- The requests that leave the package files alone and name known packages. Threads are listed only
where their names can be printed. -/
def Handles : Request → Prop
  | .load x _ _ | .update x _ _ => C.Knows x
  | .loadList entries _ | .updateList entries _ => ∀ entry ∈ entries, C.Knows entry.1
  | .report what => what = .threads → ∀ tick, π.listsThreads tick = true
  | .reload _ _ _ | .unload _ | .unloadList _ | .unloadAll | .ignored => True
  | .delete _ | .deleteList _ | .loadAuto | .updateAll | .terminate => False

structure Holds (s : State F) (inventory : LowerSet C.Package) : Prop where
  shelved : C.Shelved [] s
  loaded : ∀ p : C.Package, s.Loaded p.name ↔ p ∈ inventory

end Definitions

section Unload

variable {π : Platform F} {fs : FileSystem F} {C : Catalogue π fs} {s : State F}
  {inventory : LowerSet C.Package}

theorem Holds.mem (h : C.Holds s inventory) {x : Str} (hx : s.Loaded x) :
    (⟨x, h.shelved.stocks hx⟩ : C.Package) ∈ inventory := (h.loaded _).mp hx

theorem registry_of_removes {names : List Str} {s' : State F} (h : Removes s s' names) (i : Str) :
    i ∈ s'.resourceRegistry.registry ↔
      i ∈ s.resourceRegistry.registry ∧ ¬ ∃ q ∈ names, i ∈ s.owned q := by
  rw [Dict.mem_iff_lookup, Dict.mem_iff_lookup, h.registry]
  split
  · next howned => simp [howned]
  · next howned => simp [howned]

theorem Shelved.retireAll (h : C.Shelved [] s) {tops : Str → Prop} {names : List Str}
    (hnames : Enumerates s tops names) : C.Shelved [] (retireAll s names) := by
  have hremoves := hnames.removes h.consistent.linked
    (fun q hq ↦ (h.removable (hnames.loaded hq)).nodup)
    fun q hq ↦ h.registersNothing (hnames.loaded hq)
  refine ⟨hremoves.fs.trans h.fs, ⟨well_retireAll h.consistent.toWell names, ?_⟩,
    parseable_retireAll h.parseable names, ?_, ?_, by simp, ?_, ?_, ?_⟩
  · intro q hnodup d hd
    have hq := (hremoves.loaded q).mp (State.loaded_of_mem_dependencies hd)
    rw [dependencies_retireAll hnames.nodup hq.2] at hnodup hd
    exact hnames.linked_retireAll hq.2 hq.1 (h.consistent.linked q hnodup d hd)
  · intro x r hr
    rw [record_retireAll s names hnames.nodup] at hr
    split at hr
    · cases hr
    · obtain ⟨r₀, hr₀, rfl⟩ := Option.map_eq_some_iff.mp hr
      have hold := h.records x r₀ hr₀
      exact ⟨hold.stocked, hold.dependencies, hold.isLiotaPackage, hold.cleanUp, hold.atCleanUp,
        hold.sha1, hold.ext⟩
  · intro x y hy
    obtain ⟨-, hmem, hnot⟩ := (mem_dependents_retireAll hnames.nodup x y).mp hy
    obtain ⟨hd, hl | hl⟩ := h.dependents x y hmem
    · refine ⟨hd, .inl ((hremoves.loaded y).mpr ⟨hl, fun hyn ↦ hnot ⟨hyn, ?_⟩⟩)⟩
      rwa [h.dependencies hl]
    · exact absurd hl List.not_mem_nil
  · intro i
    rw [registry_of_removes hremoves, h.registry]
    constructor
    · rintro ⟨rfl | ⟨x, hx, hi⟩, hnot⟩
      · exact .inl rfl
      · refine .inr ⟨x, (hremoves.loaded x).mpr ⟨hx, fun hxn ↦ hnot ⟨x, hxn, ?_⟩⟩, hi⟩
        exact (h.owned x i).mpr ⟨hx, hi⟩
    · intro hi
      refine ⟨hi.imp_right fun ⟨x, hx, hix⟩ ↦ ⟨x, ((hremoves.loaded x).mp hx).1, hix⟩, ?_⟩
      rintro ⟨q, hq, howned⟩
      obtain ⟨hlq, hiq⟩ := (h.owned q i).mp howned
      rcases hi with rfl | ⟨x, hx, hix⟩
      · exact C.unreserved q (h.stocks hlq) hiq
      · obtain ⟨hlx, hxn⟩ := (hremoves.loaded x).mp hx
        exact hxn (C.apart q x i (h.stocks hlq) (h.stocks hlx) hiq hix ▸ hq)
  · intro x i
    rw [hremoves.owned, hremoves.loaded]
    split
    · next hx => simp [hx]
    · next hx => simpa [hx] using h.owned x i
  · intro x
    have hloads : (names.map Event.cleanedUp).countP (Event.isLoaded x) = 0 := by
      rw [List.countP_map, List.countP_eq_zero]
      simp [Event.isLoaded]
    have hcleans : (names.map Event.cleanedUp).countP (Event.isCleanedUp x) = names.count x := by
      rw [List.countP_map, List.count]
      refine List.countP_congr fun y _ ↦ ?_
      simp [Event.isCleanedUp]
    have hcount : names.count x = if x ∈ names then 1 else 0 := by
      split
      · next hx => exact List.count_eq_one_of_mem hnames.nodup hx
      · next hx => exact List.count_eq_zero_of_not_mem hx
    have hbalanced := h.balanced x
    rw [hremoves.trace, List.countP_append, List.countP_append, hloads, hcleans, hcount]
    simp only [hremoves.loaded]
    by_cases hx : x ∈ names
    · simp only [hx, if_true, not_true, and_false, if_false]
      simpa [hnames.loaded hx] using hbalanced
    · simpa [hx] using hbalanced

theorem Holds.retireAll (h : C.Holds s inventory) {tops : Str → Prop} {names : List Str}
    (hnames : Enumerates s tops names) :
    C.Holds (PackageManager.retireAll s names) (inventory.sdiff {p | tops p.name}) := by
  refine ⟨h.shelved.retireAll hnames, fun q ↦ ?_⟩
  rw [loaded_retireAll hnames.nodup, hnames.mem, Graph.mem_sdiff, h.loaded, and_comm]
  refine and_congr_right fun hq ↦ ?_
  have hlq := (h.loaded q).mpr hq
  constructor
  · intro hnot p hp hpq
    have hlp := h.shelved.loaded_below hpq hlq
    exact hnot ⟨p.name, hp, hlp, (h.shelved.up_iff hlp).mpr ⟨hlq, hpq⟩⟩
  · rintro hnot ⟨p, hp, hlp, hup⟩
    exact hnot ⟨p, h.shelved.stocks hlp⟩ hp ((h.shelved.up_iff hlp).mp hup).2

theorem Holds.unload (h : C.Holds s inventory) {x : Str} (hx : s.Loaded x) :
    ∃ names, Enumerates s (· = x) names ∧
      packageUnload π x [] s =
        (.ok (true, names.map (trackItem s)), PackageManager.retireAll s names) ∧
      C.Holds (PackageManager.retireAll s names) (inventory.sdiff (C.among [x])) := by
  obtain ⟨names, hnames, hrun⟩ := packageUnload_eq (π := π) h.shelved.consistent
    h.shelved.parseable hx (fun q hq ↦ h.shelved.removable (hq.loaded hx)) []
  have hset : C.among [x] = {p | p.name = x} := by
    ext p
    exact List.mem_singleton
  exact ⟨names, hnames, hrun, hset ▸ h.retireAll hnames⟩

theorem Holds.unloadList (h : C.Holds s inventory) (packages : List Str) :
    ∃ names, Enumerates s (· ∈ packages) names ∧
      packageUnloadList π packages [] s =
        (.ok (true, names.map (trackItem s)), PackageManager.retireAll s names) ∧
      C.Holds (PackageManager.retireAll s names) (inventory.sdiff (C.among packages)) := by
  obtain ⟨names, hnames, hrun⟩ := packageUnloadList_eq (π := π) h.shelved.consistent
    h.shelved.parseable (fun p _ hl q hq ↦ h.shelved.removable (hq.loaded hl)) []
  exact ⟨names, hnames, hrun, h.retireAll hnames⟩

theorem Holds.sdiff_of_not_loaded (h : C.Holds s inventory) {names : List Str}
    (hn : ∀ x ∈ names, ¬ s.Loaded x) : inventory.sdiff (C.among names) = inventory :=
  Graph.sdiff_of_disjoint fun p hp hmem ↦ hn p.name hp ((h.loaded p).mpr hmem)

end Unload

section Load

variable {π : Platform F} {fs : FileSystem F} {C : Catalogue π fs} {s t : State F}
  {inventory : LowerSet C.Package} {x c : Str}

theorem mem_wanted_singleton {p : C.Package} :
    p ∈ C.wanted [(x, c)] ↔ p.name = x ∧ Matches π fs x c := by
  constructor
  · rintro ⟨c', hmem, hmatches⟩
    obtain ⟨hname, rfl⟩ := Prod.mk.inj (List.mem_singleton.mp hmem)
    exact ⟨hname, hname ▸ hmatches⟩
  · rintro ⟨rfl, hmatches⟩
    exact ⟨c, List.mem_singleton_self _, hmatches⟩

theorem wanted_cons (entry : Str × Str) (entries : List (Str × Str)) :
    C.wanted (entry :: entries) = C.wanted [entry] ∪ C.wanted entries := by
  ext p
  simp only [wanted, List.mem_cons, List.not_mem_nil, or_false, Set.mem_union, Set.mem_ofPred_eq,
    or_and_right, exists_or]

theorem packageLoad_of_closed {checksum : Option Str} {ext : Option Ext}
    (h : openPackage π x checksum ext s = (.ok none, s)) (autoload : Bool) :
    packageLoad π x checksum autoload ext s = (.ok none, s) := by
  rw [packageLoad, loadFuel]
  exact bind_ok h

theorem openPackage_of_mismatch {sums : List Str} {ext : Option Ext}
    (hsums : checksumList π s.fs x extensions = .ok sums) (hc : c ∉ sums) :
    openPackage π x (some c) ext s = (.ok none, s) := by
  have hverify (path : Str) : verifyIntegrity π s.fs path sums (some c) = .ok none := by
    simp only [verifyIntegrity, Except.ok.injEq, List.find?_eq_none, decide_eq_true_eq]
    intro sum hsum heq
    exact hc (heq ▸ hsum)
  have hchk : packageChkExists π s.fs x ext = .ok none ∨
      ∃ ext', packageChkExists π s.fs x ext = .ok (some (ext', sums)) := by
    unfold packageChkExists
    rw [hsums]
    split
    · dsimp only
      cases fileExt π s.fs x ext with
      | none => exact .inl rfl
      | some ext' => exact .inr ⟨ext', rfl⟩
    · exact .inl rfl
  unfold openPackage
  split
  · rfl
  · rcases hchk with hchk | ⟨ext', hchk⟩
    · simp only [hchk]
    · simp only [hchk, hverify]

theorem Holds.refused (h : C.Holds s inventory) (hx : C.Knows x)
    (hnone : ∀ p ∈ C.wanted [(x, c)], p ∈ inventory) {ext : Option Ext}
    (hext : ∀ e, ext = some e → C.stocks x) (autoload : Bool) :
    packageLoad π x (some c) autoload ext s = (.ok none, s) := by
  apply packageLoad_of_closed
  by_cases hl : s.Loaded x
  · exact if_pos hl
  by_cases hstocks : C.stocks x
  · obtain ⟨sums, hsums⟩ := C.readable x hstocks
    apply openPackage_of_mismatch (h.shelved.fs ▸ hsums)
    intro hmem
    have hmatches := matches_of_mem_checksumList hsums hmem
    exact hl ((h.loaded ⟨x, hstocks⟩).mpr (hnone _ (mem_wanted_singleton.mpr ⟨rfl, hmatches⟩)))
  · have hmissing := hx.resolve_left hstocks
    have hnoext : ext = none := by
      cases hext' : ext with
      | none => rfl
      | some e => exact absurd (hext e hext') hstocks
    subst hnoext
    unfold openPackage
    rw [if_neg hl, h.shelved.fs, hmissing]

theorem Holds.sup_wanted (h : C.Holds s inventory) (hl : s.Loaded x) (c : Str) :
    inventory ⊔ lowerClosure (C.wanted [(x, c)]) = inventory := by
  apply Graph.sup_lowerClosure_of_subset
  intro p hp
  rw [← h.loaded, (mem_wanted_singleton.mp hp).1]
  exact hl

theorem Holds.load (h : C.Holds s inventory) (hx : C.Knows x) (c : Str) (ext : Option Ext)
    (hext : ∀ e, ext = some e → C.stocks x ∧ (fs.file (candidate π x e)).isSome)
    (autoload : Bool) :
    ∃ r t, packageLoad π x (some c) autoload ext s = (.ok r, t) ∧
      C.Holds t (inventory ⊔ lowerClosure (C.wanted [(x, c)])) ∧
      ∀ r', r = some r' → Matches π fs x r'.sha1 := by
  by_cases hnone : ∀ p ∈ C.wanted [(x, c)], p ∈ inventory
  · have hrun := h.refused hx hnone (fun e he ↦ (hext e he).1) autoload
    refine ⟨none, s, hrun, ?_, by simp⟩
    rw [Graph.sup_lowerClosure_of_subset hnone]
    exact h
  · push Not at hnone
    obtain ⟨p, hp, hnot⟩ := hnone
    obtain ⟨rfl, hmatches⟩ := mem_wanted_singleton.mp hp
    have hcall : C.Orders ⟨p.name, some c, autoload, ext⟩ :=
      ⟨p.stocked, fun c' hc ↦ Option.some.inj hc ▸ hmatches, fun e he ↦ (hext e he).2⟩
    have hout : ¬ s.Loaded p.name := fun hl ↦ hnot ((h.loaded p).mp hl)
    obtain ⟨r, t, hrun, ht, hloaded, hsha1⟩ := h.shelved.load hcall hout
    refine ⟨some r, t, hrun, ⟨ht, fun q ↦ ?_⟩, fun r' hr ↦ Option.some.inj hr ▸ hsha1⟩
    rw [hloaded, Graph.mem_sup_lowerClosure, h.loaded]
    refine or_congr_right ⟨fun hq ↦ ⟨p, hp, hq⟩, ?_⟩
    rintro ⟨p', hp', hle⟩
    have hle : C.Below p'.name q.name := hle
    rwa [(mem_wanted_singleton.mp hp').1] at hle

theorem Holds.loadListed (h : C.Holds s inventory) {entry : Str × Str} (hx : C.Knows entry.1)
    (autoload : Bool) (failed : List Str) :
    ∃ failed' t, loadListed π autoload entry failed s = (.ok failed', t) ∧
      C.Holds t (inventory ⊔ lowerClosure (C.wanted [entry])) := by
  obtain ⟨x, c⟩ := entry
  obtain ⟨r, t, hrun, ht, -⟩ := h.load hx c none (by simp) autoload
  unfold PackageManager.loadListed
  by_cases hl : s.Loaded x
  · refine ⟨failed, s, ?_, ?_⟩
    · apply tryExcept_of_ok
      rw [get_bind_apply, if_pos hl]
      rfl
    · rw [h.sup_wanted hl]
      exact h
  · refine ⟨if r.isSome then failed else failed ++ [x], t, ?_, ht⟩
    apply tryExcept_of_ok
    rw [get_bind_apply, if_neg hl, bind_ok hrun]
    rfl

theorem Holds.loadListFrom (entries : List (Str × Str)) (hall : ∀ entry ∈ entries, C.Knows entry.1)
    (autoload : Bool) (failed : List Str) (h : C.Holds s inventory) :
    ∃ failed' t, loadListFrom π autoload entries failed s = (.ok failed', t) ∧
      C.Holds t (inventory ⊔ lowerClosure (C.wanted entries)) := by
  induction entries generalizing failed s inventory with
  | nil =>
    refine ⟨failed, s, rfl, ?_⟩
    rw [Graph.sup_lowerClosure_of_subset]
    · exact h
    · rintro p ⟨c, hmem, -⟩
      exact absurd hmem List.not_mem_nil
  | cons entry rest ih =>
    obtain ⟨failed', t, hfirst, ht⟩ := h.loadListed (hall entry List.mem_cons_self) autoload failed
    obtain ⟨failed'', u, hrest, hu⟩ := ih (fun e he ↦ hall e (List.mem_cons_of_mem _ he)) failed' ht
    refine ⟨failed'', u, (bind_ok hfirst).trans hrest, ?_⟩
    rw [wanted_cons, ← Graph.sup_lowerClosure_union]
    exact hu

theorem Holds.loadList (h : C.Holds s inventory) {entries : List (Str × Str)}
    (hall : ∀ entry ∈ entries, C.Knows entry.1) (autoload : Bool) :
    ∃ b t, packageLoadList π entries autoload s = (.ok b, t) ∧
      C.Holds t (inventory ⊔ lowerClosure (C.wanted entries)) := by
  obtain ⟨failed, t, hrun, ht⟩ := h.loadListFrom entries hall autoload []
  exact ⟨_, t, (bind_ok hrun).trans rfl, ht⟩

end Load

section Reload

variable {π : Platform F} {fs : FileSystem F} {C : Catalogue π fs} {s : State F}
  {inventory : LowerSet C.Package} {x c : Str}

/-- A track item that an unloaded package of the catalogue left. -/
structure Tracked (C : Catalogue π fs) (item : TrackItem) : Prop where
  stocked : C.stocks item.name
  sha1 : Matches π fs item.name item.sha1
  ext : (fs.file (candidate π item.name item.ext)).isSome

theorem Holds.tracked (h : C.Holds s inventory) {q : Str} (hq : s.Loaded q) :
    C.Tracked (trackItem s q) := by
  obtain ⟨r, hr⟩ := State.loaded_iff.mp hq
  have hrecord := h.shelved.records q r hr
  have hitem : trackItem s q = ⟨q, r.ext, r.sha1⟩ := by
    unfold trackItem
    rw [hr]
  rw [hitem]
  exact ⟨hrecord.stocked, hrecord.sha1, hrecord.ext⟩

/-- The packages that the loop over a track list loads. -/
def reloaded (C : Catalogue π fs) (items : List TrackItem) (x c : Str) : Set C.Package :=
  {p | p.name ∈ items.map TrackItem.name ∧ (p.name = x → Matches π fs x c)}

theorem mem_reloaded_singleton {item : TrackItem} (hitem : C.Tracked item) :
    C.reloaded [item] x c = C.wanted [(item.name,
      if item.name = x ∧ c ≠ item.sha1 then c else item.sha1)] := by
  ext p
  rw [mem_wanted_singleton]
  simp only [reloaded, List.map_cons, List.map_nil, List.mem_singleton, Set.mem_ofPred_eq]
  refine and_congr_right fun hp ↦ ?_
  rw [hp]
  split
  · next hx =>
    obtain ⟨rfl, -⟩ := hx
    simp
  · next hx =>
    constructor
    · intro _
      exact hitem.sha1
    · intro _ hname
      have hc : c = item.sha1 := by
        by_contra hne
        exact hx ⟨hname, hne⟩
      rw [hc, ← hname]
      exact hitem.sha1

theorem reloaded_cons (item : TrackItem) (items : List TrackItem) :
    C.reloaded (item :: items) x c = C.reloaded [item] x c ∪ C.reloaded items x c := by
  ext p
  simp only [reloaded, List.map_cons, List.mem_cons, List.map_nil, List.not_mem_nil, or_false,
    Set.mem_union, Set.mem_ofPred_eq, or_and_right]

theorem Holds.reloadTracked {extOf : TrackItem → Option Ext}
    (hextOf : ∀ item e, extOf item = some e → e = item.ext) (items : List TrackItem)
    (hitems : ∀ item ∈ items, C.Tracked item) (record : Option (PackageRecord F))
    (hrecord : ∀ r, record = some r → Matches π fs x r.sha1) (h : C.Holds s inventory) :
    ∃ r t, reloadTracked (fun item sha1 ↦ packageLoad π item.name (some sha1) false (extOf item))
        x c items record s = (.ok r, t) ∧
      C.Holds t (inventory ⊔ lowerClosure (C.reloaded items x c)) ∧
      ∀ r', r = some r' → Matches π fs x r'.sha1 := by
  induction items generalizing s inventory record with
  | nil =>
    refine ⟨record, s, rfl, ?_, hrecord⟩
    rw [Graph.sup_lowerClosure_of_subset]
    · exact h
    · intro p hp
      exact absurd hp.1 List.not_mem_nil
  | cons item rest ih =>
    have hitem := hitems item List.mem_cons_self
    have hrest := fun i hi ↦ hitems i (List.mem_cons_of_mem _ hi)
    rw [reloaded_cons, ← Graph.sup_lowerClosure_union, mem_reloaded_singleton hitem]
    unfold PackageManager.reloadTracked
    rw [get_bind_apply]
    by_cases hl : s.Loaded item.name
    · rw [if_pos hl, h.sup_wanted hl]
      exact ih hrest record hrecord h
    · have hext : ∀ e, extOf item = some e →
          C.stocks item.name ∧ (fs.file (candidate π item.name e)).isSome := by
        intro e he
        obtain rfl := hextOf item e he
        exact ⟨hitem.stocked, hitem.ext⟩
      obtain ⟨temp, t, hrun, ht, htemp⟩ := h.load (.inl hitem.stocked)
        (if item.name = x ∧ c ≠ item.sha1 then c else item.sha1) (extOf item) hext false
      rw [if_neg hl, bind_ok hrun]
      apply ih hrest _ _ ht
      intro r hr
      split at hr
      · next hname =>
        cases temp with
        | none => exact hrecord r hr
        | some r' =>
          obtain rfl : r' = r := Option.some.inj hr
          exact hname ▸ htemp r' rfl
      · exact hrecord r hr

/-- A package that is unloaded with all that needs it, and the latter loaded again, is missing
only if its own load is rejected and nothing else pulls it. -/
theorem reloaded_eq (h : C.Holds s inventory) (hx : s.Loaded x) {names : List Str}
    (hnames : Enumerates s (· = x) names) {items : List TrackItem}
    (hitems : ∀ q, q ∈ items.map TrackItem.name ↔ q ∈ names) :
    inventory.sdiff (C.among [x]) ⊔ lowerClosure (C.reloaded items x c) =
      inventory.sdiff (C.rejected inventory x c) := by
  have hstocks := h.shelved.stocks hx
  have hmem (p : C.Package) : p ∈ C.reloaded items x c ↔
      (p ∈ inventory ∧ C.Below p.name x) ∧ (p.name = x → Matches π fs x c) := by
    refine and_congr_left fun _ ↦ ?_
    rw [hitems, hnames.mem, ← h.loaded]
    constructor
    · rintro ⟨q, rfl, hq, hup⟩
      exact (h.shelved.up_iff hq).mp hup
    · intro hp
      exact ⟨x, rfl, hx, (h.shelved.up_iff hx).mpr hp⟩
  have hamong (q : C.Package) : (∀ p ∈ C.among [x], ¬ p ≤ q) ↔ ¬ C.Below q.name x := by
    constructor
    · intro hnot hbelow
      exact hnot ⟨x, hstocks⟩ (List.mem_singleton_self x) hbelow
    · intro hnot p hp hpq
      have hpx : p.name = x := List.mem_singleton.mp hp
      exact hnot (hpx ▸ hpq)
  have hrejected (q : C.Package) : (∀ p ∈ C.rejected inventory x c, ¬ p ≤ q) ↔
      (C.Below q.name x → Matches π fs x c ∨ ∃ p ∈ inventory, C.Below p.name x ∧ p.name ≠ x) := by
    constructor
    · intro hnot hbelow
      by_contra hno
      rw [not_or] at hno
      refine hnot ⟨x, hstocks⟩ ⟨rfl, hno.1, fun p hp hle ↦ ?_⟩ hbelow
      by_contra hne
      exact hno.2 ⟨p, hp, hle, hne⟩
    · rintro hsome p ⟨rfl, hno, hall⟩ hpq
      rcases hsome hpq with hmatches | ⟨p', hp', hle, hne⟩
      · exact hno hmatches
      · exact hne (hall p' hp' hle)
  ext q
  rw [SetLike.mem_coe, SetLike.mem_coe, Graph.mem_sup_lowerClosure, Graph.mem_sdiff,
    Graph.mem_sdiff, hamong, hrejected]
  constructor
  · rintro (⟨hq, hnot⟩ | ⟨p, hp, hqp⟩)
    · exact ⟨hq, fun hbelow ↦ absurd hbelow hnot⟩
    · obtain ⟨⟨hpi, hbelow⟩, hsame⟩ := (hmem p).mp hp
      refine ⟨inventory.lower hqp hpi, fun _ ↦ ?_⟩
      by_cases hname : p.name = x
      · exact .inl (hsame hname)
      · exact .inr ⟨p, hpi, hbelow, hname⟩
  · rintro ⟨hq, hsome⟩
    by_cases hbelow : C.Below q.name x
    · right
      by_cases hname : q.name = x
      · rcases hsome hbelow with hmatches | ⟨p, hp, hle, hne⟩
        · exact ⟨q, (hmem q).mpr ⟨⟨hq, hbelow⟩, fun _ ↦ hmatches⟩, le_rfl⟩
        · have hqp : C.Below p.name q.name := by
            rw [hname]
            exact hle
          exact ⟨p, (hmem p).mpr ⟨⟨hp, hle⟩, fun heq ↦ absurd heq hne⟩, hqp⟩
      · exact ⟨q, (hmem q).mpr ⟨⟨hq, hbelow⟩, fun heq ↦ absurd heq hname⟩, le_rfl⟩
    · exact .inl ⟨hq, hbelow⟩

theorem Holds.reload_unloaded (h : C.Holds s inventory) (hx : s.Loaded x)
    (extOf : TrackItem → Option Ext) (hextOf : ∀ item e, extOf item = some e → e = item.ext)
    (c : Str) :
    ∃ names r t, Enumerates s (· = x) names ∧
      packageUnload π x [] s =
        (.ok (true, names.map (trackItem s)), PackageManager.retireAll s names) ∧
      PackageManager.reloadTracked
        (fun item sha1 ↦ packageLoad π item.name (some sha1) false (extOf item)) x c
        (names.map (trackItem s)).reverse none (PackageManager.retireAll s names) = (.ok r, t) ∧
      C.Holds t (inventory.sdiff (C.rejected inventory x c)) ∧
      ∀ r', r = some r' → Matches π fs x r'.sha1 := by
  obtain ⟨names, hnames, hrun, hgone⟩ := h.unload hx
  have hitems : ∀ item ∈ (names.map (trackItem s)).reverse, C.Tracked item := by
    intro item hitem
    obtain ⟨q, hq, rfl⟩ := List.mem_map.mp (List.mem_reverse.mp hitem)
    exact h.tracked (hnames.loaded hq)
  have hmapped (q : Str) :
      q ∈ (names.map (trackItem s)).reverse.map TrackItem.name ↔ q ∈ names := by
    rw [List.map_reverse, List.mem_reverse, List.map_map]
    have hid : TrackItem.name ∘ trackItem s = id := funext fun q ↦ trackItem_name s q
    rw [hid, List.map_id]
  obtain ⟨r, t, hloop, ht, hr⟩ := hgone.reloadTracked (x := x) (c := c) hextOf _ hitems none
    (by simp)
  rw [reloaded_eq h hx hnames hmapped] at ht
  exact ⟨names, r, t, hnames, hrun, hloop, ht, hr⟩

theorem Holds.restart (h : C.Holds s inventory) (hx : s.Loaded x)
    (extOf : TrackItem → Option Ext) (hextOf : ∀ item e, extOf item = some e → e = item.ext)
    (c : Str) (autoload : Bool) :
    ∃ r t, restart π (fun item sha1 ↦ packageLoad π item.name (some sha1) false (extOf item))
        x c autoload s = (.ok r, t) ∧
      C.Holds t (inventory.sdiff (C.rejected inventory x c)) := by
  obtain ⟨names, r, t, -, hrun, hloop, ht, hr⟩ := h.reload_unloaded hx extOf hextOf c
  unfold PackageManager.restart
  rw [bind_ok hrun]
  dsimp only
  rw [if_pos rfl, bind_ok hloop]
  cases r with
  | none => exact ⟨none, t, rfl, ht⟩
  | some r =>
    dsimp only
    cases autoload with
    | false => exact ⟨some r, t, rfl, ht⟩
    | true =>
      have hplain := C.plain_of_matches (h.shelved.stocks hx) (hr r rfl)
      have hname := (C.named x (h.shelved.stocks hx)).2
      have hpar := parseable_written ht.shelved.parseable hname hplain
      obtain ⟨list, hframe⟩ := writePackageIntoAutoload_frame x r.sha1 t
      have hwritten : (writePackageIntoAutoload x r.sha1 t).1 = .ok () := by
        rcases writePackageIntoAutoload_fst x r.sha1 t with ⟨-, hok⟩ | ⟨hnot, -⟩
        · exact hok
        · exact absurd ht.shelved.parseable hnot
      have hok : writePackageIntoAutoload x r.sha1 t = (.ok (), { t with startupList := list }) :=
        Prod.ext hwritten hframe
      rw [hframe] at hpar
      refine ⟨some r, { t with startupList := list }, ?_, ⟨?_, ht.loaded⟩⟩
      · rw [if_pos rfl, bind_ok hok]
        rfl
      · have hold := ht.shelved
        exact ⟨hold.fs, hold.consistent.of_packagesLoaded_eq rfl rfl, hpar, hold.records,
          hold.dependents, hold.classes, hold.registry, hold.owned, hold.balanced⟩

end Reload

end Catalogue

end Liota.PackageManager
