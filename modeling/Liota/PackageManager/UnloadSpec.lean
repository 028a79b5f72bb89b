import Liota.PackageManager.Retire

namespace Liota.PackageManager

open Python Python.Computation Python.Text Relation

variable {F : Type} {π : Platform F}

/-- `q` is reached from `p` by following dependents through loaded packages. -/
def State.Up (s : State F) (p q : Str) : Prop := ReflTransGen s.Edge p q

def Unloadable (s : State F) (name : Str) : Prop :=
  ∃ r, s.record name = some r ∧ Stoppable s name r

def trackItem (s : State F) (name : Str) : TrackItem :=
  match s.record name with
  | some r => ⟨name, r.ext, r.sha1⟩
  | none => ⟨name, .py, []⟩

@[simp] theorem trackItem_name (s : State F) (name : Str) : (trackItem s name).name = name := by
  unfold trackItem
  split <;> rfl

/-- `names` lists once each loaded package that is reached from a loaded one among `tops`, and
dependents come before what they depend on. -/
structure Enumerates (s : State F) (tops : Str → Prop) (names : List Str) : Prop where
  nodup : names.Nodup
  mem : ∀ q, q ∈ names ↔ ∃ p, tops p ∧ s.Loaded p ∧ s.Up p q
  order : names.Pairwise fun a b ↦ b ∉ s.dependents a

theorem State.Up.loaded {s : State F} {p q : Str} (h : s.Up p q) (hp : s.Loaded p) :
    s.Loaded q := by
  cases h with
  | refl => exact hp
  | tail _ he => exact he.2

theorem Ranked.irrefl {s : State F} (hs : Ranked s) {p q : Str} (he : s.Edge p q) :
    ¬ s.Up q p := by
  obtain ⟨rank, hrank⟩ := hs
  intro hup
  have h := Graph.rank_le_of_reflTransGen hrank hup
  have h' := hrank p q he
  omega

namespace Enumerates

variable {s : State F} {tops tops' : Str → Prop} {names names' : List Str}

theorem loaded (h : Enumerates s tops names) {q : Str} (hq : q ∈ names) : s.Loaded q := by
  obtain ⟨p, -, hp, hup⟩ := (h.mem q).mp hq
  exact hup.loaded hp

theorem closed (h : Enumerates s tops names) : Graph.Closed s.Edge (· ∈ names) := by
  intro a b ha hab
  obtain ⟨p, htop, hp, hup⟩ := (h.mem a).mp ha
  exact (h.mem b).mpr ⟨p, htop, hp, hup.tail hab⟩

theorem not_mem_after {p q : Str} {pre post : List Str} (h : Enumerates s tops (pre ++ p :: post))
    (hup : s.Up p q) : q ∉ post := by
  have hnodup := h.nodup
  induction hup with
  | refl => exact (List.nodup_cons.mp (List.nodup_append.mp hnodup).2.1).1
  | @tail y q hup he ih =>
    intro hq
    have hy : y ∈ pre ++ [p] := by
      have hmem : y ∈ pre ++ p :: post := h.closed.reach (by simp) hup
      simp only [List.mem_append, List.mem_cons, List.not_mem_nil, or_false] at hmem ⊢
      rcases hmem with hmem | hmem | hmem
      · exact .inl hmem
      · exact .inr hmem
      · exact absurd hmem ih
    have horder := h.order
    rw [← List.singleton_append, ← List.append_assoc] at horder
    exact (List.pairwise_append.mp horder).2.2 y hy q hq he.1

theorem eq_concat {p : Str} (h : Enumerates s (· = p) names) (hp : s.Loaded p) :
    ∃ above, names = above ++ [p] := by
  obtain ⟨above, post, rfl⟩ := List.append_of_mem ((h.mem p).mpr ⟨p, rfl, hp, .refl⟩)
  refine ⟨above, ?_⟩
  have hpost : post = [] := by
    refine List.eq_nil_iff_forall_not_mem.mpr fun q hq ↦ ?_
    obtain ⟨p', rfl, -, hup⟩ := (h.mem q).mp (by simp [hq])
    exact h.not_mem_after hup hq
  rw [hpost]

theorem pairwise_up (h : Enumerates s tops names) : names.Pairwise fun p q ↦ ¬ s.Up p q := by
  suffices hall : ∀ pre post, names = pre ++ post → post.Pairwise fun p q ↦ ¬ s.Up p q from
    hall [] names rfl
  intro pre post heq
  induction post generalizing pre with
  | nil => exact .nil
  | cons p post ih =>
    apply List.Pairwise.cons
    · intro q hq hup
      exact (heq ▸ h).not_mem_after hup hq
    · apply ih (pre ++ [p])
      rw [heq, List.append_assoc, List.singleton_append]

theorem empty (s : State F) : Enumerates s (fun _ ↦ False) [] :=
  ⟨List.nodup_nil, by simp, .nil⟩

theorem up_retireAll (h : Enumerates s tops names) {p q : Str}
    (hup : (retireAll s names).Up p q) : s.Up p q :=
  ReflTransGen.mono (fun _ _ he ↦ ((edge_retireAll h.nodup _ _).mp he).1) _ _ hup

theorem up_outside (h : Enumerates s tops names) {p q : Str} (hq : q ∉ names)
    (hup : s.Up p q) : (retireAll s names).Up p q := by
  refine ReflTransGen.mono (fun x y hxy ↦ ?_) _ _
    ((h.closed.reach_outside (b := q) hq).mp hup)
  exact (edge_retireAll h.nodup x y).mpr
    ⟨hxy.1, fun hx ↦ hxy.2 (h.closed x y hx hxy.1), hxy.2⟩

theorem append (h : Enumerates s tops names)
    (h' : Enumerates (retireAll s names) tops' names') :
    Enumerates s (fun p ↦ tops p ∨ tops' p) (names ++ names') := by
  have hout {q : Str} (hq : q ∈ names') : q ∉ names :=
    ((loaded_retireAll h.nodup q).mp (h'.loaded hq)).1
  refine ⟨h.nodup.append h'.nodup fun q hq hq' ↦ hout hq' hq, fun q ↦ ?_, ?_⟩
  · rw [List.mem_append]
    constructor
    · rintro (hq | hq)
      · obtain ⟨p, htop, hp, hup⟩ := (h.mem q).mp hq
        exact ⟨p, .inl htop, hp, hup⟩
      · obtain ⟨p, htop, hp, hup⟩ := (h'.mem q).mp hq
        exact ⟨p, .inr htop, ((loaded_retireAll h.nodup p).mp hp).2, h.up_retireAll hup⟩
    · rintro ⟨p, htop | htop, hp, hup⟩
      · exact .inl ((h.mem q).mpr ⟨p, htop, hp, hup⟩)
      · by_cases hq : q ∈ names
        · exact .inl hq
        · have hpn : p ∉ names := fun hpn ↦ hq (h.closed.reach hpn hup)
          exact .inr ((h'.mem q).mpr
            ⟨p, htop, (loaded_retireAll h.nodup p).mpr ⟨hpn, hp⟩, h.up_outside hq hup⟩)
  · refine List.pairwise_append.mpr ⟨h.order, h'.order.imp_of_mem ?_, ?_⟩
    · intro a b ha hb hab hmem
      exact hab ((mem_dependents_retireAll h.nodup a b).mpr
        ⟨hout ha, hmem, fun hbn ↦ hout hb hbn.1⟩)
    · intro a ha b hb hmem
      have hlb := ((loaded_retireAll h.nodup b).mp (h'.loaded hb)).2
      exact hout hb (h.closed a b ha ⟨hmem, hlb⟩)

theorem congr (h : Enumerates s tops names)
    (ht : ∀ q, (∃ p, tops' p ∧ s.Loaded p ∧ s.Up p q) ↔ ∃ p, tops p ∧ s.Loaded p ∧ s.Up p q) :
    Enumerates s tops' names := ⟨h.nodup, fun q ↦ (h.mem q).trans (ht q).symm, h.order⟩

theorem record_retireAll_of_not_mem (h : Enumerates s tops names) {q : Str} (hq : q ∉ names)
    {r : PackageRecord F} (hr : s.record q = some r) :
    ∃ dependents,
      (retireAll s names).record q = some { r with dependents := dependents } := by
  rw [record_retireAll s names h.nodup, if_neg hq, hr]
  exact ⟨_, rfl⟩

theorem trackItem_retireAll (h : Enumerates s tops names) {q : Str} (hq : q ∉ names) :
    trackItem (retireAll s names) q = trackItem s q := by
  unfold trackItem
  rw [record_retireAll s names h.nodup, if_neg hq]
  cases s.record q <;> rfl

theorem atCleanUp_retireAll (h : Enumerates s tops names) {q : Str} (hq : q ∉ names) :
    (retireAll s names).atCleanUp q = s.atCleanUp q := by
  unfold State.atCleanUp
  rw [record_retireAll s names h.nodup, if_neg hq]
  cases s.record q <;> rfl

theorem linked_retireAll (h : Enumerates s tops names) {q d : Str} (hq : q ∉ names)
    (hl : s.Loaded q) (hd : q ∈ s.dependents d) : q ∈ (retireAll s names).dependents d :=
  (mem_dependents_retireAll h.nodup d q).mpr
    ⟨fun hdn ↦ hq (h.closed d q hdn ⟨hd, hl⟩), hd, fun hqn ↦ hq hqn.1⟩

theorem unloadable_retireAll (h : Enumerates s tops names) {q : Str} (hq : q ∉ names)
    (hu : Unloadable s q) : Unloadable (retireAll s names) q := by
  obtain ⟨r, hr, hstop⟩ := hu
  obtain ⟨dependents, hr'⟩ := h.record_retireAll_of_not_mem hq hr
  exact ⟨_, hr', hstop.isLiotaPackage, hstop.cleanUp, hstop.nodup,
    fun d hd ↦ h.linked_retireAll hq (State.loaded_of_record hr) (hstop.linked d hd)⟩

end Enumerates

/-- The result of unloading everything above `tops`. -/
def UnloadsTo (s : State F) (tops : Str → Prop) (track : List TrackItem)
    (result : Outcome (Bool × List TrackItem) × State F) : Prop :=
  ∃ names, Enumerates s tops names ∧
    result = (.ok (true, track ++ names.map (trackItem s)), retireAll s names)

theorem unloadDependents_eq
    {unload : Str → List TrackItem → Manager F (Bool × List TrackItem)} (l : List Str)
    (hunload : ∀ d track (s : State F), Well s → Parseable s.startupList → s.Loaded d →
      (∀ q, s.Up d q → q ∈ l ∧ Unloadable s q) → UnloadsTo s (· = d) track (unload d track s))
    (dependents : List Str) (track : List TrackItem) (s : State F) (hs : Well s)
    (hpar : Parseable s.startupList)
    (hall : ∀ d ∈ dependents, s.Loaded d → ∀ q, s.Up d q → q ∈ l ∧ Unloadable s q) :
    UnloadsTo s (· ∈ dependents) track (unloadDependents unload dependents track s) := by
  induction dependents generalizing track s with
  | nil => exact ⟨[], (Enumerates.empty s).congr (by simp), by simp [unloadDependents, retireAll]⟩
  | cons d rest ih =>
    by_cases hd : s.Loaded d
    · obtain ⟨names, hnames, hrun⟩ :=
        hunload d track s hs hpar hd (hall d (by simp) hd)
      have hgone : ¬ (retireAll s names).Loaded d := fun hl ↦
        ((loaded_retireAll hnames.nodup d).mp hl).1 ((hnames.mem d).mpr ⟨d, rfl, hd, .refl⟩)
      have hrest : ∀ d' ∈ rest, (retireAll s names).Loaded d' →
          ∀ q, (retireAll s names).Up d' q → q ∈ l ∧ Unloadable (retireAll s names) q := by
        intro d' hd' hl q hup
        have hlq := (loaded_retireAll hnames.nodup q).mp (hup.loaded hl)
        have h := hall d' (by simp [hd']) ((loaded_retireAll hnames.nodup d').mp hl).2 q
          (hnames.up_retireAll hup)
        exact ⟨h.1, hnames.unloadable_retireAll hlq.1 h.2⟩
      obtain ⟨names', hnames', hrun'⟩ := ih (track ++ names.map (trackItem s))
        (retireAll s names) (well_retireAll hs names) (parseable_retireAll hpar names) hrest
      refine ⟨names ++ names', (hnames.append hnames').congr (by simp), ?_⟩
      have hfirst : unloadIfLoaded unload d track s =
          (.ok (track ++ names.map (trackItem s)), retireAll s names) := by
        rw [unloadIfLoaded, if_pos hd, Computation.map_apply, hrun]
      have hitems : names'.map (trackItem (retireAll s names)) = names'.map (trackItem s) :=
        List.map_congr_left fun q hq ↦ hnames.trackItem_retireAll
          ((loaded_retireAll hnames.nodup q).mp (hnames'.loaded hq)).1
      rw [unloadDependents, bind_ok hfirst, get_bind_apply, if_neg hgone, hrun', hitems,
        retireAll_append, List.map_append, List.append_assoc]
    · obtain ⟨names, hnames, hrun⟩ := ih track s hs hpar
        fun d' hd' ↦ hall d' (by simp [hd'])
      refine ⟨names, hnames.congr fun q ↦ ?_, ?_⟩
      · constructor
        · rintro ⟨p, hp, hl, hup⟩
          rcases List.mem_cons.mp hp with rfl | hp
          · exact absurd hl hd
          · exact ⟨p, hp, hl, hup⟩
        · rintro ⟨p, hp, hl, hup⟩
          exact ⟨p, by simp [hp], hl, hup⟩
      · have hfirst : unloadIfLoaded unload d track s = (.ok track, s) := if_neg hd
        rw [unloadDependents, bind_ok hfirst, get_bind_apply, if_neg hd, hrun]

/-- Unloading a package all of whose loaded dependents, direct or not, are unloadable. `l` lists
them, so its length bounds the depth of the recursion. -/
theorem unloadFuel_eq (fuel : ℕ) (p : Str) (track : List TrackItem) (s : State F)
    (l : List Str) (hl : l.length ≤ fuel) (hs : Well s) (hpar : Parseable s.startupList)
    (hp : s.Loaded p) (hall : ∀ q, s.Up p q → q ∈ l ∧ Unloadable s q) :
    UnloadsTo s (· = p) track (unloadFuel π fuel p track s) := by
  induction fuel generalizing p track s l with
  | zero =>
    have hpl := (hall p .refl).1
    simp [List.length_eq_zero_iff.mp (Nat.le_zero.mp hl)] at hpl
  | succ fuel ih =>
    obtain ⟨hpl, r, hr, hstop⟩ := hall p .refl
    have hlen : (l.erase p).length ≤ fuel := by
      rw [List.length_erase_of_mem hpl]
      omega
    have hedge (d : Str) (hd : d ∈ π.keys r.dependents) (hld : s.Loaded d) : s.Edge p d :=
      ⟨by rw [State.dependents_of_record hr]; exact (π.keys_perm _).mem_iff.mp hd, hld⟩
    have habove : ∀ d ∈ π.keys r.dependents, s.Loaded d →
        ∀ q, s.Up d q → q ∈ l.erase p ∧ Unloadable s q := by
      intro d hd hld q hup
      have h := hall q (.head (hedge d hd hld) hup)
      refine ⟨(List.mem_erase_of_ne ?_).mpr h.1, h.2⟩
      rintro rfl
      exact hs.ranked.irrefl (hedge d hd hld) hup
    obtain ⟨names, hnames, hrun⟩ := unloadDependents_eq (l.erase p)
      (fun d track t ht htp htl hta ↦ ih d track t (l.erase p) hlen ht htp htl hta)
      (π.keys r.dependents) track s hs hpar habove
    have hpn : p ∉ names := by
      intro hpn
      obtain ⟨d, hd, hld, hup⟩ := (hnames.mem p).mp hpn
      exact hs.ranked.irrefl (hedge d hd hld) hup
    have hstopped := stopPackage_eq (well_retireAll hs names).partitioned
      (parseable_retireAll hpar names) ((loaded_retireAll hnames.nodup p).mpr ⟨hpn, hp⟩)
      (by rw [dependencies_retireAll hnames.nodup hpn, State.dependencies_of_record hr])
      (by rw [hnames.atCleanUp_retireAll hpn, State.atCleanUp_of_record hr])
      (r := r) ⟨hstop.isLiotaPackage, hstop.cleanUp, hstop.nodup, fun d hd ↦
        hnames.linked_retireAll hpn hp (hstop.linked d hd)⟩
      (track ++ names.map (trackItem s))
    have hlast : Enumerates (retireAll s names) (· = p) [p] := by
      refine ⟨List.nodup_singleton p, fun q ↦ ?_, List.pairwise_singleton _ _⟩
      rw [List.mem_singleton]
      constructor
      · rintro rfl
        exact ⟨q, rfl, (loaded_retireAll hnames.nodup q).mpr ⟨hpn, hp⟩, .refl⟩
      · rintro ⟨_, rfl, -, hup⟩
        rcases hup.cases_head with h | ⟨d, he, -⟩
        · exact h.symm
        · have he' := (edge_retireAll hnames.nodup _ _).mp he
          refine absurd ((hnames.mem d).mpr ⟨d, ?_, he'.1.2, .refl⟩) he'.2.2
          rw [(π.keys_perm _).mem_iff, ← State.dependents_of_record hr]
          exact he'.1.1
    refine ⟨names ++ [p], (hnames.append hlast).congr fun q ↦ ?_, ?_⟩
    · constructor
      · rintro ⟨_, rfl, hlp, hup⟩
        exact ⟨_, .inr rfl, hlp, hup⟩
      · rintro ⟨d, hd | rfl, hld, hup⟩
        · exact ⟨p, rfl, hp, .head (hedge d hd hld) hup⟩
        · exact ⟨_, rfl, hld, hup⟩
    · have hitem : trackItem s p = ⟨p, r.ext, r.sha1⟩ := by simp [trackItem, hr]
      rw [unloadFuel]
      simp only [hr]
      rw [bind_ok hrun]
      dsimp only
      rw [if_pos rfl, Computation.map_apply, hstopped, retireAll_append, List.map_append,
        ← List.append_assoc]
      simp [hitem, retireAll]

theorem packageUnload_of_not_loaded {p : Str} {s : State F} (h : ¬ s.Loaded p) :
    packageUnload π p [] s = (.ok (false, []), s) := by
  rw [packageUnload, unloadFuel]
  simp only [State.not_loaded_iff.mp h]

end Liota.PackageManager
