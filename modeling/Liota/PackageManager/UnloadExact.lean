import Liota.PackageManager.Teardown

namespace Liota.PackageManager

open Python Python.Computation Python.Text Relation

variable {F : Type} {π : Platform F}

/-- Outside `C`, packages stay loaded, keep the dependents that lie outside `C` and keep their
lines in the start-up list. -/
structure Confined (C : Str → Prop) (s s' : State F) : Prop where
  loaded : ∀ k, s.Loaded k → ¬ C k → s'.Loaded k
  dependents : ∀ k, ¬ C k → ∀ x ∈ s.dependents k, ¬ C x → x ∈ s'.dependents k
  listed : ∀ k, ¬ C k → Listed s.startupList k → Listed s'.startupList k

section Frame

variable {C : Str → Prop}

theorem Confined.refl (s : State F) : Confined C s s :=
  ⟨fun _ hk _ ↦ hk, fun _ _ _ hx _ ↦ hx, fun _ _ ↦ id⟩

theorem Confined.trans (s t u : State F) (h : Confined C s t) (h' : Confined C t u) :
    Confined C s u :=
  ⟨fun k hk hC ↦ h'.loaded k (h.loaded k hk hC) hC,
    fun k hC x hx hxC ↦ h'.dependents k hC x (h.dependents k hC x hx hxC) hxC,
    fun k hC hl ↦ h'.listed k hC (h.listed k hC hl)⟩

theorem confined_of_record_eq {s s' : State F} (h : ∀ k, s'.record k = s.record k)
    (hl : ∀ k, ¬ C k → Listed s.startupList k → Listed s'.startupList k) :
    Confined C s s' := by
  refine ⟨fun k hk _ ↦ ?_, fun k _ x hx _ ↦ ?_, hl⟩
  · rwa [State.loaded_iff, h, ← State.loaded_iff]
  · rwa [State.dependents, h]

theorem Unlinks.confined {name : Str} {s s' : State F} (h : Unlinks name s s') (hC : C name) :
    Confined C s s' := by
  refine ⟨fun k hk _ ↦ (h.loaded k).mpr hk, fun k _ x hx hxC ↦ h.kept k x hx ?_,
    fun k _ hl ↦ h.startupList ▸ hl⟩
  intro hxn
  exact hxC (hxn ▸ hC)

theorem erase_confined {name : Str} (s : State F) (hC : C name) :
    Confined C s (s.erase name) := by
  have hne (k : Str) (hk : ¬ C k) : k ≠ name := fun h ↦ hk (h ▸ hC)
  refine ⟨fun k hk hkC ↦ (State.loaded_erase name k s).mpr ⟨hne k hkC, hk⟩,
    fun k hkC x hx _ ↦ ?_, fun _ _ ↦ id⟩
  simpa only [State.dependents, State.record_erase, if_neg (hne k hkC)] using hx

theorem stopPackage_confined {name : Str} (hC : C name) (r : PackageRecord F)
    (track : List TrackItem) : Within (Confined C) (stopPackage name r track) := by
  have hrecord : Within (Confined C) (deleteRecord (F := F) name) := by
    intro s
    unfold deleteRecord
    split
    · exact erase_confined s hC
    · exact Confined.refl s
  have hlist : Within (Confined C) (removePackageFromAutoload (F := F) name) := by
    intro s
    obtain ⟨list, h⟩ := removePackageFromAutoload_frame name s
    refine confined_of_record_eq (fun _ ↦ by rw [h]; rfl) fun k hk hl ↦ ?_
    exact listed_remove (fun hkn ↦ hk (hkn ▸ hC)) hl
  have hclean : Within (Confined C) (cleanUp (F := F) name r.obj) := by
    intro s
    rw [cleanUp_snd]
    exact confined_of_record_eq (fun _ ↦ rfl) fun _ _ ↦ id
  unfold stopPackage
  split
  · refine within_bind Confined.trans ?_ fun _ ↦ ?_
    · exact fun s ↦ confined_of_record_eq (fun _ ↦ rfl) fun _ _ ↦ id
    refine within_bind Confined.trans hclean fun _ ↦ ?_
    refine within_bind Confined.trans ?_ fun _ ↦ ?_
    · exact fun s ↦ (deleteFromDependencies_unlinks name r.dependencies s).confined hC
    refine within_bind Confined.trans hrecord fun _ ↦ ?_
    exact within_bind Confined.trans hlist fun _ ↦ within_pure Confined.refl _
  · exact within_raise Confined.refl _

theorem Shrinks.edge {s s' : State F} (h : Shrinks s s') {d q : Str} (he : s'.Edge d q) :
    s.Edge d q := ⟨h.dependents d he.1, h.loaded he.2⟩

theorem Shrinks.closed {s s' : State F} (h : Shrinks s s') (hC : Graph.Closed s.Edge C) :
    Graph.Closed s'.Edge C := fun a b ha hab ↦ hC a b ha (h.edge hab)

theorem unloadDependents_confined
    {unload : Str → List TrackItem → Manager F (Bool × List TrackItem)}
    (hshrinks : ∀ name track, Within Shrinks (unload name track))
    (hunload : ∀ d track s, Graph.Closed s.Edge C → C d → Confined C s (unload d track s).2)
    (dependents : List Str) (track : List TrackItem) (s : State F)
    (hC : Graph.Closed s.Edge C) (hall : ∀ d ∈ dependents, s.Loaded d → C d) :
    Confined C s (unloadDependents unload dependents track s).2 := by
  induction dependents generalizing track s with
  | nil => exact Confined.refl s
  | cons d rest ih =>
    have hfirst : Shrinks s (unloadIfLoaded unload d track s).2 ∧
        Confined C s (unloadIfLoaded unload d track s).2 := by
      unfold unloadIfLoaded
      split
      · next hd =>
        refine ⟨within_map (hshrinks d track) s, ?_⟩
        have h := hunload d track s hC (hall d (by simp) hd)
        rw [Computation.map_apply]
        rcases hr : unload d track s with ⟨a | e | _, t⟩ <;> rw [hr] at h <;> exact h
      · exact ⟨Shrinks.refl s, Confined.refl s⟩
    unfold unloadDependents
    rw [bind_apply]
    rcases hr : unloadIfLoaded unload d track s with ⟨track' | e | _, t⟩ <;> rw [hr] at hfirst
    · dsimp only
      rw [get_bind_apply]
      split
      · exact hfirst.2
      · refine Confined.trans _ _ _ hfirst.2 (ih track' t (hfirst.1.closed hC) fun d' hd' hl ↦ ?_)
        exact hall d' (by simp [hd']) (hfirst.1.loaded hl)
    · exact hfirst.2
    · exact hfirst.2

theorem unloadFuel_confined (fuel : ℕ) (name : Str) (track : List TrackItem) (s : State F)
    (hC : Graph.Closed s.Edge C) (hname : C name) :
    Confined C s (unloadFuel π fuel name track s).2 := by
  induction fuel generalizing name track s with
  | zero => exact Confined.refl s
  | succ fuel ih =>
    unfold unloadFuel
    split
    · exact Confined.refl s
    · next r hr =>
      have hloop := unloadDependents_confined (unloadFuel_shrinks π fuel)
        (fun d track s hC hd ↦ ih d track s hC hd) (π.keys r.dependents) track s hC
        fun d hd hl ↦ hC name d hname ⟨by
          rw [State.dependents_of_record hr]
          exact (π.keys_perm _).mem_iff.mp hd, hl⟩
      rw [bind_apply]
      rcases hd : unloadDependents (unloadFuel π fuel) (π.keys r.dependents) track s with
        ⟨⟨unloaded, track'⟩ | e | _, t⟩ <;> rw [hd] at hloop
      · dsimp only
        split
        · exact Confined.trans _ _ _ hloop (within_map (stopPackage_confined hname r track') t)
        · exact hloop
      · exact hloop
      · exact hloop

end Frame

theorem deleteFromDependencies_nodup {name : Str} {deps : List Str} {s s' : State F}
    (h : deleteFromDependencies name deps s = (.ok (), s')) :
    deps.Nodup ∧ (∀ d ∈ deps, name ∈ s.dependents d) ∧ s'.startupList = s.startupList := by
  induction deps generalizing s with
  | nil =>
    simp only [deleteFromDependencies, pure_apply, Prod.mk.injEq] at h
    exact ⟨List.nodup_nil, by simp, by rw [h.2]⟩
  | cons d rest ih =>
    rw [deleteFromDependencies] at h
    dsimp only at h
    split at h
    · next hd =>
      obtain ⟨hnodup, hlinked, hlist⟩ := ih h
      have hgone : name ∉ (s.delDependent d name).dependents d := by
        rw [State.delDependent, State.dependents, State.record_modifyRecord, if_pos rfl]
        rcases s.record d with _ | r <;> simp
      refine ⟨List.nodup_cons.mpr ⟨fun hdr ↦ hgone (hlinked d hdr), hnodup⟩, ?_, hlist⟩
      intro k hk
      rcases List.mem_cons.mp hk with rfl | hk
      · exact hd
      · exact (delDependent_unlinks d name s).dependents k (hlinked k hk)
    · cases h

theorem stopPackage_eq_ok {name : Str} {r : PackageRecord F} {track track' : List TrackItem}
    {s s' : State F} (h : stopPackage name r track s = (.ok track', s')) :
    r.obj.isLiotaPackage = true ∧ (∀ e, r.obj.cleanUp = some e → e.isLogged = true) ∧
      r.dependencies.Nodup ∧ Parseable s.startupList ∧ ¬ s'.Loaded name := by
  unfold stopPackage at h
  split at h
  swap
  · cases h
  next hobj =>
  obtain ⟨_, t, hzoom, h⟩ := bind_eq_ok h
  obtain ⟨_, u, hclean, h⟩ := bind_eq_ok h
  obtain ⟨_, v, hdelete, h⟩ := bind_eq_ok h
  obtain ⟨_, w, hrecord, h⟩ := bind_eq_ok h
  obtain ⟨_, x, hlist, hlast⟩ := bind_eq_ok h
  obtain ⟨hnodup, -, hv⟩ := deleteFromDependencies_nodup hdelete
  have ht : t.startupList = s.startupList := by
    rw [show t = (Py.zoom State.resourceRegistry
      (fun r (s : State F) ↦ { s with resourceRegistry := r })
      (ResourceRegistry.deregisterPackage name) s).2 by rw [hzoom]]
    rfl
  have hu : u = t.afterCleanUp name r.obj ∧
      ∀ e, r.obj.cleanUp = some e → e.isLogged = true := by
    unfold cleanUp at hclean
    split at hclean
    · next hc => exact ⟨(congrArg Prod.snd hclean).symm, by simp [hc]⟩
    · next e hc =>
      refine ⟨(congrArg Prod.snd hclean).symm, fun e' he' ↦ ?_⟩
      obtain rfl := Option.some.inj (hc.symm.trans he')
      cases hexc : e.isLogged with
      | true => rfl
      | false => simp [hexc] at hclean
  have hw : w.startupList = v.startupList ∧ ¬ w.Loaded name := by
    unfold deleteRecord at hrecord
    split at hrecord
    · obtain rfl := congrArg Prod.snd hrecord
      exact ⟨rfl, fun hl ↦ ((State.loaded_erase name name v).mp hl).1 rfl⟩
    · cases hrecord
  refine ⟨hobj, hu.2, hnodup, ?_, ?_⟩
  swap
  · obtain ⟨list, hframe⟩ := removePackageFromAutoload_frame name w
    rw [hlist] at hframe
    obtain rfl : x = s' := congrArg Prod.snd hlast
    rw [show x = _ from hframe]
    exact hw.2
  by_contra hpar
  have hraises := removePackageFromAutoload_raises name w
    (by rw [hw.1, hv, hu.1]; exact ht ▸ hpar)
  rw [hlist] at hraises
  cases hraises

theorem unloadFuel_ok {fuel : ℕ} {name : Str} {track track' : List TrackItem} {s s' : State F}
    {b : Bool} (hl : s.Loaded name)
    (h : unloadFuel π fuel name track s = (.ok (b, track'), s')) : b = true ∧ ¬ s'.Loaded name := by
  induction fuel generalizing name track track' s s' b with
  | zero => cases h
  | succ fuel ih =>
    have hloop (deps : List Str) (track track' : List TrackItem) (s t : State F) (b : Bool)
        (h : unloadDependents (unloadFuel π fuel) deps track s = (.ok (b, track'), t)) :
        b = true := by
      induction deps generalizing track s with
      | nil =>
        simp only [unloadDependents, pure_apply, Prod.mk.injEq, Outcome.ok.injEq] at h
        exact h.1.1.symm
      | cons d rest ihrest =>
        rw [unloadDependents] at h
        obtain ⟨track₁, u, hfirst, hrest⟩ := bind_eq_ok h
        have hgone : ¬ u.Loaded d := by
          unfold unloadIfLoaded at hfirst
          split at hfirst
          · next hd =>
            rw [Computation.map_apply] at hfirst
            rcases hr : unloadFuel π fuel d track s with ⟨⟨b', track₂⟩ | e | _, u'⟩ <;>
              rw [hr] at hfirst
            · obtain rfl : u' = u := congrArg Prod.snd hfirst
              exact (ih hd hr).2
            · cases hfirst
            · cases hfirst
          · next hd =>
            obtain rfl : s = u := congrArg Prod.snd hfirst
            exact hd
        rw [get_bind_apply, if_neg hgone] at hrest
        exact ihrest track₁ u hrest
    obtain ⟨r, hr⟩ := State.loaded_iff.mp hl
    rw [unloadFuel] at h
    simp only [hr] at h
    obtain ⟨⟨unloaded, track₁⟩, t, hdeps, hrest⟩ := bind_eq_ok h
    obtain rfl := hloop _ _ _ _ _ _ hdeps
    dsimp only at hrest
    rw [if_pos rfl, Computation.map_apply] at hrest
    rcases hstop : stopPackage name r track₁ t with ⟨track₂ | e | _, u⟩ <;> rw [hstop] at hrest
    · simp only [Prod.mk.injEq, Outcome.ok.injEq] at hrest
      obtain ⟨⟨rfl, -⟩, rfl⟩ := hrest
      exact ⟨rfl, (stopPackage_eq_ok hstop).2.2.2.2⟩
    · cases hrest
    · cases hrest

theorem Shrinks.removable {s t : State F} (h : Shrinks s t) {q : Str} (hl : t.Loaded q)
    (hq : Removable t q) : Removable s q := by
  obtain ⟨r, hr⟩ := State.loaded_iff.mp hl
  obtain ⟨d, hd, -⟩ := h.record q r hr
  refine ⟨fun r' e hr' ↦ ?_, fun r' hr' ↦ ?_, ?_⟩
  · obtain rfl := Option.some.inj (hd.symm.trans hr')
    exact hq.cleansUp r e hr
  · obtain rfl := Option.some.inj (hd.symm.trans hr')
    exact hq.isLiotaPackage r hr
  · rw [State.dependencies_of_record hd, ← State.dependencies_of_record hr]
    exact hq.nodup

theorem Confined.up {C : Str → Prop} {s t : State F} (h : Confined C s t)
    (hC : Graph.Closed s.Edge C) {p q : Str} (hq : ¬ C q) (hup : s.Up p q) : t.Up p q := by
  refine ReflTransGen.mono (fun x y hxy ↦ ?_) _ _ ((hC.reach_outside (b := q) hq).mp hup)
  have hx : ¬ C x := fun hx ↦ hxy.2 (hC x y hx hxy.1)
  exact ⟨h.dependents x hx y hxy.1.1 hxy.2, h.loaded y hxy.1.2 hxy.2⟩

theorem unloadFuel_true (fuel : ℕ) (p : Str) (track track' : List TrackItem) (s s' : State F)
    (hs : Ranked s) (h : unloadFuel π fuel p track s = (.ok (true, track'), s')) :
    Parseable s.startupList ∧ ∀ q, s.Up p q → Removable s q := by
  induction fuel generalizing p track track' s s' with
  | zero => cases h
  | succ fuel ih =>
    have hloop (deps : List Str) (track track' : List TrackItem) (s t : State F) (hs : Ranked s)
        (h : unloadDependents (unloadFuel π fuel) deps track s = (.ok (true, track'), t)) :
        (Parseable t.startupList → Parseable s.startupList) ∧
          ∀ d ∈ deps, s.Loaded d → ∀ q, s.Up d q → Removable s q := by
      induction deps generalizing track s with
      | nil =>
        simp only [unloadDependents, pure_apply, Prod.mk.injEq] at h
        exact ⟨fun hpar ↦ h.2 ▸ hpar, by simp⟩
      | cons d rest ihrest =>
        rw [unloadDependents] at h
        obtain ⟨track₁, u, hfirst, hrest⟩ := bind_eq_ok h
        rw [get_bind_apply] at hrest
        split at hrest
        · cases hrest
        next hgone =>
        by_cases hd : s.Loaded d
        · rw [unloadIfLoaded, if_pos hd, Computation.map_apply] at hfirst
          rcases hr : unloadFuel π fuel d track s with ⟨⟨b, track₂⟩ | e | _, u'⟩ <;>
            rw [hr] at hfirst
          swap
          · cases hfirst
          swap
          · cases hfirst
          obtain rfl : u' = u := congrArg Prod.snd hfirst
          obtain rfl := (unloadFuel_ok hd hr).1
          obtain ⟨hpar, habove⟩ := ih d track track₂ s u' hs hr
          have hshr := unloadFuel_shrinks π fuel d track s
          rw [hr] at hshr
          have hclosed : Graph.Closed s.Edge (s.Up d) := fun a b ha hab ↦ ha.tail hab
          have hconf := unloadFuel_confined (π := π) fuel d track s hclosed .refl
          rw [hr] at hconf
          have hu : Ranked u' := hs.of_edges fun _ _ he ↦ hshr.edge he
          obtain ⟨-, hothers⟩ := ihrest track₁ u' hu hrest
          refine ⟨fun _ ↦ hpar, fun k hk hl q hup ↦ ?_⟩
          by_cases hdq : s.Up d q
          · exact habove q hdq
          have hk' : k ∈ rest := by
            rcases List.mem_cons.mp hk with rfl | hk
            · exact absurd hup hdq
            · exact hk
          have hkC : ¬ s.Up d k := fun h ↦ hdq (h.trans hup)
          have hupt := hconf.up hclosed hdq hup
          have hlt := hconf.loaded k hl hkC
          exact hshr.removable (hupt.loaded hlt) (hothers k hk' hlt q hupt)
        · rw [unloadIfLoaded, if_neg hd] at hfirst
          obtain rfl : s = u := congrArg Prod.snd hfirst
          obtain ⟨hpar, hothers⟩ := ihrest track₁ s hs hrest
          refine ⟨hpar, fun k hk hl q hup ↦ ?_⟩
          rcases List.mem_cons.mp hk with rfl | hk
          · exact absurd hl hd
          · exact hothers k hk hl q hup
    rw [unloadFuel] at h
    rcases hr : s.record p with _ | r <;> simp only [hr] at h
    · cases h
    obtain ⟨⟨unloaded, track₁⟩, t, hdeps, hrest⟩ := bind_eq_ok h
    cases unloaded with
    | false => cases hrest
    | true =>
      obtain ⟨hparse, habove⟩ := hloop _ track track₁ s t hs hdeps
      dsimp only at hrest
      rw [if_pos rfl, Computation.map_apply] at hrest
      rcases hstop : stopPackage p r track₁ t with ⟨track₂ | e | _, u⟩ <;> rw [hstop] at hrest
      swap
      · cases hrest
      swap
      · cases hrest
      obtain ⟨hobj, hclean, hnodup, hpar, -⟩ := stopPackage_eq_ok hstop
      refine ⟨hparse hpar, fun q hup ↦ ?_⟩
      rcases hup.cases_head with rfl | ⟨d, hd, hup⟩
      · refine ⟨fun r' e hr' ↦ ?_, fun r' hr' ↦ ?_, ?_⟩
        · exact Option.some.inj (hr.symm.trans hr') ▸ hclean e
        · exact Option.some.inj (hr.symm.trans hr') ▸ hobj
        · rwa [State.dependencies_of_record hr]
      · refine habove d ?_ hd.2 q hup
        rw [(π.keys_perm _).mem_iff, ← State.dependents_of_record hr]
        exact hd.1

/-- Unloading a loaded package succeeds exactly when the start-up list can be parsed and
everything loaded above the package is a `LiotaPackage` that names no dependency twice and
whose `clean_up` raises nothing but what can be logged. -/
theorem unload_succeeds_iff {files : FileSystem F → Prop}
    {condition : State F → Request → Prop} {t : Thread F} (ht : Reachable π files condition t)
    {p : Str} (hp : t.state.Loaded p) (track : List TrackItem) :
    (∃ track' s', packageUnload π p track t.state = (.ok (true, track'), s') ∧ ¬ s'.Loaded p) ↔
      Parseable t.state.startupList ∧ ∀ q, t.state.Up p q → Removable t.state q := by
  constructor
  · rintro ⟨track', s', h, -⟩
    exact unloadFuel_true _ p track track' _ s' ht.consistent.ranked h
  · rintro ⟨hpar, hall⟩
    obtain ⟨names, hnames, hrun⟩ := packageUnload_eq (π := π) ht.consistent hpar hp hall track
    refine ⟨_, _, hrun, fun hl ↦ ?_⟩
    exact ((loaded_retireAll hnames.nodup p).mp hl).1 ((hnames.mem p).mpr ⟨p, rfl, hp, .refl⟩)

def twiceScripts : List (Str × Script) :=
  [("d".toList, .standard "1".toList [] .ret none),
    ("p".toList, .standard "2".toList ["d".toList, "d".toList] .ret none)]

theorem unload_twice_not_succeeds :
    ¬ ∀ t, Reachable scriptPlatform (fun _ ↦ True) (fun _ _ ↦ True) t →
      ∀ p, t.state.Loaded p → ∃ track' s',
        packageUnload scriptPlatform p [] t.state = (.ok (true, track'), s') ∧
          ¬ s'.Loaded p := by
  intro h
  obtain ⟨track', s', hrun, -⟩ := h (scriptThread twiceScripts none ["load p 2"])
    (reachable_scriptThread trivial none _) "p".toList
    (by decide +kernel)
  have hraised : (packageUnload scriptPlatform "p".toList []
      (scriptThread twiceScripts none ["load p 2"]).state).1 = .raised .keyError := by
    decide +kernel
  rw [hrun] at hraised
  cases hraised

theorem unload_succeeds_iff_pair :
    (scriptThread pairScripts none ["load p 2"]).state.Loaded "d".toList ∧
      ∃ track' s', packageUnload scriptPlatform "d".toList []
        (scriptThread pairScripts none ["load p 2"]).state = (.ok (true, track'), s') ∧
          ¬ s'.Loaded "d".toList := by
  have ht := reachable_scriptThread documented_pairScripts none ["load p 2"]
  refine ⟨by decide +kernel, (unload_succeeds_iff ht (by decide +kernel) []).mpr
    ⟨parseable_of_none (by decide +kernel), fun q _ ↦ ?_⟩⟩
  exact ht.documented.removable (cleansUp_of_entries (by decide +kernel) q)

end Liota.PackageManager
