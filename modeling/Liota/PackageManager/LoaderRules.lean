import Liota.Python.Agreement
import Liota.PackageManager.Tries

namespace Liota.PackageManager

open Python Python.Computation Python.Text Relation

variable {F : Type}

/-- A way to carry out a call of `_package_load`. -/
abbrev Loader (F : Type) := Call → Manager F (Option (PackageRecord F))

section Definitions

variable (π : Platform F) (load : Loader F)

def packageReloadWith (fileName checksum : Str) (autoload : Bool) :
    Manager F (Option (PackageRecord F)) := do
  let s ← Py.get
  if s.Loaded fileName then
    restart π (fun item sha1 ↦ load ⟨item.name, some sha1, false, some item.ext⟩)
      fileName checksum autoload
  else pure none

def packageUpdateWith (fileName checksum : Str) (autoload : Bool) :
    Manager F (Option (PackageRecord F)) := do
  let s ← Py.get
  if s.Loaded fileName then
    restart π (fun item sha1 ↦ load ⟨item.name, some sha1, false, none⟩) fileName checksum autoload
  else load ⟨fileName, some checksum, false, none⟩

def loadListedWith (autoload : Bool) (entry : Str × Str) (failed : List Str) :
    Manager F (List Str) :=
  Py.tryExcept catchAll
    (do
      let s ← Py.get
      if s.Loaded entry.1 then pure failed
      else do
        let record ← load (listCall autoload entry)
        pure (if record.isSome then failed else failed ++ [entry.1]))
    (pure failed)

def loadListFromWith (autoload : Bool) : List (Str × Str) → List Str → Manager F (List Str)
  | [], failed => pure failed
  | entry :: rest, failed => do
    let failed ← loadListedWith load autoload entry failed
    loadListFromWith autoload rest failed

def packageLoadListWith (packageList : List (Str × Str)) (autoload : Bool) : Manager F Bool := do
  let failed ← loadListFromWith load autoload packageList []
  pure (failed = [])

def packageUpdateListWith (packageList : List (Str × Str)) (autoload : Bool) :
    Manager F Bool := do
  let (unloaded, track) ← packageUnloadList π (packageList.map Prod.fst) []
  let loaded ← packageLoadListWith load packageList autoload
  let restored ← (if track = [] then pure true
    else packageLoadListWith load (track.reverse.map fun item ↦ (item.name, item.sha1)) autoload)
  pure (unloaded && loaded && restored)

def packageLoadAutoWith : Manager F Unit := fun s ↦
  match s.startupList with
  | none => (.ok (), s)
  | some text =>
    match readStartupList (splitlines text) with
    | none => (.raised .valueError, s)
    | some packageStartupList =>
      (if packageStartupList = [] then pure () else do
        let _ ← packageLoadListWith load packageStartupList false
        pure ()) s

def performWith : Request → Manager F Bool
  | .load fileName checksum autoload => do
    let _ ← load ⟨fileName, some checksum, autoload, none⟩
    pure true
  | .reload fileName checksum autoload => do
    let _ ← packageReloadWith π load fileName checksum autoload
    pure true
  | .update fileName checksum autoload => do
    let _ ← packageUpdateWith π load fileName checksum autoload
    pure true
  | .loadList packages autoload => do
    let _ ← packageLoadListWith load packages autoload
    pure true
  | .updateList packages autoload => do
    let _ ← packageUpdateListWith π load packages autoload
    pure true
  | .loadAuto => do
    packageLoadAutoWith load
    pure true
  | request => perform π request

theorem loadListFromWith_makeCall (autoload : Bool) (list : List (Str × Str)) (failed : List Str) :
    loadListFromWith (makeCall π) autoload list failed = loadListFrom π autoload list failed := by
  induction list generalizing failed with
  | nil => rfl
  | cons entry rest ih =>
    rw [loadListFromWith, loadListFrom]
    congr 1
    funext failed'
    exact ih failed'

theorem performWith_makeCall (request : Request) :
    performWith π (makeCall π) request = perform π request := by
  have hlist (list : List (Str × Str)) (autoload : Bool) :
      packageLoadListWith (makeCall π) list autoload = packageLoadList π list autoload := by
    rw [packageLoadListWith, packageLoadList, loadListFromWith_makeCall]
  cases request with
  | loadList packages autoload => rw [performWith, perform, hlist]
  | updateList packages autoload =>
    simp only [performWith, perform, packageUpdateListWith, packageUpdateList, hlist]
  | loadAuto =>
    have hauto : packageLoadAutoWith (makeCall π) = packageLoadAuto π := by
      funext s
      cases hs : s.startupList with
      | none => simp only [packageLoadAutoWith, packageLoadAuto, hs]
      | some text =>
        cases hread : readStartupList (splitlines text) with
        | none => simp only [packageLoadAutoWith, packageLoadAuto, hs, hread]
        | some packages => simp only [packageLoadAutoWith, packageLoadAuto, hs, hread, hlist]
    rw [performWith, perform, hauto]
  | load | reload | update | unload | unloadList | delete | deleteList | unloadAll | updateAll
  | terminate | report | ignored => rfl

end Definitions

def Request.asked (s : State F) : Request → List Str
  | .loadAuto => (((s.startupList.bind fun text ↦ readStartupList (splitlines text)).getD []).map
      Prod.fst)
  | request => request.named.map Prod.fst

def Request.deletes : Request → List Str
  | .delete fileName => [fileName]
  | .deleteList packages => packages
  | _ => []

def Request.restarts : Request → List Str
  | .reload fileName _ _ => [fileName]
  | .update fileName _ _ => [fileName]
  | .updateList packages _ => packages.map Prod.fst
  | _ => []

/-- `A` holds of the names that a request asks for, and of what it unloads and loads again. -/
structure Request.Within (s : State F) (A : Str → Prop) (request : Request) : Prop where
  asked : ∀ name ∈ request.asked s, A name
  above : ∀ p ∈ request.restarts, ∀ name, s.Loaded p → s.Up p name → A name

/-- The rule for what two loaders have in common over whole requests: from states with `I` they do
the same for the names in `A`, and whatever else a request does keeps `I`. `D` says whether packages
may be deleted. -/
structure LoaderRule (π : Platform F) (load load' : Loader F) (A : Str → Prop) (D : Prop)
    (I : State F → Prop) : Prop where
  consistent : ∀ s, I s → Consistent s
  call : ∀ call s, A call.name → I s → load call s = load' call s ∧ I (load call s).2
  unload : ∀ s t, Shrinks s t → Consistent t → I s → I t
  listed : ∀ s list, I s → I { s with startupList := list }
  stash : D → ∀ name s, I s → I (stashFile π name s).2
  makeStash : D → ∀ s, I s → I (makeStash π s).2

namespace LoaderRule

variable {π : Platform F} {load load' : Loader F} {A : Str → Prop} {D : Prop} {I : State F → Prop}
  (h : LoaderRule π load load' A D I)
include h

theorem agree_load {call : Call} {s : State F} (hs : I s) (hcall : A call.name) :
    AgreeAt I (fun _ ↦ True) (load call) (load' call) s := by
  obtain ⟨heq, hinv⟩ := h.call call s hcall hs
  exact ⟨heq, hinv, fun _ _ ↦ trivial⟩

theorem packageUnload {s : State F} (hs : I s) (name : Str) (track : List TrackItem) :
    I (packageUnload π name track s).2 :=
  h.unload s _ (packageUnload_shrinks π name track s)
    (covers_consistent.unload name track s (h.consistent s hs)) hs

theorem agree_packageUnload {s : State F} (hs : I s) {name : Str} (hname : s.Loaded name)
    (habove : ∀ q, s.Up name q → A q) :
    AgreeAt I (fun p ↦ ∀ item ∈ p.2, A item.name) (PackageManager.packageUnload π name [])
      (PackageManager.packageUnload π name []) s where
  eq := rfl
  inv := h.packageUnload hs name []
  post p hp := by
    obtain ⟨b, track⟩ := p
    obtain ⟨-, names, hnames, -, rfl, -⟩ :=
      packageUnload_ok (h.consistent s hs) hname (Prod.ext hp rfl)
    intro item hitem
    rw [List.nil_append] at hitem
    obtain ⟨n, hn, rfl⟩ := List.mem_map.mp hitem
    rw [trackItem_name]
    obtain ⟨p, rfl, -, hup⟩ := (hnames.mem n).mp hn
    exact habove n hup

theorem packageUnloadList {s : State F} (hs : I s) (packages : List Str) :
    I (packageUnloadList π packages [] s).2 := by
  have hconsistent :=
    (covers_consistent (π := π)).packageUnloadList packages [] s (h.consistent s hs)
  refine h.unload s _ ?_ hconsistent hs
  have hshrinks := within_unloadListFrom Shrinks.refl Shrinks.trans (packageUnload_shrinks π)
    packages [] [] s
  rw [PackageManager.packageUnloadList, bind_pure_snd]
  exact hshrinks

theorem agree_packageUnloadList {s : State F} (hs : I s) {packages : List Str}
    (habove : ∀ p ∈ packages, ∀ q, s.Loaded p → s.Up p q → A q) :
    AgreeAt I (fun p ↦ ∀ item ∈ p.2, A item.name) (PackageManager.packageUnloadList π packages [])
      (PackageManager.packageUnloadList π packages []) s where
  eq := rfl
  inv := h.packageUnloadList hs packages
  post p hp := by
    obtain ⟨b, track⟩ := p
    obtain ⟨⟨failed, track'⟩, t, hfrom, heq⟩ := bind_eq_ok (Prod.ext hp rfl)
    obtain ⟨names, hnames, -, rfl, -⟩ := unloadListFrom_ok (h.consistent s hs) hfrom
    cases heq
    intro item hitem
    rw [List.nil_append] at hitem
    obtain ⟨n, hn, rfl⟩ := List.mem_map.mp hitem
    rw [trackItem_name]
    obtain ⟨p, hp, hl, hup⟩ := (hnames.mem n).mp hn
    exact habove p hp n hl hup

theorem agree_reloadTracked {f : TrackItem → Str → Call}
    (hname : ∀ item sha1, (f item sha1).name = item.name) (fileName checksum : Str)
    (items : List TrackItem) (hitems : ∀ item ∈ items, A item.name)
    (record : Option (PackageRecord F)) {s : State F} (hs : I s) :
    AgreeAt I (fun _ ↦ True)
      (reloadTracked (fun item sha1 ↦ load (f item sha1)) fileName checksum items record)
      (reloadTracked (fun item sha1 ↦ load' (f item sha1)) fileName checksum items record) s := by
  induction items generalizing record s with
  | nil => exact agreeAt_pure hs trivial
  | cons item rest ih =>
    have hrest : ∀ item ∈ rest, A item.name := fun i hi ↦ hitems i (by simp [hi])
    apply agreeAt_get_bind
    apply agreeAt_ite
    · intro _
      exact ih hrest record hs
    · intro _
      refine agreeAt_bind (Q := fun _ ↦ True) ?_ fun temp t _ ht ↦ ih hrest _ ht
      apply h.agree_load hs
      rw [hname]
      exact hitems item (by simp)

theorem agree_restart {f : TrackItem → Str → Call}
    (hname : ∀ item sha1, (f item sha1).name = item.name) {fileName : Str} (checksum : Str)
    (autoload : Bool) {s : State F} (hs : I s) (hl : s.Loaded fileName)
    (habove : ∀ q, s.Up fileName q → A q) :
    AgreeAt I (fun _ ↦ True)
      (restart π (fun item sha1 ↦ load (f item sha1)) fileName checksum autoload)
      (restart π (fun item sha1 ↦ load' (f item sha1)) fileName checksum autoload) s := by
  refine agreeAt_bind (h.agree_packageUnload hs hl habove) ?_
  intro p t hp ht
  obtain ⟨unloaded, track⟩ := p
  apply agreeAt_ite
  · intro _
    refine agreeAt_bind (h.agree_reloadTracked hname fileName checksum _ ?_ none ht) ?_
    · intro item hitem
      exact hp item (List.mem_reverse.mp hitem)
    · intro record u _ hu
      cases record with
      | none => exact agreeAt_pure hu trivial
      | some r =>
        apply agreeAt_ite
        · intro _
          refine agreeAt_bind (agreeAt_self ?_) fun _ v _ hv ↦ agreeAt_pure hv trivial
          obtain ⟨list, hlist⟩ := writePackageIntoAutoload_frame fileName r.sha1 u
          rw [hlist]
          exact h.listed u list hu
        · intro _
          exact agreeAt_pure hu trivial
  · intro _
    exact agreeAt_pure ht trivial

theorem agree_packageLoadList (packages : List (Str × Str)) (autoload : Bool)
    (hnames : ∀ entry ∈ packages, A entry.1) {s : State F} (hs : I s) :
    AgreeAt I (fun _ ↦ True) (packageLoadListWith load packages autoload)
      (packageLoadListWith load' packages autoload) s := by
  have hloop (failed : List Str) : AgreeAt I (fun _ ↦ True)
      (loadListFromWith load autoload packages failed)
      (loadListFromWith load' autoload packages failed) s := by
    induction packages generalizing failed s with
    | nil => exact agreeAt_pure hs trivial
    | cons entry rest ih =>
      refine agreeAt_bind (Q := fun _ ↦ True)
        (agreeAt_tryExcept ?_ fun t ht ↦ agreeAt_pure ht trivial)
        fun failed' t _ ht ↦ ih (fun e he ↦ hnames e (by simp [he])) ht failed'
      apply agreeAt_get_bind
      apply agreeAt_ite
      · intro _
        exact agreeAt_pure hs trivial
      · intro _
        exact agreeAt_bind (h.agree_load hs (hnames entry (by simp)))
          fun record t _ ht ↦ agreeAt_pure ht trivial
  exact agreeAt_bind (hloop []) fun failed t _ ht ↦ agreeAt_pure ht trivial

theorem agree_packageUpdateList (packages : List (Str × Str)) (autoload : Bool)
    (hnames : ∀ entry ∈ packages, A entry.1) {s : State F} (hs : I s)
    (habove : ∀ p ∈ packages.map Prod.fst, ∀ q, s.Loaded p → s.Up p q → A q) :
    AgreeAt I (fun _ ↦ True) (packageUpdateListWith π load packages autoload)
      (packageUpdateListWith π load' packages autoload) s := by
  refine agreeAt_bind (h.agree_packageUnloadList hs habove) ?_
  intro p t hp ht
  obtain ⟨unloaded, track⟩ := p
  refine agreeAt_bind (h.agree_packageLoadList packages autoload hnames ht) ?_
  intro loaded u _ hu
  refine agreeAt_bind (Q := fun _ ↦ True) ?_ fun restored v _ hv ↦ agreeAt_pure hv trivial
  apply agreeAt_ite
  · intro _
    exact agreeAt_pure hu trivial
  · intro _
    apply h.agree_packageLoadList _ autoload _ hu
    intro entry hentry
    obtain ⟨item, hitem, rfl⟩ := List.mem_map.mp hentry
    exact hp item (List.mem_reverse.mp hitem)

theorem agree_packageLoadAuto {s : State F} (hs : I s)
    (hnames : ∀ name ∈ Request.asked s .loadAuto, A name) :
    AgreeAt I (fun _ ↦ True) (packageLoadAutoWith load) (packageLoadAutoWith load') s := by
  cases hlist : s.startupList with
  | none =>
    have heq (l : Loader F) : packageLoadAutoWith l s = (.ok (), s) := by
      simp only [packageLoadAutoWith, hlist]
    exact ⟨by rw [heq, heq], by rw [heq]; exact hs, fun _ _ ↦ trivial⟩
  | some text =>
    cases hread : readStartupList (splitlines text) with
    | none =>
      have heq (l : Loader F) : packageLoadAutoWith l s = (.raised .valueError, s) := by
        simp only [packageLoadAutoWith, hlist, hread]
      exact ⟨by rw [heq, heq], by rw [heq]; exact hs, fun _ _ ↦ trivial⟩
    | some list =>
      have heq (l : Loader F) : packageLoadAutoWith l s =
          (if list = [] then pure () else do
            let _ ← packageLoadListWith l list false
            pure ()) s := by
        simp only [packageLoadAutoWith, hlist, hread]
      have hask : ∀ entry ∈ list, A entry.1 := by
        intro entry hentry
        apply hnames
        simp only [Request.asked, hlist, Option.bind_some, hread, Option.getD_some]
        exact List.mem_map_of_mem hentry
      have hagree : AgreeAt I (fun _ ↦ True) (if list = [] then pure () else do
            let _ ← packageLoadListWith load list false
            pure ()) (if list = [] then pure () else do
            let _ ← packageLoadListWith load' list false
            pure ()) s := by
        apply agreeAt_ite
        · intro _
          exact agreeAt_pure hs trivial
        · intro _
          exact agreeAt_bind (h.agree_packageLoadList list false hask hs)
            fun _ t _ ht ↦ agreeAt_pure ht trivial
      exact ⟨by rw [heq, heq]; exact hagree.eq, by rw [heq]; exact hagree.inv, fun _ _ ↦ trivial⟩

theorem stashFiles (hD : D) (names : List Str) {s : State F} (hs : I s) :
    I (stashFiles π names s).2 := by
  have hwithin : Within (fun s t ↦ I s → I t) (PackageManager.stashFiles π names) := by
    induction names with
    | nil => exact within_pure (fun _ ↦ id) true
    | cons name rest ih =>
      refine within_bind (fun _ _ _ h h' hs ↦ h' (h hs)) (fun s ↦ h.stash hD name s) fun _ ↦ ?_
      exact within_bind (fun _ _ _ h h' hs ↦ h' (h hs)) ih fun _ ↦ within_pure (fun _ ↦ id) _
  exact hwithin s hs

theorem packageDelete (hD : D) (fileName : Str) {s : State F} (hs : I s) :
    I (packageDelete π fileName s).2 := by
  have htrans (s t u : State F) (h : I s → I t) (h' : I t → I u) : I s → I u := fun hs ↦ h' (h hs)
  have hpure {α : Type} (a : α) : Within (fun s t ↦ I s → I t) (pure a : Manager F α) :=
    within_pure (fun _ ↦ id) a
  have hdelisted : Within (fun s t ↦ I s → I t) (removePackageFromAutoload fileName) := by
    intro s
    obtain ⟨list, hlist⟩ := removePackageFromAutoload_frame fileName s
    rw [hlist]
    exact h.listed s list
  have hfiles : Within (fun s t ↦ I s → I t) (packageDeleteFiles π fileName) := by
    have hraise : Within (fun s t ↦ I s → I t) (Py.raise .typeError : Manager F Bool) :=
      within_raise (fun _ ↦ id) _
    refine within_bind htrans (within_get fun _ ↦ id) fun s ↦ within_ite hraise ?_
    refine within_ite (hpure false) (within_bind htrans (fun s ↦ h.makeStash hD s) fun _ ↦ ?_)
    refine within_ite hraise (within_bind htrans (fun s ↦ h.stashFiles hD _) fun stashed ↦ ?_)
    exact within_ite (within_bind htrans hdelisted fun _ ↦ hpure _) (hpure _)
  have hdelete : Within (fun s t ↦ I s → I t) (PackageManager.packageDelete π fileName) := by
    refine within_bind htrans (within_get fun _ ↦ id) fun s ↦ within_ite ?_ hfiles
    exact within_bind htrans (fun s hs ↦ h.packageUnload hs fileName []) fun _ ↦ hfiles
  exact hdelete s hs

theorem packageDeleteList (hD : D) (packages : List Str) {s : State F} (hs : I s) :
    I (packageDeleteList π packages s).2 := by
  have htrans (s t u : State F) (h : I s → I t) (h' : I t → I u) : I s → I u := fun hs ↦ h' (h hs)
  have hpure {α : Type} (a : α) : Within (fun s t ↦ I s → I t) (pure a : Manager F α) :=
    within_pure (fun _ ↦ id) a
  have hloop (failed : List Str) :
      Within (fun s t ↦ I s → I t) (deleteListFrom π packages failed) := by
    induction packages generalizing failed with
    | nil => exact hpure failed
    | cons fileName rest ih =>
      refine within_bind htrans (within_tryExcept htrans ?_ (hpure failed)) fun failed' ↦ ih failed'
      exact within_bind htrans (fun s ↦ h.packageDelete hD fileName) fun _ ↦ hpure _
  exact within_bind htrans (hloop []) (fun _ ↦ hpure _) s hs

theorem perform {request : Request} {s : State F} (hs : I s)
    (hnames : request.Within s A) (hdeletes : request.deletes ≠ [] → D) :
    performWith π load request s = performWith π load' request s ∧
      I (performWith π load request s).2 := by
  have hthen {α : Type} {x y : Manager F α} (hx : AgreeAt I (fun _ ↦ True) x y s) :
      AgreeAt I (fun _ ↦ True) (x >>= fun _ ↦ (pure true : Manager F Bool))
        (y >>= fun _ ↦ pure true)
        s := agreeAt_bind hx fun _ t _ ht ↦ agreeAt_pure ht trivial
  have hunloads (packages : List Str) : AgreeAt I (fun _ ↦ True)
      (PackageManager.packageUnloadList π packages [])
      (PackageManager.packageUnloadList π packages []) s :=
    agreeAt_self (h.packageUnloadList hs packages)
  obtain ⟨hasked, habove⟩ := hnames
  have hagree : AgreeAt I (fun _ ↦ True) (performWith π load request) (performWith π load' request)
      s := by
    cases request with
    | load fileName checksum autoload =>
      exact hthen (h.agree_load hs (hasked fileName List.mem_cons_self))
    | reload fileName checksum autoload =>
      apply hthen
      apply agreeAt_get_bind
      apply agreeAt_ite
      · intro hl
        apply h.agree_restart (fun _ _ ↦ rfl) checksum autoload hs hl
        intro q hup
        exact habove fileName List.mem_cons_self q hl hup
      · intro _
        exact agreeAt_pure hs trivial
    | update fileName checksum autoload =>
      apply hthen
      apply agreeAt_get_bind
      apply agreeAt_ite
      · intro hl
        apply h.agree_restart (fun _ _ ↦ rfl) checksum autoload hs hl
        intro q hup
        exact habove fileName List.mem_cons_self q hl hup
      · intro _
        exact h.agree_load hs (hasked fileName List.mem_cons_self)
    | loadList packages autoload =>
      apply hthen
      apply h.agree_packageLoadList packages autoload _ hs
      intro entry hentry
      exact hasked entry.1 (List.mem_map_of_mem hentry)
    | updateList packages autoload =>
      apply hthen
      refine h.agree_packageUpdateList packages autoload ?_ hs habove
      intro entry hentry
      exact hasked entry.1 (List.mem_map_of_mem hentry)
    | loadAuto => exact hthen (h.agree_packageLoadAuto hs hasked)
    | unload fileName => exact hthen (agreeAt_self (h.packageUnload hs fileName []))
    | unloadList packages => exact hthen (hunloads packages)
    | delete fileName =>
      exact hthen (agreeAt_self (h.packageDelete (hdeletes (List.cons_ne_nil _ _)) fileName hs))
    | deleteList packages =>
      by_cases hnil : packages = []
      · rw [hnil]
        exact agreeAt_self hs
      · exact hthen (agreeAt_self (h.packageDeleteList (hdeletes hnil) packages hs))
    | unloadAll =>
      apply agreeAt_get_bind
      exact hthen (hunloads _)
    | updateAll => exact agreeAt_raise _ hs
    | terminate =>
      refine agreeAt_bind (Q := fun _ ↦ True) ?_ fun _ t _ ht ↦ agreeAt_pure ht trivial
      apply agreeAt_get_bind
      exact agreeAt_bind (hunloads _) fun p t _ ht ↦ agreeAt_pure ht trivial
    | report what =>
      refine agreeAt_self ?_
      change I (report π what s).2
      rw [report_snd]
      exact hs
    | ignored => exact agreeAt_pure hs trivial
  exact ⟨hagree.eq, hagree.inv⟩

end LoaderRule

end Liota.PackageManager
