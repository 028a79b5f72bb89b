import Mathlib.Data.Finset.Card
import Liota.PackageManager.LoadCases

namespace Liota.PackageManager

open Python Python.Computation Python.Text Relation

variable {F : Type} {π : Platform F}

theorem mem_knownNames (s : State F) (x : Str) :
    x ∈ knownNames π s ↔
      (∃ path f, s.fs.files.lookup path = some f ∧
        ∃ ext, x ∈ (π.assigns ext f.content).names) ∨
      ∃ m n, s.sysModules.lookup m = some n ∧ x ∈ n.names := by
  simp only [knownNames, List.mem_append, List.mem_flatMap]
  refine or_congr ⟨?_, ?_⟩ ⟨?_, ?_⟩
  · rintro ⟨⟨path, f⟩, hf, ext, -, hx⟩
    exact ⟨path, f, AList.mem_lookup_iff.mpr hf, ext, hx⟩
  · rintro ⟨path, f, hf, ext, hx⟩
    exact ⟨⟨path, f⟩, AList.mem_lookup_iff.mp hf, ext, extensions_complete ext, hx⟩
  · rintro ⟨⟨m, n⟩, hm, hx⟩
    exact ⟨m, n, AList.mem_lookup_iff.mpr hm, hx⟩
  · rintro ⟨m, n, hm, hx⟩
    exact ⟨⟨m, n⟩, AList.mem_lookup_iff.mp hm, hx⟩

theorem names_initialise (old assigned : Namespace) (x : Str)
    (hx : x ∈ (old.initialise assigned).names) : x ∈ assigned.names ∨ x ∈ old.names := by
  unfold Namespace.names Namespace.initialise at *
  rcases ha : assigned.dependencies with _ | v
  · exact .inr (by simpa [ha] using hx)
  · exact .inl (by simpa [ha] using hx)

theorem names_module {s : State F} {m x : Str} (hx : x ∈ (s.module m).names) :
    ∃ n, s.sysModules.lookup m = some n ∧ x ∈ n.names := by
  unfold State.module at hx
  rcases hl : s.sysModules.lookup m with _ | n
  · simp [hl, Namespace.names, Namespace.empty] at hx
  · exact ⟨n, rfl, by simpa [hl] using hx⟩

theorem LoadStep.knownNames {stack : List Str} {s s' : State F} (h : LoadStep π stack s s') :
    knownNames π s' ⊆ knownNames π s := by
  cases h with
  | tick | linked | raised | loaded => exact fun _ hx ↦ hx
  | @imported name ext f _ hf =>
    intro x hx
    rw [mem_knownNames] at hx ⊢
    rcases hx with hx | ⟨m, n, hm, hx⟩
    · exact .inl hx
    · simp only [Dict.lookup_insert_eq] at hm
      split at hm
      · rw [← Option.some.inj hm] at hx
        rcases names_initialise _ _ x hx with hx | hx
        · exact .inl ⟨_, f, hf, ext, hx⟩
        · exact .inr ⟨_, names_module hx⟩
      · exact .inr ⟨m, n, hm, hx⟩
  | dropped =>
    intro x hx
    rw [mem_knownNames] at hx ⊢
    rcases hx with hx | ⟨m, n, hm, hx⟩
    · exact .inl hx
    · simp only [Dict.lookup_erase_eq] at hm
      split at hm
      · cases hm
      · exact .inr ⟨m, n, hm, hx⟩
  | @listed name sha1 =>
    obtain ⟨list, hl⟩ := writePackageIntoAutoload_frame name sha1 s
    rw [hl]
    exact fun _ hx ↦ hx

theorem LoadSteps.knownNames {stack : List Str} {s s' : State F}
    (h : LoadSteps π stack s s') : knownNames π s' ⊆ knownNames π s := by
  induction h with
  | refl => exact fun _ hx ↦ hx
  | tail _ hstep ih => exact fun _ hx ↦ ih (hstep.knownNames hx)

theorem names_of_dependencyList {n : Namespace} {deps : List Str}
    (h : dependencyList n.dependencies = .ok (some deps)) : n.names = deps := by
  unfold Namespace.names
  rcases hd : n.dependencies with _ | (_ | items)
  · simpa [hd, dependencyList] using h
  · simp [hd, dependencyList] at h
  · simp only [hd, dependencyList] at h
    rcases hm : items.mapM id with _ | names
    · simp [hm] at h
    · simp only [hm, Except.ok.injEq, Option.some.injEq] at h
      subst h
      clear hd
      simp only [Option.map_some, Option.getD_some, DependencyValue.names]
      induction items generalizing names with
      | nil => simpa [eq_comm] using hm
      | cons item rest ih =>
        rw [List.mapM_cons] at hm
        rcases item with _ | x
        · simp at hm
        · rcases hr : rest.mapM id with _ | names'
          · simp [hr] at hm
          · simp only [id, hr, Option.bind_eq_bind, Option.bind_some] at hm
            rw [← Option.some.inj hm, ← ih names' hr]
            rfl

theorem Opens.known {name : Str} {checksum : Option Str} {extForced : Option Ext}
    {s t : State F} {opened : Opened F} (h : Opens π name checksum extForced s t opened) :
    opened.dependencies ⊆ knownNames π t := by
  intro x hx
  rw [← names_of_dependencyList h.dependencies] at hx
  exact (mem_knownNames t x).mpr (.inr ⟨_, names_module hx⟩)

theorem startPackage_terminates (name : Str) (checksum : Option Str) (autoload : Bool)
    (opened : Opened F) (u : State F) :
    (startPackage name checksum autoload opened u).1 ≠ .diverged := by
  rcases startPackage_cases name checksum autoload opened u with
    hfail | ⟨klass, obj, registry, -, -, -, heq⟩
  · rcases hfail.outcome with h | ⟨_, _, _, _, -, -, -, -, h⟩ <;> rw [h] <;> simp
  · rw [heq]
    rcases recordPackage_fst name checksum autoload (opened.record obj) (ran u registry)
      with h | ⟨h, -⟩ <;> rw [h] <;> simp

def room (known stack : List Str) : ℕ := (known.toFinset \ stack.toFinset).card

theorem room_cons_lt {known stack : List Str} {d : Str} (hd : d ∈ known) (hs : d ∉ stack) :
    room known (d :: stack) < room known stack := by
  refine Finset.card_lt_card ⟨?_, fun h ↦ ?_⟩
  · intro x hx
    simp only [Finset.mem_sdiff, List.mem_toFinset, List.mem_cons, not_or] at hx ⊢
    exact ⟨hx.1, hx.2.2⟩
  · have hmem : d ∈ known.toFinset \ (d :: stack).toFinset := h (by simp [hd, hs])
    simp at hmem

theorem followDependencies_terminates {load : Str → Manager F (Option (PackageRecord F))}
    {stack known : List Str} (name : Str)
    (hload : ∀ d ∈ known, d ∉ stack → ∀ s, knownNames π s ⊆ known →
      (load d s).1 ≠ .diverged ∧ knownNames π (load d s).2 ⊆ known)
    (deps : List Str) (hdeps : deps ⊆ known) (s : State F) (hs : knownNames π s ⊆ known) :
    (followDependencies load name stack deps s).1 ≠ .diverged := by
  induction deps generalizing s with
  | nil => simp [followDependencies]
  | cons d rest ih =>
    have hrest : rest ⊆ known := fun x hx ↦ hdeps (by simp [hx])
    unfold followDependencies
    split
    · simp
    · next hd =>
      by_cases hl : s.Loaded d
      · have hensure : ensureLoaded load d s = (.ok (), s) := if_pos hl
        rw [bind_ok hensure, get_bind_apply, if_pos hl, modify_bind_apply]
        exact ih hrest _ hs
      · obtain ⟨hne, hknown⟩ := hload d (hdeps (by simp)) hd s hs
        have hensure := ensureLoaded_of_not_loaded load hl
        rcases hr : load d s with ⟨r | e | _, t⟩ <;> rw [hr] at hne hknown <;>
          simp only [hr, Outcome.map] at hensure
        · rw [bind_ok hensure, get_bind_apply]
          split
          · rw [modify_bind_apply]
            exact ih hrest _ hknown
          · simp
        · rw [bind_raised hensure]
          simp
        · exact absurd rfl hne

theorem loadFuel_terminates (fuel : ℕ) (call : Call) (stack known : List Str) (s : State F)
    (hstack : call.name ∉ stack) (hknown : knownNames π s ⊆ known)
    (hfuel : room known (call.name :: stack) < fuel) :
    (loadResult π fuel call stack s).1 ≠ .diverged := by
  induction fuel generalizing call stack s with
  | zero => omega
  | succ fuel ih =>
    unfold loadResult loadFuel
    have hsteps := openPackage_steps (π := π) stack call.name call.checksum call.ext s
    rw [bind_apply]
    rcases ho : openPackage π call.name call.checksum call.ext s with ⟨(_ | opened) | e | _, t⟩ <;>
      rw [ho] at hsteps
    · simp
    · have ht : knownNames π t ⊆ known := fun x hx ↦ hknown (hsteps.knownNames hx)
      have hdeps : opened.dependencies ⊆ known := fun x hx ↦ ht ((openPackage_opens ho).known hx)
      have hload : ∀ d ∈ known, d ∉ call.name :: stack → ∀ u, knownNames π u ⊆ known →
          (loadFuel π fuel d none false none (call.name :: stack) u).1 ≠ .diverged ∧
          knownNames π (loadFuel π fuel d none false none (call.name :: stack) u).2 ⊆ known := by
        intro d hd hds u hu
        refine ⟨ih (.ofDependency d) (call.name :: stack) u hds hu ?_, fun x hx ↦ hu ?_⟩
        · exact (room_cons_lt hd hds).trans_le (Nat.lt_succ_iff.mp hfuel)
        · exact (loadFuel_steps fuel d none false none _ u hds).knownNames hx
      have hfollow := followDependencies_terminates call.name hload opened.dependencies hdeps t ht
      dsimp only
      rw [bind_apply]
      rcases hf : followDependencies
        (fun d ↦ loadFuel π fuel d none false none (call.name :: stack))
        call.name (call.name :: stack) opened.dependencies t with ⟨followed | e | _, u⟩ <;>
        rw [hf] at hfollow
      · dsimp only
        split
        · exact startPackage_terminates _ _ _ _ _
        · simp
      · simp
      · exact absurd rfl hfollow
    · simp
    · exact absurd ho (openPackage_not_diverged _ _ _ _ _)

theorem packageLoad_terminates (name : Str) (checksum : Option Str) (autoload : Bool)
    (ext : Option Ext) (s : State F) :
    (packageLoad π name checksum autoload ext s).1 ≠ .diverged := by
  refine loadFuel_terminates _ ⟨name, checksum, autoload, ext⟩ [] (knownNames π s) s (by simp)
    (fun _ hx ↦ hx) (Nat.lt_succ_of_le ?_)
  calc room (knownNames π s) [name]
    _ ≤ (knownNames π s).toFinset.card := Finset.card_le_card Finset.sdiff_subset
    _ ≤ (knownNames π s).length := List.toFinset_card_le _

end Liota.PackageManager
