import Liota.PackageManager.Platform

namespace Liota.PackageManager

open Python Python.Computation Python.Text

/-- `registry` maps resource names to references, `packages` a package name to the resource
names registered for it. -/
structure ResourceRegistry where
  registry : Dict Ref
  packages : Dict (List Str)

namespace ResourceRegistry

/-- The registry after a successful `register`. A package with an empty name, like the manager
itself, owns nothing. -/
def store (identifier : Str) (ref : Ref) (packageName : Str) (r : ResourceRegistry) :
    ResourceRegistry where
  registry := r.registry.insert identifier ref
  packages :=
    if packageName = [] then r.packages
    else r.packages.insert packageName
      ((r.packages.lookup packageName).getD [] ++ [identifier])

def register (identifier : Str) (ref : Ref) (packageName : Str) : Py ResourceRegistry Unit :=
  fun r ↦
    if identifier ∈ r.registry then (.raised .keyError, r)
    else (.ok (), r.store identifier ref packageName)

def deregister (identifier : Str) : Py ResourceRegistry Unit := fun r ↦
  if identifier ∈ r.registry then
    (.ok (), { r with registry := r.registry.erase identifier })
  else (.raised .keyError, r)

def get (identifier : Str) (r : ResourceRegistry) : Option Ref := r.registry.lookup identifier

def has (identifier : Str) (r : ResourceRegistry) : Bool := identifier ∈ r.registry

def deregisterAll : List Str → Py ResourceRegistry Unit
  | [] => pure ()
  | identifier :: rest => do
    deregister identifier
    deregisterAll rest

/-- The deregistration step of `_package_unload`. -/
def deregisterPackage (packageName : Str) : Py ResourceRegistry Unit := do
  let r ← Py.get
  match r.packages.lookup packageName with
  | some identifiers => do
    deregisterAll identifiers
    Py.modify fun r ↦ { r with packages := r.packages.erase packageName }
  | none => pure ()

/-- Run package code on the `ResourceRegistryPerPackage` of `packageName`. -/
def exec (packageName : Str) : RunProg → Py ResourceRegistry Unit
  | .ret => pure ()
  | .raise e => Py.raise e
  | .register identifier ref registered conflict => fun r ↦
    match register identifier ref packageName r with
    | (.ok _, r') => exec packageName registered r'
    | (_, r') => exec packageName conflict r'
  | .has identifier yes no => fun r ↦
    if r.has identifier then exec packageName yes r else exec packageName no r
  | .get identifier k => fun r ↦ exec packageName (k (r.get identifier)) r

/-- `__init__` of the thread registers the package path for no package. -/
def initial (packagePath : Str) : ResourceRegistry where
  registry := (∅ : Dict Ref).insert "package_conf".toList (.text packagePath)
  packages := ∅

def owned (packageName : Str) (r : ResourceRegistry) : List Str :=
  (r.packages.lookup packageName).getD []

/-- No identifier is attributed twice, and those that are attributed are registered. -/
structure Partitioned (r : ResourceRegistry) : Prop where
  registered : ∀ p, ∀ i ∈ r.owned p, i ∈ r.registry
  nodup : ∀ p, (r.owned p).Nodup
  disjoint : ∀ p q, ∀ i ∈ r.owned p, i ∈ r.owned q → p = q

theorem partitioned_initial (packagePath : Str) : (initial packagePath).Partitioned := by
  have h (p : Str) : (initial packagePath).owned p = [] := rfl
  exact ⟨by simp [h], by simp [h], by simp [h]⟩

theorem owned_store (identifier : Str) (ref : Ref) (packageName p : Str)
    (r : ResourceRegistry) :
    (r.store identifier ref packageName).owned p =
      if p = packageName ∧ packageName ≠ [] then r.owned p ++ [identifier] else r.owned p := by
  unfold store owned
  by_cases hn : packageName = []
  · simp [hn]
  · simp only [hn, if_false, Dict.lookup_insert_eq, ne_eq, not_false_eq_true, and_true]
    split
    · next h => subst h; simp
    · rfl

theorem mem_registry_store (identifier i : Str) (ref : Ref) (packageName : Str)
    (r : ResourceRegistry) :
    i ∈ (r.store identifier ref packageName).registry ↔ i = identifier ∨ i ∈ r.registry :=
  AList.mem_insert r.registry

/-- What one call of `register` does for a package. -/
def Registers (packageName : Str) (r r' : ResourceRegistry) : Prop :=
  ∃ identifier ref, identifier ∉ r.registry ∧ r' = r.store identifier ref packageName

theorem Registers.partitioned {packageName : Str} {r r' : ResourceRegistry}
    (h : Registers packageName r r') (hr : r.Partitioned) : r'.Partitioned := by
  obtain ⟨identifier, ref, hi, rfl⟩ := h
  have hfresh (p : Str) : identifier ∉ r.owned p := fun hm ↦ hi (hr.registered p _ hm)
  refine ⟨fun p i hm ↦ ?_, fun p ↦ ?_, fun p q i hp hq ↦ ?_⟩
  · rw [mem_registry_store]
    rw [owned_store] at hm
    split at hm
    · rcases List.mem_append.mp hm with hm | hm
      · exact .inr (hr.registered p i hm)
      · exact .inl (List.mem_singleton.mp hm)
    · exact .inr (hr.registered p i hm)
  · rw [owned_store]
    split
    · exact (hr.nodup p).append (List.nodup_singleton _) (by simpa using hfresh p)
    · exact hr.nodup p
  · by_cases hii : i = identifier
    · subst hii
      have howner (x : Str) (hx : i ∈ (r.store i ref packageName).owned x) :
          x = packageName := by
        rw [owned_store] at hx
        split at hx
        · next h => exact h.1
        · exact absurd hx (hfresh x)
      rw [howner p hp, howner q hq]
    · have hold (x : Str) (hx : i ∈ (r.store identifier ref packageName).owned x) :
          i ∈ r.owned x := by
        rw [owned_store] at hx
        split at hx
        · simpa [hii] using hx
        · exact hx
      exact hr.disjoint p q i (hold p hp) (hold q hq)

theorem exec_registers (packageName : Str) (prog : RunProg) (r : ResourceRegistry) :
    Relation.ReflTransGen (Registers packageName) r (exec packageName prog r).2 := by
  induction prog generalizing r with
  | ret => exact .refl
  | raise e => exact .refl
  | register identifier ref registered conflict ihr ihc =>
    simp only [exec, register]
    by_cases hi : identifier ∈ r.registry
    · simpa only [if_pos hi] using ihc r
    · simp only [if_neg hi]
      exact .head ⟨identifier, ref, hi, rfl⟩ (ihr _)
  | has identifier yes no ihy ihn =>
    simp only [exec]
    split
    · exact ihy r
    · exact ihn r
  | get identifier k ih => exact ih _ r

theorem exec_of_registersNothing (packageName : Str) {prog : RunProg}
    (h : prog.RegistersNothing) (r : ResourceRegistry) : (exec packageName prog r).2 = r := by
  induction prog with
  | ret => rfl
  | raise e => rfl
  | register identifier ref registered conflict => exact h.elim
  | has identifier yes no ihy ihn =>
    simp only [exec]
    split
    · exact ihy h.1
    · exact ihn h.2
  | get identifier k ih => exact ih _ (h _)

def drop (packageName : Str) (r : ResourceRegistry) : ResourceRegistry where
  registry := (r.owned packageName).foldl (fun d i ↦ d.erase i) r.registry
  packages := r.packages.erase packageName

theorem mem_foldl_erase (identifiers : List Str) (d : Dict Ref) (i : Str) :
    i ∈ identifiers.foldl (fun d i ↦ d.erase i) d ↔ i ∈ d ∧ i ∉ identifiers := by
  induction identifiers generalizing d with
  | nil => simp
  | cons j rest ih =>
    rw [List.foldl_cons, ih, AList.mem_erase]
    simp only [List.mem_cons, not_or]
    tauto

theorem mem_registry_drop (packageName i : Str) (r : ResourceRegistry) :
    i ∈ (r.drop packageName).registry ↔ i ∈ r.registry ∧ i ∉ r.owned packageName :=
  mem_foldl_erase _ _ _

theorem owned_drop (packageName p : Str) (r : ResourceRegistry) :
    (r.drop packageName).owned p = if p = packageName then [] else r.owned p := by
  simp only [drop, owned, Dict.lookup_erase_eq]
  split <;> rfl

theorem Partitioned.drop {r : ResourceRegistry} (hr : r.Partitioned) (packageName : Str) :
    (r.drop packageName).Partitioned := by
  have hsub (p i : Str) (h : i ∈ (r.drop packageName).owned p) :
      p ≠ packageName ∧ i ∈ r.owned p := by
    rw [owned_drop] at h
    split at h
    · simp at h
    · next hp => exact ⟨hp, h⟩
  refine ⟨fun p i h ↦ ?_, fun p ↦ ?_, fun p q i hp hq ↦ ?_⟩
  · obtain ⟨hp, hi⟩ := hsub p i h
    exact (mem_registry_drop _ _ _).mpr
      ⟨hr.registered p i hi, fun hm ↦ hp (hr.disjoint p packageName i hi hm)⟩
  · rw [owned_drop]
    split
    · exact List.nodup_nil
    · exact hr.nodup p
  · exact hr.disjoint p q i (hsub p i hp).2 (hsub q i hq).2

theorem deregisterAll_eq (identifiers : List Str) (r : ResourceRegistry)
    (hnodup : identifiers.Nodup) (hreg : ∀ i ∈ identifiers, i ∈ r.registry) :
    deregisterAll identifiers r =
      (.ok (), { r with registry := identifiers.foldl (fun d i ↦ d.erase i) r.registry }) := by
  induction identifiers generalizing r with
  | nil => rfl
  | cons i rest ih =>
    obtain ⟨hi, hrest⟩ := List.nodup_cons.mp hnodup
    have hfirst : deregister i r = (.ok (), { r with registry := r.registry.erase i }) := by
      simp only [deregister, hreg i (by simp), if_true]
    have hmem : ∀ j ∈ rest, j ∈ r.registry.erase i := fun j hj ↦
      AList.mem_erase.mpr ⟨fun h ↦ hi (h ▸ hj), hreg j (by simp [hj])⟩
    rw [deregisterAll, bind_ok hfirst, ih _ hrest hmem]
    rfl

theorem deregisterPackage_eq {r : ResourceRegistry} (hr : r.Partitioned) (packageName : Str) :
    deregisterPackage packageName r = (.ok (), r.drop packageName) := by
  unfold deregisterPackage
  rw [get_bind_apply]
  cases hl : r.packages.lookup packageName with
  | none =>
    have hown : r.owned packageName = [] := by simp [owned, hl]
    have hpk : r.packages.erase packageName = r.packages :=
      AList.ext (List.kerase_of_notMem_keys (AList.lookup_eq_none.mp hl))
    simp only [pure_apply, drop, hown, List.foldl_nil, hpk]
  | some identifiers =>
    have hown : r.owned packageName = identifiers := by simp [owned, hl]
    have hall := deregisterAll_eq identifiers r (hown ▸ hr.nodup packageName)
      (hown ▸ hr.registered packageName)
    dsimp only
    rw [bind_ok hall, modify_apply, drop, hown]

theorem partitioned_exec (packageName : Str) (prog : RunProg) {r : ResourceRegistry}
    (hr : r.Partitioned) : (exec packageName prog r).2.Partitioned := by
  have hregisters := exec_registers packageName prog r
  generalize (exec packageName prog r).2 = r' at hregisters ⊢
  induction hregisters with
  | refl => exact hr
  | tail _ hstep ih => exact hstep.partitioned ih

end ResourceRegistry

theorem owned_of_registers {name y : Str} {r r' : ResourceRegistry}
    (h : Relation.ReflTransGen (ResourceRegistry.Registers name) r r') (hy : y ≠ name) :
    r'.owned y = r.owned y := by
  induction h with
  | refl => rfl
  | tail _ hstep ih =>
    obtain ⟨identifier, ref, -, rfl⟩ := hstep
    rw [ResourceRegistry.owned_store, if_neg fun h ↦ hy h.1, ih]

theorem lookup_of_registers {name i : Str} {r r' : ResourceRegistry}
    (h : Relation.ReflTransGen (ResourceRegistry.Registers name) r r') (hi : i ∈ r.registry) :
    i ∈ r'.registry ∧ r'.registry.lookup i = r.registry.lookup i := by
  induction h with
  | refl => exact ⟨hi, rfl⟩
  | tail _ hstep ih =>
    obtain ⟨identifier, ref, hfresh, rfl⟩ := hstep
    refine ⟨(ResourceRegistry.mem_registry_store _ _ _ _ _).mpr (.inr ih.1), ?_⟩
    have hne : i ≠ identifier := fun heq ↦ hfresh (heq ▸ ih.1)
    exact (Dict.lookup_insert_eq _ _ _ _).trans ((if_neg hne).trans ih.2)

end Liota.PackageManager
