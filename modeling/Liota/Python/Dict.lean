import Mathlib.Data.List.AList
import Liota.Python.Text

namespace Liota.Python

open Text

abbrev Dict (V : Type) := AList (fun _ : Str ↦ V)

structure KeyOrder where
  keys : List Str → List Str
  perm : ∀ l, (keys l).Perm l

namespace Dict

variable {V : Type}

def modify (key : Str) (f : V → V) (d : Dict V) : Dict V :=
  match d.lookup key with
  | some v => d.insert key (f v)
  | none => d

theorem lookup_insert_eq (key k : Str) (v : V) (d : Dict V) :
    (d.insert key v).lookup k = if k = key then some v else d.lookup k := by
  split
  · next h => subst h; exact d.lookup_insert
  · next h => exact AList.lookup_insert_ne h

theorem lookup_erase_eq (key k : Str) (d : Dict V) :
    (d.erase key).lookup k = if k = key then none else d.lookup k := by
  split
  · next h => subst h; exact d.lookup_erase k
  · next h => exact AList.lookup_erase_ne h

theorem lookup_modify (key k : Str) (f : V → V) (d : Dict V) :
    (modify key f d).lookup k = if k = key then (d.lookup k).map f else d.lookup k := by
  unfold modify
  split
  · next v hv =>
    rw [lookup_insert_eq]
    split
    · next h => subst h; simp [hv]
    · rfl
  · next hv =>
    split
    · next h => subst h; simp [hv]
    · rfl

def rekey (g : Str → Str) (d : Dict V) : Dict V :=
  (d.entries.map fun e ↦ (⟨g e.1, e.2⟩ : Sigma fun _ : Str ↦ V)).toAList

theorem lookup_rekey_eq_some {g : Str → Str} {d : Dict V} {k : Str} {v : V}
    (h : (d.rekey g).lookup k = some v) : ∃ k', g k' = k ∧ d.lookup k' = some v := by
  rw [rekey, AList.lookup_to_alist] at h
  obtain ⟨⟨k', v'⟩, hmem, heq⟩ := List.mem_map.mp (List.of_mem_dlookup h)
  obtain ⟨rfl, hv⟩ := Sigma.mk.inj heq
  obtain rfl := eq_of_heq hv
  exact ⟨k', rfl, List.mem_dlookup d.nodupKeys hmem⟩

theorem lookup_rekey_of_fixed {g : Str → Str} {k : Str} (h : ∀ k', g k' = k ↔ k' = k)
    (d : Dict V) : (d.rekey g).lookup k = d.lookup k := by
  rw [rekey, AList.lookup_to_alist]
  change _ = d.entries.dlookup k
  induction d.entries with
  | nil => rfl
  | cons e rest ih =>
    obtain ⟨k', v⟩ := e
    by_cases hk : k' = k
    · subst hk
      rw [List.map_cons, (h k').mpr rfl, List.dlookup_cons_eq, List.dlookup_cons_eq]
    · rw [List.map_cons, List.dlookup_cons_ne _ _ (Ne.symm fun hg ↦ hk ((h k').mp hg)),
        List.dlookup_cons_ne _ _ (Ne.symm hk), ih]

theorem mem_iff_lookup (key : Str) (d : Dict V) : key ∈ d ↔ ∃ v, d.lookup key = some v := by
  rw [← AList.lookup_isSome, Option.isSome_iff_exists]

theorem not_mem_iff_lookup (key : Str) (d : Dict V) : key ∉ d ↔ d.lookup key = none :=
  AList.lookup_eq_none.symm

theorem mem_modify (key k : Str) (f : V → V) (d : Dict V) : k ∈ modify key f d ↔ k ∈ d := by
  simp only [mem_iff_lookup, lookup_modify]
  split <;> simp

theorem keys_erase (key : Str) (d : Dict V) : (d.erase key).keys = d.keys.filter (· ≠ key) := by
  have hnodup := @List.Nodup.erase_eq_filter Str instBEqOfDecidableEq inferInstance _
    d.keys_nodup key
  rw [AList.keys_erase, hnodup]
  apply List.filter_congr
  intro k _
  rw [Bool.eq_iff_iff]
  simp

theorem keys_insert_of_not_mem {key : Str} {d : Dict V} (h : key ∉ d) (v : V) :
    (d.insert key v).keys = key :: d.keys := by
  rw [AList.keys_insert]
  apply congrArg (key :: ·)
  exact @List.erase_of_not_mem Str instBEqOfDecidableEq inferInstance _ _
    fun hmem ↦ h (AList.mem_keys.mpr hmem)

theorem lookup_union_eq (k : Str) (d e : Dict V) :
    (d ∪ e).lookup k = (d.lookup k <|> e.lookup k) := by
  by_cases hk : k ∈ d
  · obtain ⟨v, hv⟩ := (mem_iff_lookup k d).mp hk
    rw [AList.lookup_union_left hk, hv]
    rfl
  · rw [AList.lookup_union_right hk, (not_mem_iff_lookup k d).mp hk]
    rfl

theorem filter_entries (key : Str) (d : Dict V) :
    d.entries.filter (fun e ↦ e.1 = key) = ((d.lookup key).map (Sigma.mk key)).toList := by
  obtain ⟨entries, hnodup⟩ := d
  change entries.filter _ = ((entries.dlookup key).map (Sigma.mk key)).toList
  induction entries with
  | nil => simp
  | cons e entries ih =>
    obtain ⟨k, v⟩ := e
    rw [List.nodupKeys_cons] at hnodup
    have hrest := ih hnodup.2
    by_cases hk : k = key
    · subst hk
      rw [List.dlookup_eq_none.mpr hnodup.1] at hrest
      rw [List.filter_cons_of_pos (by simp), hrest, List.dlookup_cons_eq]
      rfl
    · rw [List.filter_cons_of_neg (by simpa using hk), hrest,
        List.dlookup_cons_ne entries ⟨k, v⟩ (Ne.symm hk)]

end Dict

end Liota.Python
