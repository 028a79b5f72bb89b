import Mathlib.Data.List.Infix

namespace Liota.Interleaving

variable {ι O P : Type}

section Starts

variable {p : O → Bool} {ops : List O}

theorem exists_start (h : ∃ o ∈ ops, p o) :
    ∃ before o after, ops = before ++ o :: after ∧ p o ∧ ∀ o ∈ after, p o = false := by
  induction ops using List.reverseRecOn with
  | nil =>
    obtain ⟨o, ho, -⟩ := h
    cases ho
  | append_singleton ops last ih =>
    by_cases hlast : p last
    · exact ⟨ops, last, [], rfl, hlast, by simp⟩
    · have hops : ∃ o ∈ ops, p o := by
        obtain ⟨o, ho, hp⟩ := h
        obtain ho | ho := List.mem_append.mp ho
        · exact ⟨o, ho, hp⟩
        · rw [List.mem_singleton.mp ho] at hp
          exact absurd hp hlast
      obtain ⟨before, o, after, heq, hp, hafter⟩ := ih hops
      refine ⟨before, o, after ++ [last], by simp [heq], hp, fun o' ho' ↦ ?_⟩
      obtain ho' | ho' := List.mem_append.mp ho'
      · exact hafter o' ho'
      · rw [List.mem_singleton.mp ho']
        simpa using hlast

theorem suffix_of_start {before after last : List O} {o : O} (h : last <:+ before ++ o :: after)
    (ho : p o) (hlast : ∀ o ∈ last, p o = false) : last <:+ after := by
  have hnot : o ∉ last := fun hmem ↦ absurd ho (by simp [hlast o hmem])
  obtain hshort | hlong := List.suffix_or_suffix_of_suffix h (List.suffix_append before _)
  · obtain heq | hafter := List.suffix_cons_iff.mp hshort
    · rw [heq] at hnot
      exact absurd List.mem_cons_self hnot
    · exact hafter
  · exact absurd (hlong.subset List.mem_cons_self) hnot

end Starts

variable [DecidableEq ι]

def own (i : ι) (trace : List (ι × O)) : List O :=
  (trace.filter fun step ↦ step.1 = i).map Prod.snd

def Interleaves (programs : ι → List O) (trace : List (ι × O)) : Prop :=
  ∀ i, own i trace = programs i

variable {i : ι} {trace : List (ι × O)}

theorem own_append (i : ι) (trace trace' : List (ι × O)) :
    own i (trace ++ trace') = own i trace ++ own i trace' := by
  rw [own, List.filter_append, List.map_append]
  rfl

theorem own_cons_self (i : ι) (o : O) (trace : List (ι × O)) :
    own i ((i, o) :: trace) = o :: own i trace := by
  rw [own, List.filter_cons_of_pos (by simp), List.map_cons]
  rfl

theorem mem_own {o : O} : o ∈ own i trace ↔ (i, o) ∈ trace := by
  simp [own]

theorem own_filter (i : ι) (q : O → Bool) (trace : List (ι × O)) :
    own i (trace.filter fun step ↦ q step.2) = (own i trace).filter q := by
  rw [own, own, List.filter_map, List.filter_filter, List.filter_filter]
  congr 1
  apply List.filter_congr
  intro step _
  exact Bool.and_comm _ _

def results (f : O → Option P) (trace : List (ι × O)) : List (ι × P) :=
  trace.filterMap fun step ↦ (f step.2).map (Prod.mk step.1)

theorem own_results (i : ι) (f : O → Option P) (trace : List (ι × O)) :
    own i (results f trace) = (own i trace).filterMap f := by
  induction trace with
  | nil => rfl
  | cons step trace ih =>
    obtain ⟨j, o⟩ := step
    by_cases hj : j = i
    · subst hj
      rw [own_cons_self]
      cases ho : f o with
      | none => simpa [results, ho] using ih
      | some r =>
        have hcons : results f ((j, o) :: trace) = (j, r) :: results f trace := by
          simp [results, ho]
        rw [hcons, own_cons_self, ih, List.filterMap_cons_some ho]
    · have hskip : own i ((j, o) :: trace) = own i trace := by simp [own, hj]
      rw [hskip, ← ih]
      cases ho : f o with
      | none => simp [results, ho]
      | some r => simp [results, ho, own, hj]

omit [DecidableEq ι] in
theorem map_results (f : O → Option P) (trace : List (ι × O)) :
    (results f trace).map Prod.snd = (trace.map Prod.snd).filterMap f := by
  rw [results, List.map_filterMap, List.filterMap_map]
  apply List.filterMap_congr
  intro step _
  rw [Option.map_map, Function.comp_def]
  exact Option.map_id'

theorem own_eq_of_forall (h : ∀ step ∈ trace, step.1 = i) : own i trace = trace.map Prod.snd := by
  rw [own, List.filter_eq_self.mpr fun step hstep ↦ by simpa using h step hstep]

namespace Interleaves

variable {programs : ι → List O}

theorem filter (h : Interleaves programs trace) (q : O → Bool) :
    Interleaves (fun i ↦ (programs i).filter q) (trace.filter fun step ↦ q step.2) := by
  intro i
  rw [own_filter, h i]

theorem split (h : Interleaves programs trace) {before after : List (ι × O)} {o : O}
    (heq : trace = before ++ (i, o) :: after) :
    programs i = own i before ++ o :: own i after := by
  rw [← h i, heq, own_append, own_cons_self]

theorem suffix (h : Interleaves programs trace) {last : List (ι × O)} (hlast : last <:+ trace)
    (i : ι) : own i last <:+ programs i := by
  rw [← h i]
  exact (hlast.filter _).map _

end Interleaves

end Liota.Interleaving
