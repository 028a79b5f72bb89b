import Liota.Python.Computation

namespace Liota.Python.Computation

variable {σ ε ν : Type}

/-- A loop that handles entries in order and collects the names of those whose step does not
pass. -/
def Py.failures (step : ε → Py σ Bool) (name : ε → ν) : List ε → List ν → Py σ (List ν)
  | [], failed => pure failed
  | e :: rest, failed => do
    let passed ← step e
    failures step name rest (if passed then failed else failed ++ [name e])

/-- The loop with the result that no name was collected. -/
def Py.allPass [DecidableEq ν] (step : ε → Py σ Bool) (name : ε → ν) (l : List ε) : Py σ Bool := do
  let failed ← Py.failures step name l []
  pure (failed = [])

inductive Passes (step : ε → Py σ Bool) : List ε → σ → σ → Prop
  | done (s : σ) : Passes step [] s s
  | next {e : ε} {rest : List ε} {s t u : σ} (h : step e s = (.ok true, t))
      (hrest : Passes step rest t u) : Passes step (e :: rest) s u

section

variable {step : ε → Py σ Bool} {name : ε → ν} {s u : σ}

theorem failures_nil_iff (l : List ε) (failed : List ν) :
    Py.failures step name l failed s = (.ok [], u) ↔ failed = [] ∧ Passes step l s u := by
  induction l generalizing failed s with
  | nil =>
    constructor
    · intro h
      cases h
      exact ⟨rfl, .done _⟩
    · rintro ⟨rfl, h⟩
      cases h
      rfl
  | cons e rest ih =>
    rw [Py.failures]
    constructor
    · intro h
      obtain ⟨passed, t, hstep, hrest⟩ := bind_eq_ok h
      obtain ⟨hfailed, hpasses⟩ := (ih _).mp hrest
      cases passed with
      | false => simp at hfailed
      | true => exact ⟨hfailed, .next hstep hpasses⟩
    · rintro ⟨rfl, h⟩
      cases h with
      | next hstep hrest =>
        rw [bind_ok hstep]
        exact (ih _).mpr ⟨rfl, hrest⟩

theorem exists_failure {l : List ε} {failed failed' : List ν}
    (h : Py.failures step name l failed s = (.ok failed', u)) (hne : failed' ≠ failed) :
    ∃ pre e post mid t v, l = pre ++ e :: post ∧
      Py.failures step name pre failed s = (.ok mid, t) ∧ step e t = (.ok false, v) := by
  induction l generalizing failed s with
  | nil =>
    cases h
    exact absurd rfl hne
  | cons e rest ih =>
    obtain ⟨passed, t, hstep, hrest⟩ := bind_eq_ok h
    cases passed with
    | false => exact ⟨[], e, rest, failed, s, t, rfl, rfl, hstep⟩
    | true =>
      obtain ⟨pre, e', post, mid, t', v, rfl, hpre, hfails⟩ := ih hrest hne
      refine ⟨e :: pre, e', post, mid, t', v, rfl, ?_, hfails⟩
      rw [Py.failures, bind_ok hstep]
      exact hpre

theorem allPass_true_iff [DecidableEq ν] {l : List ε} :
    Py.allPass step name l s = (.ok true, u) ↔ Passes step l s u := by
  constructor
  · intro h
    obtain ⟨failed, t, hrun, hlast⟩ := bind_eq_ok h
    obtain ⟨hnil, rfl⟩ := Prod.mk.inj hlast
    obtain rfl : failed = [] := by simpa using hnil
    exact ((failures_nil_iff l []).mp hrun).2
  · intro h
    rw [Py.allPass, bind_ok ((failures_nil_iff l []).mpr ⟨rfl, h⟩)]
    rfl

theorem allPass_false [DecidableEq ν] {l : List ε} (h : Py.allPass step name l s = (.ok false, u)) :
    ∃ pre e post b t v, l = pre ++ e :: post ∧ Py.allPass step name pre s = (.ok b, t) ∧
      step e t = (.ok false, v) := by
  obtain ⟨failed, w, hrun, hlast⟩ := bind_eq_ok h
  have hne : failed ≠ [] := by simpa using (Prod.mk.inj hlast).1
  obtain ⟨pre, e, post, mid, t, v, hl, hpre, hfails⟩ := exists_failure hrun hne
  refine ⟨pre, e, post, decide (mid = []), t, v, hl, ?_, hfails⟩
  rw [Py.allPass, bind_ok hpre]
  rfl

theorem Passes.rule {I : σ → Prop} {D : ε → σ → Prop} {l : List ε} (h : Passes step l s u)
    (hstep : ∀ e ∈ l, ∀ t v, I t → step e t = (.ok true, v) →
      I v ∧ D e v ∧ ∀ x ∈ l, D x t → D x v)
    (hs : I s) : ∀ e ∈ l, D e u := by
  suffices ∀ rest t, Passes step rest t u → rest ⊆ l → I t →
      (∀ e ∈ rest, D e u) ∧ ∀ x ∈ l, D x t → D x u from
    (this l s h (List.Subset.refl l) hs).1
  clear h hs
  intro rest t h
  induction h with
  | done t => exact fun _ _ ↦ ⟨by simp, fun _ _ hx ↦ hx⟩
  | @next e rest t v u hfirst _ ih =>
    intro hsub ht
    obtain ⟨hv, hdone, hkeeps⟩ := hstep e (hsub List.mem_cons_self) t v ht hfirst
    obtain ⟨hrest, hlast⟩ := ih (List.cons_subset.mp hsub).2 hv
    refine ⟨fun x hx ↦ ?_, fun x hx hxt ↦ hlast x hx (hkeeps x hx hxt)⟩
    rcases List.mem_cons.mp hx with rfl | hx
    · exact hlast x (hsub List.mem_cons_self) hdone
    · exact hrest x hx

end

end Liota.Python.Computation
