import Liota.PackageManager.Calls
import Liota.PackageManager.Tries

namespace Liota.PackageManager

open Python Python.Computation Python.Text Relation

variable {F : Type}

section Definitions

variable (π : Platform F) (s₁ : State F)

/-- However packages are loaded from `s₁` on, the call does not load `p` as a dependency. -/
def NeverPulls (call : Call) (p : Str) : Prop :=
  ∀ u, LoadSteps π [] s₁ u → ¬ u.Loaded call.name → ¬ u.Loaded p →
    ¬ MayCall π u call (.ofDependency p)

/-- However packages are loaded from `s₁` on, the call loads its package. -/
def CertainlyLoads (call : Call) : Prop :=
  ∀ u, LoadSteps π [] s₁ u → ¬ u.Loaded call.name → Sure π u (callsOf π u call) call

/-- Of the calls, made in order, those for other packages come after one that certainly loads
`p` or do not load it. -/
def Unpulled (p : Str) (calls : List Call) : Prop :=
  ∀ pre call post, calls = pre ++ call :: post → call.name ≠ p →
    (∃ own ∈ pre, own.name = p ∧ CertainlyLoads π s₁ own) ∨ NeverPulls π s₁ call p

end Definitions

section

variable {π : Platform F} {s₁ : State F} {p : Str} {calls : List Call}

theorem Unpulled.mono {pre : List Call} (h : Unpulled π s₁ p calls) (hpre : pre <+: calls) :
    Unpulled π s₁ p pre := by
  intro a call b hab
  obtain ⟨rest, rfl⟩ := hpre
  exact h a call (b ++ rest) (by simp [hab])

theorem MayCall.cases {s₀ : State F} {top call : Call} (h : MayCall π s₀ top call) :
    call = top ∨ ∃ d, call = .ofDependency d ∧ d ≠ top.name ∧ ¬ s₀.Loaded d :=
  h (fun call ↦ call = top ∨ ∃ d, call = .ofDependency d ∧ d ≠ top.name ∧ ¬ s₀.Loaded d)
    ⟨.inl rfl, fun _ _ d _ _ _ hn hne ↦ .inr ⟨d, rfl, hne, hn⟩⟩

theorem makeCall_certainlyLoads {call : Call} {u : State F} (hu : LoadSteps π [] s₁ u)
    (hn : ¬ u.Loaded call.name) (h : CertainlyLoads π s₁ call) :
    (makeCall π call u).2.Loaded call.name := by
  obtain ⟨-, hload⟩ := ((certain_loadRule (runOf_top π u call)).packageLoad
    call.name call.checksum call.autoload call.ext u).2 callsOf_root loadInv_initial
  exact (hload hn (h u hu hn) (by simp) (packageLoad_terminates _ _ _ _ u)).1

theorem makeCall_neverPulls {call : Call} {u : State F} (hu : LoadSteps π [] s₁ u)
    (hn : ¬ u.Loaded call.name) (hne : call.name ≠ p) (h : NeverPulls π s₁ call p)
    (hp : ¬ u.Loaded p) : ¬ (makeCall π call u).2.Loaded p := by
  obtain ⟨hinv, -⟩ := ((certain_loadRule (runOf_top π u call)).packageLoad
    call.name call.checksum call.autoload call.ext u).2 callsOf_root loadInv_initial
  intro hl
  rcases hinv.built p hl with hl | ⟨other, hcall, rfl⟩
  · exact hp hl
  · rcases hcall.cases with rfl | ⟨d, rfl, -, -⟩
    · exact hne rfl
    · exact h u hu hn hp hcall

/-- The rule for calls that do not pull `p` in: what its own calls do to the state, and the other
calls once it is loaded or because they never load it, all of them do. -/
theorem Tries.unpulled {R : State F → State F → Prop} (hrefl : ∀ s, R s s)
    (htrans : ∀ s t u, R s t → R t u → R s u) {pre rest : List Call} {u t : State F}
    (h : Tries π rest u t) (hg : Unpulled π s₁ p (pre ++ rest)) (hu : LoadSteps π [] s₁ u)
    (hdone : ∀ own ∈ pre, own.name = p → CertainlyLoads π s₁ own → u.Loaded p)
    (hown : ∀ call ∈ rest, ∀ u, LoadSteps π [] s₁ u → ¬ u.Loaded call.name → call.name = p →
      R u (makeCall π call u).2)
    (hother : ∀ call ∈ rest, ∀ u, LoadSteps π [] s₁ u → ¬ u.Loaded call.name → call.name ≠ p →
      u.Loaded p ∨ NeverPulls π s₁ call p → R u (makeCall π call u).2) : R u t := by
  induction h generalizing pre with
  | done => exact hrefl _
  | @skipped call calls s t hl h ih =>
    have hg' : Unpulled π s₁ p ((pre ++ [call]) ++ calls) := by simpa using hg
    refine ih hg' hu (fun own hmem hname hcertain ↦ ?_)
      (fun other hmem ↦ hown other (by simp [hmem])) fun other hmem ↦ hother other (by simp [hmem])
    rcases List.mem_append.mp hmem with hmem | hmem
    · exact hdone own hmem hname hcertain
    · rw [List.mem_singleton.mp hmem] at hname
      exact hname ▸ hl
  | @made call calls s t hl h ih =>
    have hstep : LoadSteps π [] s (makeCall π call s).2 := packageLoad_steps _ _ _ _ s
    have hfirst : R s (makeCall π call s).2 := by
      by_cases hname : call.name = p
      · exact hown call (by simp) s hu hl hname
      · refine hother call (by simp) s hu hl hname ?_
        rcases hg pre call calls rfl hname with ⟨own, hmem, hown', hcertain⟩ | hnever
        · exact .inl (hdone own hmem hown' hcertain)
        · exact .inr hnever
    have hg' : Unpulled π s₁ p ((pre ++ [call]) ++ calls) := by simpa using hg
    refine htrans _ _ _ hfirst (ih hg' (hu.trans hstep)
      (fun own hmem hname hcertain ↦ ?_) (fun other hmem ↦ hown other (by simp [hmem]))
      fun other hmem ↦ hother other (by simp [hmem]))
    rcases List.mem_append.mp hmem with hmem | hmem
    · exact hstep.grows.loaded (hdone own hmem hname hcertain)
    · rw [List.mem_singleton.mp hmem] at hname hcertain
      exact hname ▸ makeCall_certainlyLoads hu hl hcertain

end

end Liota.PackageManager
