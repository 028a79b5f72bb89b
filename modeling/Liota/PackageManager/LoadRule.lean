import Liota.PackageManager.LoadSteps

namespace Liota.PackageManager

open Python Python.Computation Python.Text Relation

variable {F : Type} {π : Platform F}

/-- The arguments of a call of `_package_load`. -/
structure Call where
  name : Str
  checksum : Option Str
  autoload : Bool
  ext : Option Ext

def Call.ofDependency (dependency : Str) : Call := ⟨dependency, none, false, none⟩

abbrev loadResult (π : Platform F) (fuel : ℕ) (call : Call) (stack : List Str) (s : State F) :=
  loadFuel π fuel call.name call.checksum call.autoload call.ext stack s

theorem openPackage_not_loaded_after {name : Str} {checksum : Option Str}
    {extForced : Option Ext} {s t : State F} {opened : Opened F}
    (h : openPackage π name checksum extForced s = (.ok (some opened), t)) : ¬ t.Loaded name := by
  have hsteps := openPackage_steps (π := π) [name] name checksum extForced s
  rw [h] at hsteps
  exact hsteps.not_loaded (by simp) (openPackage_not_loaded h)

theorem openPackage_not_diverged (name : Str) (checksum : Option Str) (extForced : Option Ext)
    (s t : State F) : openPackage π name checksum extForced s ≠ (.diverged, t) := by
  have hmodule (ext : Ext) (u : State F) :
      packageModuleLoad π name ext checksum s ≠ (.diverged, u) := by
    unfold packageModuleLoad
    split
    · simp
    · split
      · dsimp only
        split
        · split <;> simp
        · split <;> simp
        · simp
      · simp
  unfold openPackage
  split
  · simp
  · split
    · simp
    · simp
    · next ext sums _ =>
      split
      · simp
      · simp
      · rw [bind_apply]
        rcases hm : packageModuleLoad π name ext checksum s with ⟨(_ | source) | e | _, u⟩
        · simp
        · dsimp only [readDependencies]
          split <;> simp
        · simp
        · exact absurd hm (hmodule ext u)

theorem ensureLoaded_of_not_loaded (load : Str → Manager F (Option (PackageRecord F)))
    {d : Str} {s : State F} (hl : ¬ s.Loaded d) :
    ensureLoaded load d s = ((load d s).1.map fun _ ↦ (), (load d s).2) := by
  unfold ensureLoaded
  rw [if_neg hl, bind_apply]
  rcases load d s with ⟨_ | e | _, t⟩ <;> rfl

/-- The cases of a proof by induction on the calls of `_package_load`: `P` speaks about a call,
made while the packages of a stack are being loaded, and `Q` about the loop over the rest of the
dependencies of one package. Each case may use what the steps of the part before it are. -/
structure LoadRule (π : Platform F)
    (P : List Str → Call → State F → Outcome (Option (PackageRecord F)) → State F → Prop)
    (Q : List Str → Str → List Str → State F → Outcome Bool → State F → Prop) : Prop where
  outOfFuel : ∀ stack call s, P stack call s .diverged s
  closed : ∀ {stack call s t}, call.name ∉ stack →
    openPackage π call.name call.checksum call.ext s = (.ok none, t) → P stack call s (.ok none) t
  refused : ∀ {stack call s t e}, call.name ∉ stack →
    openPackage π call.name call.checksum call.ext s = (.raised e, t) →
    P stack call s (.raised e) t
  stopped : ∀ {stack call s t u opened o}, call.name ∉ stack →
    openPackage π call.name call.checksum call.ext s = (.ok (some opened), t) →
    Q (call.name :: stack) call.name opened.dependencies t o u → o ≠ .ok true →
    LoadSteps π (call.name :: stack) t u → P stack call s (o.map fun _ ↦ none) u
  started : ∀ {stack call s t u opened}, call.name ∉ stack →
    openPackage π call.name call.checksum call.ext s = (.ok (some opened), t) →
    Q (call.name :: stack) call.name opened.dependencies t (.ok true) u →
    LoadSteps π (call.name :: stack) t u →
    (∀ d ∈ opened.dependencies, call.name ∈ u.dependents d) →
    P stack call s (startPackage call.name call.checksum call.autoload opened u).1
      (startPackage call.name call.checksum call.autoload opened u).2
  done : ∀ stack name s, Q stack name [] s (.ok true) s
  cycle : ∀ {stack name d} rest s, d ∈ stack → Q stack name (d :: rest) s (.ok false) s
  present : ∀ {stack name d rest s t o}, d ∉ stack → s.Loaded d → ¬ s.Loaded name →
    Q stack name rest (s.addDependent d name) o t → Q stack name (d :: rest) s o t
  pulled : ∀ {stack name d rest s t u o r}, d ∉ stack → ¬ s.Loaded d → ¬ t.Loaded name →
    P stack (.ofDependency d) s (.ok r) t → LoadSteps π stack s t → t.Loaded d →
    Q stack name rest (t.addDependent d name) o u → Q stack name (d :: rest) s o u
  missing : ∀ {stack name d rest s t o}, d ∉ stack → ¬ s.Loaded d →
    P stack (.ofDependency d) s o t → LoadSteps π stack s t → (∀ r, o = .ok r → ¬ t.Loaded d) →
    Q stack name (d :: rest) s (o.map fun _ ↦ false) t

namespace LoadRule

variable {P : List Str → Call → State F → Outcome (Option (PackageRecord F)) → State F → Prop}
  {Q : List Str → Str → List Str → State F → Outcome Bool → State F → Prop}
  (h : LoadRule π P Q)
include h

theorem followDependencies {fuel : ℕ} {stack : List Str}
    (hload : ∀ d ∉ stack, ∀ s, P stack (.ofDependency d) s
      (loadFuel π fuel d none false none stack s).1 (loadFuel π fuel d none false none stack s).2)
    {name : Str} (hname : name ∈ stack) (deps : List Str) (s : State F) (hn : ¬ s.Loaded name) :
    Q stack name deps s
      (followDependencies (fun d ↦ loadFuel π fuel d none false none stack) name stack deps s).1
      (followDependencies (fun d ↦ loadFuel π fuel d none false none stack) name stack deps
        s).2 := by
  induction deps generalizing s with
  | nil => exact h.done stack name s
  | cons d rest ih =>
    unfold PackageManager.followDependencies
    split
    · next hd => exact h.cycle rest s hd
    · next hd =>
      by_cases hl : s.Loaded d
      · have hensure : ensureLoaded (fun d ↦ loadFuel π fuel d none false none stack) d s =
            (.ok (), s) := if_pos hl
        rw [bind_ok hensure, get_bind_apply, if_pos hl, modify_bind_apply]
        have hstep : LoadStep π stack s (s.addDependent d name) := .linked s hl hn
        exact h.present hd hl hn (ih _ (hstep.not_loaded hname hn))
      · have hP := hload d hd s
        have hsteps := loadFuel_steps (π := π) fuel d none false none stack s hd
        have hensure := ensureLoaded_of_not_loaded
          (fun d ↦ loadFuel π fuel d none false none stack) hl
        rcases hr : loadFuel π fuel d none false none stack s with ⟨r | e | _, t⟩ <;>
          rw [hr] at hP hsteps <;> simp only [hr, Outcome.map] at hensure
        · have hnt := hsteps.not_loaded hname hn
          rw [bind_ok hensure, get_bind_apply]
          by_cases hld : t.Loaded d
          · rw [if_pos hld, modify_bind_apply]
            have hstep : LoadStep π stack t (t.addDependent d name) := .linked t hld hnt
            exact h.pulled hd hl hnt hP hsteps hld (ih _ (hstep.not_loaded hname hnt))
          · rw [if_neg hld]
            exact h.missing hd hl hP hsteps fun _ _ ↦ hld
        · rw [bind_raised hensure]
          exact h.missing hd hl hP hsteps (by simp)
        · rw [bind_diverged hensure]
          exact h.missing hd hl hP hsteps (by simp)

theorem load (fuel : ℕ) (call : Call) (stack : List Str) (s : State F)
    (hstack : call.name ∉ stack) :
    P stack call s (loadResult π fuel call stack s).1 (loadResult π fuel call stack s).2 := by
  induction fuel generalizing call stack s with
  | zero => exact h.outOfFuel stack call s
  | succ fuel ih =>
    unfold loadResult loadFuel
    rw [bind_apply]
    rcases ho : openPackage π call.name call.checksum call.ext s with ⟨(_ | opened) | e | _, t⟩
    · exact h.closed hstack ho
    · have hn := openPackage_not_loaded_after ho
      have hpull (d : Str) (hd : d ∉ call.name :: stack) (u : State F) :=
        ih (.ofDependency d) (call.name :: stack) u hd
      have hQ := h.followDependencies hpull List.mem_cons_self opened.dependencies t hn
      obtain ⟨hsteps, hlinked⟩ := followDependencies_steps (π := π) (call.name :: stack) call.name
        List.mem_cons_self
        (fun d hd u ↦ loadFuel_steps fuel d none false none (call.name :: stack) u hd)
        opened.dependencies hn
      dsimp only
      rw [bind_apply]
      rcases hf : PackageManager.followDependencies
        (fun d ↦ loadFuel π fuel d none false none (call.name :: stack))
        call.name (call.name :: stack) opened.dependencies t with ⟨followed | e | _, u⟩ <;>
        rw [hf] at hQ hsteps
      · cases followed with
        | false => exact h.stopped hstack ho hQ (by simp) hsteps
        | true => exact h.started hstack ho hQ hsteps (hlinked u hf)
      · exact h.stopped hstack ho hQ (by simp) hsteps
      · exact h.stopped hstack ho hQ (by simp) hsteps
    · exact h.refused hstack ho
    · exact absurd ho (openPackage_not_diverged _ _ _ _ _)

theorem packageLoad (name : Str) (checksum : Option Str) (autoload : Bool) (ext : Option Ext)
    (s : State F) :
    P [] ⟨name, checksum, autoload, ext⟩ s (packageLoad π name checksum autoload ext s).1
      (packageLoad π name checksum autoload ext s).2 :=
  h.load _ ⟨name, checksum, autoload, ext⟩ [] s (by simp)

theorem and {P' : List Str → Call → State F → Outcome (Option (PackageRecord F)) → State F → Prop}
    {Q' : List Str → Str → List Str → State F → Outcome Bool → State F → Prop}
    (h' : LoadRule π P' Q') :
    LoadRule π (fun stack call s o t ↦ P stack call s o t ∧ P' stack call s o t)
      (fun stack name deps s o t ↦ Q stack name deps s o t ∧ Q' stack name deps s o t) where
  outOfFuel stack call s := ⟨h.outOfFuel stack call s, h'.outOfFuel stack call s⟩
  closed hstack ho := ⟨h.closed hstack ho, h'.closed hstack ho⟩
  refused hstack ho := ⟨h.refused hstack ho, h'.refused hstack ho⟩
  stopped hstack ho hQ hne hsteps :=
    ⟨h.stopped hstack ho hQ.1 hne hsteps, h'.stopped hstack ho hQ.2 hne hsteps⟩
  started hstack ho hQ hsteps hlinked :=
    ⟨h.started hstack ho hQ.1 hsteps hlinked, h'.started hstack ho hQ.2 hsteps hlinked⟩
  done stack name s := ⟨h.done stack name s, h'.done stack name s⟩
  cycle rest s hd := ⟨h.cycle rest s hd, h'.cycle rest s hd⟩
  present hd hl hn hQ := ⟨h.present hd hl hn hQ.1, h'.present hd hl hn hQ.2⟩
  pulled hd hl hn hP hsteps hld hQ :=
    ⟨h.pulled hd hl hn hP.1 hsteps hld hQ.1, h'.pulled hd hl hn hP.2 hsteps hld hQ.2⟩
  missing hd hl hP hsteps hmiss :=
    ⟨h.missing hd hl hP.1 hsteps hmiss, h'.missing hd hl hP.2 hsteps hmiss⟩

end LoadRule

end Liota.PackageManager
