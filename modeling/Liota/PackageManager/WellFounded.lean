import Liota.PackageManager.Calls

namespace Liota.PackageManager

open Python Python.Computation Python.Text Relation

variable {F : Type} {π : Platform F}

/-- Reached from `p` along dependencies, without going on from what is loaded. -/
def Reached (π : Platform F) (s : State F) (p x : Str) : Prop := ReflTransGen (Missing π s) p x

/-- The files below `p` list dependencies that are strings, and whether their modules execute
and their classes are instantiated and run is the same at any time, once the dependencies are
loaded. -/
structure Steady (π : Platform F) (s : State F) (p : Str) : Prop where
  strings : ∀ x, Reached π s p x →
    ∃ deps, dependencyList (defines π s.fs x none).dependencies = .ok (some deps)
  importing : ∀ ext content tick tick', π.importing ext content tick = .done →
    π.importing ext content tick' = .done
  constructs : ∀ x klass tick tick' obj, Reached π s p x →
    (defines π s.fs x none).packageClass = some klass → klass tick = .ok obj →
    ∃ obj', klass tick' = .ok obj'
  runs : ∀ x klass tick tick' obj obj' u u' r, Reached π s p x →
    (defines π s.fs x none).packageClass = some klass → klass tick = .ok obj →
    klass tick' = .ok obj' → LoadSteps π [] s u → LoadSteps π [] s u' →
    (∀ d ∈ declared π s.fs x none, u.Loaded d ∧ u'.Loaded d) → ¬ u.Loaded x → ¬ u'.Loaded x →
    ResourceRegistry.exec x obj.run u.resourceRegistry = (.ok (), r) →
    ∃ r', ResourceRegistry.exec x obj'.run u'.resourceRegistry = (.ok (), r')

/-- No module below `p` holds definitions that the file of its package does not make, and no two
packages below `p` share a module. -/
structure Unspoilt (π : Platform F) (s : State F) (p : Str) : Prop where
  fresh : ∀ x, Reached π s p x → Fresh (s.module (moduleName x)) (defines π s.fs x none)
  distinct : ∀ x y, Reached π s p x → Reached π s p y → moduleName x = moduleName y → x = y

/-- The calls that loading `p` as a dependency can make. -/
def callsBelow (π : Platform F) (s : State F) (p : Str) (_ : List Str) (call : Call) : Prop :=
  ∃ x, call = .ofDependency x ∧ Reached π s p x

def callsFrom (π : Platform F) (s : State F) (top : Call) (stack : List Str) (call : Call) : Prop :=
  (call = top ∧ stack = []) ∨
    (top.name ∈ stack ∧ ∃ x, x ≠ top.name ∧ call = .ofDependency x ∧ Reached π s top.name x)

section

variable {s : State F} {p : Str}

theorem Unspoilt.tidy (h : Unspoilt π s p) {x : Str} (hx : Reached π s p x) :
    Tidy π s (callsBelow π s p) (.ofDependency x) := by
  refine ⟨h.fresh x hx, ?_⟩
  rintro _ call ⟨y, rfl, hy⟩ hm
  rw [h.distinct y x hy hx hm]

theorem Steady.loadable (h : Steady π s p) {x : Str} (hx : Reached π s p x)
    (hunspoilt : Unspoilt π s p) {built : Str → Prop} {stack : List Str} {s' t u : State F}
    {opened : Opened F} {klass : PackageClass} {obj : Instance} {registry : ResourceRegistry}
    (hs' : LoadInv π s (callsBelow π s p) built stack s')
    (ho : Opens π x none none s' t opened)
    (hu : LoadInv π s (callsBelow π s p) built (x :: stack) u)
    (hdeps : ∀ d ∈ opened.dependencies, u.Loaded d) (hn : ¬ u.Loaded x)
    (hclass : (u.module (moduleName x)).packageClass = some klass)
    (hobj : klass u.tick = .ok obj)
    (hexec : ResourceRegistry.exec x obj.run u.resourceRegistry = (.ok (), registry)) :
    Loadable π s x none := by
  have htidy := hunspoilt.tidy hx
  obtain ⟨hlist, -, hfound⟩ := hs'.opened htidy ho
  have hdeclared := declared_eq hlist
  have hdefined : (defines π s.fs x none).packageClass = some klass :=
    (hu.classes (.ofDependency x) List.mem_cons_self htidy).symm.trans hclass
  refine ⟨ho.under, hs'.steps.fs ▸ ho.readable, ⟨_, _, hfound, fun tick ↦ ?_⟩, ⟨_, hlist⟩,
    ⟨klass, hdefined, fun tick ↦ ?_⟩, fun klass' tick obj' v hk hobj' hv hdeps' hn' ↦ ?_⟩
  · exact h.importing _ _ _ tick ho.importing
  · exact h.constructs x klass _ tick obj hx hdefined hobj
  · obtain rfl := Option.some.inj (hk.symm.trans hdefined)
    exact h.runs x klass' _ tick obj obj' u v registry hx hdefined hobj hobj' hu.steps hv
      (fun d hd ↦ ⟨hdeps d (hdeclared ▸ hd), hdeps' d hd⟩) hn hn' hexec

theorem runOf_below (hsteady : Steady π s p) (hunspoilt : Unspoilt π s p) :
    RunOf π s (callsBelow π s p) (Certain π s (callsBelow π s p)) where
  pulls := by
    rintro stack call s' t opened ⟨x, rfl, hx⟩ hs' ho d hd hnot _
    have hdeps := declared_eq (hs'.opened (hunspoilt.tidy hx) ho).1
    have hmem : d ∈ declared π s.fs x none := hdeps.symm ▸ hd
    exact ⟨d, rfl, ReflTransGen.tail hx ⟨hmem, hnot⟩⟩
  builds := by
    rintro stack call s' t u opened klass obj registry ⟨x, rfl, hx⟩ hs' ho hu hdeps hn hclass
      hobj hexec
    have htidy := hunspoilt.tidy hx
    have hloadable := hsteady.loadable hx hunspoilt hs' ho hu hdeps hn hclass hobj hexec
    refine .build ⟨hloadable, htidy⟩ fun d hd ↦ ?_
    have hmem : d ∈ opened.dependencies := declared_eq (hs'.opened htidy ho).1 ▸ hd.1
    exact (hu.built d (hdeps d hmem)).resolve_left hd.2

theorem declared_known (s : State F) (x : Str) :
    declared π s.fs x none ⊆ knownNames π s := by
  intro d hd
  unfold declared defines at hd
  split at hd
  · next ext content hfound =>
    obtain ⟨-, f, hf, rfl⟩ := foundFile_eq_some hfound
    exact (mem_knownNames s d).mpr (.inl ⟨_, f, hf, ext, hd⟩)
  · simp [Namespace.names, Namespace.empty] at hd

theorem Reached.known {x : Str} (h : Reached π s p x) : x ∈ (p :: knownNames π s).toFinset := by
  rw [List.mem_toFinset]
  rcases ReflTransGen.cases_tail h with rfl | ⟨y, -, hy⟩
  · exact List.mem_cons_self
  · exact List.mem_cons_of_mem _ (declared_known s y hy.1)

section Loads

variable {top : Call}

theorem callsFrom.reached {stack : List Str} {call : Call} (h : callsFrom π s top stack call) :
    Reached π s top.name call.name := by
  rcases h with ⟨rfl, -⟩ | ⟨-, x, -, rfl, hx⟩
  · exact .refl
  · exact hx

theorem callsFrom.top_mem {stack : List Str} {call : Call} (h : callsFrom π s top stack call) :
    top.name ∈ call.name :: stack := by
  rcases h with ⟨rfl, -⟩ | ⟨hmem, -⟩
  · exact List.mem_cons_self
  · exact List.mem_cons_of_mem _ hmem

theorem callsFrom.ext_eq {stack : List Str} {call : Call} (h : callsFrom π s top stack call)
    (hext : top.ext = none) : call.ext = none := by
  rcases h with ⟨rfl, -⟩ | ⟨-, x, -, rfl, -⟩
  · exact hext
  · rfl

theorem Unspoilt.tidy_from (h : Unspoilt π s top.name) (hext : top.ext = none)
    {stack : List Str} {call : Call} (hcall : callsFrom π s top stack call) :
    Tidy π s (callsFrom π s top) call := by
  refine ⟨hcall.ext_eq hext ▸ h.fresh call.name hcall.reached, fun stack' other hother hm ↦ ?_⟩
  have hname := h.distinct other.name call.name hother.reached hcall.reached hm
  rcases hcall with ⟨rfl, -⟩ | ⟨-, x, hx, rfl, -⟩ <;>
    rcases hother with ⟨rfl, -⟩ | ⟨-, y, hy, rfl, -⟩
  · rfl
  · exact absurd hname hy
  · exact absurd hname.symm hx
  · exact congrArg Call.ofDependency hname

variable (top) in
theorem runOf_from (hunspoilt : Unspoilt π s top.name) (hext : top.ext = none) :
    RunOf π s (callsFrom π s top) (fun _ ↦ True) where
  pulls := by
    intro stack call s' t opened hcall hs' ho d hd hn hnot
    have hdeps := declared_eq (hs'.opened (hunspoilt.tidy_from hext hcall) ho).1
    rw [hcall.ext_eq hext] at hdeps
    have hmem : d ∈ declared π s.fs call.name none := hdeps.symm ▸ hd
    have hne : d ≠ top.name := fun h ↦ hnot (h ▸ hcall.top_mem)
    exact .inr ⟨hcall.top_mem, d, hne, rfl, hcall.reached.tail ⟨hmem, hn⟩⟩
  builds _ _ _ _ _ _ _ _ _ := trivial

theorem loads_of_loadable {checksum : Option Str} (autoload : Bool) (hp : ¬ s.Loaded p)
    (hunspoilt : Unspoilt π s p) (hloadable : ∀ x, Reached π s p x → Loadable π s x none)
    (hacyclic : ∀ x, Reached π s p x → ¬ TransGen (Missing π s) x x)
    (hgiven : ∀ c, checksum = some c → Matches π s.fs p c) :
    (packageLoad π p checksum autoload none s).2.Loaded p := by
  let top : Call := ⟨p, checksum, autoload, none⟩
  have hroot : callsFrom π s top [] top := .inl ⟨rfl, rfl⟩
  have hcertain : ∀ d ∈ declared π s.fs p none, ¬ s.Loaded d →
      Certain π s (callsFrom π s top) d := by
    intro d hd hn
    have hpd : Missing π s p d := ⟨hd, hn⟩
    refine (Graph.Buildable.iff_good_acyclic (p :: knownNames π s).toFinset
      fun y hy ↦ Reached.known (.head hpd hy)).mpr ⟨fun x hx ↦ ?_, fun x hx ↦ ?_⟩
    · have hne : x ≠ p := fun h ↦ hacyclic p .refl (.head' hpd (h ▸ hx))
      have hcall : callsFrom π s top [p] (.ofDependency x) :=
        .inr ⟨List.mem_singleton_self p, x, hne, rfl, .head hpd hx⟩
      exact ⟨hloadable x (.head hpd hx), hunspoilt.tidy_from rfl hcall⟩
    · exact hacyclic x (.head hpd hx)
  have hsure : Sure π s (callsFrom π s top) top :=
    ⟨hloadable p .refl, hunspoilt.tidy_from rfl hroot, hgiven, hcertain⟩
  obtain ⟨-, hload⟩ := ((certain_loadRule (runOf_from top hunspoilt rfl)).packageLoad
    p checksum autoload none s).2 hroot loadInv_initial
  exact (hload hp hsure (by simp) (packageLoad_terminates p checksum autoload none s)).1

end Loads

/-- On a tidy finite file system, a package is loaded exactly if all that it needs is
individually loadable and free of dependency cycles. -/
theorem load_iff_wellFounded (hp : ¬ s.Loaded p) (hsteady : Steady π s p)
    (hunspoilt : Unspoilt π s p) :
    (packageLoad π p none false none s).1 ≠ .diverged ∧
      ((packageLoad π p none false none s).2.Loaded p ↔
        (∀ x, Reached π s p x → Loadable π s x none) ∧
          ∀ x, Reached π s p x → ¬ TransGen (Missing π s) x x) := by
  refine ⟨packageLoad_terminates p none false none s, fun hl ↦ ?_, fun ⟨hloadable, hacyclic⟩ ↦
    loads_of_loadable false hp hunspoilt hloadable hacyclic (by simp)⟩
  obtain ⟨hinv, -⟩ := ((certain_loadRule (runOf_below hsteady hunspoilt)).packageLoad
    p none false none s).2 ⟨p, rfl, .refl⟩ loadInv_initial
  have hcertain : Certain π s (callsBelow π s p) p := (hinv.built p hl).resolve_left hp
  obtain ⟨hgood, hacyclic⟩ := (Graph.Buildable.iff_good_acyclic (p :: knownNames π s).toFinset
    fun y hy ↦ Reached.known hy).mp hcertain
  exact ⟨fun x hx ↦ (hgood x hx).1, hacyclic⟩

end

section Scripts

variable {s : State Script} {p : Str}

theorem steady_of_quiet
    (h : ∀ x, Reached scriptPlatform s p x → (defines scriptPlatform s.fs x none).Quiet) :
    Steady scriptPlatform s p where
  strings x hx := (h x hx).strings
  importing _ _ _ _ _ := rfl
  constructs x klass _ tick' _ hx hk _ := by
    obtain ⟨obj, hobj, -⟩ := (h x hx).packageClass klass tick' hk
    exact ⟨obj, hobj⟩
  runs x klass _ tick' _ obj' _ u' _ hx hk _ hobj' _ _ _ _ _ _ := by
    obtain ⟨obj, hobj, hret⟩ := (h x hx).packageClass klass tick' hk
    obtain rfl := Except.ok.inj (hobj.symm.trans hobj')
    exact ⟨u'.resourceRegistry, by rw [hret]; rfl⟩

end Scripts

def independentScript : Script where
  sha1 := "2".toList
  defines :=
    { dependencies := none
      packageClass := some fun _ ↦ .ok ⟨true, .ret, none, .ret⟩ }

/-- The package `p` could not be loaded because `q` is missing; then its file was replaced. -/
def replacedThread : Thread Script where
  state :=
    { (scriptThread [("p".toList, .standard "1".toList ["q".toList] .ret none)] none
        ["load p 1"]).state with
      fs := scriptFiles [("p".toList, independentScript)]
      startupList := none }
  status := (scriptThread [("p".toList, .standard "1".toList ["q".toList] .ret none)] none
    ["load p 1"]).status

theorem reachable_replacedThread :
    Reachable scriptPlatform (fun _ ↦ True) (fun _ _ ↦ True) replacedThread :=
  .environment (reachable_scriptThread trivial none ["load p 1"]) trivial

theorem reached_of_declared_nil {π : Platform F} {s : State F} {p x : Str}
    (h : declared π s.fs p none = []) (hx : Reached π s p x) : x = p := by
  rcases ReflTransGen.cases_head hx with rfl | ⟨y, hy, -⟩
  · rfl
  · simp [Graph.Needs, h] at hy

theorem replaced_not_loaded :
    ¬ ∀ t, Reachable scriptPlatform (fun _ ↦ True) (fun _ _ ↦ True) t →
      ∀ p, ¬ t.state.Loaded p → Steady scriptPlatform t.state p →
      ((packageLoad scriptPlatform p none false none t.state).2.Loaded p ↔
        (∀ x, Reached scriptPlatform t.state p x → Loadable scriptPlatform t.state x none) ∧
          ∀ x, Reached scriptPlatform t.state p x →
            ¬ TransGen (Missing scriptPlatform t.state) x x) := by
  intro h
  have hquiet : (defines scriptPlatform replacedThread.state.fs "p".toList none).Quiet := by
    rcases defines_scriptFiles [("p".toList, independentScript)] "p".toList none with
      hd | ⟨q, hq, hd⟩
    · exact hd ▸ quiet_empty
    · obtain rfl := List.mem_singleton.mp hq
      refine hd ▸ ⟨⟨[], rfl⟩, fun klass tick hk ↦ ?_⟩
      obtain rfl := Option.some.inj hk
      exact ⟨_, rfl, rfl⟩
  have honly : declared scriptPlatform replacedThread.state.fs "p".toList none = [] := by
    decide +kernel
  have hiff := h replacedThread reachable_replacedThread "p".toList (by decide +kernel)
    (steady_of_quiet fun x hx ↦ reached_of_declared_nil honly hx ▸ hquiet)
  have hloadable : Loadable scriptPlatform replacedThread.state "p".toList none :=
    loadable_of_quiet (by decide +kernel) (by decide +kernel) (by decide +kernel)
      (by decide +kernel) hquiet
  refine absurd (hiff.mpr ⟨fun x hx ↦ ?_, fun x hx hcycle ↦ ?_⟩) (by decide +kernel)
  · exact reached_of_declared_nil honly hx ▸ hloadable
  · obtain ⟨y, hy, -⟩ := TransGen.head'_iff.mp hcycle
    have hmem : y ∈ declared scriptPlatform replacedThread.state.fs x none := hy.1
    rw [reached_of_declared_nil honly hx, honly] at hmem
    exact absurd hmem List.not_mem_nil

theorem reached_pairState {x : Str} (h : Reached scriptPlatform pairState "p".toList x) :
    x = "p".toList ∨ x = "d".toList := by
  have hp : declared scriptPlatform pairState.fs "p".toList none = ["d".toList] := by decide
  have hd : declared scriptPlatform pairState.fs "d".toList none = [] := by decide
  have hclosed : Graph.Closed (Missing scriptPlatform pairState)
      (fun x ↦ x = "p".toList ∨ x = "d".toList) := by
    rintro a b (rfl | rfl) hab
    · have hb : b ∈ declared scriptPlatform pairState.fs "p".toList none := hab.1
      exact .inr (List.mem_singleton.mp (hp ▸ hb))
    · have hb : b ∈ declared scriptPlatform pairState.fs "d".toList none := hab.1
      exact absurd (hd ▸ hb) List.not_mem_nil
  exact hclosed.reach (.inl rfl) h

theorem load_iff_wellFounded_pair :
    (packageLoad scriptPlatform "p".toList none false none pairState).2.Loaded "p".toList ∧
      ((packageLoad scriptPlatform "p".toList none false none pairState).2.Loaded "p".toList ↔
        (∀ x, Reached scriptPlatform pairState "p".toList x →
          Loadable scriptPlatform pairState x none) ∧
        ∀ x, Reached scriptPlatform pairState "p".toList x →
          ¬ TransGen (Missing scriptPlatform pairState) x x) := by
  refine ⟨by decide +kernel, (load_iff_wellFounded (by decide +kernel) ?_ ?_).2⟩
  · refine steady_of_quiet fun x _ ↦ ?_
    rcases defines_scriptFiles pairScripts x none with hd | ⟨q, hq, hd⟩
    · exact hd ▸ quiet_empty
    · simp only [pairScripts, List.mem_cons, List.not_mem_nil, or_false] at hq
      rcases hq with rfl | rfl <;> exact hd ▸ quiet_standard _ _ _
  · refine ⟨fun x _ ↦ fresh_empty _, fun x y hx hy hm ↦ ?_⟩
    rcases reached_pairState hx with rfl | rfl <;> rcases reached_pairState hy with rfl | rfl
    · rfl
    · exact absurd hm (by decide)
    · exact absurd hm (by decide)
    · rfl

end Liota.PackageManager
