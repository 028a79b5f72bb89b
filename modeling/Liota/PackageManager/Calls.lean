import Liota.PackageManager.Certain
import Liota.PackageManager.Documented

namespace Liota.PackageManager

open Python Python.Computation Python.Text Relation

variable {F : Type}

section Definitions

variable (π : Platform F) (s₀ : State F) (top : Call)

/-- A set of calls that contains `top` and what its members can pull in. -/
structure CallsClosed (C : Call → Prop) : Prop where
  root : C top
  pulled : ∀ call l d, C call → Reads π s₀ (fun _ ↦ C) call l → d ∈ l → ¬ s₀.Loaded d →
    d ≠ top.name → C (.ofDependency d)

/-- The calls that come about when `top` is made: the least closed set. -/
def MayCall (call : Call) : Prop := ∀ C, CallsClosed π s₀ top C → C call

def MayLoad (y : Str) : Prop := ∃ call, MayCall π s₀ top call ∧ call.name = y

/-- The calls of `top` by when they are made: `top` first, the others while it is on the
stack. -/
def callsOf (stack : List Str) (call : Call) : Prop :=
  MayCall π s₀ top call ∧ ((call = top ∧ stack = []) ∨ (top.name ∈ stack ∧ call.name ≠ top.name))

end Definitions

section

variable {π : Platform F} {s₀ : State F} {top : Call} {calls calls' : List Str → Call → Prop}

theorem Source.mono (h : ∀ stack call, calls stack call → calls' stack call) {m : Str}
    {n : Namespace} (hn : Source π s₀ calls m n) : Source π s₀ calls' m n := by
  rcases hn with hn | ⟨stack, call, ext, f, hcall, hrest⟩
  · exact .inl hn
  · exact .inr ⟨stack, call, ext, f, h stack call hcall, hrest⟩

theorem Reads.mono (h : ∀ stack call, calls stack call → calls' stack call) {call : Call}
    {l : List Str} (hl : Reads π s₀ calls call l) : Reads π s₀ calls' call l := by
  obtain ⟨hunder, hgiven, ext, f, hext, hf, left, hleft, hlist⟩ := hl
  refine ⟨hunder, hgiven, ext, f, hext, hf, left, ?_, hlist⟩
  rcases hleft with hnone | ⟨n, hn, heq⟩
  · exact .inl hnone
  · exact .inr ⟨n, hn.mono h, heq⟩

theorem MayCall.root : MayCall π s₀ top top := fun _ hC ↦ hC.root

theorem MayCall.pulled {call : Call} {l : List Str} {d : Str} (h : MayCall π s₀ top call)
    (hl : Reads π s₀ (callsOf π s₀ top) call l) (hd : d ∈ l) (hn : ¬ s₀.Loaded d)
    (hne : d ≠ top.name) : MayCall π s₀ top (.ofDependency d) := by
  intro C hC
  exact hC.pulled call l d (h C hC) (hl.mono fun _ _ hcall ↦ hcall.1 C hC) hd hn hne

theorem callsOf_root : callsOf π s₀ top [] top := ⟨.root, .inl ⟨rfl, rfl⟩⟩

theorem callsOf.top_mem {stack : List Str} {call : Call} (h : callsOf π s₀ top stack call) :
    top.name ∈ call.name :: stack := by
  rcases h.2 with ⟨rfl, -⟩ | ⟨hmem, -⟩
  · exact List.mem_cons_self
  · exact List.mem_cons_of_mem _ hmem

theorem callsOf.name_ne {stack : List Str} {call : Call} (h : callsOf π s₀ top stack call)
    {y : Str} (hy : y ∈ stack) : call.name ≠ top.name := by
  rcases h.2 with ⟨-, rfl⟩ | ⟨-, hne⟩
  · exact absurd hy List.not_mem_nil
  · exact hne

variable (π s₀ top) in
theorem runOf_top : RunOf π s₀ (callsOf π s₀ top) (MayLoad π s₀ top) where
  pulls := by
    intro stack call s t opened hcall hs ho d hd hn hstack
    have hne : d ≠ top.name := fun h ↦ hstack (h ▸ hcall.top_mem)
    exact ⟨hcall.1.pulled (hs.reads ho) hd hn hne, .inr ⟨hcall.top_mem, hne⟩⟩
  builds hcall _ _ _ _ _ _ _ _ := ⟨_, hcall.1, rfl⟩

end

section Scripts

variable {s : State Script}

theorem loadable_of_quiet {x : Str} {ext : Option Ext} (hunder : UnderPackagePath scriptPlatform x)
    (hreadable : (checksumList scriptPlatform s.fs x extensions).toBool = true)
    (hfound : (foundFile scriptPlatform s.fs x ext).isSome = true)
    (hclass : (defines scriptPlatform s.fs x ext).packageClass.isSome = true)
    (h : (defines scriptPlatform s.fs x ext).Quiet) : Loadable scriptPlatform s x ext where
  under := hunder
  readable := by
    rcases hs : checksumList scriptPlatform s.fs x extensions with e | sums
    · simp [hs, Except.toBool] at hreadable
    · exact ⟨sums, rfl⟩
  found := by
    obtain ⟨⟨ext', content⟩, hf⟩ := Option.isSome_iff_exists.mp hfound
    exact ⟨ext', content, hf, fun _ ↦ rfl⟩
  strings := h.strings
  constructs := by
    obtain ⟨klass, hk⟩ := Option.isSome_iff_exists.mp hclass
    refine ⟨klass, hk, fun tick ↦ ?_⟩
    obtain ⟨obj, hobj, -⟩ := h.packageClass klass tick hk
    exact ⟨obj, hobj⟩
  runs klass tick obj u hk hobj _ _ _ := by
    obtain ⟨obj', hobj', hret⟩ := h.packageClass klass tick hk
    obtain rfl := Except.ok.inj (hobj.symm.trans hobj')
    exact ⟨u.resourceRegistry, by rw [hret]; rfl⟩

theorem defines_scriptFiles (packages : List (Str × Script)) (x : Str) (ext : Option Ext) :
    defines scriptPlatform (scriptFiles packages) x ext = .empty ∨
      ∃ q ∈ packages, defines scriptPlatform (scriptFiles packages) x ext = q.2.defines := by
  unfold defines
  split
  · next ext' content hfound =>
    obtain ⟨-, f, hf, rfl⟩ := foundFile_eq_some hfound
    right
    obtain ⟨q, hq, heq⟩ := mem_scriptFiles hf
    exact ⟨q, hq, by rw [heq]; rfl⟩
  · exact .inl rfl

end Scripts

end Liota.PackageManager
