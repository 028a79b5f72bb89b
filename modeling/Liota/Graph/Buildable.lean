import Mathlib.Logic.Relation
import Mathlib.Data.Finset.Card

namespace Liota.Graph

open Relation

variable {V : Type}

def Needs (deps : V → List V) (present : V → Prop) (x y : V) : Prop := y ∈ deps x ∧ ¬ present y

/-- What can be built from the bottom up on top of what is present. -/
inductive Buildable (good : V → Prop) (deps : V → List V) (present : V → Prop) : V → Prop
  | build {x : V} (hx : good x)
      (hdeps : ∀ d, Needs deps present x d → Buildable good deps present d) :
      Buildable good deps present x

namespace Buildable

variable {good : V → Prop} {deps : V → List V} {present : V → Prop} {x y : V}

theorem good_self (h : Buildable good deps present x) : good x := by
  cases h with
  | build hx _ => exact hx

theorem needs (h : Buildable good deps present x) (hxy : Needs deps present x y) :
    Buildable good deps present y := by
  cases h with
  | build _ hdeps => exact hdeps y hxy

theorem reach (h : Buildable good deps present x) (hxy : ReflTransGen (Needs deps present) x y) :
    Buildable good deps present y := by
  induction hxy with
  | refl => exact h
  | tail _ hs ih => exact ih.needs hs

theorem acyclic (h : Buildable good deps present x) : ¬ TransGen (Needs deps present) x x := by
  induction h with
  | build _ _ ih =>
    intro hcycle
    obtain ⟨y, hxy, hyx⟩ := TransGen.head'_iff.mp hcycle
    exact ih y hxy (.tail' hyx hxy)

theorem iff_good_acyclic (U : Finset V)
    (hU : ∀ y, ReflTransGen (Needs deps present) x y → y ∈ U) :
    Buildable good deps present x ↔
      (∀ y, ReflTransGen (Needs deps present) x y → good y) ∧
        ∀ y, ReflTransGen (Needs deps present) x y → ¬ TransGen (Needs deps present) y y := by
  classical
  constructor
  · intro h
    exact ⟨fun y hy ↦ (h.reach hy).good_self, fun y hy ↦ (h.reach hy).acyclic⟩
  · rintro ⟨hgood, hacyclic⟩
    -- Induction on the number of vertices below, which every edge makes smaller.
    have hbuild (n : ℕ) : ∀ y, ReflTransGen (Needs deps present) x y →
        (U.filter (TransGen (Needs deps present) y)).card ≤ n →
        Buildable good deps present y := by
      induction n with
      | zero =>
        intro y hy hcard
        refine .build (hgood y hy) fun d hd ↦ ?_
        have hmem : d ∈ U.filter (TransGen (Needs deps present) y) :=
          Finset.mem_filter.mpr ⟨hU d (hy.tail hd), .single hd⟩
        rw [Finset.card_eq_zero.mp (Nat.le_zero.mp hcard)] at hmem
        exact absurd hmem (Finset.notMem_empty d)
      | succ n ih =>
        intro y hy hcard
        refine .build (hgood y hy) fun d hd ↦ ih d (hy.tail hd) ?_
        have hlt : (U.filter (TransGen (Needs deps present) d)).card <
            (U.filter (TransGen (Needs deps present) y)).card := by
          refine Finset.card_lt_card ⟨fun z hz ↦ ?_, fun hsub ↦ ?_⟩
          · obtain ⟨hzU, hdz⟩ := Finset.mem_filter.mp hz
            exact Finset.mem_filter.mpr ⟨hzU, .head hd hdz⟩
          · have hmem : d ∈ U.filter (TransGen (Needs deps present) d) :=
              hsub (Finset.mem_filter.mpr ⟨hU d (hy.tail hd), .single hd⟩)
            exact hacyclic d (hy.tail hd) (Finset.mem_filter.mp hmem).2
        omega
    exact hbuild _ x .refl le_rfl

end Buildable

end Liota.Graph
