import Mathlib.Logic.Relation
import Mathlib.Data.Finset.Lattice.Fold

namespace Liota.Graph

open Relation

variable {V : Type} {r : V → V → Prop}

theorem rank_lt_of_transGen {rank : V → ℕ} (h : ∀ a b, r a b → rank a < rank b) {a b : V}
    (hab : TransGen r a b) : rank a < rank b := by
  induction hab with
  | single hs => exact h _ _ hs
  | tail _ hs ih => exact ih.trans (h _ _ hs)

theorem acyclic_of_rank {rank : V → ℕ} (h : ∀ a b, r a b → rank a < rank b) (a : V) :
    ¬ TransGen r a a := fun haa ↦ lt_irrefl _ (rank_lt_of_transGen h haa)

theorem rank_le_of_reflTransGen {rank : V → ℕ} (h : ∀ a b, r a b → rank a < rank b) {a b : V}
    (hab : ReflTransGen r a b) : rank a ≤ rank b := by
  induction hab with
  | refl => exact le_rfl
  | tail _ hs ih => exact ih.trans (h _ _ hs).le

theorem exists_rank_bound [DecidableEq V] (rank : V → ℕ) (l : List V) :
    ∃ N, ∀ a ∈ l, rank a < N :=
  ⟨l.toFinset.sup rank + 1, fun _ ha ↦
    Nat.lt_succ_of_le (Finset.le_sup (List.mem_toFinset.mpr ha))⟩

def Closed (r : V → V → Prop) (C : V → Prop) : Prop := ∀ a b, C a → r a b → C b

theorem Closed.reach {C : V → Prop} (hC : Closed r C) {a b : V} (ha : C a)
    (hab : ReflTransGen r a b) : C b := by
  induction hab with
  | refl => exact ha
  | tail _ hs ih => exact hC _ _ ih hs

/-- Walks that end outside a closed set never enter it, so removing the set loses no walk
between the vertices that are left. -/
theorem Closed.reach_outside {C : V → Prop} (hC : Closed r C) {a b : V} (hb : ¬ C b) :
    ReflTransGen r a b ↔ ReflTransGen (fun x y ↦ r x y ∧ ¬ C y) a b := by
  constructor
  · intro hab
    induction hab with
    | refl => exact .refl
    | @tail x y _ hs ih =>
      have hx : ¬ C x := fun hx ↦ hb (hC x y hx hs)
      exact (ih hx).tail ⟨hs, hb⟩
  · exact ReflTransGen.mono (fun _ _ h ↦ h.1) _ _

end Liota.Graph
