import Mathlib.Logic.Relation
import Mathlib.Order.WellFounded

namespace Liota.Graph

variable {V : Type} {r : V → V → Prop}

theorem acc_of_lex {I : V → Prop} {f g : V → ℕ} (hkeep : ∀ a b, I a → r a b → I b)
    (hlower : ∀ a b, I a → r a b → f b < f a ∨ f b = f a ∧ g b < g a) {a : V} (ha : I a) :
    Acc (fun b a ↦ r a b) a := by
  suffices h : ∀ n m a, f a = n → g a = m → I a → Acc (fun b a ↦ r a b) a from h _ _ a rfl rfl ha
  intro n
  induction n using Nat.strongRecOn with
  | ind n ihn =>
    intro m
    induction m using Nat.strongRecOn with
    | ind m ihm =>
      intro a hn hm ha
      refine ⟨a, fun b hb ↦ ?_⟩
      rcases hlower a b ha hb with hlt | ⟨heq, hlt⟩
      · exact ihn (f b) (hn ▸ hlt) (g b) b rfl rfl (hkeep a b ha hb)
      · exact ihm (g b) (hm ▸ hlt) b (heq.trans hn) rfl (hkeep a b ha hb)

theorem exists_stuck_of_acc {a : V} (h : Acc (fun b a ↦ r a b) a) :
    ∃ b, Relation.ReflTransGen r a b ∧ ∀ c, ¬ r b c := by
  induction h with
  | intro a _ ih =>
    by_cases hstep : ∃ b, r a b
    · obtain ⟨b, hb⟩ := hstep
      obtain ⟨c, hc, hstuck⟩ := ih b hb
      exact ⟨c, .head hb hc, hstuck⟩
    · exact ⟨a, .refl, fun b hb ↦ hstep ⟨b, hb⟩⟩

end Liota.Graph
