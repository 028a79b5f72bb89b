import Liota.Rewriting.Orders
import Liota.SiUnit.Spoken

namespace Liota.SiUnit

open Python Python.Regex Rewriting
open Python.Text (Str)

namespace Word

def kelvin : Str := ['k', 'e', 'l', 'v', 'i', 'n']

def degreeCelsius : Str :=
  ['d', 'e', 'g', 'r', 'e', 'e', ' ', 'C', 'e', 'l', 's', 'i', 'u', 's']

def kilogram : Str := ['k', 'i', 'l', 'o', 'g', 'r', 'a', 'm']

def kilogra : Str := ['k', 'i', 'l', 'o', 'g', 'r', 'a']

def metre : Str := ['m', 'e', 't', 'r', 'e']

def mole : Str := ['m', 'o', 'l', 'e']

def newton : Str := ['n', 'e', 'w', 't', 'o', 'n']

def square : Str := ['s', 'q', 'u', 'a', 'r', 'e']

def squared : Str := ['s', 'q', 'u', 'a', 'r', 'e', 'd']

def cubic : Str := ['c', 'u', 'b', 'i', 'c']

def cubed : Str := ['c', 'u', 'b', 'e', 'd']

end Word

open Word

section Words

def temperatures : List Str := [kelvin, degreeCelsius]

def twoWords (v w v' w' : Str) : Rule Char :=
  ⟨v ++ ' ' :: w, v' ++ ' ' :: w', by simp, by simp⟩

def Patch.rules : Patch → List (Rule Char)
  | .squareMetre => [twoWords Word.metre Word.squared Word.square Word.metre]
  | .cubicMetre => [twoWords Word.metre Word.cubed Word.cubic Word.metre]
  | .kilogram => temperatures.map fun k ↦ twoWords k Word.kilogram Word.kilogram k
  | .metre => temperatures.map fun k ↦ twoWords k Word.metre Word.metre k
  | .mole => temperatures.map fun k ↦ twoWords k Word.mole Word.mole k
  | .newtonMetre => [twoWords Word.metre Word.newton Word.newton Word.metre]

theorem Patch.models (p : Patch) : p.pattern.Models p.repl p.rules := by
  cases p with
  | squareMetre | cubicMetre | newtonMetre => apply models_spaced <;> decide
  | kilogram | metre | mole => apply models_either <;> decide

theorem mem_reObjPatches (p : Patch) : p ∈ reObjPatches := by
  cases p <;> decide

theorem rules_clean : ∀ p ∈ reObjPatches, ∀ r ∈ p.rules, Clean r.rep := by decide

theorem applyPatches_eq {t : Str} (ht : Clean t) (ps : List Patch) :
    applyPatches ps t = run Patch.rules ps t := by
  induction ps generalizing t with
  | nil => rfl
  | cons p ps ih =>
    have hpass : p.pattern.sub p.repl t = replace p.rules t := p.models.subFrom_eq ht
    have hclean : Clean (replace p.rules t) := by
      intro c hc
      obtain hc | ⟨r, hr, hc⟩ := mem_of_mem_replace hc
      · exact ht c hc
      · exact rules_clean p (mem_reObjPatches p) r hr c hc
    rw [applyPatches, List.foldl_cons, hpass]
    exact ih hclean

end Words

section Marks

def swapped : List (Str × Patch) :=
  [(kilogram, .kilogram), (metre, .metre), (mole, .mole)]

/-- The words that are patched behind `metre`. -/
def behindMetre : List (Str × Patch) :=
  [(squared, .squareMetre), (cubed, .cubicMetre), (newton, .newtonMetre)]

def different (ws : List (Str × Patch)) : List ((Str × Patch) × (Str × Patch)) :=
  (ws.product ws).filter fun p ↦ p.1.2 ≠ p.2.2

def marks : Marks Char Patch where
  gains :=
    (temperatures.flatMap fun k ↦ (different swapped).map fun (y, z) ↦
      (k ++ ' ' :: (y.1 ++ ' ' :: z.1), [y.2], z.2)) ++
    ((different behindMetre).map fun (y, z) ↦
      (metre ++ ' ' :: (y.1 ++ ' ' :: z.1), [y.2], z.2)) ++
    (temperatures.product temperatures).flatMap fun (k, k') ↦
      (swapped.drop 1).flatMap fun z ↦
        (k ++ ' ' :: (kilogra ++ (k' ++ ' ' :: z.1)), [z.2], .kilogram) ::
        (swapped.drop 1).map fun y ↦
          (k ++ ' ' :: (y.1 ++ ' ' :: (kilogra ++ (k' ++ ' ' :: z.1))),
            if y.2 = z.2 then [y.2] else [y.2, z.2], .kilogram)
  losses :=
    (temperatures.product behindMetre).flatMap (fun (k, a) ↦
      [(k ++ ' ' :: (metre ++ ' ' :: a.1), a.2, .metre),
        (k ++ ' ' :: (kilogra ++ (metre ++ ' ' :: a.1)), a.2, .kilogram)]) ++
    swapped.flatMap fun y ↦
      [(metre ++ ' ' :: (square ++ (degreeCelsius ++ ' ' :: y.1)), y.2, .squareMetre),
        (metre ++ ' ' :: (cubed.dropLast ++ (degreeCelsius ++ ' ' :: y.1)), y.2, .cubicMetre)]

theorem separate_rules : ∀ p ∈ reObjPatches, Separate p.rules := by decide +kernel

theorem settled_rules : Settled Patch.rules reObjPatches marks.words where
  apart := by decide +kernel
  settles := by decide +kernel

theorem tell_marks : marks.Tell Patch.rules reObjPatches where
  gains := by decide +kernel
  losses := by decide +kernel

end Marks

section Measures

def letter (c d : Char) : ℤ := if d = c then 1 else 0

/-- What each letter counts in the number that a patch raises, and what it counts for each blank
before it. -/
def weights : Patch → (Char → ℤ) × (Char → ℤ)
  | .squareMetre => (fun _ ↦ -1, fun _ ↦ 0)
  | .cubicMetre => (letter 'i', fun _ ↦ 0)
  | .kilogram => (fun _ ↦ 0, fun c ↦ letter 'C' c - letter 'g' c)
  | .metre => (fun c ↦ letter 'i' c - 1, fun c ↦ -letter 't' c)
  | .mole => (fun _ ↦ 0, fun c ↦ letter 'g' c + letter 'w' c - letter 'o' c - letter 'C' c)
  | .newtonMetre => (fun _ ↦ 0, fun c ↦ -letter 'w' c)

/-- A number that the patch raises and the others leave alone. -/
def measure (p : Patch) (t : Str) : ℤ := statistic (weights p).1 (weights p).2 (letter ' ') 0 t

def gain (p : Patch) (r : Rule Char) : ℤ := measure p r.rep - measure p r.pat

def Balanced (p : Patch) (r : Rule Char) : Prop :=
  (r.rep.map (letter ' ')).sum = (r.pat.map (letter ' ')).sum ∧
    (r.rep.map (weights p).2).sum = (r.pat.map (weights p).2).sum

instance (p : Patch) (r : Rule Char) : Decidable (Balanced p r) :=
  inferInstanceAs (Decidable (_ ∧ _))

theorem Balanced.shifts {p : Patch} {r : Rule Char} (h : Balanced p r) :
    Shifts (measure p) r (gain p r) := shifts_statistic _ _ _ h.1 h.2

theorem balanced_rules : ∀ p ∈ reObjPatches, ∀ q ∈ reObjPatches, ∀ r ∈ q.rules,
    Balanced p r ∧ if q = p then 0 < gain p r else gain p r = 0 := by
  decide +kernel

theorem measured_rules : Measured Patch.rules reObjPatches measure gain where
  separate := separate_rules
  raises p hp r hr := by
    obtain ⟨hbalanced, hgain⟩ := balanced_rules p hp p hp r hr
    rw [if_pos rfl] at hgain
    exact ⟨hgain, hbalanced.shifts⟩
  leaves p hp q hq hne r hr := by
    obtain ⟨hbalanced, hgain⟩ := balanced_rules p hp q hq r hr
    rw [if_neg hne] at hgain
    exact hgain ▸ hbalanced.shifts

theorem patches_orderFree_iff (t : Str) :
    OrderFree Patch.rules reObjPatches t ↔ Clear marks.words t :=
  orderFree_iff_clear (by decide) settled_rules measured_rules tell_marks t

end Measures

section TableOrder

def SameInAnyOrder (unit : Option PintUnit) : Prop :=
  ∀ replaces replaces' patches patches',
    replaces.Perm reObjReplaces → replaces'.Perm reObjReplaces →
    patches.Perm reObjPatches → patches'.Perm reObjPatches →
    getUnitName replaces patches unit = getUnitName replaces' patches' unit

/-- The name of a unit does not depend on the order of the tables if and only if it has none, or no
two patches meet in the words in which it is read. -/
theorem sameInAnyOrder_iff (u : PintUnit) :
    SameInAnyOrder (some u) ↔
      (u.numerator = [] ∧ u.denominator = []) ∨ ¬ u.Readable ∨
        Clear marks.words (phrase u.spoken) := by
  have hclean := clean_phrase u.spoken_token
  by_cases hnone : u.numerator = [] ∧ u.denominator = []
  · simp only [hnone, and_self, true_or, iff_true]
    intro rs rs' ps ps' hrs hrs' _ _
    rw [getUnitName_eq hrs, getUnitName_eq hrs', if_pos hnone, if_pos hnone]
  by_cases hread : u.Readable
  · simp only [hnone, hread, not_true, false_or, ← patches_orderFree_iff]
    have hname {rs : List Replace} (hrs : rs.Perm reObjReplaces) (ps : List Patch) :
        getUnitName rs ps (some u) = .ok (some (run Patch.rules ps (phrase u.spoken))) := by
      rw [getUnitName_eq hrs, if_neg hnone, if_pos hread, applyPatches_eq hclean]
    constructor
    · intro hsame ps ps' hps hps'
      have hnames := hsame _ _ ps ps' (List.Perm.refl _) (List.Perm.refl _) hps hps'
      rw [hname (List.Perm.refl _), hname (List.Perm.refl _)] at hnames
      exact Option.some.inj (Except.ok.inj hnames)
    · intro hfree rs rs' ps ps' hrs hrs' hps hps'
      rw [hname hrs, hname hrs', hfree ps ps' hps hps']
  · simp only [hread, not_false_eq_true, true_or, or_true, iff_true]
    intro rs rs' ps ps' hrs hrs' _ _
    rw [getUnitName_eq hrs, getUnitName_eq hrs', if_neg hnone, if_neg hnone, if_neg hread,
      if_neg hread]

/-- `watt / kelvin / meter ** 2` -/
def heatTransfer : PintUnit :=
  ⟨[⟨"watt".toList, 1, by decide, by decide⟩],
    [⟨"kelvin".toList, 1, by decide, by decide⟩, ⟨"meter".toList, 2, by decide, by decide⟩]⟩

/-- `joule / kelvin / kilogram / meter` -/
def heatPerLength : PintUnit :=
  ⟨[⟨"joule".toList, 1, by decide, by decide⟩],
    [⟨"kelvin".toList, 1, by decide, by decide⟩, ⟨"kilogram".toList, 1, by decide, by decide⟩,
      ⟨"meter".toList, 1, by decide, by decide⟩]⟩

/-- A heat transfer coefficient is read in two ways. -/
theorem heatTransfer_order : ¬ ∀ u : PintUnit, SameInAnyOrder (some u) := by
  intro h
  have hsame := h heatTransfer reObjReplaces reObjReplaces reObjPatches reObjPatches.reverse
    (List.Perm.refl _) (List.Perm.refl _) (List.Perm.refl _) (List.reverse_perm _)
  have hfirst : (getUnitName reObjReplaces reObjPatches (some heatTransfer)).toOption =
      some (some "watt per kelvin square metre".toList) := by
    decide +kernel
  have hother : (getUnitName reObjReplaces reObjPatches.reverse (some heatTransfer)).toOption =
      some (some "watt per metre kelvin squared".toList) := by
    decide +kernel
  rw [hsame, hother] at hfirst
  exact absurd hfirst (by decide)

end TableOrder

end Liota.SiUnit
