import Liota.SiUnit.UnitNames

namespace Liota.SiUnit

open Python Python.Regex
open Python.Text (Str)

variable (A : List Replace)

/-- The words of a name after the replacements in `A`. -/
def nameWords (n : Str) : List Str :=
  if n = "meter".toList then [if .meter ∈ A then "metre".toList else n]
  else if n = "degC".toList then
    if .degC ∈ A then ["degree".toList, "Celsius".toList] else [n]
  else if "Bq".toList <:+ n then
    [if .becquerel ∈ A then n.take (n.length - 2) ++ "becquerel".toList else n]
  else if "Gy".toList <:+ n then
    [if .gray ∈ A then n.take (n.length - 2) ++ "gray".toList else n]
  else [n]

def powerWords (p : ℕ) : List Str :=
  if p = 1 then []
  else if p = 2 ∧ .squared ∈ A then ["squared".toList]
  else if p = 3 ∧ .cubed ∈ A then ["cubed".toList]
  else if p = 4 ∧ .fourth ∈ A then
    ["to".toList, "the".toList, "fourth".toList, "power".toList]
  else ["**".toList, Nat.toDigits 10 p]

def factorWords (f : Factor) : List Str := nameWords A f.name ++ powerWords A f.power

def startsMetre (n : Str) : Prop := "meter".toList <+: n ∨ "metre".toList <+: n

instance (n : Str) : Decidable (startsMetre n) := inferInstanceAs (Decidable (_ ∨ _))

def openingWords (n : Str) : List Str :=
  if .reciprocal ∈ A ∧ startsMetre n then ["reciprocal".toList] else ["1".toList, "/".toList]

inductive Joint
  | times | divided

def Joint.words : Joint → List Str
  | .times => if .times ∈ A then [] else ["*".toList]
  | .divided => ["/".toList]

structure Parts where
  inverse : Bool
  first : Factor
  rest : List (Joint × Factor)

def Parts.words (s : Parts) : List Str :=
  (if s.inverse then openingWords A s.first.name else []) ++
    (factorWords A s.first ++ s.rest.flatMap fun p ↦ p.1.words A ++ factorWords A p.2)

def PintUnit.parts (u : PintUnit) : Option Parts :=
  match u.numerator, u.denominator with
  | [], [] => none
  | [], d :: ds => some ⟨true, d, ds.map fun f ↦ (.divided, f)⟩
  | f :: fs, ds => some ⟨false, f, fs.map (fun f ↦ (.times, f)) ++ ds.map fun f ↦ (.divided, f)⟩

section Names

inductive NameCase : Str → Prop
  | meter : NameCase "meter".toList
  | degC : NameCase "degC".toList
  | becquerel (x : Str) : NameCase (x ++ "Bq".toList)
  | gray (x : Str) : NameCase (x ++ "Gy".toList)
  | other {n : Str} (hmeter : n ≠ "meter".toList) (hdegC : n ≠ "degC".toList)
      (hBq : ¬ "Bq".toList <:+ n) (hGy : ¬ "Gy".toList <:+ n) : NameCase n

theorem nameCase (n : Str) : NameCase n := by
  by_cases hmeter : n = "meter".toList
  · rw [hmeter]
    exact .meter
  by_cases hdegC : n = "degC".toList
  · rw [hdegC]
    exact .degC
  by_cases hBq : "Bq".toList <:+ n
  · obtain ⟨x, rfl⟩ := hBq
    exact .becquerel x
  by_cases hGy : "Gy".toList <:+ n
  · obtain ⟨x, rfl⟩ := hGy
    exact .gray x
  exact .other hmeter hdegC hBq hGy

theorem append_ne {s w : Str} (h : ¬ s <:+ w) (x : Str) : x ++ s ≠ w := by
  intro heq
  exact h ⟨x, heq⟩

theorem not_suffix_append {s w : Str} (h : ¬ s <:+ w) (h' : ¬ w <:+ s) (x : Str) :
    ¬ s <:+ x ++ w := by
  intro hsuffix
  obtain hle | hle := List.suffix_or_suffix_of_suffix hsuffix (List.suffix_append x w)
  · exact h hle
  · exact h' hle

theorem nameWords_meter :
    nameWords A "meter".toList = if .meter ∈ A then ["metre".toList] else ["meter".toList] := by
  rw [nameWords, if_pos rfl]
  split <;> rfl

theorem nameWords_degC : nameWords A "degC".toList =
    if .degC ∈ A then ["degree".toList, "Celsius".toList] else ["degC".toList] := by
  rw [nameWords, if_neg (by decide), if_pos rfl]

theorem nameWords_becquerel (x : Str) : nameWords A (x ++ "Bq".toList) =
    if .becquerel ∈ A then [x ++ "becquerel".toList] else [x ++ "Bq".toList] := by
  rw [nameWords, if_neg (append_ne (by decide) x), if_neg (append_ne (by decide) x),
    if_pos (List.suffix_append _ _)]
  split <;> simp

theorem nameWords_gray (x : Str) : nameWords A (x ++ "Gy".toList) =
    if .gray ∈ A then [x ++ "gray".toList] else [x ++ "Gy".toList] := by
  rw [nameWords, if_neg (append_ne (by decide) x), if_neg (append_ne (by decide) x),
    if_neg (not_suffix_append (by decide) (by decide) x), if_pos (List.suffix_append _ _)]
  split <;> simp

theorem nameWords_other {n : Str} (hmeter : n ≠ "meter".toList) (hdegC : n ≠ "degC".toList)
    (hBq : ¬ "Bq".toList <:+ n) (hGy : ¬ "Gy".toList <:+ n) : nameWords A n = [n] := by
  rw [nameWords, if_neg hmeter, if_neg hdegC, if_neg hBq, if_neg hGy]

theorem nameWords_ne_nil (n : Str) : nameWords A n ≠ [] := by
  cases nameCase n with
  | meter =>
    rw [nameWords_meter]
    split <;> exact List.cons_ne_nil _ _
  | degC =>
    rw [nameWords_degC]
    split <;> exact List.cons_ne_nil _ _
  | becquerel x =>
    rw [nameWords_becquerel]
    split <;> exact List.cons_ne_nil _ _
  | gray x =>
    rw [nameWords_gray]
    split <;> exact List.cons_ne_nil _ _
  | other hmeter hdegC hBq hGy =>
    rw [nameWords_other A hmeter hdegC hBq hGy]
    exact List.cons_ne_nil _ _

theorem nameWords_wordy {n : Str} (hne : n ≠ []) (hn : Wordy n) :
    ∀ w ∈ nameWords A n, w ≠ [] ∧ Wordy w := by
  intro w hw
  cases nameCase n with
  | meter =>
    rw [nameWords_meter] at hw
    revert w
    split <;> decide
  | degC =>
    rw [nameWords_degC] at hw
    revert w
    split <;> decide
  | becquerel x =>
    rw [nameWords_becquerel] at hw
    split at hw <;> rw [List.mem_singleton.mp hw]
    · exact ⟨by simp, hn.left.append (by decide)⟩
    · exact ⟨by simp, hn⟩
  | gray x =>
    rw [nameWords_gray] at hw
    split at hw <;> rw [List.mem_singleton.mp hw]
    · exact ⟨by simp, hn.left.append (by decide)⟩
    · exact ⟨by simp, hn⟩
  | other hmeter hdegC hBq hGy =>
    rw [nameWords_other A hmeter hdegC hBq hGy, List.mem_singleton] at hw
    rw [hw]
    exact ⟨hne, hn⟩

end Names

section Powers

theorem wordy_digits (p : ℕ) : Wordy (Nat.toDigits 10 p) := by
  intro c hc
  have hdigit := Nat.isDigit_of_mem_toDigits (by decide) (by decide) hc
  simp [isWord, Char.isAlphanum, hdigit]

theorem digits_inj {p q : ℕ} (h : Nat.toDigits 10 p = Nat.toDigits 10 q) : p = q := by
  have hvalue := congrArg (fun w ↦ Nat.ofDigitChars 10 w 0) h
  simpa only [Nat.ofDigitChars_ten_toDigits] using hvalue

inductive PowerCase : ℕ → Prop
  | one : PowerCase 1
  | two : PowerCase 2
  | three : PowerCase 3
  | four : PowerCase 4
  | other {p : ℕ} (h : p ≠ 1 ∧ p ≠ 2 ∧ p ≠ 3 ∧ p ≠ 4) : PowerCase p

theorem powerCase (p : ℕ) : PowerCase p := by
  by_cases h1 : p = 1
  · exact h1 ▸ .one
  by_cases h2 : p = 2
  · exact h2 ▸ .two
  by_cases h3 : p = 3
  · exact h3 ▸ .three
  by_cases h4 : p = 4
  · exact h4 ▸ .four
  exact .other ⟨h1, h2, h3, h4⟩

theorem powerWords_one : powerWords A 1 = [] := rfl

theorem powerWords_two : powerWords A 2 =
    if .squared ∈ A then ["squared".toList] else ["**".toList, "2".toList] := by
  by_cases h : Replace.squared ∈ A
  · simp [powerWords, h]
  · simp [powerWords, h]
    rfl

theorem powerWords_three : powerWords A 3 =
    if .cubed ∈ A then ["cubed".toList] else ["**".toList, "3".toList] := by
  by_cases h : Replace.cubed ∈ A
  · simp [powerWords, h]
  · simp [powerWords, h]
    rfl

theorem powerWords_four : powerWords A 4 =
    if .fourth ∈ A then ["to".toList, "the".toList, "fourth".toList, "power".toList]
    else ["**".toList, "4".toList] := by
  by_cases h : Replace.fourth ∈ A
  · simp [powerWords, h]
  · simp [powerWords, h]
    rfl

theorem powerWords_other {p : ℕ} (h : p ≠ 1 ∧ p ≠ 2 ∧ p ≠ 3 ∧ p ≠ 4) :
    powerWords A p = ["**".toList, Nat.toDigits 10 p] := by
  simp [powerWords, h]

theorem mem_powerWords {p : ℕ} {w : Str} (h : w ∈ powerWords A p) :
    w = "**".toList ∨ w ≠ [] ∧ Wordy w := by
  cases powerCase p with
  | one => cases h
  | two =>
    rw [powerWords_two] at h
    revert w
    split <;> decide
  | three =>
    rw [powerWords_three] at h
    revert w
    split <;> decide
  | four =>
    rw [powerWords_four] at h
    revert w
    split <;> decide
  | other hp =>
    rw [powerWords_other A hp] at h
    obtain rfl | h := List.mem_cons.mp h
    · exact .inl rfl
    · rw [List.mem_singleton] at h
      rw [h]
      exact .inr ⟨Nat.toDigits_ne_nil, wordy_digits p⟩

end Powers

section Tokens

def signs : List Str := ["*".toList, "**".toList, "/".toList]

theorem mem_factorWords {f : Factor} {w : Str} (h : w ∈ factorWords A f) :
    w = "**".toList ∨ w ≠ [] ∧ Wordy w := by
  obtain h | h := List.mem_append.mp h
  · exact .inr (nameWords_wordy A f.isUnitName.1 f.isUnitName.2.1 w h)
  · exact mem_powerWords A h

theorem mem_openingWords {n w : Str} (h : w ∈ openingWords A n) :
    w ∈ signs ∨ w ≠ [] ∧ Wordy w := by
  rw [openingWords] at h
  revert w
  split <;> decide

theorem Joint.mem_words {j : Joint} {w : Str} (h : w ∈ j.words A) : w ∈ signs := by
  cases j with
  | times =>
    simp only [words] at h
    split at h
    · cases h
    · rw [List.mem_singleton.mp h]
      decide
  | divided =>
    rw [List.mem_singleton.mp h]
    decide

theorem Parts.mem_words {s : Parts} {w : Str} (h : w ∈ s.words A) :
    w ∈ signs ∨ w ≠ [] ∧ Wordy w := by
  have hfactor {f : Factor} (hw : w ∈ factorWords A f) : w ∈ signs ∨ w ≠ [] ∧ Wordy w := by
    obtain rfl | hw := mem_factorWords A hw
    · exact .inl (by decide)
    · exact .inr hw
  obtain h | h := List.mem_append.mp h
  · split at h
    · exact mem_openingWords A h
    · cases h
  obtain h | h := List.mem_append.mp h
  · exact hfactor h
  obtain ⟨p, -, h⟩ := List.mem_flatMap.mp h
  obtain h | h := List.mem_append.mp h
  · exact .inl (Joint.mem_words A h)
  · exact hfactor h

theorem signs_token : ∀ w ∈ signs, Token w := by decide

theorem Parts.words_token (s : Parts) : ∀ w ∈ s.words A, Token w := by
  intro w hw
  obtain hw | hw := s.mem_words A hw
  · exact signs_token w hw
  · exact ⟨hw.1, .inl hw.2⟩

end Tokens

section OnNames

def Replace.onNames : Replace → Bool
  | .meter | .degC | .becquerel | .gray => true
  | _ => false

def Replace.word : Replace → Str → List Str
  | .meter, w => if w = "meter".toList then ["metre".toList] else [w]
  | .degC, w => if w = "degC".toList then ["degree".toList, "Celsius".toList] else [w]
  | .becquerel, w =>
    if "Bq".toList <:+ w then [w.take (w.length - 2) ++ "becquerel".toList] else [w]
  | .gray, w => if "Gy".toList <:+ w then [w.take (w.length - 2) ++ "gray".toList] else [w]
  | _, w => [w]

variable {R : Replace}

theorem sub_phrase_onNames (hR : R.onNames = true) {ts : List Str} (hts : ∀ w ∈ ts, Token w) :
    R.pattern.sub R.repl (phrase ts) = phrase (ts.flatMap R.word) := by
  cases R with
  | meter =>
    exact sub_bounded_phrase (w := "meter".toList) (by decide) (by decide)
      (List.cons_ne_nil "metre".toList []) (by decide) hts
  | degC =>
    exact sub_bounded_phrase (w := "degC".toList) (by decide) (by decide)
      (List.cons_ne_nil "degree".toList ["Celsius".toList]) (by decide) hts
  | becquerel => exact sub_ending_phrase (w := "Bq".toList) (by decide) (by decide) hts
  | gray => exact sub_ending_phrase (w := "Gy".toList) (by decide) (by decide) hts
  | squared | cubed | fourth | reciprocal | times => cases hR

end OnNames

end Liota.SiUnit
