import Liota.SiUnit.Words

namespace Liota.SiUnit

open Python Python.Regex
open Python.Text (Str)

variable {A : List Replace} {R : Replace}

section OnNames

def Fixed (w : Str) : Prop :=
  w ≠ "meter".toList ∧ w ≠ "degC".toList ∧ ¬ "Bq".toList <:+ w ∧ ¬ "Gy".toList <:+ w

instance (w : Str) : Decidable (Fixed w) := inferInstanceAs (Decidable (_ ∧ _ ∧ _ ∧ _))

theorem Fixed.word {w : Str} (h : Fixed w) (R : Replace) : R.word w = [w] := by
  obtain ⟨hmeter, hdegC, hBq, hGy⟩ := h
  cases R with
  | meter => exact if_neg hmeter
  | degC => exact if_neg hdegC
  | becquerel => exact if_neg hBq
  | gray => exact if_neg hGy
  | squared | cubed | fourth | reciprocal | times => rfl

theorem flatMap_word {ws : List Str} (h : ∀ w ∈ ws, Fixed w) (R : Replace) :
    ws.flatMap R.word = ws := by
  induction ws with
  | nil => rfl
  | cons w ws ih =>
    obtain ⟨hw, hws⟩ := List.forall_mem_cons.mp h
    rw [List.flatMap_cons, hw.word, ih hws, List.singleton_append]

theorem fixed_append {s : Str} (h : ¬ s <:+ "meter".toList ∧ ¬ s <:+ "degC".toList ∧
      (¬ "Bq".toList <:+ s ∧ ¬ s <:+ "Bq".toList) ∧ ¬ "Gy".toList <:+ s ∧ ¬ s <:+ "Gy".toList)
    (x : Str) : Fixed (x ++ s) := by
  obtain ⟨hmeter, hdegC, hBq, hGy⟩ := h
  exact ⟨append_ne hmeter x, append_ne hdegC x, not_suffix_append hBq.1 hBq.2 x,
    not_suffix_append hGy.1 hGy.2 x⟩

theorem fixed_of_digits {w : Str} (h : ∀ c ∈ w, c.isDigit) : Fixed w := by
  have hnot {c : Char} (hc : c.isDigit = false) : c ∉ w := by
    intro hmem
    rw [h c hmem] at hc
    exact absurd hc Bool.false_ne_true.symm
  refine ⟨?_, ?_, ?_, ?_⟩
  · rintro rfl
    exact hnot (c := 'm') (by decide) (by decide)
  · rintro rfl
    exact hnot (c := 'd') (by decide) (by decide)
  · intro hsuffix
    exact hnot (c := 'B') (by decide) (hsuffix.subset (by decide))
  · intro hsuffix
    exact hnot (c := 'G') (by decide) (hsuffix.subset (by decide))

theorem flatMap_own {n w : Str} {ws : List Str} {own : Replace}
    (hwords : ∀ A, nameWords A n = if own ∈ A then ws else [w]) (hown : own.word w = ws)
    (hother : ∀ R, R ≠ own → R.word w = [w]) (hws : ∀ v ∈ ws, Fixed v) (A : List Replace)
    (R : Replace) : (nameWords A n).flatMap R.word = nameWords (R :: A) n := by
  rw [hwords, hwords]
  by_cases hA : own ∈ A
  · rw [if_pos hA, if_pos (List.mem_cons_of_mem R hA), flatMap_word hws]
  · rw [if_neg hA, List.flatMap_singleton]
    by_cases hR : R = own
    · rw [hR, if_pos List.mem_cons_self, hown]
    · rw [hother R hR, if_neg]
      intro hmem
      obtain heq | hmem := List.mem_cons.mp hmem
      · exact hR heq.symm
      · exact hA hmem

theorem nameWords_flatMap (A : List Replace) (R : Replace) (n : Str) :
    (nameWords A n).flatMap R.word = nameWords (R :: A) n := by
  cases nameCase n with
  | meter =>
    apply flatMap_own nameWords_meter rfl _ (by decide)
    intro R hR
    cases R <;> first | rfl | exact absurd rfl hR
  | degC =>
    apply flatMap_own nameWords_degC rfl _ (by decide)
    intro R hR
    cases R <;> first | rfl | exact absurd rfl hR
  | becquerel x =>
    apply flatMap_own fun A ↦ nameWords_becquerel A x
    · rw [Replace.word, if_pos (List.suffix_append _ _)]
      simp
    · intro R hR
      cases R with
      | meter => exact if_neg (append_ne (by decide) x)
      | degC => exact if_neg (append_ne (by decide) x)
      | gray => exact if_neg (not_suffix_append (by decide) (by decide) x)
      | becquerel => exact absurd rfl hR
      | squared | cubed | fourth | reciprocal | times => rfl
    · exact List.forall_mem_singleton.mpr (fixed_append (by decide) x)
  | gray x =>
    apply flatMap_own fun A ↦ nameWords_gray A x
    · rw [Replace.word, if_pos (List.suffix_append _ _)]
      simp
    · intro R hR
      cases R with
      | meter => exact if_neg (append_ne (by decide) x)
      | degC => exact if_neg (append_ne (by decide) x)
      | becquerel => exact if_neg (not_suffix_append (by decide) (by decide) x)
      | gray => exact absurd rfl hR
      | squared | cubed | fourth | reciprocal | times => rfl
    · exact List.forall_mem_singleton.mpr (fixed_append (by decide) x)
  | other hmeter hdegC hBq hGy =>
    rw [nameWords_other A hmeter hdegC hBq hGy, nameWords_other _ hmeter hdegC hBq hGy]
    exact flatMap_word (List.forall_mem_singleton.mpr ⟨hmeter, hdegC, hBq, hGy⟩) R

theorem nameWords_of_not_onNames (hR : R.onNames = false) (n : Str) :
    nameWords (R :: A) n = nameWords A n := by
  rw [← nameWords_flatMap]
  have hword (w : Str) : R.word w = [w] := by
    cases R with
    | meter | degC | becquerel | gray => cases hR
    | squared | cubed | fourth | reciprocal | times => rfl
  induction nameWords A n with
  | nil => rfl
  | cons w ws ih => rw [List.flatMap_cons, hword, ih, List.singleton_append]

theorem mem_cons_iff_of_ne {Q : Replace} (h : R ≠ Q) : Q ∈ R :: A ↔ Q ∈ A := by
  simp [h.symm]

theorem powerWords_of_ne {p : ℕ} (h : R ≠ .squared ∧ R ≠ .cubed ∧ R ≠ .fourth) :
    powerWords (R :: A) p = powerWords A p := by
  obtain ⟨hsquared, hcubed, hfourth⟩ := h
  simp only [powerWords, mem_cons_iff_of_ne hsquared, mem_cons_iff_of_ne hcubed,
    mem_cons_iff_of_ne hfourth]

theorem fixed_powerWords (p : ℕ) : ∀ w ∈ powerWords A p, Fixed w := by
  cases powerCase p with
  | one => exact fun w hw ↦ absurd hw List.not_mem_nil
  | two =>
    rw [powerWords_two]
    split <;> decide
  | three =>
    rw [powerWords_three]
    split <;> decide
  | four =>
    rw [powerWords_four]
    split <;> decide
  | other hp =>
    rw [powerWords_other A hp]
    intro w hw
    obtain rfl | hw := List.mem_cons.mp hw
    · decide
    · rw [List.mem_singleton.mp hw]
      exact fixed_of_digits fun c hc ↦ Nat.isDigit_of_mem_toDigits (by decide) (by decide) hc

theorem ne_of_onNames (hR : R.onNames = true) :
    (R ≠ .squared ∧ R ≠ .cubed ∧ R ≠ .fourth) ∧ R ≠ .reciprocal ∧ R ≠ .times := by
  cases R with
  | meter | degC | becquerel | gray => decide
  | squared | cubed | fourth | reciprocal | times => cases hR

theorem factorWords_flatMap (hR : R.onNames = true) (f : Factor) :
    (factorWords A f).flatMap R.word = factorWords (R :: A) f := by
  rw [factorWords, factorWords, List.flatMap_append, nameWords_flatMap,
    flatMap_word (fixed_powerWords _), powerWords_of_ne (ne_of_onNames hR).1]

theorem Joint.words_of_ne (hR : R ≠ .times) (j : Joint) : j.words (R :: A) = j.words A := by
  cases j with
  | times => simp only [words, mem_cons_iff_of_ne hR]
  | divided => rfl

theorem openingWords_of_ne (hR : R ≠ .reciprocal) (n : Str) :
    openingWords (R :: A) n = openingWords A n := by
  simp only [openingWords, mem_cons_iff_of_ne hR]

theorem words_flatMap (hR : R.onNames = true) (s : Parts) :
    (s.words A).flatMap R.word = s.words (R :: A) := by
  obtain ⟨-, hreciprocal, htimes⟩ := ne_of_onNames hR
  have hjoint (j : Joint) : (j.words A).flatMap R.word = j.words (R :: A) := by
    rw [Joint.words_of_ne htimes]
    have hsigns : ∀ w ∈ signs, Fixed w := by decide
    exact flatMap_word (fun w hw ↦ hsigns w (Joint.mem_words A hw)) R
  have hopening (n : Str) : (openingWords A n).flatMap R.word = openingWords (R :: A) n := by
    rw [openingWords_of_ne hreciprocal]
    apply flatMap_word
    rw [openingWords]
    split <;> decide
  rw [Parts.words, Parts.words, List.flatMap_append, List.flatMap_append,
    factorWords_flatMap hR, List.flatMap_assoc]
  congr 2
  · split
    · exact hopening _
    · rfl
  · apply List.flatMap_congr
    intro p _
    rw [List.flatMap_append, hjoint, factorWords_flatMap hR]

theorem sub_words_onNames (hR : R.onNames = true) (s : Parts) :
    R.pattern.sub R.repl (phrase (s.words A)) = phrase (s.words (R :: A)) := by
  rw [sub_phrase_onNames hR (s.words_token A), words_flatMap hR]

end OnNames

section Powers

variable {q : ℕ} {news : List Str}

theorem powerWords_eq_or (A : List Replace) (p : ℕ) :
    powerWords A p = ["**".toList, Nat.toDigits 10 p] ∨ "**".toList ∉ powerWords A p := by
  cases powerCase p with
  | one => exact .inr List.not_mem_nil
  | two =>
    rw [powerWords_two]
    split
    · exact .inr (by decide)
    · exact .inl rfl
  | three =>
    rw [powerWords_three]
    split
    · exact .inr (by decide)
    · exact .inl rfl
  | four =>
    rw [powerWords_four]
    split
    · exact .inr (by decide)
    · exact .inl rfl
  | other hp => exact .inl (powerWords_other A hp)

structure OnPower (R : Replace) (q : ℕ) (news : List Str) : Prop where
  own : ∀ A, powerWords A q = if R ∈ A then news else ["**".toList, Nat.toDigits 10 q]
  other : ∀ A p, p ≠ q → powerWords (R :: A) p = powerWords A p
  pattern_eq : R.pattern = ending ("**".toList ++ ' ' :: Nat.toDigits 10 q)
  repl_eq : R.repl [] = phrase news
  news_ne_nil : news ≠ []
  not_sign : "**".toList ∉ news
  others : R.onNames = false ∧ R ≠ .reciprocal ∧ R ≠ .times

theorem stars_ne_digits (p : ℕ) : Nat.toDigits 10 p ≠ "**".toList := by
  intro h
  have hword := wordy_digits p '*' (h ▸ by decide)
  exact absurd hword (by decide)

namespace OnPower

theorem joinPairs_powerWords (h : OnPower R q news) (p : ℕ) (ts : List Str) :
    joinPairs "**".toList (Nat.toDigits 10 q) news (powerWords A p ++ ts) =
      powerWords (R :: A) p ++ joinPairs "**".toList (Nat.toDigits 10 q) news ts := by
  by_cases hp : p = q
  · rw [hp, h.own, h.own, if_pos List.mem_cons_self]
    split
    · exact joinPairs_append _ _ h.not_sign ts
    · exact joinPairs_pair _ _ _ ts
  · rw [h.other A p hp]
    obtain heq | hno := powerWords_eq_or A p
    · have hdigits : Nat.toDigits 10 p ≠ Nat.toDigits 10 q := fun heq ↦ hp (digits_inj heq)
      rw [heq, List.cons_append, List.cons_append, List.nil_append, joinPairs_of_ne _ _ hdigits,
        joinPairs_cons_of_ne _ _ (stars_ne_digits p)]
      rfl
    · exact joinPairs_append _ _ hno ts

theorem joinPairs_factorWords (h : OnPower R q news) (f : Factor) (ts : List Str) :
    joinPairs "**".toList (Nat.toDigits 10 q) news (factorWords A f ++ ts) =
      factorWords (R :: A) f ++ joinPairs "**".toList (Nat.toDigits 10 q) news ts := by
  have hname : "**".toList ∉ nameWords A f.name := by
    intro hmem
    have hwordy := (nameWords_wordy A f.isUnitName.1 f.isUnitName.2.1 _ hmem).2
    exact absurd hwordy (by decide)
  rw [factorWords, factorWords, nameWords_of_not_onNames h.others.1, List.append_assoc,
    joinPairs_append _ _ hname, h.joinPairs_powerWords, List.append_assoc]

theorem joinPairs_rest (h : OnPower R q news) (rest : List (Joint × Factor)) :
    joinPairs "**".toList (Nat.toDigits 10 q) news
        (rest.flatMap fun p ↦ p.1.words A ++ factorWords A p.2) =
      rest.flatMap fun p ↦ p.1.words (R :: A) ++ factorWords (R :: A) p.2 := by
  induction rest with
  | nil => simp [joinPairs]
  | cons p rest ih =>
    have hjoint : "**".toList ∉ p.1.words A := by
      cases p.1 with
      | times =>
        simp only [Joint.words]
        split <;> decide
      | divided => exact (by decide : "**".toList ∉ ["/".toList])
    rw [List.flatMap_cons, List.flatMap_cons, Joint.words_of_ne h.others.2.2, List.append_assoc,
      joinPairs_append _ _ hjoint, h.joinPairs_factorWords, ih, List.append_assoc]

theorem joinPairs_words (h : OnPower R q news) (s : Parts) :
    joinPairs "**".toList (Nat.toDigits 10 q) news (s.words A) = s.words (R :: A) := by
  have hopening : "**".toList ∉ (if s.inverse then openingWords A s.first.name else []) := by
    split
    · rw [openingWords]
      split <;> decide
    · exact List.not_mem_nil
  rw [Parts.words, Parts.words, joinPairs_append _ _ hopening, h.joinPairs_factorWords,
    h.joinPairs_rest, openingWords_of_ne h.others.2.1]

theorem sub_words (h : OnPower R q news) (s : Parts) :
    R.pattern.sub R.repl (phrase (s.words A)) = phrase (s.words (R :: A)) := by
  have hends : ∀ w ∈ s.words A, "**".toList <:+ w → w = "**".toList := by
    intro w hw hsuffix
    obtain hw | hw := s.mem_words A hw
    · have hsigns : ∀ w ∈ signs, "**".toList <:+ w → w = "**".toList := by decide
      exact hsigns w hw hsuffix
    · exact absurd (hw.2 '*' (hsuffix.subset (by decide))) (by decide)
  rw [h.pattern_eq, ← h.joinPairs_words]
  exact subFrom_pair (by decide) (by decide) (wordy_digits q) Nat.toDigits_ne_nil h.news_ne_nil
    h.repl_eq (s.words_token A) hends none

end OnPower

theorem onPower_squared : OnPower .squared 2 ["squared".toList] where
  own := powerWords_two
  other A p hp := by
    simp only [powerWords, mem_cons_iff_of_ne, ne_eq, reduceCtorEq, not_false_eq_true, hp,
      false_and, if_false]
  pattern_eq := rfl
  repl_eq := by decide
  news_ne_nil := List.cons_ne_nil _ _
  not_sign := by decide
  others := by decide

theorem onPower_cubed : OnPower .cubed 3 ["cubed".toList] where
  own := powerWords_three
  other A p hp := by
    simp only [powerWords, mem_cons_iff_of_ne, ne_eq, reduceCtorEq, not_false_eq_true, hp,
      false_and, if_false]
  pattern_eq := rfl
  repl_eq := by decide
  news_ne_nil := List.cons_ne_nil _ _
  not_sign := by decide
  others := by decide

theorem onPower_fourth :
    OnPower .fourth 4 ["to".toList, "the".toList, "fourth".toList, "power".toList] where
  own := powerWords_four
  other A p hp := by
    simp only [powerWords, mem_cons_iff_of_ne, ne_eq, reduceCtorEq, not_false_eq_true, hp,
      false_and, if_false]
  pattern_eq := rfl
  repl_eq := by decide
  news_ne_nil := List.cons_ne_nil _ _
  not_sign := by decide
  others := by decide

end Powers

section Times

theorem star_notMem_factorWords (f : Factor) : "*".toList ∉ factorWords A f := by
  intro hmem
  obtain heq | hw := mem_factorWords A hmem
  · exact absurd heq (by decide)
  · exact absurd hw.2 (by decide)

theorem factorWords_ne_nil (f : Factor) : factorWords A f ≠ [] := by
  intro h
  exact nameWords_ne_nil A f.name (List.append_eq_nil_iff.mp h).1

theorem factorWords_times (f : Factor) : factorWords (.times :: A) f = factorWords A f := by
  rw [factorWords, factorWords, nameWords_of_not_onNames rfl, powerWords_of_ne (by decide)]

theorem dropBetween_rest (rest : List (Joint × Factor)) :
    dropBetween "*".toList (rest.flatMap fun p ↦ p.1.words A ++ factorWords A p.2) =
      rest.flatMap fun p ↦ p.1.words (.times :: A) ++ factorWords (.times :: A) p.2 := by
  induction rest with
  | nil => simp [dropBetween]
  | cons p rest ih =>
    obtain ⟨j, f⟩ := p
    have hstar := star_notMem_factorWords (A := A) f
    rw [List.flatMap_cons, List.flatMap_cons, factorWords_times, ← ih]
    cases j with
    | times =>
      simp only [Joint.words, if_pos List.mem_cons_self, List.nil_append]
      split
      · exact dropBetween_append hstar _
      · exact dropBetween_first hstar (factorWords_ne_nil f) _
    | divided =>
      have hdivided : "*".toList ∉ "/".toList :: factorWords A f := by
        intro hmem
        obtain heq | hmem := List.mem_cons.mp hmem
        · exact absurd heq (by decide)
        · exact hstar hmem
      exact dropBetween_append hdivided _

theorem sub_words_times (s : Parts) : Replace.times.pattern.sub Replace.times.repl
    (phrase (s.words A)) = phrase (s.words (.times :: A)) := by
  have hbegin : "*".toList ∉ (if s.inverse then openingWords A s.first.name else []) ++
      factorWords A s.first := by
    intro hmem
    obtain hmem | hmem := List.mem_append.mp hmem
    · revert hmem
      split
      · rw [openingWords]
        split <;> decide
      · exact List.not_mem_nil
    · exact star_notMem_factorWords _ hmem
  have hwords : dropBetween "*".toList (s.words A) = s.words (.times :: A) := by
    rw [Parts.words, Parts.words, ← List.append_assoc, dropBetween_append hbegin,
      dropBetween_rest, factorWords_times, openingWords_of_ne (by decide), List.append_assoc]
  have hrepl : Replace.times.repl [] = [' '] := rfl
  rw [← hwords]
  apply sub_between_phrase (a := "*".toList) (by decide) hrepl (s.words_token A)
  intro hhead
  apply hbegin
  have hne : (if s.inverse then openingWords A s.first.name else []) ++
      factorWords A s.first ≠ [] := by
    intro h
    exact factorWords_ne_nil _ (List.append_eq_nil_iff.mp h).2
  rw [Parts.words, ← List.append_assoc, List.head?_append_of_ne_nil _ hne] at hhead
  exact List.mem_of_mem_head? hhead

end Times

section Reciprocal

theorem no_opening {r : Regex} {repl : Str → Str} {prev : Option Char} {t : Str} (hclean : Clean t)
    (h : atBoundary prev t = true → ¬ "1 / ".toList <+: t) :
    (Regex.seq .boundary (.seq (spaced "1 / ".toList) r)).hit repl prev t = none := by
  rw [hit, ends, ends]
  by_cases hbegin : atBoundary prev t = true
  · simp only [hbegin, if_true, List.flatMap_cons, List.flatMap_nil, List.append_nil]
    rw [ends, ends_spaced hclean, if_neg (h hbegin)]
    rfl
  · simp [hbegin]

theorem eq_one_of_opening {x t : Str} (hblank : ' ' ∉ x)
    (ht : t = [] ∨ ∃ t', t = ' ' :: t') (h : "1 / ".toList <+: x ++ t) : x = "1".toList := by
  obtain rfl | ⟨t', rfl⟩ := ht
  · rw [List.append_nil] at h
    exact absurd (h.subset (by decide)) hblank
  · have hsplit : "1".toList ++ ' ' :: "/ ".toList <+: x ++ ' ' :: t' := h
    exact (split_at_blank (by decide) hblank hsplit).1.symm

theorem spread_cases (ts : List Str) : spread ts = [] ∨ ∃ t, spread ts = ' ' :: t := by
  cases ts with
  | nil => exact .inl rfl
  | cons w ts => exact .inr ⟨_, spread_cons w ts⟩

variable {prev : Option Char} {ts : List Str}

theorem reciprocal_inside {z : Str} (hz : Wordy z) (hts : ∀ w ∈ ts, Token w)
    (hprev : prev.any isWord = true) :
    Replace.reciprocal.pattern.subFrom Replace.reciprocal.repl prev 0 (z ++ spread ts) =
      z ++ Replace.reciprocal.pattern.subFrom Replace.reciprocal.repl (after prev z) 0
        (spread ts) := by
  apply subFrom_append_of_none
  intro u v hv hne
  have hwordy : Wordy v := fun c hc ↦ hz c (hv ▸ List.mem_append_right u hc)
  apply no_opening (hwordy.clean.append (clean_spread hts))
  intro hbegin
  have hbefore : (after prev u).any isWord = true := by
    by_cases hu : u = []
    · rw [hu]
      exact hprev
    · exact (hv ▸ hz : Wordy (u ++ v)).left.after hu prev
  obtain ⟨c, v, rfl⟩ := List.exists_cons_of_ne_nil hne
  have hc := hwordy c List.mem_cons_self
  simp [atBoundary, hbefore, hc] at hbegin

theorem reciprocal_word {w : Str} (hw : Token w) (hone : w ≠ "1".toList)
    (hts : ∀ w ∈ ts, Token w) (prev : Option Char) :
    Replace.reciprocal.pattern.subFrom Replace.reciprocal.repl prev 0 (w ++ spread ts) =
      w ++ Replace.reciprocal.pattern.subFrom Replace.reciprocal.repl (after prev w) 0
        (spread ts) := by
  apply subFrom_append_of_none
  intro u v hv _
  have hmem {c : Char} (hc : c ∈ v) : c ∈ w := hv ▸ List.mem_append_right u hc
  have hclean : Clean v := fun c hc ↦ hw.clean c (hmem hc)
  apply no_opening (hclean.append (clean_spread hts))
  intro hbegin hpre
  have hvone := eq_one_of_opening (fun hc ↦ hw.blank_notMem (hmem hc)) (spread_cases ts) hpre
  have hwordy : Wordy w := by
    obtain ⟨-, hw | hw⟩ := hw
    · exact hw
    · have hsign := hw '1' (hmem (hvone ▸ by decide))
      exact absurd hsign (by decide)
  have hu : u ≠ [] := by
    rintro rfl
    exact hone (hv.trans hvone)
  have hbefore := (hv ▸ hwordy : Wordy (u ++ v)).left.after hu prev
  have hhead : ("1".toList ++ spread ts).head? = some '1' := rfl
  rw [hvone, atBoundary, hbefore, hhead] at hbegin
  exact absurd hbegin (by decide)

theorem reciprocal_spread (hts : ∀ w ∈ ts, Token w) (hone : "1".toList ∉ ts)
    (prev : Option Char) :
    Replace.reciprocal.pattern.subFrom Replace.reciprocal.repl prev 0 (spread ts) =
      spread ts := by
  induction ts generalizing prev with
  | nil => rfl
  | cons w ts ih =>
    obtain ⟨hw, hrest⟩ := List.forall_mem_cons.mp hts
    obtain ⟨hwone, hone⟩ := not_or.mp (List.mem_cons.not.mp hone)
    have hclean := clean_spread hts
    rw [spread_cons] at hclean ⊢
    have hnone : Replace.reciprocal.pattern.hit Replace.reciprocal.repl prev
        (' ' :: (w ++ spread ts)) = none :=
      no_opening hclean fun _ hpre ↦ absurd (List.cons_prefix_cons.mp hpre).1 (by decide)
    rw [subFrom_of_none hnone, reciprocal_word hw (Ne.symm hwone) hrest, ih hrest hone]

theorem sub_phrase_no_one (hts : ∀ w ∈ ts, Token w) (hone : "1".toList ∉ ts) :
    Replace.reciprocal.pattern.sub Replace.reciprocal.repl (phrase ts) = phrase ts := by
  cases ts with
  | nil => rfl
  | cons w ts =>
    obtain ⟨hw, hrest⟩ := List.forall_mem_cons.mp hts
    obtain ⟨hwone, hone⟩ := not_or.mp (List.mem_cons.not.mp hone)
    have hword := reciprocal_word hw (Ne.symm hwone) hrest none
    rw [reciprocal_spread hrest hone] at hword
    exact hword

theorem reciprocal_hit {t : Str} (hclean : Clean t)
    (hbegin : atBoundary prev ("1 / ".toList ++ t)) :
    Replace.reciprocal.pattern.hit Replace.reciprocal.repl prev ("1 / ".toList ++ t) =
      if "meter".toList <+: t then some ("reciprocal meter".toList, t.drop 5)
      else if "metre".toList <+: t then some ("reciprocal metre".toList, t.drop 5)
      else none := by
  have hwhole : Clean ("1 / ".toList ++ t) := (by decide : Clean "1 / ".toList).append hclean
  have hunfold : Replace.reciprocal.pattern = .seq .boundary
    (.seq (spaced "1 / ".toList) (either "meter".toList "metre".toList)) := rfl
  rw [hunfold, hit, ends, ends, if_pos hbegin, List.flatMap_singleton, ends,
    ends_spaced hwhole, if_pos (List.prefix_append _ _), List.drop_left, List.flatMap_singleton,
    ends_either hclean]
  by_cases hmeter : "meter".toList <+: t
  · rw [if_pos hmeter, if_pos hmeter]
    rfl
  · rw [if_neg hmeter, if_neg hmeter]
    by_cases hmetre : "metre".toList <+: t
    · rw [if_pos hmetre, if_pos hmetre]
      rfl
    · rw [if_neg hmetre, if_neg hmetre]
      rfl

theorem prefix_word_iff {m n : Str} (hm : ' ' ∉ m) (ts : List Str) :
    m <+: n ++ spread ts ↔ m <+: n := by
  constructor
  · intro h
    obtain hle | hle := List.prefix_or_prefix_of_prefix h (List.prefix_append n _)
    · exact hle
    · obtain ⟨z, rfl⟩ := hle
      rw [List.prefix_append_right_inj] at h
      cases z with
      | nil => simp
      | cons c z =>
        obtain hnil | ⟨t, ht⟩ := spread_cases ts
        · rw [hnil] at h
          exact absurd (List.prefix_nil.mp h) (List.cons_ne_nil c z)
        · rw [ht] at h
          have hc := (List.cons_prefix_cons.mp h).1
          exact absurd (hc ▸ by simp) hm
  · intro h
    exact h.trans (List.prefix_append n _)

theorem sub_phrase_one {n : Str} (hne : n ≠ []) (hn : Wordy n) (hnone : n ≠ "1".toList)
    (hts : ∀ w ∈ ts, Token w) (hone : "1".toList ∉ ts) :
    Replace.reciprocal.pattern.sub Replace.reciprocal.repl
        (phrase ("1".toList :: "/".toList :: n :: ts)) =
      if startsMetre n then phrase ("reciprocal".toList :: n :: ts)
      else phrase ("1".toList :: "/".toList :: n :: ts) := by
  have hsplit : phrase ("1".toList :: "/".toList :: n :: ts) =
      "1 / ".toList ++ (n ++ spread ts) := by
    simp [phrase]
  have hclean : Clean (n ++ spread ts) := hn.clean.append (clean_spread hts)
  have hhit := reciprocal_hit hclean (rfl : atBoundary none _ = true)
  simp only [prefix_word_iff (m := "meter".toList) (by decide),
    prefix_word_iff (m := "metre".toList) (by decide)] at hhit
  have hmatch {m z : Str} (hz : n = m ++ z) (hm : m ≠ [])
      (hhit : Replace.reciprocal.pattern.hit Replace.reciprocal.repl none
        (("1 / ".toList ++ m) ++ (z ++ spread ts)) =
          some ("reciprocal ".toList ++ m, z ++ spread ts)) :
      Replace.reciprocal.pattern.sub Replace.reciprocal.repl
        (("1 / ".toList ++ m) ++ (z ++ spread ts)) = phrase ("reciprocal".toList :: n :: ts) := by
    have hwordy : Wordy (m ++ z) := hz ▸ hn
    have hzwordy : Wordy z := fun c hc ↦ hwordy c (List.mem_append_right m hc)
    have hprev : (after none ("1 / ".toList ++ m)).any isWord = true := by
      rw [after_append]
      exact hwordy.left.after hm _
    rw [sub, subFrom_of_some (by simp) hhit, reciprocal_inside hzwordy hts hprev,
      reciprocal_spread hts hone, hz]
    simp [phrase]
  rw [hsplit]
  by_cases hmeter : "meter".toList <+: n
  · rw [if_pos (.inl hmeter)]
    rw [if_pos hmeter] at hhit
    obtain ⟨z, rfl⟩ := hmeter
    rw [List.append_assoc, ← List.append_assoc] at hhit ⊢
    exact hmatch rfl (by decide) hhit
  by_cases hmetre : "metre".toList <+: n
  · rw [if_pos (.inr hmetre)]
    rw [if_neg hmeter, if_pos hmetre] at hhit
    obtain ⟨z, rfl⟩ := hmetre
    rw [List.append_assoc, ← List.append_assoc] at hhit ⊢
    exact hmatch rfl (by decide) hhit
  · have hno : ¬ startsMetre n := not_or.mpr ⟨hmeter, hmetre⟩
    rw [if_neg hmeter, if_neg hmetre] at hhit
    have hrest : "1 / ".toList ++ (n ++ spread ts) = '1' :: spread ("/".toList :: n :: ts) := by
      simp
    have htail : ∀ w ∈ "/".toList :: n :: ts, Token w := by
      intro w hw
      obtain rfl | hw := List.mem_cons.mp hw
      · decide
      obtain rfl | hw := List.mem_cons.mp hw
      · exact ⟨hne, .inl hn⟩
      · exact hts w hw
    have htailOne : "1".toList ∉ "/".toList :: n :: ts := by
      intro hmem
      obtain heq | hmem := List.mem_cons.mp hmem
      · exact absurd heq (by decide)
      obtain heq | hmem := List.mem_cons.mp hmem
      · exact hnone heq.symm
      · exact hone hmem
    rw [if_neg hno]
    rw [hrest] at hhit ⊢
    rw [sub, subFrom_of_none hhit, reciprocal_spread htail htailOne]

theorem one_notMem_nameWords {n : Str} (hn : IsUnitName n) : "1".toList ∉ nameWords A n := by
  cases nameCase n with
  | meter =>
    rw [nameWords_meter]
    split <;> decide
  | degC =>
    rw [nameWords_degC]
    split <;> decide
  | becquerel x =>
    rw [nameWords_becquerel]
    split <;> rw [List.mem_singleton] <;> exact (append_ne (by decide) x).symm
  | gray x =>
    rw [nameWords_gray]
    split <;> rw [List.mem_singleton] <;> exact (append_ne (by decide) x).symm
  | other hmeter hdegC hBq hGy =>
    rw [nameWords_other A hmeter hdegC hBq hGy, List.mem_singleton]
    rintro rfl
    exact absurd hn (by decide)

theorem one_notMem_powerWords (p : ℕ) : "1".toList ∉ powerWords A p := by
  by_cases hp : p = 1
  · rw [hp, powerWords_one]
    exact List.not_mem_nil
  obtain heq | hno := powerWords_eq_or A p
  · rw [heq]
    intro hmem
    obtain heq | hmem := List.mem_cons.mp hmem
    · exact absurd heq (by decide)
    · exact hp (digits_inj (List.mem_singleton.mp hmem).symm)
  · cases powerCase p with
    | one => exact absurd rfl hp
    | two =>
      rw [powerWords_two]
      split <;> decide
    | three =>
      rw [powerWords_three]
      split <;> decide
    | four =>
      rw [powerWords_four]
      split <;> decide
    | other h =>
      rw [powerWords_other A h] at hno
      exact absurd List.mem_cons_self hno

theorem one_notMem_factorWords (f : Factor) : "1".toList ∉ factorWords A f := by
  intro hmem
  obtain hmem | hmem := List.mem_append.mp hmem
  · exact one_notMem_nameWords f.isUnitName hmem
  · exact one_notMem_powerWords f.power hmem

theorem one_notMem_rest (rest : List (Joint × Factor)) :
    "1".toList ∉ rest.flatMap fun p ↦ p.1.words A ++ factorWords A p.2 := by
  intro hmem
  obtain ⟨p, -, hmem⟩ := List.mem_flatMap.mp hmem
  obtain hmem | hmem := List.mem_append.mp hmem
  · exact absurd (Joint.mem_words A hmem) (by decide)
  · exact one_notMem_factorWords p.2 hmem

theorem prefix_of_append_cons {m x s : Str} {c : Char} (hc : c ∉ m) (h : m <+: x ++ c :: s) :
    m <+: x := by
  obtain hle | hle := List.prefix_or_prefix_of_prefix h (List.prefix_append x _)
  · exact hle
  · obtain ⟨z, rfl⟩ := hle
    rw [List.prefix_append_right_inj] at h
    cases z with
    | nil => simp
    | cons d z =>
      have hd := (List.cons_prefix_cons.mp h).1
      exact absurd (hd ▸ by simp) hc

theorem startsMetre_append {c : Char} (hc : c ∉ "meter".toList ∧ c ∉ "metre".toList) (x s : Str) :
    startsMetre (x ++ c :: s) ↔ startsMetre x := by
  constructor
  · rintro (h | h)
    · exact .inl (prefix_of_append_cons hc.1 h)
    · exact .inr (prefix_of_append_cons hc.2 h)
  · rintro (h | h)
    · exact .inl (h.trans (List.prefix_append _ _))
    · exact .inr (h.trans (List.prefix_append _ _))

theorem startsMetre_head (n : Str) :
    ∃ w ws, nameWords A n = w :: ws ∧ (startsMetre w ↔ startsMetre n) := by
  cases nameCase n with
  | meter =>
    rw [nameWords_meter]
    split
    · exact ⟨_, _, rfl, by decide⟩
    · exact ⟨_, _, rfl, Iff.rfl⟩
  | degC =>
    rw [nameWords_degC]
    split
    · exact ⟨_, _, rfl, by decide⟩
    · exact ⟨_, _, rfl, Iff.rfl⟩
  | becquerel x =>
    rw [nameWords_becquerel]
    split
    · have hbefore : startsMetre (x ++ "Bq".toList) ↔ startsMetre x :=
        startsMetre_append (by decide) x _
      exact ⟨_, _, rfl, (startsMetre_append (c := 'b') (by decide) x _).trans hbefore.symm⟩
    · exact ⟨_, _, rfl, Iff.rfl⟩
  | gray x =>
    rw [nameWords_gray]
    split
    · have hbefore : startsMetre (x ++ "Gy".toList) ↔ startsMetre x :=
        startsMetre_append (by decide) x _
      exact ⟨_, _, rfl, (startsMetre_append (c := 'g') (by decide) x _).trans hbefore.symm⟩
    · exact ⟨_, _, rfl, Iff.rfl⟩
  | other hmeter hdegC hBq hGy => exact ⟨_, _, nameWords_other A hmeter hdegC hBq hGy, Iff.rfl⟩

theorem factorWords_reciprocal (f : Factor) :
    factorWords (.reciprocal :: A) f = factorWords A f := by
  rw [factorWords, factorWords, nameWords_of_not_onNames rfl, powerWords_of_ne (by decide)]

theorem sub_words_reciprocal (s : Parts) : Replace.reciprocal.pattern.sub Replace.reciprocal.repl
    (phrase (s.words A)) = phrase (s.words (.reciprocal :: A)) := by
  obtain ⟨inverse, f, rest⟩ := s
  have hrest : rest.flatMap (fun p ↦ p.1.words (.reciprocal :: A) ++
      factorWords (.reciprocal :: A) p.2) =
      rest.flatMap fun p ↦ p.1.words A ++ factorWords A p.2 := by
    apply List.flatMap_congr
    intro p _
    rw [Joint.words_of_ne (by decide), factorWords_reciprocal]
  have hone : "1".toList ∉ factorWords A f ++
      rest.flatMap fun p ↦ p.1.words A ++ factorWords A p.2 := by
    intro hmem
    obtain hmem | hmem := List.mem_append.mp hmem
    · exact one_notMem_factorWords f hmem
    · exact one_notMem_rest rest hmem
  have htokens := Parts.words_token A ⟨inverse, f, rest⟩
  rw [Parts.words] at htokens
  rw [Parts.words, Parts.words, factorWords_reciprocal, hrest]
  dsimp only at htokens ⊢
  cases inverse with
  | false => exact sub_phrase_no_one htokens hone
  | true =>
    simp only [if_true, openingWords, List.mem_cons_self, true_and] at htokens ⊢
    by_cases hdone : .reciprocal ∈ A ∧ startsMetre f.name
    · rw [if_pos hdone, if_pos hdone.2] at *
      apply sub_phrase_no_one htokens
      intro hmem
      obtain heq | hmem := List.mem_cons.mp hmem
      · exact absurd heq (by decide)
      · exact hone hmem
    · rw [if_neg hdone] at htokens ⊢
      obtain ⟨w, ws, hw, hstarts⟩ := startsMetre_head (A := A) f.name
      have hwords : factorWords A f ++ (rest.flatMap fun p ↦ p.1.words A ++ factorWords A p.2) =
          w :: (ws ++ powerWords A f.power ++
            rest.flatMap fun p ↦ p.1.words A ++ factorWords A p.2) := by
        rw [factorWords, hw]
        simp
      have hwordy := nameWords_wordy A f.isUnitName.1 f.isUnitName.2.1 w (by simp [hw])
      rw [hwords] at htokens hone ⊢
      obtain ⟨hwone, hone⟩ := not_or.mp (List.mem_cons.not.mp hone)
      have htail := fun v hv ↦ htokens v
        (List.mem_append_right _ (List.mem_cons_of_mem w hv))
      have hsub := sub_phrase_one hwordy.1 hwordy.2 (Ne.symm hwone) htail hone
      refine hsub.trans ?_
      by_cases hmetre : startsMetre f.name
      · rw [if_pos hmetre, if_pos (hstarts.mpr hmetre)]
        rfl
      · rw [if_neg hmetre, if_neg (hstarts.not.mpr hmetre)]
        rfl

end Reciprocal

theorem sub_words (A : List Replace) (R : Replace) (s : Parts) :
    R.pattern.sub R.repl (phrase (s.words A)) = phrase (s.words (R :: A)) := by
  cases R with
  | meter | degC | becquerel | gray => exact sub_words_onNames rfl s
  | squared => exact onPower_squared.sub_words s
  | cubed => exact onPower_cubed.sub_words s
  | fourth => exact onPower_fourth.sub_words s
  | reciprocal => exact sub_words_reciprocal s
  | times => exact sub_words_times s

theorem applyReplaces_words (rs : List Replace) (A : List Replace) (s : Parts) :
    applyReplaces rs (phrase (s.words A)) = phrase (s.words (rs.reverse ++ A)) := by
  induction rs generalizing A with
  | nil => rfl
  | cons R rs ih =>
    rw [List.reverse_cons, List.append_assoc, List.singleton_append, ← ih, ← sub_words]
    rfl

end Liota.SiUnit
