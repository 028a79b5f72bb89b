import Liota.SiUnit.Replaces

namespace Liota.SiUnit

open Python Python.Regex
open Python.Text (Str)

section Printed

theorem spread_flatMap {α : Type} (l : List α) (g : α → List Str) :
    spread (l.flatMap g) = l.flatMap fun x ↦ spread (g x) := by
  rw [spread, List.flatMap_assoc]
  rfl

theorem nameWords_nil (n : Str) : nameWords [] n = [n] := by
  simp [nameWords]

theorem powerWords_nil (p : ℕ) :
    powerWords [] p = if p = 1 then [] else ["**".toList, Nat.toDigits 10 p] := by
  simp [powerWords]

theorem Factor.str_eq (f : Factor) : f.str = phrase (factorWords [] f) := by
  rw [str, factorWords, nameWords_nil, powerWords_nil]
  by_cases hp : f.power = 1
  · simp [hp, phrase]
  · simp [hp, phrase]

theorem intercalate_str (f : Factor) (fs : List Factor) :
    " * ".toList.intercalate ((f :: fs).map Factor.str) =
      f.str ++ fs.flatMap fun f ↦ " * ".toList ++ f.str := by
  induction fs generalizing f with
  | nil => simp
  | cons g fs ih =>
    rw [List.map_cons, List.map_cons, List.intercalate_cons_cons, ← List.map_cons, ih,
      List.flatMap_cons]
    simp

theorem phrase_words (A : List Replace) (s : Parts) : phrase (s.words A) =
    phrase ((if s.inverse then openingWords A s.first.name else []) ++ factorWords A s.first) ++
      s.rest.flatMap fun p ↦ spread (p.1.words A ++ factorWords A p.2) := by
  have hne : (if s.inverse then openingWords A s.first.name else []) ++
      factorWords A s.first ≠ [] := by
    intro h
    exact factorWords_ne_nil _ (List.append_eq_nil_iff.mp h).2
  rw [Parts.words, ← List.append_assoc, phrase_append hne, spread_flatMap]

theorem spread_times (f : Factor) :
    spread (Joint.times.words [] ++ factorWords [] f) = " * ".toList ++ f.str := by
  have hwords : Joint.times.words [] = ["*".toList] := rfl
  rw [hwords, spread_append, spread_eq_blank_phrase (factorWords_ne_nil f), f.str_eq]
  simp

theorem spread_divided (f : Factor) :
    spread (Joint.divided.words [] ++ factorWords [] f) = " / ".toList ++ f.str := by
  have hwords : Joint.divided.words [] = ["/".toList] := rfl
  rw [hwords, spread_append, spread_eq_blank_phrase (factorWords_ne_nil f), f.str_eq]
  simp

theorem PintUnit.str_eq {u : PintUnit} {s : Parts} (h : u.parts = some s) :
    u.str = phrase (s.words []) := by
  obtain ⟨num, den⟩ := u
  rw [phrase_words]
  cases num with
  | nil =>
    cases den with
    | nil => cases h
    | cons d ds =>
      obtain rfl := Option.some.inj h
      have hopening : openingWords [] d.name = ["1".toList, "/".toList] := by
        simp [openingWords]
      simp only [str, hopening, if_true, List.flatMap_map, spread_divided, List.flatMap_cons,
        reduceCtorEq, and_false, if_false]
      rw [phrase_append (List.cons_ne_nil _ _), spread_eq_blank_phrase (factorWords_ne_nil d),
        ← d.str_eq]
      simp [phrase]
  | cons f fs =>
    obtain rfl := Option.some.inj h
    simp only [str, reduceCtorEq, false_and, if_false, intercalate_str, List.flatMap_append,
      List.flatMap_map, spread_divided, spread_times, Bool.false_eq_true, List.nil_append]
    rw [← f.str_eq, List.append_assoc]

end Printed

section Digits

variable {A : List Replace}

def hasDigit (ws : List Str) : Bool := ws.any (·.any Char.isDigit)

theorem hasDigit_append (ws vs : List Str) :
    hasDigit (ws ++ vs) = (hasDigit ws || hasDigit vs) := List.any_append

theorem any_digit_phrase (ws : List Str) : (phrase ws).any Char.isDigit = hasDigit ws := by
  have hspread (ws : List Str) : (spread ws).any Char.isDigit = hasDigit ws := by
    induction ws with
    | nil => rfl
    | cons w ws ih =>
      rw [spread_cons, List.any_cons, List.any_append, ih]
      rfl
  cases ws with
  | nil => rfl
  | cons w ws =>
    rw [phrase, List.any_append, hspread]
    rfl

def Factor.Readable (f : Factor) : Prop := f.name.any Char.isDigit = false ∧ f.power ≤ 4

instance (f : Factor) : Decidable f.Readable := inferInstanceAs (Decidable (_ ∧ _))

theorem hasDigit_nameWords (n : Str) : hasDigit (nameWords A n) = n.any Char.isDigit := by
  have hend {s s' : Str} (h : s.any Char.isDigit = s'.any Char.isDigit) (x : Str) :
      hasDigit [x ++ s] = (x ++ s').any Char.isDigit := by
    simp [hasDigit, h]
  cases nameCase n with
  | meter =>
    rw [nameWords_meter]
    split <;> decide
  | degC =>
    rw [nameWords_degC]
    split <;> decide
  | becquerel x =>
    rw [nameWords_becquerel]
    split
    · exact hend (by decide) x
    · exact hend rfl x
  | gray x =>
    rw [nameWords_gray]
    split
    · exact hend (by decide) x
    · exact hend rfl x
  | other hmeter hdegC hBq hGy =>
    rw [nameWords_other A hmeter hdegC hBq hGy]
    simp [hasDigit]

theorem mem_reObjReplaces (R : Replace) : R ∈ reObjReplaces := by
  cases R <;> decide

def Factor.words (f : Factor) : List Str := factorWords reObjReplaces f

theorem hasDigit_powerWords {p : ℕ} (hp : 0 < p) :
    hasDigit (powerWords reObjReplaces p) = false ↔ p ≤ 4 := by
  cases powerCase p with
  | one => decide
  | two => decide
  | three => decide
  | four => decide
  | other h =>
    obtain ⟨c, w, hw⟩ := List.exists_cons_of_ne_nil (Nat.toDigits_ne_nil (n := p) (b := 10))
    have hc : c.isDigit = true := Nat.isDigit_of_mem_toDigits (by decide) (by decide)
      (hw ▸ List.mem_cons_self : c ∈ Nat.toDigits 10 p)
    have hdigit : hasDigit ["**".toList, Nat.toDigits 10 p] = true := by
      simp [hasDigit, hw, hc]
    rw [powerWords_other _ h, hdigit]
    constructor
    · intro habsurd
      cases habsurd
    · intro hle
      omega

theorem Factor.hasDigit_words (f : Factor) : hasDigit f.words = false ↔ f.Readable := by
  rw [words, factorWords, hasDigit_append, Bool.or_eq_false_iff, hasDigit_nameWords,
    hasDigit_powerWords f.power_pos]
  rfl

theorem hasDigit_openingWords (n : Str) :
    hasDigit (openingWords reObjReplaces n) = false ↔ startsMetre n := by
  by_cases h : startsMetre n
  · have hwords : openingWords reObjReplaces n = ["reciprocal".toList] :=
      if_pos ⟨mem_reObjReplaces _, h⟩
    rw [hwords]
    simp only [h, iff_true]
    decide
  · have hwords : openingWords reObjReplaces n = ["1".toList, "/".toList] :=
      if_neg fun hmetre ↦ h hmetre.2
    rw [hwords]
    simp only [h, iff_false]
    decide

theorem hasDigit_rest (rest : List (Joint × Factor)) :
    hasDigit (rest.flatMap fun p ↦ p.1.words reObjReplaces ++ p.2.words) = false ↔
      ∀ f ∈ rest.map Prod.snd, f.Readable := by
  induction rest with
  | nil => simp [hasDigit]
  | cons p rest ih =>
    have hjoint : hasDigit (p.1.words reObjReplaces) = false := by
      cases p.1 <;> decide
    rw [List.flatMap_cons, hasDigit_append, hasDigit_append, hjoint, Bool.false_or,
      Bool.or_eq_false_iff, p.2.hasDigit_words, ih, List.map_cons, List.forall_mem_cons]

/-- Every power has words, no name has a digit, and a unit without a numerator is one per metre. -/
def PintUnit.Readable (u : PintUnit) : Prop :=
  (u.numerator = [] → ∀ d ∈ u.denominator.head?, startsMetre d.name) ∧
    ∀ f ∈ u.numerator ++ u.denominator, f.Readable

instance (u : PintUnit) : Decidable u.Readable := by
  unfold PintUnit.Readable
  infer_instance

theorem hasDigit_words {u : PintUnit} {s : Parts} (h : u.parts = some s) :
    hasDigit (s.words reObjReplaces) = false ↔ u.Readable := by
  obtain ⟨num, den⟩ := u
  have hsplit : hasDigit (s.words reObjReplaces) = false ↔
      (s.inverse = true → startsMetre s.first.name) ∧ s.first.Readable ∧
        ∀ f ∈ s.rest.map Prod.snd, f.Readable := by
    have hopening : hasDigit (if s.inverse then openingWords reObjReplaces s.first.name else []) =
        false ↔ (s.inverse = true → startsMetre s.first.name) := by
      by_cases hinverse : s.inverse = true
      · simp only [hinverse, if_true, hasDigit_openingWords, true_imp_iff]
      · simp [hinverse, hasDigit]
    rw [Parts.words, hasDigit_append, hasDigit_append, Bool.or_eq_false_iff,
      Bool.or_eq_false_iff, hopening]
    exact and_congr_right fun _ ↦ and_congr s.first.hasDigit_words (hasDigit_rest s.rest)
  rw [hsplit, PintUnit.Readable]
  cases num with
  | nil =>
    cases den with
    | nil => cases h
    | cons d ds =>
      obtain rfl := Option.some.inj h
      have hrest : (ds.map fun f ↦ (Joint.divided, f)).map Prod.snd = ds := by
        simp [Function.comp_def]
      simp only [hrest, true_imp_iff, List.head?_cons, Option.mem_some_iff, forall_eq',
        List.nil_append, List.forall_mem_cons]
  | cons f fs =>
    obtain rfl := Option.some.inj h
    have hrest : (fs.map (fun f ↦ (Joint.times, f)) ++ den.map fun f ↦ (Joint.divided, f)).map
        Prod.snd = fs ++ den := by
      simp [Function.comp_def]
    simp only [hrest, Bool.false_eq_true, false_imp_iff, true_and, reduceCtorEq,
      List.cons_append, List.forall_mem_cons]

theorem words_of_all {A : List Replace} (h : ∀ R, R ∈ A) (s : Parts) :
    s.words A = s.words reObjReplaces := by
  have hname (n : Str) : nameWords A n = nameWords reObjReplaces n := by
    simp only [nameWords, h, mem_reObjReplaces]
  have hpower (p : ℕ) : powerWords A p = powerWords reObjReplaces p := by
    simp only [powerWords, h, mem_reObjReplaces]
  have hjoint (j : Joint) : j.words A = j.words reObjReplaces := by
    cases j <;> simp only [Joint.words, h, mem_reObjReplaces]
  simp only [Parts.words, factorWords, openingWords, hname, hpower, hjoint, h, mem_reObjReplaces]

end Digits

section Divisions

/-- Below the first division sign, which is read "per"; the second is not read, and the others
stay. -/
def overs : List Factor → List Str
  | [] => []
  | [d] => "per".toList :: d.words
  | d :: e :: ds =>
    "per".toList :: (d.words ++ (e.words ++ ds.flatMap fun f ↦ "/".toList :: f.words))

def PintUnit.spoken (u : PintUnit) : List Str :=
  match u.numerator, u.denominator with
  | [], [] => []
  | [], d :: ds => "reciprocal".toList :: (d.words ++ overs ds)
  | f :: fs, ds => (f :: fs).flatMap Factor.words ++ overs ds

theorem slash_notMem_words (f : Factor) : "/".toList ∉ f.words := by
  intro hmem
  obtain heq | hw := mem_factorWords _ hmem
  · exact absurd heq (by decide)
  · exact absurd hw.2 (by decide)

theorem words_ne_nil (f : Factor) : f.words ≠ [] := factorWords_ne_nil f

theorem words_token (f : Factor) : ∀ w ∈ f.words, Token w := by
  intro w hw
  obtain rfl | hw := mem_factorWords _ hw
  · decide
  · exact ⟨hw.1, .inl hw.2⟩

theorem mem_overs {ds : List Factor} {w : Str} (h : w ∈ overs ds) :
    w ∈ ["per".toList, "/".toList] ∨ ∃ d ∈ ds, w ∈ d.words := by
  have hper : "per".toList ∈ ["per".toList, "/".toList] := by decide
  have hslash : "/".toList ∈ ["per".toList, "/".toList] := by decide
  cases ds with
  | nil => cases h
  | cons d ds =>
    cases ds with
    | nil =>
      obtain rfl | h := List.mem_cons.mp h
      · exact .inl hper
      · exact .inr ⟨d, List.mem_cons_self, h⟩
    | cons e ds =>
      obtain rfl | h := List.mem_cons.mp h
      · exact .inl hper
      obtain h | h := List.mem_append.mp h
      · exact .inr ⟨d, List.mem_cons_self, h⟩
      obtain h | h := List.mem_append.mp h
      · exact .inr ⟨e, by simp, h⟩
      obtain ⟨f, hf, h⟩ := List.mem_flatMap.mp h
      obtain rfl | h := List.mem_cons.mp h
      · exact .inl hslash
      · exact .inr ⟨f, by simp [hf], h⟩

def joints : List Str := ["reciprocal".toList, "per".toList, "/".toList]

theorem PintUnit.mem_spoken {u : PintUnit} {w : Str} (h : w ∈ u.spoken) :
    w ∈ joints ∨ ∃ f ∈ u.numerator ++ u.denominator, w ∈ f.words := by
  obtain ⟨num, den⟩ := u
  have hovers {ds : List Factor} (hds : ds ⊆ den) (hw : w ∈ overs ds) :
      w ∈ joints ∨ ∃ f ∈ num ++ den, w ∈ f.words := by
    obtain hw | ⟨d, hd, hw⟩ := mem_overs hw
    · exact .inl (List.mem_cons_of_mem _ hw)
    · exact .inr ⟨d, List.mem_append_right num (hds hd), hw⟩
  cases num with
  | nil =>
    cases den with
    | nil => cases h
    | cons d ds =>
      obtain rfl | h := List.mem_cons.mp h
      · exact .inl List.mem_cons_self
      obtain h | h := List.mem_append.mp h
      · exact .inr ⟨d, List.mem_cons_self, h⟩
      · exact hovers (List.subset_cons_self d ds) h
  | cons f fs =>
    obtain h | h := List.mem_append.mp h
    · obtain ⟨g, hg, h⟩ := List.mem_flatMap.mp h
      exact .inr ⟨g, List.mem_append_left den hg, h⟩
    · exact hovers (List.Subset.refl den) h

theorem PintUnit.spoken_token (u : PintUnit) : ∀ w ∈ u.spoken, Token w := by
  have hjoints : ∀ w ∈ joints, Token w := by decide
  intro w hw
  obtain hw | ⟨f, -, hw⟩ := u.mem_spoken hw
  · exact hjoints w hw
  · exact words_token f w hw

theorem division_subOnce (repl : Str → Str) {news ws : List Str} (rest : List Str)
    (hrepl : repl [] = spread news ++ [' ']) (hne : ws ≠ []) (hslash : "/".toList ∉ ws)
    (htokens : ∀ w ∈ ws ++ rest, Token w) :
    division.subOnce repl (phrase (ws ++ rest)) =
      phrase (ws ++ replaceFirst "/".toList news rest) := by
  rw [← replaceFirst_append news hslash]
  apply subOnce_between_phrase (a := "/".toList) (by decide) hrepl htokens
  intro hhead
  rw [List.head?_append_of_ne_nil _ hne] at hhead
  exact hslash (List.mem_of_mem_head? hhead)

theorem readDivisions_phrase {ws : List Str} (hne : ws ≠ []) (hslash : "/".toList ∉ ws)
    (hws : ∀ w ∈ ws, Token w) (ds : List Factor) :
    readDivisions (phrase (ws ++ ds.flatMap fun f ↦ "/".toList :: f.words)) =
      phrase (ws ++ overs ds) := by
  have hfactors (ds : List Factor) :
      ∀ w ∈ ds.flatMap fun f ↦ "/".toList :: f.words, Token w := by
    intro w hw
    obtain ⟨f, -, hw⟩ := List.mem_flatMap.mp hw
    obtain rfl | hw := List.mem_cons.mp hw
    · decide
    · exact words_token f w hw
  have hper : " per ".toList = spread ["per".toList] ++ [' '] := by decide
  have hblank : " ".toList = spread [] ++ [' '] := by decide
  have hfirst := division_subOnce (fun _ ↦ " per ".toList) _ hper hne hslash
    (List.forall_mem_append.mpr ⟨hws, hfactors ds⟩)
  rw [readDivisions, hfirst]
  cases ds with
  | nil =>
    have hnone (news : List Str) : replaceFirst "/".toList news [] = [] := by
      simp [replaceFirst]
    have hsecond := division_subOnce (fun _ ↦ " ".toList) [] hblank hne hslash
      (by simpa using hws)
    rw [List.flatMap_nil, hnone, hsecond, hnone]
    rfl
  | cons d ds =>
    have hbegin : "/".toList ∉ ws ++ "per".toList :: d.words := by
      intro hmem
      obtain hmem | hmem := List.mem_append.mp hmem
      · exact hslash hmem
      obtain heq | hmem := List.mem_cons.mp hmem
      · exact absurd heq (by decide)
      · exact slash_notMem_words d hmem
    have htokens : ∀ w ∈ ws ++ "per".toList :: d.words, Token w := by
      intro w hw
      obtain hw | hw := List.mem_append.mp hw
      · exact hws w hw
      obtain rfl | hw := List.mem_cons.mp hw
      · decide
      · exact words_token d w hw
    have hsecond := division_subOnce (fun _ ↦ " ".toList)
      (ds.flatMap fun f ↦ "/".toList :: f.words) hblank (by simp) hbegin
      (List.forall_mem_append.mpr ⟨htokens, hfactors ds⟩)
    have hper : replaceFirst "/".toList ["per".toList]
        ((d :: ds).flatMap fun f ↦ "/".toList :: f.words) =
          "per".toList :: (d.words ++ ds.flatMap fun f ↦ "/".toList :: f.words) := by
      have hne : d.words ++ (ds.flatMap fun f ↦ "/".toList :: f.words) ≠ [] := by
        simp [words_ne_nil]
      rw [List.flatMap_cons, List.cons_append, replaceFirst_first _ _ hne]
      rfl
    have hreorder (ts : List Str) : ws ++ "per".toList :: (d.words ++ ts) =
        (ws ++ "per".toList :: d.words) ++ ts := by
      simp
    rw [hper, hreorder, hsecond, ← hreorder]
    apply congrArg fun ts ↦ phrase (ws ++ ts)
    cases ds with
    | nil => simp [replaceFirst, overs]
    | cons e ds =>
      have hne : e.words ++ (ds.flatMap fun f ↦ "/".toList :: f.words) ≠ [] := by
        simp [words_ne_nil]
      rw [List.flatMap_cons, List.cons_append, replaceFirst_first _ _ hne]
      rfl

theorem readDivisions_words {u : PintUnit} {s : Parts} (h : u.parts = some s)
    (hread : u.Readable) :
    readDivisions (phrase (s.words reObjReplaces)) = phrase u.spoken := by
  obtain ⟨num, den⟩ := u
  have htimes : Joint.times.words reObjReplaces = [] := by
    simp only [Joint.words, mem_reObjReplaces, if_true]
  have hdivided : Joint.divided.words reObjReplaces = ["/".toList] := rfl
  cases num with
  | nil =>
    cases den with
    | nil => cases h
    | cons d ds =>
      obtain rfl := Option.some.inj h
      have hmetre : startsMetre d.name := hread.1 rfl d rfl
      have hopening : openingWords reObjReplaces d.name = ["reciprocal".toList] :=
        if_pos ⟨mem_reObjReplaces _, hmetre⟩
      have hwords : Parts.words reObjReplaces ⟨true, d, ds.map fun f ↦ (.divided, f)⟩ =
          ("reciprocal".toList :: d.words) ++ ds.flatMap fun f ↦ "/".toList :: f.words := by
        rw [Parts.words, if_pos rfl, hopening, List.flatMap_map]
        simp only [hdivided]
        rfl
      have hslash : "/".toList ∉ "reciprocal".toList :: d.words := by
        intro hmem
        obtain heq | hmem := List.mem_cons.mp hmem
        · exact absurd heq (by decide)
        · exact slash_notMem_words d hmem
      have htokens : ∀ w ∈ "reciprocal".toList :: d.words, Token w := by
        intro w hw
        obtain rfl | hw := List.mem_cons.mp hw
        · decide
        · exact words_token d w hw
      rw [hwords, readDivisions_phrase (List.cons_ne_nil _ _) hslash htokens]
      rfl
  | cons f fs =>
    obtain rfl := Option.some.inj h
    have hwords : Parts.words reObjReplaces
        ⟨false, f, fs.map (fun f ↦ (.times, f)) ++ den.map fun f ↦ (.divided, f)⟩ =
          (f :: fs).flatMap Factor.words ++ den.flatMap fun f ↦ "/".toList :: f.words := by
      rw [Parts.words, if_neg Bool.false_ne_true, List.flatMap_append, List.flatMap_map,
        List.flatMap_map, List.flatMap_cons, List.append_assoc]
      simp only [htimes, hdivided]
      rfl
    have hne : (f :: fs).flatMap Factor.words ≠ [] := by
      simp [words_ne_nil]
    have hslash : "/".toList ∉ (f :: fs).flatMap Factor.words := by
      intro hmem
      obtain ⟨g, -, hmem⟩ := List.mem_flatMap.mp hmem
      exact slash_notMem_words g hmem
    have htokens : ∀ w ∈ (f :: fs).flatMap Factor.words, Token w := by
      intro w hw
      obtain ⟨g, -, hw⟩ := List.mem_flatMap.mp hw
      exact words_token g w hw
    rw [hwords, readDivisions_phrase hne hslash htokens]
    rfl

theorem str_ne_dimensionless {u : PintUnit} {s : Parts} (h : u.parts = some s) :
    u.str ≠ "dimensionless".toList := by
  intro heq
  rw [PintUnit.str_eq h] at heq
  have hsingle : s.words [] = ["dimensionless".toList] := by
    cases hwords : s.words [] with
    | nil =>
      rw [hwords] at heq
      exact absurd heq (by decide)
    | cons w ts =>
      rw [hwords, phrase] at heq
      cases ts with
      | nil =>
        rw [spread_nil, List.append_nil] at heq
        rw [heq]
      | cons v ts =>
        have hblank : ' ' ∈ "dimensionless".toList := by
          rw [← heq]
          simp
        exact absurd hblank (by decide)
  rw [Parts.words, factorWords, nameWords_nil] at hsingle
  by_cases hinverse : s.inverse = true
  · have hlen := congrArg List.length hsingle
    have hopening : openingWords [] s.first.name = ["1".toList, "/".toList] := by
      simp [openingWords]
    rw [if_pos hinverse, hopening] at hlen
    simp at hlen
  · rw [if_neg hinverse] at hsingle
    exact s.first.isUnitName.2.2.2 (List.cons.inj hsingle).1

theorem getUnitName_eq {replaces : List Replace} (hreplaces : replaces.Perm reObjReplaces)
    (patches : List Patch) (u : PintUnit) :
    getUnitName replaces patches (some u) =
      if u.numerator = [] ∧ u.denominator = [] then .ok none
      else if u.Readable then .ok (some (applyPatches patches (phrase u.spoken)))
      else .error ⟨u⟩ := by
  rw [getUnitName]
  cases hparts : u.parts with
  | none =>
    have hnone : u.numerator = [] ∧ u.denominator = [] := by
      obtain ⟨num, den⟩ := u
      cases num with
      | nil =>
        cases den with
        | nil => exact ⟨rfl, rfl⟩
        | cons d ds => cases hparts
      | cons f fs => cases hparts
    have hstr : u.str = "dimensionless".toList := if_pos hnone
    rw [if_pos hstr, if_pos hnone]
  | some s =>
    have hsome : ¬ (u.numerator = [] ∧ u.denominator = []) := by
      intro hnone
      exact str_ne_dimensionless hparts (if_pos hnone)
    have htext : applyReplaces replaces u.str = phrase (s.words reObjReplaces) := by
      rw [PintUnit.str_eq hparts, applyReplaces_words]
      apply congrArg phrase
      apply words_of_all
      intro R
      simp [hreplaces.mem_iff, mem_reObjReplaces]
    have hdigit : digit.search (phrase (s.words reObjReplaces)) =
        hasDigit (s.words reObjReplaces) := by
      rw [digit, search_char, any_digit_phrase]
    rw [if_neg (str_ne_dimensionless hparts), if_neg hsome]
    dsimp only
    rw [htext, hdigit]
    by_cases hread : u.Readable
    · have hno := (hasDigit_words hparts).mpr hread
      have hhigher : higherPower.search (phrase (s.words reObjReplaces)) = false := by
        rw [Bool.eq_false_iff]
        intro hsearch
        have hany := any_of_search hsearch
        rw [any_digit_phrase, hno] at hany
        exact absurd hany Bool.false_ne_true
      rw [hhigher, hno, if_pos hread, readDivisions_words hparts hread]
      rfl
    · have hyes : hasDigit (s.words reObjReplaces) = true := by
        by_contra hno
        exact hread ((hasDigit_words hparts).mp (Bool.eq_false_iff.mpr hno))
      rw [hyes, if_neg hread, if_pos rfl, ite_self]

end Divisions

end Liota.SiUnit
