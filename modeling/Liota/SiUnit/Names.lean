import Liota.SiUnit.Patches

namespace Liota.SiUnit

open Python Python.Regex Rewriting
open Python.Text (Str)

section Occurrences

variable {a : Str} {ts : List Str}

theorem occ_skip {z x : Str} (hx : ' ' ∉ x) (t : Str) :
    occ (' ' :: z) (x ++ t) = occ (' ' :: z) t := by
  induction x with
  | nil => rfl
  | cons c x ih =>
    obtain ⟨hc, hx⟩ := not_or.mp (List.mem_cons.not.mp hx)
    have hno : ¬ ' ' :: z <+: c :: (x ++ t) := fun hpre ↦ hc (List.cons_prefix_cons.mp hpre).1
    rw [List.cons_append, occ, if_neg hno, ih hx, Nat.zero_add]

theorem occ_spread (ha : Token a) (hts : ∀ w ∈ ts, Token w) :
    occ (' ' :: (a ++ [' '])) (spread ts) = ts.dropLast.count a := by
  induction ts with
  | nil => rfl
  | cons v ts ih =>
    obtain ⟨hv, hrest⟩ := List.forall_mem_cons.mp hts
    rw [spread_cons, occ, occ_skip hv.blank_notMem, ih hrest]
    cases ts with
    | nil =>
      have hno : ¬ ' ' :: (a ++ [' ']) <+: ' ' :: (v ++ spread []) := by
        intro hpre
        rw [spread_nil, List.append_nil] at hpre
        have hblank := (List.cons_prefix_cons.mp hpre).2.subset (show ' ' ∈ a ++ [' '] by simp)
        exact hv.blank_notMem hblank
      rw [if_neg hno]
      rfl
    | cons w ts =>
      have hiff : ' ' :: (a ++ [' ']) <+: ' ' :: (v ++ spread (w :: ts)) ↔ v = a := by
        rw [List.cons_prefix_cons, spread_cons]
        constructor
        · intro h
          exact (split_at_blank ha.blank_notMem hv.blank_notMem h.2).1.symm
        · rintro rfl
          exact ⟨rfl, (List.prefix_append_right_inj v).mpr
            (List.cons_prefix_cons.mpr ⟨rfl, List.nil_prefix⟩)⟩
      rw [List.dropLast_cons_cons, List.count_cons]
      by_cases hva : v = a
      · rw [if_pos (hiff.mpr hva), if_pos (beq_iff_eq.mpr hva), Nat.add_comm]
      · rw [if_neg (hiff.not.mpr hva), if_neg (beq_iff_eq.not.mpr hva), Nat.zero_add]
        rfl

theorem occ_phrase (ha : Token a) (hts : ∀ w ∈ ts, Token w) :
    occ (' ' :: (a ++ [' '])) (phrase ts) = ts.tail.dropLast.count a := by
  cases ts with
  | nil => rfl
  | cons w ts =>
    obtain ⟨hw, hts⟩ := List.forall_mem_cons.mp hts
    rw [phrase, occ_skip hw.blank_notMem, occ_spread ha hts, List.tail_cons]

end Occurrences

section Patched

def Untouched (c : Char) : Prop := ∀ p ∈ reObjPatches, ∀ r ∈ p.rules, c ∉ r.pat ∧ c ∉ r.rep

instance (c : Char) : Decidable (Untouched c) := by
  unfold Untouched
  infer_instance

theorem mem_run_iff {c : Char} (hc : Untouched c) (ps : List Patch) (t : Str) :
    c ∈ run Patch.rules ps t ↔ c ∈ t := by
  induction ps generalizing t with
  | nil => rfl
  | cons p ps ih =>
    have hpass : c ∈ replace p.rules t ↔ c ∈ t := by
      constructor
      · intro h
        obtain h | ⟨r, hr, h⟩ := mem_of_mem_replace h
        · exact h
        · exact absurd h (hc p (mem_reObjPatches p) r hr).2
      · exact mem_replace_of_mem fun r hr ↦ (hc p (mem_reObjPatches p) r hr).1
    exact (ih _).trans hpass

theorem untouched_of_digit {c : Char} (hc : c.isDigit = true) : Untouched c := by
  have hletters : ∀ p ∈ reObjPatches, ∀ r ∈ p.rules, hasDigit [r.pat, r.rep] = false := by
    decide
  intro p hp r hr
  have hdigits := hletters p hp r hr
  rw [hasDigit, List.any_eq_false] at hdigits
  constructor
  · intro hmem
    exact hdigits r.pat (by simp) (List.any_eq_true.mpr ⟨c, hmem, hc⟩)
  · intro hmem
    exact hdigits r.rep (by simp) (List.any_eq_true.mpr ⟨c, hmem, hc⟩)

def perWord : Str := ' ' :: ("per".toList ++ [' '])

theorem per_spared : ∀ p ∈ reObjPatches, Spares p.rules perWord ∧ MakesNone p.rules perWord := by
  decide

theorem occ_per_run (ps : List Patch) (t : Str) :
    occ perWord (run Patch.rules ps t) = occ perWord t := by
  induction ps generalizing t with
  | nil => rfl
  | cons p ps ih =>
    obtain ⟨hspares, hmakes⟩ := per_spared p (mem_reObjPatches p)
    have hpass : occ perWord (replace p.rules t) = occ perWord t :=
      le_antisymm (hmakes.occ_le t) (hspares.occ_le t)
    exact (ih _).trans hpass

end Patched

section Letters

theorem mem_phrase_iff {c : Char} (hc : c ≠ ' ') (ts : List Str) :
    c ∈ phrase ts ↔ ∃ w ∈ ts, c ∈ w := by
  have hspread (ts : List Str) : c ∈ spread ts ↔ ∃ w ∈ ts, c ∈ w := by
    simp [spread, hc]
  cases ts with
  | nil => simp [phrase]
  | cons w ts => simp [phrase, hspread]

theorem wordy_powerWords {p : ℕ} (hpos : 0 < p) (hle : p ≤ 4) :
    ∀ w ∈ powerWords reObjReplaces p, Wordy w := by
  cases powerCase p with
  | one => decide
  | two => decide
  | three => decide
  | four => decide
  | other hp => omega

theorem Factor.Readable.wordy {f : Factor} (h : f.Readable) : ∀ w ∈ f.words, Wordy w := by
  intro w hw
  obtain hw | hw := List.mem_append.mp hw
  · exact (nameWords_wordy _ f.isUnitName.1 f.isUnitName.2.1 w hw).2
  · exact wordy_powerWords f.power_pos h.2 w hw

theorem sign_mem_overs_iff {ds : List Factor} (hds : ∀ d ∈ ds, d.Readable) {c : Char}
    (hc : isWord c = false) : (∃ w ∈ overs ds, c ∈ w) ↔ c = '/' ∧ 3 ≤ ds.length := by
  have hfactor {f : Factor} (hf : f.Readable) {w : Str} (hw : w ∈ f.words) : c ∉ w := by
    intro hmem
    rw [hf.wordy w hw c hmem] at hc
    exact Bool.false_ne_true hc.symm
  have hper : c ∉ "per".toList := by
    intro hmem
    have hword := (by decide : Wordy "per".toList) c hmem
    rw [hword] at hc
    exact Bool.false_ne_true hc.symm
  constructor
  · rintro ⟨w, hw, hmem⟩
    cases ds with
    | nil => cases hw
    | cons d ds =>
      have hd := hds d List.mem_cons_self
      cases ds with
      | nil =>
        obtain rfl | hw := List.mem_cons.mp hw
        · exact absurd hmem hper
        · exact absurd hmem (hfactor hd hw)
      | cons e ds =>
        have he := hds e (by simp)
        obtain rfl | hw := List.mem_cons.mp hw
        · exact absurd hmem hper
        obtain hw | hw := List.mem_append.mp hw
        · exact absurd hmem (hfactor hd hw)
        obtain hw | hw := List.mem_append.mp hw
        · exact absurd hmem (hfactor he hw)
        obtain ⟨f, hf, hw⟩ := List.mem_flatMap.mp hw
        have hlen : 0 < ds.length := List.length_pos_of_mem hf
        obtain rfl | hw := List.mem_cons.mp hw
        · exact ⟨List.mem_singleton.mp hmem, by simp only [List.length_cons]; omega⟩
        · exact absurd hmem (hfactor (hds f (by simp [hf])) hw)
  · rintro ⟨rfl, hlen⟩
    match ds, hlen with
    | d :: e :: f :: ds, _ => exact ⟨"/".toList, by simp [overs], by decide⟩

def PintUnit.below (u : PintUnit) : List Factor :=
  if u.numerator = [] then u.denominator.tail else u.denominator

theorem sign_mem_spoken_iff {u : PintUnit} (hread : u.Readable) {c : Char}
    (hc : isWord c = false) (hblank : c ≠ ' ') :
    c ∈ phrase u.spoken ↔ c = '/' ∧ 3 ≤ u.below.length := by
  obtain ⟨num, den⟩ := u
  obtain ⟨-, hfactors⟩ := hread
  have hwordy {w : Str} (hw : Wordy w) : c ∉ w := by
    intro hmem
    rw [hw c hmem] at hc
    exact Bool.false_ne_true hc.symm
  have hsplit {ws : List Str} (hws : ∀ w ∈ ws, Wordy w) {ds : List Factor}
      (hds : ∀ d ∈ ds, d.Readable) :
      (∃ w ∈ ws ++ overs ds, c ∈ w) ↔ c = '/' ∧ 3 ≤ ds.length := by
    rw [← sign_mem_overs_iff hds hc]
    constructor
    · rintro ⟨w, hw, hmem⟩
      obtain hw | hw := List.mem_append.mp hw
      · exact absurd hmem (hwordy (hws w hw))
      · exact ⟨w, hw, hmem⟩
    · rintro ⟨w, hw, hmem⟩
      exact ⟨w, List.mem_append_right ws hw, hmem⟩
  rw [mem_phrase_iff hblank]
  cases num with
  | nil =>
    cases den with
    | nil => simp [PintUnit.spoken, PintUnit.below]
    | cons d ds =>
      have hd : d.Readable := hfactors d (by simp)
      have hds : ∀ e ∈ ds, e.Readable := fun e he ↦ hfactors e (by simp [he])
      have hws : ∀ w ∈ "reciprocal".toList :: d.words, Wordy w := by
        intro w hw
        obtain rfl | hw := List.mem_cons.mp hw
        · decide
        · exact hd.wordy w hw
      exact hsplit hws hds
  | cons f fs =>
    have hds : ∀ e ∈ den, e.Readable := fun e he ↦ hfactors e (by simp [he])
    have hws : ∀ w ∈ (f :: fs).flatMap Factor.words, Wordy w := by
      intro w hw
      obtain ⟨g, hg, hw⟩ := List.mem_flatMap.mp hw
      exact (hfactors g (List.mem_append_left den hg)).wordy w hw
    exact hsplit hws hds

theorem digit_notMem_spoken {u : PintUnit} (hread : u.Readable) {c : Char}
    (hc : c.isDigit = true) : c ∉ phrase u.spoken := by
  have hblank : c ≠ ' ' := by
    rintro rfl
    exact absurd hc (by decide)
  have hjoints : ∀ w ∈ joints, w.any Char.isDigit = false := by decide
  have hno {w : Str} (hw : w.any Char.isDigit = false) : c ∉ w := by
    intro hmem
    have hany : w.any Char.isDigit = true := List.any_eq_true.mpr ⟨c, hmem, hc⟩
    rw [hw] at hany
    exact Bool.false_ne_true hany
  rw [mem_phrase_iff hblank]
  rintro ⟨w, hw, hmem⟩
  obtain hw | ⟨f, hf, hw⟩ := u.mem_spoken hw
  · exact hno (hjoints w hw) hmem
  · have hwords : f.words.any (·.any Char.isDigit) = false :=
      f.hasDigit_words.mpr (hread.2 f hf)
    exact hno (Bool.eq_false_iff.mpr (List.any_eq_false.mp hwords w hw)) hmem

end Letters

section Per

theorem per_ne_append {s : Str} (h : ¬ s <:+ "per".toList) (x : Str) : "per".toList ≠ x ++ s :=
  (append_ne h x).symm

theorem per_mem_nameWords_iff (n : Str) :
    "per".toList ∈ nameWords reObjReplaces n ↔ n = "per".toList := by
  cases nameCase n with
  | meter => decide
  | degC => decide
  | becquerel x =>
    rw [nameWords_becquerel, if_pos (mem_reObjReplaces _), List.mem_singleton]
    exact iff_of_false (per_ne_append (by decide) x) (append_ne (by decide) x)
  | gray x =>
    rw [nameWords_gray, if_pos (mem_reObjReplaces _), List.mem_singleton]
    exact iff_of_false (per_ne_append (by decide) x) (append_ne (by decide) x)
  | other hmeter hdegC hBq hGy =>
    rw [nameWords_other _ hmeter hdegC hBq hGy, List.mem_singleton]
    exact eq_comm

theorem per_notMem_tail_nameWords (n : Str) :
    "per".toList ∉ (nameWords reObjReplaces n).tail := by
  cases nameCase n with
  | meter => decide
  | degC => decide
  | becquerel x =>
    rw [nameWords_becquerel, if_pos (mem_reObjReplaces _)]
    exact List.not_mem_nil
  | gray x =>
    rw [nameWords_gray, if_pos (mem_reObjReplaces _)]
    exact List.not_mem_nil
  | other hmeter hdegC hBq hGy =>
    rw [nameWords_other _ hmeter hdegC hBq hGy]
    exact List.not_mem_nil

theorem per_notMem_dropLast_nameWords (n : Str) :
    "per".toList ∉ (nameWords reObjReplaces n).dropLast := by
  cases nameCase n with
  | meter => decide
  | degC => decide
  | becquerel x =>
    rw [nameWords_becquerel, if_pos (mem_reObjReplaces _)]
    exact List.not_mem_nil
  | gray x =>
    rw [nameWords_gray, if_pos (mem_reObjReplaces _)]
    exact List.not_mem_nil
  | other hmeter hdegC hBq hGy =>
    rw [nameWords_other _ hmeter hdegC hBq hGy]
    exact List.not_mem_nil

theorem per_notMem_powerWords (p : ℕ) : "per".toList ∉ powerWords reObjReplaces p := by
  cases powerCase p with
  | one => decide
  | two => decide
  | three => decide
  | four => decide
  | other hp =>
    rw [powerWords_other _ hp]
    intro hmem
    obtain heq | hmem := List.mem_cons.mp hmem
    · exact absurd heq (by decide)
    · have hdigits : ∀ c ∈ "per".toList, c.isDigit := by
        rw [List.mem_singleton.mp hmem]
        exact fun c hc ↦ Nat.isDigit_of_mem_toDigits (by decide) (by decide) hc
      exact absurd (hdigits 'p' (by decide)) (by decide)

theorem powerWords_eq_nil_iff (p : ℕ) : powerWords reObjReplaces p = [] ↔ p = 1 := by
  cases powerCase p with
  | one => decide
  | two => decide
  | three => decide
  | four => decide
  | other hp =>
    rw [powerWords_other _ hp]
    exact iff_of_false (List.cons_ne_nil _ _) hp.1

theorem Factor.per_mem_words_iff (f : Factor) :
    "per".toList ∈ f.words ↔ f.name = "per".toList := by
  rw [words, factorWords, List.mem_append, per_mem_nameWords_iff]
  exact or_iff_left (per_notMem_powerWords f.power)

theorem Factor.per_notMem_tail (f : Factor) : "per".toList ∉ f.words.tail := by
  rw [words, factorWords, List.tail_append_of_ne_nil (nameWords_ne_nil _ _)]
  intro hmem
  obtain hmem | hmem := List.mem_append.mp hmem
  · exact per_notMem_tail_nameWords f.name hmem
  · exact per_notMem_powerWords f.power hmem

theorem Factor.per_mem_dropLast_iff (f : Factor) :
    "per".toList ∈ f.words.dropLast ↔ f.name = "per".toList ∧ f.power ≠ 1 := by
  rw [words, factorWords]
  by_cases hp : f.power = 1
  · rw [(powerWords_eq_nil_iff _).mpr hp, List.append_nil]
    exact iff_of_false (per_notMem_dropLast_nameWords f.name) fun h ↦ h.2 hp
  · have hne := (powerWords_eq_nil_iff _).not.mpr hp
    rw [List.dropLast_append_of_ne_nil hne, List.mem_append, per_mem_nameWords_iff]
    constructor
    · rintro (hname | hmem)
      · exact ⟨hname, hp⟩
      · exact absurd (List.mem_of_mem_dropLast hmem) (per_notMem_powerWords _)
    · exact fun h ↦ .inl h.1

end Per

section Named

def PintUnit.PerApart (u : PintUnit) : Prop :=
  (∀ f ∈ u.numerator.tail ++ u.denominator.dropLast, f.name ≠ "per".toList) ∧
    ∀ d ∈ u.denominator.getLast?, d.name = "per".toList → d.power = 1

instance (u : PintUnit) : Decidable u.PerApart := by
  unfold PintUnit.PerApart
  infer_instance

theorem count_per_eq_one_iff {xs ys : List Str} (hys : ys ≠ []) :
    ((xs ++ "per".toList :: ys).dropLast).count "per".toList = 1 ↔
      "per".toList ∉ xs ∧ "per".toList ∉ ys.dropLast := by
  have hlast : ("per".toList :: ys).dropLast = "per".toList :: ys.dropLast := by
    obtain ⟨y, ys, rfl⟩ := List.exists_cons_of_ne_nil hys
    exact List.dropLast_cons_cons
  rw [List.dropLast_append_of_ne_nil (List.cons_ne_nil _ _), hlast, List.count_append,
    List.count_cons_self, ← List.count_eq_zero, ← List.count_eq_zero]
  omega

theorem occ_per_spoken_iff {u : PintUnit} (hnum : u.numerator ≠ []) (hden : u.denominator ≠ [])
    (hbelow : u.denominator.length ≤ 2) :
    occ perWord (phrase u.spoken) = 1 ↔ u.PerApart := by
  have hcount := occ_phrase (a := "per".toList) (by decide) u.spoken_token
  obtain ⟨num, den⟩ := u
  obtain ⟨f, fs, rfl⟩ := List.exists_cons_of_ne_nil hnum
  have hbefore : "per".toList ∉ f.words.tail ++ fs.flatMap Factor.words ↔
      ∀ g ∈ fs, g.name ≠ "per".toList := by
    rw [List.mem_append, not_or, List.mem_flatMap]
    constructor
    · intro h g hg hname
      exact h.2 ⟨g, hg, g.per_mem_words_iff.mpr hname⟩
    · intro h
      refine ⟨f.per_notMem_tail, ?_⟩
      rintro ⟨g, hg, hmem⟩
      exact h g hg (g.per_mem_words_iff.mp hmem)
  have hspoken {ys : List Str} (hovers : overs den = "per".toList :: ys) :
      (PintUnit.spoken ⟨f :: fs, den⟩).tail =
        (f.words.tail ++ fs.flatMap Factor.words) ++ "per".toList :: ys := by
    have hunfold : PintUnit.spoken ⟨f :: fs, den⟩ =
        (f :: fs).flatMap Factor.words ++ overs den := rfl
    rw [hunfold, hovers, List.flatMap_cons, List.append_assoc,
      List.tail_append_of_ne_nil (words_ne_nil f), ← List.append_assoc]
  match den, hden, hbelow with
  | [d], _, _ =>
    rw [perWord, hcount, hspoken rfl, count_per_eq_one_iff (words_ne_nil d), hbefore,
      d.per_mem_dropLast_iff, PintUnit.PerApart]
    simp
  | [d, e], _, _ =>
    have hovers : overs [d, e] = "per".toList :: (d.words ++ e.words) := by
      simp [overs]
    have hne : d.words ++ e.words ≠ [] := by
      simp [words_ne_nil]
    rw [perWord, hcount, hspoken hovers, count_per_eq_one_iff hne, hbefore,
      List.dropLast_append_of_ne_nil (words_ne_nil e), List.mem_append, d.per_mem_words_iff,
      e.per_mem_dropLast_iff, PintUnit.PerApart]
    simp [or_imp, forall_and, and_assoc]

def PintUnit.Nameable (u : PintUnit) : Prop :=
  u.below.length ≤ 2 ∧ (u.numerator ≠ [] → u.denominator ≠ [] → u.PerApart)

instance (u : PintUnit) : Decidable u.Nameable := by
  unfold PintUnit.Nameable
  infer_instance

def InWords (u : PintUnit) (name : Str) : Prop :=
  ('/' ∉ name ∧ '*' ∉ name ∧ ∀ c ∈ name, c.isDigit = false) ∧
    (u.numerator ≠ [] → u.denominator ≠ [] → occ " per ".toList name = 1)

def NamedOrRejected (u : PintUnit) : Except UnsupportedUnitError (Option Str) → Prop
  | .error _ => True
  | .ok none => u.numerator = [] ∧ u.denominator = []
  | .ok (some name) => InWords u name

theorem namedOrRejected_iff {replaces : List Replace} (hreplaces : replaces.Perm reObjReplaces)
    (patches : List Patch) (u : PintUnit) :
    NamedOrRejected u (getUnitName replaces patches (some u)) ↔
      (u.numerator = [] ∧ u.denominator = []) ∨ ¬ u.Readable ∨ u.Nameable := by
  rw [getUnitName_eq hreplaces]
  by_cases hnone : u.numerator = [] ∧ u.denominator = []
  · rw [if_pos hnone]
    simp only [NamedOrRejected, hnone, and_self, true_or]
  by_cases hread : u.Readable
  · rw [if_neg hnone, if_pos hread, applyPatches_eq (clean_phrase u.spoken_token)]
    simp only [NamedOrRejected, hnone, hread, not_true, false_or]
    have hslash : '/' ∉ run Patch.rules patches (phrase u.spoken) ↔ u.below.length ≤ 2 := by
      rw [mem_run_iff (by decide), sign_mem_spoken_iff hread (by decide) (by decide),
        and_iff_right rfl]
      omega
    have hstar : '*' ∉ run Patch.rules patches (phrase u.spoken) := by
      rw [mem_run_iff (by decide), sign_mem_spoken_iff hread (by decide) (by decide)]
      exact fun h ↦ absurd h.1 (by decide)
    have hdigit : ∀ c ∈ run Patch.rules patches (phrase u.spoken), c.isDigit = false := by
      intro c hc
      rw [Bool.eq_false_iff]
      intro hd
      rw [mem_run_iff (untouched_of_digit hd)] at hc
      exact digit_notMem_spoken hread hd hc
    have hper : occ " per ".toList (run Patch.rules patches (phrase u.spoken)) =
        occ perWord (phrase u.spoken) := occ_per_run patches _
    rw [InWords, PintUnit.Nameable, hslash, hper]
    constructor
    · rintro ⟨⟨hbelow, -, -⟩, hone⟩
      refine ⟨hbelow, fun hnum hden ↦ ?_⟩
      rw [PintUnit.below, if_neg hnum] at hbelow
      exact (occ_per_spoken_iff hnum hden hbelow).mp (hone hnum hden)
    · rintro ⟨hbelow, hapart⟩
      refine ⟨⟨hbelow, hstar, hdigit⟩, fun hnum hden ↦ ?_⟩
      rw [PintUnit.below, if_neg hnum] at hbelow
      exact (occ_per_spoken_iff hnum hden hbelow).mpr (hapart hnum hden)
  · rw [if_neg hnone, if_neg hread]
    simp only [NamedOrRejected, hread, not_false_eq_true, true_or, or_true]

theorem namedOrRejected_heatTransfer : NamedOrRejected heatTransfer
    (getUnitName reObjReplaces reObjPatches (some heatTransfer)) :=
  (namedOrRejected_iff (List.Perm.refl _) reObjPatches heatTransfer).mpr (by decide)

/-- The third division sign stays. -/
theorem third_division_stays : ¬ ∀ (replaces : List Replace) (patches : List Patch) (u : PintUnit),
    replaces.Perm reObjReplaces → patches.Perm reObjPatches →
      NamedOrRejected u (getUnitName replaces patches (some u)) := by
  intro h
  have hnamed := h reObjReplaces reObjPatches heatPerLength (List.Perm.refl _) (List.Perm.refl _)
  have hname : (getUnitName reObjReplaces reObjPatches (some heatPerLength)).toOption =
      some (some "joule per kilogram kelvin / metre".toList) := by
    decide
  cases hresult : getUnitName reObjReplaces reObjPatches (some heatPerLength) with
  | error e =>
    rw [hresult] at hname
    cases hname
  | ok name =>
    rw [hresult] at hname hnamed
    obtain rfl := Option.some.inj hname
    exact hnamed.1.1 (by decide)

end Named

end Liota.SiUnit
