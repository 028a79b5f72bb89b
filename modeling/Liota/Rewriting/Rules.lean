import Mathlib.Data.List.Infix
import Mathlib.Data.List.Pairwise

namespace Liota.Rewriting

variable {α : Type} [DecidableEq α]

structure Rule (α : Type) where
  pat : List α
  rep : List α
  pat_ne_nil : pat ≠ []
  rep_ne_nil : rep ≠ []

def applies (S : List (Rule α)) (t : List α) : Option (Rule α) :=
  S.find? fun r ↦ r.pat.isPrefixOf t

def replaceFrom (S : List (Rule α)) : ℕ → List α → List α
  | _, [] => []
  | k + 1, _ :: t => replaceFrom S k t
  | 0, c :: t =>
    match applies S (c :: t) with
    | some r => r.rep ++ replaceFrom S (r.pat.length - 1) t
    | none => c :: replaceFrom S 0 t

def replace (S : List (Rule α)) (t : List α) : List α := replaceFrom S 0 t

section Replace

variable {S : List (Rule α)} {r : Rule α} {t : List α}

theorem mem_of_applies (h : applies S t = some r) : r ∈ S := List.mem_of_find?_eq_some h

theorem prefix_of_applies (h : applies S t = some r) : r.pat <+: t :=
  List.isPrefixOf_iff_prefix.mp (List.find?_some (p := fun r : Rule α ↦ r.pat.isPrefixOf t) h)

theorem applies_eq_none : applies S t = none ↔ ∀ r ∈ S, ¬ r.pat <+: t := by
  simp [applies]

@[simp] theorem replace_nil (S : List (Rule α)) : replace S [] = [] := rfl

theorem replaceFrom_append (S : List (Rule α)) (x t : List α) :
    replaceFrom S x.length (x ++ t) = replace S t := by
  induction x with
  | nil => rfl
  | cons c x ih => exact ih

theorem replace_of_some (h : applies S (r.pat ++ t) = some r) :
    replace S (r.pat ++ t) = r.rep ++ replace S t := by
  obtain ⟨c, p, hp⟩ := List.exists_cons_of_ne_nil r.pat_ne_nil
  rw [hp, List.cons_append] at h ⊢
  rw [replace, replaceFrom, h]
  dsimp only
  rw [hp, List.length_cons, Nat.add_sub_cancel, replaceFrom_append]

theorem replace_of_none {c : α} (h : applies S (c :: t) = none) :
    replace S (c :: t) = c :: replace S t := by
  rw [replace, replaceFrom, h]
  rfl

@[elab_as_elim]
theorem replace_induction (S : List (Rule α)) {motive : List α → Prop} (nil : motive [])
    (hit : ∀ r ∈ S, ∀ t, applies S (r.pat ++ t) = some r → motive t → motive (r.pat ++ t))
    (skip : ∀ c t, applies S (c :: t) = none → motive t → motive (c :: t)) (t : List α) :
    motive t := by
  obtain ⟨n, hn⟩ : ∃ n, t.length = n := ⟨_, rfl⟩
  induction n using Nat.strong_induction_on generalizing t with
  | _ n ih =>
    cases t with
    | nil => exact nil
    | cons c t =>
      cases h : applies S (c :: t) with
      | none =>
        apply skip c t h
        rw [List.length_cons] at hn
        exact ih t.length (by omega) t rfl
      | some r =>
        obtain ⟨rest, hrest⟩ := prefix_of_applies h
        rw [← hrest] at h hn ⊢
        have hpos := List.length_pos_iff.mpr r.pat_ne_nil
        rw [List.length_append] at hn
        exact hit r (mem_of_applies h) rest h (ih rest.length (by omega) rest rfl)

theorem replace_append_of_not_prefix {x y : List α}
    (h : ∀ v, v <:+ x → v ≠ [] → ∀ r ∈ S, ¬ r.pat <+: v ++ y) :
    replace S (x ++ y) = x ++ replace S y := by
  induction x with
  | nil => rfl
  | cons c x ih =>
    have hnone : applies S (c :: (x ++ y)) = none :=
      applies_eq_none.mpr (h (c :: x) (List.suffix_refl _) (List.cons_ne_nil c x))
    rw [List.cons_append, replace_of_none hnone,
      ih fun v hv ↦ h v (hv.trans (List.suffix_cons c x))]
    rfl

theorem mem_of_mem_replace {c : α} (h : c ∈ replace S t) : c ∈ t ∨ ∃ r ∈ S, c ∈ r.rep := by
  induction t using replace_induction S with
  | nil => exact .inl h
  | hit r hr t happly ih =>
    rw [replace_of_some happly] at h
    obtain h | h := List.mem_append.mp h
    · exact .inr ⟨r, hr, h⟩
    · exact (ih h).imp_left (List.mem_append_right r.pat)
  | skip d t happly ih =>
    rw [replace_of_none happly] at h
    obtain rfl | h := List.mem_cons.mp h
    · exact .inl List.mem_cons_self
    · exact (ih h).imp_left (List.mem_cons_of_mem d)

theorem mem_replace_of_mem {c : α} (hS : ∀ r ∈ S, c ∉ r.pat) (h : c ∈ t) : c ∈ replace S t := by
  induction t using replace_induction S with
  | nil => exact h
  | hit r hr t happly ih =>
    rw [replace_of_some happly]
    obtain h | h := List.mem_append.mp h
    · exact absurd h (hS r hr)
    · exact List.mem_append_right r.rep (ih h)
  | skip d t happly ih =>
    rw [replace_of_none happly]
    obtain rfl | h := List.mem_cons.mp h
    · exact List.mem_cons_self
    · exact List.mem_cons_of_mem d (ih h)

end Replace

section Apart

def Apart (r r' : Rule α) : Prop := ¬ r.pat <+: r'.pat ∧ ¬ r'.pat <+: r.pat

instance (r r' : Rule α) : Decidable (Apart r r') := inferInstanceAs (Decidable (_ ∧ _))

variable {S S' : List (Rule α)} {r : Rule α} {t : List α}

instance : Std.Symm (Apart (α := α)) := ⟨fun _ _ h ↦ ⟨h.2, h.1⟩⟩

omit [DecidableEq α] in
theorem Apart.no_match {r r' : Rule α} (h : Apart r r') (t : List α) :
    ¬ r'.pat <+: r.pat ++ t := by
  intro hpre
  obtain hle | hle := List.prefix_or_prefix_of_prefix (List.prefix_append r.pat t) hpre
  · exact h.1 hle
  · exact h.2 hle

theorem applies_eq_some_iff (h : S.Pairwise Apart) :
    applies S t = some r ↔ r ∈ S ∧ r.pat <+: t := by
  constructor
  · intro happly
    exact ⟨mem_of_applies happly, prefix_of_applies happly⟩
  · rintro ⟨hmem, hpre⟩
    cases happly : applies S t with
    | none => exact absurd hpre (applies_eq_none.mp happly r hmem)
    | some r' =>
      by_contra hne
      have hapart := h.forall (mem_of_applies happly) hmem fun heq ↦ hne (congrArg some heq)
      obtain hle | hle := List.prefix_or_prefix_of_prefix (prefix_of_applies happly) hpre
      · exact hapart.1 hle
      · exact hapart.2 hle

theorem replace_congr (h : S.Pairwise Apart) (h' : S'.Pairwise Apart)
    (hmem : ∀ r, r ∈ S ↔ r ∈ S') (t : List α) : replace S t = replace S' t := by
  have happly (t : List α) : applies S t = applies S' t := by
    apply Option.ext
    intro r
    rw [applies_eq_some_iff h, applies_eq_some_iff h', hmem]
  induction t using replace_induction S with
  | nil => rfl
  | hit r hr t hsome ih => rw [replace_of_some hsome, replace_of_some (happly _ ▸ hsome), ih]
  | skip c t hnone ih => rw [replace_of_none hnone, replace_of_none (happly _ ▸ hnone), ih]

end Apart

section Preimages

variable {S T G : List (Rule α)} {crit : List (List α)} {t w : List α}

/-- The ways in which the replaced text can have come to begin with a word: each is what the text
itself begins with then. The number bounds the length of the word. -/
def preimages (S : List (Rule α)) : ℕ → List α → List (List α)
  | _, [] => [[]]
  | 0, _ :: _ => []
  | n + 1, c :: w =>
    (preimages S n w).map (c :: ·) ++ S.flatMap fun r ↦
      if c :: w <+: r.rep then [r.pat]
      else if r.rep <+: c :: w then
        (preimages S n ((c :: w).drop r.rep.length)).map (r.pat ++ ·)
      else []

theorem exists_preimage (hST : S ⊆ T) {n : ℕ} (hn : w.length ≤ n) (h : w <+: replace S t) :
    ∃ u ∈ preimages T n w, u <+: t := by
  induction n generalizing w t with
  | zero =>
    obtain rfl := List.eq_nil_of_length_eq_zero (Nat.le_zero.mp hn)
    exact ⟨[], List.mem_singleton_self _, List.nil_prefix⟩
  | succ n ih =>
    cases w with
    | nil => exact ⟨[], List.mem_singleton_self _, List.nil_prefix⟩
    | cons c w =>
      cases happly : applies S t with
      | some r =>
        obtain ⟨rest, rfl⟩ := prefix_of_applies happly
        rw [replace_of_some happly] at h
        have hmem := hST (mem_of_applies happly)
        by_cases hrep : c :: w <+: r.rep
        · refine ⟨r.pat, ?_, List.prefix_append _ _⟩
          rw [preimages, List.mem_append, List.mem_flatMap]
          exact .inr ⟨r, hmem, by rw [if_pos hrep]; exact List.mem_singleton_self _⟩
        · have hlonger : r.rep <+: c :: w :=
            (List.prefix_or_prefix_of_prefix h (List.prefix_append _ _)).resolve_left hrep
          obtain ⟨w', hw'⟩ := hlonger
          rw [← hw', List.prefix_append_right_inj] at h
          have hpos := List.length_pos_iff.mpr r.rep_ne_nil
          have hlen := congrArg List.length hw'
          rw [List.length_append] at hlen
          obtain ⟨u, hu, hpre⟩ := ih (by omega) h
          refine ⟨r.pat ++ u, ?_, (List.prefix_append_right_inj r.pat).mpr hpre⟩
          rw [preimages, List.mem_append, List.mem_flatMap]
          refine .inr ⟨r, hmem, ?_⟩
          rw [if_neg hrep, if_pos ⟨w', hw'⟩, ← hw', List.drop_left]
          exact List.mem_map_of_mem hu
      | none =>
        cases t with
        | nil => simp at h
        | cons c' t =>
          rw [replace_of_none happly, List.cons_prefix_cons] at h
          obtain ⟨rfl, h⟩ := h
          obtain ⟨u, hu, hpre⟩ := ih (Nat.le_of_succ_le_succ hn) h
          refine ⟨c :: u, ?_, List.cons_prefix_cons.mpr ⟨rfl, hpre⟩⟩
          rw [preimages, List.mem_append]
          exact .inl (List.mem_map_of_mem hu)

omit [DecidableEq α] in
def Clear (crit : List (List α)) (t : List α) : Prop := ∀ w ∈ crit, ¬ w <:+: t

omit [DecidableEq α] in
theorem Clear.mono {t' : List α} (h : Clear crit t') (ht : t <:+: t') : Clear crit t :=
  fun w hw hoccurs ↦ h w hw (hoccurs.trans ht)

omit [DecidableEq α] in
theorem prefix_append_cases {v y : List α} (h : w <+: v ++ y) :
    w <+: v ∨ v <+: w ∧ w.drop v.length <+: y := by
  obtain hle | hle := List.prefix_or_prefix_of_prefix h (List.prefix_append v y)
  · exact .inl hle
  · obtain ⟨rest, rfl⟩ := hle
    rw [List.prefix_append_right_inj] at h
    exact .inr ⟨List.prefix_append _ _, by rwa [List.drop_left]⟩

/-- Where none of the words occurs, no match of `g` begins with `v`, which stands in the place of
`p`, even if the match goes on behind it. -/
def Excludes (T : List (Rule α)) (crit : List (List α)) (p v : List α) (g : Rule α) : Prop :=
  ¬ g.pat <+: v ∧ (v <+: g.pat →
    ∀ u ∈ preimages T g.pat.length (g.pat.drop v.length), p ++ u ∈ crit)

instance (T : List (Rule α)) (crit : List (List α)) (p v : List α) (g : Rule α) :
    Decidable (Excludes T crit p v g) := by
  unfold Excludes
  infer_instance

theorem Excludes.no_match {p v : List α} {g : Rule α} (h : Excludes T crit p v g) (hST : S ⊆ T)
    (hclear : Clear crit (p ++ t)) : ¬ g.pat <+: v ++ replace S t := by
  intro hpre
  obtain hin | ⟨hle, hrest⟩ := prefix_append_cases hpre
  · exact h.1 hin
  · have hlen : (g.pat.drop v.length).length ≤ g.pat.length := by
      rw [List.length_drop]
      omega
    obtain ⟨u, hu, hut⟩ := exists_preimage hST hlen hrest
    apply hclear _ (h.2 hle u hu)
    exact ((List.prefix_append_right_inj p).mpr hut).isInfix

theorem replace_of_no_rule (t : List α) : replace [] t = t := by
  induction t using replace_induction ([] : List (Rule α)) with
  | nil => rfl
  | hit r hr => cases hr
  | skip c t hnone ih => rw [replace_of_none hnone, ih]

section

variable (T G : List (Rule α)) (crit : List (List α))

/-- A match of a rule in `G` that begins with a letter that is kept was one before the matches of
rules in `T` were replaced, unless one of the words occurs. -/
def SettlesLetters : Prop :=
  ∀ g ∈ G, ∀ u ∈ preimages T g.pat.length g.pat.tail,
    u = g.pat.tail ∨ g.pat.take 1 ++ u ∈ crit

/-- No match of a rule in `G` begins in what stands in the place of a match of a rule in `T`. -/
def SettlesMatches : Prop :=
  ∀ r ∈ T, ∀ v ∈ r.rep.tails, v ≠ [] → ∀ g ∈ G, Excludes T crit r.pat v g

/-- No match of a rule in `T` begins inside a match of a rule in `G`. -/
def SettlesOverlaps : Prop :=
  ∀ g ∈ G, ∀ v ∈ g.pat.tail.tails, v ≠ [] → ∀ r ∈ T, Excludes [] crit g.pat v r

instance : Decidable (SettlesLetters T G crit) := by
  unfold SettlesLetters
  infer_instance

instance : Decidable (SettlesMatches T G crit) := by
  unfold SettlesMatches
  infer_instance

instance : Decidable (SettlesOverlaps T G crit) := by
  unfold SettlesOverlaps
  infer_instance

/-- Replacing the matches of rules in `T` makes or unmakes a match of a rule in `G` only where one
of the words occurs. -/
def Settles : Prop :=
  SettlesLetters T G crit ∧ SettlesMatches T G crit ∧ SettlesOverlaps T G crit

instance : Decidable (Settles T G crit) := inferInstanceAs (Decidable (_ ∧ _ ∧ _))

end

/-- Where none of the words occurs, replacing the matches of some rules and then those of others is
the same as replacing them all at once. -/
theorem replace_replace (hST : S ⊆ T) (hapart : (S ++ G).Pairwise Apart)
    (hsettles : Settles T G crit) (hclear : Clear crit t) :
    replace G (replace S t) = replace (S ++ G) t := by
  obtain ⟨hletters, hmatches, hoverlaps⟩ := hsettles
  obtain ⟨hapartS, hapartG, hcross⟩ := List.pairwise_append.mp hapart
  induction t using replace_induction (S ++ G) with
  | nil => rfl
  | hit r hr t happly ih =>
    have hclear' : Clear crit t := hclear.mono (List.suffix_append _ _).isInfix
    rw [replace_of_some happly, ← ih hclear']
    obtain hr | hr := List.mem_append.mp hr
    · have hS : applies S (r.pat ++ t) = some r :=
        (applies_eq_some_iff hapartS).mpr ⟨hr, List.prefix_append _ _⟩
      rw [replace_of_some hS]
      apply replace_append_of_not_prefix
      intro v hv hne g hg
      exact (hmatches r (hST hr) v ((List.mem_tails v r.rep).mpr hv) hne g hg).no_match hST hclear
    · have hS : replace S (r.pat ++ t) = r.pat ++ replace S t := by
        apply replace_append_of_not_prefix
        intro v hv hne s hs hpre
        by_cases hwhole : v = r.pat
        · rw [hwhole] at hpre
          exact Apart.no_match (Std.Symm.symm s r (hcross s hs r hr)) t hpre
        · have hproper : v <:+ r.pat.tail := by
            obtain ⟨c, p, hp⟩ := List.exists_cons_of_ne_nil r.pat_ne_nil
            rw [hp] at hv hwhole ⊢
            exact (List.suffix_cons_iff.mp hv).resolve_left hwhole
          have hno := (hoverlaps r hr v ((List.mem_tails v r.pat.tail).mpr hproper) hne s
            (hST hs)).no_match (List.Subset.refl []) hclear
          rw [replace_of_no_rule] at hno
          exact hno hpre
      rw [hS]
      apply replace_of_some
      exact (applies_eq_some_iff hapartG).mpr ⟨hr, List.prefix_append _ _⟩
  | skip c t happly ih =>
    have hclear' : Clear crit t := hclear.mono (List.suffix_cons c t).isInfix
    have hnone := applies_eq_none.mp happly
    have hS : applies S (c :: t) = none :=
      applies_eq_none.mpr fun r hr ↦ hnone r (List.mem_append_left G hr)
    rw [replace_of_none happly, replace_of_none hS, ← ih hclear']
    apply replace_of_none
    apply applies_eq_none.mpr
    intro g hg hpre
    obtain ⟨d, p, hp⟩ := List.exists_cons_of_ne_nil g.pat_ne_nil
    rw [hp, List.cons_prefix_cons] at hpre
    obtain ⟨rfl, hpre⟩ := hpre
    have hg' := hletters g hg
    rw [hp, List.tail_cons] at hg'
    have hlen : p.length ≤ (d :: p).length := by simp
    obtain ⟨u, hu, hut⟩ := exists_preimage hST hlen hpre
    obtain rfl | hcrit := hg' u hu
    · apply hnone g (List.mem_append_right S hg)
      rw [hp]
      exact List.cons_prefix_cons.mpr ⟨rfl, hut⟩
    · apply hclear _ hcrit
      exact (List.cons_prefix_cons.mpr ⟨rfl, hut⟩ : d :: u <+: d :: t).isInfix

end Preimages

end Liota.Rewriting
