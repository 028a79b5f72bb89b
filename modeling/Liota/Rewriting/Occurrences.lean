import Mathlib.Algebra.BigOperators.Group.List.Basic
import Mathlib.Algebra.Order.Group.Int
import Mathlib.Tactic.Ring
import Liota.Rewriting.Rules

namespace Liota.Rewriting

variable {α : Type} [DecidableEq α] {Y : List (Rule α)} {r : Rule α} {a x z t : List α}

def occ (z : List α) : List α → ℕ
  | [] => 0
  | c :: t => (if z <+: c :: t then 1 else 0) + occ z t

/-- No occurrence of `z` begins in `x`, whatever comes behind `x`. -/
def Avoids (x z : List α) : Prop := ∀ v ∈ x.tails, v ≠ [] → ¬ z <+: v ∧ ¬ v <+: z

instance (x z : List α) : Decidable (Avoids x z) := by
  unfold Avoids
  infer_instance

section Avoids

omit [DecidableEq α] in
theorem Avoids.no_match (h : Avoids x z) {v : List α} (hv : v <:+ x) (hne : v ≠ [])
    (t : List α) : ¬ z <+: v ++ t := by
  obtain ⟨hlong, hshort⟩ := h v ((List.mem_tails v x).mpr hv) hne
  intro hpre
  obtain hle | hle := List.prefix_or_prefix_of_prefix hpre (List.prefix_append v t)
  · exact hlong hle
  · exact hshort hle

omit [DecidableEq α] in
theorem Avoids.suffix (h : Avoids x z) {v : List α} (hv : v <:+ x) : Avoids v z := by
  intro w hw
  rw [List.mem_tails] at hw
  exact h w ((List.mem_tails w x).mpr (hw.trans hv))

theorem occ_append_of_avoids (h : Avoids x z) (t : List α) : occ z (x ++ t) = occ z t := by
  induction x with
  | nil => rfl
  | cons c x ih =>
    have hno := h.no_match (List.suffix_refl _) (List.cons_ne_nil c x) t
    rw [List.cons_append] at hno ⊢
    rw [occ, if_neg hno, ih (h.suffix (List.suffix_cons c x)), Nat.zero_add]

theorem occ_le_occ_append (z x t : List α) : occ z t ≤ occ z (x ++ t) := by
  induction x with
  | nil => exact le_rfl
  | cons c x ih =>
    rw [List.cons_append, occ]
    omega

theorem occ_lt_occ_append (hne : z ≠ []) (h : z <:+: x) (t : List α) :
    occ z t < occ z (x ++ t) := by
  obtain ⟨p, q, rfl⟩ := h
  obtain ⟨c, w, rfl⟩ := List.exists_cons_of_ne_nil hne
  have hinside : occ (c :: w) (c :: (w ++ (q ++ t))) = 1 + occ (c :: w) (w ++ (q ++ t)) := by
    rw [occ, if_pos]
    exact List.cons_prefix_cons.mpr ⟨rfl, List.prefix_append _ _⟩
  have hbefore := occ_le_occ_append (c :: w) p (c :: (w ++ (q ++ t)))
  have hbehind := occ_le_occ_append (c :: w) (w ++ q) t
  simp only [List.append_assoc, List.cons_append] at hbefore hbehind ⊢
  omega

theorem replace_append_of_avoids (h : ∀ r ∈ Y, Avoids x r.pat) (t : List α) :
    replace Y (x ++ t) = x ++ replace Y t :=
  replace_append_of_not_prefix fun _ hv hne r hr ↦ (h r hr).no_match hv hne t

end Avoids

section Monotone

def Spares (Y : List (Rule α)) (z : List α) : Prop :=
  (∀ r ∈ Y, Avoids r.pat z) ∧ ∀ r ∈ Y, Avoids z.tail r.pat

instance (Y : List (Rule α)) (z : List α) : Decidable (Spares Y z) :=
  inferInstanceAs (Decidable (_ ∧ _))

theorem Spares.prefix_replace (h : Spares Y z) {c : α} (hpre : z <+: c :: t) :
    z <+: c :: replace Y t := by
  cases z with
  | nil => exact List.nil_prefix
  | cons d w =>
    obtain ⟨rfl, ⟨rest, rfl⟩⟩ := List.cons_prefix_cons.mp hpre
    have hcopy : replace Y (w ++ rest) = w ++ replace Y rest := replace_append_of_avoids h.2 rest
    rw [hcopy]
    exact List.cons_prefix_cons.mpr ⟨rfl, List.prefix_append _ _⟩

theorem Spares.occ_le (h : Spares Y z) (t : List α) : occ z t ≤ occ z (replace Y t) := by
  induction t using replace_induction Y with
  | nil => exact le_rfl
  | hit r hr t happly ih =>
    rw [replace_of_some happly, occ_append_of_avoids (h.1 r hr)]
    exact ih.trans (occ_le_occ_append _ _ _)
  | skip c t happly ih =>
    rw [replace_of_none happly, occ, occ]
    by_cases hpre : z <+: c :: t
    · rw [if_pos hpre, if_pos (h.prefix_replace hpre)]
      omega
    · rw [if_neg hpre]
      omega

def MakesNone (Y : List (Rule α)) (z : List α) : Prop :=
  (∀ r ∈ Y, Avoids r.rep z) ∧ ∀ u ∈ preimages Y z.length z.tail, u = z.tail

instance (Y : List (Rule α)) (z : List α) : Decidable (MakesNone Y z) :=
  inferInstanceAs (Decidable (_ ∧ _))

theorem MakesNone.prefix_of_replace (h : MakesNone Y z) {c : α} (hpre : z <+: c :: replace Y t) :
    z <+: c :: t := by
  cases z with
  | nil => exact List.nil_prefix
  | cons d w =>
    obtain ⟨rfl, htail⟩ := List.cons_prefix_cons.mp hpre
    have hlen : w.length ≤ (d :: w).length := by simp
    obtain ⟨u, hu, hut⟩ := exists_preimage (List.Subset.refl Y) hlen htail
    obtain rfl : u = w := h.2 u hu
    exact List.cons_prefix_cons.mpr ⟨rfl, hut⟩

theorem MakesNone.occ_le (h : MakesNone Y z) (t : List α) : occ z (replace Y t) ≤ occ z t := by
  induction t using replace_induction Y with
  | nil => exact le_rfl
  | hit r hr t happly ih =>
    rw [replace_of_some happly, occ_append_of_avoids (h.1 r hr)]
    exact ih.trans (occ_le_occ_append _ _ _)
  | skip c t happly ih =>
    rw [replace_of_none happly, occ, occ]
    by_cases hpre : z <+: c :: replace Y t
    · rw [if_pos hpre, if_pos (h.prefix_of_replace hpre)]
      omega
    · rw [if_neg hpre]
      omega

end Monotone

section Strict

def Closed (Y : List (Rule α)) (a : List α) : Prop :=
  (∀ v ∈ a.tails, v ≠ [] → ∀ r ∈ Y, v <+: r.pat → r.pat <+: v) ∧ ∀ r ∈ Y, Avoids r.pat.tail a

instance (Y : List (Rule α)) (a : List α) : Decidable (Closed Y a) :=
  inferInstanceAs (Decidable (_ ∧ _))

theorem applies_append {v : List α} (h : ∀ r ∈ Y, v <+: r.pat → r.pat <+: v) (t : List α) :
    applies Y (v ++ t) = applies Y v := by
  rw [applies, applies, ← List.head?_filter, ← List.head?_filter]
  apply congrArg List.head?
  apply List.filter_congr
  intro r hr
  rw [Bool.eq_iff_iff, List.isPrefixOf_iff_prefix, List.isPrefixOf_iff_prefix]
  constructor
  · intro hpre
    obtain hle | hle := List.prefix_or_prefix_of_prefix hpre (List.prefix_append v t)
    · exact hle
    · exact h r hr hle
  · intro hpre
    exact hpre.trans (List.prefix_append v t)

theorem Closed.replace_append (h : Closed Y a) (t : List α) :
    replace Y (a ++ t) = replace Y a ++ replace Y t := by
  have hends : ∀ v, v <:+ a → v ≠ [] → ∀ r ∈ Y, v <+: r.pat → r.pat <+: v :=
    fun v hv ↦ h.1 v ((List.mem_tails v a).mpr hv)
  clear h
  induction a using replace_induction Y with
  | nil => rfl
  | hit r hr a happly ih =>
    have hne : r.pat ++ a ≠ [] := by simp [r.pat_ne_nil]
    have hwhole := applies_append (hends _ (List.suffix_refl _) hne) t
    rw [happly, List.append_assoc] at hwhole
    rw [List.append_assoc, replace_of_some hwhole, replace_of_some happly,
      ih fun v hv ↦ hends v (hv.trans (List.suffix_append _ _)), List.append_assoc]
  | skip c a happly ih =>
    have hwhole := applies_append (hends _ (List.suffix_refl _) (List.cons_ne_nil c a)) t
    rw [happly, List.cons_append] at hwhole
    rw [List.cons_append, replace_of_none hwhole, replace_of_none happly,
      ih fun v hv ↦ hends v (hv.trans (List.suffix_cons c a)), List.cons_append]

theorem Closed.induction_at (h : Closed Y a) {motive : List α → Prop}
    (here : ∀ y, motive (a ++ y))
    (hit : ∀ r ∈ Y, ∀ t, applies Y (r.pat ++ t) = some r → motive t → motive (r.pat ++ t))
    (skip : ∀ c t, applies Y (c :: t) = none → motive t → motive (c :: t)) (ht : a <:+: t) :
    motive t := by
  induction t using replace_induction Y with
  | nil =>
    obtain rfl := List.infix_nil.mp ht
    exact here []
  | hit r hr t happly ih =>
    obtain ⟨p, q, hpq⟩ := ht
    rw [List.append_assoc] at hpq
    obtain ⟨w, hw, hrest⟩ | ⟨w, -, hrest⟩ := List.append_eq_append_iff.mp hpq
    · cases p with
      | nil =>
        rw [← hpq]
        exact here q
      | cons c p =>
        have htail : w <:+ r.pat.tail := by
          rw [hw]
          exact List.suffix_append p w
        by_cases hne : w = []
        · rw [hne, List.nil_append] at hrest
          rw [← hrest]
          rw [← hrest] at happly ih
          exact hit r hr _ happly (ih (List.prefix_append a q).isInfix)
        · have hno := (h.2 r hr).no_match htail hne t
          rw [← hrest] at hno
          exact absurd (List.prefix_append a q) hno
    · rw [hrest] at happly ih ⊢
      exact hit r hr _ happly (ih ⟨w, q, List.append_assoc _ _ _⟩)
  | skip c t happly ih =>
    obtain hpre | hin := List.infix_cons_iff.mp ht
    · obtain ⟨q, hq⟩ := hpre
      rw [← hq]
      exact here q
    · exact skip c t happly (ih hin)

theorem Closed.infix_replace (h : Closed Y a) {b : List α} (hb : b <:+: replace Y a)
    (ht : a <:+: t) : b <:+: replace Y t := by
  apply h.induction_at (motive := fun t ↦ b <:+: replace Y t) _ _ _ ht
  · intro y
    rw [h.replace_append]
    exact hb.trans (List.prefix_append _ _).isInfix
  · intro r hr t happly ih
    rw [replace_of_some happly]
    exact ih.trans (List.suffix_append _ _).isInfix
  · intro c t happly ih
    rw [replace_of_none happly]
    exact ih.trans (List.suffix_cons _ _).isInfix

theorem Closed.occ_lt (h : Closed Y a) (hspares : Spares Y z) (hne : z ≠ []) (hbefore : Avoids a z)
    (hafter : z <:+: replace Y a) (ht : a <:+: t) : occ z t < occ z (replace Y t) := by
  apply h.induction_at (motive := fun t ↦ occ z t < occ z (replace Y t)) _ _ _ ht
  · intro y
    rw [h.replace_append, occ_append_of_avoids hbefore]
    exact (hspares.occ_le y).trans_lt (occ_lt_occ_append hne hafter _)
  · intro r hr t happly ih
    rw [replace_of_some happly, occ_append_of_avoids (hspares.1 r hr)]
    exact ih.trans_le (occ_le_occ_append _ _ _)
  · intro c t happly ih
    rw [replace_of_none happly, occ, occ]
    by_cases hpre : z <+: c :: t
    · rw [if_pos hpre, if_pos (hspares.prefix_replace hpre)]
      omega
    · rw [if_neg hpre]
      omega

end Strict

section Overlap

def Separate (Y : List (Rule α)) : Prop :=
  Y.Pairwise Apart ∧ ∀ r ∈ Y, ∀ r' ∈ Y, Avoids r.pat.tail r'.pat

instance (Y : List (Rule α)) : Decidable (Separate Y) := inferInstanceAs (Decidable (_ ∧ _))

theorem Separate.replace_at (hY : Separate Y) (hr : r ∈ Y) (x y : List α) :
    replace Y (x ++ (r.pat ++ y)) = replace Y x ++ (r.rep ++ replace Y y) := by
  induction x using replace_induction Y with
  | nil =>
    apply replace_of_some
    exact (applies_eq_some_iff hY.1).mpr ⟨hr, List.prefix_append _ _⟩
  | hit s hs x happly ih =>
    have hwhole : applies Y (s.pat ++ (x ++ (r.pat ++ y))) = some s :=
      (applies_eq_some_iff hY.1).mpr ⟨hs, List.prefix_append _ _⟩
    rw [List.append_assoc, replace_of_some hwhole, replace_of_some happly, ih, List.append_assoc]
  | skip c x happly ih =>
    have hwhole : applies Y (c :: (x ++ (r.pat ++ y))) = none := by
      apply applies_eq_none.mpr
      intro s hs hpre
      have hno := applies_eq_none.mp happly s hs
      obtain hle | ⟨⟨v, hv⟩, hrest⟩ := prefix_append_cases (v := c :: x) hpre
      · exact hno hle
      · rw [← hv, List.drop_left] at hrest
        have hne : v ≠ [] := by
          rintro rfl
          exact hno ⟨[], by rw [List.append_nil, ← hv, List.append_nil]⟩
        have hsuffix : v <:+ s.pat.tail := by
          rw [← hv]
          exact List.suffix_append x v
        obtain ⟨hlong, hshort⟩ := hY.2 s hs r hr v ((List.mem_tails v _).mpr hsuffix) hne
        obtain hle | hle := List.prefix_or_prefix_of_prefix hrest (List.prefix_append r.pat y)
        · exact hshort hle
        · exact hlong hle
    rw [List.cons_append, replace_of_none hwhole, replace_of_none happly, ih, List.cons_append]

theorem occ_lt_occ_of_begins {v : List α} (hv : v <:+ x) (hne : v ≠ []) (h : z <+: v ++ t) :
    occ z t < occ z (x ++ t) := by
  obtain ⟨p, rfl⟩ := hv
  obtain ⟨c, v, rfl⟩ := List.exists_cons_of_ne_nil hne
  have hhere : occ z (c :: v ++ t) = 1 + occ z (v ++ t) := by
    rw [List.cons_append] at h ⊢
    rw [occ, if_pos h]
  have hbefore := occ_le_occ_append z p (c :: v ++ t)
  have hbehind := occ_le_occ_append z v t
  rw [List.append_assoc]
  omega

/-- A match of `s` behind `u` overlaps with a match of `r` that begins with `u`, and what stands in
its place then does not go on as the match of `r` does. -/
def Overlaps (Y : List (Rule α)) (u : List α) (r s : Rule α) : Prop :=
  (u ≠ [] ∧ r.pat <+: u ++ s.pat) ∧ replace Y u.tail = u.tail ∧
    ¬ r.pat <+: u ++ s.rep ∧ ¬ u ++ s.rep <+: r.pat

instance (Y : List (Rule α)) (u : List α) (r s : Rule α) : Decidable (Overlaps Y u r s) :=
  inferInstanceAs (Decidable (_ ∧ _ ∧ _ ∧ _))

theorem Separate.occ_gt (hY : Separate Y) {s : Rule α} (hmakes : MakesNone Y r.pat) (hs : s ∈ Y)
    {u : List α} (hoverlaps : Overlaps Y u r s) (ht : u ++ s.pat <:+: t) :
    occ r.pat (replace Y t) < occ r.pat t := by
  obtain ⟨⟨hu, hpre⟩, hkeeps, hlost⟩ := hoverlaps
  have hbegins (e : List α) : r.pat <+: u ++ (s.pat ++ e) := by
    rw [← List.append_assoc]
    exact hpre.trans (List.prefix_append _ _)
  induction t using replace_induction Y with
  | nil => simp [hu] at ht
  | hit s' hs' t happly ih =>
    rw [replace_of_some happly, occ_append_of_avoids (hmakes.1 s' hs')]
    obtain ⟨p, e, hpe⟩ := ht
    rw [List.append_assoc, List.append_assoc] at hpe
    obtain ⟨w, hw, hrest⟩ | ⟨w, -, hrest⟩ := List.append_eq_append_iff.mp hpe
    · by_cases hne : w = []
      · rw [hne, List.nil_append] at hrest
        have hin : u ++ s.pat <:+: t := ⟨[], e, by simp [← hrest]⟩
        exact (ih hin).trans_le (occ_le_occ_append _ _ _)
      · have hinside : r.pat <+: w ++ t := by
          rw [← hrest]
          exact hbegins e
        have hsuffix : w <:+ s'.pat := ⟨p, hw.symm⟩
        exact (hmakes.occ_le t).trans_lt (occ_lt_occ_of_begins hsuffix hne hinside)
    · have hin : u ++ s.pat <:+: t := ⟨w, e, by simp [hrest]⟩
      exact (ih hin).trans_le (occ_le_occ_append _ _ _)
  | skip c t happly ih =>
    rw [replace_of_none happly, occ, occ]
    obtain hhere | hin := List.infix_cons_iff.mp ht
    · obtain ⟨e, he⟩ := hhere
      obtain ⟨d, u, rfl⟩ := List.exists_cons_of_ne_nil hu
      rw [List.append_assoc, List.cons_append] at he
      obtain ⟨rfl, rfl⟩ := List.cons.inj he
      rw [List.tail_cons] at hkeeps
      have hno : ¬ r.pat <+: d :: replace Y (u ++ (s.pat ++ e)) := by
        rw [hY.replace_at hs, hkeeps, ← List.cons_append, ← List.append_assoc]
        intro hafter
        obtain hle | hle := List.prefix_or_prefix_of_prefix hafter (List.prefix_append _ _)
        · exact hlost.1 hle
        · exact hlost.2 hle
      have hle := hmakes.occ_le (u ++ (s.pat ++ e))
      have hyes : r.pat <+: d :: (u ++ (s.pat ++ e)) := hbegins e
      rw [if_neg hno, if_pos hyes]
      omega
    · have hlt := ih hin
      by_cases hafter : r.pat <+: c :: replace Y t
      · rw [if_pos hafter, if_pos (hmakes.prefix_of_replace hafter)]
        omega
      · rw [if_neg hafter]
        omega

end Overlap

section Potential

variable {Φ : List α → ℤ} {δ : Rule α → ℤ}

def Shifts (Φ : List α → ℤ) (r : Rule α) (d : ℤ) : Prop :=
  ∀ x y, Φ (x ++ (r.rep ++ y)) = Φ (x ++ (r.pat ++ y)) + d

def changes (Y : List (Rule α)) (δ : Rule α → ℤ) (t : List α) : ℤ :=
  (Y.map fun r ↦ δ r * occ r.pat t).sum

theorem occ_match (hr : r ∈ Y) (hY : Separate Y) {r' : Rule α} (hr' : r' ∈ Y) (t : List α) :
    occ r'.pat (r.pat ++ t) = (if r'.pat <+: r.pat ++ t then 1 else 0) + occ r'.pat t := by
  obtain ⟨c, p, hp⟩ := List.exists_cons_of_ne_nil r.pat_ne_nil
  have havoids := hY.2 r hr r' hr'
  rw [hp, List.tail_cons] at havoids
  rw [hp, List.cons_append, occ, occ_append_of_avoids havoids]

theorem sum_match {Z : List (Rule α)} (hZ : Z.Pairwise Apart) (hr : r ∈ Z) (t : List α) :
    (Z.map fun r' ↦ δ r' * if r'.pat <+: r.pat ++ t then 1 else 0).sum = δ r := by
  induction Z with
  | nil => cases hr
  | cons r' Z ih =>
    obtain ⟨hhead, hrest⟩ := List.pairwise_cons.mp hZ
    rw [List.map_cons, List.sum_cons]
    obtain rfl | hr := List.mem_cons.mp hr
    · have hzero : ∀ r'' ∈ Z, (δ r'' * if r''.pat <+: r.pat ++ t then (1 : ℤ) else 0) = 0 := by
        intro r'' hr''
        rw [if_neg ((hhead r'' hr'').no_match t), mul_zero]
      rw [if_pos (List.prefix_append _ _), List.map_congr_left hzero]
      simp
    · have hapart : Apart r r' := Std.Symm.symm r' r (hhead r hr)
      rw [if_neg (hapart.no_match t), ih hrest hr]
      ring

theorem potential_replace (hY : Separate Y) (hshifts : ∀ r ∈ Y, Shifts Φ r (δ r))
    (x t : List α) : Φ (x ++ replace Y t) = Φ (x ++ t) + changes Y δ t := by
  induction t using replace_induction Y generalizing x with
  | nil =>
    simp [changes, occ]
  | hit r hr t happly ih =>
    have hcount : changes Y δ (r.pat ++ t) = δ r + changes Y δ t := by
      rw [changes, changes, ← sum_match (δ := δ) hY.1 hr t, ← List.sum_map_add]
      apply congrArg List.sum
      apply List.map_congr_left
      intro r' hr'
      rw [occ_match hr hY hr' t]
      push_cast
      ring
    rw [replace_of_some happly, hshifts r hr, ← List.append_assoc, ih, List.append_assoc, hcount]
    ring
  | skip c t happly ih =>
    have hcount : changes Y δ (c :: t) = changes Y δ t := by
      apply congrArg List.sum
      apply List.map_congr_left
      intro r hr
      rw [occ, if_neg (applies_eq_none.mp happly r hr), Nat.zero_add]
    have hstep := ih (x ++ [c])
    rw [List.append_assoc, List.append_assoc] at hstep
    rw [replace_of_none happly, hcount]
    exact hstep

end Potential

section Statistic

variable (a b κ : α → ℤ)

/-- Every letter counts with `a`, and with `b` as often as letters marked by `κ` stand before it;
`n` of them are in front of the text. -/
def statistic : ℤ → List α → ℤ
  | _, [] => 0
  | n, c :: t => a c + b c * n + statistic (n + κ c) t

omit [DecidableEq α] in
theorem statistic_append (n : ℤ) (x y : List α) :
    statistic a b κ n (x ++ y) =
      statistic a b κ n x + statistic a b κ (n + (x.map κ).sum) y := by
  induction x generalizing n with
  | nil => simp [statistic]
  | cons c x ih =>
    rw [List.cons_append, statistic, statistic, ih, List.map_cons, List.sum_cons]
    ring_nf

omit [DecidableEq α] in
theorem statistic_shift (n m : ℤ) (x : List α) :
    statistic a b κ (n + m) x = statistic a b κ n x + m * (x.map b).sum := by
  induction x generalizing n with
  | nil => simp [statistic]
  | cons c x ih =>
    have harg : n + m + κ c = n + κ c + m := by ring
    rw [statistic, statistic, harg, ih, List.map_cons, List.sum_cons]
    ring

omit [DecidableEq α] in
theorem shifts_statistic (hκ : (r.rep.map κ).sum = (r.pat.map κ).sum)
    (hb : (r.rep.map b).sum = (r.pat.map b).sum) :
    Shifts (statistic a b κ 0) r (statistic a b κ 0 r.rep - statistic a b κ 0 r.pat) := by
  intro x y
  simp only [statistic_append, hκ]
  have hshift (w : List α) : statistic a b κ (0 + (x.map κ).sum) w =
      statistic a b κ 0 w + (x.map κ).sum * (w.map b).sum := statistic_shift a b κ 0 _ w
  rw [hshift, hshift, hb]
  ring

end Statistic

end Liota.Rewriting
