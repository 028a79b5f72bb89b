import Mathlib.Algebra.Order.BigOperators.Group.List
import Mathlib.Data.List.Induction
import Mathlib.Data.List.Perm.Subperm
import Liota.Rewriting.Occurrences

namespace Liota.Rewriting

variable {α ι : Type} [DecidableEq α] [DecidableEq ι]

section Run

variable (rules : ι → List (Rule α))

def run (ps : List ι) (t : List α) : List α := ps.foldl (fun t i ↦ replace (rules i) t) t

def OrderFree (all : List ι) (t : List α) : Prop :=
  ∀ ps ps', ps.Perm all → ps'.Perm all → run rules ps t = run rules ps' t

def others (all : List ι) (i : ι) : List (Rule α) := (all.filter (· ≠ i)).flatMap rules

omit [DecidableEq ι] in
theorem run_append (ps qs : List ι) (t : List α) :
    run rules (ps ++ qs) t = run rules qs (run rules ps t) := List.foldl_append

end Run

variable {rules : ι → List (Rule α)} {all : List ι} {crit : List (List α)} {t : List α}

section Sufficient

/-- No two rules compete for a place, and two entries meet only where one of the words occurs. -/
structure Settled (rules : ι → List (Rule α)) (all : List ι) (crit : List (List α)) : Prop where
  apart : (all.flatMap rules).Pairwise Apart
  settles : ∀ i ∈ all, Settles (others rules all i) (rules i) crit

omit [DecidableEq α] [DecidableEq ι] in
theorem flatMap_apart {ps : List ι} (h : (all.flatMap rules).Pairwise Apart) (hps : ps.Perm all) :
    (ps.flatMap rules).Pairwise Apart :=
  (hps.flatMap_right rules).symm.pairwise h fun {_ _} hab ↦ Std.Symm.symm _ _ hab

theorem Settled.run_prefix (h : Settled rules all crit) (hclear : Clear crit t) {ps qs : List ι}
    (hps : (ps ++ qs).Perm all) (hnodup : all.Nodup) :
    run rules ps t = replace (ps.flatMap rules) t := by
  induction ps using List.reverseRecOn generalizing qs with
  | nil => exact (replace_of_no_rule t).symm
  | append_singleton ps i ih =>
    rw [List.append_assoc] at hps
    have hapart := flatMap_apart h.apart hps
    rw [List.flatMap_append, List.flatMap_append, ← List.append_assoc] at hapart
    have hnodup' := (hps.nodup_iff.mpr hnodup)
    have hothers : ps.flatMap rules ⊆ others rules all i := by
      intro r hr
      obtain ⟨j, hj, hrj⟩ := List.mem_flatMap.mp hr
      have hne : j ≠ i := by
        rintro rfl
        exact (List.nodup_append.mp hnodup').2.2 j hj j (by simp) rfl
      apply List.mem_flatMap.mpr
      exact ⟨j, List.mem_filter.mpr ⟨hps.mem_iff.mp (by simp [hj]), by simpa using hne⟩, hrj⟩
    rw [run_append, ih hps, List.flatMap_append, List.flatMap_singleton]
    apply replace_replace hothers _ (h.settles i (hps.mem_iff.mp (by simp))) hclear
    rw [List.flatMap_singleton] at hapart
    exact (List.pairwise_append.mp hapart).1

theorem Settled.orderFree (h : Settled rules all crit) (hnodup : all.Nodup)
    (hclear : Clear crit t) : OrderFree rules all t := by
  intro ps ps' hps hps'
  have hrun {qs : List ι} (hqs : qs.Perm all) :
      run rules qs t = replace (qs.flatMap rules) t :=
    h.run_prefix hclear (by rwa [List.append_nil]) hnodup
  rw [hrun hps, hrun hps']
  apply replace_congr (flatMap_apart h.apart hps) (flatMap_apart h.apart hps')
  intro r
  exact ((hps.trans hps'.symm).flatMap_right rules).mem_iff

end Sufficient

section Necessary

variable {Φ : ι → List α → ℤ} {δ : ι → Rule α → ℤ}

/-- For each entry there is a number that its matches raise and those of the others leave alone. -/
structure Measured (rules : ι → List (Rule α)) (all : List ι) (Φ : ι → List α → ℤ)
    (δ : ι → Rule α → ℤ) : Prop where
  separate : ∀ i ∈ all, Separate (rules i)
  raises : ∀ i ∈ all, ∀ r ∈ rules i, 0 < δ i r ∧ Shifts (Φ i) r (δ i r)
  leaves : ∀ i ∈ all, ∀ j ∈ all, j ≠ i → ∀ r ∈ rules j, Shifts (Φ i) r 0

omit [DecidableEq ι] in
theorem Measured.run_others (h : Measured rules all Φ δ) {i : ι} (hi : i ∈ all) {ps : List ι}
    (hps : ∀ j ∈ ps, j ∈ all ∧ j ≠ i) (t : List α) : Φ i (run rules ps t) = Φ i t := by
  induction ps generalizing t with
  | nil => rfl
  | cons j ps ih =>
    obtain ⟨hj, hne⟩ := hps j List.mem_cons_self
    have hpass := potential_replace (h.separate j hj) (δ := fun _ ↦ 0)
      (h.leaves i hi j hj hne) [] t
    have hzero : changes (rules j) (fun _ ↦ 0) t = 0 := by
      simp [changes]
    rw [List.nil_append, List.nil_append, hzero, add_zero] at hpass
    have hrest := ih (fun k hk ↦ hps k (List.mem_cons_of_mem j hk)) (replace (rules j) t)
    rw [hpass] at hrest
    exact hrest

omit [DecidableEq ι] in
theorem Measured.run_order (h : Measured rules all Φ δ) (hnodup : all.Nodup) {pre post : List ι}
    {i : ι} (hps : (pre ++ i :: post).Perm all) (t : List α) :
    Φ i (run rules (pre ++ i :: post) t) =
      Φ i t + changes (rules i) (δ i) (run rules pre t) := by
  have hnodup' := List.nodup_append.mp (hps.nodup_iff.mpr hnodup)
  have hi : i ∈ all := hps.mem_iff.mp (by simp)
  have hpre : ∀ j ∈ pre, j ∈ all ∧ j ≠ i :=
    fun j hj ↦ ⟨hps.mem_iff.mp (by simp [hj]), hnodup'.2.2 j hj i List.mem_cons_self⟩
  have hpost : ∀ j ∈ post, j ∈ all ∧ j ≠ i := by
    intro j hj
    refine ⟨hps.mem_iff.mp (by simp [hj]), ?_⟩
    rintro rfl
    exact (List.nodup_cons.mp hnodup'.2.1).1 hj
  have hpass := potential_replace (h.separate i hi) (fun r hr ↦ (h.raises i hi r hr).2) []
    (run rules pre t)
  rw [List.nil_append, List.nil_append] at hpass
  have hsplit : run rules (pre ++ i :: post) t =
      run rules post (replace (rules i) (run rules pre t)) := run_append rules pre (i :: post) t
  rw [hsplit, h.run_others hi hpost, hpass, h.run_others hi hpre]

omit [DecidableEq ι] in
theorem OrderFree.changes_eq (hfree : OrderFree rules all t) (h : Measured rules all Φ δ)
    (hnodup : all.Nodup) {pre : List ι} {i : ι} (hpre : (i :: pre).Nodup) (hsub : i :: pre ⊆ all) :
    changes (rules i) (δ i) (run rules pre t) = changes (rules i) (δ i) t := by
  obtain ⟨l, hl, hsublist⟩ := hpre.subperm hsub
  obtain ⟨post, hpost⟩ := hsublist.exists_perm_append
  have hfirst : ([] ++ i :: (pre ++ post)).Perm all := (hpost.trans (hl.append_right post)).symm
  have hlater : (pre ++ i :: post).Perm all := List.perm_middle.trans hfirst
  have heq := h.run_order hnodup hlater t
  rw [← hfree _ _ hfirst hlater, h.run_order hnodup hfirst t] at heq
  exact (add_left_cancel heq).symm

variable (rules)

/-- Passes over a word that make a new word, the last of them one in which `z` occurs for the first
time. -/
def Lifts (z : List α) : List ι → List α → Prop
  | [], _ => False
  | [y], a => Closed (rules y) a ∧ Avoids a z ∧ z <:+: replace (rules y) a
  | y :: y' :: ys, a => Closed (rules y) a ∧ Lifts z (y' :: ys) (replace (rules y) a)

instance Lifts.decidable (z : List α) : ∀ ys a, Decidable (Lifts rules z ys a)
  | [], _ => inferInstanceAs (Decidable False)
  | [_], _ => inferInstanceAs (Decidable (_ ∧ _ ∧ _))
  | _ :: y' :: ys, _ =>
    have := Lifts.decidable z (y' :: ys)
    inferInstanceAs (Decidable (_ ∧ _))

/-- After the passes with other entries, `i` has a match more for each occurrence of the word. -/
def Gains (pre : List ι) (i : ι) (a : List α) : Prop :=
  (i :: pre).Nodup ∧ (∀ r ∈ rules i, ∀ y ∈ pre, Spares (rules y) r.pat) ∧
    ∃ r ∈ rules i, Lifts rules r.pat pre a

/-- After a pass with another entry, `i` has a match less for each occurrence of the word, at whose
end a match of that entry overlaps with one of `i`. -/
def Loses (y i : ι) (a : List α) : Prop :=
  (∀ r ∈ rules i, MakesNone (rules y) r.pat) ∧ ∃ r ∈ rules i, ∃ s ∈ rules y,
    Overlaps (rules y) (a.take (a.length - s.pat.length)) r s ∧
      a = a.take (a.length - s.pat.length) ++ s.pat

instance (pre : List ι) (i : ι) (a : List α) : Decidable (Gains rules pre i a) :=
  inferInstanceAs (Decidable (_ ∧ _ ∧ _))

instance (y i : ι) (a : List α) : Decidable (Loses rules y i a) :=
  inferInstanceAs (Decidable (_ ∧ _))

variable {rules}

omit [DecidableEq ι] in
theorem occ_le_run {z : List α} {ps : List ι} (h : ∀ y ∈ ps, Spares (rules y) z) (t : List α) :
    occ z t ≤ occ z (run rules ps t) := by
  induction ps generalizing t with
  | nil => exact le_rfl
  | cons y ps ih =>
    have hrest := ih (fun y' hy' ↦ h y' (List.mem_cons_of_mem y hy')) (replace (rules y) t)
    exact ((h y List.mem_cons_self).occ_le t).trans hrest

omit [DecidableEq ι] in
theorem Lifts.occ_lt {z : List α} (hne : z ≠ []) {ps : List ι} {a : List α}
    (h : ∀ y ∈ ps, Spares (rules y) z) (hlifts : Lifts rules z ps a) (ht : a <:+: t) :
    occ z t < occ z (run rules ps t) := by
  induction ps generalizing a t with
  | nil => exact absurd hlifts id
  | cons y ps ih =>
    have hspares := h y List.mem_cons_self
    have hrest := fun y' hy' ↦ h y' (List.mem_cons_of_mem y hy')
    cases ps with
    | nil =>
      obtain ⟨hclosed, hbefore, hafter⟩ := hlifts
      exact hclosed.occ_lt hspares hne hbefore hafter ht
    | cons y' ys =>
      obtain ⟨hclosed, hlifts⟩ := hlifts
      have hoccurs := hclosed.infix_replace (List.infix_refl (replace (rules y) a)) ht
      exact (hspares.occ_le t).trans_lt (ih hrest hlifts hoccurs)

omit [DecidableEq ι] in
theorem OrderFree.not_infix_of_gains (hfree : OrderFree rules all t) (h : Measured rules all Φ δ)
    (hnodup : all.Nodup) {pre : List ι} {i : ι} {a : List α} (hsub : i :: pre ⊆ all)
    (hgains : Gains rules pre i a) : ¬ a <:+: t := by
  obtain ⟨hpre, hspares, r, hr, hlifts⟩ := hgains
  intro ht
  have heq := hfree.changes_eq h hnodup hpre hsub
  have hi : i ∈ all := hsub List.mem_cons_self
  have hlt : changes (rules i) (δ i) t < changes (rules i) (δ i) (run rules pre t) := by
    apply List.sum_lt_sum
    · intro r' hr'
      have hle := occ_le_run (hspares r' hr') t
      have hpos := (h.raises i hi r' hr').1
      exact Int.mul_le_mul_of_nonneg_left (Int.ofNat_le.mpr hle) hpos.le
    · refine ⟨r, hr, ?_⟩
      have hlt := hlifts.occ_lt r.pat_ne_nil (hspares r hr) ht
      have hpos := (h.raises i hi r hr).1
      exact Int.mul_lt_mul_of_pos_left (Int.ofNat_lt.mpr hlt) hpos
  omega

omit [DecidableEq ι] in
theorem OrderFree.not_infix_of_loses (hfree : OrderFree rules all t) (h : Measured rules all Φ δ)
    (hnodup : all.Nodup) {y i : ι} {a : List α} (hsub : [i, y] ⊆ all) (hne : y ≠ i)
    (hloses : Loses rules y i a) : ¬ a <:+: t := by
  obtain ⟨hmakes, r, hr, s, hs, hoverlaps, ha⟩ := hloses
  intro ht
  have hpre : [i, y].Nodup := by simp [Ne.symm hne]
  have heq := hfree.changes_eq h hnodup hpre hsub
  have hi : i ∈ all := hsub (by simp)
  have hy : y ∈ all := hsub (by simp)
  have hlt : changes (rules i) (δ i) (run rules [y] t) < changes (rules i) (δ i) t := by
    apply List.sum_lt_sum
    · intro r' hr'
      have hle : occ r'.pat (run rules [y] t) ≤ occ r'.pat t := (hmakes r' hr').occ_le t
      have hpos := (h.raises i hi r' hr').1
      exact Int.mul_le_mul_of_nonneg_left (Int.ofNat_le.mpr hle) hpos.le
    · refine ⟨r, hr, ?_⟩
      rw [ha] at ht
      have hlt : occ r.pat (run rules [y] t) < occ r.pat t :=
        (h.separate y hy).occ_gt (hmakes r hr) hs hoverlaps ht
      have hpos := (h.raises i hi r hr).1
      exact Int.mul_lt_mul_of_pos_left (Int.ofNat_lt.mpr hlt) hpos
  omega

end Necessary

/-- Words, each with passes and an entry that has a match more or less after them. -/
structure Marks (α ι : Type) where
  gains : List (List α × List ι × ι)
  losses : List (List α × ι × ι)

def Marks.words (marks : Marks α ι) : List (List α) :=
  marks.gains.map Prod.fst ++ marks.losses.map Prod.fst

structure Marks.Tell (marks : Marks α ι) (rules : ι → List (Rule α)) (all : List ι) : Prop where
  gains : ∀ m ∈ marks.gains, m.2.2 :: m.2.1 ⊆ all ∧ Gains rules m.2.1 m.2.2 m.1
  losses : ∀ m ∈ marks.losses,
    ([m.2.2, m.2.1] ⊆ all ∧ m.2.1 ≠ m.2.2) ∧ Loses rules m.2.1 m.2.2 m.1

theorem orderFree_iff_clear {marks : Marks α ι} {Φ : ι → List α → ℤ} {δ : ι → Rule α → ℤ}
    (hnodup : all.Nodup) (hsettled : Settled rules all marks.words)
    (hmeasured : Measured rules all Φ δ) (htell : marks.Tell rules all) (t : List α) :
    OrderFree rules all t ↔ Clear marks.words t := by
  constructor
  · intro hfree w hw
    obtain hw | hw := List.mem_append.mp hw
    · obtain ⟨m, hm, rfl⟩ := List.mem_map.mp hw
      obtain ⟨hsub, hgains⟩ := htell.gains m hm
      exact hfree.not_infix_of_gains hmeasured hnodup hsub hgains
    · obtain ⟨m, hm, rfl⟩ := List.mem_map.mp hw
      obtain ⟨⟨hsub, hne⟩, hloses⟩ := htell.losses m hm
      exact hfree.not_infix_of_loses hmeasured hnodup hsub hne hloses
  · exact hsettled.orderFree hnodup

end Liota.Rewriting
