import Mathlib.Data.List.Infix
import Liota.Python.Text

namespace Liota.Python.Text

section Splitting

theorem slash_not_mem_of_mem_splitOn {path comp : Str} (h : comp ∈ path.splitOn '/') :
    '/' ∉ comp := by
  induction path generalizing comp with
  | nil =>
    rw [List.splitOn_nil] at h
    rw [List.mem_singleton.mp h]
    exact List.not_mem_nil
  | cons c path ih =>
    rw [List.splitOn_cons_eq_if_modifyHead] at h
    split at h
    · rcases List.mem_cons.mp h with rfl | h
      · exact List.not_mem_nil
      · exact ih h
    · next hc =>
      obtain ⟨first, rest, hsplit⟩ := List.exists_cons_of_ne_nil (List.splitOn_ne_nil '/' path)
      rw [hsplit, List.modifyHead_cons] at h
      rcases List.mem_cons.mp h with rfl | h
      · intro hmem
        rcases List.mem_cons.mp hmem with heq | hmem
        · exact hc (by simp [← heq])
        · exact ih (hsplit ▸ List.mem_cons_self) hmem
      · exact ih (hsplit ▸ List.mem_cons_of_mem _ h)

theorem mem_intercalate {comps : List Str} {c : Char} :
    c ∈ ['/'].intercalate comps → c = '/' ∨ ∃ comp ∈ comps, c ∈ comp := by
  induction comps with
  | nil => simp
  | cons comp comps ih =>
    intro h
    by_cases hnil : comps = []
    · subst hnil
      exact .inr ⟨comp, by simp, by simpa using h⟩
    · rw [List.intercalate_cons_of_ne_nil hnil, List.mem_append, List.mem_append,
        List.mem_singleton] at h
      rcases h with (h | h) | h
      · exact .inr ⟨comp, by simp, h⟩
      · exact .inl h
      · exact (ih h).imp id fun ⟨comp', hmem, hc⟩ ↦ ⟨comp', List.mem_cons_of_mem _ hmem, hc⟩

theorem mem_of_mem_splitOn {path comp : Str} {c : Char} (h : comp ∈ path.splitOn '/')
    (hc : c ∈ comp) : c ∈ path := by
  induction path generalizing comp with
  | nil =>
    rw [List.splitOn_nil] at h
    rw [List.mem_singleton.mp h] at hc
    cases hc
  | cons d path ih =>
    rw [List.splitOn_cons_eq_if_modifyHead] at h
    split at h
    · rcases List.mem_cons.mp h with rfl | h
      · cases hc
      · exact List.mem_cons_of_mem _ (ih h hc)
    · obtain ⟨first, rest, hsplit⟩ := List.exists_cons_of_ne_nil (List.splitOn_ne_nil '/' path)
      rw [hsplit, List.modifyHead_cons] at h
      rcases List.mem_cons.mp h with rfl | h
      · rcases List.mem_cons.mp hc with rfl | hc
        · exact List.mem_cons_self
        · exact List.mem_cons_of_mem _ (ih (hsplit ▸ List.mem_cons_self) hc)
      · exact List.mem_cons_of_mem _ (ih (hsplit ▸ List.mem_cons_of_mem _ h) hc)

theorem intercalate_concat_append (pre : List Str) (last rest : Str) :
    ['/'].intercalate (pre ++ [last ++ rest]) = ['/'].intercalate (pre ++ [last]) ++ rest := by
  induction pre with
  | nil => simp
  | cons comp pre ih =>
    have hne (l : Str) : pre ++ [l] ≠ [] := by simp
    rw [List.cons_append, List.cons_append, List.intercalate_cons_of_ne_nil (hne _),
      List.intercalate_cons_of_ne_nil (hne _), ih, List.append_assoc, List.append_assoc,
      List.append_assoc]

theorem splitOn_append_of_not_mem (path : Str) {rest : Str} (h : '/' ∉ rest) :
    ∃ pre last, path.splitOn '/' = pre ++ [last] ∧
      (path ++ rest).splitOn '/' = pre ++ [last ++ rest] := by
  obtain ⟨pre, last, hsplit⟩ := (List.eq_nil_or_concat (path.splitOn '/')).resolve_left
    (List.splitOn_ne_nil '/' path)
  refine ⟨pre, last, by simpa using hsplit, ?_⟩
  have hpath : path = ['/'].intercalate (pre ++ [last]) := by
    rw [← List.concat_eq_append, ← hsplit, List.intercalate_splitOn]
  have hslash : ∀ comp ∈ pre ++ [last ++ rest], '/' ∉ comp := by
    have hold : ∀ comp ∈ pre ++ [last], '/' ∉ comp := by
      intro comp hcomp
      have hmem : comp ∈ path.splitOn '/' := by simpa [hsplit] using hcomp
      exact slash_not_mem_of_mem_splitOn hmem
    intro comp hcomp
    rcases List.mem_append.mp hcomp with hcomp | hcomp
    · exact hold comp (List.mem_append_left _ hcomp)
    · rw [List.mem_singleton.mp hcomp, List.mem_append, not_or]
      exact ⟨hold last (by simp), h⟩
  rw [hpath, ← intercalate_concat_append, List.splitOn_intercalate '/' hslash (by simp)]

end Splitting

section Components

def OrdinaryComp (comp : Str) : Prop := comp ≠ [] ∧ comp ≠ ['.'] ∧ comp ≠ ['.', '.']

theorem normComps_append (kept comps comps' : List Str) :
    normComps kept (comps ++ comps') = normComps (normComps kept comps) comps' := by
  induction comps generalizing kept with
  | nil => rfl
  | cons comp comps ih =>
    rw [List.cons_append, normComps, normComps]
    split
    · exact ih kept
    · split
      · exact ih kept.tail
      · exact ih (comp :: kept)

theorem normComps_ordinary {comp : Str} (h : OrdinaryComp comp) (kept : List Str) :
    normComps kept [comp] = comp :: kept := by
  rw [normComps, if_neg (by simp [h.1, h.2.1]), if_neg h.2.2, normComps]

theorem normComps_all_ordinary {comps : List Str} (h : ∀ comp ∈ comps, OrdinaryComp comp)
    (kept : List Str) :
    normComps kept comps = comps.reverse ++ kept := by
  induction comps generalizing kept with
  | nil => rfl
  | cons comp comps ih =>
    rw [← List.singleton_append, normComps_append, normComps_ordinary (h comp (by simp)),
      ih fun c hc ↦ h c (by simp [hc])]
    simp

theorem suffix_normComps {comps : List Str} (h : ['.', '.'] ∉ comps) (kept : List Str) :
    kept <:+ normComps kept comps := by
  induction comps generalizing kept with
  | nil => exact List.suffix_refl kept
  | cons comp comps ih =>
    obtain ⟨hne, hrest⟩ := not_or.mp (fun hm ↦ h (List.mem_cons.mpr hm))
    rw [normComps]
    split
    · exact ih hrest kept
    · rw [if_neg (Ne.symm hne)]
      exact (List.suffix_cons comp kept).trans (ih hrest _)

theorem mem_normComps {kept comps : List Str} {comp : Str} (h : comp ∈ normComps kept comps) :
    comp ∈ kept ∨ comp ∈ comps ∧ OrdinaryComp comp := by
  induction comps generalizing kept with
  | nil => exact .inl h
  | cons c comps ih =>
    rw [normComps] at h
    split at h
    · rcases ih h with hk | ⟨hc, hord⟩
      · exact .inl hk
      · exact .inr ⟨List.mem_cons_of_mem _ hc, hord⟩
    · next hsame =>
      split at h
      · rcases ih h with hk | ⟨hc, hord⟩
        · exact .inl (List.mem_of_mem_tail hk)
        · exact .inr ⟨List.mem_cons_of_mem _ hc, hord⟩
      · next hup =>
        rcases ih h with hk | ⟨hc, hord⟩
        · rcases List.mem_cons.mp hk with rfl | hk
          · exact .inr ⟨List.mem_cons_self, (not_or.mp hsame).1, (not_or.mp hsame).2, hup⟩
          · exact .inl hk
        · exact .inr ⟨List.mem_cons_of_mem _ hc, hord⟩

def components (path : Str) : List Str := (normComps [] (path.splitOn '/')).reverse

theorem mem_abspath {path : Str} {c : Char} (h : c ∈ abspath path) : c = '/' ∨ c ∈ path := by
  rcases List.mem_append.mp h with h | h
  · left
    split at h <;> simpa using h
  · rcases mem_intercalate h with rfl | ⟨comp, hcomp, hc⟩
    · exact .inl rfl
    · rcases mem_normComps (List.mem_reverse.mp hcomp) with hnil | ⟨hmem, -⟩
      · cases hnil
      · exact .inr (mem_of_mem_splitOn hmem hc)

def AtOrBelow (dir path : Str) : Prop := components dir <+: components path

def StrictlyBelow (dir path : Str) : Prop := AtOrBelow dir path ∧ components dir ≠ components path

instance (dir path : Str) : Decidable (AtOrBelow dir path) := inferInstanceAs (Decidable (_ <+: _))

instance (dir path : Str) : Decidable (StrictlyBelow dir path) :=
  inferInstanceAs (Decidable (_ ∧ _))

theorem components_ordinary {path comp : Str} (h : comp ∈ components path) :
    OrdinaryComp comp ∧ '/' ∉ comp := by
  rcases mem_normComps (List.mem_reverse.mp h) with hnil | ⟨hmem, hord⟩
  · cases hnil
  · exact ⟨hord, slash_not_mem_of_mem_splitOn hmem⟩

theorem components_append_slash (path rest : Str) :
    components (path ++ '/' :: rest) =
      (normComps (components path).reverse (rest.splitOn '/')).reverse := by
  rw [components, components, List.splitOn_append_cons_self, normComps_append, List.reverse_reverse]

theorem splitOn_abspath (path : Str) :
    ∃ front, (∀ comp ∈ front, comp = []) ∧
      ((abspath path).splitOn '/' = front ++ components path) := by
  have hjoin : ∃ front, (∀ comp ∈ front, comp = []) ∧
      (['/'].intercalate (components path)).splitOn '/' = front ++ components path := by
    by_cases hnil : components path = []
    · refine ⟨[[]], by simp, ?_⟩
      rw [hnil]
      rfl
    · refine ⟨[], by simp, ?_⟩
      rw [List.nil_append]
      exact List.splitOn_intercalate '/' (fun comp hcomp ↦ (components_ordinary hcomp).2) hnil
  obtain ⟨front, hfront, heq⟩ := hjoin
  have hslash (text : Str) : ('/' :: text).splitOn '/' = [] :: text.splitOn '/' := by
    rw [← List.nil_append ('/' :: text), List.splitOn_append_cons_self, List.splitOn_nil]
    rfl
  rw [abspath]
  change ∃ front, _ ∧ (_ ++ ['/'].intercalate (components path)).splitOn '/' = _
  split
  · refine ⟨[] :: [] :: front, by simpa using hfront, ?_⟩
    rw [List.cons_append, List.cons_append, List.nil_append, hslash, hslash, heq]
    rfl
  · refine ⟨[] :: front, by simpa using hfront, ?_⟩
    rw [List.cons_append, List.nil_append, hslash, heq]
    rfl

theorem normComps_all_nil {comps : List Str} (h : ∀ comp ∈ comps, comp = []) (kept : List Str) :
    normComps kept comps = kept := by
  induction comps with
  | nil => rfl
  | cons comp comps ih =>
    rw [normComps, if_pos (.inl (h comp (by simp)))]
    exact ih fun c hc ↦ h c (by simp [hc])

@[simp] theorem components_abspath (path : Str) : components (abspath path) = components path := by
  obtain ⟨front, hfront, hsplit⟩ := splitOn_abspath path
  rw [components, hsplit, normComps_append, normComps_all_nil hfront,
    normComps_all_ordinary fun comp hcomp ↦ (components_ordinary hcomp).1]
  simp

theorem components_dirname_abspath (path : Str) :
    components (dirname (abspath path)) = (components path).dropLast := by
  obtain ⟨front, hfront, hsplit⟩ := splitOn_abspath path
  rcases List.eq_nil_or_concat (components path) with hnil | ⟨pre, last, hcomps⟩
  · have hall : ∀ comp ∈ ((abspath path).splitOn '/').dropLast, comp = [] := by
      intro comp hcomp
      rw [hsplit, hnil, List.append_nil] at hcomp
      exact hfront comp (List.mem_of_mem_dropLast hcomp)
    rw [hnil, List.dropLast_nil, dirname, components]
    by_cases hempty : ((abspath path).splitOn '/').dropLast = []
    · rw [hempty]
      rfl
    · rw [List.splitOn_intercalate '/' (fun comp hcomp ↦ by simp [hall comp hcomp]) hempty,
        normComps_all_nil hall]
      rfl
  · rw [List.concat_eq_append] at hcomps
    rw [hcomps, List.dropLast_concat, dirname, hsplit, hcomps, ← List.append_assoc,
      List.dropLast_concat]
    have hord (comp : Str) (hcomp : comp ∈ pre) : OrdinaryComp comp ∧ '/' ∉ comp := by
      have hmem : comp ∈ components path := by
        rw [hcomps]
        exact List.mem_append_left _ hcomp
      exact components_ordinary hmem
    by_cases hempty : front ++ pre = []
    · obtain ⟨rfl, rfl⟩ := List.append_eq_nil_iff.mp hempty
      rfl
    · rw [components, List.splitOn_intercalate '/' _ hempty, normComps_append,
        normComps_all_nil hfront, normComps_all_ordinary fun comp hcomp ↦ (hord comp hcomp).1]
      · simp
      · intro comp hcomp
        rcases List.mem_append.mp hcomp with hcomp | hcomp
        · simp [hfront comp hcomp]
        · exact (hord comp hcomp).2

theorem not_mem_splitOn_abspath (path : Str) : ['.', '.'] ∉ (abspath path).splitOn '/' := by
  obtain ⟨front, hfront, hsplit⟩ := splitOn_abspath path
  rw [hsplit, List.mem_append, not_or]
  constructor
  · intro hmem
    cases hfront _ hmem
  · intro hmem
    exact (components_ordinary hmem).1.2.2 rfl

/-- If a normalised path begins with a directory and a slash, then whatever is put behind the path
lies below the directory. -/
theorem strictlyBelow_of_prefix {dir path rest : Str} (hpre : dir ++ ['/'] <+: abspath path)
    (hslash : '/' ∉ rest) (hord : ∀ last, OrdinaryComp (last ++ rest)) :
    StrictlyBelow dir (abspath path ++ rest) := by
  obtain ⟨tail, htail⟩ := hpre
  rw [List.append_assoc, List.singleton_append] at htail
  obtain ⟨pre, last, hsplit, hsplit'⟩ := splitOn_append_of_not_mem tail hslash
  have hup : ['.', '.'] ∉ pre := by
    intro hmem
    apply not_mem_splitOn_abspath path
    rw [← htail, List.splitOn_append_cons_self, hsplit]
    exact List.mem_append_right _ (List.mem_append_left _ hmem)
  have hcomps : components (abspath path ++ rest) =
      (normComps (components dir).reverse pre).reverse ++ [last ++ rest] := by
    rw [← htail, List.append_assoc, List.cons_append, components_append_slash, hsplit',
      normComps_append, normComps_ordinary (hord last), List.reverse_cons]
  have hbelow : components dir <+: (normComps (components dir).reverse pre).reverse := by
    rw [← List.reverse_suffix, List.reverse_reverse]
    exact suffix_normComps hup _
  refine ⟨?_, ?_⟩
  · rw [AtOrBelow, hcomps]
    exact hbelow.trans (List.prefix_append _ _)
  · intro heq
    have hle := hbelow.length_le
    have hlength := congrArg List.length (heq.trans hcomps)
    rw [List.length_append, List.length_singleton] at hlength
    omega

theorem suffix_abspath (path : Str) {rest : Str} (hslash : '/' ∉ rest)
    (hord : ∀ last, OrdinaryComp (last ++ rest)) : rest <:+ abspath (path ++ rest) := by
  obtain ⟨pre, last, -, hsplit⟩ := splitOn_append_of_not_mem path hslash
  rw [abspath, hsplit, normComps_append, normComps_ordinary (hord last), List.reverse_cons,
    intercalate_concat_append, ← List.append_assoc]
  exact List.suffix_append _ _

theorem strictlyBelow_concat_iff {dir path path' : Str} {comp : Str}
    (h : components path' = components path ++ [comp]) :
    StrictlyBelow dir path' ↔ AtOrBelow dir path := by
  rw [StrictlyBelow, AtOrBelow, AtOrBelow, h, List.prefix_concat_iff]
  constructor
  · rintro ⟨heq | hpre, hne⟩
    · exact absurd heq hne
    · exact hpre
  · intro hpre
    refine ⟨.inr hpre, ?_⟩
    intro heq
    have hle := hpre.length_le
    rw [heq, List.length_append, List.length_singleton] at hle
    omega

end Components

end Liota.Python.Text
