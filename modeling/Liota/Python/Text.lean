import Mathlib.Data.List.Basic
import Mathlib.Data.List.Flatten

namespace Liota.Python.Text

abbrev Str := List Char

instance : LawfulBEq Str := inferInstanceAs (LawfulBEq (List Char))

def ascii (text : Str) : Bool := text.all fun c ↦ c.toNat < 128

/-- `str.splitlines` on byte strings: `\n`, `\r` and `\r\n` end a line, and the
text after the last of them is a line only if it is not empty. -/
def splitlinesFrom : Str → Str → List Str
  | line, [] => if line = [] then [] else [line.reverse]
  | line, '\r' :: '\n' :: rest => line.reverse :: splitlinesFrom [] rest
  | line, c :: rest =>
    if c = '\n' ∨ c = '\r' then line.reverse :: splitlinesFrom [] rest
    else splitlinesFrom (c :: line) rest

def splitlines (text : Str) : List Str := splitlinesFrom [] text

/-- Every line followed by the newline that `write(line + '\n')` adds. -/
def unlines (lines : List Str) : Str := lines.flatMap (· ++ ['\n'])

def NoNewline (line : Str) : Prop := ∀ c ∈ line, c ≠ '\n' ∧ c ≠ '\r'

theorem splitlinesFrom_line (line pre rest : Str) (h : NoNewline pre) :
    splitlinesFrom line (pre ++ '\n' :: rest) =
      (line.reverse ++ pre) :: splitlinesFrom [] rest := by
  induction pre generalizing line with
  | nil => simp [splitlinesFrom]
  | cons c pre ih =>
    have hc := h c (by simp)
    have htail : NoNewline pre := fun d hd ↦ h d (by simp [hd])
    rw [List.cons_append, splitlinesFrom, if_neg (by simp [hc]), ih (c :: line) htail]
    · simp
    · intro r hr
      exact absurd hr hc.2

@[simp] theorem splitlines_nil : splitlines [] = [] := by simp [splitlines, splitlinesFrom]

theorem splitlines_unlines_append (lines : List Str) (rest : Str)
    (h : ∀ l ∈ lines, NoNewline l) :
    splitlines (unlines lines ++ rest) = lines ++ splitlines rest := by
  induction lines with
  | nil => rfl
  | cons l lines ih =>
    have hl := splitlinesFrom_line [] l (unlines lines ++ rest) (h l (by simp))
    have ht := ih (fun m hm ↦ h m (by simp [hm]))
    simp only [splitlines, unlines, List.flatMap_cons, List.append_assoc, List.reverse_nil,
      List.nil_append, List.cons_append] at hl ht ⊢
    rw [hl, ht]

theorem splitlines_unlines (lines : List Str) (h : ∀ l ∈ lines, NoNewline l) :
    splitlines (unlines lines) = lines := by
  simpa using splitlines_unlines_append lines [] h

theorem length_unlines_cons (line : Str) (lines : List Str) :
    (unlines (line :: lines)).length = line.length + 1 + (unlines lines).length := by
  simp only [unlines, List.flatMap_cons, List.length_append, List.length_singleton]

theorem tail_splitlinesFrom (line line' text : Str) :
    (splitlinesFrom line text).tail = (splitlinesFrom line' text).tail := by
  induction line, text using splitlinesFrom.induct generalizing line' with
  | case1 => by_cases h : line' = [] <;> simp [splitlinesFrom, h]
  | case2 line h => by_cases h' : line' = [] <;> simp [splitlinesFrom, h, h']
  | case3 line rest ih => simp [splitlinesFrom]
  | case4 line c rest hcr hc ih =>
    rw [splitlinesFrom, splitlinesFrom, if_pos hc, if_pos hc]
    · rfl
    · exact hcr
    · exact hcr
  | case5 line c rest hcr hc ih =>
    rw [splitlinesFrom, splitlinesFrom, if_neg hc, if_neg hc]
    · exact ih (c :: line')
    · exact hcr
    · exact hcr

theorem suffix_splitlinesFrom {line text : Str} {pre rest : List Str}
    (h : splitlinesFrom line text = pre ++ rest) (hline : pre = [] → line = []) :
    rest <:+ splitlinesFrom [] text := by
  cases pre with
  | nil =>
    rw [hline rfl] at h
    exact h ▸ List.suffix_refl _
  | cons l pre =>
    have htail := tail_splitlinesFrom [] line text
    rw [h, List.cons_append, List.tail_cons] at htail
    exact (List.suffix_append pre rest).trans (htail ▸ List.tail_suffix _)

theorem suffix_splitlinesFrom_drop {line text : Str} {pre rest : List Str} {k : ℕ}
    (h : splitlinesFrom line text = pre ++ rest) (hrest : rest ≠ [])
    (hk : k + line.length ≤ (unlines pre).length) :
    rest <:+ splitlinesFrom [] (text.drop k) := by
  induction line, text using splitlinesFrom.induct generalizing pre k with
  | case1 => simp [splitlinesFrom, hrest] at h
  | case2 line hline =>
    rcases pre with _ | ⟨l, pre⟩
    · have hzero : k = 0 ∧ line = [] := by simpa [unlines] using hk
      exact absurd hzero.2 hline
    · simp [splitlinesFrom, hline, hrest] at h
  | case3 line t ih =>
    rcases k with _ | k
    · exact suffix_splitlinesFrom h fun hpre ↦ by simpa [hpre, unlines] using hk
    rw [splitlinesFrom] at h
    rcases pre with _ | ⟨l, pre⟩
    · simp [unlines] at hk
    obtain ⟨rfl, htail⟩ := List.cons.inj h
    rw [length_unlines_cons, List.length_reverse] at hk
    rcases k with _ | k
    · exact (suffix_splitlinesFrom htail fun _ ↦ rfl).trans (List.suffix_cons _ _)
    · exact ih htail (by simp only [List.length_nil]; omega)
  | case4 line c t hcr hc ih =>
    rcases k with _ | k
    · exact suffix_splitlinesFrom h fun hpre ↦ by simpa [hpre, unlines] using hk
    rw [splitlinesFrom, if_pos hc] at h
    · rcases pre with _ | ⟨l, pre⟩
      · simp [unlines] at hk
      obtain ⟨rfl, htail⟩ := List.cons.inj h
      rw [length_unlines_cons, List.length_reverse] at hk
      exact ih htail (by simp only [List.length_nil]; omega)
    · exact hcr
  | case5 line c t hcr hc ih =>
    rcases k with _ | k
    · exact suffix_splitlinesFrom h fun hpre ↦ by simpa [hpre, unlines] using hk
    rw [splitlinesFrom, if_neg hc] at h
    · exact ih h (by simp only [List.length_cons]; omega)
    · exact hcr

theorem splitlinesFrom_noNewline (line text : Str) (hline : NoNewline line) :
    ∀ l ∈ splitlinesFrom line text, NoNewline l := by
  have hrev : NoNewline line.reverse := fun c hc ↦ hline c (List.mem_reverse.mp hc)
  induction line, text using splitlinesFrom.induct with
  | case1 => simp [splitlinesFrom]
  | case2 line h => simpa [splitlinesFrom, h] using hrev
  | case3 line rest ih =>
    simp only [splitlinesFrom, List.mem_cons]
    rintro l (rfl | hl)
    · exact hrev
    · exact ih (by simp [NoNewline]) (by simp [NoNewline]) l hl
  | case4 line c rest hcr hc ih =>
    rw [splitlinesFrom, if_pos hc]
    · simp only [List.mem_cons]
      rintro l (rfl | hl)
      · exact hrev
      · exact ih (by simp [NoNewline]) (by simp [NoNewline]) l hl
    · exact hcr
  | case5 line c rest hcr hc ih =>
    have hcons : NoNewline (c :: line) := by
      intro d hd
      rcases List.mem_cons.mp hd with rfl | hd
      · exact not_or.mp hc
      · exact hline d hd
    rw [splitlinesFrom, if_neg hc]
    · exact ih hcons (fun d hd ↦ hcons d (List.mem_reverse.mp hd))
    · exact hcr

theorem splitlines_noNewline (text : Str) : ∀ l ∈ splitlines text, NoNewline l :=
  splitlinesFrom_noNewline [] text (by simp [NoNewline])

/-- Where the start of a text is overwritten by some of its first lines, these and the lines
after the first ones can still be read. -/
theorem mem_splitlines_overwritten {text : Str} {pre rest kept : List Str} {line : Str}
    (h : splitlines text = pre ++ rest) (hrest : rest ≠ []) (hkept : kept.Sublist pre)
    (hline : line ∈ kept ∨ line ∈ rest) :
    line ∈ splitlines (unlines kept ++ text.drop (unlines kept).length) := by
  have hnew (l : Str) (hl : l ∈ kept) : NoNewline l :=
    splitlines_noNewline text l (h ▸ List.mem_append_left rest (hkept.subset hl))
  have hlength : (unlines kept).length ≤ (unlines pre).length :=
    (hkept.flatMap _).length_le
  rw [splitlines_unlines_append kept _ hnew]
  rcases hline with hline | hline
  · exact List.mem_append_left _ hline
  · exact List.mem_append_right _
      ((suffix_splitlinesFrom_drop h hrest (by simpa using hlength)).subset hline)

/-- `readlines` of a file: every line with the newline that ends it, and what follows the last
newline unless it is empty. -/
def readlinesFrom : Str → Str → List Str
  | line, [] => if line = [] then [] else [line.reverse]
  | line, c :: rest =>
    if c = '\n' then (c :: line).reverse :: readlinesFrom [] rest
    else readlinesFrom (c :: line) rest

def readlines (text : Str) : List Str := readlinesFrom [] text

theorem flatten_readlinesFrom (line text : Str) :
    (readlinesFrom line text).flatten = line.reverse ++ text := by
  induction text generalizing line with
  | nil => by_cases h : line = [] <;> simp [readlinesFrom, h]
  | cons c rest ih =>
    unfold readlinesFrom
    split
    · simp [ih]
    · simp [ih]

theorem readlinesFrom_noNewline {line text : Str} (h : '\n' ∉ text) :
    readlinesFrom line text = if line.reverse ++ text = [] then [] else [line.reverse ++ text] := by
  induction text generalizing line with
  | nil => by_cases hline : line = [] <;> simp [readlinesFrom, hline]
  | cons c rest ih =>
    obtain ⟨hc, hrest⟩ := not_or.mp (fun hm ↦ h (List.mem_cons.mpr hm))
    rw [readlinesFrom, if_neg (Ne.symm hc), ih hrest]
    simp

theorem readlines_noNewline {text : Str} (h : '\n' ∉ text) (hne : text ≠ []) :
    readlines text = [text] := by
  rw [readlines, readlinesFrom_noNewline h]
  simp [hne]

theorem eq_nil_of_readlinesFrom {line text l : Str} {rest : List Str}
    (h : readlinesFrom line text = l :: rest) (hl : '\n' ∉ l) : rest = [] := by
  induction text generalizing line with
  | nil =>
    unfold readlinesFrom at h
    split at h
    · cases h
    · exact (List.cons.inj h).2.symm
  | cons c text ih =>
    unfold readlinesFrom at h
    split at h
    · next hc =>
      rw [← (List.cons.inj h).1, hc] at hl
      simp at hl
    · exact ih h

def Complete (line : Str) : Prop := ∃ body, '\n' ∉ body ∧ line = body ++ ['\n']

theorem readlinesFrom_complete {line body rest : Str} (h : '\n' ∉ body) :
    readlinesFrom line (body ++ '\n' :: rest) =
      (line.reverse ++ body ++ ['\n']) :: readlines rest := by
  induction body generalizing line with
  | nil => simp [readlinesFrom, readlines]
  | cons c body ih =>
    obtain ⟨hc, hbody⟩ := not_or.mp (fun hm ↦ h (List.mem_cons.mpr hm))
    rw [List.cons_append, readlinesFrom, if_neg (Ne.symm hc), ih hbody]
    simp

theorem readlinesFrom_append (line text rest : Str) :
    readlinesFrom line (text ++ '\n' :: rest) =
      readlinesFrom line (text ++ ['\n']) ++ readlines rest := by
  induction text generalizing line with
  | nil => simp [readlinesFrom, readlines]
  | cons c text ih =>
    rw [List.cons_append, List.cons_append, readlinesFrom, readlinesFrom]
    split
    · rw [ih, List.cons_append]
    · exact ih (c :: line)

theorem readlines_append (text rest : Str) :
    readlines (text ++ '\n' :: rest) = readlines (text ++ ['\n']) ++ readlines rest :=
  readlinesFrom_append [] text rest

theorem readlines_flatten {lines : List Str} (h : ∀ l ∈ lines, Complete l) :
    readlines lines.flatten = lines := by
  induction lines with
  | nil => rfl
  | cons l lines ih =>
    obtain ⟨body, hbody, rfl⟩ := h l (by simp)
    rw [List.flatten_cons, List.append_assoc, List.singleton_append, readlines,
      readlinesFrom_complete hbody, ih fun m hm ↦ h m (by simp [hm])]
    rfl

/-- The components that `posixpath.normpath` keeps of an absolute path, last one first. -/
def normComps : List Str → List Str → List Str
  | kept, [] => kept
  | kept, comp :: comps =>
    if comp = [] ∨ comp = ['.'] then normComps kept comps
    else if comp = ['.', '.'] then normComps kept.tail comps
    else normComps (comp :: kept) comps

/-- `os.path.abspath` of an absolute path, without symbolic links. POSIX keeps
exactly two leading slashes and reduces three or more to one. -/
def abspath (path : Str) : Str :=
  (if ['/', '/'] <+: path ∧ ¬ ['/', '/', '/'] <+: path then ['/', '/'] else ['/']) ++
    ['/'].intercalate (normComps [] (path.splitOn '/')).reverse

theorem normComps_concat_nil (kept comps : List Str) :
    normComps kept (comps ++ [[]]) = normComps kept comps := by
  induction comps generalizing kept with
  | nil => rfl
  | cons comp comps ih => simp only [List.cons_append, normComps, ih]

theorem abspath_append_slash {path : Str} (h : ¬ ['/'] <:+ path) :
    abspath (path ++ ['/']) = abspath path := by
  have hcomps : (path ++ ['/']).splitOn '/' = path.splitOn '/' ++ [[]] := by
    rw [List.splitOn_append_cons_self, List.splitOn_nil]
  have hslashes (n : ℕ) (hn : 2 ≤ n) :
      List.replicate n '/' <+: path ++ ['/'] ↔ List.replicate n '/' <+: path := by
    refine ⟨fun hpre ↦ ?_, fun hpre ↦ hpre.trans (List.prefix_append _ _)⟩
    have hlength := hpre.length_le
    simp only [List.length_replicate, List.length_append, List.length_singleton] at hlength
    by_cases hle : n ≤ path.length
    · exact List.prefix_of_prefix_length_le hpre (List.prefix_append _ _) (by simpa using hle)
    · have heq := hpre.eq_of_length (by simp; omega)
      obtain ⟨m, rfl⟩ : ∃ m, n = m + 2 := ⟨n - 2, by omega⟩
      have hpath : path = List.replicate (m + 1) '/' := by
        rw [List.replicate_succ'] at heq
        exact (List.append_inj' heq rfl).1.symm
      exact absurd (hpath ▸ ⟨List.replicate m '/', List.replicate_succ'.symm⟩) h
  unfold abspath
  rw [hcomps, normComps_concat_nil]
  have htwo := hslashes 2 (by omega)
  have hthree := hslashes 3 (by omega)
  simp only [List.replicate] at htwo hthree
  simp only [htwo, hthree]

/-- `os.path.dirname` of a normalised path below the root. -/
def dirname (path : Str) : Str := ['/'].intercalate (path.splitOn '/').dropLast

end Liota.Python.Text
