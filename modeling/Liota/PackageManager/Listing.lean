import Liota.PackageManager.Startup

namespace Liota.PackageManager

open Python Python.Computation Python.Text

variable {F : Type}

/-- The start-up list has a line for the package. -/
def Listed (startupList : Option Str) (name : Str) : Prop :=
  ∃ text, startupList = some text ∧ ∃ values ∈ splitlines text, lineKey values = some name

theorem rewriteLines_eq (keep : Bool) (fileName : Str) (lines : List Str) :
    ∃ pre post, lines = pre ++ post ∧
      (rewriteLines keep fileName lines).1 =
        pre.filter (fun values ↦ keep || lineKey values ≠ some fileName) ∧
      ((rewriteLines keep fileName lines).2 = none ↔ post ≠ []) := by
  induction lines with
  | nil => exact ⟨[], [], rfl, rfl, by simp [rewriteLines]⟩
  | cons values rest ih =>
    cases hkv : splitRecord values with
    | none =>
      have hr : rewriteLines keep fileName (values :: rest) = ([], none) := by
        simp [rewriteLines, hkv]
      exact ⟨[], values :: rest, rfl, by rw [hr]; rfl, by simp [hr]⟩
    | some kv =>
      obtain ⟨pre, post, hlines, hout, hfound⟩ := ih
      refine ⟨values :: pre, post, by rw [hlines]; rfl, ?_⟩
      have hkey : lineKey values = some kv.1 := by rw [lineKey, hkv]; rfl
      simp only [rewriteLines, hkv, List.filter_cons, hkey]
      by_cases hk : kv.1 = fileName
      · cases keep with
        | true => simp [hk, hout, hfound]
        | false => simp [hk, hout, hfound]
      · simp [hk, hout, hfound]

section

variable {keep : Bool} {fileName name text : Str} {out : List Str}

theorem mem_rewritten {found : Bool}
    (hr : rewriteLines keep fileName (splitlines text) = (out, some found)) (added : List Str)
    {values : Str} (hv : values ∈ splitlines text)
    (hkeep : keep = true ∨ lineKey values ≠ some fileName) :
    values ∈ splitlines (unlines (out ++ added)) := by
  obtain ⟨pre, post, hlines, hout, hfound⟩ := rewriteLines_eq keep fileName (splitlines text)
  rw [hr] at hout hfound
  dsimp only at hout
  obtain rfl : post = [] := by simpa using hfound
  have hnew (l : Str) (hl : l ∈ out) : NoNewline l := by
    refine splitlines_noNewline text l ?_
    rw [hout] at hl
    rw [hlines, List.append_nil]
    exact List.mem_of_mem_filter hl
  have hmem : values ∈ out := by
    rw [hlines, List.append_nil] at hv
    rw [hout]
    exact List.mem_filter.mpr ⟨hv, by simpa using hkeep⟩
  rw [unlines, List.flatMap_append]
  change values ∈ splitlines (unlines out ++ unlines added)
  rw [splitlines_unlines_append out _ hnew]
  exact List.mem_append_left _ hmem

theorem mem_overlay (hr : rewriteLines keep fileName (splitlines text) = (out, none))
    {values : Str} (hv : values ∈ splitlines text)
    (hkeep : keep = true ∨ lineKey values ≠ some fileName) :
    values ∈ splitlines (overlay (unlines out) text) := by
  obtain ⟨pre, post, hlines, hout, hfound⟩ := rewriteLines_eq keep fileName (splitlines text)
  rw [hr] at hout hfound
  dsimp only at hout
  refine mem_splitlines_overwritten hlines (hfound.mp rfl) ?_ ?_
  · rw [hout]
    exact List.filter_sublist
  · rw [hlines] at hv
    rw [hout]
    exact (List.mem_append.mp hv).imp (fun h ↦ List.mem_filter.mpr ⟨h, by simpa using hkeep⟩) id

end

theorem listed_write {s : State F} {name : Str} (fileName checksum : Str)
    (h : Listed s.startupList name) :
    Listed (writePackageIntoAutoload fileName checksum s).2.startupList name := by
  obtain ⟨text, htext, values, hv, hkey⟩ := h
  unfold writePackageIntoAutoload
  rw [htext]
  dsimp only
  split
  · next out hr =>
    refine ⟨_, rfl, values, ?_, hkey⟩
    simpa using mem_rewritten hr [] hv (.inl rfl)
  · next out hr => exact ⟨_, rfl, values, mem_rewritten hr _ hv (.inl rfl), hkey⟩
  · next out hr => exact ⟨_, rfl, values, mem_overlay hr hv (.inl rfl), hkey⟩

theorem listed_remove {s : State F} {name fileName : Str} (hne : name ≠ fileName)
    (h : Listed s.startupList name) :
    Listed (removePackageFromAutoload fileName s).2.startupList name := by
  obtain ⟨text, htext, values, hv, hkey⟩ := h
  have hkeep : false = true ∨ lineKey values ≠ some fileName := .inr (by simpa [hkey] using hne)
  unfold removePackageFromAutoload
  rw [htext]
  dsimp only
  split
  · next out found hr =>
    refine ⟨_, rfl, values, ?_, hkey⟩
    simpa using mem_rewritten hr [] hv hkeep
  · next out hr => exact ⟨_, rfl, values, mem_overlay hr hv hkeep, hkey⟩

def Plain (text : Str) : Prop := ':' ∉ text ∧ NoNewline text

def Hex (text : Str) : Prop := ∀ c ∈ text, c ∈ "0123456789abcdef".toList

instance (text : Str) : Decidable (Hex text) :=
  List.decidableBAll (fun c ↦ c ∈ "0123456789abcdef".toList) text

theorem Hex.plain {text : Str} (h : Hex text) : Plain text := by
  have hall : ("0123456789abcdef".toList.all fun c ↦ c ≠ ':' ∧ c ≠ '\n' ∧ c ≠ '\r') = true := by
    decide
  have hno (c : Char) (hc : c ∈ "0123456789abcdef".toList) : c ≠ ':' ∧ c ≠ '\n' ∧ c ≠ '\r' := by
    simpa using List.all_eq_true.mp hall c hc
  refine ⟨?_, ?_⟩
  · intro hmem
    exact (hno ':' (h ':' hmem)).1 rfl
  · intro c hc
    exact (hno c (h c hc)).2

theorem splitRecord_append {k v : Str} (hk : ':' ∉ k) (hv : ':' ∉ v) :
    splitRecord (k ++ ':' :: v) = some (k, v) := by
  unfold splitRecord
  rw [List.splitOn_append_cons_self, List.splitOn_eq_singleton hk, List.splitOn_eq_singleton hv]
  rfl

theorem plain_of_lineKey {values k : Str} (hv : NoNewline values)
    (h : lineKey values = some k) : Plain k := by
  unfold lineKey splitRecord at h
  split at h
  · next k' v hsplit =>
    obtain rfl : k' = k := Option.some.inj h
    have hvalues : k' ++ ':' :: v = values := by
      have hjoin : [':'].intercalate (values.splitOn ':') = values := List.intercalate_splitOn ':'
      rw [hsplit] at hjoin
      simpa using hjoin
    refine ⟨fun hmem ↦ ?_, fun c hc ↦ hv c (by simp [← hvalues, hc])⟩
    obtain ⟨a, b, rfl⟩ := List.append_of_mem hmem
    have hlength := congrArg List.length hsplit
    rw [← hvalues, List.splitOn_append_cons_self, List.splitOn_append_cons_self] at hlength
    have ha := List.length_pos_of_ne_nil (List.splitOn_ne_nil ':' a)
    have hb := List.length_pos_of_ne_nil (List.splitOn_ne_nil ':' b)
    have hv := List.length_pos_of_ne_nil (List.splitOn_ne_nil ':' v)
    simp only [List.length_append, List.length_cons, List.length_nil] at hlength
    omega
  · cases h

theorem Listed.plain {startupList : Option Str} {name : Str} (h : Listed startupList name) :
    Plain name := by
  obtain ⟨text, -, values, hv, hkey⟩ := h
  exact plain_of_lineKey (splitlines_noNewline text values hv) hkey

theorem rewriteLines_true (fileName : Str) (lines : List Str)
    (h : ∀ values ∈ lines, (splitRecord values).isSome) :
    ∃ found, rewriteLines true fileName lines = (lines, some found) ∧
      (found = true ↔ ∃ values ∈ lines, lineKey values = some fileName) := by
  induction lines with
  | nil => exact ⟨false, rfl, by simp⟩
  | cons values rest ih =>
    obtain ⟨⟨k, v⟩, hkv⟩ := Option.isSome_iff_exists.mp (h values (by simp))
    obtain ⟨found, hr, hfound⟩ := ih fun w hw ↦ h w (by simp [hw])
    have hkey : lineKey values = some k := by rw [lineKey, hkv, Option.map_some]
    by_cases hk : k = fileName
    · refine ⟨true, by simp [rewriteLines, hkv, hr, hk], fun _ ↦ ⟨values, by simp, ?_⟩, fun _ ↦ rfl⟩
      rw [hkey, hk]
    · refine ⟨found, by simp [rewriteLines, hkv, hr, hk], hfound.trans ?_⟩
      simp [hkey, hk]

theorem writePackageIntoAutoload_eq (fileName checksum : Str) {s : State F} {text : Str}
    (htext : s.startupList = some text) (hpar : Parseable s.startupList) :
    ∃ added, (added = [] ∧ Listed s.startupList fileName ∨
        added = [fileName ++ ':' :: checksum] ∧ ¬ Listed s.startupList fileName) ∧
      writePackageIntoAutoload fileName checksum s =
        (.ok (), { s with startupList := some (unlines (splitlines text ++ added)) }) := by
  rw [htext, parseable_iff] at hpar
  obtain ⟨found, hr, hfound⟩ := rewriteLines_true fileName (splitlines text) hpar
  unfold writePackageIntoAutoload
  rw [htext]
  dsimp only
  rw [hr]
  cases found with
  | true => exact ⟨[], .inl ⟨rfl, text, rfl, hfound.mp rfl⟩, by simp⟩
  | false =>
    refine ⟨_, .inr ⟨rfl, ?_⟩, rfl⟩
    rintro ⟨text', htext', hlisted⟩
    obtain rfl := Option.some.inj htext'
    exact absurd (hfound.mpr hlisted) (by simp)

theorem splitlines_written {fileName checksum text : Str} {added : List Str} {list : Option Str}
    (hname : Plain fileName) (hsum : Plain checksum)
    (hadded : added = [] ∧ Listed list fileName ∨
      added = [fileName ++ ':' :: checksum] ∧ ¬ Listed list fileName) :
    splitlines (unlines (splitlines text ++ added)) = splitlines text ++ added := by
  refine splitlines_unlines _ fun l hl ↦ ?_
  rcases List.mem_append.mp hl with hl | hl
  · exact splitlines_noNewline text l hl
  · rcases hadded with ⟨rfl, -⟩ | ⟨rfl, -⟩
    · simp at hl
    · rw [List.mem_singleton.mp hl]
      intro c hc
      rcases List.mem_append.mp hc with hc | hc
      · exact hname.2 c hc
      · rcases List.mem_cons.mp hc with rfl | hc
        · decide
        · exact hsum.2 c hc

section Written

variable {s : State F} {fileName checksum : Str} (hpar : Parseable s.startupList)
  (hname : Plain fileName) (hsum : Plain checksum)
include hpar hname hsum

theorem listed_written (hsome : s.startupList ≠ none) :
    Listed (writePackageIntoAutoload fileName checksum s).2.startupList fileName := by
  obtain ⟨text, htext⟩ := Option.ne_none_iff_exists'.mp hsome
  obtain ⟨added, hadded, hw⟩ := writePackageIntoAutoload_eq fileName checksum htext hpar
  rw [hw]
  refine ⟨_, rfl, ?_⟩
  rw [splitlines_written hname hsum hadded]
  rcases hadded with ⟨rfl, text', htext', values, hv, hkey⟩ | ⟨rfl, -⟩
  · obtain rfl := Option.some.inj (htext.symm.trans htext')
    exact ⟨values, List.mem_append_left _ hv, hkey⟩
  · refine ⟨_, List.mem_append_right _ (List.mem_singleton_self _), ?_⟩
    rw [lineKey, splitRecord_append hname.1 hsum.1]
    rfl

theorem parseable_written :
    Parseable (writePackageIntoAutoload fileName checksum s).2.startupList := by
  rcases htext : s.startupList with _ | text
  · rw [writePackageIntoAutoload, htext]
    exact parseable_of_none htext
  · obtain ⟨added, hadded, hw⟩ := writePackageIntoAutoload_eq fileName checksum htext hpar
    rw [hw, parseable_iff, splitlines_written hname hsum hadded]
    rw [htext, parseable_iff] at hpar
    intro values hv
    rcases List.mem_append.mp hv with hv | hv
    · exact hpar values hv
    · rcases hadded with ⟨rfl, -⟩ | ⟨rfl, -⟩
      · simp at hv
      · rw [List.mem_singleton.mp hv, splitRecord_append hname.1 hsum.1]
        rfl

end Written

theorem startupList_written_ne_none {s : State F} (fileName checksum : Str)
    (hsome : s.startupList ≠ none) :
    (writePackageIntoAutoload fileName checksum s).2.startupList ≠ none := by
  obtain ⟨text, htext⟩ := Option.ne_none_iff_exists'.mp hsome
  unfold writePackageIntoAutoload
  rw [htext]
  dsimp only
  split <;> simp

end Liota.PackageManager
