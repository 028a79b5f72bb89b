import Mathlib.Data.List.Induction
import Mathlib.Data.List.Nodup
import Liota.PackageManager.Listing
import Liota.PackageManager.Scripts

namespace Liota.PackageManager

open Python Python.Computation Python.Text

variable {F : Type} {π : Platform F}

inductive StartupEdit
  | write (fileName checksum : Str)
  | remove (fileName : Str)

/-- A file name under the package path that can be sent as an argument of a command. -/
def Sendable (π : Platform F) (fileName : Str) : Prop :=
  UnderPackagePath π fileName ∧ ',' ∉ fileName ∧ '\n' ∉ fileName

namespace StartupEdit

def run : StartupEdit → Manager F Unit
  | .write fileName checksum => writePackageIntoAutoload fileName checksum
  | .remove fileName => removePackageFromAutoload fileName

def Accepted (π : Platform F) : StartupEdit → Prop
  | .write fileName checksum => Sendable π fileName ∧ Hex checksum
  | .remove fileName => Sendable π fileName

end StartupEdit

/-- The state after some edits, those that raise included. -/
def edited (edits : List StartupEdit) (s : State F) : State F :=
  edits.foldl (fun s edit ↦ (edit.run s).2) s

def Stands (edits : List StartupEdit) (name : Str) : Prop :=
  ∃ before checksum after,
    edits = before ++ .write name checksum :: after ∧ .remove name ∉ after

/-- The list can be read, and what is read are the packages that stand, each once and with a
checksum that was written for it. -/
def ReadsBack (edits : List StartupEdit) (startupList : Option Str) : Prop :=
  ∃ text entries, startupList = some text ∧ readStartupList (splitlines text) = some entries ∧
    (entries.map Prod.fst).Nodup ∧ (∀ name, name ∈ entries.map Prod.fst ↔ Stands edits name) ∧
    ∀ entry ∈ entries, .write entry.1 entry.2 ∈ edits

/-- No edit raises, and after each of them the list reads back. -/
def Legible (edits : List StartupEdit) (s : State F) : Prop :=
  (∀ before edit after, edits = before ++ edit :: after →
    (edit.run (edited before s)).1 = .ok ()) ∧
  ∀ before after, edits = before ++ after → ReadsBack before (edited before s).startupList

theorem edited_concat (edits : List StartupEdit) (edit : StartupEdit) (s : State F) :
    edited (edits ++ [edit]) s = (edit.run (edited edits s)).2 := by
  simp [edited]

theorem stands_concat (edits : List StartupEdit) (edit : StartupEdit) (name : Str) :
    Stands (edits ++ [edit]) name ↔
      (∃ checksum, edit = .write name checksum) ∨ edit ≠ .remove name ∧ Stands edits name := by
  constructor
  · rintro ⟨before, checksum, after, heq, hafter⟩
    rcases List.eq_nil_or_concat after with rfl | ⟨after, last, rfl⟩
    · exact .inl ⟨checksum, (List.append_inj' heq rfl).2 |> List.singleton_inj.mp⟩
    · rw [List.concat_eq_append, ← List.cons_append, ← List.append_assoc] at heq
      obtain ⟨rfl, hlast⟩ := List.append_inj' heq rfl
      obtain rfl := List.singleton_inj.mp hlast
      refine .inr ⟨?_, before, checksum, after, rfl, ?_⟩
      · rintro rfl
        simp at hafter
      · exact fun hmem ↦ hafter (by simp [hmem])
  · rintro (⟨checksum, rfl⟩ | ⟨hedit, before, checksum, after, rfl, hafter⟩)
    · exact ⟨edits, checksum, [], rfl, by simp⟩
    · refine ⟨before, checksum, after ++ [edit], by simp, ?_⟩
      simp only [List.mem_append, List.mem_singleton, not_or]
      exact ⟨hafter, Ne.symm hedit⟩

def entryLine (entry : Str × Str) : Str := entry.1 ++ ':' :: entry.2

theorem lineKey_entryLine {entry : Str × Str} (h : Plain entry.1 ∧ Plain entry.2) :
    lineKey (entryLine entry) = some entry.1 := by
  rw [lineKey, entryLine, splitRecord_append h.1.1 h.2.1]
  rfl

theorem readStartupList_entryLines {entries : List (Str × Str)}
    (h : ∀ entry ∈ entries, Plain entry.1 ∧ Plain entry.2) :
    readStartupList (entries.map entryLine) = some entries := by
  induction entries with
  | nil => rfl
  | cons entry entries ih =>
    have hentry := h entry (by simp)
    rw [List.map_cons, readStartupList, ih fun e he ↦ h e (by simp [he]), entryLine,
      splitRecord_append hentry.1.1 hentry.2.1]

theorem plain_of_readStartupList {lines : List Str} (hlines : ∀ l ∈ lines, NoNewline l)
    {entries : List (Str × Str)} (h : readStartupList lines = some entries) {entry : Str × Str}
    (hentry : entry ∈ entries) : Plain entry.1 := by
  induction lines generalizing entries with
  | nil =>
    obtain rfl := Option.some.inj h
    simp at hentry
  | cons values lines ih =>
    unfold readStartupList at h
    split at h
    · next kv kvs hkv hkvs =>
      obtain rfl := Option.some.inj h
      rcases List.mem_cons.mp hentry with rfl | hentry
      · exact plain_of_lineKey (hlines values (by simp)) (by rw [lineKey, hkv]; rfl)
      · exact ih (fun l hl ↦ hlines l (by simp [hl])) hkvs hentry
    · cases h

theorem ReadsBack.plain {edits : List StartupEdit} {startupList : Option Str}
    (h : ReadsBack edits startupList) {name : Str} (hname : Stands edits name) : Plain name := by
  obtain ⟨text, entries, -, hread, -, hnames, -⟩ := h
  obtain ⟨entry, hentry, rfl⟩ := List.mem_map.mp ((hnames name).mpr hname)
  exact plain_of_readStartupList (splitlines_noNewline text) hread hentry

/-- The lines of the list are those of some entries, which are what reading it back gives. -/
structure Holds (edits : List StartupEdit) (entries : List (Str × Str))
    (startupList : Option Str) : Prop where
  lines : ∃ text, startupList = some text ∧ splitlines text = entries.map entryLine
  plain : ∀ entry ∈ entries, Plain entry.1 ∧ Plain entry.2
  nodup : (entries.map Prod.fst).Nodup
  names : ∀ name, name ∈ entries.map Prod.fst ↔ Stands edits name
  written : ∀ entry ∈ entries, .write entry.1 entry.2 ∈ edits

namespace Holds

variable {edits : List StartupEdit} {entries : List (Str × Str)}

theorem readsBack {startupList : Option Str} (h : Holds edits entries startupList) :
    ReadsBack edits startupList := by
  obtain ⟨text, htext, hlines⟩ := h.lines
  refine ⟨text, entries, htext, ?_, h.nodup, h.names, h.written⟩
  rw [hlines]
  exact readStartupList_entryLines h.plain

theorem parseable {startupList : Option Str} (h : Holds edits entries startupList) :
    Parseable startupList := by
  obtain ⟨text, htext, hlines⟩ := h.lines
  rw [htext, parseable_iff, hlines]
  intro values hv
  obtain ⟨entry, hentry, rfl⟩ := List.mem_map.mp hv
  rw [entryLine, splitRecord_append (h.plain entry hentry).1.1 (h.plain entry hentry).2.1]
  rfl

theorem listed_iff {startupList : Option Str} (h : Holds edits entries startupList) (name : Str) :
    Listed startupList name ↔ name ∈ entries.map Prod.fst := by
  obtain ⟨text, htext, hlines⟩ := h.lines
  constructor
  · rintro ⟨text', htext', values, hv, hkey⟩
    obtain rfl := Option.some.inj (htext.symm.trans htext')
    rw [hlines] at hv
    obtain ⟨entry, hentry, rfl⟩ := List.mem_map.mp hv
    rw [lineKey_entryLine (h.plain entry hentry)] at hkey
    exact List.mem_map.mpr ⟨entry, hentry, Option.some.inj hkey⟩
  · intro hname
    obtain ⟨entry, hentry, rfl⟩ := List.mem_map.mp hname
    refine ⟨text, htext, entryLine entry, ?_, lineKey_entryLine (h.plain entry hentry)⟩
    rw [hlines]
    exact List.mem_map_of_mem hentry

theorem nil : Holds [] [] (some []) where
  lines := ⟨[], rfl, splitlines_nil⟩
  plain := by simp
  nodup := List.nodup_nil
  names name := by simp [Stands]
  written := by simp

variable {s : State F}

theorem write (h : Holds edits entries s.startupList) {fileName checksum : Str}
    (hname : Plain fileName) (hsum : Plain checksum) :
    (writePackageIntoAutoload fileName checksum s).1 = .ok () ∧
      ∃ entries', Holds (edits ++ [.write fileName checksum]) entries'
        (writePackageIntoAutoload fileName checksum s).2.startupList := by
  obtain ⟨text, htext, hlines⟩ := h.lines
  obtain ⟨added, hadded, hw⟩ := writePackageIntoAutoload_eq fileName checksum htext h.parseable
  have hread : splitlines (unlines (splitlines text ++ added)) = splitlines text ++ added :=
    splitlines_written hname hsum hadded
  rw [hw]
  refine ⟨rfl, ?_⟩
  rw [h.listed_iff] at hadded
  have hnames (name : Str) : Stands (edits ++ [.write fileName checksum]) name ↔
      name = fileName ∨ name ∈ entries.map Prod.fst := by
    rw [stands_concat, ← h.names]
    simp [eq_comm]
  rcases hadded with ⟨rfl, hmem⟩ | ⟨rfl, hnot⟩
  · refine ⟨entries, ⟨_, rfl, ?_⟩, h.plain, h.nodup, fun name ↦ ?_, ?_⟩
    · rw [hread, List.append_nil, hlines]
    · rw [hnames]
      constructor
      · exact .inr
      · rintro (rfl | hname)
        · exact hmem
        · exact hname
    · exact fun entry hentry ↦ List.mem_append_left _ (h.written entry hentry)
  · refine ⟨entries ++ [(fileName, checksum)], ⟨_, rfl, ?_⟩, ?_, ?_, fun name ↦ ?_, ?_⟩
    · rw [hread, hlines, List.map_append]
      rfl
    · intro entry hentry
      rcases List.mem_append.mp hentry with hentry | hentry
      · exact h.plain entry hentry
      · rw [List.mem_singleton.mp hentry]
        exact ⟨hname, hsum⟩
    · rw [List.map_append, List.map_singleton]
      exact h.nodup.append (List.nodup_singleton _) (by simpa using hnot)
    · rw [hnames, List.map_append, List.map_singleton, List.mem_append, List.mem_singleton, or_comm]
    · intro entry hentry
      rcases List.mem_append.mp hentry with hentry | hentry
      · exact List.mem_append_left _ (h.written entry hentry)
      · rw [List.mem_singleton.mp hentry]
        simp

theorem remove (h : Holds edits entries s.startupList) (fileName : Str) :
    (removePackageFromAutoload fileName s).1 = .ok () ∧
      Holds (edits ++ [.remove fileName]) (entries.filter (·.1 ≠ fileName))
        (removePackageFromAutoload fileName s).2.startupList := by
  obtain ⟨text, htext, hlines⟩ := h.lines
  rw [removePackageFromAutoload_eq fileName s h.parseable, htext]
  refine ⟨rfl, ⟨⟨_, rfl, ?_⟩, ?_, ?_, fun name ↦ ?_, ?_⟩⟩
  · rw [splitlines_delist, hlines, List.filter_map]
    congr 1
    apply List.filter_congr
    intro entry hentry
    simp [lineKey_entryLine (h.plain entry hentry)]
  · exact fun entry hentry ↦ h.plain entry (List.mem_of_mem_filter hentry)
  · exact h.nodup.sublist (List.filter_sublist.map _)
  · rw [stands_concat, ← h.names]
    simp only [List.mem_map, List.mem_filter, decide_eq_true_eq, reduceCtorEq, exists_false,
      false_or, ne_eq, StartupEdit.remove.injEq]
    constructor
    · rintro ⟨entry, ⟨hentry, hne⟩, rfl⟩
      exact ⟨fun heq ↦ hne heq.symm, entry, hentry, rfl⟩
    · rintro ⟨hne, entry, hentry, rfl⟩
      exact ⟨entry, ⟨hentry, fun heq ↦ hne heq.symm⟩, rfl⟩
  · exact fun entry hentry ↦
      List.mem_append_left _ (h.written entry (List.mem_of_mem_filter hentry))

end Holds

theorem holds_run {edits : List StartupEdit} {entries : List (Str × Str)} {s : State F}
    (h : Holds edits entries s.startupList) {edit : StartupEdit} (hedit : edit.Accepted π)
    (hplain : ∀ name checksum, edit = .write name checksum → Plain name) :
    (edit.run s).1 = .ok () ∧
      ∃ entries', Holds (edits ++ [edit]) entries' (edit.run s).2.startupList := by
  cases edit with
  | write fileName checksum => exact h.write (hplain _ _ rfl) hedit.2.plain
  | remove fileName =>
    obtain ⟨hok, hholds⟩ := h.remove fileName
    exact ⟨hok, _, hholds⟩

theorem holds_edited {s : State F} (hs : s.startupList = some []) (edits : List StartupEdit)
    (haccepted : ∀ edit ∈ edits, edit.Accepted π)
    (hplain : ∀ name checksum, .write name checksum ∈ edits → Plain name) :
    ∃ entries, Holds edits entries (edited edits s).startupList := by
  induction edits using List.reverseRecOn with
  | nil =>
    refine ⟨[], ?_⟩
    change Holds [] [] s.startupList
    rw [hs]
    exact Holds.nil
  | append_singleton edits edit ih =>
    obtain ⟨entries, hentries⟩ := ih (fun e he ↦ haccepted e (by simp [he]))
      fun name checksum he ↦ hplain name checksum (by simp [he])
    rw [edited_concat]
    exact (holds_run hentries (haccepted edit (by simp))
      fun name checksum he ↦ hplain name checksum (by simp [he])).2

/-- The start-up list can be read back after every edit just in case no name that is written has
a colon or a carriage return. -/
theorem startup_list_legible_iff (π : Platform F) (s : State F) (edits : List StartupEdit)
    (hs : s.startupList = some []) (haccepted : ∀ edit ∈ edits, edit.Accepted π) :
    Legible edits s ↔
      ∀ name checksum, .write name checksum ∈ edits → ':' ∉ name ∧ '\r' ∉ name := by
  constructor
  · intro h name checksum hmem
    obtain ⟨before, after, rfl⟩ := List.append_of_mem hmem
    have hback := h.2 (before ++ [.write name checksum]) after (by simp)
    have hplain := hback.plain ((stands_concat _ _ name).mpr (.inl ⟨checksum, rfl⟩))
    exact ⟨hplain.1, fun hcr ↦ (hplain.2 '\r' hcr).2 rfl⟩
  · intro h
    have hplain (name checksum : Str) (hmem : .write name checksum ∈ edits) : Plain name := by
      obtain ⟨hcolon, hcr⟩ := h name checksum hmem
      have hname : Sendable π name := (haccepted _ hmem).1
      refine ⟨hcolon, fun c hc ↦ ⟨?_, ?_⟩⟩
      · rintro rfl
        exact hname.2.2 hc
      · rintro rfl
        exact hcr hc
    refine ⟨fun before edit after heq ↦ ?_, fun before after heq ↦ ?_⟩
    · obtain ⟨entries, hentries⟩ := holds_edited hs before
        (fun e he ↦ haccepted e (by simp [heq, he]))
        fun name checksum he ↦ hplain name checksum (by simp [heq, he])
      exact (holds_run hentries (haccepted edit (by simp [heq]))
        fun name checksum he ↦ hplain name checksum (by simp [heq, he])).1
    · obtain ⟨entries, hentries⟩ := holds_edited hs before
        (fun e he ↦ haccepted e (by simp [heq, he]))
        fun name checksum he ↦ hplain name checksum (by simp [heq, he])
      exact hentries.readsBack

/-- A package that is written, removed and written again. -/
theorem startup_list_legible_rewritten :
    Legible [.write "p".toList "1f".toList, .remove "p".toList, .write "p".toList "2e".toList]
      (State.initial scriptPlatform (scriptFiles []) (some [])) := by
  apply (startup_list_legible_iff scriptPlatform _ _ rfl ?_).mpr
  · simp only [List.mem_cons, List.not_mem_nil, or_false, reduceCtorEq, false_or,
      StartupEdit.write.injEq]
    rintro name checksum (⟨rfl, -⟩ | ⟨rfl, -⟩)
    · decide
    · decide
  · have hp : Sendable scriptPlatform "p".toList := ⟨by decide, by decide, by decide⟩
    simp only [List.forall_mem_cons, StartupEdit.Accepted]
    exact ⟨⟨hp, by decide⟩, hp, ⟨hp, by decide⟩, by simp⟩

/-- A name with a colon makes a line that no later reader can split. -/
theorem colon_breaks_startup_list :
    (∀ edit ∈ [StartupEdit.write "a:b".toList "1f".toList], edit.Accepted scriptPlatform) ∧
    readStartupList (splitlines "a:b:1f\n".toList) = none ∧
    (edited [.write "a:b".toList "1f".toList]
      (State.initial scriptPlatform (scriptFiles []) (some []))).startupList =
        some "a:b:1f\n".toList ∧
    ¬ Legible [.write "a:b".toList "1f".toList]
      (State.initial scriptPlatform (scriptFiles []) (some [])) := by
  have hread : readStartupList (splitlines "a:b:1f\n".toList) = none := by decide
  have htext : (edited [.write "a:b".toList "1f".toList]
      (State.initial scriptPlatform (scriptFiles []) (some []))).startupList =
        some "a:b:1f\n".toList := by
    decide
  refine ⟨?_, hread, htext, fun h ↦ ?_⟩
  · simp only [List.forall_mem_cons, StartupEdit.Accepted]
    exact ⟨⟨⟨by decide, by decide, by decide⟩, by decide⟩, by simp⟩
  · obtain ⟨text, entries, htext', hread', -⟩ := h.2 [.write "a:b".toList "1f".toList] [] rfl
    obtain rfl := Option.some.inj (htext.symm.trans htext')
    rw [hread] at hread'
    cases hread'

end Liota.PackageManager
