import Liota.PackageManager.State

namespace Liota.PackageManager

open Python Python.Computation Python.Text

variable {F : Type}

/-- `k, v = values.split(":")`, which raises `ValueError` unless there is exactly one colon. -/
def splitRecord (values : Str) : Option (Str × Str) :=
  match values.splitOn ':' with
  | [k, v] => some (k, v)
  | _ => none

/-- The rewriting loop over the lines of the start-up list. It returns the lines written so
far and, if every line could be split, whether a line of `fileName` was met. -/
def rewriteLines (keep : Bool) (fileName : Str) : List Str → List Str × Option Bool
  | [] => ([], some false)
  | values :: rest =>
    match splitRecord values with
    | none => ([], none)
    | some (k, _) =>
      let (out, found) := rewriteLines keep fileName rest
      if k ≠ fileName then (values :: out, found)
      else if keep then (values :: out, found.map fun _ ↦ true)
      else (out, found)

/-- What is left in a file opened `"r+"` when an exception ends the rewriting: the text written
from the start, then the old text behind it. -/
def overlay (written old : Str) : Str := written ++ old.drop written.length

/-- A missing file is an `IOError`, which is logged and swallowed. -/
def writePackageIntoAutoload (fileName checksum : Str) : Manager F Unit := fun s ↦
  match s.startupList with
  | none => (.ok (), s)
  | some text =>
    match rewriteLines true fileName (splitlines text) with
    | (out, some true) => (.ok (), { s with startupList := some (unlines out) })
    | (out, some false) =>
      let added := fileName ++ ':' :: checksum
      (.ok (), { s with startupList := some (unlines (out ++ [added])) })
    | (out, none) =>
      (.raised .valueError, { s with startupList := some (overlay (unlines out) text) })

def removePackageFromAutoload (fileName : Str) : Manager F Unit := fun s ↦
  match s.startupList with
  | none => (.ok (), s)
  | some text =>
    match rewriteLines false fileName (splitlines text) with
    | (out, some _) => (.ok (), { s with startupList := some (unlines out) })
    | (out, none) =>
      (.raised .valueError, { s with startupList := some (overlay (unlines out) text) })

def lineKey (values : Str) : Option Str := (splitRecord values).map Prod.fst

/-- Every line of the start-up list is a name and a checksum. A missing file is fine. -/
def Parseable (startupList : Option Str) : Prop :=
  ∀ text, startupList = some text → ∀ values ∈ splitlines text, (splitRecord values).isSome

def delist (fileName : Str) (startupList : Option Str) : Option Str :=
  startupList.map fun text ↦
    unlines ((splitlines text).filter fun values ↦ lineKey values ≠ some fileName)

theorem rewriteLines_false (fileName : Str) (lines : List Str)
    (h : ∀ values ∈ lines, (splitRecord values).isSome) :
    rewriteLines false fileName lines =
      (lines.filter fun values ↦ lineKey values ≠ some fileName, some false) := by
  induction lines with
  | nil => rfl
  | cons values rest ih =>
    obtain ⟨⟨k, v⟩, hkv⟩ := Option.isSome_iff_exists.mp (h values (by simp))
    have hrest := ih fun w hw ↦ h w (by simp [hw])
    simp only [rewriteLines, hkv, hrest]
    by_cases hk : k = fileName <;> simp [lineKey, hkv, hk]

theorem rewriteLines_none (keep : Bool) (fileName : Str) (lines : List Str) :
    (rewriteLines keep fileName lines).2 = none ↔
      ¬ ∀ values ∈ lines, (splitRecord values).isSome := by
  induction lines with
  | nil => simp [rewriteLines]
  | cons values rest ih =>
    cases hkv : splitRecord values with
    | none => simp [rewriteLines, hkv]
    | some kv =>
      have hiff : (∀ w ∈ values :: rest, (splitRecord w).isSome) ↔
          ∀ w ∈ rest, (splitRecord w).isSome := by simp [hkv]
      rw [hiff, ← ih]
      simp only [rewriteLines, hkv]
      split
      · rfl
      · split
        · simp
        · rfl

theorem parseable_iff (text : Str) :
    Parseable (some text) ↔ ∀ values ∈ splitlines text, (splitRecord values).isSome := by
  simp [Parseable]

theorem parseable_of_none {startupList : Option Str} (h : startupList = none) :
    Parseable startupList := by simp [Parseable, h]

theorem splitlines_delist (fileName text : Str) :
    splitlines (unlines ((splitlines text).filter fun values ↦ lineKey values ≠ some fileName)) =
      (splitlines text).filter fun values ↦ lineKey values ≠ some fileName :=
  splitlines_unlines _ fun l hl ↦ splitlines_noNewline text l (List.mem_filter.mp hl).1

theorem Parseable.delist {startupList : Option Str} (h : Parseable startupList)
    (fileName : Str) : Parseable (delist fileName startupList) := by
  cases startupList with
  | none => simpa [PackageManager.delist] using h
  | some text =>
    simp only [PackageManager.delist, Option.map_some, parseable_iff, splitlines_delist]
    exact fun values hv ↦ (parseable_iff text).mp h values (List.mem_filter.mp hv).1

theorem removePackageFromAutoload_eq (fileName : Str) (s : State F)
    (h : Parseable s.startupList) :
    removePackageFromAutoload fileName s =
      (.ok (), { s with startupList := delist fileName s.startupList }) := by
  unfold removePackageFromAutoload
  split
  · next hl => simp only [hl, delist, Option.map_none]; rw [← hl]
  · next text hl =>
    rw [hl, parseable_iff] at h
    rw [rewriteLines_false fileName _ h, hl]
    rfl

theorem removePackageFromAutoload_raises (fileName : Str) (s : State F)
    (h : ¬ Parseable s.startupList) :
    (removePackageFromAutoload fileName s).1 = .raised .valueError := by
  unfold removePackageFromAutoload
  split
  · next hl => exact absurd (by simp [Parseable, hl]) h
  · next text hl =>
    rw [hl, parseable_iff] at h
    have hnone := (rewriteLines_none false fileName (splitlines text)).mpr h
    split
    · next _ _ heq => simp [heq] at hnone
    · rfl

theorem writePackageIntoAutoload_fst (fileName checksum : Str) (s : State F) :
    (Parseable s.startupList ∧ (writePackageIntoAutoload fileName checksum s).1 = .ok ()) ∨
      (¬ Parseable s.startupList ∧
        (writePackageIntoAutoload fileName checksum s).1 = .raised .valueError) := by
  unfold writePackageIntoAutoload
  split
  · next hl => exact .inl ⟨parseable_of_none hl, rfl⟩
  · next text hl =>
    rw [hl, parseable_iff]
    have hnone := rewriteLines_none true fileName (splitlines text)
    have hsome (found : Bool) (h : (rewriteLines true fileName (splitlines text)).2 = some found) :
        ∀ values ∈ splitlines text, (splitRecord values).isSome := by
      by_contra hpar
      rw [hnone.mpr hpar] at h
      cases h
    split
    · next _ heq => exact .inl ⟨hsome true (by rw [heq]), rfl⟩
    · next _ heq => exact .inl ⟨hsome false (by rw [heq]), rfl⟩
    · next _ heq => exact .inr ⟨hnone.mp (by rw [heq]), rfl⟩

/-- The start-up list as `_package_load_auto` reads it. -/
def readStartupList : List Str → Option (List (Str × Str))
  | [] => some []
  | values :: rest =>
    match splitRecord values, readStartupList rest with
    | some kv, some kvs => some (kv :: kvs)
    | _, _ => none

end Liota.PackageManager
