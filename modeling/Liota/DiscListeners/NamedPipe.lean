import Mathlib.Data.List.DropRight
import Liota.Python.Computation
import Liota.Python.Text

namespace Liota.DiscListeners

open Python.Computation Python.Text

variable {J : Type}

def endLine : Str := "END\n".toList

def frame (body : Str) : Str := body ++ '\n' :: endLine

/-- The text that `run` has gathered, and for each `END` so far the payload for which it has started
a thread, or `none` where it has logged an error. An exception of `json.loads` other than
`ValueError` ends it. -/
structure Listener (J : Type) where
  data : Str
  outcomes : List (Option J)
  crashed : Bool

variable (loads : Str → Except PyErr J)

/-- The body of the loop over the lines. -/
def readLine (s : Listener J) (line : Str) : Listener J :=
  if s.crashed then s
  else if line ≠ endLine then { s with data := s.data ++ line }
  else
    match loads s.data with
    | .ok payload => ⟨[], s.outcomes ++ [some payload], false⟩
    | .error .valueError => ⟨s.data, s.outcomes ++ [none], false⟩
    | .error _ => { s with crashed := true }

def readBatch (text : Str) : Listener J := (readlines text).foldl (readLine loads) ⟨[], [], false⟩

/-- Each time that the pipe is opened a batch is read to its end; the flag says whether an exception
has ended the listener. -/
def run : List Str → List (Option J) × Bool
  | [] => ([], false)
  | text :: rest =>
    if (readBatch loads text).crashed then ((readBatch loads text).outcomes, true)
    else ((readBatch loads text).outcomes ++ (run rest).1, (run rest).2)

def payloads (batches : List Str) : List J := (run loads batches).1.reduceOption

/-- Each thread hands its payload to `device_msg_process`. Nothing orders the threads. -/
def HandedOver (batches : List Str) (handed : List J) : Prop :=
  handed.Perm (payloads loads batches)

def NoEnd (body : Str) : Prop := endLine ∉ readlines (body ++ ['\n'])

instance (body : Str) : Decidable (NoEnd body) :=
  inferInstanceAs (Decidable (endLine ∉ readlines (body ++ ['\n'])))

def value (text : Str) : Option J := (loads text).toOption

/-- `json.loads` returns, or raises the `ValueError` that `run` handles. -/
def Handled (text : Str) : Prop := ∀ e, loads text = .error e → e = .valueError

def invalidTail (bodies : List Str) : List Str :=
  bodies.rtakeWhile fun body ↦ (value loads body).isNone

/-- The invalid bodies directly before a body do not change what it decodes to, and no exception
gets out of the handler. -/
def Separated (batch : List Str) : Prop :=
  ∀ pre body post, batch = pre ++ body :: post →
    Handled loads (unlines (invalidTail loads pre) ++ body) ∧
      value loads (unlines (invalidTail loads pre) ++ body) = value loads body

/-- Each frame decodes to the value of its own body, and the payloads are handed over in order. -/
structure Independent (batches : List (List Str)) : Prop where
  frames : run loads (batches.map fun batch ↦ batch.flatMap frame) =
    (batches.flatten.map (value loads), false)
  payloads : ∀ handed, HandedOver loads (batches.map fun batch ↦ batch.flatMap frame) handed →
    handed = batches.flatten.filterMap (value loads)

section Frames

variable {loads : Str → Except PyErr J}

theorem foldl_readLine (lines : List Str) (h : endLine ∉ lines) {s : Listener J}
    (halive : s.crashed = false) :
    lines.foldl (readLine loads) s = { s with data := s.data ++ lines.flatten } := by
  induction lines generalizing s with
  | nil => simp
  | cons line lines ih =>
    have hline : line ≠ endLine := fun heq ↦ h (heq ▸ List.mem_cons_self)
    have hlines : endLine ∉ lines := fun hmem ↦ h (List.mem_cons_of_mem line hmem)
    have hstep : readLine loads s line = { s with data := s.data ++ line } := by
      rw [readLine, if_neg (by simp [halive]), if_pos hline]
    rw [List.foldl_cons, hstep]
    refine (ih hlines (s := { s with data := s.data ++ line }) halive).trans ?_
    simp

theorem foldl_crashed (lines : List Str) {s : Listener J} (h : s.crashed = true) :
    lines.foldl (readLine loads) s = s := by
  induction lines with
  | nil => rfl
  | cons line lines ih =>
    have hstep : readLine loads s line = s := by rw [readLine, if_pos h]
    rw [List.foldl_cons, hstep, ih]

def decode (loads : Str → Except PyErr J) (s : Listener J) : Listener J :=
  match loads s.data with
  | .ok payload => ⟨[], s.outcomes ++ [some payload], false⟩
  | .error .valueError => ⟨s.data, s.outcomes ++ [none], false⟩
  | .error _ => { s with crashed := true }

variable (loads) in
theorem decode_cases (s : Listener J) :
    (Handled loads s.data ∧ decode loads s =
      ⟨if (value loads s.data).isSome then [] else s.data, s.outcomes ++ [value loads s.data],
        false⟩) ∨
    (¬ Handled loads s.data ∧ (decode loads s).crashed = true) := by
  rw [decode, value, Handled]
  split
  · next payload h => exact .inl ⟨by simp [h], by simp [h, Except.toOption]⟩
  · next h => exact .inl ⟨by simp [h], by simp [h, Except.toOption]⟩
  · next e hne h => exact .inr ⟨fun hall ↦ hne (hall e h), rfl⟩

theorem foldl_frame {body : Str} (h : NoEnd body) {s : Listener J} (halive : s.crashed = false) :
    (readlines (frame body)).foldl (readLine loads) s =
      decode loads { s with data := s.data ++ body ++ ['\n'] } := by
  have hlines : readlines (frame body) = readlines (body ++ ['\n']) ++ [endLine] := by
    rw [frame, readlines_append]
    rfl
  have hflatten : (readlines (body ++ ['\n'])).flatten = body ++ ['\n'] :=
    flatten_readlinesFrom [] _
  rw [hlines, List.foldl_append, foldl_readLine _ h halive, hflatten, List.foldl_cons,
    List.foldl_nil, readLine, if_neg (by simp [halive]), if_neg (by simp), List.append_assoc]
  rfl

theorem readlines_frames (batch : List Str) (body : Str) :
    readlines ((batch ++ [body]).flatMap frame) =
      readlines (batch.flatMap frame) ++ readlines (frame body) := by
  induction batch with
  | nil => simp [readlines, readlinesFrom]
  | cons b batch ih =>
    have hsplit (rest : Str) : readlines (frame b ++ rest) =
        readlines (frame b) ++ readlines rest := by
      have hframe : frame b ++ rest = (b ++ '\n' :: "END".toList) ++ '\n' :: rest := by
        simp [frame, endLine]
      have hown : frame b = (b ++ '\n' :: "END".toList) ++ ['\n'] := by
        simp [frame, endLine]
      rw [hframe, readlines_append, ← hown]
    rw [List.cons_append, List.flatMap_cons, List.flatMap_cons, hsplit, hsplit, ih,
      List.append_assoc]

theorem invalidTail_concat (batch : List Str) (body : Str) :
    invalidTail loads (batch ++ [body]) =
      if (value loads body).isNone then invalidTail loads batch ++ [body] else [] := by
  rw [invalidTail, invalidTail]
  split
  · next h => exact List.rtakeWhile_concat_pos _ _ _ h
  · next h => exact List.rtakeWhile_concat_neg _ _ _ h

theorem separated_concat {batch : List Str} {body : Str} :
    Separated loads (batch ++ [body]) ↔ Separated loads batch ∧
      Handled loads (unlines (invalidTail loads batch) ++ body) ∧
        value loads (unlines (invalidTail loads batch) ++ body) = value loads body := by
  constructor
  · intro h
    refine ⟨fun pre b post heq ↦ ?_, h batch body [] rfl⟩
    apply h pre b (post ++ [body])
    rw [heq]
    simp
  · rintro ⟨hbatch, hbody⟩ pre b post heq
    obtain hnil | ⟨post', c, hpost⟩ := List.eq_nil_or_concat post
    · rw [hnil] at heq
      obtain ⟨hpre, hb⟩ := List.append_inj' heq rfl
      rw [← hpre, ← List.head_eq_of_cons_eq hb]
      exact hbody
    · apply hbatch pre b post'
      rw [hpost, List.concat_eq_append] at heq
      have hassoc : batch ++ [body] = (pre ++ b :: post') ++ [c] := by
        rw [heq]
        simp
      exact (List.append_inj' hassoc rfl).1

theorem separated_of_valid {batch : List Str} (hhandled : ∀ body ∈ batch, Handled loads body)
    (h : ∀ body ∈ batch.dropLast, (value loads body).isSome) : Separated loads batch := by
  intro pre body post heq
  have hnil : invalidTail loads pre = [] := by
    apply List.rtakeWhile_eq_nil_iff.mpr
    intro hne hinvalid
    have hlast : pre.getLast hne ∈ batch.dropLast := by
      rw [heq, List.dropLast_append_of_ne_nil (List.cons_ne_nil body post)]
      exact List.mem_append_left _ (List.getLast_mem hne)
    have hvalid := h _ hlast
    rw [Option.isNone_iff_eq_none] at hinvalid
    rw [hinvalid] at hvalid
    cases hvalid
  rw [hnil]
  exact ⟨hhandled body (by simp [heq]), rfl⟩

variable (hloads : ∀ text, loads (text ++ ['\n']) = loads text)

include hloads

/-- The outcomes of a batch are the values of its bodies as long as the gathered text consists of
the last bodies that were not valid. -/
theorem readBatch_frames {batch : List Str} (hbatch : ∀ body ∈ batch, NoEnd body) :
    let s := readBatch loads (batch.flatMap frame)
    (s.crashed = false → s.outcomes.length = batch.length) ∧
    (s.crashed = false ∧ s.outcomes = batch.map (value loads) ↔ Separated loads batch) ∧
    (Separated loads batch → s.data = unlines (invalidTail loads batch)) := by
  induction batch using List.reverseRecOn with
  | nil =>
    refine ⟨fun _ ↦ rfl, ⟨fun _ pre body post h ↦ ?_, fun _ ↦ ⟨rfl, rfl⟩⟩, fun _ ↦ rfl⟩
    exact absurd h.symm (List.append_ne_nil_of_right_ne_nil pre (List.cons_ne_nil body post))
  | append_singleton batch body ih =>
    obtain ⟨hlength, houtcomes, hdata⟩ := ih fun b hb ↦ hbatch b (List.mem_append_left _ hb)
    have hstep : readBatch loads ((batch ++ [body]).flatMap frame) =
        (readlines (frame body)).foldl (readLine loads)
          (readBatch loads (batch.flatMap frame)) := by
      rw [readBatch, readlines_frames, List.foldl_append]
      rfl
    generalize readBatch loads (batch.flatMap frame) = s at hlength houtcomes hdata hstep
    simp only [separated_concat]
    by_cases halive : s.crashed = false
    · rw [foldl_frame (hbatch body (by simp)) halive] at hstep
      have hvalue : value loads (s.data ++ body ++ ['\n']) = value loads (s.data ++ body) := by
        rw [value, hloads, value]
      obtain ⟨hhandled, hdecode⟩ | ⟨hnot, hcrashed⟩ :=
        decode_cases loads { s with data := s.data ++ body ++ ['\n'] }
      · dsimp only at hhandled hdecode
        rw [Handled, hloads] at hhandled
        rw [hdecode, hvalue] at hstep
        rw [hstep]
        refine ⟨fun _ ↦ by simp [hlength halive], ?_, fun h ↦ ?_⟩
        · rw [List.map_append, List.map_singleton]
          constructor
          · rintro ⟨-, h⟩
            obtain ⟨hbefore, hlast⟩ := List.append_inj' h rfl
            have hseparated := houtcomes.mp ⟨halive, hbefore⟩
            rw [hdata hseparated] at hlast hhandled
            exact ⟨hseparated, hhandled, List.head_eq_of_cons_eq hlast⟩
          · rintro ⟨hseparated, -, hlast⟩
            obtain ⟨-, hbefore⟩ := houtcomes.mpr hseparated
            rw [hbefore, hdata hseparated, hlast]
            exact ⟨rfl, rfl⟩
        · obtain ⟨hseparated, -, hlast⟩ := h
          rw [hdata hseparated, hlast, invalidTail_concat]
          cases hbody : value loads body with
          | none => simp [unlines]
          | some payload => rfl
      · rw [← hstep] at hcrashed
        have hnotSeparated : ¬ (Separated loads batch ∧
            Handled loads (unlines (invalidTail loads batch) ++ body) ∧
              value loads (unlines (invalidTail loads batch) ++ body) = value loads body) := by
          rintro ⟨hseparated, hhandled, -⟩
          apply hnot
          dsimp only
          rw [Handled, hloads, hdata hseparated]
          exact hhandled
        refine ⟨fun h ↦ ?_, iff_of_false (fun h ↦ ?_) hnotSeparated, fun h ↦ absurd h hnotSeparated⟩
        · rw [hcrashed] at h
          cases h
        · rw [hcrashed] at h
          cases h.1
    · have hdead : s.crashed = true := by simpa using halive
      rw [foldl_crashed _ hdead] at hstep
      have hnotSeparated : ¬ Separated loads batch := fun h ↦ halive (houtcomes.mpr h).1
      rw [hstep]
      refine ⟨fun h ↦ absurd h halive, iff_of_false (fun h ↦ halive h.1) fun h ↦ ?_, fun h ↦ ?_⟩
      · exact hnotSeparated h.1
      · exact absurd h.1 hnotSeparated

theorem run_frames {batches : List (List Str)}
    (hbodies : ∀ batch ∈ batches, ∀ body ∈ batch, NoEnd body) :
    run loads (batches.map fun batch ↦ batch.flatMap frame) =
      (batches.flatten.map (value loads), false) ↔ ∀ batch ∈ batches, Separated loads batch := by
  induction batches with
  | nil => simp [run]
  | cons batch batches ih =>
    obtain ⟨hlength, houtcomes, -⟩ := readBatch_frames hloads (hbodies batch List.mem_cons_self)
    have hrest := ih fun b hb ↦ hbodies b (List.mem_cons_of_mem batch hb)
    rw [List.forall_mem_cons, ← houtcomes, ← hrest, List.flatten_cons, List.map_append,
      List.map_cons, run]
    split
    · next hcrashed => simp [hcrashed]
    · next halive =>
      have halive : (readBatch loads (batch.flatMap frame)).crashed = false := by simpa using halive
      rw [Prod.mk.injEq]
      constructor
      · rintro ⟨h, hflag⟩
        obtain ⟨hbatch, hall⟩ := List.append_inj h (by simpa using hlength halive)
        exact ⟨⟨halive, hbatch⟩, Prod.ext hall hflag⟩
      · rintro ⟨⟨-, hbatch⟩, hall⟩
        rw [hbatch, hall]
        exact ⟨rfl, rfl⟩

theorem payloads_frames {batches : List (List Str)}
    (hbodies : ∀ batch ∈ batches, ∀ body ∈ batch, NoEnd body)
    (hseparated : ∀ batch ∈ batches, Separated loads batch) :
    payloads loads (batches.map fun batch ↦ batch.flatMap frame) =
      batches.flatten.filterMap (value loads) := by
  rw [payloads, (run_frames hloads hbodies).mpr hseparated]
  exact List.filterMap_map

omit hloads in
theorem perm_eq_iff {l : List J} :
    (∀ l' : List J, l'.Perm l → l' = l) ↔ ∀ a ∈ l, ∀ b ∈ l, a = b := by
  classical
  constructor
  · intro h a ha b hb
    have hfirst := h _ (List.perm_cons_erase ha).symm
    have hsecond := h _ (List.perm_cons_erase hb).symm
    exact List.head_eq_of_cons_eq (hfirst.trans hsecond.symm)
  · intro h l' hperm
    cases l with
    | nil => exact hperm.eq_nil
    | cons a rest =>
      have hall : ∀ b ∈ a :: rest, b = a := fun b hb ↦ h b hb a List.mem_cons_self
      rw [List.eq_replicate_of_mem hall] at hperm ⊢
      exact List.perm_replicate.mp hperm

/-- The frames of all batches decode independently, and are handed over in order, exactly when no
body is changed by the invalid bodies directly before it in its batch, `json.loads` raises nothing
but `ValueError`, and the threads have nothing to be told apart by. -/
theorem independent_iff_separated {batches : List (List Str)}
    (hbodies : ∀ batch ∈ batches, ∀ body ∈ batch, NoEnd body) :
    Independent loads batches ↔ (∀ batch ∈ batches, Separated loads batch) ∧
      ∀ p ∈ batches.flatten.filterMap (value loads),
        ∀ q ∈ batches.flatten.filterMap (value loads), p = q := by
  constructor
  · intro h
    have hseparated := (run_frames hloads hbodies).mp h.frames
    refine ⟨hseparated, perm_eq_iff.mp fun handed hperm ↦ h.payloads handed ?_⟩
    rw [HandedOver, payloads_frames hloads hbodies hseparated]
    exact hperm
  · rintro ⟨hseparated, hsame⟩
    refine ⟨(run_frames hloads hbodies).mpr hseparated, fun handed hhanded ↦ ?_⟩
    rw [HandedOver, payloads_frames hloads hbodies hseparated] at hhanded
    exact perm_eq_iff.mpr hsame handed hhanded

end Frames

section Example

/-- `json.loads` on texts that hold one natural number. -/
def loadsNat (text : Str) : Except PyErr ℕ :=
  let digits := text.rdropWhile (· = '\n')
  if digits ≠ [] ∧ digits.all Char.isDigit then
    .ok (digits.foldl (fun n c ↦ 10 * n + (c.toNat - '0'.toNat)) 0)
  else .error .valueError

theorem loadsNat_newline (text : Str) : loadsNat (text ++ ['\n']) = loadsNat text := by
  rw [loadsNat, loadsNat, List.rdropWhile_concat_pos _ _ _ (by simp)]

theorem loadsNat_handled (text : Str) : Handled loadsNat text := by
  intro e h
  rw [loadsNat] at h
  split at h
  · cases h
  · exact (Except.error.inj h).symm

theorem valid_independent :
    Independent loadsNat [["1".toList, "1".toList], ["1".toList, "\x7b".toList]] := by
  apply (independent_iff_separated loadsNat_newline (by decide)).mpr
  refine ⟨fun batch hbatch ↦ separated_of_valid (fun body _ ↦ loadsNat_handled body) ?_, by decide⟩
  revert batch
  decide

/-- The text of an invalid body is put in front of the valid one that follows. -/
theorem invalid_not_independent : ¬ Independent loadsNat [["\x7b".toList, "1".toList]] := by
  intro h
  have hpayloads := h.payloads [] (by unfold HandedOver; decide)
  revert hpayloads
  decide

end Example

end Liota.DiscListeners
