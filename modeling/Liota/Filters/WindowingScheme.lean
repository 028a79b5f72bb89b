import Liota.Python.Computation
import Liota.Python.Number

namespace Liota.Filters

open Python Python.Computation

variable {V : Type}

/-- The state of a `WindowingScheme` around a filter. The clock is in milliseconds. -/
structure WindowingScheme (V : Type) where
  filterObj : V → Option V
  windowSizeSec : Number
  samplePassed : Bool
  nextWindowTime : ℚ

/-- A call of `filter`: the clock that it reads and the collected value. -/
structure Sample (V : Type) where
  now : ℤ
  value : V

/-- What a call of `filter` returned. `closing` tells that the time of the window had elapsed. -/
structure Answer (V : Type) where
  value : V
  closing : Bool
  result : Option V
  deriving DecidableEq, Repr

namespace WindowingScheme

def init (filterObj : V → Option V) (windowSizeSec : Number) (now : ℤ) :
    Except PyErr (WindowingScheme V) :=
  if windowSizeSec.val < 0 then .error .valueError
  else .ok ⟨filterObj, windowSizeSec, false, windowSizeSec.after now⟩

def setNextWindowTime (w : WindowingScheme V) : WindowingScheme V :=
  { w with nextWindowTime := w.windowSizeSec.after w.nextWindowTime, samplePassed := false }

def window (w : WindowingScheme V) (now : ℤ) (collected : V) (filtered : Option V) :
    Option V × WindowingScheme V :=
  if w.nextWindowTime ≤ now then
    if w.samplePassed = false ∧ filtered.isNone then (some collected, w.setNextWindowTime)
    else (filtered, w.setNextWindowTime)
  else if filtered.isSome then (filtered, { w with samplePassed := true })
  else (filtered, w)

def filter (w : WindowingScheme V) (s : Sample V) : Option V × WindowingScheme V :=
  w.window s.now s.value (w.filterObj s.value)

def answer (w : WindowingScheme V) (s : Sample V) : Answer V :=
  ⟨s.value, w.nextWindowTime ≤ s.now, (w.filter s).1⟩

def answers : WindowingScheme V → List (Sample V) → List (Answer V)
  | _, [] => []
  | w, s :: rest => w.answer s :: answers (w.filter s).2 rest

end WindowingScheme

def sinceClosing (pre : List (Answer V)) : List (Answer V) :=
  pre.reverse.takeWhile fun a ↦ !a.closing

theorem sinceClosing_concat (pre : List (Answer V)) (a : Answer V) :
    sinceClosing (pre ++ [a]) = if a.closing then [] else a :: sinceClosing pre := by
  rw [sinceClosing, List.reverse_append, List.reverse_singleton, List.singleton_append,
    List.takeWhile_cons]
  cases a.closing <;> rfl

def WindowingScheme.Tracks (w : WindowingScheme V) (pre : List (Answer V)) : Prop :=
  w.samplePassed = false ↔ ∀ a ∈ sinceClosing pre, a.result = none

namespace WindowingScheme

variable {w : WindowingScheme V} {pre : List (Answer V)}

@[simp] theorem filterObj_filter (w : WindowingScheme V) (s : Sample V) :
    (w.filter s).2.filterObj = w.filterObj := by
  unfold filter window
  split
  · split <;> rfl
  · split <;> rfl

theorem result_answer (w : WindowingScheme V) (s : Sample V) :
    (w.answer s).result =
      if (w.answer s).closing = true ∧ w.samplePassed = false ∧ w.filterObj s.value = none
      then some s.value else w.filterObj s.value := by
  simp only [answer, filter, window, decide_eq_true_eq]
  by_cases hclosing : w.nextWindowTime ≤ s.now
  · rw [if_pos hclosing]
    by_cases hlast : w.samplePassed = false ∧ w.filterObj s.value = none
    · rw [if_pos (by simpa using hlast), if_pos ⟨hclosing, hlast⟩]
    · rw [if_neg (by simpa using hlast), if_neg fun h ↦ hlast h.2]
  · have hopen : ¬ (w.nextWindowTime ≤ s.now ∧ w.samplePassed = false ∧
        w.filterObj s.value = none) := fun h ↦ hclosing h.1
    rw [if_neg hclosing, if_neg hopen]
    split <;> rfl

theorem Tracks.filter (h : w.Tracks pre) (s : Sample V) :
    (w.filter s).2.Tracks (pre ++ [w.answer s]) := by
  have hflag : w.samplePassed = false ↔ ∀ a ∈ sinceClosing pre, a.result = none := h
  unfold Tracks
  rw [sinceClosing_concat]
  by_cases hclosing : w.nextWindowTime ≤ s.now
  · have hreset : (w.filter s).2.samplePassed = false := by
      simp only [WindowingScheme.filter, window, if_pos hclosing]
      split <;> rfl
    simp [answer, hclosing, hreset]
  · have hanswer : (w.answer s).closing = false := by simpa [answer] using hclosing
    have hresult : (w.answer s).result = w.filterObj s.value := by
      rw [result_answer, if_neg (by simp [hanswer])]
    rw [hanswer, if_neg (by simp), List.forall_mem_cons, hresult, ← hflag]
    simp only [WindowingScheme.filter, window, if_neg hclosing]
    cases hfiltered : w.filterObj s.value <;> simp

theorem result_of_answers (h : w.Tracks pre) {calls : List (Sample V)} {mid post : List (Answer V)}
    {a : Answer V} (hsplit : w.answers calls = mid ++ a :: post) :
    a.result =
      if a.closing = true ∧ (∀ b ∈ sinceClosing (pre ++ mid), b.result = none) ∧
          w.filterObj a.value = none
      then some a.value else w.filterObj a.value := by
  induction calls generalizing w pre mid with
  | nil => simp [answers] at hsplit
  | cons s rest ih =>
    rw [answers] at hsplit
    cases mid with
    | nil =>
      obtain ⟨rfl, -⟩ := List.cons.inj hsplit
      have hflag : w.samplePassed = false ↔ ∀ b ∈ sinceClosing pre, b.result = none := h
      rw [result_answer]
      apply if_congr
      · rw [List.append_nil, ← hflag]
        rfl
      · rfl
      · rfl
    | cons b mid =>
      obtain ⟨rfl, htail⟩ := List.cons.inj hsplit
      have hrest := ih (h.filter s) htail
      rwa [filterObj_filter, List.append_assoc, List.singleton_append] at hrest

theorem tracks_init {filterObj : V → Option V} {windowSizeSec : Number} {now : ℤ}
    (h : init filterObj windowSizeSec now = .ok w) : w.Tracks [] ∧ w.filterObj = filterObj := by
  unfold init at h
  split at h
  · simp at h
  · obtain rfl := Except.ok.inj h
    exact ⟨by simp [Tracks, sinceClosing], rfl⟩

end WindowingScheme

/-- Every window reports: among the answers since the last closing one, up to and including the
next, one is a value; and every answer is the filter's, except that a closing call returns a
rejected sample if its window has returned nothing else. -/
theorem every_window_reports {filterObj : V → Option V} {windowSizeSec : Number} {t₀ : ℤ}
    {w : WindowingScheme V} (hinit : WindowingScheme.init filterObj windowSizeSec t₀ = .ok w)
    (calls : List (Sample V)) (pre post : List (Answer V)) (a : Answer V)
    (hsplit : w.answers calls = pre ++ a :: post) :
    (a.closing = true → ∃ b ∈ a :: sinceClosing pre, b.result ≠ none) ∧
    a.result =
      if a.closing = true ∧ (∀ b ∈ sinceClosing pre, b.result = none) ∧ filterObj a.value = none
      then some a.value else filterObj a.value := by
  obtain ⟨htracks, hfilter⟩ := WindowingScheme.tracks_init hinit
  have hresult := WindowingScheme.result_of_answers htracks hsplit
  rw [hfilter, List.nil_append] at hresult
  refine ⟨fun hclosing ↦ ?_, hresult⟩
  by_cases hnone : ∀ b ∈ sinceClosing pre, b.result = none
  · refine ⟨a, List.mem_cons_self, ?_⟩
    rw [hresult]
    split
    · simp
    · next h => exact fun heq ↦ h ⟨hclosing, hnone, heq⟩
  · push Not at hnone
    obtain ⟨b, hb, hne⟩ := hnone
    exact ⟨b, List.mem_cons_of_mem a hb, hne⟩

/-- A filter that passes only even numbers, and a window of one second: the third call closes it
with a rejected sample, since the two before it returned nothing. -/
theorem every_window_reports_even :
    let even : ℕ → Option ℕ := fun n ↦ if n % 2 = 0 then some n else none
    ∃ w, WindowingScheme.init even 1 0 = .ok w ∧
      (w.answers [⟨0, 1⟩, ⟨500, 3⟩, ⟨1000, 5⟩]).map Answer.result = [none, none, some 5] ∧
      ∃ b ∈ (⟨5, true, some 5⟩ : Answer ℕ) ::
        sinceClosing [⟨1, false, none⟩, ⟨3, false, none⟩], b.result ≠ none := by
  intro even
  have hinit : WindowingScheme.init even 1 0 = .ok ⟨even, 1, false, Number.after 1 (0 : ℤ)⟩ :=
    if_neg (by decide +kernel)
  have hanswers : (⟨even, 1, false, Number.after 1 (0 : ℤ)⟩ : WindowingScheme ℕ).answers
      [⟨0, 1⟩, ⟨500, 3⟩, ⟨1000, 5⟩] =
      [⟨1, false, none⟩, ⟨3, false, none⟩] ++ ⟨5, true, some 5⟩ :: [] := by decide +kernel
  refine ⟨_, hinit, by rw [hanswers]; rfl, ?_⟩
  exact (every_window_reports hinit _ _ [] _ hanswers).1 rfl

end Liota.Filters
