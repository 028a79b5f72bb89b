import Mathlib.Data.List.Induction
import Liota.Filters.WindowingScheme

namespace Liota.Filters

open Python

variable {V : Type} {t₀ : ℤ} {size : Number}

/-- A call of `_window`: the clock that it reads, the collected value, and what the inner filter,
whatever it remembers, made of it. -/
structure Reading (V : Type) where
  now : ℤ
  collected : V
  filtered : Option V

namespace WindowingScheme

def read (w : WindowingScheme V) (r : Reading V) : Option V × WindowingScheme V :=
  w.window r.now r.collected r.filtered

def after (w : WindowingScheme V) (calls : List (Reading V)) : WindowingScheme V :=
  calls.foldl (fun w r ↦ (w.read r).2) w

/-- The call `r`, made after `pre`, returns a sample that the inner filter rejected. -/
def ReturnsRejected (w : WindowingScheme V) (pre : List (Reading V)) (r : Reading V) : Prop :=
  r.filtered = none ∧ ((w.after pre).read r).1 ≠ none

@[simp] theorem after_nil (w : WindowingScheme V) : w.after [] = w := rfl

theorem after_concat (w : WindowingScheme V) (pre : List (Reading V)) (r : Reading V) :
    w.after (pre ++ [r]) = ((w.after pre).read r).2 := by
  simp [after]

end WindowingScheme

/-- The time lies in the window numbered `k` since the creation. -/
def InWindow (t₀ : ℤ) (size : Number) (k : ℕ) (t : ℤ) : Prop :=
  t₀ + k * (size.val * 1000) ≤ t ∧ t < t₀ + (k + 1) * (size.val * 1000)

/-- No two calls of one window return samples that the inner filter rejected. -/
def AtMostOneRejected (w : WindowingScheme V) (t₀ : ℤ) (size : Number) (calls : List (Reading V)) :
    Prop :=
  ∀ (k : ℕ) (pre mid post : List (Reading V)) (r r' : Reading V),
    calls = pre ++ r :: (mid ++ r' :: post) → InWindow t₀ size k r.now →
      InWindow t₀ size k r'.now → w.ReturnsRejected pre r → ¬ w.ReturnsRejected (pre ++ r :: mid) r'

/-- The creation time with the window size added `n` times, as `+=` does. -/
def windowEnd (t₀ : ℤ) (size : Number) (n : ℕ) : ℚ := size.after^[n] t₀

/-- At the last of the calls the `n`-th end had not come; before any call none has. -/
def Ahead (t₀ : ℤ) (size : Number) (pre : List (Reading V)) (n : ℕ) : Prop :=
  0 < n ∧ ∀ q ∈ pre.getLast?, q.now < windowEnd t₀ size n

/-- Since some earlier call, or since the creation, at least as many ends have come as there were
calls, this one included. -/
def Overdue (t₀ : ℤ) (size : Number) (pre : List (Reading V)) (r : Reading V) : Prop :=
  ∃ p s n, pre = p ++ s ∧ Ahead t₀ size p n ∧ windowEnd t₀ size (n + s.length) ≤ r.now

def Passed (t₀ : ℤ) (size : Number) (pre : List (Reading V)) : Prop :=
  ∃ p a s, pre = p ++ a :: s ∧ a.filtered ≠ none ∧ ¬ Overdue t₀ size p a ∧
    ∀ s₁ b s₂, s = s₁ ++ b :: s₂ → ¬ Overdue t₀ size (p ++ a :: s₁) b

theorem windowEnd_mono (hsize : 0 < size.val) {m n : ℕ} (hm : 0 < m) (h : m ≤ n) :
    windowEnd t₀ size m ≤ windowEnd t₀ size n :=
  size.iterate_after_mono hsize.le t₀ hm h

theorem lt_of_windowEnd_lt (hsize : 0 < size.val) {m n : ℕ} (hn : 0 < n)
    (h : windowEnd t₀ size m < windowEnd t₀ size n) : m < n := by
  by_contra hle
  exact absurd (windowEnd_mono hsize hn (not_lt.mp hle)) (not_le.mpr h)

theorem ahead_concat (pre : List (Reading V)) (r : Reading V) (n : ℕ) :
    Ahead t₀ size (pre ++ [r]) n ↔ 0 < n ∧ r.now < windowEnd t₀ size n := by
  simp [Ahead]

def closings (t₀ : ℤ) (size : Number) (pre : List (Reading V)) : ℕ :=
  pre.foldl (fun c r ↦ if windowEnd t₀ size (c + 1) ≤ r.now then c + 1 else c) 0

theorem closings_concat (pre : List (Reading V)) (r : Reading V) :
    closings t₀ size (pre ++ [r]) =
      if windowEnd t₀ size (closings t₀ size pre + 1) ≤ r.now then closings t₀ size pre + 1
      else closings t₀ size pre := by
  rw [closings, List.foldl_append]
  rfl

theorem closings_le {pre : List (Reading V)} {t : ℤ} (h : ∀ q ∈ pre, q.now ≤ t) :
    closings t₀ size pre = 0 ∨ windowEnd t₀ size (closings t₀ size pre) ≤ t := by
  induction pre using List.reverseRecOn with
  | nil => exact .inl rfl
  | append_singleton pre r ih =>
    rw [closings_concat]
    split
    · next hcome =>
      have hr : (r.now : ℚ) ≤ t := by exact_mod_cast h r (by simp)
      exact .inr (hcome.trans hr)
    · exact ih fun q hq ↦ h q (by simp [hq])

theorem closings_lt_iff (hsize : 0 < size.val) {pre : List (Reading V)}
    (hsorted : (pre.map Reading.now).Pairwise (· ≤ ·)) (n : ℕ) :
    closings t₀ size pre < n ↔ ∃ p s m, pre = p ++ s ∧ Ahead t₀ size p m ∧ m + s.length = n := by
  induction pre using List.reverseRecOn generalizing n with
  | nil =>
    constructor
    · intro h
      exact ⟨[], [], n, rfl, ⟨h, by simp⟩, rfl⟩
    · rintro ⟨p, s, m, hps, hahead, rfl⟩
      obtain ⟨rfl, rfl⟩ := List.append_eq_nil_iff.mp hps.symm
      exact hahead.1
  | append_singleton pre r ih =>
    rw [List.map_append, List.pairwise_append] at hsorted
    have hih := ih hsorted.1
    have hcome : closings t₀ size pre = 0 ∨ windowEnd t₀ size (closings t₀ size pre) ≤ r.now :=
      closings_le fun q hq ↦ hsorted.2.2 q.now (List.mem_map_of_mem hq) r.now (by simp)
    rw [closings_concat]
    constructor
    · intro h
      split at h
      · obtain ⟨p, s, m, hps, hahead, hn⟩ := (hih (n - 1)).mp (by omega)
        refine ⟨p, s ++ [r], m, by simp [hps], hahead, ?_⟩
        rw [List.length_append, List.length_singleton]
        omega
      · next hopen =>
        refine ⟨pre ++ [r], [], n, by simp, (ahead_concat pre r n).mpr ⟨by omega, ?_⟩, rfl⟩
        exact (not_le.mp hopen).trans_le (windowEnd_mono hsize (by omega) h)
    · rintro ⟨p, s, m, hps, hahead, rfl⟩
      induction s using List.reverseRecOn with
      | nil =>
        rw [List.append_nil] at hps
        rw [← hps, ahead_concat] at hahead
        obtain ⟨hm, hlt⟩ := hahead
        rw [List.length_nil, Nat.add_zero]
        split
        · next hle => exact lt_of_windowEnd_lt hsize hm (hle.trans_lt hlt)
        · rcases hcome with hzero | hle
          · omega
          · exact lt_of_windowEnd_lt hsize hm (hle.trans_lt hlt)
      | append_singleton s b _ =>
        rw [← List.append_assoc] at hps
        obtain ⟨hps, -⟩ := List.append_inj' hps rfl
        have hlt := (hih (m + s.length)).mpr ⟨p, s, m, hps, hahead, rfl⟩
        rw [List.length_append, List.length_singleton]
        split
        · omega
        · omega

theorem overdue_iff (hsize : 0 < size.val) {pre : List (Reading V)}
    (hsorted : (pre.map Reading.now).Pairwise (· ≤ ·)) (r : Reading V) :
    Overdue t₀ size pre r ↔ windowEnd t₀ size (closings t₀ size pre + 1) ≤ r.now := by
  constructor
  · rintro ⟨p, s, n, hps, hahead, hle⟩
    have hlt := (closings_lt_iff hsize hsorted _).mpr ⟨p, s, n, hps, hahead, rfl⟩
    exact (windowEnd_mono hsize (Nat.succ_pos _) hlt).trans hle
  · intro hle
    obtain ⟨p, s, n, hps, hahead, hn⟩ := (closings_lt_iff hsize hsorted _).mp (Nat.lt_succ_self _)
    exact ⟨p, s, n, hps, hahead, by rwa [hn]⟩

/-- What the calls made so far left behind: how far the end of the window was moved, and whether a
sample passed since. -/
structure Follows (w : WindowingScheme V) (t₀ : ℤ) (size : Number) (pre : List (Reading V)) :
    Prop where
  windowSizeSec : w.windowSizeSec = size
  nextWindowTime : w.nextWindowTime = windowEnd t₀ size (closings t₀ size pre + 1)
  samplePassed : w.samplePassed = true ↔ Passed t₀ size pre

theorem Follows.closes_iff (hsize : 0 < size.val) {w : WindowingScheme V} {pre : List (Reading V)}
    (h : Follows w t₀ size pre) (hsorted : (pre.map Reading.now).Pairwise (· ≤ ·))
    (r : Reading V) : w.nextWindowTime ≤ r.now ↔ Overdue t₀ size pre r := by
  rw [overdue_iff hsize hsorted, h.nextWindowTime]

theorem passed_concat (pre : List (Reading V)) (r : Reading V) :
    Passed t₀ size (pre ++ [r]) ↔
      ¬ Overdue t₀ size pre r ∧ (r.filtered ≠ none ∨ Passed t₀ size pre) := by
  constructor
  · rintro ⟨p, a, s, hps, hpass, htime, hsince⟩
    induction s using List.reverseRecOn with
    | nil =>
      obtain ⟨rfl, hr⟩ := List.append_inj' hps rfl
      obtain rfl := List.head_eq_of_cons_eq hr
      exact ⟨htime, .inl hpass⟩
    | append_singleton s b _ =>
      rw [← List.cons_append, ← List.append_assoc] at hps
      obtain ⟨rfl, hr⟩ := List.append_inj' hps rfl
      obtain rfl := List.head_eq_of_cons_eq hr
      refine ⟨hsince s r [] rfl, .inr ⟨p, a, s, rfl, hpass, htime, ?_⟩⟩
      rintro s₁ b s₂ rfl
      exact hsince s₁ b (s₂ ++ [r]) (by simp)
  · rintro ⟨htime, hpass | ⟨p, a, s, rfl, hpass, ha, hsince⟩⟩
    · exact ⟨pre, r, [], rfl, hpass, htime, by simp⟩
    · refine ⟨p, a, s ++ [r], by simp, hpass, ha, ?_⟩
      intro s₁ b s₂ hs
      induction s₂ using List.reverseRecOn with
      | nil =>
        obtain ⟨rfl, hr⟩ := List.append_inj' hs rfl
        obtain rfl := List.head_eq_of_cons_eq hr
        exact htime
      | append_singleton s₂ c _ =>
        rw [← List.cons_append, ← List.append_assoc] at hs
        obtain ⟨hs, -⟩ := List.append_inj' hs rfl
        exact hsince s₁ b s₂ hs

theorem Follows.read (hsize : 0 < size.val) {w : WindowingScheme V} {pre : List (Reading V)}
    (h : Follows w t₀ size pre) {r : Reading V}
    (hsorted : ((pre ++ [r]).map Reading.now).Pairwise (· ≤ ·)) :
    Follows (w.read r).2 t₀ size (pre ++ [r]) := by
  have hpre : (pre.map Reading.now).Pairwise (· ≤ ·) := by
    rw [List.map_append, List.pairwise_append] at hsorted
    exact hsorted.1
  have hcloses := h.closes_iff hsize hpre r
  have hover : Overdue t₀ size pre r ↔ windowEnd t₀ size (closings t₀ size pre + 1) ≤ r.now :=
    overdue_iff hsize hpre r
  by_cases hlate : Overdue t₀ size pre r
  · have hnext : (w.read r).2 = w.setNextWindowTime := by
      simp only [WindowingScheme.read, WindowingScheme.window, if_pos (hcloses.mpr hlate)]
      split <;> rfl
    refine ⟨?_, ?_, ?_⟩
    · rw [hnext]
      exact h.windowSizeSec
    · rw [hnext, closings_concat, if_pos (hover.mp hlate), WindowingScheme.setNextWindowTime,
        h.nextWindowTime, h.windowSizeSec]
      exact (Function.iterate_succ_apply' size.after _ _).symm
    · rw [hnext, passed_concat]
      simp [WindowingScheme.setNextWindowTime, hlate]
  · have hopen : ¬ w.nextWindowTime ≤ r.now := fun hle ↦ hlate (hcloses.mp hle)
    have hread : (w.read r).2 =
        if r.filtered.isSome then { w with samplePassed := true } else w := by
      simp only [WindowingScheme.read, WindowingScheme.window, if_neg hopen]
      split <;> rfl
    refine ⟨?_, ?_, ?_⟩
    · rw [hread]
      split <;> exact h.windowSizeSec
    · rw [hread, closings_concat, if_neg fun hle ↦ hlate (hover.mpr hle)]
      split <;> exact h.nextWindowTime
    · rw [hread, passed_concat, ← h.samplePassed]
      cases hfiltered : r.filtered <;> simp [hlate]

theorem follows_after (hsize : 0 < size.val) {w : WindowingScheme V} (hinit : Follows w t₀ size [])
    {pre : List (Reading V)} (hsorted : (pre.map Reading.now).Pairwise (· ≤ ·)) :
    Follows (w.after pre) t₀ size pre := by
  induction pre using List.reverseRecOn with
  | nil => exact hinit
  | append_singleton pre r ih =>
    rw [WindowingScheme.after_concat]
    apply Follows.read hsize _ hsorted
    rw [List.map_append, List.pairwise_append] at hsorted
    exact ih hsorted.1

theorem follows_init {filterObj : V → Option V} {w : WindowingScheme V}
    (h : WindowingScheme.init filterObj size t₀ = .ok w) : Follows w t₀ size [] := by
  unfold WindowingScheme.init at h
  split at h
  · simp at h
  · obtain rfl := Except.ok.inj h
    exact ⟨rfl, rfl, by simp [Passed]⟩

theorem Follows.returnsRejected_iff (hsize : 0 < size.val) {w : WindowingScheme V}
    {pre : List (Reading V)} (h : Follows (w.after pre) t₀ size pre)
    (hsorted : (pre.map Reading.now).Pairwise (· ≤ ·)) (r : Reading V) :
    w.ReturnsRejected pre r ↔
      r.filtered = none ∧ Overdue t₀ size pre r ∧ ¬ Passed t₀ size pre := by
  rw [WindowingScheme.ReturnsRejected, ← h.closes_iff hsize hsorted r, ← h.samplePassed]
  apply and_congr_right
  intro hrejected
  simp only [WindowingScheme.read, WindowingScheme.window, hrejected]
  by_cases hcloses : (w.after pre).nextWindowTime ≤ r.now
  · cases hflag : (w.after pre).samplePassed <;> simp [hcloses]
  · simp [hcloses]

/-- The windows return at most one rejected sample each if and only if, whenever two samples of one
window are rejected and both calls are overdue, a sample passed before one of them. -/
theorem atMostOneRejected_iff {filterObj : V → Option V} {w : WindowingScheme V}
    (hinit : WindowingScheme.init filterObj size t₀ = .ok w) (hsize : 0 < size.val)
    (calls : List (Reading V)) (hsorted : (calls.map Reading.now).Pairwise (· ≤ ·)) :
    AtMostOneRejected w t₀ size calls ↔
      ∀ (k : ℕ) (pre mid post : List (Reading V)) (r r' : Reading V),
        calls = pre ++ r :: (mid ++ r' :: post) → InWindow t₀ size k r.now →
          InWindow t₀ size k r'.now → r.filtered = none → r'.filtered = none →
            Overdue t₀ size pre r → Overdue t₀ size (pre ++ r :: mid) r' →
              Passed t₀ size pre ∨ Passed t₀ size (pre ++ r :: mid) := by
  have hreturns : ∀ {pre r post}, calls = pre ++ r :: post →
      (w.ReturnsRejected pre r ↔
        r.filtered = none ∧ Overdue t₀ size pre r ∧ ¬ Passed t₀ size pre) := by
    intro pre r post hcalls
    have hpre : (pre.map Reading.now).Pairwise (· ≤ ·) := by
      rw [hcalls, List.map_append, List.pairwise_append] at hsorted
      exact hsorted.1
    exact (follows_after hsize (follows_init hinit) hpre).returnsRejected_iff hsize hpre r
  constructor
  · intro hone k pre mid post r r' hcalls hk hk' hr hr' hfirst hsecond
    by_contra hpassed
    push Not at hpassed
    have hsplit : calls = (pre ++ r :: mid) ++ r' :: post := by simp [hcalls]
    apply hone k pre mid post r r' hcalls hk hk'
    · exact (hreturns hcalls).mpr ⟨hr, hfirst, hpassed.1⟩
    · exact (hreturns hsplit).mpr ⟨hr', hsecond, hpassed.2⟩
  · intro hpass k pre mid post r r' hcalls hk hk' hfirst hsecond
    have hsplit : calls = (pre ++ r :: mid) ++ r' :: post := by simp [hcalls]
    rw [hreturns hcalls] at hfirst
    rw [hreturns hsplit] at hsecond
    rcases hpass k pre mid post r r' hcalls hk hk' hfirst.1 hsecond.1 hfirst.2.1 hsecond.2.1 with
      hpassed | hpassed
    · exact hfirst.2.2 hpassed
    · exact hsecond.2.2 hpassed

/-- A window of a second: the call at 1500 is overdue, the one at 1700 is not. -/
theorem atMostOneRejected_in_time :
    ∃ w : WindowingScheme ℕ, WindowingScheme.init (fun _ ↦ none) 1 0 = .ok w ∧
      AtMostOneRejected w 0 1 [⟨1500, 1, none⟩, ⟨1700, 3, none⟩] := by
  have hinit : WindowingScheme.init (fun _ ↦ none) 1 0 =
      .ok (⟨fun _ ↦ none, 1, false, Number.after 1 (0 : ℤ)⟩ : WindowingScheme ℕ) :=
    if_neg (by decide)
  refine ⟨_, hinit, (atMostOneRejected_iff hinit (by decide) _ (by simp)).mpr ?_⟩
  intro k pre mid post r r' hcalls _ _ _ _ _ hover
  match pre, mid with
  | [], [] =>
    obtain ⟨rfl, htail⟩ := List.cons.inj hcalls
    obtain ⟨rfl, -⟩ := List.cons.inj htail
    obtain ⟨p, s, n, hps, ⟨hn, hahead⟩, hle⟩ := hover
    have hend (n : ℕ) : windowEnd 0 1 n = n * 1000 := by
      rw [windowEnd, show (1 : Number) = .int 1 from rfl, Number.iterate_after_int]
      simp
    rw [hend] at hle
    cases p with
    | nil =>
      have hlength : s.length = 1 := (congrArg List.length hps).symm
      have hle' : ((n + s.length : ℕ) : ℚ) * 1000 ≤ (1700 : ℤ) := hle
      norm_cast at hle'
      omega
    | cons q p =>
      obtain ⟨rfl, hrest⟩ := List.cons.inj hps
      obtain ⟨rfl, rfl⟩ := List.append_eq_nil_iff.mp hrest.symm
      have hlt := hahead _ rfl
      rw [hend] at hlt
      have hlt' : ((1500 : ℤ) : ℚ) < (n : ℚ) * 1000 := hlt
      have hle' : (n : ℚ) * 1000 ≤ (1700 : ℤ) := hle
      norm_cast at hlt' hle'
      omega
  | [], _ :: _ => simp at hcalls
  | _ :: _, _ =>
    have := congrArg List.length hcalls
    simp only [List.cons_append, List.length_cons, List.length_append, List.length_nil] at this
    omega

/-- The first call comes three windows late, the second a tenth of a second after it: both return a
rejected sample in the window from 3000 to 4000. -/
theorem late_calls_return_two :
    ¬ ∀ (filterObj : ℕ → Option ℕ) (size : Number) (t₀ : ℤ) (w : WindowingScheme ℕ)
      (calls : List (Reading ℕ)), 0 < size.val → WindowingScheme.init filterObj size t₀ = .ok w →
        (calls.map Reading.now).Pairwise (· ≤ ·) → AtMostOneRejected w t₀ size calls := by
  intro hall
  have hinit : WindowingScheme.init (fun _ ↦ none) 1 0 =
      .ok (⟨fun _ ↦ none, 1, false, Number.after 1 (0 : ℤ)⟩ : WindowingScheme ℕ) :=
    if_neg (by decide)
  apply hall _ 1 0 _ [⟨3500, 7, none⟩, ⟨3600, 9, none⟩] (by decide) hinit (by simp)
    3 [] [] [] ⟨3500, 7, none⟩ ⟨3600, 9, none⟩ rfl
  · constructor <;> norm_num [Number.val]
  · constructor <;> norm_num [Number.val]
  · exact ⟨rfl, by decide +kernel⟩
  · exact ⟨rfl, by decide +kernel⟩

end Liota.Filters
