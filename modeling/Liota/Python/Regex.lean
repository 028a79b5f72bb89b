import Mathlib.Data.List.Infix
import Liota.Python.Text
import Liota.Rewriting.Rules

namespace Liota.Python

open Text (Str)

/-- A place in a text: the letter before it, the letters behind it, and what the group matched. -/
structure Cursor where
  prev : Option Char
  rest : Str
  group : Str

def Cursor.append (c : Cursor) (t : Str) : Cursor := ⟨c.prev, c.rest ++ t, c.group⟩

/-- Patterns of `re` with one group at most and without repetition. -/
inductive Regex
  | empty
  | char (p : Char → Bool)
  | boundary
  | seq (r s : Regex)
  | alt (r s : Regex)
  | group (r : Regex)

namespace Regex

/-- `\w` on byte strings. -/
def isWord (c : Char) : Bool := c.isAlphanum || c = '_'

/-- `\s` on byte strings. -/
def isSpace (c : Char) : Bool :=
  c = ' ' || c = '\t' || c = '\n' || c = '\r' || c = '\x0b' || c = '\x0c'

/-- `\b` -/
def atBoundary (prev : Option Char) (rest : Str) : Bool :=
  prev.any isWord != rest.head?.any isWord

def ends : Regex → Cursor → List Cursor
  | .empty, c => [c]
  | .char p, ⟨_, x :: t, g⟩ => if p x then [⟨some x, t, g⟩] else []
  | .char _, ⟨_, [], _⟩ => []
  | .boundary, c => if atBoundary c.prev c.rest then [c] else []
  | .seq r s, c => (r.ends c).flatMap s.ends
  | .alt r s, c => r.ends c ++ s.ends c
  | .group r, c =>
    (r.ends c).map fun e ↦ ⟨e.prev, e.rest, c.rest.take (c.rest.length - e.rest.length)⟩

def hit (r : Regex) (repl : Str → Str) (prev : Option Char) (t : Str) : Option (Str × Str) :=
  (r.ends ⟨prev, t, []⟩).head?.map fun e ↦ (repl e.group, e.rest)

/-- The scan of `sub`, after so many letters that a match has used up. The pattern is one that does
not match the empty text. -/
def subFrom (r : Regex) (repl : Str → Str) : Option Char → ℕ → Str → Str
  | _, _, [] => []
  | _, k + 1, c :: t => subFrom r repl (some c) k t
  | prev, 0, c :: t =>
    match r.hit repl prev (c :: t) with
    | some (new, rest) => new ++ subFrom r repl (some c) (t.length - rest.length) t
    | none => c :: subFrom r repl (some c) 0 t

/-- `r.sub(repl, t)` -/
def sub (r : Regex) (repl : Str → Str) (t : Str) : Str := subFrom r repl none 0 t

def subOnceFrom (r : Regex) (repl : Str → Str) : Option Char → Str → Str
  | _, [] => []
  | prev, c :: t =>
    match r.hit repl prev (c :: t) with
    | some (new, rest) => new ++ rest
    | none => c :: subOnceFrom r repl (some c) t

/-- `r.sub(repl, t, count=1)` -/
def subOnce (r : Regex) (repl : Str → Str) (t : Str) : Str := subOnceFrom r repl none t

def searchFrom (r : Regex) : Option Char → Str → Bool
  | _, [] => false
  | prev, c :: t => (r.hit id prev (c :: t)).isSome || searchFrom r (some c) t

/-- `r.search(t) is not None` -/
def search (r : Regex) (t : Str) : Bool := searchFrom r none t

/-- The word itself; a blank in it stands for `\s`. -/
def spaced (w : Str) : Regex :=
  w.foldr (fun c r ↦ .seq (.char fun x ↦ if c = ' ' then isSpace x else x = c) r) .empty

/-- The word with `\b` behind it. -/
def ending (w : Str) : Regex := .seq (spaced w) .boundary

/-- The word between `\b` and `\b`. -/
def bounded (w : Str) : Regex := .seq .boundary (ending w)

def either (v w : Str) : Regex := .group (.alt (spaced v) (spaced w))

def after : Option Char → Str → Option Char
  | prev, [] => prev
  | _, c :: t => after (some c) t

@[simp] theorem after_nil (prev : Option Char) : after prev [] = prev := rfl

@[simp] theorem after_cons (prev : Option Char) (c : Char) (t : Str) :
    after prev (c :: t) = after (some c) t := rfl

theorem after_append (prev : Option Char) (x y : Str) :
    after prev (x ++ y) = after (after prev x) y := by
  induction x generalizing prev with
  | nil => rfl
  | cons c x ih => exact ih (some c)

section Scan

variable {r : Regex} {repl : Str → Str} {prev : Option Char} {t : Str}

theorem subFrom_drop (x t : Str) :
    r.subFrom repl prev x.length (x ++ t) = r.subFrom repl (after prev x) 0 t := by
  induction x generalizing prev with
  | nil => rfl
  | cons c x ih => exact ih

theorem subFrom_of_some {x : Str} {new : Str} (hne : x ≠ [])
    (h : r.hit repl prev (x ++ t) = some (new, t)) :
    r.subFrom repl prev 0 (x ++ t) = new ++ r.subFrom repl (after prev x) 0 t := by
  obtain ⟨c, x, rfl⟩ := List.exists_cons_of_ne_nil hne
  rw [List.cons_append] at h ⊢
  rw [subFrom, h]
  dsimp only
  rw [List.length_append, Nat.add_sub_cancel, subFrom_drop]
  rfl

theorem subFrom_of_whole {x : Str} {new : Str} (hne : x ≠ [])
    (h : r.hit repl prev x = some (new, [])) : r.subFrom repl prev 0 x = new := by
  rw [← List.append_nil x] at h ⊢
  rw [subFrom_of_some hne h, subFrom, List.append_nil]

theorem subFrom_of_none {c : Char} (h : r.hit repl prev (c :: t) = none) :
    r.subFrom repl prev 0 (c :: t) = c :: r.subFrom repl (some c) 0 t := by
  rw [subFrom, h]

theorem subFrom_append_of_none {x : Str}
    (h : ∀ u v, x = u ++ v → v ≠ [] → r.hit repl (after prev u) (v ++ t) = none) :
    r.subFrom repl prev 0 (x ++ t) = x ++ r.subFrom repl (after prev x) 0 t := by
  induction x generalizing prev with
  | nil => rfl
  | cons c x ih =>
    have hnone : r.hit repl prev (c :: (x ++ t)) = none :=
      h [] (c :: x) rfl (List.cons_ne_nil c x)
    rw [List.cons_append, subFrom_of_none hnone, ih]
    · rfl
    · intro u v hx hne
      exact h (c :: u) v (by rw [hx, List.cons_append]) hne

theorem subOnceFrom_of_some {c : Char} {new rest : Str}
    (h : r.hit repl prev (c :: t) = some (new, rest)) :
    r.subOnceFrom repl prev (c :: t) = new ++ rest := by
  rw [subOnceFrom, h]

theorem subOnceFrom_of_none {c : Char} (h : r.hit repl prev (c :: t) = none) :
    r.subOnceFrom repl prev (c :: t) = c :: r.subOnceFrom repl (some c) t := by
  rw [subOnceFrom, h]

theorem subOnceFrom_append_of_none {x : Str}
    (h : ∀ u v, x = u ++ v → v ≠ [] → r.hit repl (after prev u) (v ++ t) = none) :
    r.subOnceFrom repl prev (x ++ t) = x ++ r.subOnceFrom repl (after prev x) t := by
  induction x generalizing prev with
  | nil => rfl
  | cons c x ih =>
    have hnone : r.hit repl prev (c :: (x ++ t)) = none :=
      h [] (c :: x) rfl (List.cons_ne_nil c x)
    rw [List.cons_append, subOnceFrom_of_none hnone, ih]
    · rfl
    · intro u v hx hne
      exact h (c :: u) v (by rw [hx, List.cons_append]) hne

end Scan

section Words

variable {repl : Str → Str} {prev : Option Char} {t w : Str}

def Clean (t : Str) : Prop := ∀ c ∈ t, isSpace c → c = ' '

instance (t : Str) : Decidable (Clean t) := List.decidableBAll _ t

theorem Clean.tail {c : Char} (h : Clean (c :: t)) : Clean t :=
  fun d hd ↦ h d (List.mem_cons_of_mem c hd)

theorem Clean.append {x y : Str} (hx : Clean x) (hy : Clean y) : Clean (x ++ y) := by
  intro c hc
  obtain hc | hc := List.mem_append.mp hc
  · exact hx c hc
  · exact hy c hc

theorem Clean.right {x y : Str} (h : Clean (x ++ y)) : Clean y :=
  fun c hc ↦ h c (List.mem_append_right x hc)

theorem ends_spaced (hclean : Clean t) (g : Str) :
    (spaced w).ends ⟨prev, t, g⟩ =
      if w <+: t then [⟨after prev w, t.drop w.length, g⟩] else [] := by
  induction w generalizing prev t with
  | nil => simp [spaced, ends]
  | cons c w ih =>
    have hunfold : spaced (c :: w) =
      .seq (.char fun x ↦ if c = ' ' then isSpace x else x = c) (spaced w) := rfl
    rw [hunfold]
    cases t with
    | nil => simp [ends]
    | cons d t =>
      have hchar : (if c = ' ' then isSpace d else decide (d = c)) = decide (c = d) := by
        by_cases hc : c = ' '
        · rw [if_pos hc, hc]
          have hd := hclean d List.mem_cons_self
          by_cases hspace : isSpace d = true
          · rw [hd hspace]
            rfl
          · have hne : ' ' ≠ d := by
              intro heq
              apply hspace
              rw [← heq]
              rfl
            simp [hne, hspace]
        · rw [if_neg hc]
          simp [eq_comm]
      rw [ends, ends, hchar]
      by_cases hcd : c = d
      · rw [hcd, if_pos (decide_eq_true rfl), List.flatMap_cons, List.flatMap_nil, List.append_nil,
          ih hclean.tail]
        simp only [List.cons_prefix_cons, true_and, List.length_cons, List.drop_succ_cons]
        rfl
      · have hno : ¬ c :: w <+: d :: t := fun hpre ↦ hcd (List.cons_prefix_cons.mp hpre).1
        rw [if_neg hno]
        simp [hcd]

theorem hit_spaced (hclean : Clean t) :
    (spaced w).hit repl prev t = if w <+: t then some (repl [], t.drop w.length) else none := by
  rw [hit, ends_spaced hclean]
  by_cases hpre : w <+: t <;> simp [hpre]

theorem hit_ending (hclean : Clean t) :
    (ending w).hit repl prev t =
      if w <+: t ∧ atBoundary (after prev w) (t.drop w.length) then
        some (repl [], t.drop w.length)
      else none := by
  rw [hit, ending, ends, ends_spaced hclean]
  by_cases hpre : w <+: t
  · by_cases hend : atBoundary (after prev w) (t.drop w.length) <;> simp [ends, hpre, hend]
  · simp [hpre]

theorem hit_bounded :
    (bounded w).hit repl prev t =
      if atBoundary prev t then (ending w).hit repl prev t else none := by
  rw [hit, bounded, ends, ends]
  by_cases hbegin : atBoundary prev t <;> simp [hbegin, hit]

end Words

section Blanks

variable {r : Regex} {repl : Str → Str} {prev : Option Char}

def Within : Regex → Prop
  | .char p => p ' ' = false
  | .seq r s => Within r ∧ Within s
  | .alt r s => Within r ∧ Within s
  | .group r => Within r
  | _ => True

theorem suffix_of_mem_ends {c e : Cursor} (h : e ∈ r.ends c) : e.rest <:+ c.rest := by
  induction r generalizing c e with
  | empty =>
    obtain rfl := List.mem_singleton.mp h
    exact List.suffix_refl _
  | char p =>
    obtain ⟨prev, t, g⟩ := c
    cases t with
    | nil => simp [ends] at h
    | cons x t =>
      have he : e.rest = t := by
        rw [ends] at h
        by_cases hp : p x <;> simp [hp] at h
        rw [h]
      rw [he]
      exact List.suffix_cons x t
  | boundary =>
    have he : e = c := by
      rw [ends] at h
      by_cases hb : atBoundary c.prev c.rest <;> simp [hb] at h
      exact h
    rw [he]
  | seq r s ihr ihs =>
    obtain ⟨d, hd, he⟩ := List.mem_flatMap.mp h
    exact (ihs he).trans (ihr hd)
  | alt r s ihr ihs =>
    obtain h | h := List.mem_append.mp h
    · exact ihr h
    · exact ihs h
  | group r ih =>
    obtain ⟨d, hd, rfl⟩ := List.mem_map.mp h
    exact (ih hd : d.rest <:+ c.rest)

theorem Within.ends_append (h : r.Within) (c : Cursor) (t : Str) :
    r.ends (Cursor.append c (' ' :: t)) = (r.ends c).map (Cursor.append · (' ' :: t)) := by
  induction r generalizing c with
  | empty => rfl
  | char p =>
    obtain ⟨prev, x, g⟩ := c
    cases x with
    | nil =>
      have hp : p ' ' = false := h
      simp [Cursor.append, ends, hp]
    | cons d x => by_cases hp : p d <;> simp [Cursor.append, ends, hp]
  | boundary =>
    have hb : atBoundary c.prev (c.rest ++ ' ' :: t) = atBoundary c.prev c.rest := by
      cases hrest : c.rest with
      | nil => cases c.prev <;> rfl
      | cons d x => rfl
    by_cases hend : atBoundary c.prev c.rest <;> simp [Cursor.append, ends, hb, hend]
  | seq r s ihr ihs =>
    rw [ends, ends, ihr h.1, List.flatMap_map, List.map_flatMap]
    apply List.flatMap_congr
    intro d _
    exact ihs h.2 d
  | alt r s ihr ihs => rw [ends, ends, ihr h.1, ihs h.2, List.map_append]
  | group r ih =>
    rw [ends, ends, ih h, List.map_map, List.map_map]
    apply List.map_congr_left
    intro e he
    have hle := (suffix_of_mem_ends he).length_le
    have hlen : (c.rest ++ ' ' :: t).length - (e.rest ++ ' ' :: t).length =
        c.rest.length - e.rest.length := by
      rw [List.length_append, List.length_append]
      omega
    have htake : (c.rest ++ ' ' :: t).take (c.rest.length - e.rest.length) =
        c.rest.take (c.rest.length - e.rest.length) := List.take_append_of_le_length (by omega)
    simp only [Function.comp_apply, Cursor.append, hlen, htake]

theorem Within.hit_append (h : r.Within) (repl : Str → Str) (prev : Option Char) (x t : Str) :
    r.hit repl prev (x ++ ' ' :: t) =
      (r.hit repl prev x).map fun m ↦ (m.1, m.2 ++ ' ' :: t) := by
  have hends := h.ends_append ⟨prev, x, []⟩ t
  rw [Cursor.append] at hends
  rw [hit, hit, hends, List.head?_map, Option.map_map, Option.map_map]
  rfl

theorem Within.subFrom_append (h : r.Within) (hempty : ∀ prev, r.hit repl prev [] = none)
    {k : ℕ} {x : Str} (hk : k ≤ x.length) (t : Str) :
    r.subFrom repl prev k (x ++ ' ' :: t) =
      r.subFrom repl prev k x ++ ' ' :: r.subFrom repl (some ' ') 0 t := by
  induction x generalizing prev k with
  | nil =>
    obtain rfl := Nat.le_zero.mp hk
    have hnone : r.hit repl prev (' ' :: t) = none := by
      have hblank := h.hit_append repl prev [] t
      rw [hempty] at hblank
      exact hblank
    exact subFrom_of_none hnone
  | cons c x ih =>
    cases k with
    | succ k => exact ih (Nat.le_of_succ_le_succ hk)
    | zero =>
      have hhit := h.hit_append repl prev (c :: x) t
      cases hx : r.hit repl prev (c :: x) with
      | none =>
        rw [hx, List.cons_append, Option.map_none] at hhit
        rw [List.cons_append, subFrom_of_none hhit, subFrom_of_none hx, ih (Nat.zero_le _)]
        rfl
      | some m =>
        obtain ⟨new, rest⟩ := m
        rw [hx] at hhit
        simp only [List.cons_append, Option.map_some] at hhit
        have hlen : (x ++ ' ' :: t).length - (rest ++ ' ' :: t).length =
            x.length - rest.length := by
          rw [List.length_append, List.length_append]
          omega
        rw [List.cons_append, subFrom, hhit, subFrom, hx]
        dsimp only
        rw [hlen, ih (Nat.sub_le _ _), List.append_assoc]

end Blanks

section Search

variable {r : Regex} {p : Char → Bool}

theorem exists_hit_of_searchFrom {prev : Option Char} {t : Str}
    (h : r.searchFrom prev t = true) :
    ∃ prev' v, v <:+ t ∧ (r.hit id prev' v).isSome = true := by
  induction t generalizing prev with
  | nil => cases h
  | cons c t ih =>
    rw [searchFrom, Bool.or_eq_true] at h
    obtain h | h := h
    · exact ⟨prev, c :: t, List.suffix_refl _, h⟩
    · obtain ⟨prev', v, hv, hhit⟩ := ih h
      exact ⟨prev', v, hv.trans (List.suffix_cons c t), hhit⟩

theorem search_char (t : Str) : (Regex.char p).search t = t.any p := by
  have hgen (prev : Option Char) : (Regex.char p).searchFrom prev t = t.any p := by
    induction t generalizing prev with
    | nil => rfl
    | cons c t ih =>
      rw [searchFrom, ih, List.any_cons]
      by_cases hc : p c <;> simp [hit, ends, hc]
  exact hgen none

theorem any_of_search {s : Regex} {t : Str}
    (h : (Regex.seq r (.seq s (.char p))).search t = true) : t.any p = true := by
  obtain ⟨prev, v, hv, hhit⟩ := exists_hit_of_searchFrom h
  rw [hit, Option.isSome_map, List.isSome_head?] at hhit
  obtain ⟨e, he⟩ := List.exists_mem_of_ne_nil _ (by simpa using hhit)
  obtain ⟨d, hd, he⟩ := List.mem_flatMap.mp he
  obtain ⟨d', hd', he⟩ := List.mem_flatMap.mp he
  have hsuffix := ((suffix_of_mem_ends hd').trans (suffix_of_mem_ends hd)).trans hv
  obtain ⟨prev', x, g⟩ := d'
  cases x with
  | nil => simp [ends] at he
  | cons c x =>
    rw [ends] at he
    by_cases hc : p c
    · exact List.any_eq_true.mpr ⟨c, hsuffix.subset List.mem_cons_self, hc⟩
    · simp [hc] at he

end Search

section OneWord

variable {repl : Str → Str} {prev : Option Char} {w x : Str}

def Wordy (x : Str) : Prop := ∀ c ∈ x, isWord c

instance (x : Str) : Decidable (Wordy x) := List.decidableBAll _ x

theorem Wordy.append {y : Str} (hx : Wordy x) (hy : Wordy y) : Wordy (x ++ y) := by
  intro c hc
  obtain hc | hc := List.mem_append.mp hc
  · exact hx c hc
  · exact hy c hc

theorem Wordy.left {y : Str} (h : Wordy (x ++ y)) : Wordy x :=
  fun c hc ↦ h c (List.mem_append_left y hc)

theorem Wordy.clean (h : Wordy x) : Clean x := by
  intro c hc hspace
  have hword := h c hc
  rw [isSpace] at hspace
  simp only [Bool.or_eq_true, decide_eq_true_eq] at hspace
  obtain ((((rfl | rfl) | rfl) | rfl) | rfl) | rfl := hspace
  · rfl
  all_goals exact absurd hword (by decide)

theorem Wordy.after (h : Wordy x) (hne : x ≠ []) (prev : Option Char) :
    (Regex.after prev x).any isWord = true := by
  induction x generalizing prev with
  | nil => exact absurd rfl hne
  | cons c x ih =>
    cases x with
    | nil => exact h c List.mem_cons_self
    | cons d x =>
      have hrest : Wordy (d :: x) := fun e he ↦ h e (List.mem_cons_of_mem c he)
      exact ih hrest (List.cons_ne_nil d x) (some c)

theorem hit_ending_of_wordy (hx : Wordy x) (hne : w ≠ []) (repl : Str → Str)
    (prev : Option Char) :
    (ending w).hit repl prev x = if x = w then some (repl [], []) else none := by
  rw [hit_ending hx.clean]
  by_cases heq : x = w
  · have hend : atBoundary (Regex.after prev w) [] = true := by
      rw [atBoundary, (heq ▸ hx : Wordy w).after hne prev]
      rfl
    simp [heq, hend]
  · rw [if_neg heq, if_neg]
    rintro ⟨⟨rest, hrest⟩, hend⟩
    have hword : Wordy w := fun c hc ↦ hx c (hrest ▸ List.mem_append_left rest hc)
    rw [← hrest, List.drop_left, atBoundary, hword.after hne prev] at hend
    cases rest with
    | nil =>
      rw [List.append_nil] at hrest
      exact heq hrest.symm
    | cons d rest =>
      have hd : isWord d = true := hx d (hrest ▸ by simp)
      simp [hd] at hend

theorem subFrom_ending (hx : Wordy x) (hne : w ≠ []) :
    (ending w).subFrom repl prev 0 x =
      if w <:+ x then x.take (x.length - w.length) ++ repl [] else x := by
  induction x generalizing prev with
  | nil => simp [subFrom, hne]
  | cons c x ih =>
    have hhit := hit_ending_of_wordy hx hne repl prev
    by_cases heq : c :: x = w
    · rw [if_pos heq] at hhit
      rw [subFrom_of_whole (List.cons_ne_nil c x) hhit, heq, if_pos (List.suffix_refl w),
        Nat.sub_self, List.take_zero, List.nil_append]
    · rw [if_neg heq] at hhit
      rw [subFrom_of_none hhit, ih fun d hd ↦ hx d (List.mem_cons_of_mem c hd)]
      by_cases hsuffix : w <:+ x
      · rw [if_pos hsuffix, if_pos (hsuffix.trans (List.suffix_cons c x))]
        have hle := hsuffix.length_le
        have hlen : (c :: x).length - w.length = x.length - w.length + 1 := by
          rw [List.length_cons]
          omega
        rw [hlen, List.take_succ_cons, List.cons_append]
      · rw [if_neg hsuffix, if_neg]
        intro hcons
        exact hsuffix ((List.suffix_cons_iff.mp hcons).resolve_left fun h ↦ heq h.symm)

theorem subFrom_bounded_inside (hx : Wordy x) (prev : Option Char)
    (hprev : prev.any isWord = true) : (bounded w).subFrom repl prev 0 x = x := by
  induction x generalizing prev with
  | nil => rfl
  | cons c x ih =>
    have hc := hx c List.mem_cons_self
    have hnone : (bounded w).hit repl prev (c :: x) = none := by
      rw [hit_bounded, if_neg]
      simp [atBoundary, hprev, hc]
    rw [subFrom_of_none hnone, ih (fun d hd ↦ hx d (List.mem_cons_of_mem c hd)) (some c) hc]

theorem subFrom_bounded (hx : Wordy x) (hne : w ≠ []) (hprev : prev.any isWord = false) :
    (bounded w).subFrom repl prev 0 x = if x = w then repl [] else x := by
  cases x with
  | nil =>
    rw [if_neg fun h ↦ hne h.symm]
    rfl
  | cons c x =>
    have hc := hx c List.mem_cons_self
    have hbegin : atBoundary prev (c :: x) = true := by
      simp [atBoundary, hprev, hc]
    have hhit : (bounded w).hit repl prev (c :: x) =
        if c :: x = w then some (repl [], []) else none := by
      rw [hit_bounded, if_pos hbegin, hit_ending_of_wordy hx hne]
    by_cases heq : c :: x = w
    · rw [if_pos heq] at hhit ⊢
      exact subFrom_of_whole (List.cons_ne_nil c x) hhit
    · rw [if_neg heq] at hhit ⊢
      rw [subFrom_of_none hhit,
        subFrom_bounded_inside (fun d hd ↦ hx d (List.mem_cons_of_mem c hd)) (some c) hc]

end OneWord

section Literal

open Rewriting

variable {r : Regex} {repl : Str → Str} {prev : Option Char} {S : List (Rule Char)} {t : Str}

def Models (r : Regex) (repl : Str → Str) (S : List (Rule Char)) : Prop :=
  ∀ prev t, Clean t →
    r.hit repl prev t = (applies S t).map fun s ↦ (s.rep, t.drop s.pat.length)

theorem Models.subFrom_eq (h : r.Models repl S) (hclean : Clean t) :
    r.subFrom repl prev 0 t = replace S t := by
  induction t using replace_induction S generalizing prev with
  | nil => rfl
  | hit s hs t happly ih =>
    have hhit := h prev _ hclean
    rw [happly, Option.map_some, List.drop_left] at hhit
    rw [subFrom_of_some s.pat_ne_nil hhit, replace_of_some happly, ih hclean.right]
  | skip c t happly ih =>
    have hhit := h prev _ hclean
    rw [happly, Option.map_none] at hhit
    rw [subFrom_of_none hhit, replace_of_none happly, ih hclean.tail]

theorem models_spaced {w : Str} {s : Rule Char} (hpat : s.pat = w) (hrep : repl [] = s.rep) :
    (spaced w).Models repl [s] := by
  intro prev t hclean
  rw [← hpat, hit_spaced hclean, hrep, applies]
  by_cases hpre : s.pat <+: t <;> simp [hpre]

theorem ends_either (hclean : Clean t) (v w g : Str) :
    (either v w).ends ⟨prev, t, g⟩ =
      (if v <+: t then [⟨after prev v, t.drop v.length, v⟩] else []) ++
        if w <+: t then [⟨after prev w, t.drop w.length, w⟩] else [] := by
  have hgroup {u : Str} (h : u <+: t) : t.take (t.length - (t.length - u.length)) = u := by
    rw [Nat.sub_sub_self h.length_le]
    exact (List.prefix_iff_eq_take.mp h).symm
  rw [either, ends, ends, ends_spaced hclean, ends_spaced hclean]
  by_cases hv : v <+: t <;> by_cases hw : w <+: t <;> simp [hv, hw, hgroup]

theorem models_either {v w z : Str} {s s' : Rule Char} (hpat : s.pat = v ++ z)
    (hpat' : s'.pat = w ++ z) (hrep : repl v = s.rep) (hrep' : repl w = s'.rep) :
    (seq (either v w) (spaced z)).Models repl [s, s'] := by
  intro prev t hclean
  have hbehind {u : Str} : u ++ z <+: t ↔ u <+: t ∧ z <+: t.drop u.length := by
    constructor
    · intro h
      obtain ⟨rest, rfl⟩ := h
      rw [List.append_assoc, List.drop_left]
      exact ⟨List.prefix_append _ _, List.prefix_append _ _⟩
    · intro h
      obtain ⟨⟨rest, rfl⟩, hz⟩ := h
      rw [List.drop_left] at hz
      exact (List.prefix_append_right_inj u).mpr hz
  have hend {u : Str} (p : Option Char) :
      (spaced z).ends ⟨p, t.drop u.length, u⟩ =
        if z <+: t.drop u.length then [⟨after p z, t.drop (u ++ z).length, u⟩] else [] := by
    rw [ends_spaced fun c hc ↦ hclean c (List.mem_of_mem_drop hc), List.drop_drop,
      List.length_append]
  rw [hit, ends, ends_either hclean, List.flatMap_append, applies]
  by_cases hv : v <+: t <;> by_cases hvz : z <+: t.drop v.length <;>
    by_cases hw : w <+: t <;> by_cases hwz : z <+: t.drop w.length <;>
    simp [hpat, hpat', hbehind, hv, hvz, hw, hwz, hend, hrep, hrep']

end Literal

end Regex

end Liota.Python
