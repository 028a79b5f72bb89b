import Liota.Python.Regex

namespace Liota.Python

open Text (Str)

namespace Regex

def spread (ts : List Str) : Str := ts.flatMap (' ' :: ·)

def phrase : List Str → Str
  | [] => []
  | w :: ts => w ++ spread ts

@[simp] theorem spread_nil : spread [] = [] := rfl

@[simp] theorem spread_cons (w : Str) (ts : List Str) :
    spread (w :: ts) = ' ' :: (w ++ spread ts) := by
  simp [spread]

theorem spread_append (ts us : List Str) : spread (ts ++ us) = spread ts ++ spread us :=
  List.flatMap_append

theorem phrase_cons_cons (v w : Str) (ts : List Str) :
    phrase (v :: w :: ts) = v ++ ' ' :: phrase (w :: ts) := by
  simp [phrase]

def Sign (w : Str) : Prop := ∀ c ∈ w, isWord c = false ∧ isSpace c = false

def Token (w : Str) : Prop := w ≠ [] ∧ (Wordy w ∨ Sign w)

instance (w : Str) : Decidable (Sign w) := List.decidableBAll _ w

instance (w : Str) : Decidable (Token w) := inferInstanceAs (Decidable (_ ∧ (_ ∨ _)))

section Tokens

variable {w : Str} {ts : List Str}

theorem Sign.clean (h : Sign w) : Clean w := by
  intro c hc hspace
  rw [(h c hc).2] at hspace
  exact absurd hspace Bool.false_ne_true

theorem Token.clean (h : Token w) : Clean w := by
  obtain ⟨-, h | h⟩ := h
  · exact h.clean
  · exact h.clean

theorem Token.blank_notMem (h : Token w) : ' ' ∉ w := by
  intro hmem
  obtain ⟨-, h | h⟩ := h
  · exact absurd (h ' ' hmem) (by decide)
  · exact absurd (h ' ' hmem).2 (by decide)

theorem clean_spread (h : ∀ w ∈ ts, Token w) : Clean (spread ts) := by
  intro c hc hspace
  obtain ⟨w, hw, hc⟩ := List.mem_flatMap.mp hc
  obtain rfl | hc := List.mem_cons.mp hc
  · rfl
  · exact (h w hw).clean c hc hspace

theorem clean_phrase (h : ∀ w ∈ ts, Token w) : Clean (phrase ts) := by
  cases ts with
  | nil => exact fun c hc ↦ absurd hc List.not_mem_nil
  | cons w ts =>
    apply (h w List.mem_cons_self).clean.append
    exact clean_spread fun v hv ↦ h v (List.mem_cons_of_mem w hv)

theorem clean_blank_phrase (h : ∀ w ∈ ts, Token w) : Clean (' ' :: phrase ts) := by
  intro c hc hspace
  obtain rfl | hc := List.mem_cons.mp hc
  · rfl
  · exact clean_phrase h c hc hspace

end Tokens

theorem phrase_append {us : List Str} (hne : us ≠ []) (ts : List Str) :
    phrase (us ++ ts) = phrase us ++ spread ts := by
  obtain ⟨u, us, rfl⟩ := List.exists_cons_of_ne_nil hne
  rw [List.cons_append, phrase, phrase, spread_append, List.append_assoc]

theorem spread_eq_blank_phrase {ts : List Str} (hne : ts ≠ []) : spread ts = ' ' :: phrase ts := by
  obtain ⟨w, ts, rfl⟩ := List.exists_cons_of_ne_nil hne
  exact spread_cons w ts

theorem phrase_append_blank {us ts : List Str} (hus : us ≠ []) (hts : ts ≠ []) :
    phrase (us ++ ts) = phrase us ++ ' ' :: phrase ts := by
  rw [phrase_append hus, spread_eq_blank_phrase hts]

section Within

variable {r : Regex} {repl : Str → Str} {prev : Option Char} {g : Str → List Str}

theorem Within.sub_phrase (h : r.Within) (hempty : ∀ prev, r.hit repl prev [] = none)
    {ts : List Str} (hne : ∀ w ∈ ts, g w ≠ [])
    (hg : ∀ w ∈ ts, ∀ prev, prev.any isWord = false →
      r.subFrom repl prev 0 w = phrase (g w)) :
    r.sub repl (phrase ts) = phrase (ts.flatMap g) := by
  have hgen : ∀ prev, prev.any isWord = false →
      r.subFrom repl prev 0 (phrase ts) = phrase (ts.flatMap g) := by
    induction ts with
    | nil => exact fun prev _ ↦ rfl
    | cons v ts ih =>
      intro prev hprev
      have hv := hg v List.mem_cons_self prev hprev
      have hvne := hne v List.mem_cons_self
      have hrest := ih (fun w hw ↦ hne w (List.mem_cons_of_mem v hw))
        (fun w hw ↦ hg w (List.mem_cons_of_mem v hw)) (some ' ') rfl
      cases ts with
      | nil => simpa [phrase] using hv
      | cons w ts =>
        have htail : (w :: ts).flatMap g ≠ [] := by
          have hwne := hne w (by simp)
          simp [hwne]
        have hsplit : (v :: w :: ts).flatMap g = g v ++ (w :: ts).flatMap g := List.flatMap_cons
        rw [phrase_cons_cons, h.subFrom_append hempty (Nat.zero_le _), hv, hrest, hsplit,
          phrase_append_blank hvne htail]
  exact hgen none rfl

end Within

section OneToken

variable {repl : Str → Str} {prev : Option Char} {w x : Str}

theorem subFrom_of_sign {r : Regex} (h : ∀ prev t, Clean t → ¬ w <+: t → r.hit repl prev t = none)
    (hw : Wordy w) (hne : w ≠ []) (hx : Sign x) : r.subFrom repl prev 0 x = x := by
  obtain ⟨c, w, rfl⟩ := List.exists_cons_of_ne_nil hne
  rw [← List.append_nil x, subFrom_append_of_none]
  · rfl
  · intro u v hv _
    rw [List.append_nil]
    have hmem {d : Char} (hd : d ∈ v) : d ∈ x := hv ▸ List.mem_append_right u hd
    apply h _ v fun d hd ↦ hx.clean d (hmem hd)
    intro hpre
    have hsign := (hx c (hmem (hpre.subset List.mem_cons_self))).1
    rw [hw c List.mem_cons_self] at hsign
    exact absurd hsign Bool.false_ne_true.symm

theorem suffix_sign_false (hw : Wordy w) (hne : w ≠ []) (hx : Sign x) : ¬ w <:+ x := by
  intro hsuffix
  obtain ⟨c, w, rfl⟩ := List.exists_cons_of_ne_nil hne
  have hsign := (hx c (hsuffix.subset List.mem_cons_self)).1
  rw [hw c List.mem_cons_self] at hsign
  exact absurd hsign Bool.false_ne_true.symm

theorem Token.subFrom_ending (hx : Token x) (hw : Wordy w) (hne : w ≠ []) :
    (ending w).subFrom repl prev 0 x =
      if w <:+ x then x.take (x.length - w.length) ++ repl [] else x := by
  obtain ⟨-, hx | hx⟩ := hx
  · exact Regex.subFrom_ending hx hne
  · rw [if_neg (suffix_sign_false hw hne hx)]
    apply subFrom_of_sign _ hw hne hx
    intro prev t hclean hno
    rw [hit_ending hclean, if_neg fun h ↦ hno h.1]

theorem Token.subFrom_bounded (hx : Token x) (hw : Wordy w) (hne : w ≠ [])
    (hprev : prev.any isWord = false) :
    (bounded w).subFrom repl prev 0 x = if x = w then repl [] else x := by
  obtain ⟨-, hx | hx⟩ := hx
  · exact Regex.subFrom_bounded hx hne hprev
  · have hxw : x ≠ w := by
      intro heq
      exact suffix_sign_false hw hne hx (heq ▸ List.suffix_refl x)
    rw [if_neg hxw]
    apply subFrom_of_sign _ hw hne hx
    intro prev t hclean hno
    have hending : (ending w).hit repl prev t = none := by
      rw [hit_ending hclean, if_neg fun h ↦ hno h.1]
    rw [hit_bounded, hending, ite_self]

theorem within_spaced (h : ' ' ∉ w) : (spaced w).Within := by
  induction w with
  | nil => exact trivial
  | cons c w ih =>
    obtain ⟨hc, hw⟩ := not_or.mp (List.mem_cons.not.mp h)
    constructor
    · have hne : ¬ c = ' ' := fun heq ↦ hc heq.symm
      change (if c = ' ' then isSpace ' ' else decide (' ' = c)) = false
      rw [if_neg hne, decide_eq_false hc]
    · exact ih hw

theorem within_ending (h : ' ' ∉ w) : (ending w).Within := ⟨within_spaced h, trivial⟩

theorem within_bounded (h : ' ' ∉ w) : (bounded w).Within := ⟨trivial, within_ending h⟩

theorem hit_ending_nil (hne : w ≠ []) (prev : Option Char) :
    (ending w).hit repl prev [] = none := by
  rw [hit_ending fun c hc ↦ absurd hc List.not_mem_nil, if_neg]
  intro h
  exact hne (List.prefix_nil.mp h.1)

theorem hit_bounded_nil (hne : w ≠ []) (prev : Option Char) :
    (bounded w).hit repl prev [] = none := by
  rw [hit_bounded, hit_ending_nil hne, ite_self]

theorem sub_bounded_phrase {news ts : List Str} (hw : Wordy w) (hne : w ≠ [])
    (hnews : news ≠ []) (hrepl : repl [] = phrase news) (hts : ∀ x ∈ ts, Token x) :
    (bounded w).sub repl (phrase ts) =
      phrase (ts.flatMap fun x ↦ if x = w then news else [x]) := by
  have hblank : ' ' ∉ w := fun h ↦ absurd (hw ' ' h) (by decide)
  apply (within_bounded hblank).sub_phrase (hit_bounded_nil hne)
  · intro x _
    split
    · exact hnews
    · exact List.cons_ne_nil x []
  · intro x hx prev hprev
    rw [(hts x hx).subFrom_bounded hw hne hprev, hrepl]
    split <;> simp [phrase]

theorem sub_ending_phrase {ts : List Str} (hw : Wordy w) (hne : w ≠ [])
    (hts : ∀ x ∈ ts, Token x) :
    (ending w).sub repl (phrase ts) = phrase (ts.flatMap fun x ↦
      if w <:+ x then [x.take (x.length - w.length) ++ repl []] else [x]) := by
  have hblank : ' ' ∉ w := fun h ↦ absurd (hw ' ' h) (by decide)
  apply (within_ending hblank).sub_phrase (hit_ending_nil hne)
  · intro x _
    split <;> exact List.cons_ne_nil _ _
  · intro x hx prev _
    rw [(hts x hx).subFrom_ending hw hne]
    split <;> simp [phrase]

end OneToken

section Pairs

variable {a b : Str} {news : List Str} {repl : Str → Str} {prev : Option Char} {ts : List Str}

/-- Where `b` follows `a`, both make way for new words. -/
def joinPairs (a b : Str) (news : List Str) : List Str → List Str
  | v :: w :: ts =>
    if v = a ∧ w = b then news ++ joinPairs a b news ts else v :: joinPairs a b news (w :: ts)
  | ts => ts

/-- The word `a` between two others is left out. -/
def dropBetween (a : Str) : List Str → List Str
  | v :: w :: ts => if v = a then w :: dropBetween a ts else v :: dropBetween a (w :: ts)
  | ts => ts

/-- The first `a` that stands before another word makes way for new words. -/
def replaceFirst (a : Str) (news : List Str) : List Str → List Str
  | v :: w :: ts => if v = a then news ++ w :: ts else v :: replaceFirst a news (w :: ts)
  | ts => ts

theorem split_at_blank {x y x' y' : Str} (hx : ' ' ∉ x) (hx' : ' ' ∉ x')
    (h : x ++ ' ' :: y <+: x' ++ ' ' :: y') : x = x' ∧ y <+: y' := by
  induction x generalizing x' with
  | nil =>
    cases x' with
    | nil => exact ⟨rfl, (List.cons_prefix_cons.mp h).2⟩
    | cons c x' =>
      have hc := (List.cons_prefix_cons.mp h).1
      exact absurd (hc ▸ List.mem_cons_self) hx'
  | cons d x ih =>
    cases x' with
    | nil =>
      have hd := (List.cons_prefix_cons.mp h).1
      exact absurd (hd ▸ List.mem_cons_self) hx
    | cons c x' =>
      obtain ⟨rfl, hrest⟩ := List.cons_prefix_cons.mp h
      have htail := ih (fun hd ↦ hx (List.mem_cons_of_mem d hd))
        (fun hc ↦ hx' (List.mem_cons_of_mem d hc)) hrest
      exact ⟨congrArg (d :: ·) htail.1, htail.2⟩

section Lists

variable {v w : Str} {us : List Str}

theorem joinPairs_cons_of_ne (b : Str) (news : List Str) (h : v ≠ a) (ts : List Str) :
    joinPairs a b news (v :: ts) = v :: joinPairs a b news ts := by
  cases ts with
  | nil => simp [joinPairs]
  | cons w ts => rw [joinPairs, if_neg fun hvw ↦ h hvw.1]

theorem joinPairs_pair (a b : Str) (news ts : List Str) :
    joinPairs a b news (a :: b :: ts) = news ++ joinPairs a b news ts := by
  rw [joinPairs, if_pos ⟨rfl, rfl⟩]

theorem joinPairs_of_ne (a : Str) (news : List Str) (h : w ≠ b) (ts : List Str) :
    joinPairs a b news (a :: w :: ts) = a :: joinPairs a b news (w :: ts) := by
  rw [joinPairs, if_neg fun hvw ↦ h hvw.2]

theorem joinPairs_append (b : Str) (news : List Str) (h : a ∉ us) (ts : List Str) :
    joinPairs a b news (us ++ ts) = us ++ joinPairs a b news ts := by
  induction us with
  | nil => rfl
  | cons u us ih =>
    obtain ⟨hu, hus⟩ := not_or.mp (List.mem_cons.not.mp h)
    rw [List.cons_append, joinPairs_cons_of_ne b news (Ne.symm hu), ih hus, List.cons_append]

theorem dropBetween_cons_of_ne (h : v ≠ a) (ts : List Str) :
    dropBetween a (v :: ts) = v :: dropBetween a ts := by
  cases ts with
  | nil => simp [dropBetween]
  | cons w ts => rw [dropBetween, if_neg h]

theorem dropBetween_append (h : a ∉ us) (ts : List Str) :
    dropBetween a (us ++ ts) = us ++ dropBetween a ts := by
  induction us with
  | nil => rfl
  | cons u us ih =>
    obtain ⟨hu, hus⟩ := not_or.mp (List.mem_cons.not.mp h)
    rw [List.cons_append, dropBetween_cons_of_ne (Ne.symm hu), ih hus, List.cons_append]

theorem dropBetween_first (h : a ∉ us) (hne : us ≠ []) (ts : List Str) :
    dropBetween a (a :: (us ++ ts)) = us ++ dropBetween a ts := by
  obtain ⟨u, us, rfl⟩ := List.exists_cons_of_ne_nil hne
  obtain ⟨-, hus⟩ := not_or.mp (List.mem_cons.not.mp h)
  rw [List.cons_append, dropBetween, if_pos rfl, dropBetween_append hus, List.cons_append]

theorem replaceFirst_append (news : List Str) (h : a ∉ us) (ts : List Str) :
    replaceFirst a news (us ++ ts) = us ++ replaceFirst a news ts := by
  induction us with
  | nil => rfl
  | cons u us ih =>
    obtain ⟨hu, hus⟩ := not_or.mp (List.mem_cons.not.mp h)
    rw [List.cons_append, List.cons_append, ← ih hus]
    cases us ++ ts with
    | nil => simp [replaceFirst]
    | cons w ts => rw [replaceFirst, if_neg (Ne.symm hu)]

theorem replaceFirst_first (a : Str) (news : List Str) (hne : us ≠ []) :
    replaceFirst a news (a :: us) = news ++ us := by
  obtain ⟨u, us, rfl⟩ := List.exists_cons_of_ne_nil hne
  rw [replaceFirst, if_pos rfl]

end Lists

theorem joinPairs_ne_nil (a b : Str) (hnews : news ≠ []) (v : Str) (ts : List Str) :
    joinPairs a b news (v :: ts) ≠ [] := by
  cases ts with
  | nil => simp [joinPairs]
  | cons w ts =>
    rw [joinPairs]
    split <;> simp [hnews]

theorem head_spread (ts : List Str) : (spread ts).head?.any isWord = false := by
  cases ts <;> rfl

theorem pair_hit_eq_none (hablank : ' ' ∉ a) (hb : Wordy b) (hbne : b ≠ []) {v w : Str}
    (hv : Token v) (hends : a <:+ v → v = a) (hw : Token w) (hts : ∀ u ∈ ts, Token u)
    (hvw : ¬ (v = a ∧ w = b)) {u x : Str} (hx : v = u ++ x) :
    (ending (a ++ ' ' :: b)).hit repl prev (x ++ ' ' :: phrase (w :: ts)) = none := by
  have hxblank : ' ' ∉ x := fun h ↦ hv.blank_notMem (hx ▸ List.mem_append_right u h)
  have hclean : Clean (x ++ ' ' :: phrase (w :: ts)) := by
    have hvclean := hv.clean
    rw [hx] at hvclean
    exact hvclean.right.append (clean_blank_phrase (List.forall_mem_cons.mpr ⟨hw, hts⟩))
  rw [hit_ending hclean, if_neg]
  rintro ⟨hpre, hend⟩
  obtain ⟨rfl, hrest⟩ := split_at_blank hablank hxblank hpre
  have hva := hends ⟨u, hx.symm⟩
  apply hvw
  refine ⟨hva, ?_⟩
  obtain ⟨z, hz⟩ := hrest
  rw [← hz, ← List.cons_append, ← List.append_assoc, List.drop_left, after_append, after_cons,
    atBoundary, hb.after hbne] at hend
  have hbw : b <+: w := by
    have hwhole : b <+: w ++ spread ts := ⟨z, hz⟩
    obtain hle | hle := List.prefix_or_prefix_of_prefix hwhole (List.prefix_append w _)
    · exact hle
    · obtain ⟨y, rfl⟩ := hle
      cases y with
      | nil => simp
      | cons c y =>
        rw [phrase, List.append_assoc, List.append_cancel_left_eq] at hz
        cases ts with
        | nil => simp at hz
        | cons w' ts =>
          rw [spread_cons, List.cons_append] at hz
          obtain ⟨rfl, -⟩ := List.cons.inj hz
          exact absurd (hb ' ' (by simp)) (by decide)
  obtain ⟨y, rfl⟩ := hbw
  cases y with
  | nil => rw [List.append_nil]
  | cons c y =>
    have hword : isWord c = true := by
      obtain ⟨-, hw | hw⟩ := hw
      · exact hw c (by simp)
      · obtain ⟨d, b', rfl⟩ := List.exists_cons_of_ne_nil hbne
        have hd := hb d List.mem_cons_self
        rw [(hw d (by simp)).1] at hd
        exact absurd hd Bool.false_ne_true
    rw [phrase, List.append_assoc, List.append_cancel_left_eq, List.cons_append] at hz
    rw [hz, List.head?_cons, Option.any_some, hword] at hend
    exact absurd hend Bool.false_ne_true

theorem subFrom_pair (ha : Sign a) (hane : a ≠ []) (hb : Wordy b) (hbne : b ≠ [])
    (hnews : news ≠ []) (hrepl : repl [] = phrase news) (htokens : ∀ w ∈ ts, Token w)
    (hends : ∀ w ∈ ts, a <:+ w → w = a) (prev : Option Char) :
    (ending (a ++ ' ' :: b)).subFrom repl prev 0 (phrase ts) =
      phrase (joinPairs a b news ts) := by
  have hablank : ' ' ∉ a := fun h ↦ absurd (ha ' ' h).2 (by decide)
  have hblank (prev : Option Char) {t : Str} (ht : Clean (' ' :: t)) :
      (ending (a ++ ' ' :: b)).subFrom repl prev 0 (' ' :: t) =
        ' ' :: (ending (a ++ ' ' :: b)).subFrom repl (some ' ') 0 t := by
    apply subFrom_of_none
    rw [hit_ending ht, if_neg]
    intro h
    obtain ⟨c, a', rfl⟩ := List.exists_cons_of_ne_nil hane
    have hc := (List.cons_prefix_cons.mp h.1).1
    exact hablank (hc ▸ List.mem_cons_self)
  induction ts using joinPairs.induct a b generalizing prev with
  | case1 v w ts hvw ih =>
    obtain ⟨rfl, rfl⟩ := hvw
    have htail : ∀ u ∈ ts, Token u := fun u hu ↦ htokens u (by simp [hu])
    have hsplit : phrase (v :: w :: ts) = (v ++ ' ' :: w) ++ spread ts := by
      simp [phrase]
    have hclean := clean_phrase htokens
    have hhit : (ending (v ++ ' ' :: w)).hit repl prev ((v ++ ' ' :: w) ++ spread ts) =
        some (repl [], spread ts) := by
      have hend : atBoundary (after prev (v ++ ' ' :: w)) (spread ts) = true := by
        rw [atBoundary, head_spread, after_append, after_cons, hb.after hbne]
        rfl
      rw [hsplit] at hclean
      rw [hit_ending hclean, List.drop_left, if_pos ⟨List.prefix_append _ _, hend⟩]
    rw [hsplit, subFrom_of_some (by simp) hhit, joinPairs, if_pos ⟨rfl, rfl⟩, hrepl]
    cases ts with
    | nil => simp [subFrom, joinPairs]
    | cons u ts =>
      have hpos := joinPairs_ne_nil v w hnews u ts
      have hrest := ih htail (fun u' hu' ↦ hends u' (by simp [hu'])) (some ' ')
      rw [spread_eq_blank_phrase (List.cons_ne_nil u ts), hblank _ (clean_blank_phrase htail),
        phrase_append_blank hnews hpos, ← hrest]
  | case2 v w ts hvw ih =>
    have htail : ∀ u ∈ w :: ts, Token u := fun u hu ↦ htokens u (List.mem_cons_of_mem v hu)
    obtain ⟨hw, hts⟩ := List.forall_mem_cons.mp htail
    rw [phrase_cons_cons, joinPairs, if_neg hvw, subFrom_append_of_none,
      hblank _ (clean_blank_phrase htail)]
    · have hrest := ih htail (fun u hu ↦ hends u (List.mem_cons_of_mem v hu)) (some ' ')
      have hpos := joinPairs_ne_nil a b hnews w ts
      rw [hrest, phrase, spread_eq_blank_phrase hpos]
    · intro u x hx _
      exact pair_hit_eq_none hablank hb hbne (htokens v List.mem_cons_self)
        (hends v List.mem_cons_self) hw hts hvw hx
  | case3 ts hts =>
    cases ts with
    | nil => rfl
    | cons v ts =>
      cases ts with
      | cons w ts => exact absurd rfl (hts v w ts)
      | nil =>
        have hv := htokens v List.mem_cons_self
        rw [joinPairs, phrase, spread_nil, subFrom_append_of_none, subFrom]
        · intro u x hx _
          have hclean := hv.clean
          rw [hx] at hclean
          rw [List.append_nil, hit_ending hclean.right, if_neg]
          intro h
          apply hv.blank_notMem
          rw [hx]
          exact List.mem_append_right u (h.1.subset (by simp))
        · exact hts

theorem blank_hit_eq_none {z : Str} {u x : Str} (hw : ' ' ∉ u ++ x) (hne : x ≠ []) {t : Str}
    (hclean : Clean (x ++ t)) : (spaced (' ' :: z)).hit repl prev (x ++ t) = none := by
  obtain ⟨c, x, rfl⟩ := List.exists_cons_of_ne_nil hne
  rw [hit_spaced hclean, if_neg]
  intro hpre
  have hc := (List.cons_prefix_cons.mp hpre).1
  exact hw (hc ▸ by simp)

theorem hit_between (ha : Token a) {v w : Str} (hv : Token v) (hw : Token w)
    (hts : ∀ u ∈ ts, Token u) :
    (spaced (' ' :: (a ++ [' ']))).hit repl prev (spread (v :: w :: ts)) =
      if v = a then some (repl [], phrase (w :: ts)) else none := by
  have htokens : ∀ u ∈ v :: w :: ts, Token u :=
    List.forall_mem_cons.mpr ⟨hv, List.forall_mem_cons.mpr ⟨hw, hts⟩⟩
  have hsplit : spread (v :: w :: ts) = (' ' :: (v ++ [' '])) ++ phrase (w :: ts) := by
    simp [phrase]
  rw [hit_spaced (clean_spread htokens), hsplit]
  by_cases hva : v = a
  · rw [if_pos hva, hva, if_pos (List.prefix_append _ _), List.drop_left]
  · rw [if_neg hva, if_neg]
    intro hpre
    have hrest : a ++ [' '] <+: v ++ [' '] ++ phrase (w :: ts) :=
      (List.cons_prefix_cons.mp hpre).2
    rw [List.append_assoc] at hrest
    exact hva (split_at_blank ha.blank_notMem hv.blank_notMem hrest).1.symm

theorem hit_between_last {v : Str} (hv : Token v) :
    (spaced (' ' :: (a ++ [' ']))).hit repl prev (spread [v]) = none := by
  rw [hit_spaced (clean_spread (by simpa using hv)), if_neg]
  intro hpre
  rw [spread_cons, spread_nil, List.append_nil] at hpre
  have hrest := (List.cons_prefix_cons.mp hpre).2
  exact hv.blank_notMem (hrest.subset (by simp))

theorem subFrom_between (ha : Token a) (hrepl : repl [] = [' ']) {w : Str} (hw : Token w)
    (hts : ∀ v ∈ ts, Token v) (prev : Option Char) :
    (spaced (' ' :: (a ++ [' ']))).subFrom repl prev 0 (w ++ spread ts) =
      w ++ spread (dropBetween a ts) := by
  have hword {w : Str} {ts : List Str} (hw : Token w) (hts : ∀ v ∈ ts, Token v)
      (prev : Option Char) :
      (spaced (' ' :: (a ++ [' ']))).subFrom repl prev 0 (w ++ spread ts) =
        w ++ (spaced (' ' :: (a ++ [' ']))).subFrom repl (after prev w) 0 (spread ts) := by
    apply subFrom_append_of_none
    intro u x hx hne
    have hclean := hw.clean
    rw [hx] at hclean
    exact blank_hit_eq_none (hx ▸ hw.blank_notMem) hne (hclean.right.append (clean_spread hts))
  rw [hword hw hts]
  apply congrArg (w ++ ·)
  generalize after prev w = prev
  clear hw
  induction ts using dropBetween.induct a generalizing prev with
  | case1 w ts ih =>
    have hw := hts w (by simp)
    have htail : ∀ u ∈ ts, Token u := fun u hu ↦ hts u (by simp [hu])
    have hhit : (spaced (' ' :: (a ++ [' ']))).hit repl prev (spread (a :: w :: ts)) =
        some (repl [], phrase (w :: ts)) := by
      rw [hit_between ha ha hw htail, if_pos rfl]
    have hsplit : spread (a :: w :: ts) = (' ' :: (a ++ [' '])) ++ phrase (w :: ts) := by
      simp [phrase]
    rw [hsplit] at hhit ⊢
    rw [subFrom_of_some (by simp) hhit, phrase, hword hw htail, ih htail, hrepl, dropBetween,
      if_pos rfl, spread_cons]
    rfl
  | case2 v w ts hva ih =>
    have hv := hts v (by simp)
    have htail : ∀ u ∈ w :: ts, Token u := fun u hu ↦ hts u (List.mem_cons_of_mem v hu)
    obtain ⟨hw, hrest⟩ := List.forall_mem_cons.mp htail
    have hhit : (spaced (' ' :: (a ++ [' ']))).hit repl prev (spread (v :: w :: ts)) = none := by
      rw [hit_between ha hv hw hrest, if_neg hva]
    rw [spread_cons] at hhit ⊢
    rw [subFrom_of_none hhit, hword hv htail, ih htail, dropBetween, if_neg hva, spread_cons]
  | case3 ts hshort =>
    cases ts with
    | nil => rfl
    | cons v ts =>
      cases ts with
      | cons w ts => exact absurd rfl (hshort v w ts)
      | nil =>
        have hv := hts v (by simp)
        have hhit : (spaced (' ' :: (a ++ [' ']))).hit repl prev (spread [v]) = none :=
          hit_between_last hv
        rw [spread_cons] at hhit ⊢
        rw [subFrom_of_none hhit, hword hv (by simp), dropBetween, spread_cons]
        · rfl
        · exact hshort

theorem sub_between_phrase (ha : Token a) (hrepl : repl [] = [' ']) (hts : ∀ v ∈ ts, Token v)
    (hhead : ts.head? ≠ some a) :
    (spaced (' ' :: (a ++ [' ']))).sub repl (phrase ts) = phrase (dropBetween a ts) := by
  cases ts with
  | nil => simp [phrase, dropBetween, sub, subFrom]
  | cons w ts =>
    obtain ⟨hw, hts⟩ := List.forall_mem_cons.mp hts
    have hne : w ≠ a := fun heq ↦ hhead (congrArg some heq)
    rw [dropBetween_cons_of_ne hne]
    exact subFrom_between ha hrepl hw hts none

theorem subOnceFrom_between (ha : Token a)
    (hrepl : repl [] = spread news ++ [' ']) {w : Str} (hw : Token w)
    (hts : ∀ v ∈ ts, Token v) (prev : Option Char) :
    (spaced (' ' :: (a ++ [' ']))).subOnceFrom repl prev (w ++ spread ts) =
      w ++ spread (replaceFirst a news ts) := by
  have hword {w : Str} {ts : List Str} (hw : Token w) (hts : ∀ v ∈ ts, Token v)
      (prev : Option Char) :
      (spaced (' ' :: (a ++ [' ']))).subOnceFrom repl prev (w ++ spread ts) =
        w ++ (spaced (' ' :: (a ++ [' ']))).subOnceFrom repl (after prev w) (spread ts) := by
    apply subOnceFrom_append_of_none
    intro u x hx hne
    have hclean := hw.clean
    rw [hx] at hclean
    exact blank_hit_eq_none (hx ▸ hw.blank_notMem) hne (hclean.right.append (clean_spread hts))
  rw [hword hw hts]
  apply congrArg (w ++ ·)
  generalize after prev w = prev
  clear hw
  induction ts using replaceFirst.induct a generalizing prev with
  | case1 w ts =>
    have hhit : (spaced (' ' :: (a ++ [' ']))).hit repl prev (spread (a :: w :: ts)) =
        some (repl [], phrase (w :: ts)) := by
      rw [hit_between ha ha (hts w (by simp)) fun u hu ↦ hts u (by simp [hu]), if_pos rfl]
    rw [spread_cons] at hhit
    rw [spread_cons, subOnceFrom_of_some hhit, hrepl, replaceFirst, if_pos rfl, spread_append,
      spread_eq_blank_phrase (List.cons_ne_nil w ts), List.append_assoc]
    rfl
  | case2 v w ts hva ih =>
    have hv := hts v (by simp)
    have htail : ∀ u ∈ w :: ts, Token u := fun u hu ↦ hts u (List.mem_cons_of_mem v hu)
    obtain ⟨hw, hrest⟩ := List.forall_mem_cons.mp htail
    have hhit : (spaced (' ' :: (a ++ [' ']))).hit repl prev (spread (v :: w :: ts)) = none := by
      rw [hit_between ha hv hw hrest, if_neg hva]
    rw [spread_cons] at hhit ⊢
    rw [subOnceFrom_of_none hhit, hword hv htail, ih htail, replaceFirst, if_neg hva, spread_cons]
  | case3 ts hshort =>
    cases ts with
    | nil => rfl
    | cons v ts =>
      cases ts with
      | cons w ts => exact absurd rfl (hshort v w ts)
      | nil =>
        have hv := hts v (by simp)
        have hhit : (spaced (' ' :: (a ++ [' ']))).hit repl prev (spread [v]) = none :=
          hit_between_last hv
        rw [spread_cons] at hhit ⊢
        rw [subOnceFrom_of_none hhit, hword hv (by simp), replaceFirst, spread_cons]
        · rfl
        · exact hshort

theorem subOnce_between_phrase (ha : Token a) (hrepl : repl [] = spread news ++ [' '])
    (hts : ∀ v ∈ ts, Token v) (hhead : ts.head? ≠ some a) :
    (spaced (' ' :: (a ++ [' ']))).subOnce repl (phrase ts) = phrase (replaceFirst a news ts) := by
  cases ts with
  | nil => simp [phrase, replaceFirst, subOnce, subOnceFrom]
  | cons w ts =>
    obtain ⟨hw, hts⟩ := List.forall_mem_cons.mp hts
    have hne : a ∉ [w] := fun hmem ↦ hhead (congrArg some (List.mem_singleton.mp hmem).symm)
    have hfirst : replaceFirst a news (w :: ts) = w :: replaceFirst a news ts :=
      replaceFirst_append news hne ts
    rw [hfirst]
    exact subOnceFrom_between ha hrepl hw hts none

end Pairs

end Regex

end Liota.Python
