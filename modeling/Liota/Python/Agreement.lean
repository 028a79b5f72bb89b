import Liota.Python.Computation

namespace Liota.Python.Computation

variable {σ α β : Type} {I : σ → Prop} {Q : α → Prop} {Q' : β → Prop} {s : σ}

/-- From `s` on, `x` and `y` do the same and keep the invariant `I`, and if they return, then `Q`
holds of the result. -/
structure AgreeAt (I : σ → Prop) (Q : α → Prop) (x y : Py σ α) (s : σ) : Prop where
  eq : x s = y s
  inv : I (x s).2
  post : ∀ a, (x s).1 = .ok a → Q a

theorem agreeAt_pure {a : α} (hs : I s) (ha : Q a) :
    AgreeAt I Q (pure a : Py σ α) (pure a) s where
  eq := rfl
  inv := hs
  post b hb := by
    cases hb
    exact ha

theorem agreeAt_raise (e : PyErr) (hs : I s) :
    AgreeAt I Q (Py.raise e : Py σ α) (Py.raise e) s where
  eq := rfl
  inv := hs
  post b hb := by cases hb

theorem agreeAt_ite {c : Prop} [Decidable c] {x x' y y' : Py σ α}
    (hx : c → AgreeAt I Q x y s) (hx' : ¬ c → AgreeAt I Q x' y' s) :
    AgreeAt I Q (if c then x else x') (if c then y else y') s := by
  split
  · next h => exact hx h
  · next h => exact hx' h

theorem agreeAt_bind_of_eq {x y : Py σ α} {f g : α → Py σ β} (heq : x s = y s) (hinv : I (x s).2)
    (hf : ∀ a t, x s = (.ok a, t) → AgreeAt I Q' (f a) (g a) t) :
    AgreeAt I Q' (x >>= f) (y >>= g) s := by
  rcases hr : x s with ⟨a | e | _, t⟩
  · obtain ⟨heq', hinv', hpost'⟩ := hf a t hr
    rw [hr] at heq
    constructor
    · rw [bind_ok hr, bind_ok heq.symm]
      exact heq'
    · rw [bind_ok hr]
      exact hinv'
    · rw [bind_ok hr]
      exact hpost'
  · rw [hr] at heq hinv
    constructor
    · rw [bind_raised hr, bind_raised heq.symm]
    · rw [bind_raised hr]
      exact hinv
    · rw [bind_raised hr]
      intro b hb
      cases hb
  · rw [hr] at heq hinv
    constructor
    · rw [bind_diverged hr, bind_diverged heq.symm]
    · rw [bind_diverged hr]
      exact hinv
    · rw [bind_diverged hr]
      intro b hb
      cases hb

theorem agreeAt_bind {x y : Py σ α} {f g : α → Py σ β} (hx : AgreeAt I Q x y s)
    (hf : ∀ a t, Q a → I t → AgreeAt I Q' (f a) (g a) t) :
    AgreeAt I Q' (x >>= f) (y >>= g) s := by
  refine agreeAt_bind_of_eq hx.eq hx.inv ?_
  intro a t hr
  have hinv := hx.inv
  have hpost := hx.post
  rw [hr] at hinv hpost
  exact hf a t (hpost a rfl) hinv

theorem agreeAt_get_bind {f g : σ → Py σ β} (h : AgreeAt I Q' (f s) (g s) s) :
    AgreeAt I Q' (Py.get >>= f) (Py.get >>= g) s := ⟨h.eq, h.inv, h.post⟩

theorem agreeAt_tryExcept {catches : PyErr → Bool} {x y handler handler' : Py σ α}
    (hx : AgreeAt I Q x y s) (hh : ∀ t, I t → AgreeAt I Q handler handler' t) :
    AgreeAt I Q (Py.tryExcept catches x handler) (Py.tryExcept catches y handler') s := by
  obtain ⟨heq, hinv, hpost⟩ := hx
  rcases hr : x s with ⟨a | e | _, t⟩
  · rw [hr] at heq hinv hpost
    constructor
    · simp only [Py.tryExcept, hr, ← heq]
    · simpa only [Py.tryExcept, hr] using hinv
    · simpa only [Py.tryExcept, hr] using hpost
  · rw [hr] at heq hinv
    obtain ⟨heq', hinv', hpost'⟩ := hh t hinv
    have hboth (w w' : Py σ α) (hw : w s = (.raised e, t)) :
        Py.tryExcept catches w w' s = if catches e then w' t else (.raised e, t) := by
      rw [Py.tryExcept, hw]
    constructor
    · rw [hboth x handler hr, hboth y handler' heq.symm, heq']
    · rw [hboth x handler hr]
      split
      · exact hinv'
      · exact hinv
    · rw [hboth x handler hr]
      split
      · exact hpost'
      · intro b hb
        cases hb
  · rw [hr] at heq hinv
    constructor
    · simp only [Py.tryExcept, hr, ← heq]
    · simpa only [Py.tryExcept, hr] using hinv
    · simp only [Py.tryExcept, hr]
      intro b hb
      cases hb

theorem agreeAt_self {x : Py σ α} (h : I (x s).2) : AgreeAt I (fun _ ↦ True) x x s :=
  ⟨rfl, h, fun _ _ ↦ trivial⟩

end Liota.Python.Computation
