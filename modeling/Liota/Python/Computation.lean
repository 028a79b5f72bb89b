import Mathlib.Logic.Relation

namespace Liota.Python.Computation

/-- The exception classes that handlers tell apart. `baseException` stands for
everything raised outside `Exception`, such as `SystemExit`, and `unprintable` for an exception
inside it whose text is `unicode` that `str` cannot encode. -/
inductive PyErr
  | ioError | keyError | valueError | typeError | attributeError | runtimeError
  | exception | unprintable | baseException
  deriving DecidableEq, Repr

/-- A handler for `Exception` that formats the exception swallows it. -/
def PyErr.isLogged : PyErr → Bool
  | .unprintable | .baseException => false
  | _ => true

/-- What leaves such a handler: formatting raises `UnicodeEncodeError`. -/
def PyErr.leaving : PyErr → PyErr
  | .unprintable => .valueError
  | e => e

inductive Outcome (α : Type)
  | ok (a : α)
  | raised (e : PyErr)
  | diverged
  deriving DecidableEq, Repr

def Outcome.map {α β : Type} (f : α → β) : Outcome α → Outcome β
  | .ok a => .ok (f a)
  | .raised e => .raised e
  | .diverged => .diverged

theorem Outcome.eq_none_of_map_isSome {α : Type} {o : Outcome (Option α)}
    (h : o.map Option.isSome = .ok false) : o = .ok none := by
  rcases o with (_ | a) | e | _
  · rfl
  · simp [map] at h
  · simp [map] at h
  · simp [map] at h

/-- A computation over a mutable state. An exception keeps every change made
before it was raised. -/
def Py (σ α : Type) := σ → Outcome α × σ

variable {σ τ α β : Type}

instance : Monad (Py σ) where
  pure a := fun s ↦ (.ok a, s)
  bind x f := fun s ↦
    match x s with
    | (.ok a, s') => f a s'
    | (.raised e, s') => (.raised e, s')
    | (.diverged, s') => (.diverged, s')

def Py.get : Py σ σ := fun s ↦ (.ok s, s)

def Py.modify (f : σ → σ) : Py σ Unit := fun s ↦ (.ok (), f s)

def Py.raise (e : PyErr) : Py σ α := fun s ↦ (.raised e, s)

def Py.diverge : Py σ α := fun s ↦ (.diverged, s)

/-- `try: x` with one handler for the exceptions that `catches` selects. -/
def Py.tryExcept (catches : PyErr → Bool) (x : Py σ α) (handler : Py σ α) : Py σ α := fun s ↦
  match x s with
  | (.raised e, s') => if catches e then handler s' else (.raised e, s')
  | r => r

/-- `try: x` with a handler for `Exception` that logs the exception and its text. -/
def Py.tryLogged (x : Py σ α) (handler : Py σ α) : Py σ α := fun s ↦
  match x s with
  | (.raised e, s') => if e.isLogged then handler s' else (.raised e.leaving, s')
  | r => r

def Py.zoom (view : σ → τ) (put : τ → σ → σ) (x : Py τ α) : Py σ α := fun s ↦
  ((x (view s)).1, put (x (view s)).2 s)

@[simp] theorem pure_apply (a : α) (s : σ) : (pure a : Py σ α) s = (.ok a, s) := rfl

@[simp] theorem get_apply (s : σ) : (Py.get : Py σ σ) s = (.ok s, s) := rfl

@[simp] theorem modify_apply (f : σ → σ) (s : σ) : Py.modify f s = (.ok (), f s) := rfl

@[simp] theorem raise_apply (e : PyErr) (s : σ) : (Py.raise e : Py σ α) s = (.raised e, s) := rfl

theorem bind_apply (x : Py σ α) (f : α → Py σ β) (s : σ) :
    (x >>= f) s = match x s with
      | (.ok a, s') => f a s'
      | (.raised e, s') => (.raised e, s')
      | (.diverged, s') => (.diverged, s') := rfl

theorem bind_ok {x : Py σ α} {f : α → Py σ β} {s s' : σ} {a : α} (h : x s = (.ok a, s')) :
    (x >>= f) s = f a s' := by rw [bind_apply, h]

theorem bind_raised {x : Py σ α} {f : α → Py σ β} {s s' : σ} {e : PyErr}
    (h : x s = (.raised e, s')) : (x >>= f) s = (.raised e, s') := by rw [bind_apply, h]

theorem bind_diverged {x : Py σ α} {f : α → Py σ β} {s s' : σ} (h : x s = (.diverged, s')) :
    (x >>= f) s = (.diverged, s') := by rw [bind_apply, h]

theorem bind_of_fst {x : Py σ α} {f : α → Py σ β} {s : σ} {a : α} (h : (x s).1 = .ok a) :
    (x >>= f) s = f a (x s).2 :=
  bind_ok (Prod.ext h rfl)

@[simp] theorem pure_bind_apply (a : α) (f : α → Py σ β) (s : σ) :
    ((pure a : Py σ α) >>= f) s = f a s := rfl

@[simp] theorem get_bind_apply (f : σ → Py σ β) (s : σ) : (Py.get >>= f) s = f s s := rfl

@[simp] theorem modify_bind_apply (g : σ → σ) (f : Unit → Py σ β) (s : σ) :
    (Py.modify g >>= f) s = f () (g s) := rfl

@[simp] theorem raise_bind_apply (e : PyErr) (f : α → Py σ β) (s : σ) :
    ((Py.raise e : Py σ α) >>= f) s = (.raised e, s) := rfl

theorem map_apply (f : α → β) (x : Py σ α) (s : σ) :
    (f <$> x) s = match x s with
      | (.ok a, s') => (.ok (f a), s')
      | (.raised e, s') => (.raised e, s')
      | (.diverged, s') => (.diverged, s') := rfl

theorem bind_pure_snd (x : Py σ α) (g : α → β) (s : σ) :
    ((x >>= fun a ↦ pure (g a)) s).2 = (x s).2 := by
  rw [bind_apply]
  rcases x s with ⟨a | e | _, t⟩ <;> rfl

theorem bind_eq_ok {x : Py σ α} {f : α → Py σ β} {s s' : σ} {b : β}
    (h : (x >>= f) s = (.ok b, s')) : ∃ a t, x s = (.ok a, t) ∧ f a t = (.ok b, s') := by
  rw [bind_apply] at h
  rcases hx : x s with ⟨a | e | _, t⟩
  · exact ⟨a, t, rfl, by simpa only [hx] using h⟩
  · simp [hx] at h
  · simp [hx] at h

/-- Every change that `x` makes to the state lies within `R`, however `x` ends. -/
def Within (R : σ → σ → Prop) (x : Py σ α) : Prop := ∀ s, R s (x s).2

theorem Within.mono {R S : σ → σ → Prop} (h : ∀ s t, R s t → S s t) {x : Py σ α}
    (hx : Within R x) : Within S x := fun s ↦ h _ _ (hx s)

theorem within_ite {R : σ → σ → Prop} {x y : Py σ α} {c : Prop} [Decidable c]
    (hx : Within R x) (hy : Within R y) : Within R (if c then x else y) := by
  split
  · exact hx
  · exact hy

theorem within_map {R : σ → σ → Prop} {f : α → β} {x : Py σ α} (hx : Within R x) :
    Within R (f <$> x) := by
  intro s
  have h := hx s
  rw [map_apply]
  rcases hr : x s with ⟨a | e | _, t⟩ <;> rw [hr] at h <;> exact h

section Preorder

variable {R : σ → σ → Prop} (hrefl : ∀ s, R s s) (htrans : ∀ s t u, R s t → R t u → R s u)
include hrefl

theorem within_pure (a : α) : Within R (pure a : Py σ α) := fun s ↦ hrefl s

theorem within_get : Within R (Py.get : Py σ σ) := fun s ↦ hrefl s

theorem within_raise (e : PyErr) : Within R (Py.raise e : Py σ α) := fun s ↦ hrefl s

theorem within_diverge : Within R (Py.diverge : Py σ α) := fun s ↦ hrefl s

omit hrefl
include htrans

theorem within_bind {x : Py σ α} {f : α → Py σ β} (hx : Within R x)
    (hf : ∀ a, Within R (f a)) : Within R (x >>= f) := by
  intro s
  rw [bind_apply]
  have h := hx s
  rcases hr : x s with ⟨a | e | _, t⟩ <;> rw [hr] at h
  · exact htrans s t _ h (hf a t)
  · exact h
  · exact h

theorem within_tryExcept {catches : PyErr → Bool} {x handler : Py σ α} (hx : Within R x)
    (hh : Within R handler) : Within R (Py.tryExcept catches x handler) := by
  intro s
  have h := hx s
  unfold Py.tryExcept
  rcases hr : x s with ⟨a | e | _, t⟩ <;> rw [hr] at h
  · exact h
  · dsimp only
    split
    · exact htrans s t _ h (hh t)
    · exact h
  · exact h

end Preorder

/-- `x` returns or raises, whatever the state is. -/
def Terminates (x : Py σ α) : Prop := ∀ s, (x s).1 ≠ .diverged

theorem tryExcept_of_ok {catches : PyErr → Bool} {x handler : Py σ α} {s t : σ} {a : α}
    (h : x s = (.ok a, t)) : Py.tryExcept catches x handler s = (.ok a, t) := by
  simp only [Py.tryExcept, h]

end Liota.Python.Computation
