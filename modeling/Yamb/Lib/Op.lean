import Mathlib.Init

/-!
# Operations on a state that can fail

An operation changes a state and returns or throws; what it did to the state before stays done.

* `Op`: operations, with `throw`, `tryCatch` and the operations of `Except`;
* `bind_of_ok`, `bind_of_error`, `tryCatch_of_ok`, `tryCatch_of_error`: how they compose;
* `Moves`, `Moves.bind`: what an operation does to the state, whether it returns or throws;
* `Avoids`, `Avoids.bind`: an exception that an operation does not throw.
-/

set_option autoImplicit false

/-- Operations on states in `σ` that return an `α` or throw an `ε`. -/
def Op (σ ε α : Type) : Type := σ → Except ε α × σ

namespace Op

variable {σ ε ε' α β : Type}

instance : Monad (Op σ ε) where
  pure a := fun s => (.ok a, s)
  bind x f := fun s =>
    match x s with
    | (.ok a, s') => f a s'
    | (.error e, s') => (.error e, s')

/-- Reads off the state. -/
def gets (f : σ → α) : Op σ ε α := fun s => (.ok (f s), s)

/-- Changes the state. -/
def modify (f : σ → σ) : Op σ ε Unit := fun s => (.ok (), f s)

def throw (e : ε) : Op σ ε α := fun s => (.error e, s)

/-- A handler starts in the state in which the exception was thrown. -/
def tryCatch (x : Op σ ε α) (handle : ε → Op σ ε α) : Op σ ε α := fun s =>
  match x s with
  | (.ok a, s') => (.ok a, s')
  | (.error e, s') => handle e s'

/-- What does not look at the state. -/
def lift (x : Except ε α) : Op σ ε α := fun s => (x, s)

def mapError (f : ε → ε') (x : Op σ ε α) : Op σ ε' α := fun s => ((x s).1.mapError f, (x s).2)

variable {x : Op σ ε α} {f : α → Op σ ε β} {handle : ε → Op σ ε α} {s s' : σ} {a : α} {e : ε}

@[simp] theorem pure_apply : (pure a : Op σ ε α) s = (.ok a, s) := rfl

@[simp] theorem gets_bind_apply {g : σ → α} : (gets g >>= f) s = f (g s) s := rfl

@[simp] theorem modify_bind_apply {g : σ → σ} {k : Unit → Op σ ε β} :
    (modify g >>= k) s = k () (g s) := rfl

theorem bind_of_ok (h : x s = (.ok a, s')) : (x >>= f) s = f a s' := by
  show (match x s with
    | (.ok a, s') => f a s'
    | (.error e, s') => (.error e, s')) = _
  rw [h]

theorem bind_of_error (h : x s = (.error e, s')) : (x >>= f) s = (.error e, s') := by
  show (match x s with
    | (.ok a, s') => f a s'
    | (.error e, s') => (.error e, s')) = _
  rw [h]

theorem bind_bind {γ : Type} (x : Op σ ε α) (f : α → Op σ ε β) (g : β → Op σ ε γ) :
    x >>= f >>= g = x >>= fun a => f a >>= g := by
  funext s
  rcases h : x s with ⟨e | a, s'⟩
  · rw [bind_of_error (bind_of_error h), bind_of_error h]
  · rw [bind_of_ok h]
    rcases h' : f a s' with ⟨e | b, s''⟩
    · rw [bind_of_error ((bind_of_ok h).trans h'), bind_of_error h']
    · rw [bind_of_ok ((bind_of_ok h).trans h'), bind_of_ok h']

theorem tryCatch_of_ok (h : x s = (.ok a, s')) : tryCatch x handle s = (.ok a, s') := by
  rw [tryCatch, h]

theorem tryCatch_of_error (h : x s = (.error e, s')) : tryCatch x handle s = handle e s' := by
  rw [tryCatch, h]

theorem mapError_of_ok {g : ε → ε'} (h : x s = (.ok a, s')) : mapError g x s = (.ok a, s') := by
  rw [mapError, h]
  rfl

theorem mapError_of_error {g : ε → ε'} (h : x s = (.error e, s')) :
    mapError g x s = (.error (g e), s') := by
  rw [mapError, h]
  rfl

/-- The operation takes a state to one that it is related to. -/
def Moves (R : σ → σ → Prop) (x : Op σ ε α) : Prop := ∀ s, R s (x s).2

section Moves

variable {R : σ → σ → Prop}

theorem moves_pure (hrefl : ∀ s, R s s) (a : α) : Moves R (pure a : Op σ ε α) := hrefl

theorem moves_throw (hrefl : ∀ s, R s s) (e : ε) : Moves R (throw e : Op σ ε α) := hrefl

theorem moves_lift (hrefl : ∀ s, R s s) (x : Except ε α) : Moves R (lift x : Op σ ε α) := hrefl

theorem Moves.bind (hx : Moves R x) (htrans : ∀ {a b c}, R a b → R b c → R a c)
    (hf : ∀ a, Moves R (f a)) : Moves R (x >>= f) := by
  intro s
  have hs := hx s
  rcases h : x s with ⟨e | a, s'⟩
  · rw [h] at hs
    rw [bind_of_error h]
    exact hs
  · rw [h] at hs
    rw [bind_of_ok h]
    exact htrans hs (hf a s')

end Moves

/-- The operation does not throw this exception. -/
def Avoids (e : ε) (x : Op σ ε α) : Prop := ∀ s, (x s).1 ≠ .error e

theorem avoids_pure (e : ε) (a : α) : Avoids e (pure a : Op σ ε α) := fun _ h => by cases h

theorem avoids_modify (e : ε) (f : σ → σ) : Avoids e (modify f) := fun _ h => by cases h

theorem avoids_lift {y : Except ε α} (h : y ≠ .error e) : Avoids e (lift y : Op σ ε α) := fun _ => h

theorem Avoids.bind (hx : Avoids e x) (hf : ∀ a, Avoids e (f a)) : Avoids e (x >>= f) := by
  intro s
  rcases h : x s with ⟨e' | a, s'⟩
  · rw [bind_of_error h]
    intro he
    exact hx s (by rw [h, Except.error.inj he])
  · rw [bind_of_ok h]
    exact hf a s'

end Op
