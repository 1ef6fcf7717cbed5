/-!
# Procedures

A procedure threads a state and ends in a value or an error; the state survives both. A third
outcome says that the bound on its recursion was too small to tell, so that a procedure which runs
forever is one that is exhausted at every bound.
-/

namespace Lox

inductive Outcome (σ ε α : Type) where
  | ok (value : α) (state : σ)
  | error (error : ε) (state : σ)
  | exhausted

def Procedure (σ ε α : Type) : Type := σ → Outcome σ ε α

namespace Procedure

variable {σ ε α β : Type}

@[always_inline, inline]
instance : Monad (Procedure σ ε) where
  pure a := fun s => .ok a s
  bind x f := fun s =>
    match x s with
    | .ok a t => f a t
    | .error e t => .error e t
    | .exhausted => .exhausted

/-- Stops without an answer. -/
@[inline] def exhaust : Procedure σ ε α := fun _ => .exhausted

/-- Fails and keeps the state. -/
@[inline] def fail (e : ε) : Procedure σ ε α := fun s => .error e s

@[inline] def read (f : σ → α) : Procedure σ ε α := fun s => .ok (f s) s

@[inline] def update (f : σ → σ) : Procedure σ ε Unit := fun s => .ok () (f s)

/-- Changes the state after `x`, however `x` ended. -/
@[inline] def afterwards (f : σ → σ) (x : Procedure σ ε α) : Procedure σ ε α := fun s =>
  match x s with
  | .ok a t => .ok a (f t)
  | .error e t => .error e (f t)
  | .exhausted => .exhausted

@[simp] theorem pure_apply (a : α) (s : σ) : (pure a : Procedure σ ε α) s = .ok a s := rfl

theorem bind_apply (x : Procedure σ ε α) (f : α → Procedure σ ε β) (s : σ) :
    (x >>= f) s =
      match x s with
      | .ok a t => f a t
      | .error e t => .error e t
      | .exhausted => .exhausted := rfl

theorem bind_apply_of_ok {x : Procedure σ ε α} {f : α → Procedure σ ε β} {s t : σ} {a : α}
    (h : x s = .ok a t) : (x >>= f) s = f a t := by rw [bind_apply, h]

theorem bind_apply_of_error {x : Procedure σ ε α} {f : α → Procedure σ ε β} {s t : σ} {e : ε}
    (h : x s = .error e t) : (x >>= f) s = .error e t := by rw [bind_apply, h]

theorem bind_apply_of_exhausted {x : Procedure σ ε α} {f : α → Procedure σ ε β} {s : σ}
    (h : x s = .exhausted) : (x >>= f) s = .exhausted := by rw [bind_apply, h]

instance : LawfulMonad (Procedure σ ε) := LawfulMonad.mk' _
  (fun x => by
    funext s
    show (match x s with | .ok a t => _ | .error e t => _ | .exhausted => _) = x s
    cases x s <;> rfl)
  (fun _ _ => rfl)
  (fun x f g => by
    funext s
    simp only [bind_apply]
    cases x s <;> rfl)

end Procedure

end Lox
