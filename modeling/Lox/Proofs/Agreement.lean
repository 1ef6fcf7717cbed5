import Lox.Procedure

/-!
# Procedures that agree

Two procedures on different states agree if they end in the same way. `Agree.bind` puts two parts of
each in a row, so that two interpreters of one syntax are compared step by step.
-/

namespace Lox.Procedure

variable {σ τ ε φ α β γ δ : Type}

/-- Both runs end with results that `P` relates, or both with errors that `E` relates, or none of
them ends within its bound. -/
def Agree (E : ε → φ → σ → τ → Prop) (x : Procedure σ ε α) (y : Procedure τ φ β) (s : σ) (t : τ)
    (P : α → β → σ → τ → Prop) : Prop :=
  match x s, y t with
  | .ok a s', .ok b t' => P a b s' t'
  | .error e s', .error f t' => E e f s' t'
  | .exhausted, .exhausted => True
  | _, _ => False

namespace Agree

variable {E : ε → φ → σ → τ → Prop} {x : Procedure σ ε α} {y : Procedure τ φ β} {s : σ} {t : τ}
  {P : α → β → σ → τ → Prop}

theorem of_ok {a : α} {b : β} {s' : σ} {t' : τ} (hx : x s = .ok a s') (hy : y t = .ok b t')
    (h : P a b s' t') : Agree E x y s t P := by
  rw [Agree, hx, hy]
  exact h

theorem of_error {e : ε} {f : φ} {s' : σ} {t' : τ} (hx : x s = .error e s')
    (hy : y t = .error f t') (h : E e f s' t') : Agree E x y s t P := by
  rw [Agree, hx, hy]
  exact h

theorem of_exhausted (hx : x s = .exhausted) (hy : y t = .exhausted) : Agree E x y s t P := by
  rw [Agree, hx, hy]
  trivial

theorem congr {x' : Procedure σ ε α} {y' : Procedure τ φ β} {s' : σ} {t' : τ}
    (hx : x s = x' s') (hy : y t = y' t') (h : Agree E x' y' s' t' P) : Agree E x y s t P := by
  rw [Agree, hx, hy]
  exact h

/-- How two procedures that agree end. -/
theorem cases (h : Agree E x y s t P) :
    (∃ a b s' t', x s = .ok a s' ∧ y t = .ok b t' ∧ P a b s' t') ∨
    (∃ e f s' t', x s = .error e s' ∧ y t = .error f t' ∧ E e f s' t') ∨
    x s = .exhausted ∧ y t = .exhausted := by
  unfold Agree at h
  cases hx : x s <;> cases hy : y t <;> rw [hx, hy] at h
  case ok.ok => exact .inl ⟨_, _, _, _, rfl, rfl, h⟩
  case error.error => exact .inr (.inl ⟨_, _, _, _, rfl, rfl, h⟩)
  case exhausted.exhausted => exact .inr (.inr ⟨rfl, rfl⟩)
  all_goals exact h.elim

theorem imp {F : ε → φ → σ → τ → Prop} {Q : α → β → σ → τ → Prop} (h : Agree E x y s t P)
    (hPQ : ∀ a b s' t', P a b s' t' → Q a b s' t') (hEF : ∀ e f s' t', E e f s' t' → F e f s' t') :
    Agree F x y s t Q := by
  rcases h.cases with ⟨a, b, s', t', hx, hy, hP⟩ | ⟨e, f, s', t', hx, hy, hE⟩ | ⟨hx, hy⟩
  · exact of_ok hx hy (hPQ a b s' t' hP)
  · exact of_error hx hy (hEF e f s' t' hE)
  · exact of_exhausted hx hy

theorem mono {Q : α → β → σ → τ → Prop} (h : Agree E x y s t P)
    (hPQ : ∀ a b s' t', P a b s' t' → Q a b s' t') : Agree E x y s t Q :=
  h.imp hPQ fun _ _ _ _ hE => hE

theorem symm (h : Agree E x y s t P) :
    Agree (fun f e t s => E e f s t) y x t s fun b a t s => P a b s t := by
  rcases h.cases with ⟨a, b, s', t', hx, hy, hP⟩ | ⟨e, f, s', t', hx, hy, hE⟩ | ⟨hx, hy⟩
  · exact of_ok hy hx hP
  · exact of_error hy hx hE
  · exact of_exhausted hy hx

/-- Two parts of each run in a row. -/
theorem bind {f : α → Procedure σ ε γ} {g : β → Procedure τ φ δ} {Q : γ → δ → σ → τ → Prop}
    (h : Agree E x y s t P)
    (hnext : ∀ a b s' t', P a b s' t' → Agree E (f a) (g b) s' t' Q) :
    Agree E (x >>= f) (y >>= g) s t Q := by
  rcases h.cases with ⟨a, b, s', t', hx, hy, hP⟩ | ⟨e, e', s', t', hx, hy, hE⟩ | ⟨hx, hy⟩
  · rw [Agree, bind_apply_of_ok hx, bind_apply_of_ok hy]
    exact hnext a b s' t' hP
  · exact of_error (bind_apply_of_error hx) (bind_apply_of_error hy) hE
  · exact of_exhausted (bind_apply_of_exhausted hx) (bind_apply_of_exhausted hy)

/-- Changes of the states after the runs. -/
theorem afterwards {F : ε → φ → σ → τ → Prop} {Q : α → β → σ → τ → Prop} {g : σ → σ} {k : τ → τ}
    (h : Agree E x y s t P) (hP : ∀ a b s' t', P a b s' t' → Q a b (g s') (k t'))
    (hE : ∀ e f s' t', E e f s' t' → F e f (g s') (k t')) :
    Agree F (afterwards g x) (afterwards k y) s t Q := by
  unfold Agree Procedure.afterwards
  rcases h.cases with ⟨a, b, s', t', hx, hy, hab⟩ | ⟨e, f, s', t', hx, hy, he⟩ | ⟨hx, hy⟩
  · rw [hx, hy]
    exact hP a b s' t' hab
  · rw [hx, hy]
    exact hE e f s' t' he
  · rw [hx, hy]
    trivial

end Agree

end Lox.Procedure
