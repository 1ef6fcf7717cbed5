import Lox.Syntax.Rule

/-!
# What rules accept

A rule accepts a list of tokens before given others if it consumes exactly that list, wherever the
numbering of nodes stands, and notes no fault. As with `Rule.Reads`, each step has one lemma, and
`Accepts.bind` puts two rules in a row together.
-/

namespace Lox

/-- The kind of the first token; past the last one there is only the end. -/
def Cursor.kindOf (ts : List Token) : Token.Kind := (ts.headD (.atEnd 1)).kind

@[simp] theorem Cursor.kindOf_cons (t : Token) (ts : List Token) : kindOf (t :: ts) = t.kind := rfl

namespace Rule

open Procedure

variable {α β : Type}

/-- The rule `x` consumes `ts` before `rest`, with a result that has the property `P`. -/
def Accepts (x : Rule α) (ts rest : List Token) (P : α → Prop) : Prop :=
  ∀ i faults, ∃ a j, x ⟨ts ++ rest, i, faults⟩ = .ok a ⟨rest, j, faults⟩ ∧ P a

namespace Accepts

variable {x : Rule α} {f : α → Rule β} {ts us rest : List Token} {P : α → Prop} {Q : β → Prop}
  {t : Token} {kind : Token.Kind}

theorem mono {R : α → Prop} (h : Accepts x ts rest P) (hPR : ∀ a, P a → R a) :
    Accepts x ts rest R := by
  intro i faults
  obtain ⟨a, j, hx, ha⟩ := h i faults
  exact ⟨a, j, hx, hPR a ha⟩

/-- A rule after a rule: the second one accepts what the first one leaves. -/
theorem bind (hx : Accepts x ts (us ++ rest) P) (hf : ∀ a, P a → Accepts (f a) us rest Q) :
    Accepts (x >>= f) (ts ++ us) rest Q := by
  intro i faults
  obtain ⟨a, j, ha, hP⟩ := hx i faults
  obtain ⟨b, k, hb, hQ⟩ := hf a hP j faults
  refine ⟨b, k, ?_, hQ⟩
  rw [List.append_assoc, bind_apply_of_ok ha, hb]

/-- The first rule consumes one token. -/
theorem cons (hx : Accepts x [t] (us ++ rest) P) (hf : ∀ a, P a → Accepts (f a) us rest Q) :
    Accepts (x >>= f) (t :: us) rest Q :=
  bind hx hf

/-- The first rule consumes nothing. -/
theorem skip (hx : Accepts x [] (us ++ rest) P) (hf : ∀ a, P a → Accepts (f a) us rest Q) :
    Accepts (x >>= f) us rest Q :=
  bind hx hf

/-- The second rule consumes nothing. -/
theorem last (hx : Accepts x ts rest P) (hf : ∀ a, P a → Accepts (f a) [] rest Q) :
    Accepts (x >>= f) ts rest Q := by
  have h : Accepts (x >>= f) (ts ++ []) rest Q := bind hx hf
  rwa [List.append_nil] at h

theorem pure {a : α} (h : P a) : Accepts (Pure.pure a) [] rest P :=
  fun i _ => ⟨a, i, rfl, h⟩

/-- Looking ahead consumes nothing. -/
theorem peek_current {f : Token → Rule β}
    (h : Accepts (f ((ts ++ rest).headD (.atEnd 1))) ts rest Q) :
    Accepts (Rule.peek >>= f) ts rest Q := h

/-- Looking ahead shows the first token. -/
theorem peek {f : Token → Rule β} (h : Accepts (f t) (t :: us) rest Q) :
    Accepts (Rule.peek >>= f) (t :: us) rest Q := h

theorem advance (ht : t.kind ≠ .endOfSource) :
    Accepts Rule.advance [t] rest (fun _ => True) := by
  intro i faults
  refine ⟨(), i, ?_, trivial⟩
  simp [Rule.advance, Procedure.update, Cursor.advanced, Cursor.isAtEnd, Cursor.current, ht]

theorem accept?_some (ht : t.kind = kind) (hk : kind ≠ .endOfSource) :
    Accepts (Rule.accept? kind) [t] rest (· = some t) := by
  unfold Rule.accept?
  apply peek
  rw [if_pos ht]
  exact cons (advance (ht ▸ hk)) fun _ _ => pure rfl

theorem accept?_none (h : Cursor.kindOf rest ≠ kind) :
    Accepts (Rule.accept? kind) [] rest (· = none) := by
  have hne : ¬ (([] ++ rest).headD (.atEnd 1)).kind = kind := h
  unfold Rule.accept?
  apply peek_current
  rw [if_neg hne]
  exact pure rfl

theorem accept_true (ht : t.kind = kind) (hk : kind ≠ .endOfSource) :
    Accepts (Rule.accept kind) [t] rest (· = true) :=
  cons (accept?_some ht hk) fun _ ha => pure (by rw [ha]; rfl)

theorem accept_false (h : Cursor.kindOf rest ≠ kind) :
    Accepts (Rule.accept kind) [] rest (· = false) :=
  skip (accept?_none h) fun _ ha => pure (by rw [ha]; rfl)

theorem sees (kind : Token.Kind) :
    Accepts (Rule.sees kind) [] rest (· = decide (Cursor.kindOf rest = kind)) :=
  fun i _ => ⟨_, i, rfl, rfl⟩

theorem expect {fault : SyntaxFault} (ht : t.kind = kind) (hk : kind ≠ .endOfSource) :
    Accepts (Rule.expect kind fault) [t] rest (· = t) := by
  unfold Rule.expect
  apply peek
  rw [if_pos ht]
  exact cons (advance (ht ▸ hk)) fun _ _ => pure rfl

theorem expectSymbol {symbol : Symbol} {place : Place} (ht : t.kind = .symbol symbol) :
    Accepts (Rule.expectSymbol symbol place) [t] rest (· = t) :=
  expect ht (by simp)

theorem expectName {role : NameRole} (ht : t.kind = .identifier) :
    Accepts (Rule.expectName role) [t] rest (· = ⟨t.text, t.line⟩) :=
  cons (expect ht (by simp)) fun _ ha => pure (by rw [ha])

theorem freshId : Accepts Rule.freshId [] rest (fun _ => True) :=
  fun i _ => ⟨i, i + 1, rfl, trivial⟩

theorem noteIfFull {count : Nat} {fault : SyntaxFault} (h : count < Cursor.maxArity) :
    Accepts (Rule.noteIfFull count fault) [] rest (fun _ => True) := by
  unfold Rule.noteIfFull
  rw [if_neg (Nat.not_le.2 h)]
  exact pure trivial

end Accepts

end Rule

end Lox
