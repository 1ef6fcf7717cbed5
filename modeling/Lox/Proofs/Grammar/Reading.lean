import Lox.Syntax.Rule

/-!
# What rules read

A property of a rule of the grammar speaks of the tokens that the rule consumes, of the numbers that
it takes for nodes, of the token after it, and of its result. It is promised only if no fault is noted on the way, since a
noted fault turns the whole program down. Numbers are never given back, however the rule ends.

Each step that rules are made of has one lemma here, and `Reads.bind` puts two rules in a row
together.
-/

namespace Lox.Rule

open Procedure

variable {α β : Type}

/-- Which tokens, which next numbers before and after them, which token after them and which result
go together. -/
abbrev Property (α : Type) := List Token → NodeId → NodeId → Token → α → Prop

/-- From the cursor `c` on, the rule `x` reads what has the property `P`. -/
def Reads (P : Property α) (c : Cursor) (x : Rule α) : Prop :=
  match x c with
  | .ok a d => c.nextId ≤ d.nextId ∧ ∃ ts noted, c.tokens = ts ++ d.tokens ∧
      d.faults = noted ++ c.faults ∧ (noted = [] → P ts c.nextId d.nextId d.current a)
  | .error _ d => c.nextId ≤ d.nextId
  | .exhausted => True

namespace Reads

variable {P Q : Property α} {R : Property β} {c : Cursor} {x : Rule α} {f : α → Rule β}

theorem mono (h : Reads P c x) (hPQ : ∀ ts i j next a, P ts i j next a → Q ts i j next a) : Reads Q c x := by
  unfold Reads at *
  cases ho : x c with
  | ok a d =>
    rw [ho] at h
    obtain ⟨hle, ts, noted, ht, hf, hP⟩ := h
    exact ⟨hle, ts, noted, ht, hf, fun hn => hPQ _ _ _ _ _ (hP hn)⟩
  | error e d => rw [ho] at h; exact h
  | exhausted => exact trivial

/-- A rule after a rule: what is left to show of the second one may use what the first one read. -/
theorem bind (hx : Reads P c x)
    (hf : ∀ a d, Reads (fun us j k next b => ∀ ts i, P ts i j d.current a →
      R (ts ++ us) i k next b) d (f a)) :
    Reads R c (x >>= f) := by
  unfold Reads at *
  rw [bind_apply]
  cases ho : x c with
  | exhausted => exact trivial
  | error e d => rw [ho] at hx; exact hx
  | ok a d =>
    rw [ho] at hx
    obtain ⟨hle, ts, noted, ht, hn, hP⟩ := hx
    have hs := hf a d
    simp only
    cases hb : f a d with
    | exhausted => exact trivial
    | error e d' =>
      rw [hb] at hs
      exact Nat.le_trans hle hs
    | ok b d' =>
      rw [hb] at hs
      obtain ⟨hle', us, noted', ht', hn', hS⟩ := hs
      refine ⟨Nat.le_trans hle hle', ts ++ us, noted' ++ noted, ?_, ?_, ?_⟩
      · rw [ht, ht', List.append_assoc]
      · rw [hn', hn, List.append_assoc]
      · intro hnil
        obtain ⟨h₂, h₁⟩ := List.append_eq_nil_iff.1 hnil
        exact hS h₂ ts _ (hP h₁)

theorem pure (a : α) (h : P [] c.nextId c.nextId c.current a) :
    Reads P c (Pure.pure a) :=
  ⟨Nat.le_refl _, [], [], rfl, rfl, fun _ => h⟩

theorem fail (e : Diagnostic) : Reads P c (Procedure.fail e) := Nat.le_refl _

/-- Looking ahead consumes nothing; what follows may depend on the token at hand. -/
theorem peek {f : Token → Rule β} (h : Reads R c (f c.current)) :
    Reads R c (Rule.peek >>= f) := h

/-- The token at hand is the first one left, unless it is the end. -/
theorem tokens_eq_cons {c : Cursor} (h : c.current.kind ≠ .endOfSource) :
    c.tokens = c.current :: c.tokens.tail := by
  cases ht : c.tokens with
  | nil => simp [Cursor.current, ht, Token.atEnd] at h
  | cons t rest => simp [Cursor.current, ht]

theorem advanced_of_ne {c : Cursor} (h : c.current.kind ≠ .endOfSource) :
    c.advanced = { c with tokens := c.tokens.tail } := by
  simp [Cursor.advanced, Cursor.isAtEnd, h]

/-- Passing over the token at hand consumes it. -/
theorem advance (hc : c.current.kind ≠ .endOfSource) :
    Reads (fun ts i j _ _ => ts = [c.current] ∧ i = j) c Rule.advance := by
  have h : Rule.advance c = .ok () { c with tokens := c.tokens.tail } :=
    congrArg (Outcome.ok ()) (advanced_of_ne hc)
  unfold Reads
  rw [h]
  exact ⟨Nat.le_refl _, [c.current], [], tokens_eq_cons hc, rfl, fun _ => ⟨rfl, rfl⟩⟩

/-- A token of a kind, or nothing if the token at hand is of another kind. -/
def Accepted (kind : Token.Kind) : Property (Option Token) := fun ts i j next a =>
  i = j ∧ match a with
    | some t => ts = [t] ∧ t.kind = kind
    | none => ts = [] ∧ next.kind ≠ kind

theorem accept? {kind : Token.Kind} (hk : kind ≠ .endOfSource) (c : Cursor) :
    Reads (Accepted kind) c (Rule.accept? kind) := by
  unfold Rule.accept?
  apply peek
  split
  · next h =>
    rw [← h] at hk
    refine bind (advance hk) fun _ d => pure _ ?_
    rintro ts i ⟨rfl, rfl⟩
    exact ⟨rfl, rfl, h⟩
  · next h => exact pure _ ⟨rfl, rfl, h⟩

/-- Whether a token of a kind was consumed. -/
def Taken (kind : Token.Kind) : Property Bool := fun ts i j next a =>
  i = j ∧ match a with
    | true => ∃ t, ts = [t] ∧ t.kind = kind
    | false => ts = [] ∧ next.kind ≠ kind

theorem accept {kind : Token.Kind} (hk : kind ≠ .endOfSource) (c : Cursor) :
    Reads (Taken kind) c (Rule.accept kind) := by
  refine bind (accept? hk c) fun a d => pure _ ?_
  rintro ts i ⟨rfl, ha⟩
  cases a with
  | none => exact ⟨rfl, by simpa using ha⟩
  | some t => exact ⟨rfl, t, by simpa using ha⟩

/-- The token that is consumed is the one at hand. -/
theorem accept_current {kind : Token.Kind} (hk : kind ≠ .endOfSource) (c : Cursor) :
    Reads (fun ts i j next a => Taken kind ts i j next a ∧
      (a = true → c.current.kind = kind)) c (Rule.accept kind) := by
  have h := accept hk c
  by_cases hc : c.current.kind = kind
  · exact h.mono fun ts i j next a ha => ⟨ha, fun _ => hc⟩
  · have hf : Rule.accept kind c = .ok false c := by
      simp [Rule.accept, Rule.accept?, Rule.peek, bind_apply, Procedure.read, hc]
    unfold Reads at *
    rw [hf] at h ⊢
    obtain ⟨hle, ts, noted, ht, hn, hP⟩ := h
    exact ⟨hle, ts, noted, ht, hn, fun hnil => ⟨hP hnil, by simp⟩⟩

/-- A test consumes nothing. -/
theorem test {g : Cursor → Bool} {f : Bool → Rule β} (h : ∀ b, Reads R c (f b)) :
    Reads R c (Procedure.read g >>= f) := h _

theorem expect {kind : Token.Kind} (fault : SyntaxFault) (hk : kind ≠ .endOfSource) (c : Cursor) :
    Reads (fun ts i j _ t => ts = [t] ∧ t.kind = kind ∧ i = j) c (Rule.expect kind fault) := by
  unfold Rule.expect
  apply peek
  split
  · next h =>
    rw [← h] at hk
    refine bind (advance hk) fun _ d => pure _ ?_
    rintro ts i ⟨rfl, rfl⟩
    exact ⟨rfl, h, rfl⟩
  · exact fail _

theorem expectSymbol (symbol : Symbol) (place : Place) (c : Cursor) :
    Reads (fun ts i j _ t => ts = [t] ∧ t.kind = .symbol symbol ∧ i = j) c
      (Rule.expectSymbol symbol place) :=
  expect _ (by simp) c

theorem expectName (role : NameRole) (c : Cursor) :
    Reads (fun ts i j _ name => ∃ t : Token, ts = [t] ∧ t.kind = .identifier ∧
      name = ⟨t.text, t.line⟩ ∧ i = j) c (Rule.expectName role) := by
  refine bind (expect _ (by simp) c) fun t d => pure _ ?_
  rintro ts i ⟨rfl, hk, rfl⟩
  exact ⟨t, rfl, hk, rfl, rfl⟩

theorem freshId (c : Cursor) :
    Reads (fun ts i j _ id => ts = [] ∧ id = i ∧ j = i + 1) c Rule.freshId :=
  ⟨Nat.le_succ _, [], [], rfl, rfl, fun _ => ⟨rfl, rfl, rfl⟩⟩

/-- After a noted fault nothing is promised. -/
theorem note (fault : SyntaxFault) (line : Nat) (c : Cursor) :
    Reads (fun _ _ _ _ _ => False) c (Rule.note fault line) :=
  ⟨Nat.le_refl _, [], [_], rfl, rfl, fun h => absurd h (by simp)⟩

theorem noteIfFull (count : Nat) (fault : SyntaxFault) (c : Cursor) :
    Reads (fun ts i j _ _ => ts = [] ∧ i = j ∧ count < Cursor.maxArity) c
      (Rule.noteIfFull count fault) := by
  unfold Rule.noteIfFull
  split
  · exact peek ((note _ _ c).mono (by simp))
  · next h => exact pure _ ⟨rfl, rfl, Nat.lt_of_not_le h⟩

end Reads

end Lox.Rule
