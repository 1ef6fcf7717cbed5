import Lox.Proofs.Evaluation.Likeness

/-!
# Values with the same code

Two functions have the same code when the same step has made them from the same declaration. Their
environments may be others. Values are matched by what is known of the functions in them, so that one
relation of values serves for every relation of functions. Nothing that looks only at code and identity
tells matched values apart.
-/

namespace Lox

/-- The same function, but for the environment around it. -/
structure Function.SameCode (f g : Function) : Prop where
  id : f.id = g.id
  declaration : f.declaration = g.declaration
  isInitializer : f.isInitializer = g.isInitializer

/-- The same class, with methods that `Q` relates. -/
inductive Class.MatchedBy (Q : Function → Function → Prop) : Class → Class → Prop where
  | base {id name ms ns} (methods : ms.Alike .refl Q ns) :
      Class.MatchedBy Q ⟨id, name, none, ms⟩ ⟨id, name, none, ns⟩
  | derived {id name c d ms ns} (superclass : Class.MatchedBy Q c d) (methods : ms.Alike .refl Q ns) :
      Class.MatchedBy Q ⟨id, name, some c, ms⟩ ⟨id, name, some d, ns⟩

structure Instance.MatchedBy (Q : Function → Function → Prop) (a b : Instance) : Prop where
  id : a.id = b.id
  ofClass : a.ofClass.MatchedBy Q b.ofClass

/-- The same value, with functions that `P` relates and methods that `Q` relates. -/
inductive Value.MatchedBy (P Q : Function → Function → Prop) : Value → Value → Prop where
  | nil : Value.MatchedBy P Q .nil .nil
  | bool (value) : Value.MatchedBy P Q (.bool value) (.bool value)
  | number (value) : Value.MatchedBy P Q (.number value) (.number value)
  | string (value) : Value.MatchedBy P Q (.string value) (.string value)
  | native (f) : Value.MatchedBy P Q (.native f) (.native f)
  | function {f g} (h : P f g) : Value.MatchedBy P Q (.function f) (.function g)
  | ofClass {c d} (h : c.MatchedBy Q d) : Value.MatchedBy P Q (.ofClass c) (.ofClass d)
  | ofInstance {a b} (h : a.MatchedBy Q b) : Value.MatchedBy P Q (.ofInstance a) (.ofInstance b)

section Matched

variable {P P' Q Q' : Function → Function → Prop}

namespace Class.MatchedBy

variable {c d : Class}

theorem id_eq (h : c.MatchedBy Q d) : c.id = d.id := by
  cases h <;> rfl

theorem name_eq (h : c.MatchedBy Q d) : c.name = d.name := by
  cases h <;> rfl

theorem mono (hQ : ∀ f g, Q f g → Q' f g) (h : c.MatchedBy Q d) : c.MatchedBy Q' d := by
  induction h with
  | base hm => exact .base (hm.mono hQ)
  | derived _ hm ih => exact .derived ih (hm.mono hQ)

theorem findMethod? (h : c.MatchedBy Q d) (name : String) :
    Option.Rel Q (c.findMethod? name) (d.findMethod? name) := by
  induction h with
  | base hm => exact hm.get? name
  | @derived _ _ c d ms ns _ hm ih =>
    have hget : Option.Rel Q (ms.get? name) (ns.get? name) := hm.get? name
    rw [Class.findMethod?, Class.findMethod?]
    revert hget
    generalize ms.get? name = f
    generalize ns.get? name = g
    intro hget
    cases hget with
    | none => exact ih
    | some h => exact .some h

theorem arity_eq (hQ : ∀ f g, Q f g → f.SameCode g) (h : c.MatchedBy Q d) : c.arity = d.arity := by
  have hinit : Option.Rel Q c.initializer? d.initializer? := h.findMethod? initializerName
  unfold Class.arity
  revert hinit
  generalize c.initializer? = f
  generalize d.initializer? = g
  intro hinit
  cases hinit with
  | none => rfl
  | some h => exact congrArg (·.params.length) (hQ _ _ h).declaration

end Class.MatchedBy

namespace Value.MatchedBy

variable {a b : Value}

theorem mono (hP : ∀ f g, P f g → P' f g) (hQ : ∀ f g, Q f g → Q' f g) (h : a.MatchedBy P Q b) :
    a.MatchedBy P' Q' b := by
  cases h with
  | nil => exact .nil
  | bool value => exact .bool value
  | number value => exact .number value
  | string value => exact .string value
  | native f => exact .native f
  | function h => exact .function (hP _ _ h)
  | ofClass h => exact .ofClass (h.mono hQ)
  | ofInstance h => exact .ofInstance ⟨h.id, h.ofClass.mono hQ⟩

theorem of_isPlain (h : a.IsPlain) : a.MatchedBy P Q a := by
  cases a with
  | nil => exact .nil
  | bool value => exact .bool value
  | number value => exact .number value
  | string value => exact .string value
  | _ => exact h.elim

theorem content_eq (hP : ∀ f g, P f g → f.SameCode g) (h : a.MatchedBy P Q b) :
    a.content = b.content := by
  cases h with
  | nil | bool | number | string | native => rfl
  | function h =>
    have hcode := hP _ _ h
    rw [Value.content, Value.content, Function.name, Function.name, hcode.id, hcode.declaration]
  | ofClass h => rw [Value.content, Value.content, h.id_eq, h.name_eq]
  | ofInstance h => rw [Value.content, Value.content, h.id, h.ofClass.name_eq]

theorem arity?_eq (hP : ∀ f g, P f g → f.SameCode g) (hQ : ∀ f g, Q f g → f.SameCode g)
    (h : a.MatchedBy P Q b) : a.arity? = b.arity? := by
  cases h with
  | function h =>
    rw [Value.arity?, Value.arity?, Function.arity, Function.arity, (hP _ _ h).declaration]
  | ofClass h => rw [Value.arity?, Value.arity?, h.arity_eq hQ]
  | _ => rfl

end Value.MatchedBy

end Matched

/-! ### Functions of the host -/

/-- The function of the host sees of a function of the program only what it shares with every function
made from the same code by the same step. -/
def HostFunction.Blind (f : HostFunction) : Prop :=
  ∀ P Q : Function → Function → Prop,
    (∀ f g, P f g → f.SameCode g) → (∀ f g, Q f g → f.SameCode g) →
    ∀ as bs, List.Forall₂ (Value.MatchedBy P Q) as bs →
      (∃ a b, f as = .ok a ∧ f bs = .ok b ∧ a.MatchedBy P Q b) ∨
        ∃ message, f as = .error message ∧ f bs = .error message

namespace Host

theorem blind_clock (now : Number) : HostFunction.Blind (clock now) :=
  fun _ _ _ _ _ _ _ => .inl ⟨_, _, rfl, rfl, .number now⟩

theorem blind_double : HostFunction.Blind double := by
  intro P Q _ _ as bs h
  cases h with
  | nil => exact .inr ⟨_, rfl, rfl⟩
  | cons hab hrest =>
    cases hab with
    | number x =>
      cases hrest with
      | nil => exact .inl ⟨_, _, rfl, rfl, .number _⟩
      | cons => exact .inr ⟨_, rfl, rfl⟩
    | _ => exact .inr ⟨_, rfl, rfl⟩

theorem blind_display : HostFunction.Blind display := by
  intro P Q hP _ as bs h
  cases h with
  | nil => exact .inl ⟨_, _, rfl, rfl, .nil⟩
  | @cons a b as bs hab =>
    have hdisplay : a.display = b.display := by
      rw [← Value.display_content, hab.content_eq hP, Value.display_content]
    exact .inl ⟨_, _, rfl, rfl, hdisplay ▸ .string _⟩

theorem blind_same : HostFunction.Blind same := by
  intro P Q hP _ as bs h
  cases h with
  | nil => exact .inl ⟨_, _, rfl, rfl, .nil⟩
  | @cons a b _ _ hab hrest =>
    cases hrest with
    | nil => exact .inl ⟨_, _, rfl, rfl, .nil⟩
    | @cons c d _ _ hcd hrest =>
      cases hrest with
      | nil =>
        have hequal : a.equal c = b.equal d := by
          rw [← Value.equal_content, hab.content_eq hP, hcd.content_eq hP, Value.equal_content]
        exact .inl ⟨_, _, rfl, rfl, hequal ▸ .bool _⟩
      | cons => exact .inl ⟨_, _, rfl, rfl, .nil⟩

theorem blind_fail : HostFunction.Blind fail := fun _ _ _ _ _ _ _ => .inr ⟨_, rfl, rfl⟩

end Host

end Lox
