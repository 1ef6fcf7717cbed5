import Lox.Description
import Lox.Proofs.Evaluation.Likeness

/-!
# Descriptions of values

All that a host is shown of a value. Values alike have the same description.
-/

namespace Lox

/-- The kind of a value, the text that `print` writes, and what is shown of a function, a class or an
instance besides. -/
structure Value.Description where
  typeName : String
  display : String
  arity : Option Nat
  isInitializer : Option Bool
  superclassNames : Option (List String)
  text : Option String
deriving DecidableEq

/-- The description of a value on a machine with these fields. -/
def Value.describe (fields : Store Value) (value : Value) : Value.Description where
  typeName := value.typeName
  display := value.display
  arity := value.arity?
  isInitializer := match value with
    | .function f => some f.isInitializer
    | _ => none
  superclassNames := match value with
    | .ofClass c => some c.superclassNames
    | _ => none
  text := match value with
    | .native f => some f.description
    | .function f => some f.description
    | .ofClass c => some c.description
    | .ofInstance i => some (i.description fields)
    | _ => none

/-- The description of a global variable, if there is one of this name. -/
def Machine.describe? (m : Machine) (name : String) : Option Value.Description :=
  (m.global? name).map (·.describe m.fields)

variable {r : Correspondence} {w : World}

theorem Class.Alike.description_eq {c d : Class} (h : c.Alike r w d) :
    c.description = d.description := by
  have hnames := h.methods.sortedNames_eq
  cases h with
  | base =>
    unfold Class.description
    rw [hnames]
  | derived hsuper =>
    unfold Class.description
    simp only [hsuper.name_eq, hnames]

theorem Instance.Alike.description_eq {a b : Instance} {fields others : Store Value}
    (hf : fields.Alike (fun _ => .refl) (Value.Alike r w) others) (h : a.Alike r w b) :
    a.description fields = b.description others := by
  have hnames : (fields.scope b.id).sortedNames = (others.scope b.id).sortedNames :=
    (hf.scope b.id).sortedNames_eq
  unfold Instance.description
  simp only [h.id, h.ofClass.name_eq, hnames]

theorem Value.Alike.describe_eq {a b : Value} {fields others : Store Value}
    (hf : fields.Alike (fun _ => .refl) (Value.Alike r w) others) (h : a.Alike r w b) :
    a.describe fields = b.describe others := by
  have hdisplay := h.display_eq
  have harity := h.arity?_eq
  unfold Value.describe
  rw [hdisplay, harity]
  cases h with
  | nil | bool | number | string | native => rfl
  | function h =>
    simp only [Value.typeName, h.isInitializer, Function.description, h.name_eq]
  | ofClass h => simp only [Value.typeName, h.superclassNames_eq, h.description_eq]
  | ofInstance h => simp only [Value.typeName, h.description_eq hf]

/-- Like machines have global variables of the same names, with values of the same description. -/
theorem Machine.Alike.describe?_eq {m n : Machine} (h : m.Alike r w n) (name : String) :
    m.describe? name = n.describe? name := by
  have hglobal := h.global? name
  unfold Machine.describe?
  revert hglobal
  generalize m.global? name = a
  generalize n.global? name = b
  intro hglobal
  cases hglobal with
  | none => rfl
  | some hab => exact congrArg some (hab.describe_eq h.fields)

end Lox
