import Lox.Proofs.Evaluation.Declarations

/-!
# Looking up a method

What comes of looking up a method of an instance from a class on: the method of the nearest declaration,
bound to the instance, or a failure if there is no such declaration. A property that is no field and a
method of `super` are both looked up in this way.
-/

namespace Lox

open Procedure

/-- The outcome of looking up a method of the instance from the class `c` on, which comes of these
declarations. -/
inductive Dispatches (declarations : List Configuration) (c : Class) (name : Identifier)
    (object : Instance) (m : Machine) : Outcome Machine Failure Value → Prop where
  | bound {declaration : FunctionDef} {method f : Function} {last : Machine}
      (hnearest : declarations.findSome? (Configuration.lastMethod? name.text) = some declaration)
      (hmethod : c.findMethod? name.text = some method) (hsame : method.declaration = declaration)
      (hnew : f.id = m.nextIdentity) (hbound : f.BoundTo last method object)
      (hlast : last = { m with
        store := m.store.push (.ofList [("this", .ofInstance object)])
        nextIdentity := m.nextIdentity + 1 }) :
      Dispatches declarations c name object m (.ok (.function f) last)
  | undefined (hnone : declarations.findSome? (Configuration.lastMethod? name.text) = none) :
      Dispatches declarations c name object m
        (.error ⟨.undefinedProperty name.text, name.line⟩ m)

/-- The outcome of reading a property of the instance, where the field of the name has been `written` or
not. -/
inductive ReadsProperty (written : Option Value) (declarations : List Configuration)
    (name : Identifier) (object : Instance) (m : Machine) : Outcome Machine Failure Value → Prop where
  | field {value : Value} (hwritten : written = some value) :
      ReadsProperty written declarations name object m (.ok value m)
  | method {outcome : Outcome Machine Failure Value} (hnone : written = none)
      (hmethod : Dispatches declarations object.ofClass name object m outcome) :
      ReadsProperty written declarations name object m outcome

namespace Run

variable {declarations : List Configuration} {c : Class} {name : Identifier} {object : Instance}
  {m : Machine} {lookup : Run Value}

/-- A function that has just been bound. -/
theorem boundTo_bind (hglobal : 0 < m.store.size) {method f : Function} {last : Machine}
    (h : Run.bind method object m = .ok f last) :
    f.id = m.nextIdentity ∧ f.BoundTo last method object ∧
      last = { m with
        store := m.store.push (.ofList [("this", .ofInstance object)])
        nextIdentity := m.nextIdentity + 1 } := by
  rw [bindMethod_apply] at h
  cases h
  refine ⟨rfl, ⟨rfl, rfl, rfl, hglobal, ?_⟩, rfl⟩
  show (m.store.push (.ofList [("this", .ofInstance object)])).get? m.store.size "this" = _
  rw [Store.get?_push_size, Table.get?_ofList_singleton, if_pos rfl]

/-- A lookup that does what `Class.findMethod?` says. -/
theorem dispatches (h : c.DeclaredBy declarations) (hglobal : 0 < m.store.size)
    (hfound : ∀ method, c.findMethod? name.text = some method →
      lookup m = (Run.bind method object >>= fun f => pure (.function f)) m)
    (hnone : c.findMethod? name.text = none →
      lookup m = raise (.undefinedProperty name.text) name.line m) :
    Dispatches declarations c name object m (lookup m) := by
  have hnearest := h.findMethod? name.text
  cases hmethod : c.findMethod? name.text with
  | some method =>
    obtain ⟨hnew, hbound, hlast⟩ := boundTo_bind hglobal (bindMethod_apply method object m)
    rw [hmethod] at hnearest
    rw [hfound method hmethod]
    exact .bound hnearest.symm hmethod rfl hnew hbound hlast
  | none =>
    rw [hmethod] at hnearest
    rw [hnone hmethod]
    exact .undefined hnearest.symm

theorem read_of_eq {α : Type} {g : Machine → α} {a : α} (h : g m = a) :
    (Procedure.read g : Run α) m = .ok a m := congrArg (Outcome.ok · m) h

/-- A property is a field, or else a method. -/
theorem readsProperty (h : object.ofClass.DeclaredBy declarations) (hglobal : 0 < m.store.size) :
    ReadsProperty (m.fields.get? object.id name.text) declarations name object m
      (property object name m) := by
  have hread := read_of_eq (m := m) (g := fun m => m.fields.get? object.id name.text) rfl
  rw [property, bind_apply_of_ok hread]
  cases hfield : m.fields.get? object.id name.text with
  | some value => exact .field rfl
  | none =>
    refine .method rfl (dispatches h hglobal (fun method hmethod => ?_) fun hmethod => ?_)
    · simp only [hmethod]
    · simp only [hmethod]

/-- A method of `super`, when `super` and `this` are in scope. -/
theorem dispatches_superMethod (h : c.DeclaredBy declarations) (hglobal : 0 < m.store.size)
    {id : NodeId} {depth : Nat} (line : Nat) (hdepth : m.depths[id]? = some depth)
    (hsuper : m.environment.getAt? m.store depth "super" = some (.ofClass c))
    (hthis : m.environment.getAt? m.store (depth - 1) "this" = some (.ofInstance object)) :
    Dispatches declarations c name object m (superMethod id line name m) := by
  have hreadSuper := read_of_eq (g := fun m : Machine => m.environment.getAt? m.store depth "super") hsuper
  have hreadThis := read_of_eq (g := fun m : Machine => m.environment.getAt? m.store (depth - 1) "this") hthis
  rw [superMethod, bind_apply_of_ok (read_of_eq hdepth)]
  simp only [bind_apply_of_ok hreadSuper, bind_apply_of_ok hreadThis]
  exact dispatches h hglobal (fun method hmethod => by rw [hmethod]) fun hmethod => by rw [hmethod]

end Run

end Lox
