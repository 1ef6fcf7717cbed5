import Lox.Proofs.Evaluation.Reach

/-!
# Where failures come from

Every failure of a run was raised by a part of the run, and what the part is about decides the fault and
the line. The failure then passes through all that is around the part unchanged.

## Main results

* `Configuration.Raises`: what can go wrong in a task itself, with the fault and the line.
* `Configuration.exists_origin`: a task that fails reaches one that raises the failure.
-/

namespace Lox

open Procedure Run

/-! ### Failures of steps -/

section Steps

variable {α β : Type} {m : Machine} {failure : Failure}

/-- A failure of two parts in a row is a failure of one of them. -/
theorem Run.failure?_bind {x : Run α} {f : α → Run β} (h : ((x >>= f) m).failure? = some failure) :
    (x m).failure? = some failure ∨
      ∃ a after, x m = .ok a after ∧ (f a after).failure? = some failure := by
  rw [bind_apply] at h
  cases ho : x m with
  | ok a after =>
    rw [ho] at h
    exact .inr ⟨a, after, rfl, h⟩
  | error failure after =>
    rw [ho] at h
    exact .inl h
  | exhausted =>
    rw [ho] at h
    cases h

theorem Run.failure?_afterwards (g : Machine → Machine) (x : Run α) :
    (afterwards g x m).failure? = (x m).failure? := by
  rw [afterwards]
  cases x m <;> rfl

/-- The run of `x` does not fail, wherever it starts. -/
def Run.NeverFails (x : Run α) : Prop := ∀ m, (x m).failure? = none

namespace Run.NeverFails

theorem absurd {x : Run α} {p : Prop} (hx : x.NeverFails) (h : (x m).failure? = some failure) : p := by
  rw [hx m] at h
  cases h

theorem bind {x : Run α} {f : α → Run β} (hx : x.NeverFails) (hf : ∀ a, (f a).NeverFails) :
    (x >>= f).NeverFails := by
  intro m
  cases hboth : ((x >>= f) m).failure? with
  | none => rfl
  | some failure =>
    rcases failure?_bind hboth with h | ⟨a, after, -, h⟩
    · exact hx.absurd h
    · exact (hf a).absurd h

theorem pure (a : α) : NeverFails (Pure.pure a) := fun _ => rfl

theorem read (g : Machine → α) : NeverFails (Procedure.read g) := fun _ => rfl

theorem update (g : Machine → Machine) : NeverFails (Procedure.update g) := fun _ => rfl

theorem newScope (env : Environment) (bindings : Table Value) : NeverFails (Run.newScope env bindings) :=
  bind (read _) fun _ => bind (update _) fun _ => pure _

theorem freshIdentity (count : Nat) : NeverFails (Run.freshIdentity count) :=
  bind (read _) fun _ => bind (update _) fun _ => pure _

theorem bindMethod (method : Function) (object : Instance) : NeverFails (Run.bind method object) :=
  bind (newScope _ _) fun _ => bind (freshIdentity 1) fun _ => pure _

theorem instantiate (c : Class) : NeverFails (Run.instantiate c) :=
  bind (read _) fun _ => bind (update _) fun _ => pure _

theorem methodClosure (superclass : Option Class) : NeverFails (Run.methodClosure superclass) := by
  refine bind (read _) fun outside => ?_
  cases superclass with
  | none => exact pure outside
  | some c => exact newScope outside _

end Run.NeverFails

theorem Run.failure?_located {line : Nat} {result : Except RuntimeFault α}
    (h : (located line result m).failure? = some failure) :
    ∃ fault, result = .error fault ∧ failure = ⟨fault, line⟩ := by
  cases result with
  | ok a => cases h
  | error fault =>
    cases h
    exact ⟨fault, rfl, rfl⟩

theorem Run.failure?_valueOf {id : NodeId} {name : String} {line : Nat}
    (h : (valueOf id name line m).failure? = some failure) :
    m.valueOf? id name = none ∧ failure = ⟨.undefinedVariable name, line⟩ := by
  rw [valueOf_apply] at h
  cases hv : m.valueOf? id name with
  | some value =>
    rw [hv] at h
    cases h
  | none =>
    rw [hv] at h
    cases h
    exact ⟨rfl, rfl⟩

theorem Run.failure?_assign {target : Reference} {value : Value}
    (h : (assign target value m).failure? = some failure) :
    m.assignee? target.id target.name.text = none ∧
      failure = ⟨.undefinedVariable target.name.text, target.name.line⟩ := by
  rw [assign_apply] at h
  cases hs : m.assignee? target.id target.name.text with
  | some scope =>
    rw [hs] at h
    cases h
  | none =>
    rw [hs] at h
    cases h
    exact ⟨rfl, rfl⟩

/-- A method that was looked for can only be missing. -/
theorem Run.failure?_boundMethod {found : Option Function} {object : Instance} {name : Identifier}
    (h : ((match found with
      | some method => do return .function (← Run.bind method object)
      | none => raise (.undefinedProperty name.text) name.line : Run Value) m).failure? = some failure) :
    found = none ∧ failure = ⟨.undefinedProperty name.text, name.line⟩ := by
  cases found with
  | some method =>
    have hnever := NeverFails.bind (.bindMethod method object) fun f => .pure (Value.function f)
    exact hnever.absurd h
  | none =>
    cases h
    exact ⟨rfl, rfl⟩

theorem Run.failure?_property {object : Instance} {name : Identifier}
    (h : (property object name m).failure? = some failure) :
    m.fields.get? object.id name.text = none ∧ object.ofClass.findMethod? name.text = none ∧
      failure = ⟨.undefinedProperty name.text, name.line⟩ := by
  rcases failure?_bind h with h | ⟨field, after, hfield, h⟩
  · cases h
  · cases hfield
    cases hvalue : m.fields.get? object.id name.text with
    | some value =>
      simp only [hvalue] at h
      cases h
    | none =>
      simp only [hvalue] at h
      exact ⟨rfl, failure?_boundMethod h⟩

/-- Operators fail for the types of their operands only. -/
theorem UnaryOperator.exists_wrongType {operator : UnaryOperator} {a : Value} {fault : RuntimeFault}
    (h : operator.apply a = .error fault) : ∃ type, fault = .wrongType type := by
  unfold UnaryOperator.apply at h
  split at h <;> cases h
  exact ⟨_, rfl⟩

theorem BinaryOperator.exists_wrongType {operator : BinaryOperator} {a b : Value} {fault : RuntimeFault}
    (h : operator.apply a b = .error fault) : ∃ type, fault = .wrongType type := by
  unfold BinaryOperator.apply at h
  split at h <;> cases h <;> exact ⟨_, rfl⟩

/-- What `super` fails with is on its own line or on that of the method's name. -/
theorem Run.failure?_superMethod {id : NodeId} {line : Nat} {method : Identifier}
    (h : (superMethod id line method m).failure? = some failure) :
    failure = ⟨.undefinedProperty method.text, method.line⟩ ∨
      failure.line = line ∧ failure.fault ∈
        [.undefinedVariable "super", .undefinedVariable "this", .wrongType .superclassNotClass] := by
  rcases failure?_bind h with h | ⟨depth, after, -, h⟩
  · cases h
  cases depth with
  | none =>
    cases h
    exact .inr ⟨rfl, .head _⟩
  | some depth =>
    rcases failure?_bind h with h | ⟨superclass, after, -, h⟩
    · cases h
    cases superclass with
    | none =>
      cases h
      exact .inr ⟨rfl, .head _⟩
    | some superclass =>
      rcases failure?_bind h with h | ⟨object, after, -, h⟩
      · cases h
      cases object with
      | none =>
        cases h
        exact .inr ⟨rfl, .tail _ (.head _)⟩
      | some object =>
        simp only at h
        split at h
        · exact .inl (failure?_boundMethod h).2
        · cases h
          exact .inr ⟨rfl, .tail _ (.tail _ (.head _))⟩

theorem Run.failure?_callHost {f : Native} {arguments : List Value} {line : Nat}
    (h : (callHost f arguments line m).failure? = some failure) :
    ∃ host message, m.hostFunctions[f.id]? = some host ∧ host arguments = .error message ∧
      failure = ⟨.native message, line⟩ := by
  rcases failure?_bind h with h | ⟨host?, after, hhost, h⟩
  · cases h
  cases hhost
  cases hhost : m.hostFunctions[f.id]? with
  | none =>
    simp only [hhost] at h
    cases h
  | some host =>
    simp only [hhost] at h
    cases hcall : host arguments with
    | ok value =>
      simp only [hcall] at h
      cases h
    | error message =>
      simp only [hcall] at h
      cases h
      exact ⟨host, message, rfl, hcall, rfl⟩

theorem Run.failure?_callResult {f : Function} {line : Nat} {completion : Completion}
    (h : (callResult f line completion m).failure? = some failure) :
    f.isInitializer = true ∧ f.closure.getAt? m.store 0 "this" = none ∧
      failure = ⟨.undefinedVariable "this", line⟩ := by
  unfold callResult at h
  split at h
  · next hinit =>
    cases hobject : f.closure.getAt? m.store 0 "this" with
    | some object =>
      simp only [bind_apply, Procedure.read, hobject] at h
      cases h
    | none =>
      simp only [bind_apply, Procedure.read, hobject] at h
      cases h
      exact ⟨hinit, rfl, rfl⟩
  · cases completion <;> cases h

theorem Run.failure?_write {text : String} {line : Nat}
    (h : (write text line m).failure? = some failure) :
    m.output.takes text = false ∧ failure = ⟨.outputClosed, line⟩ := by
  unfold write at h
  split at h
  · cases h
  · next hrefused =>
    cases h
    exact ⟨Bool.eq_false_iff.2 hrefused, rfl⟩

end Steps

namespace Configuration

/-- The task itself raises the failure; nothing that it starts does. -/
inductive Raises : Configuration → Failure → Prop where
  | unary {n m operator operand line a after fault} (ha : operand.evaluate n m = .ok a after)
      (h : operator.apply a = .error fault) :
      Raises ⟨n + 1, m, .expression (.unary operator operand line)⟩ ⟨fault, line⟩
  | binary {n m left operator right line a after b later fault} (ha : left.evaluate n m = .ok a after)
      (hb : right.evaluate n after = .ok b later) (h : operator.apply a b = .error fault) :
      Raises ⟨n + 1, m, .expression (.binary left operator right line)⟩ ⟨fault, line⟩
  | reference {n m target} (h : m.valueOf? target.id target.name.text = none) :
      Raises ⟨n + 1, m, .expression (.reference target)⟩
        ⟨.undefinedVariable target.name.text, target.name.line⟩
  | assign {n m target value a after} (ha : value.evaluate n m = .ok a after)
      (h : after.assignee? target.id target.name.text = none) :
      Raises ⟨n + 1, m, .expression (.assign target value)⟩
        ⟨.undefinedVariable target.name.text, target.name.line⟩
  | notCallable {n m callee arguments line c after values later}
      (hcallee : callee.evaluate n m = .ok c after)
      (harguments : evaluateAll n arguments after = .ok values later) (h : c.arity? = none) :
      Raises ⟨n + 1, m, .expression (.call callee arguments line)⟩ ⟨.notCallable, line⟩
  | arity {n m callee arguments line c after values later arity}
      (hcallee : callee.evaluate n m = .ok c after)
      (harguments : evaluateAll n arguments after = .ok values later) (harity : c.arity? = some arity)
      (h : values.length ≠ arity) :
      Raises ⟨n + 1, m, .expression (.call callee arguments line)⟩
        ⟨.arityMismatch arity values.length, line⟩
  | tooDeep {n m callee arguments line c after values later}
      (hcallee : callee.evaluate n m = .ok c after)
      (harguments : evaluateAll n arguments after = .ok values later)
      (harity : c.arity? = some values.length) (h : later.maxCallDepth ≤ later.callDepth) :
      Raises ⟨n + 1, m, .expression (.call callee arguments line)⟩ ⟨.stackOverflow, line⟩
  | property {n m object name found after} (hobject : object.evaluate n m = .ok (.ofInstance found) after)
      (hfield : after.fields.get? found.id name.text = none)
      (hmethod : found.ofClass.findMethod? name.text = none) :
      Raises ⟨n + 1, m, .expression (.get object name)⟩ ⟨.undefinedProperty name.text, name.line⟩
  | getOther {n m object name a after} (hobject : object.evaluate n m = .ok a after)
      (h : ∀ found, a ≠ .ofInstance found) :
      Raises ⟨n + 1, m, .expression (.get object name)⟩ ⟨.propertyOfNonInstance, name.line⟩
  | setOther {n m object name value a after} (hobject : object.evaluate n m = .ok a after)
      (h : ∀ found, a ≠ .ofInstance found) :
      Raises ⟨n + 1, m, .expression (.set object name value)⟩ ⟨.fieldOfNonInstance, name.line⟩
  | this {n m id line} (h : m.valueOf? id "this" = none) :
      Raises ⟨n + 1, m, .expression (.this id line)⟩ ⟨.undefinedVariable "this", line⟩
  | super {n m id line method failure} (h : (superMethod id line method m).failure? = some failure) :
      Raises ⟨n + 1, m, .expression (.super id line method)⟩ failure
  | native {n m f arguments line host message} (hhost : m.hostFunctions[f.id]? = some host)
      (h : host arguments = .error message) :
      Raises ⟨n + 1, m, .application (.native f) arguments line⟩ ⟨.native message, line⟩
  | notApplicable {n m callee arguments line} (h : callee.arity? = none) :
      Raises ⟨n + 1, m, .application callee arguments line⟩ ⟨.notCallable, line⟩
  | instanceLost {n m f arguments line completion after}
      (hbody : callBody n f arguments m = .ok completion after) (hinit : f.isInitializer = true)
      (h : f.closure.getAt? after.store 0 "this" = none) :
      Raises ⟨n + 1, m, .entry f arguments line⟩ ⟨.undefinedVariable "this", line⟩
  | print {n m e value after} (hvalue : e.evaluate n m = .ok value after)
      (h : after.output.takes value.display = false ∨
        (after.output.written value.display).takes "\n" = false) :
      Raises ⟨n + 1, m, .statement (.print e)⟩ ⟨.outputClosed, e.line?.getD 0⟩
  | superclass {n m name target methods value} (hvalue : m.valueOf? target.id target.name.text = some value)
      (h : ∀ c, value ≠ .ofClass c) :
      Raises ⟨n + 1, m, .statement (.classDef name (some target) methods)⟩
        ⟨.wrongType .superclassNotClass, target.name.line⟩

variable {n : Nat} {m : Machine} {failure : Failure}

/-- A task with a smaller bound that this one starts fails in the same way, or a part of this one raises
the failure. -/
def Traces (c : Configuration) (failure : Failure) : Prop :=
  (∃ d, c.Starts d ∧ d.bound < c.bound ∧ d.failure? = some failure) ∨
    ∃ d, c.Reaches d ∧ d.Raises failure

theorem Starts.traces {c d : Configuration} (h : c.Starts d) (hlt : d.bound < c.bound)
    (hf : d.failure? = some failure) : c.Traces failure :=
  .inl ⟨d, h, hlt, hf⟩

theorem Raises.traces {c : Configuration} (h : c.Raises failure) : c.Traces failure := .inr ⟨c, .refl, h⟩

theorem Starts.not_program {c d : Configuration} (h : c.Starts d) (hlt : d.bound < c.bound) :
    ∀ statements, d.task ≠ .program statements := by
  cases h with
  | firstOfProgram | restOfProgram => exact absurd hlt (Nat.lt_irrefl _)
  | _ => exact nofun

/-- A call fails in its callee or its arguments, where the value is not called, or in the call. -/
theorem traces_call {callee : Expr} {arguments : List Expr} {line : Nat}
    (hf : ((Expr.call callee arguments line).evaluate (n + 1) m).failure? = some failure) :
    Traces ⟨n + 1, m, .expression (.call callee arguments line)⟩ failure := by
  have hlt : n < n + 1 := Nat.lt_succ_self n
  rw [Expr.evaluate] at hf
  rcases failure?_bind hf with hf | ⟨c, after, hc, hf⟩
  · exact Starts.callee.traces hlt hf
  rcases failure?_bind hf with hf | ⟨values, later, hvalues, hf⟩
  · exact (Starts.arguments hc).traces hlt hf
  cases harity : c.arity? with
  | none =>
    simp only [harity] at hf
    cases hf
    exact (Raises.notCallable hc hvalues harity).traces
  | some arity =>
    simp only [harity] at hf
    split at hf
    · next hlen =>
      subst hlen
      rw [asCall_apply] at hf
      split at hf
      · next hfull =>
        cases hf
        exact (Raises.tooDeep hc hvalues harity hfull).traces
      · next hroom =>
        rw [failure?_afterwards] at hf
        exact (Starts.call hc hvalues harity (Nat.lt_of_not_le hroom)).traces hlt hf
    · next hlen =>
      cases hf
      exact (Raises.arity hc hvalues harity hlen).traces

theorem traces_expression {e : Expr} (hf : (e.evaluate (n + 1) m).failure? = some failure) :
    Traces ⟨n + 1, m, .expression e⟩ failure := by
  have hlt : n < n + 1 := Nat.lt_succ_self n
  cases e with
  | literal => cases hf
  | grouping inner => exact Starts.inner.traces hlt hf
  | unary operator operand line =>
    rw [Expr.evaluate] at hf
    rcases failure?_bind hf with hf | ⟨a, after, ha, hf⟩
    · exact Starts.operand.traces hlt hf
    · obtain ⟨fault, hfault, rfl⟩ := failure?_located hf
      exact (Raises.unary ha hfault).traces
  | binary left operator right line =>
    rw [Expr.evaluate] at hf
    rcases failure?_bind hf with hf | ⟨a, after, ha, hf⟩
    · exact Starts.left.traces hlt hf
    rcases failure?_bind hf with hf | ⟨b, later, hb, hf⟩
    · exact (Starts.right ha).traces hlt hf
    · obtain ⟨fault, hfault, rfl⟩ := failure?_located hf
      exact (Raises.binary ha hb hfault).traces
  | logical left operator right =>
    rw [Expr.evaluate] at hf
    rcases failure?_bind hf with hf | ⟨a, after, ha, hf⟩
    · exact Starts.decider.traces hlt hf
    cases hdecides : operator.decides a with
    | true =>
      simp only [hdecides] at hf
      cases hf
    | false =>
      simp only [hdecides] at hf
      exact (Starts.undecided ha hdecides).traces hlt hf
  | reference target =>
    rw [Expr.evaluate] at hf
    obtain ⟨hnone, rfl⟩ := failure?_valueOf hf
    exact (Raises.reference hnone).traces
  | assign target value =>
    rw [Expr.evaluate] at hf
    rcases failure?_bind hf with hf | ⟨a, after, ha, hf⟩
    · exact Starts.assigned.traces hlt hf
    rcases failure?_bind hf with hf | ⟨_, later, -, hf⟩
    · obtain ⟨hnone, rfl⟩ := failure?_assign hf
      exact (Raises.assign ha hnone).traces
    · cases hf
  | call callee arguments line => exact traces_call hf
  | get object name =>
    rw [Expr.evaluate] at hf
    rcases failure?_bind hf with hf | ⟨a, after, ha, hf⟩
    · exact Starts.getObject.traces hlt hf
    split at hf
    · obtain ⟨hfield, hmethod, rfl⟩ := failure?_property hf
      exact (Raises.property ha hfield hmethod).traces
    · next hother =>
      cases hf
      exact (Raises.getOther ha hother).traces
  | set object name value =>
    rw [Expr.evaluate] at hf
    rcases failure?_bind hf with hf | ⟨a, after, ha, hf⟩
    · exact Starts.setObject.traces hlt hf
    split at hf
    · rcases failure?_bind hf with hf | ⟨b, later, -, hf⟩
      · exact (Starts.setValue ha).traces hlt hf
      · cases hf
    · next hother =>
      cases hf
      exact (Raises.setOther ha hother).traces
  | this id line =>
    rw [Expr.evaluate] at hf
    obtain ⟨hnone, rfl⟩ := failure?_valueOf hf
    exact (Raises.this hnone).traces
  | super id line method =>
    rw [Expr.evaluate] at hf
    exact (Raises.super hf).traces

theorem traces_arguments {es : List Expr} (hf : (evaluateAll (n + 1) es m).failure? = some failure) :
    Traces ⟨n + 1, m, .arguments es⟩ failure := by
  have hlt : n < n + 1 := Nat.lt_succ_self n
  cases es with
  | nil => cases hf
  | cons e rest =>
    rw [evaluateAll] at hf
    rcases failure?_bind hf with hf | ⟨a, after, ha, hf⟩
    · exact Starts.firstArgument.traces hlt hf
    rcases failure?_bind hf with hf | ⟨values, later, -, hf⟩
    · exact (Starts.otherArguments ha).traces hlt hf
    · cases hf

theorem traces_application {callee : Value} {arguments : List Value} {line : Nat}
    (hf : (callee.apply (n + 1) arguments line m).failure? = some failure) :
    Traces ⟨n + 1, m, .application callee arguments line⟩ failure := by
  have hlt : n < n + 1 := Nat.lt_succ_self n
  cases callee with
  | native f =>
    rw [Value.apply] at hf
    obtain ⟨host, message, hhost, hcall, rfl⟩ := failure?_callHost hf
    exact (Raises.native hhost hcall).traces
  | function f =>
    rw [Value.apply] at hf
    exact Starts.function.traces hlt hf
  | ofClass c =>
    rw [Value.apply] at hf
    rcases failure?_bind hf with hf | ⟨object, after, hobject, hf⟩
    · exact (NeverFails.instantiate c).absurd hf
    cases hinit : c.initializer? with
    | none =>
      simp only [hinit] at hf
      cases hf
    | some f =>
      simp only [hinit] at hf
      rcases failure?_bind hf with hf | ⟨bound, later, hbound, hf⟩
      · exact (NeverFails.bindMethod f object).absurd hf
      rcases failure?_bind hf with hf | ⟨_, last, -, hf⟩
      · exact (Starts.initializer hobject hinit hbound).traces hlt hf
      · cases hf
  | _ =>
    cases hf
    exact (Raises.notApplicable rfl).traces

theorem traces_entry {f : Function} {arguments : List Value} {line : Nat}
    (hf : (f.enter (n + 1) arguments line m).failure? = some failure) :
    Traces ⟨n + 1, m, .entry f arguments line⟩ failure := by
  rw [Function.enter_succ] at hf
  rcases failure?_bind hf with hf | ⟨completion, after, hbody, hf⟩
  · rcases failure?_bind hf with hf | ⟨frame, after, hframe, hf⟩
    · exact (NeverFails.newScope _ _).absurd hf
    · rw [inEnvironment_apply, failure?_afterwards] at hf
      exact (Starts.functionBody hframe).traces (Nat.lt_succ_self n) hf
  · obtain ⟨hinit, hlost, rfl⟩ := failure?_callResult hf
    exact (Raises.instanceLost hbody hinit hlost).traces

theorem traces_print {e : Expr} (hf : ((Stmt.print e).execute (n + 1) m).failure? = some failure) :
    Traces ⟨n + 1, m, .statement (.print e)⟩ failure := by
  rw [Stmt.execute] at hf
  rcases failure?_bind hf with hf | ⟨value, after, hvalue, hf⟩
  · exact Starts.printed.traces (Nat.lt_succ_self n) hf
  rcases failure?_bind hf with hf | ⟨_, later, hwrite, hf⟩
  · obtain ⟨hrefused, rfl⟩ := failure?_write hf
    exact (Raises.print hvalue (.inl hrefused)).traces
  rcases failure?_bind hf with hf | ⟨_, last, -, hf⟩
  · obtain ⟨hrefused, rfl⟩ := failure?_write hf
    unfold write at hwrite
    split at hwrite
    · cases hwrite
      exact (Raises.print hvalue (.inr hrefused)).traces
    · cases hwrite
  · cases hf

theorem traces_classDef {name : Identifier} {superclass : Option Reference} {methods : List FunctionDef}
    (hf : ((Stmt.classDef name superclass methods).execute (n + 1) m).failure? = some failure) :
    Traces ⟨n + 1, m, .statement (.classDef name superclass methods)⟩ failure := by
  rw [Stmt.execute_classDef] at hf
  rcases failure?_bind hf with hf | ⟨c?, after, -, hf⟩
  · cases superclass with
    | none => cases hf
    | some target =>
      rcases failure?_bind hf with hf | ⟨value, after, hvalue, hf⟩
      · obtain ⟨hnone, rfl⟩ := failure?_valueOf hf
        exact .inr ⟨_, .single Starts.superclass, .reference hnone⟩
      · rw [valueOf_apply] at hvalue
        cases hfound : m.valueOf? target.id target.name.text with
        | none =>
          rw [hfound] at hvalue
          cases hvalue
        | some found =>
          rw [hfound] at hvalue
          cases hvalue
          split at hf
          · cases hf
          · next hother =>
            cases hf
            exact (Raises.superclass hfound hother).traces
  · have hnever : NeverFails (do
        define name.text .nil
        let closure ← methodClosure c?
        let id ← freshIdentity (methods.length + 1)
        define name.text (.ofClass ⟨id, name.text, c?, Machine.methodTable (id + 1) closure methods⟩)
        return Completion.normal) :=
      .bind (.update _) fun _ => .bind (.methodClosure c?) fun _ => .bind (.freshIdentity _) fun _ =>
        .bind (.update _) fun _ => .pure _
    exact hnever.absurd hf

theorem traces_statement {s : Stmt} (hf : (s.execute (n + 1) m).failure? = some failure) :
    Traces ⟨n + 1, m, .statement s⟩ failure := by
  have hlt : n < n + 1 := Nat.lt_succ_self n
  cases s with
  | expression value =>
    rw [Stmt.execute] at hf
    rcases failure?_bind hf with hf | ⟨a, after, -, hf⟩
    · exact Starts.expression.traces hlt hf
    · cases hf
  | print value => exact traces_print hf
  | var name initial =>
    rw [Stmt.execute_var] at hf
    rcases failure?_bind hf with hf | ⟨a, after, -, hf⟩
    · cases initial with
      | none => cases hf
      | some e => exact Starts.initial.traces hlt hf
    · cases hf
  | block body =>
    rw [Stmt.execute] at hf
    rcases failure?_bind hf with hf | ⟨env, after, henv, hf⟩
    · cases hf
    cases henv
    rcases failure?_bind hf with hf | ⟨frame, after, hframe, hf⟩
    · exact (NeverFails.newScope _ _).absurd hf
    · rw [inEnvironment_apply, failure?_afterwards] at hf
      exact (Starts.block hframe).traces hlt hf
  | conditional condition thenBranch elseBranch =>
    rw [Stmt.execute_conditional] at hf
    rcases failure?_bind hf with hf | ⟨a, after, ha, hf⟩
    · exact Starts.condition.traces hlt hf
    split at hf
    · next htrue => exact (Starts.thenBranch ha htrue).traces hlt hf
    · next hfalse =>
      cases elseBranch with
      | none => cases hf
      | some elseBranch => exact (Starts.elseBranch ha (Bool.eq_false_iff.2 hfalse)).traces hlt hf
  | whileLoop condition body =>
    rw [Stmt.execute] at hf
    exact Starts.whileLoop.traces hlt hf
  | function declaration => cases hf
  | ret line value =>
    rw [Stmt.execute_ret] at hf
    rcases failure?_bind hf with hf | ⟨a, after, -, hf⟩
    · cases value with
      | none => cases hf
      | some e => exact Starts.result.traces hlt hf
    · cases hf
  | classDef name superclass methods => exact traces_classDef hf

theorem traces_statements {body : List Stmt} (hf : (executeAll (n + 1) body m).failure? = some failure) :
    Traces ⟨n + 1, m, .statements body⟩ failure := by
  have hlt : n < n + 1 := Nat.lt_succ_self n
  cases body with
  | nil => cases hf
  | cons s rest =>
    rw [executeAll] at hf
    rcases failure?_bind hf with hf | ⟨completion, after, hs, hf⟩
    · exact Starts.firstStatement.traces hlt hf
    cases completion with
    | returned value => cases hf
    | normal => exact (Starts.otherStatements hs).traces hlt hf

theorem traces_loop {condition : Expr} {body : Stmt}
    (hf : (repeatWhile (n + 1) condition body m).failure? = some failure) :
    Traces ⟨n + 1, m, .loop condition body⟩ failure := by
  have hlt : n < n + 1 := Nat.lt_succ_self n
  rw [repeatWhile] at hf
  rcases failure?_bind hf with hf | ⟨a, after, ha, hf⟩
  · exact Starts.loopCondition.traces hlt hf
  split at hf
  · next htrue =>
    rcases failure?_bind hf with hf | ⟨completion, later, hbody, hf⟩
    · exact (Starts.loopBody ha htrue).traces hlt hf
    cases completion with
    | returned value => cases hf
    | normal => exact (Starts.nextRound ha htrue hbody).traces hlt hf
  · cases hf

theorem traces {c : Configuration} (hf : c.failure? = some failure)
    (hprogram : ∀ statements, c.task ≠ .program statements) : c.Traces failure := by
  obtain ⟨n, m, task⟩ := c
  cases n with
  | zero =>
    cases task with
    | program statements => exact absurd rfl (hprogram statements)
    | _ => cases hf
  | succ n =>
    cases task with
    | expression e => exact traces_expression hf
    | arguments es => exact traces_arguments hf
    | application callee arguments line => exact traces_application hf
    | entry f arguments line => exact traces_entry hf
    | statement s => exact traces_statement hf
    | statements body => exact traces_statements hf
    | loop condition body => exact traces_loop hf
    | program statements => exact absurd rfl (hprogram statements)

theorem exists_origin_of_task {c : Configuration} (hf : c.failure? = some failure)
    (hprogram : ∀ statements, c.task ≠ .program statements) : ∃ d, c.Reaches d ∧ d.Raises failure := by
  -- What a task starts has a smaller bound, except for the statements of a program.
  generalize hn : c.bound = n
  induction n using Nat.strongRecOn generalizing c with
  | ind n ih =>
    rcases traces hf hprogram with ⟨d, hstep, hlt, hd⟩ | hraised
    · obtain ⟨e, hreach, hraised⟩ := ih d.bound (hn ▸ hlt) hd (hstep.not_program hlt) rfl
      exact ⟨e, .head hstep hreach, hraised⟩
    · exact hraised

theorem exists_origin_of_program {statements : List Stmt}
    (hf : (runProgram n statements m).failure? = some failure) :
    ∃ d, Reaches ⟨n, m, .program statements⟩ d ∧ d.Raises failure := by
  induction statements generalizing m with
  | nil => cases hf
  | cons s rest ih =>
    rw [runProgram] at hf
    rcases failure?_bind hf with hf | ⟨completion, after, hs, hf⟩
    · obtain ⟨d, hreach, hraised⟩ := exists_origin_of_task (c := ⟨n, m, .statement s⟩) hf nofun
      exact ⟨d, .head .firstOfProgram hreach, hraised⟩
    · obtain ⟨d, hreach, hraised⟩ := ih hf
      exact ⟨d, .head (.restOfProgram hs) hreach, hraised⟩

/-- A task that fails reaches one that raises the failure. -/
theorem exists_origin {c : Configuration} (hf : c.failure? = some failure) :
    ∃ d, c.Reaches d ∧ d.Raises failure := by
  obtain ⟨n, m, task⟩ := c
  cases task with
  | program statements => exact exists_origin_of_program hf
  | _ => exact exists_origin_of_task hf nofun

end Configuration

end Lox
