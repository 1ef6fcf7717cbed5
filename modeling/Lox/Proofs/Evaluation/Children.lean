import Lox.Proofs.Evaluation.CallDepth

/-!
# Parts of a run in order

`Configuration.Starts` says which tasks a task starts, `Configuration.children` in which order it does
so. Both have the same tasks.
-/

namespace Lox

open Run

/-- What comes after a part of a run that has ended normally. -/
def Outcome.next {σ ε α β : Type} (o : Outcome σ ε α) (f : α → σ → List β) : List β :=
  match o with
  | .ok a s => f a s
  | _ => []

theorem Outcome.mem_next {σ ε α β : Type} {o : Outcome σ ε α} {f : α → σ → List β} {b : β} :
    b ∈ o.next f ↔ ∃ a s, o = .ok a s ∧ b ∈ f a s := by
  cases o <;> simp [next]

/-- The tasks that the evaluation of an expression starts, in order. -/
def Expr.children (n : Nat) (m : Machine) : Expr → List Configuration
  | .literal _ | .reference _ | .this _ _ | .super _ _ _ => []
  | .grouping inner => [⟨n, m, .expression inner⟩]
  | .unary _ operand _ => [⟨n, m, .expression operand⟩]
  | .binary left _ right _ =>
    ⟨n, m, .expression left⟩ ::
      (left.evaluate n m).next fun _ after => [⟨n, after, .expression right⟩]
  | .logical left operator right =>
    ⟨n, m, .expression left⟩ :: (left.evaluate n m).next fun a after =>
      if operator.decides a then [] else [⟨n, after, .expression right⟩]
  | .assign _ value => [⟨n, m, .expression value⟩]
  | .call callee arguments line =>
    ⟨n, m, .expression callee⟩ :: (callee.evaluate n m).next fun c after =>
      ⟨n, after, .arguments arguments⟩ :: (evaluateAll n arguments after).next fun values later =>
        if c.arity? = some values.length ∧ later.callDepth < later.maxCallDepth then
          [⟨n, { later with callDepth := later.callDepth + 1 }, .application c values line⟩]
        else []
  | .get object _ => [⟨n, m, .expression object⟩]
  | .set object _ value =>
    ⟨n, m, .expression object⟩ :: (object.evaluate n m).next fun found after =>
      match found with
      | .ofInstance _ => [⟨n, after, .expression value⟩]
      | _ => []

/-- The tasks that the execution of a statement starts, in order. -/
def Stmt.children (n : Nat) (m : Machine) : Stmt → List Configuration
  | .expression value => [⟨n, m, .expression value⟩]
  | .print value => [⟨n, m, .expression value⟩]
  | .var _ none => []
  | .var _ (some value) => [⟨n, m, .expression value⟩]
  | .block body =>
    (newScope m.environment ∅ m).next fun frame after =>
      [⟨n, { after with environment := frame }, .statements body⟩]
  | .conditional condition thenBranch elseBranch =>
    ⟨n, m, .expression condition⟩ :: (condition.evaluate n m).next fun a after =>
      if a.isTruthy then [⟨n, after, .statement thenBranch⟩]
      else elseBranch.toList.map fun s => ⟨n, after, .statement s⟩
  | .whileLoop condition body => [⟨n, m, .loop condition body⟩]
  | .function _ => []
  | .ret _ none => []
  | .ret _ (some value) => [⟨n, m, .expression value⟩]
  | .classDef _ none _ => []
  | .classDef _ (some target) _ => [⟨n + 1, m, .expression (.reference target)⟩]

/-- The tasks that a call of a value starts. -/
def Value.children (n : Nat) (m : Machine) (arguments : List Value) (line : Nat) :
    Value → List Configuration
  | .function f => [⟨n, m, .entry f arguments line⟩]
  | .ofClass c =>
    (instantiate c m).next fun object after =>
      match c.initializer? with
      | some f => (Run.bind f object after).next fun bound later =>
        [⟨n, later, .entry bound arguments line⟩]
      | none => []
  | _ => []

namespace Configuration

/-- The tasks that a task starts, in order. -/
def children : Configuration → List Configuration
  | ⟨n + 1, m, .expression e⟩ => e.children n m
  | ⟨n + 1, m, .arguments (e :: rest)⟩ =>
    ⟨n, m, .expression e⟩ :: (e.evaluate n m).next fun _ after => [⟨n, after, .arguments rest⟩]
  | ⟨n + 1, m, .application callee arguments line⟩ => callee.children n m arguments line
  | ⟨n + 1, m, .entry f arguments _⟩ =>
    (newScope f.closure (.ofList (f.declaration.paramNames.zip arguments)) m).next fun frame after =>
      [⟨n, { after with environment := frame }, .statements f.declaration.body⟩]
  | ⟨n + 1, m, .statement s⟩ => s.children n m
  | ⟨n + 1, m, .statements (s :: rest)⟩ =>
    ⟨n, m, .statement s⟩ :: (s.execute n m).next fun completion after =>
      match completion with
      | .normal => [⟨n, after, .statements rest⟩]
      | .returned _ => []
  | ⟨n + 1, m, .loop condition body⟩ =>
    ⟨n, m, .expression condition⟩ :: (condition.evaluate n m).next fun a after =>
      if a.isTruthy then
        ⟨n, after, .statement body⟩ :: (body.execute n after).next fun completion later =>
          match completion with
          | .normal => [⟨n, later, .loop condition body⟩]
          | .returned _ => []
      else []
  | ⟨n, m, .program (s :: rest)⟩ =>
    ⟨n, m, .statement s⟩ :: (s.execute n m).next fun _ after => [⟨n, after, .program rest⟩]
  | _ => []

variable {c d : Configuration}

theorem Starts.mem_children (h : c.Starts d) : d ∈ c.children := by
  cases h with
  | initializer hobject hinit hbound =>
    simp [children, Value.children, Outcome.next, hobject, hinit, hbound]
  | _ => simp [children, Expr.children, Stmt.children, Value.children, Outcome.next, *]

theorem starts_of_mem_expression {n : Nat} {m : Machine} {e : Expr} (h : d ∈ e.children n m) :
    Starts ⟨n + 1, m, .expression e⟩ d := by
  cases e with
  | literal | reference | this | super => cases h
  | grouping inner =>
    obtain rfl := List.mem_singleton.1 h
    exact .inner
  | unary operator operand line =>
    obtain rfl := List.mem_singleton.1 h
    exact .operand
  | binary left operator right line =>
    rcases List.mem_cons.1 h with rfl | h
    · exact .left
    · obtain ⟨a, after, ho, h⟩ := Outcome.mem_next.1 h
      obtain rfl := List.mem_singleton.1 h
      exact .right ho
  | logical left operator right =>
    rcases List.mem_cons.1 h with rfl | h
    · exact .decider
    · obtain ⟨a, after, ho, h⟩ := Outcome.mem_next.1 h
      split at h
      · cases h
      · next hd =>
        obtain rfl := List.mem_singleton.1 h
        exact .undecided ho (Bool.eq_false_iff.2 hd)
  | assign target value =>
    obtain rfl := List.mem_singleton.1 h
    exact .assigned
  | call callee arguments line =>
    rcases List.mem_cons.1 h with rfl | h
    · exact .callee
    · obtain ⟨c, after, hcallee, h⟩ := Outcome.mem_next.1 h
      rcases List.mem_cons.1 h with rfl | h
      · exact .arguments hcallee
      · obtain ⟨values, later, harguments, h⟩ := Outcome.mem_next.1 h
        split at h
        · next hcall =>
          obtain rfl := List.mem_singleton.1 h
          exact .call hcallee harguments hcall.1 hcall.2
        · cases h
  | get object name =>
    obtain rfl := List.mem_singleton.1 h
    exact .getObject
  | set object name value =>
    rcases List.mem_cons.1 h with rfl | h
    · exact .setObject
    · obtain ⟨found, after, ho, h⟩ := Outcome.mem_next.1 h
      cases found with
      | ofInstance object =>
        obtain rfl := List.mem_singleton.1 h
        exact .setValue ho
      | _ => cases h

theorem starts_of_mem_statement {n : Nat} {m : Machine} {s : Stmt} (h : d ∈ s.children n m) :
    Starts ⟨n + 1, m, .statement s⟩ d := by
  match s with
  | .expression value =>
    obtain rfl := List.mem_singleton.1 h
    exact .expression
  | .print value =>
    obtain rfl := List.mem_singleton.1 h
    exact .printed
  | .var _ none | .function _ | .ret _ none | .classDef _ none _ => cases h
  | .var _ (some value) =>
    obtain rfl := List.mem_singleton.1 h
    exact .initial
  | .block body =>
    rw [Stmt.children] at h
    obtain ⟨frame, after, hframe, h⟩ := Outcome.mem_next.1 h
    obtain rfl := List.mem_singleton.1 h
    exact .block hframe
  | .conditional condition thenBranch elseBranch =>
    rcases List.mem_cons.1 h with rfl | h
    · exact .condition
    · obtain ⟨a, after, ho, h⟩ := Outcome.mem_next.1 h
      split at h
      · next ha =>
        obtain rfl := List.mem_singleton.1 h
        exact .thenBranch ho ha
      · next ha =>
        cases elseBranch with
        | none => cases h
        | some elseBranch =>
          obtain rfl := List.mem_singleton.1 h
          exact .elseBranch ho (Bool.eq_false_iff.2 ha)
  | .whileLoop condition body =>
    obtain rfl := List.mem_singleton.1 h
    exact .whileLoop
  | .ret _ (some value) =>
    obtain rfl := List.mem_singleton.1 h
    exact .result
  | .classDef _ (some target) _ =>
    obtain rfl := List.mem_singleton.1 h
    exact .superclass

theorem starts_of_mem_application {n : Nat} {m : Machine} {callee : Value} {arguments : List Value}
    {line : Nat} (h : d ∈ callee.children n m arguments line) :
    Starts ⟨n + 1, m, .application callee arguments line⟩ d := by
  cases callee with
  | function f =>
    obtain rfl := List.mem_singleton.1 h
    exact .function
  | ofClass c =>
    rw [Value.children] at h
    obtain ⟨object, after, hobject, h⟩ := Outcome.mem_next.1 h
    cases hinit : c.initializer? with
    | none =>
      rw [hinit] at h
      cases h
    | some f =>
      rw [hinit] at h
      obtain ⟨bound, later, hbound, h⟩ := Outcome.mem_next.1 h
      obtain rfl := List.mem_singleton.1 h
      exact .initializer hobject hinit hbound
  | _ => cases h

theorem starts_of_mem_children (h : d ∈ c.children) : c.Starts d := by
  obtain ⟨n, m, task⟩ := c
  match n, task with
  | n + 1, .expression e => exact starts_of_mem_expression h
  | n + 1, .arguments (e :: rest) =>
    rcases List.mem_cons.1 h with rfl | h
    · exact .firstArgument
    · obtain ⟨a, after, ho, h⟩ := Outcome.mem_next.1 h
      obtain rfl := List.mem_singleton.1 h
      exact .otherArguments ho
  | n + 1, .application callee arguments line => exact starts_of_mem_application h
  | n + 1, .entry f arguments line =>
    rw [children] at h
    obtain ⟨frame, after, hframe, h⟩ := Outcome.mem_next.1 h
    obtain rfl := List.mem_singleton.1 h
    exact .functionBody hframe
  | n + 1, .statement s => exact starts_of_mem_statement h
  | n + 1, .statements (s :: rest) =>
    rcases List.mem_cons.1 h with rfl | h
    · exact .firstStatement
    · obtain ⟨completion, after, ho, h⟩ := Outcome.mem_next.1 h
      cases completion with
      | normal =>
        obtain rfl := List.mem_singleton.1 h
        exact .otherStatements ho
      | returned value => cases h
  | n + 1, .loop condition body =>
    rcases List.mem_cons.1 h with rfl | h
    · exact .loopCondition
    · obtain ⟨a, after, hcondition, h⟩ := Outcome.mem_next.1 h
      split at h
      · next ha =>
        rcases List.mem_cons.1 h with rfl | h
        · exact .loopBody hcondition ha
        · obtain ⟨completion, later, hbody, h⟩ := Outcome.mem_next.1 h
          cases completion with
          | normal =>
            obtain rfl := List.mem_singleton.1 h
            exact .nextRound hcondition ha hbody
          | returned value => cases h
      · cases h
  | n, .program (s :: rest) =>
    rw [children] at h
    rcases List.mem_cons.1 h with rfl | h
    · exact .firstOfProgram
    · obtain ⟨completion, after, ho, h⟩ := Outcome.mem_next.1 h
      obtain rfl := List.mem_singleton.1 h
      exact .restOfProgram ho
  | 0, .expression _ | 0, .arguments _ | 0, .application _ _ _ | 0, .entry _ _ _ | 0, .statement _
  | 0, .statements _ | 0, .loop _ _ | _ + 1, .arguments [] | _ + 1, .statements []
  | 0, .program [] | _ + 1, .program [] => cases h

theorem mem_children_iff : d ∈ c.children ↔ c.Starts d :=
  ⟨starts_of_mem_children, Starts.mem_children⟩

/-- The task that is come to by these positions among the parts of tasks. -/
def descend? (c : Configuration) : List Nat → Option Configuration
  | [] => some c
  | i :: path => c.children[i]?.bind (·.descend? path)

theorem reaches_of_descend? {path : List Nat} (h : c.descend? path = some d) : c.Reaches d := by
  induction path generalizing c with
  | nil =>
    cases h
    exact .refl
  | cons i path ih =>
    obtain ⟨e, he, h⟩ := Option.bind_eq_some_iff.1 h
    exact .head (starts_of_mem_children (List.mem_of_getElem? he)) (ih h)

end Configuration

end Lox
