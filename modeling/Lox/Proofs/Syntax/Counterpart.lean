import Mathlib.Logic.Function.Basic
import Lox.Proofs.Resolution.Placement
import Lox.Proofs.Syntax.Likeness

/-!
# Counterparts

Trees that run alike. Their nodes and lines stand for each other, and a local variable may have
another name in the one tree than in the other, in every scope by a rule of its own. A name that is
looked up changes by the rule of the scope that resolution found for it; a global name stays.

## Implementation notes

What is known of a scope is its `Frame`. Besides the change of names it holds names that are bound for
certain when the code runs: a variable that is read under another name has to be there, for the message
about an undefined variable would show its name.
-/

namespace Lox

/-- A change of the names of one scope. `this` and `super` keep theirs. -/
structure Renaming where
  apply : String → String
  injective : Function.Injective apply
  this : apply "this" = "this"
  super : apply "super" = "super"

/-- No name changes. -/
def Renaming.refl : Renaming := ⟨id, Function.injective_id, rfl, rfl⟩

/-- What is known of a scope: how its names change, and some of the names that it binds. -/
structure Frame where
  renames : Renaming
  bound : List String

/-- A scope of which nothing is known, and whose names stay. -/
def Frame.plain : Frame := ⟨.refl, []⟩

/-- The scope when it binds one name more. -/
def Frame.declare (frame : Frame) (name : String) : Frame := { frame with bound := name :: frame.bound }

/-- The same scope, of which at least as much is known. -/
structure Frame.Le (a b : Frame) : Prop where
  renames : b.renames = a.renames
  bound : a.bound ⊆ b.bound

theorem Frame.Le.refl (a : Frame) : a.Le a := ⟨rfl, fun _ h => h⟩

theorem Frame.Le.trans {a b c : Frame} (h : a.Le b) (k : b.Le c) : a.Le c :=
  ⟨k.renames.trans h.renames, fun _ hname => k.bound (h.bound hname)⟩

/-- The scopes around a place, from the inside out. -/
abbrev Frames := List Frame

namespace Frames

/-- The scope that a name is resolved to, if it is a local one that is known. -/
def at? (frames : Frames) (depth? : Option Nat) : Option Frame := depth?.bind (frames[·]?)

/-- The counterpart of a name that is resolved to this depth. -/
def rename (frames : Frames) (depth? : Option Nat) (name : String) : String :=
  match frames.at? depth? with
  | some frame => frame.renames.apply name
  | none => name

/-- The counterpart of a name that is declared in the innermost scope. -/
def renameDeclared (frames : Frames) (name : String) : String := frames.rename (some 0) name

/-- A name that is read, and its counterpart, which is bound if it is another name. -/
structure Reads (frames : Frames) (depth? : Option Nat) (name other : String) : Prop where
  rename : other = frames.rename depth? name
  bound : other ≠ name → ∃ frame, frames.at? depth? = some frame ∧ name ∈ frame.bound

/-- The scopes after a declaration in the innermost one. -/
def declare : Frames → String → Frames
  | [], _ => []
  | frame :: outer, name => frame.declare name :: outer

/-- The scopes after a statement. -/
def after (frames : Frames) (s : Stmt) : Frames :=
  match s.declared? with
  | some name => frames.declare name
  | none => frames

theorem renameDeclared_declare (frames : Frames) (name other : String) :
    (frames.declare name).renameDeclared other = frames.renameDeclared other := by
  cases frames <;> rfl

/-- `this` keeps its name. -/
theorem reads_this (frames : Frames) (depth? : Option Nat) :
    frames.Reads depth? "this" "this" := by
  refine ⟨?_, fun hne => absurd rfl hne⟩
  unfold rename
  split
  · next frame _ => exact frame.renames.this.symm
  · rfl

/-- The scopes that the methods of a class close over: one for `super` if it inherits. -/
def ofMethods (frames : Frames) : Option Reference → Frames
  | some _ => .plain :: frames
  | none => frames

end Frames

/-- Which nodes and lines stand for each other, and the depths recorded for the nodes. Line 0 is where
something is reported that has no line. -/
structure Correspondence extends Likeness where
  depth : NodeId → Option Nat
  zero : line 0 0

/-- A correspondence with more nodes, for which the same depths are recorded. -/
structure Correspondence.Le (r s : Correspondence) : Prop where
  node {i j} (h : r.node i j) : s.node i j
  depth {i j} (h : r.node i j) : s.depth i = r.depth i
  line {k l} (h : r.line k l) : s.line k l

structure Reference.Counterpart (r : Correspondence) (frames : Frames) (s t : Reference) : Prop where
  node : r.node s.id t.id
  line : r.line s.name.line t.name.line
  reads : frames.Reads (r.depth s.id) s.name.text t.name.text

inductive Expr.Counterpart (r : Correspondence) (frames : Frames) : Expr → Expr → Prop where
  | literal (value : Literal) : Counterpart r frames (.literal value) (.literal value)
  | unary {operator a b k l} (operand : Counterpart r frames a b) (line : r.line k l) :
      Counterpart r frames (.unary operator a k) (.unary operator b l)
  | binary {operator a b c d k l} (left : Counterpart r frames a b)
      (right : Counterpart r frames c d) (line : r.line k l) :
      Counterpart r frames (.binary a operator c k) (.binary b operator d l)
  | logical {operator a b c d} (left : Counterpart r frames a b)
      (right : Counterpart r frames c d) :
      Counterpart r frames (.logical a operator c) (.logical b operator d)
  | grouping {a b} (inner : Counterpart r frames a b) :
      Counterpart r frames (.grouping a) (.grouping b)
  | reference {s t} (target : s.Counterpart r frames t) :
      Counterpart r frames (.reference s) (.reference t)
  | assign {s t a b} (node : r.node s.id t.id) (line : r.line s.name.line t.name.line)
      (name : t.name.text = frames.rename (r.depth s.id) s.name.text)
      (value : Counterpart r frames a b) : Counterpart r frames (.assign s a) (.assign t b)
  | call {a b as bs k l} (callee : Counterpart r frames a b)
      (arguments : List.Forall₂ (Counterpart r frames) as bs) (line : r.line k l) :
      Counterpart r frames (.call a as k) (.call b bs l)
  | get {a b x y} (object : Counterpart r frames a b) (name : x.Alike r.toLikeness y) :
      Counterpart r frames (.get a x) (.get b y)
  | set {a b x y c d} (object : Counterpart r frames a b) (name : x.Alike r.toLikeness y)
      (value : Counterpart r frames c d) : Counterpart r frames (.set a x c) (.set b y d)
  | this {i j k l} (node : r.node i j) (line : r.line k l) :
      Counterpart r frames (.this i k) (.this j l)
  | super {i j k l x y} (node : r.node i j) (line : r.line k l) (method : x.Alike r.toLikeness y) :
      Counterpart r frames (.super i k x) (.super j l y)

mutual

/-- Functions with the scopes around them. Parameters and body share a scope. -/
inductive FunctionDef.Counterpart (r : Correspondence) : Frames → FunctionDef → FunctionDef → Prop where
  | intro {frames x y xs ys as bs} (renames : Renaming) (name : x.text = y.text)
      (params : ys.map Identifier.text = (xs.map Identifier.text).map renames.apply)
      (body : Stmt.BodyCounterpart r (⟨renames, xs.map Identifier.text⟩ :: frames) as bs) :
      FunctionDef.Counterpart r frames ⟨x, xs, as⟩ ⟨y, ys, bs⟩

inductive FunctionDef.AllCounterpart (r : Correspondence) :
    Frames → List FunctionDef → List FunctionDef → Prop where
  | nil {frames} : FunctionDef.AllCounterpart r frames [] []
  | cons {frames f g fs gs} (first : FunctionDef.Counterpart r frames f g)
      (rest : FunctionDef.AllCounterpart r frames fs gs) :
      FunctionDef.AllCounterpart r frames (f :: fs) (g :: gs)

/-- Statements with the scopes around them. A block may choose how the names of its scope change. -/
inductive Stmt.Counterpart (r : Correspondence) : Frames → Stmt → Stmt → Prop where
  | expression {frames a b} (value : a.Counterpart r frames b) :
      Stmt.Counterpart r frames (.expression a) (.expression b)
  | print {frames a b} (value : a.Counterpart r frames b) :
      Stmt.Counterpart r frames (.print a) (.print b)
  | var {frames x y a b} (name : y.text = frames.renameDeclared x.text)
      (initial : Option.Rel (Expr.Counterpart r frames) a b) :
      Stmt.Counterpart r frames (.var x a) (.var y b)
  | block {frames as bs} (renames : Renaming)
      (body : Stmt.BodyCounterpart r (⟨renames, []⟩ :: frames) as bs) :
      Stmt.Counterpart r frames (.block as) (.block bs)
  | ifThen {frames c d a b} (condition : c.Counterpart r frames d)
      (thenBranch : Stmt.Counterpart r frames a b) :
      Stmt.Counterpart r frames (.conditional c a none) (.conditional d b none)
  | ifThenElse {frames c d a b e f} (condition : c.Counterpart r frames d)
      (thenBranch : Stmt.Counterpart r frames a b) (elseBranch : Stmt.Counterpart r frames e f) :
      Stmt.Counterpart r frames (.conditional c a (some e)) (.conditional d b (some f))
  | whileLoop {frames c d a b} (condition : c.Counterpart r frames d)
      (body : Stmt.Counterpart r frames a b) :
      Stmt.Counterpart r frames (.whileLoop c a) (.whileLoop d b)
  | function {frames f g} (name : f.name.text = frames.renameDeclared f.name.text)
      (declaration : FunctionDef.Counterpart r (frames.declare f.name.text) f g) :
      Stmt.Counterpart r frames (.function f) (.function g)
  | ret {frames k l a b} (value : Option.Rel (Expr.Counterpart r frames) a b) :
      Stmt.Counterpart r frames (.ret k a) (.ret l b)
  | classDef {frames x y s t fs gs} (name : x.text = y.text)
      (declared : x.text = frames.renameDeclared x.text)
      (superclass : Option.Rel (Reference.Counterpart r frames) s t)
      (methods : FunctionDef.AllCounterpart r (.plain :: (frames.declare x.text).ofMethods s) fs gs) :
      Stmt.Counterpart r frames (.classDef x s fs) (.classDef y t gs)

/-- Statements in a row. Each declares a name for those after it. -/
inductive Stmt.BodyCounterpart (r : Correspondence) : Frames → List Stmt → List Stmt → Prop where
  | nil {frames} : Stmt.BodyCounterpart r frames [] []
  | cons {frames a b as bs} (first : Stmt.Counterpart r frames a b)
      (rest : Stmt.BodyCounterpart r (frames.after a) as bs) :
      Stmt.BodyCounterpart r frames (a :: as) (b :: bs)

end

namespace FunctionDef.Counterpart

variable {r : Correspondence} {frames : Frames} {f g : FunctionDef}

theorem name (h : f.Counterpart r frames g) : f.name.text = g.name.text := by
  cases h with
  | intro _ hn => exact hn

theorem length_params (h : f.Counterpart r frames g) : f.params.length = g.params.length := by
  cases h with
  | intro _ _ hp => simpa using (congrArg List.length hp).symm

end FunctionDef.Counterpart

theorem FunctionDef.AllCounterpart.forall₂ {r : Correspondence} {frames : Frames}
    {fs gs : List FunctionDef} (h : FunctionDef.AllCounterpart r frames fs gs) :
    List.Forall₂ (FunctionDef.Counterpart r frames) fs gs := by
  induction fs generalizing gs with
  | nil =>
    cases h
    exact .nil
  | cons f fs ih => cases h with | cons hfirst hrest => exact .cons hfirst (ih hrest)

/-- An expression without a line counts as one on line 0. -/
theorem Expr.Counterpart.line {r : Correspondence} {frames : Frames} {a b : Expr}
    (h : a.Counterpart r frames b) : r.line (a.line?.getD 0) (b.line?.getD 0) := by
  match h with
  | .literal _ => exact r.zero
  | .unary _ hl | .binary _ _ hl | .assign _ hl _ _ | .call _ _ hl | .this _ hl | .super _ hl _ =>
    exact hl
  | .logical hleft _ => exact hleft.line
  | .grouping hinner => exact hinner.line
  | .reference ht => exact ht.line
  | .get _ hn | .set _ hn _ => exact hn.line

/-! ### More nodes -/

section Mono

variable {r s : Correspondence}

theorem Identifier.Alike.mono (hrs : r.Le s) {x y : Identifier} (h : x.Alike r.toLikeness y) :
    x.Alike s.toLikeness y := ⟨h.text, hrs.line h.line⟩

theorem Reference.Counterpart.mono (hrs : r.Le s) {frames : Frames} {t u : Reference}
    (h : t.Counterpart r frames u) : t.Counterpart s frames u :=
  ⟨hrs.node h.node, hrs.line h.line, (hrs.depth h.node).symm ▸ h.reads⟩

mutual

theorem Expr.Counterpart.mono (hrs : r.Le s) {frames : Frames} {a b : Expr}
    (h : a.Counterpart r frames b) : a.Counterpart s frames b := by
  cases h with
  | literal value => exact .literal value
  | unary h hl => exact .unary (h.mono hrs) (hrs.line hl)
  | binary ha hb hl => exact .binary (ha.mono hrs) (hb.mono hrs) (hrs.line hl)
  | logical ha hb => exact .logical (ha.mono hrs) (hb.mono hrs)
  | grouping h => exact .grouping (h.mono hrs)
  | reference ht => exact .reference (ht.mono hrs)
  | assign hn hl ht h =>
    exact .assign (hrs.node hn) (hrs.line hl) ((hrs.depth hn).symm ▸ ht) (h.mono hrs)
  | call hc hes hl => exact .call (hc.mono hrs) (Expr.all_counterpart_mono hrs hes) (hrs.line hl)
  | get h hn => exact .get (h.mono hrs) (hn.mono hrs)
  | set ha hn hb => exact .set (ha.mono hrs) (hn.mono hrs) (hb.mono hrs)
  | this hn hl => exact .this (hrs.node hn) (hrs.line hl)
  | super hn hl hm => exact .super (hrs.node hn) (hrs.line hl) (hm.mono hrs)

theorem Expr.all_counterpart_mono (hrs : r.Le s) {frames : Frames} {as bs : List Expr}
    (h : List.Forall₂ (Expr.Counterpart r frames) as bs) :
    List.Forall₂ (Expr.Counterpart s frames) as bs := by
  cases h with
  | nil => exact .nil
  | cons ha has => exact .cons (ha.mono hrs) (Expr.all_counterpart_mono hrs has)

end

theorem Expr.option_counterpart_mono (hrs : r.Le s) {frames : Frames} {a b : Option Expr}
    (h : Option.Rel (Expr.Counterpart r frames) a b) :
    Option.Rel (Expr.Counterpart s frames) a b := by
  cases h with
  | none => exact .none
  | some h => exact .some (h.mono hrs)

mutual

/-- Counterparts stay so when more nodes stand for each other. -/
theorem Stmt.Counterpart.mono (hrs : r.Le s) {frames : Frames} {a b : Stmt}
    (h : a.Counterpart r frames b) : a.Counterpart s frames b := by
  cases h with
  | expression h => exact .expression (h.mono hrs)
  | print h => exact .print (h.mono hrs)
  | var hn h => exact .var hn (Expr.option_counterpart_mono hrs h)
  | block renames h => exact .block renames (h.mono hrs)
  | ifThen hc ht => exact .ifThen (hc.mono hrs) (ht.mono hrs)
  | ifThenElse hc ht he => exact .ifThenElse (hc.mono hrs) (ht.mono hrs) (he.mono hrs)
  | whileLoop hc h => exact .whileLoop (hc.mono hrs) (h.mono hrs)
  | function hn hf => exact .function hn (hf.mono hrs)
  | ret h => exact .ret (Expr.option_counterpart_mono hrs h)
  | classDef hn hd ht hm =>
    refine .classDef hn hd ?_ (hm.mono hrs)
    cases ht with
    | none => exact .none
    | some ht => exact .some (ht.mono hrs)

theorem Stmt.BodyCounterpart.mono (hrs : r.Le s) {frames : Frames} {as bs : List Stmt}
    (h : Stmt.BodyCounterpart r frames as bs) : Stmt.BodyCounterpart s frames as bs := by
  cases h with
  | nil => exact .nil
  | cons ha has => exact .cons (ha.mono hrs) (has.mono hrs)

theorem FunctionDef.Counterpart.mono (hrs : r.Le s) {frames : Frames} {f g : FunctionDef}
    (h : f.Counterpart r frames g) : f.Counterpart s frames g := by
  cases h with
  | intro renames hn hp hb => exact .intro renames hn hp (hb.mono hrs)

theorem FunctionDef.AllCounterpart.mono (hrs : r.Le s) {frames : Frames} {fs gs : List FunctionDef}
    (h : FunctionDef.AllCounterpart r frames fs gs) : FunctionDef.AllCounterpart s frames fs gs := by
  cases h with
  | nil => exact .nil
  | cons hf hfs => exact .cons (hf.mono hrs) (hfs.mono hrs)

end

end Mono

end Lox
