import Lox.Proofs.Resolution.Counterparts

/-!
# Respelled programs

A program in which a local name `x` is spelled `y`. Of every scope a mark says whether the `x` of that
scope is respelled: the variable or the parameter, and all that refers to it. A class or a function may not
be what is called `x` there. Nothing that can be referred to is called `y` before.

## Implementation notes

The marks of the scopes around a place go with their names. What a name refers to is found as resolution
finds it, in the innermost scope that has the name so far. Numbers of nodes do not matter.
-/

namespace Lox

/-- The spelling of a name in a scope. -/
def respell (x y : String) (mark : Bool) (name : String) : String :=
  if mark ∧ name = x then y else name

/-- The mark of the scope that a name refers to. -/
def ScopeNames.mark (names : ScopeNames) (marks : List Bool) (name : String) : Bool :=
  ((names.depth? name).bind (marks[·]?)).getD false

structure Identifier.Respelled (x y : String) (mark : Bool) (a b : Identifier) : Prop where
  fresh : a.text ≠ y
  text : b.text = respell x y mark a.text
  line : b.line = a.line

abbrev Reference.Respelled (x y : String) (names : ScopeNames) (marks : List Bool) (s t : Reference) :
    Prop :=
  s.name.Respelled x y (names.mark marks s.name.text) t.name

mutual

inductive Expr.Respelled (x y : String) (names : ScopeNames) (marks : List Bool) : Expr → Expr → Prop where
  | literal (value : Literal) : Expr.Respelled x y names marks (.literal value) (.literal value)
  | unary {operator a b line} (operand : Expr.Respelled x y names marks a b) :
      Expr.Respelled x y names marks (.unary operator a line) (.unary operator b line)
  | binary {operator a b c d line} (left : Expr.Respelled x y names marks a b)
      (right : Expr.Respelled x y names marks c d) :
      Expr.Respelled x y names marks (.binary a operator c line) (.binary b operator d line)
  | logical {operator a b c d} (left : Expr.Respelled x y names marks a b)
      (right : Expr.Respelled x y names marks c d) :
      Expr.Respelled x y names marks (.logical a operator c) (.logical b operator d)
  | grouping {a b} (inner : Expr.Respelled x y names marks a b) :
      Expr.Respelled x y names marks (.grouping a) (.grouping b)
  | reference {s t} (target : s.Respelled x y names marks t) :
      Expr.Respelled x y names marks (.reference s) (.reference t)
  | assign {s t a b} (target : s.Respelled x y names marks t)
      (value : Expr.Respelled x y names marks a b) :
      Expr.Respelled x y names marks (.assign s a) (.assign t b)
  | call {a b as bs line} (callee : Expr.Respelled x y names marks a b)
      (arguments : Expr.AllRespelled x y names marks as bs) :
      Expr.Respelled x y names marks (.call a as line) (.call b bs line)
  | get {a b name} (object : Expr.Respelled x y names marks a b) :
      Expr.Respelled x y names marks (.get a name) (.get b name)
  | set {a b c d name} (object : Expr.Respelled x y names marks a b)
      (value : Expr.Respelled x y names marks c d) :
      Expr.Respelled x y names marks (.set a name c) (.set b name d)
  | this {i j line} : Expr.Respelled x y names marks (.this i line) (.this j line)
  | super {i j line method} :
      Expr.Respelled x y names marks (.super i line method) (.super j line method)

inductive Expr.AllRespelled (x y : String) (names : ScopeNames) (marks : List Bool) :
    List Expr → List Expr → Prop where
  | nil : Expr.AllRespelled x y names marks [] []
  | cons {a b as bs} (first : Expr.Respelled x y names marks a b)
      (rest : Expr.AllRespelled x y names marks as bs) :
      Expr.AllRespelled x y names marks (a :: as) (b :: bs)

end

mutual

/-- The name of a function is declared outside of it. Its parameters and its body share a scope. -/
inductive FunctionDef.Respelled (x y : String) :
    ScopeNames → List Bool → FunctionDef → FunctionDef → Prop where
  | intro {names marks name xs ys as bs} (mark : Bool)
      (params : List.Forall₂ (Identifier.Respelled x y mark) xs ys)
      (body : Stmt.BodyRespelled x y ((xs.map Identifier.text).reverse :: names) (mark :: marks) as bs) :
      FunctionDef.Respelled x y names marks ⟨name, xs, as⟩ ⟨name, ys, bs⟩

inductive FunctionDef.AllRespelled (x y : String) :
    ScopeNames → List Bool → List FunctionDef → List FunctionDef → Prop where
  | nil {names marks} : FunctionDef.AllRespelled x y names marks [] []
  | cons {names marks f g fs gs} (first : FunctionDef.Respelled x y names marks f g)
      (rest : FunctionDef.AllRespelled x y names marks fs gs) :
      FunctionDef.AllRespelled x y names marks (f :: fs) (g :: gs)

inductive Stmt.Respelled (x y : String) : ScopeNames → List Bool → Stmt → Stmt → Prop where
  | expression {names marks a b} (value : a.Respelled x y names marks b) :
      Stmt.Respelled x y names marks (.expression a) (.expression b)
  | print {names marks a b} (value : a.Respelled x y names marks b) :
      Stmt.Respelled x y names marks (.print a) (.print b)
  | var {names marks v w a b} (name : Identifier.Respelled x y (marks.headD false) v w)
      (initial : Option.Rel (Expr.Respelled x y (names.declare v.text) marks) a b) :
      Stmt.Respelled x y names marks (.var v a) (.var w b)
  | block {names marks as bs} (mark : Bool)
      (body : Stmt.BodyRespelled x y ([] :: names) (mark :: marks) as bs) :
      Stmt.Respelled x y names marks (.block as) (.block bs)
  | ifThen {names marks c d a b} (condition : c.Respelled x y names marks d)
      (thenBranch : Stmt.Respelled x y names marks a b) :
      Stmt.Respelled x y names marks (.conditional c a none) (.conditional d b none)
  | ifThenElse {names marks c d a b e f} (condition : c.Respelled x y names marks d)
      (thenBranch : Stmt.Respelled x y names marks a b)
      (elseBranch : Stmt.Respelled x y names marks e f) :
      Stmt.Respelled x y names marks (.conditional c a (some e)) (.conditional d b (some f))
  | whileLoop {names marks c d a b} (condition : c.Respelled x y names marks d)
      (body : Stmt.Respelled x y names marks a b) :
      Stmt.Respelled x y names marks (.whileLoop c a) (.whileLoop d b)
  | function {names marks f g} (fresh : f.name.text ≠ y)
      (kept : marks.headD false = true → f.name.text ≠ x)
      (declaration : FunctionDef.Respelled x y (names.declare f.name.text) marks f g) :
      Stmt.Respelled x y names marks (.function f) (.function g)
  | ret {names marks line a b} (value : Option.Rel (Expr.Respelled x y names marks) a b) :
      Stmt.Respelled x y names marks (.ret line a) (.ret line b)
  | base {names marks name fs gs} (fresh : name.text ≠ y)
      (kept : marks.headD false = true → name.text ≠ x)
      (methods : FunctionDef.AllRespelled x y (["this"] :: names.declare name.text) (false :: marks)
        fs gs) :
      Stmt.Respelled x y names marks (.classDef name none fs) (.classDef name none gs)
  | derived {names marks name s t fs gs} (fresh : name.text ≠ y)
      (kept : marks.headD false = true → name.text ≠ x) (superclass : s.Respelled x y names marks t)
      (methods : FunctionDef.AllRespelled x y (["this"] :: ["super"] :: names.declare name.text)
        (false :: false :: marks) fs gs) :
      Stmt.Respelled x y names marks (.classDef name (some s) fs) (.classDef name (some t) gs)

/-- Statements in a row. Each declares a name for those after it. -/
inductive Stmt.BodyRespelled (x y : String) :
    ScopeNames → List Bool → List Stmt → List Stmt → Prop where
  | nil {names marks} : Stmt.BodyRespelled x y names marks [] []
  | cons {names marks a b as bs} (first : Stmt.Respelled x y names marks a b)
      (rest : Stmt.BodyRespelled x y (names.after a) marks as bs) :
      Stmt.BodyRespelled x y names marks (a :: as) (b :: bs)

end

section

variable {x y : String} {mark : Bool} {names : ScopeNames} {marks : List Bool}

/-- A name is respelled or not. -/
theorem respell_cases (x y : String) (mark : Bool) (name : String) :
    respell x y mark name = name ∨ name = x ∧ respell x y mark name = y := by
  unfold respell
  split
  · next h => exact .inr ⟨h.2, rfl⟩
  · exact .inl rfl

theorem eq_of_respell_ne {name : String} (h : respell x y mark name ≠ name) : mark = true ∧ name = x := by
  unfold respell at h
  split at h
  · next hmark => exact hmark
  · exact absurd rfl h

/-- Different names are respelled differently, whatever the marks. -/
theorem respell_injective {name other : String} (hn : name ≠ y) (ho : other ≠ y) {k m : Bool}
    (h : respell x y k name = respell x y m other) : name = other := by
  rcases respell_cases x y k name with hk | ⟨hname, hk⟩ <;>
    rcases respell_cases x y m other with hm | ⟨hother, hm⟩ <;> rw [hk, hm] at h
  · exact h
  · exact absurd h hn
  · exact absurd h.symm ho
  · exact hname.trans hother.symm

theorem Expr.AllRespelled.length_eq {as bs : List Expr} (h : Expr.AllRespelled x y names marks as bs) :
    as.length = bs.length :=
  match h with
  | .nil => rfl
  | .cons _ hrest => congrArg (· + 1) hrest.length_eq
termination_by structural h

theorem FunctionDef.Respelled.name_eq {f g : FunctionDef} (h : FunctionDef.Respelled x y names marks f g) :
    f.name = g.name := by
  cases h
  rfl

theorem respell_of_kept {mark : Bool} {name : String} (h : mark = true → name ≠ x) :
    respell x y mark name = name :=
  if_neg fun hmark => h hmark.1 hmark.2

theorem Identifier.map_text_respelled {mark : Bool} {xs ys : List Identifier}
    (h : List.Forall₂ (Identifier.Respelled x y mark) xs ys) :
    ys.map Identifier.text = (xs.map Identifier.text).map (respell x y mark) ∧
      y ∉ xs.map Identifier.text := by
  induction h with
  | nil => exact ⟨rfl, List.not_mem_nil⟩
  | @cons v w xs ys hname _ ih =>
    rw [List.map_cons, List.map_cons, List.map_cons, hname.text, ih.1]
    exact ⟨rfl, fun hmem => (List.mem_cons.1 hmem).elim (fun he => hname.fresh he.symm) ih.2⟩

theorem Stmt.Respelled.declared?_eq {a b : Stmt} (h : Stmt.Respelled x y names marks a b) :
    b.declared? = a.declared?.map (respell x y (marks.headD false)) := by
  cases h with
  | var hname => exact congrArg some hname.text
  | function _ hkept hf =>
    exact congrArg some ((congrArg Identifier.text hf.name_eq.symm).trans (respell_of_kept hkept).symm)
  | base _ hkept | derived _ hkept => exact congrArg some (respell_of_kept hkept).symm
  | _ => rfl

theorem Stmt.Respelled.fresh {a b : Stmt} (h : Stmt.Respelled x y names marks a b) :
    a.declared? ≠ some y := by
  cases h with
  | var hname => exact fun he => hname.fresh (Option.some.inj he)
  | function hfresh | base hfresh | derived hfresh => exact fun he => hfresh (Option.some.inj he)
  | _ => exact nofun

/-! ### Other numbers -/

theorem Identifier.Alike.eq {a b : Identifier} (h : a.Alike .upToNodes b) : a = b := by
  obtain ⟨text, line⟩ := a
  obtain ⟨rfl, rfl⟩ := h
  rfl

theorem Reference.Respelled.alike {s t u v : Reference} (h : s.Respelled x y names marks t)
    (hs : u.Alike .upToNodes s) (ht : v.Alike .upToNodes t) : u.Respelled x y names marks v := by
  unfold Reference.Respelled at h ⊢
  rwa [hs.name.eq, ht.name.eq]

mutual

/-- Trees that differ in numbers only are respelled alike. -/
theorem Expr.Respelled.alike {a b c d : Expr} (h : a.Respelled x y names marks b)
    (ha : c.Alike .upToNodes a) (hb : d.Alike .upToNodes b) : c.Respelled x y names marks d :=
  match h, ha, hb with
  | .literal value, .literal _, .literal _ => .literal value
  | .unary h, .unary ha rfl, .unary hb rfl => .unary (h.alike ha hb)
  | .binary h k, .binary ha hc rfl, .binary hb hd rfl => .binary (h.alike ha hb) (k.alike hc hd)
  | .logical h k, .logical ha hc, .logical hb hd => .logical (h.alike ha hb) (k.alike hc hd)
  | .grouping h, .grouping ha, .grouping hb => .grouping (h.alike ha hb)
  | .reference ht, .reference ha, .reference hb => .reference (Reference.Respelled.alike ht ha hb)
  | .assign ht h, .assign ha hc, .assign hb hd =>
    .assign (Reference.Respelled.alike ht ha hb) (h.alike hc hd)
  | .call h hes, .call ha hc rfl, .call hb hd rfl => .call (h.alike ha hb) (hes.alike hc hd)
  | .get h, .get ha hm, .get hb hn => by
    cases hm.eq
    cases hn.eq
    exact .get (h.alike ha hb)
  | .set h k, .set ha hm hc, .set hb hn hd => by
    cases hm.eq
    cases hn.eq
    exact .set (h.alike ha hb) (k.alike hc hd)
  | .this, .this _ rfl, .this _ rfl => .this
  | .super, .super _ rfl hm, .super _ rfl hn => by
    cases hm.eq
    cases hn.eq
    exact .super
termination_by structural h

theorem Expr.AllRespelled.alike {as bs cs ds : List Expr} (h : Expr.AllRespelled x y names marks as bs)
    (ha : List.Forall₂ (Expr.Alike .upToNodes) cs as)
    (hb : List.Forall₂ (Expr.Alike .upToNodes) ds bs) : Expr.AllRespelled x y names marks cs ds :=
  match h, ha, hb with
  | .nil, .nil, .nil => .nil
  | .cons h hes, .cons ha hc, .cons hb hd => .cons (h.alike ha hb) (hes.alike hc hd)
termination_by structural h

end

theorem Expr.option_respelled_alike {a b c d : Option Expr}
    (h : Option.Rel (Expr.Respelled x y names marks) a b)
    (ha : Option.Rel (Expr.Alike .upToNodes) c a) (hb : Option.Rel (Expr.Alike .upToNodes) d b) :
    Option.Rel (Expr.Respelled x y names marks) c d := by
  cases h with
  | none =>
    cases ha
    cases hb
    exact .none
  | some h =>
    cases ha with | some ha =>
    cases hb with | some hb =>
    exact .some (h.alike ha hb)

theorem Identifier.all_alike_eq {as bs : List Identifier}
    (h : List.Forall₂ (Identifier.Alike .upToNodes) as bs) : as = bs := by
  induction h with
  | nil => rfl
  | cons hn _ ih => rw [hn.eq, ih]

mutual

theorem Stmt.Respelled.alike {names : ScopeNames} {marks : List Bool} {a b c d : Stmt}
    (h : Stmt.Respelled x y names marks a b) (ha : c.Alike .upToNodes a)
    (hb : d.Alike .upToNodes b) : Stmt.Respelled x y names marks c d :=
  match h, ha, hb with
  | .expression h, .expression ha, .expression hb => .expression (h.alike ha hb)
  | .print h, .print ha, .print hb => .print (h.alike ha hb)
  | .var hn h, .var hm ha, .var hk hb => by
    cases hm.eq
    cases hk.eq
    exact .var hn (Expr.option_respelled_alike h ha hb)
  | .block mark h, .block ha, .block hb => .block mark (h.alike ha hb)
  | .ifThen h k, .conditional ha hc .none, .conditional hb hd .none =>
    .ifThen (h.alike ha hb) (k.alike hc hd)
  | .ifThenElse h k j, .conditional ha hc (.some he), .conditional hb hd (.some hf) =>
    .ifThenElse (h.alike ha hb) (k.alike hc hd) (j.alike he hf)
  | .whileLoop h k, .whileLoop ha hc, .whileLoop hb hd => .whileLoop (h.alike ha hb) (k.alike hc hd)
  | .function hn hk h, .function ha, .function hb => by
    have hdeclaration := h.alike ha hb
    rw [← ha.name.eq] at hn hk hdeclaration
    exact .function hn hk hdeclaration
  | .ret h, .ret rfl ha, .ret rfl hb => .ret (Expr.option_respelled_alike h ha hb)
  | .base hn hk h, .classDef hm .none ha, .classDef hl .none hb => by
    cases hm.eq
    cases hl.eq
    exact .base hn hk (h.alike ha hb)
  | .derived hn hk hs h, .classDef hm (.some hc) ha, .classDef hl (.some hd) hb => by
    cases hm.eq
    cases hl.eq
    exact .derived hn hk (Reference.Respelled.alike hs hc hd) (h.alike ha hb)
termination_by structural h

theorem Stmt.BodyRespelled.alike {names : ScopeNames} {marks : List Bool} {as bs cs ds : List Stmt}
    (h : Stmt.BodyRespelled x y names marks as bs) (ha : StmtsAlike .upToNodes cs as)
    (hb : StmtsAlike .upToNodes ds bs) : Stmt.BodyRespelled x y names marks cs ds :=
  match h, ha, hb with
  | .nil, .nil, .nil => .nil
  | .cons h hrest, .cons ha hc, .cons hb hd => by
    have hrest := hrest.alike hc hd
    rw [ScopeNames.after, ← ha.declared?_eq, ← ScopeNames.after] at hrest
    exact .cons (h.alike ha hb) hrest
termination_by structural h

theorem FunctionDef.Respelled.alike {names : ScopeNames} {marks : List Bool}
    {f g f' g' : FunctionDef} (h : FunctionDef.Respelled x y names marks f g)
    (ha : f'.Alike .upToNodes f) (hb : g'.Alike .upToNodes g) :
    FunctionDef.Respelled x y names marks f' g' :=
  match h, ha, hb with
  | .intro mark hp h, .intro hn hc ha, .intro hm hd hb => by
    cases hn.eq
    cases hm.eq
    cases Identifier.all_alike_eq hc
    cases Identifier.all_alike_eq hd
    exact .intro mark hp (h.alike ha hb)
termination_by structural h

theorem FunctionDef.AllRespelled.alike {names : ScopeNames} {marks : List Bool}
    {fs gs fs' gs' : List FunctionDef} (h : FunctionDef.AllRespelled x y names marks fs gs)
    (ha : List.Forall₂ (FunctionDef.Alike .upToNodes) fs' fs)
    (hb : List.Forall₂ (FunctionDef.Alike .upToNodes) gs' gs) :
    FunctionDef.AllRespelled x y names marks fs' gs' :=
  match h, ha, hb with
  | .nil, .nil, .nil => .nil
  | .cons h hrest, .cons ha hc, .cons hb hd => .cons (h.alike ha hb) (hrest.alike hc hd)
termination_by structural h

end

end

end Lox
