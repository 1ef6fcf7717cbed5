import Lox.Proofs.Resolution.Violations
import Lox.Proofs.Respelling

/-!
# A respelled program obeys the rules

Different names stay different when they are respelled. So a site of the respelled program breaks a rule
only where the site breaks it that it comes from.
-/

namespace Lox

variable {x y : String}

/-- A name that is not new, and its spelling in some scope. -/
def Spelled (x y name other : String) : Prop := name ≠ y ∧ ∃ mark, other = respell x y mark name

theorem Spelled.injective {name other a b : String} (h : Spelled x y name a) (k : Spelled x y other b)
    (hab : a = b) : name = other := by
  obtain ⟨hname, mark, rfl⟩ := h
  obtain ⟨hother, mark', rfl⟩ := k
  exact respell_injective hname hother hab

theorem Identifier.Respelled.spelled {mark : Bool} {a b : Identifier} (h : a.Respelled x y mark b) :
    Spelled x y a.text b.text := ⟨h.fresh, mark, h.text⟩

/-- A name that stays. -/
theorem Spelled.kept {name : String} (h : name ≠ y) : Spelled x y name name :=
  ⟨h, false, (if_neg fun hmark => Bool.noConfusion hmark.1).symm⟩

/-- A name is declared before where its spelling is. -/
theorem Spelled.mem {names others : List String} (h : List.Forall₂ (Spelled x y) names others)
    {name other : String} (hname : Spelled x y name other) (hmem : other ∈ others) : name ∈ names := by
  induction h with
  | nil => cases hmem
  | cons hfirst _ ih =>
    rcases List.mem_cons.1 hmem with he | hmem
    · exact List.mem_cons.2 (.inl (hname.injective hfirst he))
    · exact List.mem_cons_of_mem _ (ih hmem)

/-! ### Sites -/

inductive Layer.Respelled (x y : String) : Layer → Layer → Prop where
  | scope {names others} (h : List.Forall₂ (Spelled x y) names others) :
      Layer.Respelled x y (.scope names) (.scope others)
  | function (name : String) (role : FunctionRole) :
      Layer.Respelled x y (.function name role) (.function name role)
  | classBody (inherits : Bool) : Layer.Respelled x y (.classBody inherits) (.classBody inherits)
  | initial {name other} (h : Spelled x y name other) :
      Layer.Respelled x y (.initial name) (.initial other)

/-- The same constructs, with names respelled. -/
abbrev Surroundings.Respelled (x y : String) : Surroundings → Surroundings → Prop :=
  List.Forall₂ (Layer.Respelled x y)

inductive Act.Respelled (x y : String) : Act → Act → Prop where
  | declare {name other} (h : Spelled x y name other) : Act.Respelled x y (.declare name) (.declare other)
  | read {name other} (h : Spelled x y name other) : Act.Respelled x y (.read name) (.read other)
  | ret (hasValue : Bool) : Act.Respelled x y (.ret hasValue) (.ret hasValue)
  | this : Act.Respelled x y .this .this
  | super : Act.Respelled x y .super .super
  | inherit {name superclass other} (fresh : name ≠ y) (h : Spelled x y superclass other) :
      Act.Respelled x y (.inherit name superclass) (.inherit name other)

structure Site.Respelled (x y : String) (s t : Site) : Prop where
  act : s.act.Respelled x y t.act
  line : s.line = t.line
  around : s.around.Respelled x y t.around

/-- A construct that has no name of a variable. -/
def Layer.IsNameless : Layer → Prop
  | .function _ _ | .classBody _ => True
  | .scope _ | .initial _ => False

namespace Surroundings.Respelled

variable {around others inner outer : Surroundings} {layer : Layer}

theorem mem (h : around.Respelled x y others) (hlayer : layer.IsNameless) (hmem : layer ∈ around) :
    layer ∈ others := by
  induction h with
  | nil => exact hmem
  | cons hfirst _ ih =>
    rcases List.mem_cons.1 hmem with rfl | hmem
    · cases hfirst with
      | function | classBody => exact List.mem_cons_self
      | scope | initial => exact hlayer.elim
    · exact List.mem_cons_of_mem _ (ih hmem)

/-- Where a construct stands in the one list, it stands in the other. -/
theorem split (h : around.Respelled x y (inner ++ layer :: outer)) (hlayer : layer.IsNameless) :
    ∃ first last, around = first ++ layer :: last ∧ Surroundings.Respelled x y first inner := by
  induction inner generalizing around with
  | nil =>
    cases h with
    | cons hfirst _ =>
      cases hfirst with
      | function | classBody => exact ⟨[], _, rfl, .nil⟩
      | scope | initial => exact hlayer.elim
  | cons _ _ ih =>
    cases h with
    | cons hfirst hrest =>
      obtain ⟨first, last, rfl, hinner⟩ := ih hrest
      exact ⟨_ :: first, last, rfl, .cons hfirst hinner⟩

end Surroundings.Respelled

/-- A respelled site breaks no more rules than the site did. -/
theorem Site.Respelled.breaks {s t : Site} (h : s.Respelled x y t) {rule : ScopeFault}
    (hbreaks : t.Breaks rule) : s.Breaks rule := by
  obtain ⟨act, line, around⟩ := s
  obtain ⟨hact, hline, haround⟩ := h
  cases hbreaks with
  | alreadyDeclared hmem =>
    cases hact with | declare hname =>
    cases haround with | cons hscope _ =>
    cases hscope with | scope hnames =>
    exact .alreadyDeclared (Spelled.mem hnames hname hmem)
  | readInOwnInitializer =>
    cases hact with | read hname =>
    cases haround with | cons hinitial hrest =>
    cases hinitial with | initial hother =>
    cases hrest with | cons hscope _ =>
    cases hscope with | scope hnames =>
    obtain rfl := hname.injective hother rfl
    exact .readInOwnInitializer
  | returnOutsideFunction hnone =>
    cases hact
    exact .returnOutsideFunction fun name role hmem => hnone name role (haround.mem trivial hmem)
  | valueReturnedFromInitializer hnone =>
    cases hact
    obtain ⟨inner, outer, rfl, hinner⟩ := haround.split trivial
    exact .valueReturnedFromInitializer fun name role hmem => hnone name role (hinner.mem trivial hmem)
  | thisOutsideClass hnone =>
    cases hact
    exact .thisOutsideClass fun inherits hmem => hnone inherits (haround.mem trivial hmem)
  | superOutsideClass hnone =>
    cases hact
    exact .superOutsideClass fun inherits hmem => hnone inherits (haround.mem trivial hmem)
  | superWithoutSuperclass hnone =>
    cases hact
    obtain ⟨inner, outer, rfl, hinner⟩ := haround.split trivial
    exact .superWithoutSuperclass fun inherits hmem => hnone inherits (hinner.mem trivial hmem)
  | inheritsFromItself =>
    cases hact with | inherit hfresh hname =>
    obtain rfl := hname.injective (.kept hfresh) rfl
    exact .inheritsFromItself

section

variable {around others : Surroundings}

theorem Surroundings.Respelled.declare (h : around.Respelled x y others) {name other : String}
    (hname : Spelled x y name other) :
    (around.declare name).Respelled x y (others.declare other) := by
  cases h with
  | nil => exact .nil
  | cons hfirst hrest =>
    cases hfirst with
    | scope hnames => exact .cons (.scope (.cons hname hnames)) hrest
    | function name role => exact .cons (.function name role) hrest
    | classBody inherits => exact .cons (.classBody inherits) hrest
    | initial hinitial => exact .cons (.initial hinitial) hrest

variable {names : ScopeNames} {marks : List Bool}

theorem Reference.Respelled.site {s t : Reference} (h : s.Respelled x y names marks t)
    (hr : around.Respelled x y others) :
    Site.Respelled x y ⟨.read s.name.text, s.name.line, around⟩ ⟨.read t.name.text, t.name.line, others⟩ :=
  ⟨.read h.spelled, h.line.symm, hr⟩

mutual

/-- The sites of an expression that is respelled are its sites respelled. -/
theorem Expr.Respelled.sites {a b : Expr} (h : a.Respelled x y names marks b)
    (hr : around.Respelled x y others) :
    List.Forall₂ (Site.Respelled x y) (a.sites around) (b.sites others) :=
  match h with
  | .literal _ => .nil
  | .unary h | .grouping h | .get h => h.sites hr
  | .binary h k | .logical h k => List.rel_append (h.sites hr) (k.sites hr)
  | .reference ht => .cons (Reference.Respelled.site ht hr) .nil
  | .assign _ h => h.sites hr
  | .call h hes => List.rel_append (h.sites hr) (hes.sites hr)
  | .set h k => List.rel_append (k.sites hr) (h.sites hr)
  | .this => .cons ⟨.this, rfl, hr⟩ .nil
  | .super => .cons ⟨.super, rfl, hr⟩ .nil
termination_by structural h

theorem Expr.AllRespelled.sites {as bs : List Expr} (h : Expr.AllRespelled x y names marks as bs)
    (hr : around.Respelled x y others) :
    List.Forall₂ (Site.Respelled x y) (Expr.sitesAll around as) (Expr.sitesAll others bs) :=
  match h with
  | .nil => .nil
  | .cons h hes => List.rel_append (h.sites hr) (hes.sites hr)
termination_by structural h

end

theorem Expr.option_respelled_sites {a b : Option Expr}
    (h : Option.Rel (Expr.Respelled x y names marks) a b) (hr : around.Respelled x y others) :
    List.Forall₂ (Site.Respelled x y) (Expr.sites? around a) (Expr.sites? others b) := by
  cases h with
  | none => exact .nil
  | some h => exact h.sites hr

/-- A statement declares its name, if it has one, respelled. -/
theorem Surroundings.Respelled.after (h : around.Respelled x y others) {a b : Stmt}
    (hs : Stmt.Respelled x y names marks a b) : (around.after a).Respelled x y (others.after b) := by
  have hfresh := hs.fresh
  unfold Surroundings.after
  rw [hs.declared?_eq]
  cases hdeclared : a.declared? with
  | none => exact h
  | some name =>
    rw [hdeclared] at hfresh
    exact h.declare ⟨fun he => hfresh (congrArg some he), _, rfl⟩

theorem Identifier.sites_respelled {mark : Bool} {xs ys : List Identifier}
    (h : List.Forall₂ (Identifier.Respelled x y mark) xs ys) (hr : around.Respelled x y others) :
    List.Forall₂ (Site.Respelled x y) (Identifier.sites around xs) (Identifier.sites others ys) := by
  induction h generalizing around others with
  | nil => exact .nil
  | cons hname _ ih => exact .cons ⟨.declare hname.spelled, hname.line.symm, hr⟩ (ih (hr.declare hname.spelled))

/-- The parameters of a function are names of its scope. -/
theorem Surroundings.Respelled.params {mark : Bool} {xs ys : List Identifier}
    (h : List.Forall₂ (Identifier.Respelled x y mark) xs ys) (hr : around.Respelled x y others)
    (name : String) (role : FunctionRole) :
    Surroundings.Respelled x y
      (.scope (xs.map Identifier.text).reverse :: .function name role :: around)
      (.scope (ys.map Identifier.text).reverse :: .function name role :: others) := by
  refine .cons (.scope (List.rel_reverse ?_)) (.cons (.function name role) hr)
  exact List.forall₂_map_left_iff.2 (List.forall₂_map_right_iff.2 (h.imp fun _ _ hname => hname.spelled))

theorem Reference.site_inherit {s t : Reference} (h : s.Respelled x y names marks t) {name : String}
    (hname : name ≠ y) (hr : around.Respelled x y others) :
    Site.Respelled x y ⟨.inherit name s.name.text, s.name.line, around⟩
      ⟨.inherit name t.name.text, t.name.line, others⟩ :=
  ⟨.inherit hname h.spelled, h.line.symm, hr⟩

mutual

/-- The sites of a statement that is respelled are its sites respelled. -/
theorem Stmt.Respelled.sites {names : ScopeNames} {marks : List Bool} {around others : Surroundings}
    {a b : Stmt} (h : Stmt.Respelled x y names marks a b) (hr : around.Respelled x y others) :
    List.Forall₂ (Site.Respelled x y) (a.sites around) (b.sites others) :=
  match h with
  | .expression h | .print h => h.sites hr
  | .var hname hv =>
    .cons ⟨.declare hname.spelled, hname.line.symm, hr⟩
      (Expr.option_respelled_sites hv (.cons (.initial hname.spelled) hr))
  | .block _ h => h.sites (.cons (.scope .nil) hr)
  | .ifThen h k => List.rel_append (h.sites hr) (k.sites hr)
  | .ifThenElse h k j => List.rel_append (List.rel_append (h.sites hr) (k.sites hr)) (j.sites hr)
  | .whileLoop h k => List.rel_append (h.sites hr) (k.sites hr)
  | .function hfresh _ h => by
    have hname := Spelled.kept (x := x) hfresh
    have hinside := h.sites (hr.declare hname) .function
    rw [Stmt.sites, Stmt.sites, ← h.name_eq]
    exact .cons ⟨.declare hname, rfl, hr⟩ hinside
  | .ret hv => by
    have hsome : ∀ {c d : Option Expr}, Option.Rel (Expr.Respelled x y names marks) c d →
        c.isSome = d.isSome := by
      rintro _ _ (_ | _) <;> rfl
    rw [Stmt.sites, Stmt.sites, hsome hv]
    exact .cons ⟨.ret _, rfl, hr⟩ (Expr.option_respelled_sites hv hr)
  | .base hfresh _ h =>
    .cons ⟨.declare (.kept hfresh), rfl, hr⟩
      (h.sites (.cons (.classBody false) (hr.declare (.kept hfresh))))
  | .derived hfresh _ ht h => by
    have hinside := hr.declare (.kept hfresh)
    exact .cons ⟨.declare (.kept hfresh), rfl, hr⟩
      (.cons (Reference.site_inherit ht hfresh hinside)
        (.cons (Reference.Respelled.site ht hinside) (h.sites (.cons (.classBody true) hinside))))
termination_by structural h

theorem Stmt.BodyRespelled.sites {names : ScopeNames} {marks : List Bool} {around others : Surroundings}
    {as bs : List Stmt} (h : Stmt.BodyRespelled x y names marks as bs) (hr : around.Respelled x y others) :
    List.Forall₂ (Site.Respelled x y) (Stmt.sitesAll around as) (Stmt.sitesAll others bs) :=
  match h with
  | .nil => .nil
  | .cons h hrest => List.rel_append (h.sites hr) (hrest.sites (hr.after h))
termination_by structural h

theorem FunctionDef.Respelled.sites {names : ScopeNames} {marks : List Bool}
    {around others : Surroundings} {f g : FunctionDef} (h : FunctionDef.Respelled x y names marks f g)
    (hr : around.Respelled x y others) (role : FunctionRole) :
    List.Forall₂ (Site.Respelled x y) (Stmt.functionSites role around f)
      (Stmt.functionSites role others g) :=
  match h with
  | .intro _ hparams h =>
    List.rel_append
      (Identifier.sites_respelled hparams (.cons (.scope .nil) (.cons (.function _ role) hr)))
      (h.sites (.params hparams hr _ role))
termination_by structural h

theorem FunctionDef.AllRespelled.sites {names : ScopeNames} {marks : List Bool}
    {around others : Surroundings} {fs gs : List FunctionDef}
    (h : FunctionDef.AllRespelled x y names marks fs gs) (hr : around.Respelled x y others) :
    List.Forall₂ (Site.Respelled x y) (Stmt.methodSites around fs) (Stmt.methodSites others gs) :=
  match h with
  | .nil => .nil
  | .cons h hrest => List.rel_append (h.sites hr .method) (hrest.sites hr)
termination_by structural h

end

end

/-- A program that resolves does so when it is respelled. -/
theorem Stmt.BodyRespelled.resolves {body other : List Stmt} (h : Stmt.BodyRespelled x y [] [] body other)
    (hbody : Stmt.OrdinaryAll body) (hother : Stmt.OrdinaryAll other) (hr : Resolves body) :
    Resolves other := by
  rw [resolves_iff_obeys hbody] at hr
  rw [resolves_iff_obeys hother]
  intro site hsite rule hbreaks
  have hsites := h.sites .nil
  obtain ⟨⟨i, hi⟩, rfl⟩ := List.mem_iff_get.1 hsite
  have hbefore := hsites.length_eq.symm ▸ hi
  exact hr _ (List.get_mem _ ⟨i, hbefore⟩) rule ((hsites.get hbefore hi).breaks hbreaks)

end Lox
