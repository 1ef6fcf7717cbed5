import Lox.Proofs.Grammar
import Lox.Proofs.Respelling

/-!
# A respelled program is a program

The grammar does not look at the spelling of names. When the tree of some tokens is respelled, it is the
tree of the tokens in which the names are respelled.
-/

namespace Lox

variable {x y : String}

/-- The same token, or the name `y` in the place of the name `x`. -/
inductive Token.Respelled (x y : String) : Token → Token → Prop where
  | kept (t : Token) : Token.Respelled x y t t
  | changed (line : Nat) : Token.Respelled x y ⟨.identifier, x, line⟩ ⟨.identifier, y, line⟩

/-- Tokens respelled one by one. -/
abbrev TokensRespelled (x y : String) : List Token → List Token → Prop :=
  List.Forall₂ (Token.Respelled x y)

theorem TokensRespelled.kept (x y : String) (ts : List Token) : TokensRespelled x y ts ts :=
  List.forall₂_same.2 fun t _ => .kept t

/-- A name that is respelled is the name of a token that is respelled. -/
theorem Token.exists_respelled {mark : Bool} {t : Token} {name : Identifier} (hk : t.kind = .identifier)
    (h : t.name.Respelled x y mark name) :
    ∃ u : Token, u.kind = .identifier ∧ u.name = name ∧ t.Respelled x y u := by
  obtain ⟨kind, text, line⟩ := t
  obtain ⟨other, line'⟩ := name
  obtain rfl : kind = .identifier := hk
  obtain rfl : other = respell x y mark text := h.text
  obtain rfl : line' = line := h.line
  refine ⟨⟨.identifier, respell x y mark text, line'⟩, rfl, rfl, ?_⟩
  rcases respell_cases x y mark text with hsame | ⟨rfl, hother⟩
  · rw [hsame]
    exact .kept _
  · rw [hother]
    exact .changed _

namespace Grammar

section

variable {names : ScopeNames} {marks : List Bool}

/-- The trees of a form, respelled. -/
def Form.Respelled (x y : String) (names : ScopeNames) (marks : List Bool) :
    (s : Form) → s.Tree → s.Tree → Prop
  | .arguments => Expr.AllRespelled x y names marks
  | .expression | .operand _ | .call | .primary => Expr.Respelled x y names marks

theorem joined_respelled {connective : Connective} {line : Nat} {a b c : Expr}
    (h : (connective.join line a b).Respelled x y names marks c) :
    ∃ left right, c = connective.join line left right ∧ a.Respelled x y names marks left ∧
      b.Respelled x y names marks right := by
  cases connective with
  | binary =>
    cases h with | binary hl hr =>
    exact ⟨_, _, rfl, hl, hr⟩
  | logical =>
    cases h with | logical hl hr =>
    exact ⟨_, _, rfl, hl, hr⟩

/-- A phrase is one when it is respelled. -/
theorem Phrase.respelled {s : Form} {ts : List Token} {t u : s.Tree} (h : Phrase s ts t)
    (hr : s.Respelled x y names marks t u) : ∃ us, Phrase s us u ∧ TokensRespelled x y ts us := by
  induction h with
  | assignName id hn he _ ih =>
    cases hr with | @assign _ target _ _ ht hv =>
    obtain ⟨us, hus, hts⟩ := ih hv
    obtain ⟨name, hk, hname, htoken⟩ := Token.exists_respelled hn ht
    obtain ⟨id, _⟩ := target
    cases hname
    exact ⟨_, .assignName id hk he hus, .cons htoken (.cons (.kept _) hts)⟩
  | assignProperty _ hd hn he _ iho ihv =>
    cases hr with | set ho hv =>
    obtain ⟨us, hus, hts⟩ := iho ho
    obtain ⟨vs, hvs, hts'⟩ := ihv hv
    exact ⟨_, .assignProperty hus hd hn he hvs,
      List.rel_append hts (.cons (.kept _) (.cons (.kept _) (.cons (.kept _) hts')))⟩
  | operation _ ih =>
    obtain ⟨us, hus, hts⟩ := ih hr
    exact ⟨us, .operation hus, hts⟩
  | join _ ho _ ihl ihr =>
    obtain ⟨left, right, rfl, hl, hr⟩ := joined_respelled hr
    obtain ⟨us, hus, hts⟩ := ihl hl
    obtain ⟨vs, hvs, hts'⟩ := ihr hr
    exact ⟨_, .join hus ho hvs, List.rel_append hts (.cons (.kept _) hts')⟩
  | tighter _ ih =>
    obtain ⟨us, hus, hts⟩ := ih hr
    exact ⟨us, .tighter hus, hts⟩
  | not ho _ ih =>
    cases hr with | unary h =>
    obtain ⟨us, hus, hts⟩ := ih h
    exact ⟨_, .not ho hus, .cons (.kept _) hts⟩
  | negate ho _ ih =>
    cases hr with | unary h =>
    obtain ⟨us, hus, hts⟩ := ih h
    exact ⟨_, .negate ho hus, .cons (.kept _) hts⟩
  | call _ ih =>
    obtain ⟨us, hus, hts⟩ := ih hr
    exact ⟨us, .call hus, hts⟩
  | invoke _ ho _ hm hc ihc iha =>
    cases hr with | call hcallee harguments =>
    obtain ⟨us, hus, hts⟩ := ihc hcallee
    obtain ⟨vs, hvs, hts'⟩ := iha harguments
    rw [harguments.length_eq] at hm
    exact ⟨_, .invoke hus ho hvs hm hc,
      List.rel_append (List.rel_append hts (.cons (.kept _) hts')) (.cons (.kept _) .nil)⟩
  | property _ hd hn ih =>
    cases hr with | get h =>
    obtain ⟨us, hus, hts⟩ := ih h
    exact ⟨_, .property hus hd hn, List.rel_append hts (TokensRespelled.kept x y _)⟩
  | primary _ ih =>
    obtain ⟨us, hus, hts⟩ := ih hr
    exact ⟨us, .primary hus, hts⟩
  | number h =>
    cases hr
    exact ⟨_, .number h, TokensRespelled.kept x y _⟩
  | string h =>
    cases hr
    exact ⟨_, .string h, TokensRespelled.kept x y _⟩
  | true h =>
    cases hr
    exact ⟨_, .true h, TokensRespelled.kept x y _⟩
  | false h =>
    cases hr
    exact ⟨_, .false h, TokensRespelled.kept x y _⟩
  | nil h =>
    cases hr
    exact ⟨_, .nil h, TokensRespelled.kept x y _⟩
  | this _ h =>
    cases hr
    exact ⟨_, .this _ h, TokensRespelled.kept x y _⟩
  | name _ h =>
    cases hr with | @reference _ target ht =>
    obtain ⟨name, hk, hname, htoken⟩ := Token.exists_respelled h ht
    obtain ⟨id, _⟩ := target
    cases hname
    exact ⟨_, .name id hk, .cons htoken .nil⟩
  | grouping ho _ hc ih =>
    cases hr with | grouping h =>
    obtain ⟨us, hus, hts⟩ := ih h
    exact ⟨_, .grouping ho hus hc, .cons (.kept _) (List.rel_append hts (.cons (.kept _) .nil))⟩
  | super _ ht hd hm =>
    cases hr
    exact ⟨_, .super _ ht hd hm, TokensRespelled.kept x y _⟩
  | noArguments =>
    cases hr
    exact ⟨_, .noArguments, .nil⟩
  | oneArgument _ ih =>
    cases hr with | cons h hrest =>
    cases hrest
    obtain ⟨us, hus, hts⟩ := ih h
    exact ⟨_, .oneArgument hus, hts⟩
  | moreArguments _ hc _ hne ih ihs =>
    cases hr with | cons h hrest =>
    obtain ⟨us, hus, hts⟩ := ih h
    obtain ⟨vs, hvs, hts'⟩ := ihs hrest
    refine ⟨_, .moreArguments hus hc hvs ?_, List.rel_append hts (.cons (.kept _) hts')⟩
    rintro rfl
    cases hrest
    exact hne rfl

theorem OptionalPhrase.respelled {ts : List Token} {value other : Option Expr} (h : OptionalPhrase ts value)
    (hr : Option.Rel (Expr.Respelled x y names marks) value other) :
    ∃ us, OptionalPhrase us other ∧ TokensRespelled x y ts us := by
  cases h with
  | none =>
    cases hr
    exact ⟨_, .none, .nil⟩
  | some h =>
    cases hr with | some hr =>
    obtain ⟨us, hus, hts⟩ := h.respelled hr
    exact ⟨us, .some hus, hts⟩

theorem Parameters.respelled {mark : Bool} {ts : List Token} {params others : List Identifier}
    (h : Parameters ts params) (hr : List.Forall₂ (Identifier.Respelled x y mark) params others) :
    ∃ us, Parameters us others ∧ TokensRespelled x y ts us := by
  induction h generalizing others with
  | none =>
    cases hr
    exact ⟨_, .none, .nil⟩
  | one hn =>
    cases hr with | cons hname hrest =>
    cases hrest
    obtain ⟨name, hk, rfl, htoken⟩ := Token.exists_respelled hn hname
    exact ⟨_, .one hk, .cons htoken .nil⟩
  | more hn hc _ hne ih =>
    cases hr with | cons hname hrest =>
    obtain ⟨name, hk, rfl, htoken⟩ := Token.exists_respelled hn hname
    obtain ⟨us, hus, hts⟩ := ih hrest
    refine ⟨_, .more hk hc hus ?_, .cons htoken (.cons (.kept _) hts)⟩
    rintro rfl
    cases hrest
    exact hne rfl

theorem Variable.respelled {ts : List Token} {s t : Stmt} (h : Variable ts s)
    (hr : Stmt.Respelled x y names marks s t) : ∃ us, Variable us t ∧ TokensRespelled x y ts us := by
  cases h with
  | plain hn hs =>
    cases hr with | var hname hvalue =>
    cases hvalue
    obtain ⟨name, hk, rfl, htoken⟩ := Token.exists_respelled hn hname
    exact ⟨_, .plain hk hs, .cons htoken (.cons (.kept _) .nil)⟩
  | withValue hn he hv hs =>
    cases hr with | var hname hvalue =>
    cases hvalue with | some hvalue =>
    obtain ⟨name, hk, rfl, htoken⟩ := Token.exists_respelled hn hname
    obtain ⟨us, hus, hts⟩ := hv.respelled hvalue
    exact ⟨_, .withValue hk he hus hs,
      .cons htoken (.cons (.kept _) (List.rel_append hts (.cons (.kept _) .nil)))⟩

theorem ForInitial.respelled {ts : List Token} {initial other : Option Stmt} (h : ForInitial ts initial)
    (hr : Option.Rel (Stmt.Respelled x y names marks) initial other) :
    ∃ us, ForInitial us other ∧ TokensRespelled x y ts us := by
  cases h with
  | none hs =>
    cases hr
    exact ⟨_, .none hs, .cons (.kept _) .nil⟩
  | varDeclaration hv h =>
    cases hr with | some hr =>
    obtain ⟨us, hus, hts⟩ := h.respelled hr
    exact ⟨_, .varDeclaration hv hus, .cons (.kept _) hts⟩
  | expression h hs =>
    cases hr with | some hr =>
    cases hr with | expression hr =>
    obtain ⟨us, hus, hts⟩ := h.respelled hr
    exact ⟨_, .expression hus hs, List.rel_append hts (.cons (.kept _) .nil)⟩

theorem Superclass.respelled {ts : List Token} {s t : Option Reference} (h : Superclass ts s)
    (hr : Option.Rel (Reference.Respelled x y names marks) s t) :
    ∃ us, Superclass us t ∧ TokensRespelled x y ts us := by
  cases h with
  | none =>
    cases hr
    exact ⟨_, .none, .nil⟩
  | inherits _ hl hn =>
    cases hr with | @some _ target ht =>
    obtain ⟨name, hk, hname, htoken⟩ := Token.exists_respelled hn ht
    obtain ⟨id, _⟩ := target
    cases hname
    exact ⟨_, .inherits id hl hk, .cons (.kept _) (.cons htoken .nil)⟩

end

section

variable {names : ScopeNames} {marks : List Bool} {initial : Option Stmt} {condition increment : Option Expr}
  {body other : Stmt}

/-- What a `for` loop stands for is respelled clause by clause, each in its own scope. -/
theorem forCondition_respelled {e : Expr} (h : (forCondition condition).Respelled x y names marks e) :
    ∃ condition', e = forCondition condition' ∧
      Option.Rel (Expr.Respelled x y names marks) condition condition' := by
  cases condition with
  | none =>
    cases h
    exact ⟨none, rfl, .none⟩
  | some condition => exact ⟨some e, rfl, .some h⟩

theorem forBody_respelled (h : Stmt.Respelled x y names marks (forBody body increment) other) :
    ∃ body' increment' scopes inner outer marks', other = forBody body' increment' ∧
      Stmt.Respelled x y scopes inner body body' ∧
      Option.Rel (Expr.Respelled x y outer marks') increment increment' := by
  cases increment with
  | none => exact ⟨other, none, _, _, names, marks, rfl, h, .none⟩
  | some increment =>
    cases h with | block _ h =>
    cases h with | cons hbody hrest =>
    cases hrest with | cons hincrement hnil =>
    cases hnil
    cases hincrement with | expression hincrement =>
    exact ⟨_, some _, _, _, _, _, rfl, hbody, .some hincrement⟩

theorem forBlock_respelled {loop : Stmt} (h : Stmt.Respelled x y names marks (forBlock loop initial) other) :
    ∃ loop' initial' scopes inner outer marks', other = forBlock loop' initial' ∧
      Stmt.Respelled x y scopes inner loop loop' ∧
      Option.Rel (Stmt.Respelled x y outer marks') initial initial' := by
  cases initial with
  | none => exact ⟨other, none, _, _, names, marks, rfl, h, .none⟩
  | some initial =>
    cases h with | block _ h =>
    cases h with | cons hinitial hrest =>
    cases hrest with | cons hloop hnil =>
    cases hnil
    exact ⟨_, some _, _, _, _, _, rfl, hloop, .some hinitial⟩

end

/-- The trees of a form of statements, respelled. -/
def StatementForm.Respelled (x y : String) (names : ScopeNames) (marks : List Bool) :
    (s : StatementForm) → s.Tree → s.Tree → Prop
  | .declaration | .statement _ => Stmt.Respelled x y names marks
  | .declarations => Stmt.BodyRespelled x y names marks
  | .function => FunctionDef.Respelled x y names marks
  | .functions => FunctionDef.AllRespelled x y names marks

/-- A clause is one when it is respelled. -/
theorem Clause.respelled {s : StatementForm} {names : ScopeNames} {marks : List Bool} {ts : List Token}
    {t u : s.Tree} (h : Clause s ts t) (hr : s.Respelled x y names marks t u) :
    ∃ us, Clause s us u ∧ TokensRespelled x y ts us := by
  induction h generalizing names marks with
  | classDef hk hn hs ho _ hc ih =>
    cases hr with
    | base _ _ hm =>
      have hnone : Option.Rel (Reference.Respelled x y names marks) none none := .none
      obtain ⟨us, hus, hts⟩ := hs.respelled hnone
      obtain ⟨vs, hvs, hts'⟩ := ih hm
      exact ⟨_, .classDef hk hn hus ho hvs hc, .cons (.kept _) (.cons (.kept _)
        (List.rel_append (List.rel_append hts (.cons (.kept _) hts')) (.cons (.kept _) .nil)))⟩
    | derived _ _ ht hm =>
      obtain ⟨us, hus, hts⟩ := hs.respelled (.some ht)
      obtain ⟨vs, hvs, hts'⟩ := ih hm
      exact ⟨_, .classDef hk hn hus ho hvs hc, .cons (.kept _) (.cons (.kept _)
        (List.rel_append (List.rel_append hts (.cons (.kept _) hts')) (.cons (.kept _) .nil)))⟩
  | funDeclaration hk _ ih =>
    cases hr with | function _ _ hf =>
    obtain ⟨us, hus, hts⟩ := ih hf
    exact ⟨_, .funDeclaration hk hus, .cons (.kept _) hts⟩
  | varDeclaration hk h =>
    obtain ⟨us, hus, hts⟩ := h.respelled hr
    exact ⟨_, .varDeclaration hk hus, .cons (.kept _) hts⟩
  | statement _ ih =>
    obtain ⟨us, hus, hts⟩ := ih hr
    exact ⟨us, .statement hus, hts⟩
  | noDeclarations =>
    cases hr
    exact ⟨_, .noDeclarations, .nil⟩
  | moreDeclarations _ _ ih ihr =>
    cases hr with | cons hfirst hrest =>
    obtain ⟨us, hus, hts⟩ := ih hfirst
    obtain ⟨vs, hvs, hts'⟩ := ihr hrest
    exact ⟨_, .moreDeclarations hus hvs, List.rel_append hts hts'⟩
  | function hn hop hp hm hcp ho _ hc ih =>
    cases hr with | intro _ hparams hbody =>
    obtain ⟨us, hus, hts⟩ := hp.respelled hparams
    obtain ⟨vs, hvs, hts'⟩ := ih hbody
    rw [hparams.length_eq] at hm
    exact ⟨_, .function hn hop hus hm hcp ho hvs hc, .cons (.kept _) (.cons (.kept _)
      (List.rel_append (List.rel_append hts (.cons (.kept _) (.cons (.kept _) hts')))
        (.cons (.kept _) .nil)))⟩
  | noFunctions =>
    cases hr
    exact ⟨_, .noFunctions, .nil⟩
  | moreFunctions _ _ ih ihr =>
    cases hr with | cons hfirst hrest =>
    obtain ⟨us, hus, hts⟩ := ih hfirst
    obtain ⟨vs, hvs, hts'⟩ := ihr hrest
    exact ⟨_, .moreFunctions hus hvs, List.rel_append hts hts'⟩
  | expression h hs =>
    cases hr with | expression he =>
    obtain ⟨us, hus, hts⟩ := h.respelled he
    exact ⟨_, .expression hus hs, List.rel_append hts (.cons (.kept _) .nil)⟩
  | print hk h hs =>
    cases hr with | print he =>
    obtain ⟨us, hus, hts⟩ := h.respelled he
    exact ⟨_, .print hk hus hs, .cons (.kept _) (List.rel_append hts (.cons (.kept _) .nil))⟩
  | ret hk h hs =>
    cases hr with | ret hv =>
    obtain ⟨us, hus, hts⟩ := h.respelled hv
    exact ⟨_, .ret hk hus hs, .cons (.kept _) (List.rel_append hts (.cons (.kept _) .nil))⟩
  | block ho _ hc ih =>
    cases hr with | block _ hbody =>
    obtain ⟨us, hus, hts⟩ := ih hbody
    exact ⟨_, .block ho hus hc, .cons (.kept _) (List.rel_append hts (.cons (.kept _) .nil))⟩
  | ifThen hk ho h hc _ ih =>
    cases hr with | ifThen he hthen =>
    obtain ⟨us, hus, hts⟩ := h.respelled he
    obtain ⟨vs, hvs, hts'⟩ := ih hthen
    exact ⟨_, .ifThen hk ho hus hc hvs,
      .cons (.kept _) (.cons (.kept _) (List.rel_append hts (.cons (.kept _) hts')))⟩
  | ifThenElse hk ho h hc _ hke _ iht ihe =>
    cases hr with | ifThenElse he hthen helse =>
    obtain ⟨us, hus, hts⟩ := h.respelled he
    obtain ⟨vs, hvs, hts'⟩ := iht hthen
    obtain ⟨ws, hws, hts''⟩ := ihe helse
    exact ⟨_, .ifThenElse hk ho hus hc hvs hke hws, .cons (.kept _) (.cons (.kept _)
      (List.rel_append (List.rel_append hts (.cons (.kept _) hts')) (.cons (.kept _) hts'')))⟩
  | whileLoop hk ho h hc _ ih =>
    cases hr with | whileLoop he hbody =>
    obtain ⟨us, hus, hts⟩ := h.respelled he
    obtain ⟨vs, hvs, hts'⟩ := ih hbody
    exact ⟨_, .whileLoop hk ho hus hc hvs,
      .cons (.kept _) (.cons (.kept _) (List.rel_append hts (.cons (.kept _) hts')))⟩
  | forLoop hk ho hi h hs hn hc _ ih =>
    obtain ⟨loop, initial, _, _, _, _, rfl, hloop, hinitial⟩ := forBlock_respelled hr
    cases hloop with | whileLoop hwhile hinside =>
    obtain ⟨condition, rfl, hcondition⟩ := forCondition_respelled hwhile
    obtain ⟨body, increment, _, _, _, _, rfl, hbody, hincrement⟩ := forBody_respelled hinside
    obtain ⟨ts', hts', hts⟩ := hi.respelled hinitial
    obtain ⟨us', hus', hus⟩ := h.respelled hcondition
    obtain ⟨vs', hvs', hvs⟩ := hn.respelled hincrement
    obtain ⟨ws', hws', hws⟩ := ih hbody
    exact ⟨_, .forLoop hk ho hts' hus' hs hvs' hc hws', .cons (.kept _) (.cons (.kept _)
      (List.rel_append (List.rel_append (List.rel_append hts hus) (.cons (.kept _) hvs))
        (.cons (.kept _) hws)))⟩

/-- A program that is respelled is the program of the tokens in which its names are. -/
theorem Program.respelled {names : ScopeNames} {marks : List Bool} {ts : List Token} {body other : List Stmt}
    (h : Program ts body) (hr : Stmt.BodyRespelled x y names marks body other) :
    ∃ us, Program us other ∧ TokensRespelled x y ts us :=
  Clause.respelled h hr

end Grammar

end Lox
