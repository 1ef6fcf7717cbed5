import Lox.Proofs.Grammar.Program
import Lox.Proofs.Token.Joining

/-!
# Joined programs

The grammar does not look at lines, so tokens that move down together have the same form, with a
tree of the same shape. One program after another is a program.
-/

namespace Lox

theorem Token.name_later (lines : Nat) (t : Token) : (t.later lines).name.Alike .shape t.name :=
  ⟨rfl, trivial⟩

namespace Grammar

/-- Trees of one form that have the same shape. -/
def Form.SameShape : (s : Form) → s.Tree → s.Tree → Prop
  | .arguments => List.Forall₂ (Expr.Alike .shape)
  | .expression | .operand _ | .call | .primary => Expr.Alike .shape

theorem joined_alike {connective : Connective} {a b c d : Expr} (line other : Nat)
    (hl : a.Alike .shape b) (hr : c.Alike .shape d) :
    (connective.join line a c).Alike .shape (connective.join other b d) := by
  cases connective with
  | binary => exact .binary hl hr trivial
  | logical => exact .logical hl hr

variable (lines : Nat)

/-- A phrase stays one on other lines. -/
theorem Phrase.later {s : Form} {ts : List Token} {t : s.Tree} (h : Phrase s ts t) :
    ∃ u, Phrase s (ts.map (Token.later lines)) u ∧ s.SameShape u t := by
  induction h with
  | @assignName name _ _ _ id hn he _ ih =>
    obtain ⟨value, hv, ha⟩ := ih
    exact ⟨_, .assignName id hn he hv, .assign ⟨trivial, name.name_later lines⟩ ha⟩
  | @assignProperty _ name _ _ _ _ _ _ hd hn he _ iho ihv =>
    obtain ⟨object, ho, hao⟩ := iho
    obtain ⟨value, hv, hav⟩ := ihv
    rw [List.map_append]
    exact ⟨_, .assignProperty ho hd hn he hv, .set hao (name.name_later lines) hav⟩
  | operation _ ih =>
    obtain ⟨e, h, ha⟩ := ih
    exact ⟨e, .operation h, ha⟩
  | join _ ho _ ihl ihr =>
    obtain ⟨left, hl, hal⟩ := ihl
    obtain ⟨right, hr, har⟩ := ihr
    rw [List.map_append]
    exact ⟨_, .join hl ho hr, joined_alike _ _ hal har⟩
  | tighter _ ih =>
    obtain ⟨e, h, ha⟩ := ih
    exact ⟨e, .tighter h, ha⟩
  | not ho _ ih =>
    obtain ⟨e, h, ha⟩ := ih
    exact ⟨_, .not ho h, .unary ha trivial⟩
  | negate ho _ ih =>
    obtain ⟨e, h, ha⟩ := ih
    exact ⟨_, .negate ho h, .unary ha trivial⟩
  | call _ ih =>
    obtain ⟨e, h, ha⟩ := ih
    exact ⟨e, .call h, ha⟩
  | invoke _ ho _ hm hr ihc iha =>
    obtain ⟨callee, hc, hac⟩ := ihc
    obtain ⟨arguments, ha, haa⟩ := iha
    rw [List.map_append, List.map_append]
    exact ⟨_, .invoke hc ho ha (haa.length_eq ▸ hm) hr, .call hac haa trivial⟩
  | @property _ name _ _ _ hd hn ih =>
    obtain ⟨object, ho, ha⟩ := ih
    rw [List.map_append]
    exact ⟨_, .property ho hd hn, .get ha (name.name_later lines)⟩
  | primary _ ih =>
    obtain ⟨e, h, ha⟩ := ih
    exact ⟨e, .primary h, ha⟩
  | number h => exact ⟨_, .number h, .literal _⟩
  | string h => exact ⟨_, .string h, .literal _⟩
  | true h => exact ⟨_, .true h, .literal _⟩
  | false h => exact ⟨_, .false h, .literal _⟩
  | nil h => exact ⟨_, .nil h, .literal _⟩
  | this id h => exact ⟨_, .this id h, .this trivial trivial⟩
  | @name t id h => exact ⟨_, .name id h, .reference ⟨trivial, t.name_later lines⟩⟩
  | grouping ho _ hc ih =>
    obtain ⟨inner, h, ha⟩ := ih
    rw [List.map_append]
    exact ⟨_, .grouping ho h hc, .grouping ha⟩
  | @super _ _ method id ht hd hm =>
    exact ⟨_, .super id ht hd hm, .super trivial trivial (method.name_later lines)⟩
  | noArguments => exact ⟨_, .noArguments, .nil⟩
  | oneArgument _ ih =>
    obtain ⟨e, h, ha⟩ := ih
    exact ⟨_, .oneArgument h, .cons ha .nil⟩
  | moreArguments _ hc _ hne ih ihs =>
    obtain ⟨e, h, ha⟩ := ih
    obtain ⟨es, hes, has⟩ := ihs
    rw [List.map_append]
    refine ⟨_, .moreArguments h hc hes ?_, .cons ha has⟩
    rintro rfl
    cases has
    exact hne rfl

theorem OptionalPhrase.later {ts : List Token} {e : Option Expr} (h : OptionalPhrase ts e) :
    ∃ u, OptionalPhrase (ts.map (Token.later lines)) u ∧ Option.Rel (Expr.Alike .shape) u e := by
  cases h with
  | none => exact ⟨_, .none, .none⟩
  | some h =>
    obtain ⟨e, h, ha⟩ := h.later lines
    exact ⟨_, .some h, .some ha⟩

theorem Parameters.later {ts : List Token} {names : List Identifier} (h : Parameters ts names) :
    ∃ us, Parameters (ts.map (Token.later lines)) us ∧
      List.Forall₂ (Identifier.Alike .shape) us names := by
  induction h with
  | none => exact ⟨[], .none, .nil⟩
  | @one name h => exact ⟨_, .one h, .cons (name.name_later lines) .nil⟩
  | @more name _ _ _ h hc _ hne ih =>
    obtain ⟨us, hus, ha⟩ := ih
    refine ⟨_, .more h hc hus ?_, .cons (name.name_later lines) ha⟩
    rintro rfl
    cases ha
    exact hne rfl

theorem Variable.later {ts : List Token} {s : Stmt} (h : Variable ts s) :
    ∃ u, Variable (ts.map (Token.later lines)) u ∧ u.Alike .shape s := by
  cases h with
  | @plain name _ hn hs => exact ⟨_, .plain hn hs, .var (name.name_later lines) .none⟩
  | @withValue name _ _ _ _ hn he hv hs =>
    obtain ⟨value, hv, ha⟩ := hv.later lines
    rw [List.map_append]
    exact ⟨_, .withValue hn he hv hs, .var (name.name_later lines) (.some ha)⟩

theorem ForInitial.later {ts : List Token} {s : Option Stmt} (h : ForInitial ts s) :
    ∃ u, ForInitial (ts.map (Token.later lines)) u ∧ Option.Rel (Stmt.Alike .shape) u s := by
  cases h with
  | none hs => exact ⟨_, .none hs, .none⟩
  | varDeclaration hv h =>
    obtain ⟨s, h, ha⟩ := h.later lines
    exact ⟨_, .varDeclaration hv h, .some ha⟩
  | expression h hs =>
    obtain ⟨e, h, ha⟩ := h.later lines
    rw [List.map_append]
    exact ⟨_, .expression h hs, .some (.expression ha)⟩

theorem Superclass.later {ts : List Token} {s : Option Reference} (h : Superclass ts s) :
    ∃ u, Superclass (ts.map (Token.later lines)) u ∧ Option.Rel (Reference.Alike .shape) u s := by
  cases h with
  | none => exact ⟨_, .none, .none⟩
  | @inherits _ name id hl hn =>
    exact ⟨_, .inherits id hl hn, .some ⟨trivial, name.name_later lines⟩⟩

/-- Trees of one form that have the same shape. -/
def StatementForm.SameShape : (s : StatementForm) → s.Tree → s.Tree → Prop
  | .declaration | .statement _ => Stmt.Alike .shape
  | .declarations => StmtsAlike .shape
  | .function => FunctionDef.Alike .shape
  | .functions => List.Forall₂ (FunctionDef.Alike .shape)

/-- A clause stays one on other lines. -/
theorem Clause.later {s : StatementForm} {ts : List Token} {t : s.Tree} (h : Clause s ts t) :
    ∃ u, Clause s (ts.map (Token.later lines)) u ∧ s.SameShape u t := by
  induction h with
  | @classDef _ name _ _ _ _ _ _ hk hn hs ho _ hc ih =>
    obtain ⟨superclass, hs, has⟩ := hs.later lines
    obtain ⟨methods, hm, ham⟩ := ih
    rw [List.map_append, List.map_append]
    exact ⟨_, .classDef hk hn hs ho hm hc, .classDef (name.name_later lines) has ham⟩
  | funDeclaration hk _ ih =>
    obtain ⟨f, h, ha⟩ := ih
    exact ⟨_, .funDeclaration hk h, .function ha⟩
  | varDeclaration hk h =>
    obtain ⟨s, h, ha⟩ := h.later lines
    exact ⟨s, .varDeclaration hk h, ha⟩
  | statement _ ih =>
    obtain ⟨s, h, ha⟩ := ih
    exact ⟨s, .statement h, ha⟩
  | noDeclarations => exact ⟨_, .noDeclarations, .nil⟩
  | moreDeclarations _ _ ih ihr =>
    obtain ⟨s, h, ha⟩ := ih
    obtain ⟨rest, hr, har⟩ := ihr
    rw [List.map_append]
    exact ⟨_, .moreDeclarations h hr, .cons ha har⟩
  | @function name _ _ _ _ _ _ _ _ hn hop hp hm hcp ho _ hc ih =>
    obtain ⟨params, hp, hap⟩ := hp.later lines
    obtain ⟨body, hb, hab⟩ := ih
    rw [List.map_append, List.map_append]
    exact ⟨_, .function hn hop hp (hap.length_eq ▸ hm) hcp ho hb hc,
      .intro (name.name_later lines) hap hab⟩
  | noFunctions => exact ⟨_, .noFunctions, .nil⟩
  | moreFunctions _ _ ih ihr =>
    obtain ⟨f, h, ha⟩ := ih
    obtain ⟨rest, hr, har⟩ := ihr
    rw [List.map_append]
    exact ⟨_, .moreFunctions h hr, .cons ha har⟩
  | expression h hs =>
    obtain ⟨e, h, ha⟩ := h.later lines
    rw [List.map_append]
    exact ⟨_, .expression h hs, .expression ha⟩
  | print hk h hs =>
    obtain ⟨e, h, ha⟩ := h.later lines
    rw [List.map_append]
    exact ⟨_, .print hk h hs, .print ha⟩
  | ret hk h hs =>
    obtain ⟨e, h, ha⟩ := h.later lines
    rw [List.map_append]
    exact ⟨_, .ret hk h hs, .ret trivial ha⟩
  | block ho _ hc ih =>
    obtain ⟨body, h, ha⟩ := ih
    rw [List.map_append]
    exact ⟨_, .block ho h hc, .block ha⟩
  | ifThen hk ho h hc _ ih =>
    obtain ⟨condition, h, hac⟩ := h.later lines
    obtain ⟨thenBranch, ht, hat⟩ := ih
    rw [List.map_append]
    exact ⟨_, .ifThen hk ho h hc ht, .conditional hac hat .none⟩
  | ifThenElse hk ho h hc _ hke _ iht ihe =>
    obtain ⟨condition, h, hac⟩ := h.later lines
    obtain ⟨thenBranch, ht, hat⟩ := iht
    obtain ⟨elseBranch, he, hae⟩ := ihe
    rw [List.map_append, List.map_append]
    exact ⟨_, .ifThenElse hk ho h hc ht hke he, .conditional hac hat (.some hae)⟩
  | whileLoop hk ho h hc _ ih =>
    obtain ⟨condition, h, hac⟩ := h.later lines
    obtain ⟨body, hb, hab⟩ := ih
    rw [List.map_append]
    exact ⟨_, .whileLoop hk ho h hc hb, .whileLoop hac hab⟩
  | forLoop hk ho hi h hs hn hc _ ih =>
    obtain ⟨initial, hi, hai⟩ := hi.later lines
    obtain ⟨condition, h, hac⟩ := h.later lines
    obtain ⟨increment, hn, han⟩ := hn.later lines
    obtain ⟨body, hb, hab⟩ := ih
    rw [List.map_append, List.map_append, List.map_append]
    exact ⟨_, .forLoop hk ho hi h hs hn hc hb, forBlock_alike hai hac han hab⟩

theorem Program.later {ts : List Token} {body : List Stmt} (h : Program ts body) :
    ∃ others, Program (ts.map (Token.later lines)) others ∧ StmtsAlike .shape others body :=
  Clause.later lines h

/-- One program after the other is a program. -/
theorem Program.append {ts us : List Token} {body others : List Stmt} (h : Program ts body)
    (k : Program us others) : Program (ts ++ us) (body ++ others) := by
  induction body generalizing ts with
  | nil =>
    cases h
    exact k
  | cons s rest ih =>
    cases h with
    | moreDeclarations h hr =>
      rw [List.append_assoc]
      exact .moreDeclarations h (ih hr)

end Grammar

end Lox
