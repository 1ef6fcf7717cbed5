import Lox.Proofs.Grammar.Program
import Lox.Proofs.Number.TreeText
import Lox.Syntax.Printer

/-!
# Leaves of trees

The names and the literals in a tree. In a tree that was read each name is spelled by a token, and each
number is what a numeral stands for. So a leaf that is no string and not infinite is printed as the token
that it was read from, or as another numeral for the same number, and it can be told from all other leaves.
-/

namespace Lox

/-- A name or a literal in a tree. -/
inductive Leaf where
  | name (text : String)
  | literal (value : Literal)
deriving DecidableEq

namespace Leaf

/-- The text of a leaf in a printed tree. -/
def text : Leaf → String
  | name text => text
  | literal value => value.treeText

/-- The kind of the tokens from which the leaf is read. -/
def kind : Leaf → Token.Kind
  | name _ => .identifier
  | literal (.number value) => .number value
  | literal (.string value) => .string value
  | literal (.bool true) => .keyword .kwTrue
  | literal (.bool false) => .keyword .kwFalse
  | literal .nil => .keyword .kwNil

/-- Whether a leaf is neither a string nor an infinite number. -/
def isPlain : Leaf → Bool
  | literal (.string _) => false
  | literal (.number value) => value.magnitude ≠ Number.infinityMagnitude
  | _ => true

/-- There is a token from which the leaf is read: for a name it is the name itself, for a number some
numeral. -/
def Spelled : Leaf → Prop
  | name text => Lexeme text.toList .identifier
  | literal (.number value) => ∃ numeral, Lexeme numeral (.number value)
  | _ => True

@[simp] theorem spelled_name {text : String} :
    (name text).Spelled ↔ Lexeme text.toList .identifier := Iff.rfl

/-- The leaf that is read from a token of this kind and with this text. -/
def ofToken? : Token.Kind → String → Option Leaf
  | .identifier, text => some (name text)
  | .number value, _ => some (literal (.number value))
  | .string value, _ => some (literal (.string value))
  | .keyword .kwTrue, _ => some (literal (.bool true))
  | .keyword .kwFalse, _ => some (literal (.bool false))
  | .keyword .kwNil, _ => some (literal .nil)
  | _, _ => none

theorem ofToken?_kind (leaf : Leaf) : ofToken? leaf.kind leaf.text = some leaf := by
  unfold kind
  split <;> rfl

/-- A leaf that was read from a token and that its own text tells from all others. -/
structure Clear (leaf : Leaf) : Prop where
  spelled : leaf.Spelled
  plain : leaf.isPlain = true

namespace Clear

variable {leaf other : Leaf}

/-- A clear leaf is printed as a token from which it is read. -/
theorem lexeme (h : leaf.Clear) : Lexeme leaf.text.toList leaf.kind := by
  match leaf, h with
  | .name text, h => exact h.spelled
  | .literal (.number value), ⟨⟨numeral, hnumeral⟩, hplain⟩ =>
    obtain ⟨hsign, hnumber⟩ := hnumeral.number_plain
    have hle : value.magnitude ≤ Number.infinityMagnitude :=
      Nat.le_of_not_lt (of_decide_eq_false hnumber)
    have hne : value.magnitude ≠ Number.infinityMagnitude := of_decide_eq_true hplain
    exact Number.lexeme_treeText (decide_eq_true (lt_of_le_of_ne hle hne)) hsign
  | .literal (.string value), h => exact absurd h.plain Bool.false_ne_true
  | .literal (.bool true), _ => exact .keyword .kwTrue
  | .literal (.bool false), _ => exact .keyword .kwFalse
  | .literal .nil, _ => exact .keyword .kwNil

/-- Clear leaves that are printed alike are the same. -/
theorem eq_of_text (h : leaf.Clear) (hother : other.Clear) (htext : leaf.text = other.text) :
    leaf = other := by
  have hkind : leaf.kind = other.kind := h.lexeme.kind_unique (htext ▸ hother.lexeme)
  have hread := leaf.ofToken?_kind
  rw [hkind, htext, ofToken?_kind] at hread
  exact (Option.some.inj hread).symm

theorem text_ne_this (h : leaf.Clear) : leaf.text ≠ "this" := by
  intro htext
  have hlexeme := h.lexeme
  rw [htext] at hlexeme
  have hkind := hlexeme.kind_unique (.keyword .kwThis)
  unfold Leaf.kind at hkind
  split at hkind <;> cases hkind

end Clear

end Leaf

/-! ### The leaves of a tree -/

namespace Expr

mutual

def leaves : Expr → List Leaf
  | literal value => [.literal value]
  | unary _ operand _ => operand.leaves
  | binary left _ right _ => left.leaves ++ right.leaves
  | logical left _ right => left.leaves ++ right.leaves
  | grouping inner => inner.leaves
  | reference target => [.name target.name.text]
  | assign target value => .name target.name.text :: value.leaves
  | call callee arguments _ => callee.leaves ++ leavesAll arguments
  | get object name => object.leaves ++ [.name name.text]
  | set object name value => object.leaves ++ .name name.text :: value.leaves
  | this _ _ => []
  | super _ _ method => [.name method.text]

def leavesAll : List Expr → List Leaf
  | [] => []
  | e :: rest => e.leaves ++ leavesAll rest

end

/-- The leaves of a value that may be missing. -/
def leaves? : Option Expr → List Leaf
  | some e => e.leaves
  | none => []

end Expr

/-- The name in the superclass clause of a class. -/
def Reference.leaves? : Option Reference → List Leaf
  | some target => [.name target.name.text]
  | none => []

/-- Names that stand in a list. -/
def Identifier.leavesAll (names : List Identifier) : List Leaf := names.map fun name => .name name.text

namespace Stmt

mutual

def leaves : Stmt → List Leaf
  | expression value => value.leaves
  | print value => value.leaves
  | var name initial => .name name.text :: Expr.leaves? initial
  | block body => leavesAll body
  | conditional condition thenBranch none => condition.leaves ++ thenBranch.leaves
  | conditional condition thenBranch (some elseBranch) =>
    condition.leaves ++ thenBranch.leaves ++ elseBranch.leaves
  | whileLoop condition body => condition.leaves ++ body.leaves
  | function declaration => functionLeaves declaration
  | ret _ value => Expr.leaves? value
  | classDef name superclass methods =>
    .name name.text :: (Reference.leaves? superclass ++ methodLeaves methods)

def leavesAll : List Stmt → List Leaf
  | [] => []
  | s :: rest => s.leaves ++ leavesAll rest

def functionLeaves : FunctionDef → List Leaf
  | ⟨name, params, body⟩ => .name name.text :: (Identifier.leavesAll params ++ leavesAll body)

def methodLeaves : List FunctionDef → List Leaf
  | [] => []
  | declaration :: rest => functionLeaves declaration ++ methodLeaves rest

end

end Stmt

/-! ### Reading leaves -/

namespace Grammar

/-- The leaves of the tree of a form. -/
def Form.leaves : (s : Form) → s.Tree → List Leaf
  | .arguments, es => Expr.leavesAll es
  | .expression, e | .operand _, e | .call, e | .primary, e => e.leaves

/-- The leaves of the tree of a form. -/
def StatementForm.leaves : (s : StatementForm) → s.Tree → List Leaf
  | .declaration, s | .statement _, s => s.leaves
  | .declarations, body => Stmt.leavesAll body
  | .function, f => Stmt.functionLeaves f
  | .functions, methods => Stmt.methodLeaves methods

theorem Phrase.spelled {s : Form} {ts : List Token} {t : s.Tree} (h : Phrase s ts t)
    (hts : ∀ t ∈ ts, Lexeme t.text.toList t.kind) : ∀ leaf ∈ s.leaves t, leaf.Spelled := by
  induction h with
  | @join p op connective _ _ left right hl ho hr ihl ihr =>
    have hleft := ihl fun t ht => hts t (by simp [ht])
    have hright := ihr fun t ht => hts t (by simp [ht])
    cases connective <;> exact List.forall_mem_append.2 ⟨hleft, hright⟩
  | number h =>
    have hnumeral := hts _ List.mem_cons_self
    rw [h] at hnumeral
    exact List.forall_mem_singleton.2 ⟨_, hnumeral⟩
  | string | true | false | nil => exact List.forall_mem_singleton.2 trivial
  | _ => simp_all [Form.leaves, Expr.leaves, Expr.leavesAll, Token.name, or_imp, forall_and]

theorem OptionalPhrase.spelled {ts : List Token} {value : Option Expr} (h : OptionalPhrase ts value)
    (hts : ∀ t ∈ ts, Lexeme t.text.toList t.kind) : ∀ leaf ∈ Expr.leaves? value, leaf.Spelled := by
  cases h with
  | none => exact nofun
  | some h => exact h.spelled hts

theorem Parameters.spelled {ts : List Token} {names : List Identifier} (h : Parameters ts names)
    (hts : ∀ t ∈ ts, Lexeme t.text.toList t.kind) :
    ∀ leaf ∈ Identifier.leavesAll names, leaf.Spelled := by
  induction h with
  | none => exact nofun
  | one | more => simp_all [Identifier.leavesAll, Token.name]

theorem Superclass.spelled {ts : List Token} {superclass : Option Reference}
    (h : Superclass ts superclass) (hts : ∀ t ∈ ts, Lexeme t.text.toList t.kind) :
    ∀ leaf ∈ Reference.leaves? superclass, leaf.Spelled := by
  cases h with
  | none => exact nofun
  | inherits => simp_all [Reference.leaves?, Token.name]

theorem Variable.spelled {ts : List Token} {s : Stmt} (h : Variable ts s)
    (hts : ∀ t ∈ ts, Lexeme t.text.toList t.kind) : ∀ leaf ∈ s.leaves, leaf.Spelled := by
  cases h with
  | plain => simp_all [Stmt.leaves, Expr.leaves?, Token.name]
  | withValue hn he hv hs =>
    have hvalue := hv.spelled fun t ht => hts t (by simp [ht])
    simp_all [Stmt.leaves, Expr.leaves?, Form.leaves, Token.name]

theorem ForInitial.spelled {ts : List Token} {initial : Option Stmt} (h : ForInitial ts initial)
    (hts : ∀ t ∈ ts, Lexeme t.text.toList t.kind) :
    ∀ s ∈ initial, ∀ leaf ∈ s.leaves, leaf.Spelled := by
  cases h with
  | none => exact nofun
  | varDeclaration hk h =>
    rintro _ ⟨⟩
    exact h.spelled fun t ht => hts t (by simp [ht])
  | expression h hs =>
    rintro _ ⟨⟩
    exact h.spelled fun t ht => hts t (by simp [ht])

/-- The parts of a `for` loop are spelled, and so is the condition that stands for a missing one. -/
theorem spelled_forBlock {initial : Option Stmt} {condition increment : Option Expr} {body : Stmt}
    (hi : ∀ s ∈ initial, ∀ leaf ∈ s.leaves, leaf.Spelled)
    (hc : ∀ leaf ∈ Expr.leaves? condition, leaf.Spelled)
    (hn : ∀ leaf ∈ Expr.leaves? increment, leaf.Spelled) (hb : ∀ leaf ∈ body.leaves, leaf.Spelled) :
    ∀ leaf ∈ (forBlock (.whileLoop (forCondition condition) (forBody body increment)) initial).leaves,
      leaf.Spelled := by
  have hbody : ∀ leaf ∈ (forBody body increment).leaves, leaf.Spelled := by
    cases increment with
    | none => exact hb
    | some e => simpa [forBody, Stmt.leaves, Stmt.leavesAll, or_imp, forall_and] using ⟨hb, hn⟩
  have hcondition : ∀ leaf ∈ (forCondition condition).leaves, leaf.Spelled := by
    cases condition with
    | none => exact List.forall_mem_singleton.2 trivial
    | some e => exact hc
  have hloop := List.forall_mem_append.2 ⟨hcondition, hbody⟩
  cases initial with
  | none => exact hloop
  | some s =>
    have hinitial := hi s rfl
    simpa [forBlock, Stmt.leaves, Stmt.leavesAll, or_imp, forall_and] using
      ⟨hinitial, hcondition, hbody⟩

/-- In the tree of a clause each name is a token, and each number stands for a numeral. -/
theorem Clause.spelled {s : StatementForm} {ts : List Token} {t : s.Tree} (h : Clause s ts t)
    (hts : ∀ t ∈ ts, Lexeme t.text.toList t.kind) : ∀ leaf ∈ s.leaves t, leaf.Spelled := by
  induction h with
  | classDef hk hn hs ho hm hc ih =>
    have hsuper := hs.spelled fun t ht => hts t (by simp [ht])
    simp_all [StatementForm.leaves, Stmt.leaves, Token.name, or_imp, forall_and]
  | varDeclaration hk h => exact h.spelled fun t ht => hts t (by simp [ht])
  | function hn hop hp hm hcp ho hb hc ih =>
    have hparams := hp.spelled fun t ht => hts t (by simp [ht])
    simp_all [StatementForm.leaves, Stmt.functionLeaves, Token.name, or_imp, forall_and]
  | expression h hs | print _ h hs => exact h.spelled fun t ht => hts t (by simp [ht])
  | ret _ h hs => exact h.spelled fun t ht => hts t (by simp [ht])
  | ifThen _ _ h | whileLoop _ _ h | ifThenElse _ _ h =>
    have hcondition := h.spelled fun t ht => hts t (by simp [ht])
    simp_all [StatementForm.leaves, Stmt.leaves, Form.leaves, or_imp, forall_and]
  | forLoop hk ho hi h hs hn hc hb ih =>
    exact spelled_forBlock (hi.spelled fun t ht => hts t (by simp [ht]))
      (h.spelled fun t ht => hts t (by simp [ht])) (hn.spelled fun t ht => hts t (by simp [ht]))
      (ih fun t ht => hts t (by simp [ht]))
  | _ =>
    simp_all [StatementForm.leaves, Stmt.leaves, Stmt.leavesAll, Stmt.methodLeaves, or_imp, forall_and]

end Grammar

/-- The tokens of a text before its end are lexemes. -/
theorem Scan.lexeme_of_mem {source : String} {t : Token} (h : t ∈ (ofText source).tokens)
    (hend : t.kind ≠ .endOfSource) : Lexeme t.text.toList t.kind := by
  obtain ⟨item, hitem, hok⟩ := List.mem_filterMap.1 h
  cases item with
  | error fault => cases hok
  | ok u =>
    cases hok
    exact Source.lexeme_of_mem_itemsFrom hitem hend

/-- What is read from the tokens of a text has leaves that the text spells. -/
theorem Reading.spelled_of_ofTokens {source : String} {firstId : NodeId} {statements : List Stmt}
    (h : (ofTokens (Scan.ofText source).tokens firstId).result = .ok statements) :
    ∀ leaf ∈ Stmt.leavesAll statements, leaf.Spelled := by
  obtain ⟨body, line, htokens, hfound⟩ := Scan.tokens_eq_append_end source
  rw [htokens] at h
  obtain ⟨hprogram, -⟩ := program_of_ofTokens (fun t ht => (hfound t ht).ne_end) rfl h
  refine hprogram.spelled fun t ht => ?_
  exact Scan.lexeme_of_mem (htokens ▸ List.mem_append_left _ ht) (hfound t ht).ne_end

end Lox
