import Lox.Proofs.Grammar.Program
import Lox.Proofs.Resolution.Placement
import Lox.Proofs.Token.Items

/-!
# Trees that reading can give

A tree that was read declares and assigns to ordinary names only, since `this` and `super` are
keywords, and no declaration stands alone as a branch or as the body of a loop.
-/

namespace Lox

namespace Expr

mutual

/-- The names that an expression assigns to are ordinary. -/
def Ordinary : Expr → Prop
  | literal _ | reference _ | this _ _ | super _ _ _ => True
  | unary _ operand _ => operand.Ordinary
  | binary left _ right _ => left.Ordinary ∧ right.Ordinary
  | logical left _ right => left.Ordinary ∧ right.Ordinary
  | grouping inner => inner.Ordinary
  | assign target value => OrdinaryName target.name.text ∧ value.Ordinary
  | call callee arguments _ => callee.Ordinary ∧ OrdinaryAll arguments
  | get object _ => object.Ordinary
  | set object _ value => object.Ordinary ∧ value.Ordinary

def OrdinaryAll : List Expr → Prop
  | [] => True
  | e :: rest => e.Ordinary ∧ OrdinaryAll rest

end

end Expr

namespace Stmt

mutual

/-- The names that a statement declares and assigns to are ordinary, and no branch declares one. -/
def Ordinary : Stmt → Prop
  | expression value => value.Ordinary
  | print value => value.Ordinary
  | var name initial => OrdinaryName name.text ∧ ∀ e ∈ initial, e.Ordinary
  | block body => OrdinaryAll body
  | conditional condition thenBranch none => condition.Ordinary ∧
      thenBranch.declared? = none ∧ thenBranch.Ordinary
  | conditional condition thenBranch (some elseBranch) => condition.Ordinary ∧
      (thenBranch.declared? = none ∧ thenBranch.Ordinary) ∧
      elseBranch.declared? = none ∧ elseBranch.Ordinary
  | whileLoop condition body => condition.Ordinary ∧ body.declared? = none ∧ body.Ordinary
  | function declaration => OrdinaryFunction declaration
  | ret _ value => ∀ e ∈ value, e.Ordinary
  | classDef name _ methods => OrdinaryName name.text ∧ OrdinaryMethods methods

def OrdinaryAll : List Stmt → Prop
  | [] => True
  | s :: rest => s.Ordinary ∧ OrdinaryAll rest

def OrdinaryFunction : FunctionDef → Prop
  | ⟨name, params, body⟩ => OrdinaryName name.text ∧ (∀ param ∈ params, OrdinaryName param.text) ∧
      OrdinaryAll body

def OrdinaryMethods : List FunctionDef → Prop
  | [] => True
  | declaration :: rest => OrdinaryFunction declaration ∧ OrdinaryMethods rest

end

theorem OrdinaryFunction.ordinaryName {declaration : FunctionDef}
    (h : OrdinaryFunction declaration) : OrdinaryName declaration.name.text := by
  obtain ⟨name, params, body⟩ := declaration
  exact h.1

end Stmt

/-- A name that was found is ordinary. -/
theorem Token.Found.ordinaryName {t : Token} (h : t.Found) (hk : t.kind = .identifier) :
    OrdinaryName t.name.text := by
  constructor
  · intro he
    have hnone := h.name hk
    rw [show t.text = "this" from he] at hnone
    exact absurd hnone (by decide)
  · intro he
    have hnone := h.name hk
    rw [show t.text = "super" from he] at hnone
    exact absurd hnone (by decide)

namespace Grammar

/-- The tree of a form assigns to ordinary names. -/
def Form.Ordinary : (s : Form) → s.Tree → Prop
  | .arguments, es => Expr.OrdinaryAll es
  | .expression, e | .operand _, e | .call, e | .primary, e => e.Ordinary

theorem Phrase.ordinary {s : Form} {ts : List Token} {t : s.Tree} (h : Phrase s ts t)
    (hts : ∀ t ∈ ts, t.Found) : s.Ordinary t := by
  induction h with
  | assignName id hn he hv ih =>
    exact ⟨(hts _ (by simp)).ordinaryName hn, ih fun t ht => hts t (by simp [ht])⟩
  | assignProperty ho hd hn he hv iho ihv =>
    exact ⟨iho fun t ht => hts t (by simp [ht]), ihv fun t ht => hts t (by simp [ht])⟩
  | @join p op connective _ _ left right hl ho hr ihl ihr =>
    have hleft := ihl fun t ht => hts t (by simp [ht])
    have hright := ihr fun t ht => hts t (by simp [ht])
    cases connective <;> exact ⟨hleft, hright⟩
  | operation h ih => exact ih hts
  | tighter h ih => exact ih hts
  | not ho h ih | negate ho h ih => exact ih fun t ht => hts t (by simp [ht])
  | call h ih => exact ih hts
  | invoke hc ho ha hm hr ihc iha =>
    exact ⟨ihc fun t ht => hts t (by simp [ht]), iha fun t ht => hts t (by simp [ht])⟩
  | property ho hd hn ih => exact ih fun t ht => hts t (by simp [ht])
  | primary h ih => exact ih hts
  | grouping ho h hc ih => exact ih fun t ht => hts t (by simp [ht])
  | oneArgument h ih => exact ⟨ih hts, trivial⟩
  | moreArguments h hc hes hne ih ihs =>
    exact ⟨ih fun t ht => hts t (by simp [ht]), ihs fun t ht => hts t (by simp [ht])⟩
  | _ => exact trivial

theorem OptionalPhrase.ordinary {ts : List Token} {value : Option Expr}
    (h : OptionalPhrase ts value) (hts : ∀ t ∈ ts, t.Found) : ∀ e ∈ value, e.Ordinary := by
  cases h with
  | none => exact fun e he => absurd he (Option.not_mem_none e)
  | some h =>
    rintro _ ⟨⟩
    exact h.ordinary hts

theorem Parameters.ordinary {ts : List Token} {names : List Identifier} (h : Parameters ts names)
    (hts : ∀ t ∈ ts, t.Found) : ∀ name ∈ names, OrdinaryName name.text := by
  induction h with
  | none => exact nofun
  | one hk => simpa using (hts _ (by simp)).ordinaryName hk
  | more hk hc hns hne ih =>
    rw [List.forall_mem_cons]
    exact ⟨(hts _ (by simp)).ordinaryName hk, ih fun t ht => hts t (by simp [ht])⟩

theorem Variable.ordinary {ts : List Token} {s : Stmt} (h : Variable ts s)
    (hts : ∀ t ∈ ts, t.Found) : s.Ordinary := by
  cases h with
  | plain hn =>
    exact ⟨(hts _ (by simp)).ordinaryName hn, fun e he => absurd he (Option.not_mem_none e)⟩
  | withValue hn he hv hs =>
    refine ⟨(hts _ (by simp)).ordinaryName hn, ?_⟩
    rintro _ ⟨⟩
    exact hv.ordinary fun t ht => hts t (by simp [ht])

/-- The tree of a form is one that reading can give. Lone statements declare nothing. -/
def StatementForm.Ordinary : (s : StatementForm) → s.Tree → Prop
  | .declaration, s => s.Ordinary
  | .declarations, body => Stmt.OrdinaryAll body
  | .function, f => Stmt.OrdinaryFunction f
  | .functions, methods => Stmt.OrdinaryMethods methods
  | .statement _, s => s.declared? = none ∧ s.Ordinary

theorem ordinary_forBlock {initial : Option Stmt} {condition increment : Option Expr} {body : Stmt}
    (hi : ∀ s ∈ initial, s.Ordinary) (hc : ∀ e ∈ condition, e.Ordinary)
    (hn : ∀ e ∈ increment, e.Ordinary) (hd : body.declared? = none) (hb : body.Ordinary) :
    (forBlock (.whileLoop (forCondition condition) (forBody body increment)) initial).declared? =
        none ∧
      (forBlock (.whileLoop (forCondition condition) (forBody body increment)) initial).Ordinary := by
  have hbody : (forBody body increment).declared? = none ∧ (forBody body increment).Ordinary := by
    cases increment with
    | none => exact ⟨hd, hb⟩
    | some e => exact ⟨rfl, hb, hn e rfl, trivial⟩
  have hcondition : (forCondition condition).Ordinary := by
    cases condition with
    | none => trivial
    | some e => exact hc e rfl
  cases initial with
  | none => exact ⟨rfl, hcondition, hbody⟩
  | some s => exact ⟨rfl, hi s rfl, ⟨hcondition, hbody⟩, trivial⟩

theorem ForInitial.ordinary {ts : List Token} {initial : Option Stmt} (h : ForInitial ts initial)
    (hts : ∀ t ∈ ts, t.Found) : ∀ s ∈ initial, s.Ordinary := by
  cases h with
  | none => exact nofun
  | varDeclaration hk h =>
    rintro _ ⟨⟩
    exact h.ordinary fun t ht => hts t (by simp [ht])
  | expression h hs =>
    rintro _ ⟨⟩
    exact h.ordinary fun t ht => hts t (by simp [ht])

theorem Clause.ordinary {s : StatementForm} {ts : List Token} {t : s.Tree} (h : Clause s ts t)
    (hts : ∀ t ∈ ts, t.Found) : s.Ordinary t := by
  induction h with
  | classDef hk hn hs ho hm hc ih =>
    exact ⟨(hts _ (by simp)).ordinaryName hn, ih fun t ht => hts t (by simp [ht])⟩
  | funDeclaration hk h ih => exact ih fun t ht => hts t (by simp [ht])
  | varDeclaration hk h => exact h.ordinary fun t ht => hts t (by simp [ht])
  | statement h ih => exact (ih hts).2
  | noDeclarations => exact trivial
  | moreDeclarations h hr ih ihr =>
    exact ⟨ih fun t ht => hts t (by simp [ht]), ihr fun t ht => hts t (by simp [ht])⟩
  | function hn hop hp hm hcp ho hb hc ih =>
    exact ⟨(hts _ (by simp)).ordinaryName hn, hp.ordinary fun t ht => hts t (by simp [ht]),
      ih fun t ht => hts t (by simp [ht])⟩
  | noFunctions => exact trivial
  | moreFunctions h hr ih ihr =>
    exact ⟨ih fun t ht => hts t (by simp [ht]), ihr fun t ht => hts t (by simp [ht])⟩
  | expression h hs => exact ⟨rfl, h.ordinary fun t ht => hts t (by simp [ht])⟩
  | print hk h hs => exact ⟨rfl, h.ordinary fun t ht => hts t (by simp [ht])⟩
  | ret hk h hs => exact ⟨rfl, h.ordinary fun t ht => hts t (by simp [ht])⟩
  | block ho h hc ih => exact ⟨rfl, ih fun t ht => hts t (by simp [ht])⟩
  | ifThen hk ho h hc ht ih =>
    exact ⟨rfl, h.ordinary fun t ht => hts t (by simp [ht]), ih fun t ht => hts t (by simp [ht])⟩
  | ifThenElse hk ho h hc ht hke he iht ihe =>
    exact ⟨rfl, h.ordinary fun t ht => hts t (by simp [ht]), iht fun t ht => hts t (by simp [ht]),
      ihe fun t ht => hts t (by simp [ht])⟩
  | whileLoop hk ho h hc hb ih =>
    exact ⟨rfl, h.ordinary fun t ht => hts t (by simp [ht]), ih fun t ht => hts t (by simp [ht])⟩
  | forLoop hk ho hi h hs hn hc hb ih =>
    obtain ⟨hd, hbody⟩ := ih fun t ht => hts t (by simp [ht])
    exact ordinary_forBlock (hi.ordinary fun t ht => hts t (by simp [ht]))
      (h.ordinary fun t ht => hts t (by simp [ht]))
      (hn.ordinary fun t ht => hts t (by simp [ht])) hd hbody

/-- A lone statement declares nothing. -/
theorem Clause.declared?_eq_none {isOpen : Bool} {ts : List Token} {s : Stmt}
    (h : Clause (.statement isOpen) ts s) : s.declared? = none := by
  cases h with
  | @forLoop _ _ _ _ _ _ _ _ initial _ _ _ _ _ _ _ _ _ _ _ _ => cases initial <;> rfl
  | _ => rfl

end Grammar

end Lox
