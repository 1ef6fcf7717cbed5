import Lox.Proofs.Evaluation.Regime

/-!
# Trees without loops

A program that spells neither of the keywords `while` and `for` has a tree without loops, since a
`for` loop is written with a `while` loop. The functions that it declares have none either, so that
being free of loops is a regime.
-/

namespace Lox

namespace Stmt

mutual

/-- There is no loop in the statement, nor in any function that it declares. -/
def LoopFree : Stmt → Prop
  | expression _ | print _ | var _ _ | ret _ _ => True
  | block body => LoopFreeAll body
  | conditional _ thenBranch none => thenBranch.LoopFree
  | conditional _ thenBranch (some elseBranch) => thenBranch.LoopFree ∧ elseBranch.LoopFree
  | whileLoop _ _ => False
  | function declaration => LoopFreeFunction declaration
  | classDef _ _ methods => LoopFreeMethods methods

def LoopFreeAll : List Stmt → Prop
  | [] => True
  | s :: rest => s.LoopFree ∧ LoopFreeAll rest

def LoopFreeFunction : FunctionDef → Prop
  | ⟨_, _, body⟩ => LoopFreeAll body

def LoopFreeMethods : List FunctionDef → Prop
  | [] => True
  | declaration :: rest => LoopFreeFunction declaration ∧ LoopFreeMethods rest

end

theorem LoopFreeFunction.body {f : FunctionDef} (h : LoopFreeFunction f) : LoopFreeAll f.body := by
  obtain ⟨name, params, body⟩ := f
  exact h

theorem LoopFreeMethods.of_mem {methods : List FunctionDef} (h : LoopFreeMethods methods) :
    ∀ f ∈ methods, LoopFreeFunction f := by
  induction methods with
  | nil => exact List.forall_mem_nil _
  | cons declaration rest ih =>
    rw [List.forall_mem_cons]
    exact ⟨h.1, ih h.2⟩

mutual

theorem LoopFree.ownFunctions {s : Stmt} (h : s.LoopFree) :
    ∀ f ∈ s.ownFunctions, LoopFreeFunction f := by
  match s with
  | block body => exact LoopFreeAll.ownFunctionsAll h
  | conditional _ thenBranch none =>
    rw [Stmt.ownFunctions]
    exact LoopFree.ownFunctions h
  | conditional _ thenBranch (some elseBranch) =>
    rw [Stmt.ownFunctions, List.forall_mem_append]
    exact ⟨LoopFree.ownFunctions h.1, LoopFree.ownFunctions h.2⟩
  | whileLoop _ _ => exact h.elim
  | function declaration =>
    intro f hf
    rw [List.mem_singleton.1 hf]
    exact h
  | classDef _ _ methods => exact LoopFreeMethods.of_mem h
  | expression _ | print _ | var _ _ | ret _ _ => exact nofun

theorem LoopFreeAll.ownFunctionsAll {body : List Stmt} (h : LoopFreeAll body) :
    ∀ f ∈ ownFunctionsAll body, LoopFreeFunction f := by
  match body with
  | [] => exact nofun
  | s :: rest =>
    rw [Stmt.ownFunctionsAll, List.forall_mem_append]
    exact ⟨LoopFree.ownFunctions h.1, LoopFreeAll.ownFunctionsAll h.2⟩

end

end Stmt

/-- Only functions without loops may be declared. -/
def Regime.loopFree : Regime :=
  .ofCode Stmt.LoopFreeFunction fun _ hf => hf.body.ownFunctionsAll

theorem Regime.under_loopFree {s : Stmt} (ho : s.Ordinary) (h : s.LoopFree) : s.Under .loopFree :=
  ⟨ho, fun f hf => ⟨ho.ownFunctions f hf, h.ownFunctions f hf⟩⟩

theorem Regime.underAll_loopFree {body : List Stmt} (ho : Stmt.OrdinaryAll body)
    (h : Stmt.LoopFreeAll body) : Stmt.UnderAll .loopFree body :=
  ⟨ho, fun f hf => ⟨ho.ownFunctionsAll f hf, h.ownFunctionsAll f hf⟩⟩

theorem Regime.loopFree_body {f : FunctionDef} (h : Regime.loopFree.declaration f) :
    Stmt.LoopFreeAll f.body := h.2.body

/-! ### Programs without loops -/

/-- The token begins a loop. -/
def Token.BeginsLoop (t : Token) : Prop := t.kind = .keyword .kwWhile ∨ t.kind = .keyword .kwFor

instance (t : Token) : Decidable t.BeginsLoop := inferInstanceAs (Decidable (_ ∨ _))

namespace Grammar

/-- The tree of a form has no loop. -/
def StatementForm.LoopFree : (s : StatementForm) → s.Tree → Prop
  | .declaration, s | .statement _, s => s.LoopFree
  | .declarations, body => Stmt.LoopFreeAll body
  | .function, f => Stmt.LoopFreeFunction f
  | .functions, methods => Stmt.LoopFreeMethods methods

theorem Variable.loopFree {ts : List Token} {s : Stmt} (h : Variable ts s) : s.LoopFree := by
  cases h <;> exact trivial

/-- Where no token begins a loop, the tree has none. -/
theorem Clause.loopFree {s : StatementForm} {ts : List Token} {t : s.Tree} (h : Clause s ts t)
    (hts : ∀ t ∈ ts, ¬ t.BeginsLoop) : s.LoopFree t := by
  induction h with
  | classDef hk hn hs ho hm hc ih => exact ih fun t ht => hts t (by simp [ht])
  | funDeclaration hk h ih => exact ih fun t ht => hts t (by simp [ht])
  | varDeclaration hk h => exact h.loopFree
  | statement h ih => exact ih hts
  | moreDeclarations h hr ih ihr | moreFunctions h hr ih ihr =>
    exact ⟨ih fun t ht => hts t (by simp [ht]), ihr fun t ht => hts t (by simp [ht])⟩
  | function hn hop hp hm hcp ho hb hc ih => exact ih fun t ht => hts t (by simp [ht])
  | block ho h hc ih => exact ih fun t ht => hts t (by simp [ht])
  | ifThen hk ho h hc ht ih => exact ih fun t ht => hts t (by simp [ht])
  | ifThenElse hk ho h hc ht hke he iht ihe =>
    exact ⟨iht fun t ht => hts t (by simp [ht]), ihe fun t ht => hts t (by simp [ht])⟩
  | whileLoop hk => exact absurd (.inl hk) (hts _ (by simp))
  | forLoop hk => exact absurd (.inr hk) (hts _ (by simp))
  | noDeclarations | noFunctions | expression _ _ | print _ _ _ | ret _ _ _ => exact trivial

end Grammar

end Lox
