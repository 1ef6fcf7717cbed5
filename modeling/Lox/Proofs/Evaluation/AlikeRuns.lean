import Lox.Proofs.Evaluation.Lockstep

/-!
# Evaluation of counterparts

Counterparts run alike on like machines: by induction on the bound, with one case for each form of
expression and statement.
-/

namespace Lox

open Procedure

variable {r : Correspondence} {w : World} {frames : Frames} {m n : Machine} {bound : Nat}

/-- Both end normally, or both return values alike. -/
inductive Completion.Alike (r : Correspondence) (w : World) : Completion → Completion → Prop where
  | normal : Completion.Alike r w .normal .normal
  | returned {a b} (h : a.Alike r w b) : Completion.Alike r w (.returned a) (.returned b)

/-- What runs alike with the bound `bound`. -/
structure RunsAlike (r : Correspondence) (bound : Nat) : Prop where
  evaluate : ∀ {w : World} {frames : Frames} {m n : Machine} {a b : Expr},
    m.AlikeIn r w frames n → a.Counterpart r frames b →
    Lockstep r w m n (a.evaluate bound) (b.evaluate bound) frames (Value.Alike r)
  evaluateAll : ∀ {w : World} {frames : Frames} {m n : Machine} {as bs : List Expr},
    m.AlikeIn r w frames n → List.Forall₂ (Expr.Counterpart r frames) as bs →
    Lockstep r w m n (evaluateAll bound as) (evaluateAll bound bs) frames (ValuesAlike r)
  apply : ∀ {w : World} {frames : Frames} {m n : Machine} {a b : Value} {as bs} {k l : Nat},
    m.AlikeIn r w frames n → a.Alike r w b → a.arity? = some as.length → ValuesAlike r w as bs →
    r.line k l → Lockstep r w m n (a.apply bound as k) (b.apply bound bs l) frames (Value.Alike r)
  enter : ∀ {w : World} {frames : Frames} {m n : Machine} {f g : Function} {as bs} {k l : Nat},
    m.AlikeIn r w frames n → f.Alike r w [] g → f.arity = as.length → ValuesAlike r w as bs →
    r.line k l → Lockstep r w m n (f.enter bound as k) (g.enter bound bs l) frames (Value.Alike r)
  execute : ∀ {w : World} {frames : Frames} {m n : Machine} {a b : Stmt},
    m.AlikeIn r w frames n → a.Counterpart r frames b →
    Lockstep r w m n (a.execute bound) (b.execute bound) (frames.after a) (Completion.Alike r)
  executeAll : ∀ {w : World} {frames : Frames} {m n : Machine} {as bs : List Stmt},
    m.AlikeIn r w frames n → Stmt.BodyCounterpart r frames as bs →
    Lockstep r w m n (executeAll bound as) (executeAll bound bs) frames (Completion.Alike r)
  repeatWhile : ∀ {w : World} {frames : Frames} {m n : Machine} {c d : Expr} {a b : Stmt},
    m.AlikeIn r w frames n → c.Counterpart r frames d → a.Counterpart r frames b →
    Lockstep r w m n (repeatWhile bound c a) (repeatWhile bound d b) frames (Completion.Alike r)

namespace RunsAlike

theorem succ_evaluate (ih : RunsAlike r bound) {a b : Expr} (h : m.AlikeIn r w frames n)
    (hab : a.Counterpart r frames b) :
    Lockstep r w m n (a.evaluate (bound + 1)) (b.evaluate (bound + 1)) frames (Value.Alike r) := by
  cases hab with
  | literal value =>
    rw [Expr.evaluate]
    exact .pure h (.of_isPlain (Value.isPlain_ofLiteral value))
  | grouping hab =>
    rw [Expr.evaluate, Expr.evaluate]
    exact ih.evaluate h hab
  | unary hab hl =>
    rw [Expr.evaluate, Expr.evaluate]
    refine Lockstep.bind (ih.evaluate h hab) fun w a b after last hw h hv => ?_
    exact .unary h _ hv hl
  | binary hab hcd hl =>
    rw [Expr.evaluate, Expr.evaluate]
    refine Lockstep.bind (ih.evaluate h hab) fun w a b after last hw h hv => ?_
    refine Lockstep.bind (ih.evaluate h hcd) fun w c d after last hw h hv' => ?_
    exact .binary h _ (hv.mono (.refl r) hw) hv' hl
  | logical hab hcd =>
    rw [Expr.evaluate, Expr.evaluate]
    refine Lockstep.bind (ih.evaluate h hab) fun w a b after last hw h hv => ?_
    rw [hv.decides_eq]
    split
    · exact .pure h hv
    · exact ih.evaluate h hcd
  | reference ht =>
    rw [Expr.evaluate, Expr.evaluate]
    exact .valueOf h ht.node ht.reads ht.line
  | assign hn hl hname hab =>
    rw [Expr.evaluate, Expr.evaluate]
    refine Lockstep.bind (ih.evaluate h hab) fun w a b after last hw h hv => ?_
    refine Lockstep.bind (.assign h hn hl hname hv) fun w _ _ after last hw h _ => ?_
    exact .pure h (hv.mono (.refl r) hw)
  | call hab has hl =>
    rw [Expr.evaluate, Expr.evaluate]
    refine Lockstep.bind (ih.evaluate h hab) fun w a b after last hw h hv => ?_
    refine Lockstep.bind (ih.evaluateAll h has) fun w as bs after last hw h hvs => ?_
    replace hv := hv.mono (.refl r) hw
    rw [← hv.arity?_eq, ← hvs.length_eq]
    cases harity : a.arity? with
    | none => exact .raise h _ hl
    | some arity =>
      simp only
      split
      · next hlength =>
        exact .asCall h hl fun after last h => ih.apply h hv (hlength ▸ harity) hvs hl
      · exact .raise h _ hl
  | get hab hn =>
    rw [Expr.evaluate, Expr.evaluate]
    refine Lockstep.bind (ih.evaluate h hab) fun w a b after last hw h hv => ?_
    cases hv with
    | ofInstance hobject => exact .property h hobject hn
    | _ => exact .raise h _ hn.line
  | set hab hn hcd =>
    rw [Expr.evaluate, Expr.evaluate]
    refine Lockstep.bind (ih.evaluate h hab) fun w a b after last hw h hv => ?_
    cases hv with
    | ofInstance hobject =>
      refine Lockstep.bind (ih.evaluate h hcd) fun w c d after last hw h hv' => ?_
      rw [hn.text]
      refine Lockstep.bind (.setField h (hobject.mono (.refl r) hw) _ hv')
        fun w _ _ after last hw h _ => ?_
      exact .pure h (hv'.mono (.refl r) hw)
    | _ => exact .raise h _ hn.line
  | this hn hl =>
    rw [Expr.evaluate, Expr.evaluate]
    exact .valueOf h hn (Frames.reads_this _ _) hl
  | super hn hl hm =>
    rw [Expr.evaluate, Expr.evaluate]
    exact .superMethod h hn hl hm

theorem succ_evaluateAll (ih : RunsAlike r bound) {as bs : List Expr} (h : m.AlikeIn r w frames n)
    (habs : List.Forall₂ (Expr.Counterpart r frames) as bs) :
    Lockstep r w m n (Lox.evaluateAll (bound + 1) as) (Lox.evaluateAll (bound + 1) bs) frames
      (ValuesAlike r) := by
  cases habs with
  | nil => exact .pure h .nil
  | cons hab habs =>
    rw [Lox.evaluateAll, Lox.evaluateAll]
    refine Lockstep.bind (ih.evaluate h hab) fun w a b after last hw h hv => ?_
    refine Lockstep.bind (ih.evaluateAll h habs) fun w as bs after last hw h hvs => ?_
    exact .pure h (.cons (hv.mono (.refl r) hw) hvs)

theorem succ_apply (ih : RunsAlike r bound) {a b : Value} {as bs : List Value} {k l : Nat}
    (h : m.AlikeIn r w frames n) (hab : a.Alike r w b) (harity : a.arity? = some as.length)
    (habs : ValuesAlike r w as bs) (hl : r.line k l) :
    Lockstep r w m n (a.apply (bound + 1) as k) (b.apply (bound + 1) bs l) frames (Value.Alike r) := by
  cases hab with
  | native f =>
    rw [Value.apply, Value.apply]
    exact .callHost h f habs hl
  | function hfg =>
    rw [Value.apply, Value.apply]
    exact ih.enter h hfg (Option.some.inj harity) habs hl
  | @ofClass c d hcd =>
    rw [Value.apply, Value.apply]
    refine Lockstep.bind (.instantiate h hcd) fun w a b after last hw h hv => ?_
    have hinit := hcd.initializer?
    replace harity : (c.initializer?.map Function.arity).getD 0 = as.length := Option.some.inj harity
    revert hinit harity
    generalize c.initializer? = f
    generalize d.initializer? = g
    intro hinit harity
    cases hinit with
    | none => exact .pure h (.ofInstance hv)
    | some hfg =>
      refine Lockstep.bind (.bindMethod h (hfg.mono (.refl r) hw) hv)
        fun w f g after last hw h hbound => ?_
      replace habs : ValuesAlike r w as bs :=
        habs.imp fun _ _ h => h.mono (.refl r) (World.Grows.trans ‹_› hw)
      refine Lockstep.bind (ih.enter h hbound.1 (hbound.2.trans harity) habs hl)
        fun w' _ _ after last hw' h _ => ?_
      exact .pure h (.ofInstance (hv.mono (.refl r) (hw.trans hw')))
  | _ => cases harity

theorem callResult (h : m.AlikeIn r w frames n) {f g : Function} {inner : Frames}
    (hfg : f.Alike r w inner g) {k l : Nat} (hl : r.line k l) {c d : Completion}
    (hcd : c.Alike r w d) :
    Lockstep r w m n (Run.callResult f k c) (Run.callResult g l d) frames (Value.Alike r) := by
  have hthis := h.store.getAt? g.closure 0 fun id => (w.renames id).this
  unfold Run.callResult
  rw [hfg.isInitializer]
  split
  · refine Lockstep.read ?_
    rw [hfg.closure]
    revert hthis
    generalize g.closure.getAt? m.store 0 "this" = v
    generalize g.closure.getAt? n.store 0 "this" = w
    intro hthis
    cases hthis with
    | none => exact .raise h _ hl
    | some hv => exact .pure h hv
  · cases hcd with
    | normal => exact .pure h .nil
    | returned hv => exact .pure h hv

theorem callBody (ih : RunsAlike r bound) {f g : Function} {as bs : List Value}
    (h : m.AlikeIn r w frames n) (hfg : f.Alike r w [] g) (harity : f.arity = as.length)
    (habs : ValuesAlike r w as bs) :
    Lockstep r w m n (Run.callBody bound f as) (Run.callBody bound g bs) frames
      (Completion.Alike r) := by
  obtain ⟨around, hshows, hdeclaration⟩ := hfg.declaration
  rw [List.nil_append] at hdeclaration
  unfold Function.arity at harity
  rw [Run.callBody, Run.callBody, ← hfg.closure]
  revert harity hdeclaration
  generalize f.declaration = d
  generalize g.declaration = e
  intro harity hdeclaration
  cases hdeclaration with
  | @intro _ x y xs ys cs ds renames hname hparams hbody =>
    have hbound : ∀ name ∈ xs.map Identifier.text,
        (Table.ofList ((xs.map Identifier.text).zip as)).contains name = true := by
      intro name hname
      rw [Table.contains_ofList_iff, List.map_fst_zip (by rw [List.length_map]; exact Nat.le_of_eq harity)]
      exact hname
    have hbindings : Table.Alike renames (Value.Alike r w)
        (Table.ofList ((xs.map Identifier.text).zip as))
        (Table.ofList (((xs.map Identifier.text).map renames.apply).zip bs)) :=
      .zip habs (xs.map Identifier.text)
    simp only
    rw [hparams]
    refine Lockstep.bind (.newScope h hshows ⟨renames, xs.map Identifier.text⟩ hbindings hbound)
      fun w' env _ after last hw h henv => ?_
    obtain ⟨rfl, henv⟩ := henv
    exact .inEnvironment h henv fun after last h => ih.executeAll h hbody

theorem succ_enter (ih : RunsAlike r bound) {f g : Function} {as bs : List Value} {k l : Nat}
    (h : m.AlikeIn r w frames n) (hfg : f.Alike r w [] g) (harity : f.arity = as.length)
    (habs : ValuesAlike r w as bs) (hl : r.line k l) :
    Lockstep r w m n (f.enter (bound + 1) as k) (g.enter (bound + 1) bs l) frames
      (Value.Alike r) := by
  rw [Function.enter_succ, Function.enter_succ]
  refine Lockstep.bind (ih.callBody h hfg harity habs) fun w' c d after last hw h hcd => ?_
  exact callResult h (hfg.mono (.refl r) hw) hl hcd

theorem initialValue (ih : RunsAlike r bound) {a b : Option Expr} (h : m.AlikeIn r w frames n)
    (hab : Option.Rel (Expr.Counterpart r frames) a b) :
    Lockstep r w m n (Run.initialValue bound a) (Run.initialValue bound b) frames
      (Value.Alike r) := by
  cases hab with
  | none => exact .pure h .nil
  | some hab => exact ih.evaluate h hab

/-! ### Classes -/

theorem superclass? {s t : Option Reference} (h : m.AlikeIn r w frames n)
    (hst : Option.Rel (Reference.Counterpart r frames) s t) :
    Lockstep r w m n (Run.superclass? s) (Run.superclass? t) frames
      fun w' c d => Option.Rel (Class.Alike r w') c d ∧ c.isSome = s.isSome := by
  cases hst with
  | none => exact .pure h ⟨.none, rfl⟩
  | some ht =>
    rw [Run.superclass?, Run.superclass?]
    refine Lockstep.bind (.valueOf h ht.node ht.reads ht.line) fun w a b after last hw h hv => ?_
    cases hv with
    | ofClass hcd => exact .pure h ⟨.some hcd, rfl⟩
    | _ => exact .raise h _ ht.line

theorem methodClosure {c d : Option Class} (h : m.AlikeIn r w frames n)
    (hcd : Option.Rel (Class.Alike r w) c d) {s : Option Reference} (hs : c.isSome = s.isSome) :
    Lockstep r w m n (Run.methodClosure c) (Run.methodClosure d) frames
      fun w' e f => e = f ∧ e.Shows w' (frames.ofMethods s) := by
  rw [Run.methodClosure, Run.methodClosure]
  refine Lockstep.read ?_
  rw [← h.environment]
  cases hcd with
  | none =>
    cases s with
    | some t => cases hs
    | none => exact .pure h ⟨rfl, h.shows⟩
  | some hcd =>
    cases s with
    | none => cases hs
    | some t =>
      exact .newScope h h.shows .plain (.ofList (.cons ⟨rfl, .ofClass hcd⟩ .nil)) nofun

theorem methodTable {around : Frames} (id : Nat) {closure : Environment}
    (hclosure : closure.Shows w around) {fs gs : List FunctionDef}
    (h : FunctionDef.AllCounterpart r (.plain :: around) fs gs) :
    (Machine.methodTable id closure fs).Alike .refl (Function.Alike r w [.plain])
      (Machine.methodTable id closure gs) := by
  have hall := h.forall₂
  refine .ofList (List.forall₂_iff_get.2 ⟨by simp [hall.length_eq], fun i hi hi' => ?_⟩)
  rw [List.length_mapIdx] at hi hi'
  have hi : (fs.get ⟨i, hi⟩).Counterpart r (.plain :: around) (gs.get ⟨i, hi'⟩) :=
    (List.forall₂_iff_get.1 hall).2 i hi hi'
  simp only [List.get_eq_getElem, List.getElem_mapIdx] at hi ⊢
  exact ⟨hi.name.symm, rfl, rfl, by rw [hi.name], around, hclosure, hi⟩

theorem succ_execute_classDef {x y : Identifier} {s t : Option Reference} {fs gs : List FunctionDef}
    (h : m.AlikeIn r w frames n) (hxy : x.text = y.text)
    (hdeclared : x.text = frames.renameDeclared x.text)
    (hst : Option.Rel (Reference.Counterpart r frames) s t)
    (hfs : FunctionDef.AllCounterpart r (.plain :: (frames.declare x.text).ofMethods s) fs gs) :
    Lockstep r w m n ((Stmt.classDef x s fs).execute (bound + 1))
      ((Stmt.classDef y t gs).execute (bound + 1)) (frames.declare x.text) (Completion.Alike r) := by
  rw [Stmt.execute_classDef, Stmt.execute_classDef, ← hxy, ← hfs.forall₂.length_eq]
  refine Lockstep.bind (superclass? h hst) fun w c d after last hw h hcd => ?_
  obtain ⟨hcd, hs⟩ := hcd
  refine Lockstep.bind (.define h hdeclared .nil) fun w₁ _ _ after last hw₁ h _ => ?_
  have hcd₁ : Option.Rel (Class.Alike r w₁) c d := by
    cases hcd with
    | none => exact .none
    | some hclass => exact .some (hclass.mono (.refl r) hw₁)
  refine Lockstep.bind (methodClosure h hcd₁ hs) fun w₂ e _ after last hw₂ h he => ?_
  obtain ⟨rfl, he⟩ := he
  refine Lockstep.freshIdentity h _ fun id after last h _ => ?_
  have hw₃ := w₂.grows_declare after.environment.scope x.text
  have htable := methodTable (id + 1) (he.mono hw₃) hfs
  have hredeclared : x.text = (frames.declare x.text).renameDeclared x.text :=
    hdeclared.trans (Frames.renameDeclared_declare ..).symm
  refine Lockstep.bind (.define h hredeclared ?_)
    fun w₃ _ _ after last hw h _ => .pure h.of_declare .normal
  cases hcd₁ with
  | none => exact .ofClass (.base htable)
  | some hclass => exact .ofClass (.derived (hclass.mono (.refl r) (hw₂.trans hw₃)) htable)

/-! ### Statements -/

theorem succ_execute (ih : RunsAlike r bound) {a b : Stmt} (h : m.AlikeIn r w frames n)
    (hab : a.Counterpart r frames b) :
    Lockstep r w m n (a.execute (bound + 1)) (b.execute (bound + 1)) (frames.after a)
      (Completion.Alike r) := by
  cases hab with
  | expression hab =>
    rw [Stmt.execute, Stmt.execute]
    exact Lockstep.bind (ih.evaluate h hab) fun w _ _ after last hw h _ => .pure h .normal
  | print hab =>
    have hl := hab.line
    rw [Stmt.execute, Stmt.execute]
    refine Lockstep.bind (ih.evaluate h hab) fun w a b after last hw h hv => ?_
    rw [hv.display_eq]
    refine Lockstep.bind (.write h _ hl) fun w _ _ after last hw h _ => ?_
    refine Lockstep.bind (.write h _ hl) fun w _ _ after last hw h _ => ?_
    exact .pure h .normal
  | @var _ x y a b hname hab =>
    rw [Stmt.execute_var, Stmt.execute_var]
    refine Lockstep.bind (ih.initialValue h hab) fun w a b after last hw h hv => ?_
    exact Lockstep.bind (.define h hname (hv.mono (.refl r) (w.grows_declare _ _)))
      fun w _ _ after last hw h _ => .pure h .normal
  | block renames hab =>
    rw [Stmt.execute, Stmt.execute]
    refine Lockstep.read ?_
    rw [← h.environment]
    refine Lockstep.bind (.newScope h h.shows ⟨renames, []⟩ .empty (List.forall_mem_nil _))
      fun w env _ after last hw h henv => ?_
    obtain ⟨rfl, henv⟩ := henv
    exact .inEnvironment h henv fun after last h => ih.executeAll h hab
  | ifThen hc ht =>
    rw [Stmt.execute_conditional, Stmt.execute_conditional]
    refine Lockstep.bind (ih.evaluate h hc) fun w a b after last hw h hv => ?_
    rw [hv.isTruthy_eq]
    split
    · exact (ih.execute h ht).of_after
    · exact .pure h .normal
  | ifThenElse hc ht he =>
    rw [Stmt.execute_conditional, Stmt.execute_conditional]
    refine Lockstep.bind (ih.evaluate h hc) fun w a b after last hw h hv => ?_
    rw [hv.isTruthy_eq]
    split
    · exact (ih.execute h ht).of_after
    · exact (ih.execute h he).of_after
  | whileLoop hc hab =>
    rw [Stmt.execute, Stmt.execute]
    exact ih.repeatWhile h hc hab
  | @function _ f g hname hfg =>
    rw [Stmt.execute, Stmt.execute]
    refine Lockstep.read ?_
    rw [← h.environment, ← hfg.name]
    refine Lockstep.freshIdentity h 1 fun id after last hafter henv => ?_
    have hclosure := h.shows.declare f.name.text
    rw [← henv] at hclosure ⊢
    refine Lockstep.bind (.define hafter hname (.function ⟨rfl, rfl, rfl, _, hclosure, hfg⟩))
      fun w _ _ after last hw h _ => .pure h .normal
  | ret hab =>
    rw [Stmt.execute_ret, Stmt.execute_ret]
    refine Lockstep.bind (ih.initialValue h hab) fun w a b after last hw h hv => ?_
    exact .pure h (.returned hv)
  | classDef hxy hdeclared hst hfs => exact succ_execute_classDef h hxy hdeclared hst hfs

theorem succ_executeAll (ih : RunsAlike r bound) {as bs : List Stmt} (h : m.AlikeIn r w frames n)
    (habs : Stmt.BodyCounterpart r frames as bs) :
    Lockstep r w m n (Lox.executeAll (bound + 1) as) (Lox.executeAll (bound + 1) bs) frames
      (Completion.Alike r) := by
  cases habs with
  | nil => exact .pure h .normal
  | cons hab habs =>
    rw [Lox.executeAll, Lox.executeAll]
    refine Lockstep.bind (ih.execute h hab) fun w c d after last hw h hcd => ?_
    cases hcd with
    | returned hv => exact .pure h.of_after (.returned hv)
    | normal => exact (ih.executeAll h habs).of_after

theorem succ_repeatWhile (ih : RunsAlike r bound) {c d : Expr} {a b : Stmt}
    (h : m.AlikeIn r w frames n) (hcd : c.Counterpart r frames d) (hab : a.Counterpart r frames b) :
    Lockstep r w m n (Lox.repeatWhile (bound + 1) c a) (Lox.repeatWhile (bound + 1) d b) frames
      (Completion.Alike r) := by
  rw [Lox.repeatWhile, Lox.repeatWhile]
  refine Lockstep.bind (ih.evaluate h hcd) fun w v v' after last hw h hv => ?_
  rw [hv.isTruthy_eq]
  split
  · refine Lockstep.bind (ih.execute h hab) fun w c d after last hw h hends => ?_
    cases hends with
    | returned hv => exact .pure h.of_after (.returned hv)
    | normal => exact ih.repeatWhile h.of_after hcd hab
  · exact .pure h .normal

theorem succ (ih : RunsAlike r bound) : RunsAlike r (bound + 1) where
  evaluate := ih.succ_evaluate
  evaluateAll := ih.succ_evaluateAll
  apply := ih.succ_apply
  enter := ih.succ_enter
  execute := ih.succ_execute
  executeAll := ih.succ_executeAll
  repeatWhile := ih.succ_repeatWhile

theorem zero : RunsAlike r 0 where
  evaluate _ _ := .exhaust
  evaluateAll _ _ := .exhaust
  apply _ _ _ _ _ := .exhaust
  enter _ _ _ _ _ := .exhaust
  execute _ _ := .exhaust
  executeAll _ _ := .exhaust
  repeatWhile _ _ _ := .exhaust

end RunsAlike

/-- Counterparts run alike, whatever the bound. -/
theorem runsAlike (r : Correspondence) (bound : Nat) : RunsAlike r bound := by
  induction bound with
  | zero => exact .zero
  | succ bound ih => exact ih.succ

/-- Programs that are counterparts run alike. -/
theorem lockstep_runProgram (bound : Nat) {body others : List Stmt} (h : m.AlikeIn r w frames n)
    (hs : Stmt.BodyCounterpart r frames body others) :
    Lockstep r w m n (runProgram bound body) (runProgram bound others) frames fun _ _ _ => True := by
  induction body generalizing w frames m n others with
  | nil =>
    cases hs
    exact .pure h trivial
  | cons a as ih =>
    cases hs with
    | cons hab hrest =>
      rw [runProgram, runProgram]
      exact (Lockstep.bind ((runsAlike r bound).execute h hab)
        fun w _ _ after last hw h _ => ih h hrest).of_after

end Lox
