import Lox.Proofs.Resolution.Placement
import Lox.Proofs.Syntax.Counterpart

/-!
# Like trees are counterparts

Like trees whose references are placed have the same depths for nodes that stand for each other. So they
run alike wherever they are run, with every name unchanged.
-/

namespace Lox

/-- Which lines stand for each other. Line 0 stands for itself. -/
structure Lines where
  related : Nat → Nat → Prop
  zero : related 0 0

/-- Every line stands for itself alone. -/
def Lines.same : Lines := ⟨Eq, rfl⟩

/-- Any line stands for any other. -/
def Lines.any : Lines := ⟨fun _ _ => True, trivial⟩

/-- Nodes below `high` and `limit` for which the same depth is recorded. -/
def Correspondence.byDepth (lines : Lines) (depths others : Depths) (high limit : NodeId) :
    Correspondence where
  node i j := i < high ∧ j < limit ∧ depths i = others j
  line := lines.related
  depth := depths
  zero := lines.zero

/-- Names do not change in any of these scopes. -/
def Frames.Unchanged (frames : Frames) : Prop := ∀ frame ∈ frames, frame.renames = .refl

namespace Frames.Unchanged

variable {frames : Frames}

theorem rename_eq (h : frames.Unchanged) (depth? : Option Nat) (name : String) :
    frames.rename depth? name = name := by
  unfold Frames.rename
  split
  · next frame hframe =>
    obtain ⟨depth, -, hframe⟩ := Option.bind_eq_some_iff.1 hframe
    rw [h frame (List.mem_of_getElem? hframe)]
    rfl
  · rfl

theorem reads (h : frames.Unchanged) (depth? : Option Nat) {name other : String}
    (hname : name = other) : frames.Reads depth? name other := by
  subst hname
  exact ⟨(h.rename_eq depth? name).symm, fun hne => absurd rfl hne⟩

theorem cons (h : frames.Unchanged) (bound : List String) :
    Frames.Unchanged (⟨.refl, bound⟩ :: frames) :=
  List.forall_mem_cons.2 ⟨rfl, h⟩

theorem declare (h : frames.Unchanged) (name : String) : (frames.declare name).Unchanged := by
  cases frames with
  | nil => exact h
  | cons frame outer =>
    rw [Frames.Unchanged, List.forall_mem_cons] at h
    exact List.forall_mem_cons.2 h

theorem after (h : frames.Unchanged) (s : Stmt) : (frames.after s).Unchanged := by
  unfold Frames.after
  split
  · exact h.declare _
  · exact h

theorem ofMethods (h : frames.Unchanged) (superclass : Option Reference) :
    (frames.ofMethods superclass).Unchanged := by
  cases superclass with
  | none => exact h
  | some target => exact h.cons []

end Frames.Unchanged

section

variable {l : Likeness} {lines : Lines} {depths others : Depths}
  {high limit : NodeId} {names : ScopeNames} {frames : Frames} {a b : Expr} {s t : Stmt}

/-- The lines of like trees are related. -/
abbrev Likeness.Within (l : Likeness) (lines : Lines) : Prop := ∀ k m, l.line k m → lines.related k m

theorem Identifier.Alike.within {x y : Identifier} (hl : l.Within lines) (h : x.Alike l y) :
    x.Alike (Correspondence.byDepth lines depths others high limit).toLikeness y :=
  ⟨h.text, hl _ _ h.line⟩

theorem Reference.Alike.counterpart {x y : Reference} (hl : l.Within lines) (hf : frames.Unchanged)
    (h : x.Alike l y) (hx : depths x.id = names.depth? x.name.text)
    (hy : others y.id = names.depth? y.name.text) (hhigh : x.id < high) (hlimit : y.id < limit) :
    x.Counterpart (.byDepth lines depths others high limit) frames y where
  node := ⟨hhigh, hlimit, hx.trans ((congrArg names.depth? h.name.text).trans hy.symm)⟩
  line := hl _ _ h.name.line
  reads := hf.reads _ h.name.text

mutual

theorem Expr.Alike.counterpart {a b : Expr} (hl : l.Within lines) (hf : frames.Unchanged)
    (h : a.Alike l b) (ha : a.Placed depths names) (hb : b.Placed others names)
    (hhigh : ∀ id ∈ a.nodes, id < high) (hlimit : ∀ id ∈ b.nodes, id < limit) :
    a.Counterpart (.byDepth lines depths others high limit) frames b := by
  cases h with
  | literal value => exact .literal value
  | unary h hline => exact .unary (h.counterpart hl hf ha hb hhigh hlimit) (hl _ _ hline)
  | binary hx hy hline =>
    rw [Expr.nodes, List.forall_mem_append] at hhigh hlimit
    exact .binary (hx.counterpart hl hf ha.1 hb.1 hhigh.1 hlimit.1)
      (hy.counterpart hl hf ha.2 hb.2 hhigh.2 hlimit.2) (hl _ _ hline)
  | logical hx hy =>
    rw [Expr.nodes, List.forall_mem_append] at hhigh hlimit
    exact .logical (hx.counterpart hl hf ha.1 hb.1 hhigh.1 hlimit.1)
      (hy.counterpart hl hf ha.2 hb.2 hhigh.2 hlimit.2)
  | grouping h => exact .grouping (h.counterpart hl hf ha hb hhigh hlimit)
  | reference h =>
    exact .reference (h.counterpart hl hf ha hb (hhigh _ (List.mem_singleton_self _))
      (hlimit _ (List.mem_singleton_self _)))
  | assign h hv =>
    rw [Expr.nodes, List.forall_mem_append] at hhigh hlimit
    have ht := h.counterpart hl hf ha.2.1 hb.2.1 (hhigh.2 _ (List.mem_singleton_self _))
      (hlimit.2 _ (List.mem_singleton_self _))
    exact .assign ht.node ht.line ht.reads.rename
      (hv.counterpart hl hf ha.2.2 hb.2.2 hhigh.1 hlimit.1)
  | call hc hes hline =>
    rw [Expr.nodes, List.forall_mem_append] at hhigh hlimit
    exact .call (hc.counterpart hl hf ha.1 hb.1 hhigh.1 hlimit.1)
      (Expr.all_alike_counterpart hl hf hes ha.2 hb.2 hhigh.2 hlimit.2) (hl _ _ hline)
  | get h hn => exact .get (h.counterpart hl hf ha hb hhigh hlimit) (hn.within hl)
  | set h hn hv =>
    rw [Expr.nodes, List.forall_mem_append] at hhigh hlimit
    exact .set (h.counterpart hl hf ha.1 hb.1 hhigh.2 hlimit.2) (hn.within hl)
      (hv.counterpart hl hf ha.2 hb.2 hhigh.1 hlimit.1)
  | this _ hline =>
    obtain ⟨depth, hthis, hd⟩ := ha
    obtain ⟨depth', hthis', hd'⟩ := hb
    obtain rfl : depth = depth' := Option.some.inj (hthis.symm.trans hthis')
    exact .this ⟨hhigh _ (List.mem_singleton_self _), hlimit _ (List.mem_singleton_self _),
      hd.trans hd'.symm⟩ (hl _ _ hline)
  | super _ hline hn =>
    obtain ⟨depth, hthis, -, hd⟩ := ha
    obtain ⟨depth', hthis', -, hd'⟩ := hb
    obtain rfl : depth = depth' := Option.some.inj (hthis.symm.trans hthis')
    exact .super ⟨hhigh _ (List.mem_singleton_self _), hlimit _ (List.mem_singleton_self _),
      hd.trans hd'.symm⟩ (hl _ _ hline) (hn.within hl)

theorem Expr.all_alike_counterpart {as bs : List Expr} (hl : l.Within lines) (hf : frames.Unchanged)
    (h : List.Forall₂ (Expr.Alike l) as bs) (ha : Expr.PlacedAll depths names as)
    (hb : Expr.PlacedAll others names bs) (hhigh : ∀ id ∈ Expr.nodesAll as, id < high)
    (hlimit : ∀ id ∈ Expr.nodesAll bs, id < limit) :
    List.Forall₂ (Expr.Counterpart (.byDepth lines depths others high limit) frames) as bs := by
  cases h with
  | nil => exact .nil
  | cons h hes =>
    rw [Expr.nodesAll, List.forall_mem_append] at hhigh hlimit
    exact .cons (h.counterpart hl hf ha.1 hb.1 hhigh.1 hlimit.1)
      (Expr.all_alike_counterpart hl hf hes ha.2 hb.2 hhigh.2 hlimit.2)

end

theorem Stmt.Alike.declared?_eq (h : s.Alike l t) : s.declared? = t.declared? := by
  cases h with
  | var hn => exact congrArg some hn.text
  | function hf => exact congrArg some hf.name.text
  | classDef hn => exact congrArg some hn.text
  | _ => rfl

mutual

/-- Like statements that are placed are counterparts. -/
theorem Stmt.Alike.counterpart {names : ScopeNames} {frames : Frames} {s t : Stmt}
    (hl : l.Within lines) (hf : frames.Unchanged) (h : s.Alike l t) (hs : s.Placed depths names)
    (ht : t.Placed others names) (hhigh : ∀ id ∈ s.nodes, id < high)
    (hlimit : ∀ id ∈ t.nodes, id < limit) :
    s.Counterpart (.byDepth lines depths others high limit) frames t := by
  have hdeclared : ∀ name, name = frames.renameDeclared name :=
    fun name => (hf.rename_eq _ name).symm
  cases h with
  | expression h => exact .expression (h.counterpart hl hf hs ht hhigh hlimit)
  | print h => exact .print (h.counterpart hl hf hs ht hhigh hlimit)
  | var hn hv =>
    refine .var (hn.text ▸ hdeclared _) ?_
    cases hv with
    | none => exact .none
    | some hv =>
      have ht := (ht.2.2 _ rfl).1
      rw [← hn.text] at ht
      exact .some (hv.counterpart hl hf (hs.2.2 _ rfl).1 ht hhigh hlimit)
  | block h =>
    exact .block .refl (Stmt.all_alike_counterpart hl (hf.cons []) h hs ht hhigh hlimit)
  | conditional hc hthen helse =>
    cases helse with
    | none =>
      rw [Stmt.nodes, List.forall_mem_append] at hhigh hlimit
      exact .ifThen (hc.counterpart hl hf hs.1 ht.1 hhigh.1 hlimit.1)
        (hthen.counterpart hl hf hs.2.2 ht.2.2 hhigh.2 hlimit.2)
    | some helse =>
      simp only [Stmt.nodes, List.forall_mem_append] at hhigh hlimit
      exact .ifThenElse (hc.counterpart hl hf hs.1 ht.1 hhigh.1.1 hlimit.1.1)
        (hthen.counterpart hl hf hs.2.1.2 ht.2.1.2 hhigh.1.2 hlimit.1.2)
        (helse.counterpart hl hf hs.2.2.2 ht.2.2.2 hhigh.2 hlimit.2)
  | whileLoop hc h =>
    rw [Stmt.nodes, List.forall_mem_append] at hhigh hlimit
    exact .whileLoop (hc.counterpart hl hf hs.1 ht.1 hhigh.1 hlimit.1)
      (h.counterpart hl hf hs.2.2 ht.2.2 hhigh.2 hlimit.2)
  | function h =>
    have ht := ht.2.2
    rw [← h.name.text] at ht
    exact .function (hdeclared _) (h.counterpart hl (hf.declare _) hs.2.2 ht hhigh hlimit)
  | ret hline hv =>
    refine .ret ?_
    cases hv with
    | none => exact .none
    | some hv => exact .some (hv.counterpart hl hf (hs _ rfl) (ht _ rfl) hhigh hlimit)
  | @classDef x _ superclass _ _ _ hn hsuper hm =>
    rw [Stmt.nodes, List.forall_mem_append] at hhigh hlimit
    refine .classDef hn.text (hdeclared _) ?_ ?_
    · cases hsuper with
      | none => exact .none
      | some hsuper =>
        exact .some (hsuper.counterpart hl hf hs.2.2.1 ht.2.2.1
          (hhigh.1 _ (List.mem_singleton_self _)) (hlimit.1 _ (List.mem_singleton_self _)))
    · have hinside := ((hf.declare x.text).ofMethods superclass).cons []
      cases hsuper with
      | none =>
        have ht := ht.2.2
        rw [← hn.text] at ht
        exact FunctionDef.all_alike_counterpart hl hinside hm hs.2.2 ht hhigh.2 hlimit.2
      | some hsuper =>
        have ht := ht.2.2.2
        rw [← hn.text] at ht
        exact FunctionDef.all_alike_counterpart hl hinside hm hs.2.2.2 ht hhigh.2 hlimit.2
termination_by sizeOf s

theorem Stmt.all_alike_counterpart {names : ScopeNames} {frames : Frames} {as bs : List Stmt}
    (hl : l.Within lines) (hf : frames.Unchanged) (h : StmtsAlike l as bs)
    (hs : Stmt.PlacedAll depths names as) (ht : Stmt.PlacedAll others names bs)
    (hhigh : ∀ id ∈ Stmt.nodesAll as, id < high) (hlimit : ∀ id ∈ Stmt.nodesAll bs, id < limit) :
    Stmt.BodyCounterpart (.byDepth lines depths others high limit) frames as bs := by
  cases h with
  | nil => exact .nil
  | cons h hrest =>
    rw [Stmt.nodesAll, List.forall_mem_append] at hhigh hlimit
    have ht' := ht.2
    rw [ScopeNames.after, ← h.declared?_eq, ← ScopeNames.after] at ht'
    exact .cons (h.counterpart hl hf hs.1 ht.1 hhigh.1 hlimit.1)
      (Stmt.all_alike_counterpart hl (hf.after _) hrest hs.2 ht' hhigh.2 hlimit.2)
termination_by sizeOf as

theorem FunctionDef.Alike.counterpart {names : ScopeNames} {frames : Frames} {f g : FunctionDef}
    (hl : l.Within lines) (hf : frames.Unchanged) (h : f.Alike l g)
    (hs : Stmt.PlacedFunction depths names f) (ht : Stmt.PlacedFunction others names g)
    (hhigh : ∀ id ∈ Stmt.functionNodes f, id < high)
    (hlimit : ∀ id ∈ Stmt.functionNodes g, id < limit) :
    f.Counterpart (.byDepth lines depths others high limit) frames g := by
  cases h with
  | intro hn hp h =>
    have hparams := Identifier.map_text_eq hp
    have ht := ht.2.2
    rw [← hparams] at ht
    exact .intro .refl hn.text (hparams.symm.trans (List.map_id _).symm)
      (Stmt.all_alike_counterpart hl (hf.cons _) h hs.2.2 ht hhigh hlimit)
termination_by sizeOf f

theorem FunctionDef.all_alike_counterpart {names : ScopeNames} {frames : Frames}
    {fs gs : List FunctionDef} (hl : l.Within lines) (hf : frames.Unchanged)
    (h : List.Forall₂ (FunctionDef.Alike l) fs gs) (hs : Stmt.PlacedMethods depths names fs)
    (ht : Stmt.PlacedMethods others names gs) (hhigh : ∀ id ∈ Stmt.methodNodes fs, id < high)
    (hlimit : ∀ id ∈ Stmt.methodNodes gs, id < limit) :
    FunctionDef.AllCounterpart (.byDepth lines depths others high limit) frames fs gs := by
  cases h with
  | nil => exact .nil
  | cons h hrest =>
    rw [Stmt.methodNodes, List.forall_mem_append] at hhigh hlimit
    exact .cons (h.counterpart hl hf hs.1 ht.1 hhigh.1 hlimit.1)
      (FunctionDef.all_alike_counterpart hl hf hrest hs.2 ht.2 hhigh.2 hlimit.2)
termination_by sizeOf fs

end

end

end Lox
