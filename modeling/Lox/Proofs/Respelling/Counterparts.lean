import Mathlib.Logic.Equiv.Basic
import Lox.Proofs.Respelling

/-!
# A respelled program is a counterpart

A program and the program respelled are counterparts, scope by scope: where the scope is marked, the two
names are exchanged. The depths of what refers to a name stay as they are, since no scope in between has the
new name.
-/

namespace Lox

variable {x y : String}

/-! ### Depths -/

/-- The names of the scopes in the respelled program. -/
def ScopeNames.respelled (x y : String) (names : ScopeNames) (marks : List Bool) : ScopeNames :=
  List.zipWith (fun scope mark => scope.map (respell x y mark)) names marks

/-- Each scope has a mark, and none has the new name. -/
def ScopeNames.Admits (names : ScopeNames) (y : String) (marks : List Bool) : Prop :=
  List.Forall₂ (fun scope _ => y ∉ scope) names marks

namespace ScopeNames

variable {names : ScopeNames} {marks : List Bool} {name : String}

theorem mark_cons (scope : List String) (names : ScopeNames) (mark : Bool) (marks : List Bool)
    (name : String) :
    ScopeNames.mark (scope :: names) (mark :: marks) name =
      if name ∈ scope then mark else ScopeNames.mark names marks name := by
  unfold ScopeNames.mark
  rw [depth?_cons]
  split
  · rfl
  · cases names.depth? name <;> rfl

/-- What a name refers to is at the same depth when both are respelled. -/
theorem depth?_respelled (h : names.Admits y marks) (hname : name ≠ y) :
    (names.respelled x y marks).depth? (respell x y (names.mark marks name) name) =
      names.depth? name := by
  unfold Admits at h
  unfold respelled
  induction h with
  | nil => rfl
  | @cons scope mark names marks hfresh _ ih =>
    rw [List.zipWith_cons_cons, depth?_cons, depth?_cons, mark_cons]
    by_cases hmem : name ∈ scope
    · rw [if_pos hmem, if_pos hmem, if_pos (List.mem_map_of_mem hmem)]
    · have hnot : respell x y (ScopeNames.mark names marks name) name ∉
          scope.map (respell x y mark) := by
        intro hother
        obtain ⟨other, hother, heq⟩ := List.mem_map.1 hother
        have hne : other ≠ y := fun he => hfresh (he ▸ hother)
        exact hmem (respell_injective hne hname heq ▸ hother)
      rw [if_neg hmem, if_neg hmem, if_neg hnot, ih]

theorem respelled_declare (h : names.Admits y marks) (name : String) :
    (names.declare name).respelled x y marks =
      (names.respelled x y marks).declare (respell x y (marks.headD false) name) := by
  cases h <;> rfl

theorem Admits.declare (h : names.Admits y marks) (hname : name ≠ y) :
    (names.declare name).Admits y marks := by
  cases h with
  | nil => exact .nil
  | cons hfresh hrest =>
    exact .cons (fun hmem => (List.mem_cons.1 hmem).elim (fun he => hname he.symm) hfresh) hrest

end ScopeNames

/-! ### Names of a scope -/

/-- The names `x` and `y` are exchanged in a scope that is marked. -/
def Renaming.exchange (hx : OrdinaryName x) (hy : OrdinaryName y) : Bool → Renaming
  | true =>
    ⟨Equiv.swap x y, (Equiv.swap x y).injective, Equiv.swap_apply_of_ne_of_ne hx.1.symm hy.1.symm,
      Equiv.swap_apply_of_ne_of_ne hx.2.symm hy.2.symm⟩
  | false => .refl

theorem Renaming.exchange_apply (hx : OrdinaryName x) (hy : OrdinaryName y) {mark : Bool} {name : String}
    (hname : name ≠ y) : (Renaming.exchange hx hy mark).apply name = respell x y mark name := by
  cases mark with
  | false => exact (if_neg nofun).symm
  | true =>
    by_cases heq : name = x
    · subst heq
      exact (Equiv.swap_apply_left name y).trans (if_pos ⟨rfl, rfl⟩).symm
    · exact (Equiv.swap_apply_of_ne_of_ne heq hname).trans (if_neg fun h => heq h.2).symm

/-- The frames of the scopes around a place, with the names and the marks of the scopes. -/
inductive Frames.Exchange (hx : OrdinaryName x) (hy : OrdinaryName y) :
    Frames → ScopeNames → List Bool → Prop where
  | outside {bound} : Exchange hx hy [⟨.refl, bound⟩] [] []
  | inside {frame frames scope names mark marks}
      (renames : frame.renames = .exchange hx hy mark)
      (bound : mark = true → x ∈ scope → x ∈ frame.bound) (fresh : y ∉ scope)
      (outer : Exchange hx hy frames names marks) :
      Exchange hx hy (frame :: frames) (scope :: names) (mark :: marks)

namespace Frames.Exchange

variable {hx : OrdinaryName x} {hy : OrdinaryName y} {frames : Frames} {names : ScopeNames}
  {marks : List Bool} {name : String}

theorem admits (h : frames.Exchange hx hy names marks) : names.Admits y marks := by
  induction h with
  | outside => exact .nil
  | inside _ _ hfresh _ ih => exact .cons hfresh ih

theorem rename_some (h : frames.Exchange hx hy names marks) (hname : name ≠ y) (depth : Nat) :
    frames.rename (some depth) name = respell x y (marks[depth]?.getD false) name := by
  induction h generalizing depth with
  | outside => cases depth <;> rfl
  | inside hr _ _ _ ih =>
    cases depth with
    | zero =>
      show Renaming.apply _ name = _
      rw [hr, Renaming.exchange_apply hx hy hname]
      rfl
    | succ depth => exact ih depth

/-- Names are exchanged where they refer to, in the scopes with these marks. -/
theorem rename_eq (h : frames.Exchange hx hy names marks) (scopes : ScopeNames) (hname : name ≠ y) :
    frames.rename (scopes.depth? name) name = respell x y (scopes.mark marks name) name := by
  unfold ScopeNames.mark
  cases scopes.depth? name with
  | none => rfl
  | some depth => exact h.rename_some hname depth

/-- A variable that is read under its new name is bound. -/
theorem bound (h : frames.Exchange hx hy names marks) (hmark : names.mark marks x = true) :
    ∃ frame, frames.at? (names.depth? x) = some frame ∧ x ∈ frame.bound := by
  induction h with
  | outside => cases hmark
  | @inside frame frames scope names mark marks _ hbound _ _ ih =>
    rw [ScopeNames.mark_cons] at hmark
    rw [ScopeNames.depth?_cons]
    by_cases hmem : x ∈ scope
    · rw [if_pos hmem] at hmark ⊢
      exact ⟨frame, rfl, hbound hmark hmem⟩
    · rw [if_neg hmem] at hmark ⊢
      obtain ⟨outer, houter, hx⟩ := ih hmark
      refine ⟨outer, ?_, hx⟩
      cases hdepth : names.depth? x with
      | none =>
        rw [hdepth] at houter
        cases houter
      | some depth =>
        rw [hdepth] at houter
        exact houter

theorem declare (h : frames.Exchange hx hy names marks) (hname : name ≠ y) :
    (frames.declare name).Exchange hx hy (names.declare name) marks := by
  cases h with
  | outside => exact .outside
  | inside hr hbound hfresh houter =>
    refine .inside hr (fun hmark hmem => ?_) (fun hmem => ?_) houter
    · rcases List.mem_cons.1 hmem with he | hmem
      · exact List.mem_cons.2 (.inl he)
      · exact List.mem_cons_of_mem _ (hbound hmark hmem)
    · exact (List.mem_cons.1 hmem).elim (fun he => hname he.symm) hfresh

/-- A block begins with no names. -/
theorem block (h : frames.Exchange hx hy names marks) (mark : Bool) :
    Exchange hx hy (⟨.exchange hx hy mark, []⟩ :: frames) ([] :: names) (mark :: marks) :=
  .inside rfl (fun _ hmem => absurd hmem List.not_mem_nil) List.not_mem_nil h

/-- The scopes of `this` and `super` keep their names. -/
theorem plain (h : frames.Exchange hx hy names marks) (hname : name ≠ y) :
    Exchange hx hy (.plain :: frames) ([name] :: names) (false :: marks) :=
  .inside rfl (fun hmark => Bool.noConfusion hmark)
    (fun hmem => hname (List.mem_singleton.1 hmem).symm) h

end Frames.Exchange

/-! ### Trees -/

section

variable {hx : OrdinaryName x} {hy : OrdinaryName y} {depths others : Depths}
  {high limit : NodeId} {frames : Frames} {names : ScopeNames} {marks : List Bool}

theorem ScopeNames.depth?_respelled_of_ne (h : names.Admits y marks) {name : String} (hxn : name ≠ x)
    (hyn : name ≠ y) : (names.respelled x y marks).depth? name = names.depth? name := by
  have hdepth := depth?_respelled (x := x) h hyn
  rwa [respell, if_neg fun hmark => hxn hmark.2] at hdepth

/-- The variable `x` is bound where reading it finds a name that is respelled. -/
abbrev Frames.Supply (frames : Frames) (x : String) (names : ScopeNames) (marks : List Bool)
    (reads : Bool) : Prop :=
  names.mark marks x = true → reads = true →
    ∃ frame, frames.at? (names.depth? x) = some frame ∧ x ∈ frame.bound

theorem Frames.Supply.or {reads others : Bool} (h : frames.Supply x names marks (reads || others)) :
    frames.Supply x names marks reads ∧ frames.Supply x names marks others :=
  ⟨fun hmark hreads => h hmark (Bool.or_eq_true_iff.2 (.inl hreads)),
    fun hmark hreads => h hmark (Bool.or_eq_true_iff.2 (.inr hreads))⟩

theorem Reference.Respelled.depths_eq {s t : Reference} (h : s.Respelled x y names marks t)
    (hadmits : names.Admits y marks) (hs : depths s.id = names.depth? s.name.text)
    (ht : others t.id = (names.respelled x y marks).depth? t.name.text) :
    depths s.id = others t.id := by
  rw [hs, ht, h.text]
  exact (ScopeNames.depth?_respelled hadmits h.fresh).symm

theorem Reference.Respelled.counterpart {s t : Reference} {scopes : ScopeNames}
    (he : frames.Exchange hx hy names marks) (h : s.Respelled x y scopes marks t)
    (hadmits : scopes.Admits y marks) (hs : depths s.id = scopes.depth? s.name.text)
    (ht : others t.id = (scopes.respelled x y marks).depth? t.name.text)
    (hsupply : frames.Supply x scopes marks (s.name.text = x)) (hhigh : s.id < high)
    (hlimit : t.id < limit) :
    s.Counterpart (.byDepth .same depths others high limit) frames t where
  node := ⟨hhigh, hlimit, Reference.Respelled.depths_eq h hadmits hs ht⟩
  line := h.line.symm
  reads := by
    show frames.Reads (depths s.id) _ _
    rw [hs]
    refine ⟨h.text.trans (he.rename_eq scopes h.fresh).symm, fun hne => ?_⟩
    rw [h.text] at hne
    obtain ⟨hmark, hname⟩ := eq_of_respell_ne hne
    rw [hname] at hmark ⊢
    exact hsupply hmark (decide_eq_true hname)

mutual

/-- An expression and the expression respelled are counterparts. -/
theorem Expr.Respelled.counterpart {scopes : ScopeNames} {a b : Expr}
    (he : frames.Exchange hx hy names marks) (hadmits : scopes.Admits y marks)
    (h : a.Respelled x y scopes marks b) (ha : a.Placed depths scopes)
    (hb : b.Placed others (scopes.respelled x y marks))
    (hsupply : frames.Supply x scopes marks (a.reads x))
    (hhigh : ∀ id ∈ a.nodes, id < high) (hlimit : ∀ id ∈ b.nodes, id < limit) :
    a.Counterpart (.byDepth .same depths others high limit) frames b :=
  match h, ha, hb, hsupply, hhigh, hlimit with
  | .literal value, _, _, _, _, _ => .literal value
  | .unary h, ha, hb, hsupply, hhigh, hlimit =>
    .unary (h.counterpart he hadmits ha hb hsupply hhigh hlimit) rfl
  | .binary h k, ha, hb, hsupply, hhigh, hlimit => by
    rw [Expr.nodes, List.forall_mem_append] at hhigh hlimit
    exact .binary (h.counterpart he hadmits ha.1 hb.1 hsupply.or.1 hhigh.1 hlimit.1)
      (k.counterpart he hadmits ha.2 hb.2 hsupply.or.2 hhigh.2 hlimit.2) rfl
  | .logical h k, ha, hb, hsupply, hhigh, hlimit => by
    rw [Expr.nodes, List.forall_mem_append] at hhigh hlimit
    exact .logical (h.counterpart he hadmits ha.1 hb.1 hsupply.or.1 hhigh.1 hlimit.1)
      (k.counterpart he hadmits ha.2 hb.2 hsupply.or.2 hhigh.2 hlimit.2)
  | .grouping h, ha, hb, hsupply, hhigh, hlimit =>
    .grouping (h.counterpart he hadmits ha hb hsupply hhigh hlimit)
  | .reference ht, ha, hb, hsupply, hhigh, hlimit =>
    .reference (Reference.Respelled.counterpart he ht hadmits ha hb hsupply
      (hhigh _ (List.mem_singleton_self _)) (hlimit _ (List.mem_singleton_self _)))
  | @Expr.Respelled.assign _ _ _ _ s t _ _ ht h, ha, hb, hsupply, hhigh, hlimit => by
    rw [Expr.nodes, List.forall_mem_append] at hhigh hlimit
    have hnode := Reference.Respelled.depths_eq ht hadmits ha.2.1 hb.2.1
    refine .assign ⟨hhigh.2 _ (List.mem_singleton_self _), hlimit.2 _ (List.mem_singleton_self _), hnode⟩
      ht.line.symm ?_ (h.counterpart he hadmits ha.2.2 hb.2.2 hsupply hhigh.1 hlimit.1)
    show _ = frames.rename (depths s.id) _
    rw [ha.2.1, ht.text, he.rename_eq scopes ht.fresh]
  | .call h hes, ha, hb, hsupply, hhigh, hlimit => by
    rw [Expr.nodes, List.forall_mem_append] at hhigh hlimit
    exact .call (h.counterpart he hadmits ha.1 hb.1 hsupply.or.1 hhigh.1 hlimit.1)
      (hes.counterpart he hadmits ha.2 hb.2 hsupply.or.2 hhigh.2 hlimit.2) rfl
  | .get h, ha, hb, hsupply, hhigh, hlimit =>
    .get (h.counterpart he hadmits ha hb hsupply hhigh hlimit) ⟨rfl, rfl⟩
  | .set h k, ha, hb, hsupply, hhigh, hlimit => by
    rw [Expr.nodes, List.forall_mem_append] at hhigh hlimit
    exact .set (h.counterpart he hadmits ha.1 hb.1 hsupply.or.1 hhigh.2 hlimit.2) ⟨rfl, rfl⟩
      (k.counterpart he hadmits ha.2 hb.2 hsupply.or.2 hhigh.1 hlimit.1)
  | .this, ha, hb, _, hhigh, hlimit => by
    obtain ⟨depth, hdepth, hd⟩ := ha
    obtain ⟨depth', hdepth', hd'⟩ := hb
    rw [ScopeNames.depth?_respelled_of_ne hadmits hx.1.symm hy.1.symm, hdepth] at hdepth'
    cases hdepth'
    exact .this ⟨hhigh _ (List.mem_singleton_self _), hlimit _ (List.mem_singleton_self _),
      hd.trans hd'.symm⟩ rfl
  | .super, ha, hb, _, hhigh, hlimit => by
    obtain ⟨depth, -, hdepth, hd⟩ := ha
    obtain ⟨depth', -, hdepth', hd'⟩ := hb
    rw [ScopeNames.depth?_respelled_of_ne hadmits hx.2.symm hy.2.symm, hdepth] at hdepth'
    cases hdepth'
    exact .super ⟨hhigh _ (List.mem_singleton_self _), hlimit _ (List.mem_singleton_self _),
      hd.trans hd'.symm⟩ rfl ⟨rfl, rfl⟩
termination_by structural h

theorem Expr.AllRespelled.counterpart {scopes : ScopeNames} {as bs : List Expr}
    (he : frames.Exchange hx hy names marks) (hadmits : scopes.Admits y marks)
    (h : Expr.AllRespelled x y scopes marks as bs) (ha : Expr.PlacedAll depths scopes as)
    (hb : Expr.PlacedAll others (scopes.respelled x y marks) bs)
    (hsupply : frames.Supply x scopes marks (Expr.readsAny x as))
    (hhigh : ∀ id ∈ Expr.nodesAll as, id < high) (hlimit : ∀ id ∈ Expr.nodesAll bs, id < limit) :
    List.Forall₂ (Expr.Counterpart (.byDepth .same depths others high limit) frames) as bs :=
  match h, ha, hb, hsupply, hhigh, hlimit with
  | .nil, _, _, _, _, _ => .nil
  | .cons h hes, ha, hb, hsupply, hhigh, hlimit => by
    rw [Expr.nodesAll, List.forall_mem_append] at hhigh hlimit
    exact .cons (h.counterpart he hadmits ha.1 hb.1 hsupply.or.1 hhigh.1 hlimit.1)
      (hes.counterpart he hadmits ha.2 hb.2 hsupply.or.2 hhigh.2 hlimit.2)
termination_by structural h

end

theorem Frames.Exchange.supply (h : frames.Exchange hx hy names marks) (reads : Bool) :
    frames.Supply x names marks reads := fun hmark _ => h.bound hmark

/-- A local variable is not read in its own initial value, so there it need not be bound. -/
theorem Frames.Exchange.supply_initial (h : frames.Exchange hx hy names marks) {name : String} {e : Expr}
    (hreads : names ≠ [] → e.reads name = false) :
    frames.Supply x (names.declare name) marks (e.reads x) := by
  intro hmark hx
  have hne : x ≠ name := by
    rintro rfl
    cases names with
    | nil => cases hmark
    | cons scope outer =>
      rw [hreads nofun] at hx
      cases hx
  unfold ScopeNames.mark at hmark
  rw [ScopeNames.depth?_declare_of_ne hne] at hmark ⊢
  exact h.bound hmark

theorem Frames.Exchange.renameDeclared_eq (h : frames.Exchange hx hy names marks) {name : String}
    (hname : name ≠ y) : frames.renameDeclared name = respell x y (marks.headD false) name := by
  have hrename := h.rename_some hname 0
  cases marks <;> exact hrename

theorem Frames.Exchange.after {a b : Stmt} (h : frames.Exchange hx hy names marks)
    (hs : Stmt.Respelled x y names marks a b) :
    (frames.after a).Exchange hx hy (names.after a) marks ∧
      (names.respelled x y marks).after b = (names.after a).respelled x y marks := by
  have hfresh := hs.fresh
  unfold Frames.after ScopeNames.after
  rw [hs.declared?_eq]
  cases hdeclared : a.declared? with
  | none => exact ⟨h, rfl⟩
  | some name =>
    rw [hdeclared] at hfresh
    have hname : name ≠ y := fun he => hfresh (congrArg some he)
    exact ⟨h.declare hname, (ScopeNames.respelled_declare h.admits name).symm⟩

mutual

/-- A statement and the statement respelled are counterparts. -/
theorem Stmt.Respelled.counterpart {names : ScopeNames} {marks : List Bool} {frames : Frames} {a b : Stmt}
    (h : Stmt.Respelled x y names marks a b) (he : frames.Exchange hx hy names marks)
    (ha : a.Placed depths names) (hb : b.Placed others (names.respelled x y marks))
    (hhigh : ∀ id ∈ a.nodes, id < high) (hlimit : ∀ id ∈ b.nodes, id < limit) :
    a.Counterpart (.byDepth .same depths others high limit) frames b :=
  match h, he, ha, hb, hhigh, hlimit with
  | .expression h, he, ha, hb, hhigh, hlimit =>
    .expression (h.counterpart he he.admits ha hb (he.supply _) hhigh hlimit)
  | .print h, he, ha, hb, hhigh, hlimit =>
    .print (h.counterpart he he.admits ha hb (he.supply _) hhigh hlimit)
  | .var hname hv, he, ha, hb, hhigh, hlimit => by
    refine .var (hname.text.trans (he.renameDeclared_eq hname.fresh).symm) ?_
    cases hv with
    | none => exact .none
    | some hv =>
      -- The name counts as declared in its initial value, but it is not bound yet.
      obtain ⟨hplaced, hreads⟩ := ha.2.2 _ rfl
      have hplaced' := (hb.2.2 _ rfl).1
      rw [hname.text, ← ScopeNames.respelled_declare he.admits] at hplaced'
      exact .some (hv.counterpart he (he.admits.declare hname.fresh) hplaced hplaced'
        (he.supply_initial hreads) hhigh hlimit)
  | .block mark h, he, ha, hb, hhigh, hlimit =>
    .block (.exchange hx hy mark) (h.counterpart (he.block mark) ha hb hhigh hlimit)
  | .ifThen hc ht, he, ha, hb, hhigh, hlimit => by
    rw [Stmt.nodes, List.forall_mem_append] at hhigh hlimit
    exact .ifThen (hc.counterpart he he.admits ha.1 hb.1 (he.supply _) hhigh.1 hlimit.1)
      (ht.counterpart he ha.2.2 hb.2.2 hhigh.2 hlimit.2)
  | .ifThenElse hc ht hf, he, ha, hb, hhigh, hlimit => by
    simp only [Stmt.nodes, List.forall_mem_append] at hhigh hlimit
    exact .ifThenElse (hc.counterpart he he.admits ha.1 hb.1 (he.supply _) hhigh.1.1 hlimit.1.1)
      (ht.counterpart he ha.2.1.2 hb.2.1.2 hhigh.1.2 hlimit.1.2)
      (hf.counterpart he ha.2.2.2 hb.2.2.2 hhigh.2 hlimit.2)
  | .whileLoop hc h, he, ha, hb, hhigh, hlimit => by
    rw [Stmt.nodes, List.forall_mem_append] at hhigh hlimit
    exact .whileLoop (hc.counterpart he he.admits ha.1 hb.1 (he.supply _) hhigh.1 hlimit.1)
      (h.counterpart he ha.2.2 hb.2.2 hhigh.2 hlimit.2)
  | .function hfresh hkept h, he, ha, hb, hhigh, hlimit => by
    have hdeclared := (he.renameDeclared_eq hfresh).trans (respell_of_kept hkept)
    have hb := hb.2.2
    rw [← h.name_eq, ← respell_of_kept hkept, ← ScopeNames.respelled_declare he.admits] at hb
    exact .function hdeclared.symm (h.counterpart (he.declare hfresh) ha.2.2 hb hhigh hlimit)
  | .ret hv, he, ha, hb, hhigh, hlimit => by
    refine .ret ?_
    cases hv with
    | none => exact .none
    | some hv =>
      exact .some (hv.counterpart he he.admits (ha _ rfl) (hb _ rfl) (he.supply _) hhigh hlimit)
  | .base hfresh hkept hm, he, ha, hb, hhigh, hlimit => by
    have hdeclared := (he.renameDeclared_eq hfresh).trans (respell_of_kept hkept)
    have hb := hb.2.2
    rw [← respell_of_kept hkept, ← ScopeNames.respelled_declare he.admits] at hb
    exact .classDef rfl hdeclared.symm .none
      (hm.counterpart ((he.declare hfresh).plain hy.1.symm) ha.2.2 hb hhigh hlimit)
  | .derived hfresh hkept ht hm, he, ha, hb, hhigh, hlimit => by
    rw [Stmt.nodes, List.forall_mem_append] at hhigh hlimit
    have hdeclared := (he.renameDeclared_eq hfresh).trans (respell_of_kept hkept)
    have hmethods := hb.2.2.2
    rw [← respell_of_kept hkept, ← ScopeNames.respelled_declare he.admits] at hmethods
    refine .classDef rfl hdeclared.symm (.some ?_) ?_
    · exact Reference.Respelled.counterpart he ht he.admits ha.2.2.1 hb.2.2.1 (he.supply _)
        (hhigh.1 _ (List.mem_singleton_self _)) (hlimit.1 _ (List.mem_singleton_self _))
    · exact hm.counterpart (((he.declare hfresh).plain hy.2.symm).plain hy.1.symm) ha.2.2.2 hmethods
        hhigh.2 hlimit.2
termination_by structural h

/-- The statements of a scope and the statements respelled are counterparts. -/
theorem Stmt.BodyRespelled.counterpart {names : ScopeNames} {marks : List Bool} {frames : Frames}
    {as bs : List Stmt} (h : Stmt.BodyRespelled x y names marks as bs)
    (he : frames.Exchange hx hy names marks) (ha : Stmt.PlacedAll depths names as)
    (hb : Stmt.PlacedAll others (names.respelled x y marks) bs)
    (hhigh : ∀ id ∈ Stmt.nodesAll as, id < high) (hlimit : ∀ id ∈ Stmt.nodesAll bs, id < limit) :
    Stmt.BodyCounterpart (.byDepth .same depths others high limit) frames as bs :=
  match h, he, ha, hb, hhigh, hlimit with
  | .nil, _, _, _, _, _ => .nil
  | .cons h hrest, he, ha, hb, hhigh, hlimit => by
    rw [Stmt.nodesAll, List.forall_mem_append] at hhigh hlimit
    obtain ⟨hafter, hnames⟩ := he.after h
    exact .cons (h.counterpart he ha.1 hb.1 hhigh.1 hlimit.1)
      (hrest.counterpart hafter ha.2 (hnames ▸ hb.2) hhigh.2 hlimit.2)
termination_by structural h

theorem FunctionDef.Respelled.counterpart {names : ScopeNames} {marks : List Bool} {frames : Frames}
    {f g : FunctionDef} (h : FunctionDef.Respelled x y names marks f g)
    (he : frames.Exchange hx hy names marks) (ha : Stmt.PlacedFunction depths names f)
    (hb : Stmt.PlacedFunction others (names.respelled x y marks) g)
    (hhigh : ∀ id ∈ Stmt.functionNodes f, id < high)
    (hlimit : ∀ id ∈ Stmt.functionNodes g, id < limit) :
    f.Counterpart (.byDepth .same depths others high limit) frames g :=
  match h, he, ha, hb, hhigh, hlimit with
  | @FunctionDef.Respelled.intro _ _ names marks _ xs _ _ _ mark hparams h, he, ha, hb, hhigh, hlimit => by
    obtain ⟨htexts, hfresh⟩ := Identifier.map_text_respelled hparams
    have hb := hb.2.2
    rw [htexts, ← List.map_reverse] at hb
    have hinside : Frames.Exchange hx hy (⟨.exchange hx hy mark, xs.map Identifier.text⟩ :: frames)
        ((xs.map Identifier.text).reverse :: names) (mark :: marks) :=
      .inside rfl (fun _ hmem => List.mem_reverse.1 hmem) (fun hmem => hfresh (List.mem_reverse.1 hmem)) he
    refine .intro (.exchange hx hy mark) rfl ?_ (h.counterpart hinside ha.2.2 hb hhigh hlimit)
    rw [htexts]
    refine List.map_congr_left fun name hname => ?_
    exact (Renaming.exchange_apply hx hy fun he => hfresh (he ▸ hname)).symm
termination_by structural h

theorem FunctionDef.AllRespelled.counterpart {names : ScopeNames} {marks : List Bool} {frames : Frames}
    {fs gs : List FunctionDef} (h : FunctionDef.AllRespelled x y names marks fs gs)
    (he : frames.Exchange hx hy names marks) (ha : Stmt.PlacedMethods depths names fs)
    (hb : Stmt.PlacedMethods others (names.respelled x y marks) gs)
    (hhigh : ∀ id ∈ Stmt.methodNodes fs, id < high) (hlimit : ∀ id ∈ Stmt.methodNodes gs, id < limit) :
    FunctionDef.AllCounterpart (.byDepth .same depths others high limit) frames fs gs :=
  match h, he, ha, hb, hhigh, hlimit with
  | .nil, _, _, _, _, _ => .nil
  | .cons h hrest, he, ha, hb, hhigh, hlimit => by
    rw [Stmt.methodNodes, List.forall_mem_append] at hhigh hlimit
    exact .cons (h.counterpart he ha.1 hb.1 hhigh.1 hlimit.1)
      (hrest.counterpart he ha.2 hb.2 hhigh.2 hlimit.2)
termination_by structural h

end

end

end Lox
