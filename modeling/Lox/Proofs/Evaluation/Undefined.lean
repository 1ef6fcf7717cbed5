import Lox.Proofs.Evaluation.Hits
import Lox.Proofs.Evaluation.Origins

/-!
# Undefined variables

A run from a sound machine ends with an undefined variable only where it refers to a variable that
is not resolved and not among the global ones.
-/

namespace Lox

open Procedure Run

/-- The task refers to a variable that is not resolved and not among the global ones. -/
inductive Configuration.Misses (name : String) (line : Nat) : Configuration → Prop where
  | reference {n m target} (hname : target.name = ⟨name, line⟩)
      (hdepth : m.depths[target.id]? = none) (hglobal : m.global? name = none) :
      Misses name line ⟨n + 1, m, .expression (.reference target)⟩
  | assign {n m target value a after} (hname : target.name = ⟨name, line⟩)
      (hvalue : value.evaluate n m = .ok a after) (hdepth : after.depths[target.id]? = none)
      (hglobal : after.global? name = none) :
      Misses name line ⟨n + 1, m, .expression (.assign target value)⟩

section

variable {m : Machine} {name : String} {line : Nat}

/-- A variable that is not found has no depth of its own. -/
theorem Machine.global?_of_valueOf?_eq_none {id : NodeId} (h : m.valueOf? id name = none)
    (hlocal : ∀ depth, m.depths[id]? = some depth → ∃ value, m.BindsAt depth name value) :
    m.depths[id]? = none ∧ m.global? name = none := by
  unfold Machine.valueOf? at h
  cases hd : m.depths[id]? with
  | none =>
    rw [hd] at h
    exact ⟨rfl, h⟩
  | some depth =>
    obtain ⟨value, hbinds⟩ := hlocal depth hd
    simp only [hd, hbinds.getAt?] at h
    cases h

/-- An assignment that does not find its variable has no depth of its own. -/
theorem Machine.global?_of_assignee?_eq_none {id : NodeId} (h : m.assignee? id name = none)
    (hlocal : ∀ depth, m.depths[id]? = some depth → ∃ old, m.BindsAt depth name old) :
    m.depths[id]? = none ∧ m.global? name = none := by
  unfold Machine.assignee? at h
  cases hd : m.depths[id]? with
  | none =>
    simp only [hd] at h
    have hbinds := List.find?_eq_none.1 h 0 (.head _)
    rw [Machine.global?_eq]
    exact ⟨rfl, Option.not_isSome_iff_eq_none.1 hbinds⟩
  | some depth =>
    obtain ⟨old, hbinds⟩ := hlocal depth hd
    simp only [hd, Option.map_eq_none_iff] at h
    have hold := hbinds.getAt?
    rw [Environment.getAt?, h] at hold
    cases hold

/-- What `super` needs is there, so the method can only be missing. -/
theorem Run.superMethod_of_hits {id : NodeId} {l : Nat} {method : Identifier}
    (h : (Expr.super id l method).Hits m) :
    ∃ (c : Class) (object : Instance), superMethod id l method m =
      match c.findMethod? method.text with
      | some f => (Run.bind f object >>= fun bound => pure (.function bound) : Run Value) m
      | none => .error ⟨.undefinedProperty method.text, method.line⟩ m := by
  obtain ⟨depth, c, object, hd, hsuper, hthis⟩ := h
  refine ⟨c, object, ?_⟩
  cases hf : c.findMethod? method.text <;>
    simp [superMethod, bind_apply, Procedure.read, hd, hsuper.getAt?, hthis.getAt?, hf, raise, fail,
      -bind_pure_comp]

end

namespace Configuration.Sound

variable {depths : Depths} {limit : NodeId} {n : Nat} {m : Machine} {name : String} {line : Nat}

/-- A sound task that raises an undefined variable misses it. -/
theorem misses {d : Configuration} (h : d.Sound depths limit)
    (hraised : d.Raises ⟨.undefinedVariable name, line⟩) : d.Misses name line := by
  cases hraised with
  | unary _ hfault =>
    unfold UnaryOperator.apply at hfault
    split at hfault <;> cases hfault
  | binary _ _ hfault =>
    unfold BinaryOperator.apply at hfault
    split at hfault <;> cases hfault
  | reference hnone =>
    obtain ⟨hd, hglobal⟩ := Machine.global?_of_valueOf?_eq_none hnone h.hits
    exact .reference rfl hd hglobal
  | @assign n m target value a after ha hnone =>
    have hlocal : ∀ depth, after.depths[target.id]? = some depth →
        ∃ old, after.BindsAt depth target.name.text old := by
      intro depth hd
      have hrecorded : m.depths[target.id]? = after.depths[target.id]? := by
        obtain ⟨names, hready, hp⟩ := h
        rw [hready.sound.recorded, (hready.evaluate hp.2.2 ha).1.sound.recorded]
      exact ((h.hits depth (hrecorded.trans hd)).2 n a after ha).2
    obtain ⟨hd, hglobal⟩ := Machine.global?_of_assignee?_eq_none hnone hlocal
    exact .assign rfl ha hd hglobal
  | @this n m id _ hnone =>
    obtain ⟨depth, object, hd, hbinds⟩ := h.hits
    simp only [Machine.valueOf?, hd, hbinds.getAt?] at hnone
    cases hnone
  | super hfails =>
    obtain ⟨c, object, hsuper⟩ := superMethod_of_hits h.hits
    rw [hsuper] at hfails
    cases hfound : c.findMethod? _ with
    | none =>
      rw [hfound] at hfails
      cases hfails
    | some f =>
      rw [hfound] at hfails
      exact (NeverFails.bind (.bindMethod f object) fun _ => .pure _).absurd hfails
  | instanceLost hbody hinit hlost =>
    obtain ⟨object, hobject⟩ := h.entry_hits hinit _ _ hbody
    cases hobject.symm.trans hlost

/-- An undefined variable is missed by some part of the run. -/
theorem exists_misses_program {statements : List Stmt}
    (h : Sound depths limit ⟨n, m, .program statements⟩)
    (hf : (runProgram n statements m).failure? = some ⟨.undefinedVariable name, line⟩) :
    ∃ d, Reaches ⟨n, m, .program statements⟩ d ∧ d.Misses name line := by
  obtain ⟨d, hreach, hraised⟩ := exists_origin_of_program hf
  exact ⟨d, hreach, (h.reaches hreach).misses hraised⟩

end Configuration.Sound

end Lox
