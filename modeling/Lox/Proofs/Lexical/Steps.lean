import Lox.Proofs.Agreement
import Lox.Proofs.Lexical.States

/-!
# Steps that match

Each step that evaluation is made of is followed by the reference semantics: from states that match
both go on to states that match, or both fail alike.
-/

namespace Lox.Lexical

open Procedure

theorem valueOf_apply (scope : Scope) (name : String) (line : Nat) (s : State) :
    valueOf scope name line s =
      match s.get? scope name with
      | some value => .ok value s
      | none => .error ⟨.undefinedVariable name, line⟩ s := by
  cases h : s.get? scope name <;> simp [valueOf, bind_apply, Procedure.read, raise, fail, h]

theorem asCall_apply {α : Type} (line : Nat) (x : Run α) (s : State) :
    asCall line x s =
      if s.maxCallDepth ≤ s.callDepth then .error ⟨.stackOverflow, line⟩ s
      else afterwards (fun s => { s with callDepth := s.callDepth - 1 }) x
        { s with callDepth := s.callDepth + 1 } := by
  by_cases h : s.maxCallDepth ≤ s.callDepth <;>
    simp [asCall, bind_apply, Procedure.read, update, raise, fail, h]

/-- The same failure, after the same output. -/
def SameFailure (e f : Failure) (m : Machine) (s : State) : Prop := e = f ∧ m.output = s.output

section

variable (depths : Depths) (limit : NodeId) (low : Nat) (slots : Slots) (m : Machine) (s : State)

/-- The runs of `x` and `y` agree: if they end normally, the states match again, with more slots, and
`P` relates the results. -/
def Simulates {α β : Type} (x : Lox.Run α) (y : Run β) (P : Slots → α → β → Prop) : Prop :=
  Agree SameFailure x y m s fun a b after t => ∃ later,
    Grows low slots m later after ∧ Matches depths limit low later after t ∧ P later a b

end

variable {depths : Depths} {limit : NodeId} {low : Nat} {slots later : Slots} {m after : Machine}
  {s t : State} {names : ScopeNames} {scope : Scope}

namespace Simulates

variable {α β γ δ : Type} {x : Lox.Run α} {y : Run β} {P : Slots → α → β → Prop}

theorem of_ok {a : α} {b : β} (hx : x m = .ok a after) (hy : y s = .ok b t)
    (hg : Grows low slots m later after) (h : Matches depths limit low later after t)
    (hP : P later a b) : Simulates depths limit low slots m s x y P :=
  Agree.of_ok hx hy ⟨later, hg, h, hP⟩

theorem pure {a : α} {b : β} (h : Matches depths limit low slots m s) (hP : P slots a b) :
    Simulates depths limit low slots m s (Pure.pure a) (Pure.pure b) P :=
  of_ok rfl rfl .refl h hP

theorem raise (h : Matches depths limit low slots m s) (fault : RuntimeFault) (line : Nat) :
    Simulates depths limit low slots m s (Run.raise fault line) (raise fault line) P :=
  Agree.of_error rfl rfl ⟨rfl, h.output⟩

theorem exhaust : Simulates depths limit low slots m s (exhaust : Lox.Run α) (exhaust : Run β) P :=
  trivial

theorem mono {Q : Slots → α → β → Prop} (h : Simulates depths limit low slots m s x y P)
    (hPQ : ∀ later a b, slots <+: later → P later a b → Q later a b) :
    Simulates depths limit low slots m s x y Q :=
  Agree.mono h fun a b _ _ ⟨later, hg, hm, hP⟩ => ⟨later, hg, hm, hPQ later a b hg.le hP⟩

theorem bind {f : α → Lox.Run γ} {g : β → Run δ} {Q : Slots → γ → δ → Prop}
    (h : Simulates depths limit low slots m s x y P)
    (hnext : ∀ a b later after t, Grows low slots m later after →
      Matches depths limit low later after t → P later a b →
      Simulates depths limit low later after t (f a) (g b) Q) :
    Simulates depths limit low slots m s (x >>= f) (y >>= g) Q := by
  refine Agree.bind h fun a b after t ⟨later, hg, hm, hP⟩ => ?_
  refine Agree.mono (hnext a b later after t hg hm hP) ?_
  rintro c d final u ⟨last, hg', hm', hQ⟩
  exact ⟨last, hg.trans hg', hm', hQ⟩

theorem map {f : β → γ} {Q : Slots → α → γ → Prop} (h : Simulates depths limit low slots m s x y P)
    (hPQ : ∀ later a b, slots <+: later → P later a b → Q later a (f b)) :
    Simulates depths limit low slots m s x (y >>= fun b => Pure.pure (f b)) Q := by
  rw [← bind_pure x]
  exact bind h fun a b later after t hg hm hP => pure hm (hPQ later a b hg.le hP)

theorem environment {f : Lox.Environment → Lox.Run α}
    (h : Simulates depths limit low slots m s (f m.environment) y P) :
    Simulates depths limit low slots m s (Procedure.read Machine.environment >>= f) y P := h

theorem inEnvironment (env : Environment)
    (h : Simulates depths limit low slots { m with environment := env } s x y P) :
    Simulates depths limit low slots m s (Run.inEnvironment env x) y P := by
  unfold Simulates Agree at *
  rw [Run.inEnvironment_apply, afterwards]
  split at h
  · next hx hy =>
    rw [hx, hy]
    obtain ⟨later, hg, hm, hP⟩ := h
    exact ⟨later, ⟨hg.le, hg.size, hg.fresh, rfl⟩, { hm with }, hP⟩
  · next hx hy =>
    rw [hx, hy]
    exact h
  · next hx hy =>
    rw [hx, hy]
    trivial
  · exact h.elim

theorem asCall (hm : Matches depths limit low slots m s) {line : Nat}
    (h : Simulates depths limit low slots { m with callDepth := m.callDepth + 1 }
      { s with callDepth := s.callDepth + 1 } x y P) :
    Simulates depths limit low slots m s (Run.asCall line x) (Lexical.asCall line y) P := by
  have hcall := asCall_apply line y s
  have hrun := Run.asCall_apply line x m
  by_cases hfull : s.maxCallDepth ≤ s.callDepth
  · rw [if_pos hfull] at hcall
    rw [if_pos (by rwa [hm.maxCallDepth, hm.callDepth])] at hrun
    exact Agree.of_error hrun hcall ⟨rfl, hm.output⟩
  · rw [if_neg hfull] at hcall
    rw [if_neg (by rwa [hm.maxCallDepth, hm.callDepth])] at hrun
    refine Agree.congr hrun hcall (Agree.afterwards h ?_ fun _ _ _ _ he => he)
    rintro a b after t ⟨later, hg, hm', hP⟩
    exact ⟨later, ⟨hg.le, hg.size, hg.fresh, hg.environment⟩,
      { hm' with callDepth := congrArg (· - 1) hm'.callDepth }, hP⟩

/-! ### Operators -/

theorem located (h : Matches depths limit low slots m s) {line : Nat}
    {result : Except RuntimeFault Lox.Value} (hr : ∀ value, result = .ok value → value.IsPlain) :
    Simulates depths limit low slots m s (Run.located line result) (Lexical.located line result)
      (ValueMatches depths limit) := by
  cases result with
  | ok value => exact pure h (.ofPlain (hr value rfl))
  | error fault => exact raise h fault line

theorem unary (h : Matches depths limit low slots m s) (operator : UnaryOperator) (line : Nat)
    {a : Lox.Value} {b : Value} (hab : ValueMatches depths limit slots a b) :
    Simulates depths limit low slots m s (Run.located line (operator.apply a))
      (Lexical.located line (operator.apply b.content)) (ValueMatches depths limit) := by
  rw [hab.content_eq, UnaryOperator.apply_content]
  exact located h fun value => UnaryOperator.isPlain_apply

theorem binary (h : Matches depths limit low slots m s) (operator : BinaryOperator) (line : Nat)
    {a c : Lox.Value} {b d : Value} (hab : ValueMatches depths limit slots a b)
    (hcd : ValueMatches depths limit slots c d) :
    Simulates depths limit low slots m s (Run.located line (operator.apply a c))
      (Lexical.located line (operator.apply b.content d.content)) (ValueMatches depths limit) := by
  rw [hab.content_eq, hcd.content_eq, BinaryOperator.apply_content]
  exact located h fun value => BinaryOperator.isPlain_apply

/-! ### Variables -/

theorem valueOf (h : Matches depths limit low slots m s)
    (hs : ScopeMatches slots m.environment names scope) {id : NodeId} {name : String}
    (hd : depths id = names.depth? name) (line : Nat) :
    Simulates depths limit low slots m s (Run.valueOf id name line)
      (Lexical.valueOf scope name line) (ValueMatches depths limit) := by
  have hv := h.valueOf? hs hd
  have hx := Run.valueOf_apply id name line m
  have hy := valueOf_apply scope name line s
  revert hv hx hy
  generalize m.valueOf? id name = a
  generalize s.get? scope name = b
  intro hv hx hy
  cases hv with
  | none => exact Agree.of_error hx hy ⟨rfl, h.output⟩
  | some hv => exact of_ok hx hy .refl h hv

theorem assign (h : Matches depths limit low slots m s)
    (hs : ScopeMatches slots m.environment names scope) {target : Reference}
    (hd : depths target.id = names.depth? target.name.text) {a : Lox.Value} {b : Value}
    (hab : ValueMatches depths limit slots a b) :
    Simulates depths limit low slots m s (Run.assign target a)
      (Lexical.assign scope target.name b) fun _ _ _ => True := by
  have hx := Run.assign_apply target a m
  rcases h.assignee? hs hd with ⟨hnone, hget⟩ | ⟨place, hplace, hsome, hput⟩
  · rw [hnone] at hx
    refine Agree.of_error hx ?_ ⟨rfl, h.output⟩
    rw [Lexical.assign]
    exact bind_apply_of_error (by rw [valueOf_apply, hget])
  · obtain ⟨old, hold⟩ := Option.isSome_iff_exists.1 hsome
    rw [hplace] at hx
    have hy : Lexical.assign scope target.name b s = .ok () (s.put scope target.name.text b) := by
      rw [Lexical.assign]
      exact bind_apply_of_ok (by rw [valueOf_apply, hold])
    refine of_ok hx hy ⟨List.prefix_refl _, ?_, fun _ h => .inl h, rfl⟩ (hput a b hab) trivial
    exact Nat.le_of_eq (Store.size_put _ _ _ _).symm

theorem freshIdentity (h : Matches depths limit low slots m s) (count : Nat) :
    Simulates depths limit low slots m s (Run.freshIdentity count) (Lexical.freshIdentity count)
      fun later a b => a = b ∧ later = slots :=
  of_ok rfl rfl ⟨List.prefix_refl _, Nat.le_refl _, fun _ h => .inl h, rfl⟩
    { h with nextIdentity := congrArg (· + count) h.nextIdentity } ⟨h.nextIdentity, rfl⟩

/-! ### Scopes, functions and instances -/

/-- A new scope with one name, on both sides. -/
theorem extend (h : Matches depths limit low slots m s) {env : Environment}
    (hs : ScopeMatches slots env names scope) (name : String) {value : Lox.Value} {cell : Value}
    (hv : ValueMatches depths limit slots value cell) :
    Simulates depths limit low slots m s (Run.newScope env (.ofList [(name, value)]))
      (Lexical.extend scope name fun _ => cell)
      fun later frame inner => ScopeMatches later frame ([name] :: names) inner := by
  have hpush := h.push (.ofList [(name, value)])
  have hnew : (m.store.size, name) ∉ slots := fun hmem => Nat.lt_irrefl _ (h.isLocal _ hmem).2
  have hget : (m.store.push (.ofList [(name, value)])).get? m.store.size name = some value := by
    rw [Store.get?_push_size, Table.get?_ofList_singleton, if_pos rfl]
  have hle : slots <+: slots ++ [(m.store.size, name)] := List.prefix_append slots _
  have hlt : m.store.size < (m.store.push (.ofList [(name, value)])).size := by
    rw [Store.size_push]
    exact Nat.lt_succ_self _
  have hadopt := hpush.adopt h.global hlt hnew hget (hv.grow hle)
  refine of_ok rfl rfl ⟨hle, Nat.le_of_lt hlt, fun slot hslot => ?_, rfl⟩ hadopt ?_
  · rcases List.mem_append.1 hslot with hslot | hslot
    · exact .inl hslot
    · obtain rfl := List.mem_singleton.1 hslot
      exact .inr h.low_le
  · refine ((hs.mono hle).inner m.store.size).declare (List.cons_ne_nil _ _) ?_
    show (slots ++ [(m.store.size, name)])[s.cells.size]? = _
    rw [h.size]
    exact List.getElem?_concat_length

/-- A method becomes callable when it is bound. -/
theorem bindMethod (h : Matches depths limit low slots m s) {f : Lox.Function} {g : Function}
    (hfg : MethodMatches depths limit slots f g) {a : Lox.Instance} {b : Instance}
    (hab : InstanceMatches (MethodMatches depths limit slots) a b) :
    Simulates depths limit low slots m s (Run.bind f a) (Lexical.bind g b)
      fun later f' g' => FunctionMatches depths limit later f' g' ∧
        f'.declaration = f.declaration := by
  obtain ⟨hdeclaration, hinit, names, hs, hcoded⟩ := hfg
  refine bind (extend h hs "this" (.ofInstance hab)) fun frame inner later after t hg hm hframe => ?_
  refine bind (freshIdentity hm 1) fun id id' last final u hg' hm' hid => ?_
  obtain ⟨rfl, rfl⟩ := hid
  exact pure hm' ⟨⟨rfl, hdeclaration, hinit, _, hframe, hcoded, fun _ => ⟨names, rfl⟩⟩, rfl⟩

theorem instantiate (h : Matches depths limit low slots m s) {c : Lox.Class} {d : Class}
    (hcd : ClassMatches (MethodMatches depths limit slots) c d) :
    Simulates depths limit low slots m s (Run.instantiate c) (Lexical.instantiate d)
      fun later a b => InstanceMatches (MethodMatches depths limit later) a b := by
  refine of_ok rfl rfl ⟨List.prefix_refl _, Nat.le_refl _, fun _ h => .inl h, rfl⟩ ?_
    ⟨h.fieldsSize, hcd⟩
  exact { h with
    fieldsSize := by simp only [Store.size_push, h.fieldsSize]
    fields := get?_push_fields h.fieldsSize h.fields }

theorem property (h : Matches depths limit low slots m s) {a : Lox.Instance} {b : Instance}
    (hab : InstanceMatches (MethodMatches depths limit slots) a b) (name : Identifier) :
    Simulates depths limit low slots m s (Run.property a name) (Lexical.property b name)
      (ValueMatches depths limit) := by
  have hfield := h.fields a.id name.text
  have hmethod := hab.ofClass.findMethod? name.text
  rw [hab.id] at hfield
  unfold Simulates Agree Run.property Lexical.property
  simp only [bind_apply, Procedure.read, hab.id]
  revert hfield
  generalize m.fields.get? b.id name.text = v
  generalize s.fields.get? b.id name.text = w
  intro hfield
  cases hfield with
  | some hv => exact ⟨slots, .refl, h, hv⟩
  | none =>
    revert hmethod
    generalize a.ofClass.findMethod? name.text = f
    generalize b.ofClass.findMethod? name.text = g
    intro hmethod
    cases hmethod with
    | none => exact ⟨rfl, h.output⟩
    | some hfg =>
      exact bind (bindMethod h hfg hab) fun f' g' later after t hg hm hf => pure hm (.function hf.1)

theorem setField (h : Matches depths limit low slots m s) {a : Lox.Instance} {b : Instance}
    (hab : a.id = b.id) (name : String) {v : Lox.Value} {w : Value}
    (hvw : ValueMatches depths limit slots v w) :
    Simulates depths limit low slots m s (Run.setField a name v) (Lexical.setField b name w)
      fun _ _ _ => True := by
  refine of_ok rfl rfl ⟨List.prefix_refl _, Nat.le_refl _, fun _ h => .inl h, rfl⟩ ?_ trivial
  exact { h with
    fieldsSize := by simp only [Store.size_put, h.fieldsSize]
    fields := hab ▸ get?_put_fields h.fieldsSize h.fields hvw }

theorem write (h : Matches depths limit low slots m s) (text : String) (line : Nat) :
    Simulates depths limit low slots m s (Run.write text line) (Lexical.write text line)
      fun later _ _ => later = slots := by
  unfold Simulates Agree Run.write Lexical.write
  rw [h.output]
  by_cases htakes : s.output.takes text = true
  · rw [if_pos htakes, if_pos htakes]
    exact ⟨slots, ⟨List.prefix_refl _, Nat.le_refl _, fun _ h => .inl h, rfl⟩,
      { h with output := rfl }, rfl⟩
  · rw [if_neg htakes, if_neg htakes]
    exact ⟨rfl, rfl⟩

/-- The clock is the only function of the host. -/
theorem callHost (h : Matches depths limit low slots m s) {f : Native} (hf : f.id = 0)
    (arguments : List Lox.Value) (line : Nat) :
    Simulates depths limit low slots m s (Run.callHost f arguments line)
      (do return .number (← Procedure.read State.now)) (ValueMatches depths limit) := by
  refine of_ok ?_ rfl .refl h (.number s.now)
  simp [Run.callHost, bind_apply, Procedure.read, h.hostFunctions, hf, Host.clock]

/-- `super` finds a class and `this` an instance, or both sides fail alike. -/
theorem superMethod (h : Matches depths limit low slots m s)
    (hs : ScopeMatches slots m.environment names scope) {id : NodeId} {depth : Nat}
    (hthis : names.depth? "this" = some depth) (hsuper : names.depth? "super" = some (depth + 1))
    (hd : depths id = some (depth + 1)) (line : Nat) (method : Identifier) :
    Simulates depths limit low slots m s (Run.superMethod id line method)
      (Lexical.superMethod scope line method) (ValueMatches depths limit) := by
  obtain ⟨outer, place, houter, hplace, hslot⟩ := hs.hit "super" _ hsuper
  obtain ⟨v, w, hv, hw, hvw⟩ := h.cells place outer.scope "super" hslot
  obtain ⟨outer', place', houter', hplace', hslot'⟩ := hs.hit "this" _ hthis
  obtain ⟨v', w', hv', hw', hvw'⟩ := h.cells place' outer'.scope "this" hslot'
  unfold Simulates Agree
  simp only [Run.superMethod, Lexical.superMethod, bind_apply, Procedure.read, h.recorded, hd,
    Environment.getAt?, houter, houter', Option.bind_some, hv, hv', Nat.add_sub_cancel,
    valueOf_apply, State.get?, hplace, hplace', hw, hw']
  cases hvw with
  | ofClass hc =>
    cases hvw' with
    | ofInstance hobject =>
      have hmethod := hc.findMethod? method.text
      revert hmethod
      simp only
      generalize Lox.Class.findMethod? method.text _ = f
      generalize Class.findMethod? method.text _ = g
      intro hmethod
      cases hmethod with
      | none => exact ⟨rfl, h.output⟩
      | some hfg =>
        exact bind (bindMethod h hfg hobject) fun f' g' later after t hg hm hf =>
          pure (P := ValueMatches depths limit) hm (.function hf.1)
    | _ => exact ⟨rfl, h.output⟩
  | _ => exact ⟨rfl, h.output⟩

end Simulates

end Lox.Lexical
