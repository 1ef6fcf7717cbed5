import Lox.Proofs.Agreement
import Lox.Proofs.Evaluation.Steps
import Lox.Proofs.Evaluation.Thinning

/-!
# Steps on thinned machines

The steps of evaluation go the same way on a machine and on the thinned one, as long as they leave the
gaps of environments alone. A new scope is kept, so that the list of kept scopes grows at its end.
-/

namespace Lox

open Procedure

/-- The second machine is still the first one without some empty scopes, `kept` are still kept, and the
environments are those of before. -/
structure Machine.StayThinned (depths : Depths) (limit : NodeId) (kept : List ScopeId) (m n : Machine)
    (later : List ScopeId) (after last : Machine) : Prop extends
    after.Thinned depths limit later last where
  le : kept <+: later
  left : after.environment = m.environment
  right : last.environment = n.environment

/-- The runs of `x` and `y` agree, with the same failure if they fail, and leave a machine and the
thinned one. If they end normally, `P` relates the results. -/
def Run.Thins {α β : Type} (depths : Depths) (limit : NodeId) (kept : List ScopeId) (m n : Machine)
    (x : Run α) (y : Run β) (P : List ScopeId → α → β → Prop) : Prop :=
  Agree
    (fun e f after last => e = f ∧ ∃ later, m.StayThinned depths limit kept n later after last)
    x y m n
    fun a b after last => ∃ later, m.StayThinned depths limit kept n later after last ∧ P later a b

section

variable {depths : Depths} {limit : NodeId} {kept later final : List ScopeId} {gap : Option Nat}
  {names : ScopeNames} {m n after last : Machine}

namespace Machine.StayThinned

theorem refl (h : m.Thinned depths limit kept n) : m.StayThinned depths limit kept n kept m n :=
  ⟨h, List.prefix_rfl, rfl, rfl⟩

theorem trans {m' n' : Machine} (h : m.StayThinned depths limit kept n later after last)
    (k : after.StayThinned depths limit later last final m' n') :
    m.StayThinned depths limit kept n final m' n' :=
  ⟨k.toThinned, h.le.trans k.le, k.left.trans h.left, k.right.trans h.right⟩

theorem thinnedIn (h : m.StayThinned depths limit kept n later after last)
    (hm : m.ThinnedIn depths limit kept gap names n) :
    after.ThinnedIn depths limit later gap names last := by
  refine ⟨h.toThinned, ?_, hm.skips⟩
  rw [h.left, h.right]
  exact hm.environment.mono h.le

end Machine.StayThinned

/-- A kept scope binds a name in both machines. -/
theorem Machine.Thinned.put (h : m.Thinned depths limit kept n) {i j : ScopeId}
    (hij : kept[j]? = some i) (name : String) {a b : Value} (hab : a.Thinned depths limit kept b) :
    m.StayThinned depths limit kept n kept { m with store := m.store.put i name a }
      { n with store := n.store.put j name b } :=
  ⟨{ h with store := h.store.put hij name hab }, List.prefix_rfl, rfl, rfl⟩

namespace Run.Thins

variable {α β γ δ : Type} {x : Run α} {y : Run β} {P : List ScopeId → α → β → Prop}

theorem of_ok {a : α} {b : β} (hx : x m = .ok a after) (hy : y n = .ok b last)
    (h : m.StayThinned depths limit kept n later after last) (hP : P later a b) :
    Thins depths limit kept m n x y P := Agree.of_ok hx hy ⟨later, h, hP⟩

theorem of_error {e : Failure} (hx : x m = .error e after) (hy : y n = .error e last)
    (h : m.StayThinned depths limit kept n later after last) : Thins depths limit kept m n x y P :=
  Agree.of_error hx hy ⟨rfl, later, h⟩

theorem pure {a : α} {b : β} (h : m.Thinned depths limit kept n) (hP : P kept a b) :
    Thins depths limit kept m n (Pure.pure a) (Pure.pure b) P := of_ok rfl rfl (.refl h) hP

theorem raise (h : m.Thinned depths limit kept n) (fault : RuntimeFault) (line : Nat) :
    Thins depths limit kept m n (Run.raise fault line : Run α) (Run.raise fault line : Run β) P :=
  of_error rfl rfl (.refl h)

theorem exhaust : Thins depths limit kept m n (exhaust : Run α) (exhaust : Run β) P := trivial

/-- Two parts of each run in a row, at one place. -/
theorem bind {f : α → Run γ} {g : β → Run δ} {Q : List ScopeId → γ → δ → Prop}
    (h : m.ThinnedIn depths limit kept gap names n) (hxy : Thins depths limit kept m n x y P)
    (hnext : ∀ later a b after last, kept <+: later →
      after.ThinnedIn depths limit later gap names last → P later a b →
      Thins depths limit later after last (f a) (g b) Q) :
    Thins depths limit kept m n (x >>= f) (y >>= g) Q := by
  refine Agree.bind hxy fun a b after last hP => ?_
  obtain ⟨later, hstay, hP⟩ := hP
  refine (hnext later a b after last hstay.le (hstay.thinnedIn h) hP).imp ?_ ?_
  · rintro c d m' n' ⟨final, hfinal, hQ⟩
    exact ⟨final, hstay.trans hfinal, hQ⟩
  · rintro e f m' n' ⟨he, final, hfinal⟩
    exact ⟨he, final, hstay.trans hfinal⟩

/-- What follows a look at the machines may depend on what they show. -/
theorem read {f : Machine → γ} {g : Machine → δ} {k : γ → Run α} {l : δ → Run β}
    (hnext : Thins depths limit kept m n (k (f m)) (l (g n)) P) :
    Thins depths limit kept m n (Procedure.read f >>= k) (Procedure.read g >>= l) P := hnext

theorem mono {Q : List ScopeId → α → β → Prop} (h : Thins depths limit kept m n x y P)
    (hPQ : ∀ later a b, P later a b → Q later a b) : Thins depths limit kept m n x y Q :=
  Agree.mono h fun _ _ _ _ ⟨later, hstay, hP⟩ => ⟨later, hstay, hPQ _ _ _ hP⟩

theorem inEnvironment {env other : Environment} {around : Option Nat} {inner : ScopeNames}
    (h : m.Thinned depths limit kept n) (henv : env.Thinned kept around other)
    (hskips : inner.Skips around)
    (hx : ∀ after last, after.ThinnedIn depths limit kept around inner last →
      Thins depths limit kept after last x y P) :
    Thins depths limit kept m n (Run.inEnvironment env x) (Run.inEnvironment other y) P := by
  have hinside : Machine.ThinnedIn depths limit kept around inner { m with environment := env }
      { n with environment := other } := ⟨{ h with }, henv, hskips⟩
  refine Agree.congr (Run.inEnvironment_apply env x m) (Run.inEnvironment_apply other y n) ?_
  refine Agree.afterwards (hx _ _ hinside) ?_ ?_
  · rintro a b after last ⟨later, hstay, hP⟩
    exact ⟨later, ⟨{ hstay.toThinned with }, hstay.le, rfl, rfl⟩, hP⟩
  · rintro e f after last ⟨he, later, hstay⟩
    exact ⟨he, later, ⟨{ hstay.toThinned with }, hstay.le, rfl, rfl⟩⟩

theorem asCall (line : Nat) (h : m.ThinnedIn depths limit kept gap names n)
    (hx : ∀ after last, after.ThinnedIn depths limit kept gap names last →
      Thins depths limit kept after last x y P) :
    Thins depths limit kept m n (Run.asCall line x) (Run.asCall line y) P := by
  have hm := Run.asCall_apply line x m
  have hn := Run.asCall_apply line y n
  by_cases hfull : n.maxCallDepth ≤ n.callDepth
  · rw [if_pos hfull] at hn
    rw [if_pos (by rwa [h.maxCallDepth, h.callDepth])] at hm
    exact of_error hm hn (.refl h.toThinned)
  · rw [if_neg hfull] at hn
    rw [if_neg (by rwa [h.maxCallDepth, h.callDepth])] at hm
    have hinside : Machine.ThinnedIn depths limit kept gap names
        { m with callDepth := m.callDepth + 1 } { n with callDepth := n.callDepth + 1 } :=
      ⟨{ h.toThinned with callDepth := congrArg (· + 1) h.callDepth }, h.environment, h.skips⟩
    refine Agree.congr hm hn (Agree.afterwards (hx _ _ hinside) ?_ ?_)
    · rintro a b after last ⟨later, hstay, hP⟩
      exact ⟨later, ⟨{ hstay.toThinned with callDepth := congrArg (· - 1) hstay.callDepth }, hstay.le,
        hstay.left, hstay.right⟩, hP⟩
    · rintro e f after last ⟨he, later, hstay⟩
      exact ⟨he, later, ⟨{ hstay.toThinned with callDepth := congrArg (· - 1) hstay.callDepth },
        hstay.le, hstay.left, hstay.right⟩⟩

/-! ### Operators and variables -/

theorem located (line : Nat) (h : m.Thinned depths limit kept n) {result : Except RuntimeFault Value}
    (hr : ∀ value, result = .ok value → value.IsPlain) :
    Thins depths limit kept m n (Run.located line result) (Run.located line result)
      (Value.Thinned depths limit) := by
  cases result with
  | ok value => exact pure h (.of_isPlain (hr value rfl))
  | error fault => exact raise h fault line

theorem unary (line : Nat) (h : m.Thinned depths limit kept n) (operator : UnaryOperator) {a b : Value}
    (hab : a.Thinned depths limit kept b) :
    Thins depths limit kept m n (Run.located line (operator.apply a))
      (Run.located line (operator.apply b)) (Value.Thinned depths limit) := by
  rw [Value.Thinned.unary_eq operator hab]
  exact located line h fun value => UnaryOperator.isPlain_apply

theorem binary (line : Nat) (h : m.Thinned depths limit kept n) (operator : BinaryOperator)
    {a b c d : Value} (hab : a.Thinned depths limit kept b) (hcd : c.Thinned depths limit kept d) :
    Thins depths limit kept m n (Run.located line (operator.apply a c))
      (Run.located line (operator.apply b d)) (Value.Thinned depths limit) := by
  rw [Value.Thinned.binary_eq operator hab hcd]
  exact located line h fun value => BinaryOperator.isPlain_apply

theorem valueOf (line : Nat) (h : m.ThinnedIn depths limit kept gap names n) {id : NodeId}
    {name : String} (hp : depths id = names.depth? name) :
    Thins depths limit kept m n (Run.valueOf id name line) (Run.valueOf id name line)
      (Value.Thinned depths limit) := by
  have hx := Run.valueOf_apply id name line m
  have hy := Run.valueOf_apply id name line n
  have hvalue := h.valueOf? hp
  revert hx hy hvalue
  generalize m.valueOf? id name = a
  generalize n.valueOf? id name = b
  intro hx hy hvalue
  cases hvalue with
  | none => exact of_error hx hy (.refl h.toThinned)
  | some hab => exact of_ok hx hy (.refl h.toThinned) hab

theorem define (h : m.ThinnedIn depths limit kept gap names n) (hgap : gap ≠ some 0) (name : String)
    {a b : Value} (hab : a.Thinned depths limit kept b) :
    Thins depths limit kept m n (Run.define name a) (Run.define name b) fun _ _ _ => True :=
  of_ok rfl rfl (h.toThinned.put (h.environment.innermost hgap) name hab) trivial

theorem assign (h : m.ThinnedIn depths limit kept gap names n) {target : Reference}
    (hp : depths target.id = names.depth? target.name.text) {a b : Value}
    (hab : a.Thinned depths limit kept b) :
    Thins depths limit kept m n (Run.assign target a) (Run.assign target b) fun _ _ _ => True := by
  have hx := Run.assign_apply target a m
  have hy := Run.assign_apply target b n
  have hscope := h.assignee? hp
  revert hx hy hscope
  generalize m.assignee? target.id target.name.text = i
  generalize n.assignee? target.id target.name.text = j
  intro hx hy hscope
  cases hscope with
  | none => exact of_error hx hy (.refl h.toThinned)
  | some hij => exact of_ok hx hy (h.toThinned.put hij _ hab) trivial

/-! ### Scopes, functions and instances -/

theorem newScope (h : m.Thinned depths limit kept n) {env other : Environment}
    (henv : env.Thinned kept gap other) {bindings others : Table Value}
    (hb : bindings.Alike .refl (Value.Thinned depths limit kept) others) :
    Thins depths limit kept m n (Run.newScope env bindings) (Run.newScope other others)
      fun later e f => e.Thinned later (gap.map (· + 1)) f := by
  have hle : kept <+: kept ++ [m.store.size] := List.prefix_append _ _
  have hstore := (h.store.mono fun _ _ hv => Value.Thinned.mono hv hle).push
    (hb.mono fun _ _ hv => Value.Thinned.mono hv hle)
  have hnew : (kept ++ [m.store.size])[n.store.size]? = some m.store.size := by
    rw [← h.store.length, List.getElem?_concat_length]
  have hglobal : (kept ++ [m.store.size])[0]? = some 0 := by
    rw [List.getElem?_append_left (List.getElem?_eq_some_iff.1 h.global).1, h.global]
  have hfields := h.fields.mono fun _ _ hv => Value.Thinned.mono hv hle
  exact of_ok rfl rfl
    ⟨{ h with store := hstore, global := hglobal, fields := hfields }, hle, rfl, rfl⟩
    ((henv.mono hle).inner hnew)

/-- A scope that only the first machine has is not kept. -/
theorem hide (h : m.ThinnedIn depths limit kept none names n) :
    Thins depths limit kept m n (Run.newScope m.environment ∅)
      (Pure.pure (n.environment.inner n.environment.scope))
      fun later e f => e.Thinned later (some 0) f :=
  of_ok rfl rfl ⟨{ h.toThinned with store := h.store.hide }, List.prefix_rfl, rfl, rfl⟩
    (h.environment.hide _)

/-- New identities are the same on both machines. -/
theorem freshIdentity (h : m.ThinnedIn depths limit kept gap names n) (count : Nat) {f : Nat → Run α}
    {g : Nat → Run β}
    (hnext : ∀ id after last, after.ThinnedIn depths limit kept gap names last →
      Thins depths limit kept after last (f id) (g id) P) :
    Thins depths limit kept m n (Run.freshIdentity count >>= f) (Run.freshIdentity count >>= g) P := by
  refine bind (P := fun later a b => later = kept ∧ a = b) h ?_ ?_
  · refine of_ok rfl rfl
      ⟨{ h.toThinned with nextIdentity := congrArg (· + count) h.nextIdentity }, List.prefix_rfl, rfl,
        rfl⟩ ⟨rfl, h.nextIdentity⟩
  · rintro _ id _ after last - hafter ⟨rfl, rfl⟩
    exact hnext id after last hafter

theorem bindMethod (h : m.ThinnedIn depths limit kept gap names n) {f g : Function}
    (hfg : f.Thinned depths limit [["this"]] kept g) {a b : Instance}
    (hab : a.Thinned depths limit kept b) :
    Thins depths limit kept m n (Run.bind f a) (Run.bind g b) (Function.Thinned depths limit []) := by
  obtain ⟨around, outer, hclosure, hskips, hplaced, hthis⟩ := hfg.closure
  have hbindings : Table.Alike .refl (Value.Thinned depths limit kept)
      (Table.ofList [("this", Value.ofInstance a)]) (Table.ofList [("this", Value.ofInstance b)]) :=
    .ofList (.cons ⟨rfl, .ofInstance hab⟩ .nil)
  refine bind h (newScope h.toThinned hclosure hbindings) fun later e f after last hle h he => ?_
  refine freshIdentity h 1 fun id after last h => pure h.toThinned ?_
  exact ⟨⟨rfl, hfg.declaration, hfg.isInitializer⟩, _, ["this"] :: outer, he, hskips.push _, hplaced,
    hthis⟩

theorem instantiate (h : m.Thinned depths limit kept n) {c d : Class}
    (hcd : c.Thinned depths limit kept d) :
    Thins depths limit kept m n (Run.instantiate c) (Run.instantiate d)
      (Instance.Thinned depths limit) :=
  of_ok rfl rfl ⟨{ h with fields := h.fields.push .empty fun _ _ => rfl }, List.prefix_rfl, rfl, rfl⟩
    ⟨h.fields.size, hcd⟩

/-- A method that is found in both classes or in none of them, bound to the instances. -/
theorem boundMethod (h : m.ThinnedIn depths limit kept gap names n) {f g : Option Function}
    (hfg : Option.Rel (Function.Thinned depths limit [["this"]] kept) f g) {a b : Instance}
    (hab : a.Thinned depths limit kept b) (name : Identifier) :
    Thins depths limit kept m n
      (match f with
        | some method => do return .function (← Run.bind method a)
        | none => Run.raise (.undefinedProperty name.text) name.line)
      (match g with
        | some method => do return .function (← Run.bind method b)
        | none => Run.raise (.undefinedProperty name.text) name.line) (Value.Thinned depths limit) := by
  cases hfg with
  | none => exact raise h.toThinned _ _
  | some hfg =>
    refine bind h (bindMethod h hfg hab) fun later f g after last hle h hbound => ?_
    exact pure h.toThinned (.function hbound)

theorem property (h : m.ThinnedIn depths limit kept gap names n) {a b : Instance}
    (hab : a.Thinned depths limit kept b) (name : Identifier) :
    Thins depths limit kept m n (Run.property a name) (Run.property b name)
      (Value.Thinned depths limit) := by
  have hfield : Option.Rel (Value.Thinned depths limit kept) (m.fields.get? a.id name.text)
      (n.fields.get? a.id name.text) := h.fields.get? a.id name.text
  have hmethod := boundMethod h (hab.ofClass.findMethod? name.text) hab name
  rw [Run.property, Run.property, ← hab.id]
  refine read ?_
  revert hfield
  generalize m.fields.get? a.id name.text = v
  generalize n.fields.get? a.id name.text = w
  intro hfield
  cases hfield with
  | none => exact hmethod
  | some hvw => exact pure h.toThinned hvw

theorem setField (h : m.Thinned depths limit kept n) {a b : Instance}
    (hab : a.Thinned depths limit kept b) (name : String) {c d : Value}
    (hcd : c.Thinned depths limit kept d) :
    Thins depths limit kept m n (Run.setField a name c) (Run.setField b name d) fun _ _ _ => True := by
  unfold Run.setField
  rw [hab.id]
  exact of_ok rfl rfl ⟨{ h with fields := h.fields.put b.id name hcd }, List.prefix_rfl, rfl, rfl⟩
    trivial

theorem superMethod (line : Nat) (h : m.ThinnedIn depths limit kept gap names n) {id : NodeId}
    {depth : Nat} (hthis : names.depth? "this" = some depth)
    (hsuper : names.depth? "super" = some (depth + 1)) (hd : depths id = some (depth + 1))
    (method : Identifier) :
    Thins depths limit kept m n (Run.superMethod id line method) (Run.superMethod id line method)
      (Value.Thinned depths limit) := by
  have hn : n.depths[id]? = some (depth + 1) := by rw [← h.table, h.recorded, hd]
  have hsuper := h.store.getAt? h.environment (h.skips.ne_some hsuper) "super"
  have hthis := h.store.getAt? h.environment (h.skips.ne_some hthis) "this"
  rw [Run.superMethod]
  refine read ?_
  rw [h.table, hn]
  refine read ?_
  revert hsuper
  generalize m.environment.getAt? m.store (depth + 1) "super" = a
  generalize n.environment.getAt? n.store (depth + 1) "super" = b
  intro hsuper
  cases hsuper with
  | none => exact raise h.toThinned _ line
  | some hsuper =>
    refine read ?_
    rw [Nat.add_sub_cancel]
    revert hthis
    generalize m.environment.getAt? m.store depth "this" = a
    generalize n.environment.getAt? n.store depth "this" = b
    intro hthis
    cases hthis with
    | none => exact raise h.toThinned _ line
    | some hthis =>
      cases hsuper with
      | ofClass hclass =>
        cases hthis with
        | ofInstance hobject => exact boundMethod h (hclass.findMethod? method.text) hobject method
        | _ => exact raise h.toThinned _ line
      | _ => exact raise h.toThinned _ line

theorem write (h : m.Thinned depths limit kept n) (text : String) (line : Nat) :
    Thins depths limit kept m n (Run.write text line) (Run.write text line) fun _ _ _ => True := by
  have hstay : m.StayThinned depths limit kept n kept { m with output := m.output.written text }
      { n with output := n.output.written text } :=
    ⟨{ h with output := by rw [h.output] }, List.prefix_rfl, rfl, rfl⟩
  by_cases htakes : n.output.takes text = true
  · exact of_ok (if_pos (h.output ▸ htakes)) (if_pos htakes) hstay trivial
  · exact of_error (if_neg (h.output ▸ htakes)) (if_neg htakes) hstay

theorem callHost (line : Nat) (h : m.Thinned depths limit kept n) (f : Native) {as bs : List Value}
    (habs : List.Forall₂ (Value.Thinned depths limit kept) as bs) :
    Thins depths limit kept m n (Run.callHost f as line) (Run.callHost f bs line)
      (Value.Thinned depths limit) := by
  rw [Run.callHost, Run.callHost]
  refine read ?_
  rw [h.hostFunctions]
  cases hf : n.hostFunctions[f.id]? with
  | none => exact pure h .nil
  | some host =>
    have hblind := h.blind host (Array.mem_of_getElem? hf) _ _ (fun _ _ h => h.toSameCode)
      (fun _ _ h => h.toSameCode) as bs habs
    rcases hblind with ⟨a, b, ha, hb, hab⟩ | ⟨message, ha, hb⟩
    · simp only [ha, hb]
      exact pure h hab
    · simp only [ha, hb]
      exact raise h _ line

end Run.Thins

end

end Lox
