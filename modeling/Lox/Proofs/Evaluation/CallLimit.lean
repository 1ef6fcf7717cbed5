import Lox.Proofs.Evaluation.Induction

/-!
# Other limits on calls

A limit on the nesting of calls is a guard and nothing else: a run that is not ended by it goes the
same way under every higher limit.
-/

namespace Lox

open Procedure

/-- The machine with another limit on the nesting of calls. -/
def Machine.withCallLimit (limit : Nat) (m : Machine) : Machine := { m with maxCallDepth := limit }

/-- The second outcome is the first one under a higher limit, unless the first one is that too many
calls were under way. -/
def Outcome.Lifted {α : Type} (limit : Nat) : (o o' : Outcome Machine Failure α) → Prop
  | .ok a after, o' => after.maxCallDepth ≤ limit ∧ o' = .ok a (after.withCallLimit limit)
  | .error e after, o' => e.fault = .stackOverflow ∨ o' = .error e (after.withCallLimit limit)
  | .exhausted, o' => o' = .exhausted

namespace Run

/-- The run goes the same way under the limit `limit` as under any lower one that does not end it.
-/
def Lifts (limit : Nat) {α : Type} (x : Run α) : Prop :=
  ∀ m, m.maxCallDepth ≤ limit → (x m).Lifted limit (x (m.withCallLimit limit))

namespace Lifts

variable {α β : Type} {limit : Nat} {x : Run α} {f : α → Run β}

theorem exhaust : Lifts limit (Procedure.exhaust : Run α) := fun _ _ => rfl

theorem plain (h : Plain x) : Lifts limit x := by
  intro m hm
  have hlifted : x (m.withCallLimit limit) = (x m).mapState (.withCallLimit limit) :=
    calc x (m.withCallLimit limit)
      _ = (x m).mapState (.beside m.callDepth limit m.output) :=
        h.beside m.callDepth limit m.output m
      _ = ((x m).mapState (.beside m.callDepth m.maxCallDepth m.output)).mapState
          (.withCallLimit limit) := by cases x m <;> rfl
      _ = (x m).mapState (.withCallLimit limit) := by rw [h.mapState_eq]
  rw [hlifted]
  cases ho : x m with
  | ok a after =>
    have hafter := h.mapState_eq m
    rw [ho] at hafter
    rw [← (Outcome.ok.inj hafter).2]
    exact ⟨hm, rfl⟩
  | error e after => exact .inr rfl
  | exhausted => rfl

theorem write (text : String) (line : Nat) : Lifts limit (Run.write text line) := by
  intro m hm
  unfold Run.write
  by_cases htakes : m.output.takes text = true
  · have hlifted : (m.withCallLimit limit).output.takes text = true := htakes
    rw [if_pos htakes, if_pos hlifted]
    exact ⟨hm, rfl⟩
  · have hlifted : ¬ (m.withCallLimit limit).output.takes text = true := htakes
    rw [if_neg htakes, if_neg hlifted]
    exact .inr rfl

/-- Two parts of a run in a row. -/
theorem bind (hx : Lifts limit x) (hf : ∀ a, Lifts limit (f a)) : Lifts limit (x >>= f) := by
  intro m hm
  have hfirst := hx m hm
  rw [bind_apply, bind_apply]
  cases ho : x m with
  | ok a after =>
    rw [ho] at hfirst
    rw [hfirst.2]
    exact hf a after hfirst.1
  | error e after =>
    rw [ho] at hfirst
    refine hfirst.imp_right fun hsame => ?_
    rw [hsame]
  | exhausted =>
    rw [ho] at hfirst
    rw [hfirst]
    rfl

/-- A run with a change after it that has nothing to do with the limit. -/
theorem afterwards (hx : Lifts limit x) (start : Machine) (hm : start.maxCallDepth ≤ limit)
    {g g' : Machine → Machine}
    (hg : ∀ after : Machine, g' (after.withCallLimit limit) = (g after).withCallLimit limit)
    (hlimit : ∀ after : Machine, (g after).maxCallDepth = after.maxCallDepth) :
    (Procedure.afterwards g x start).Lifted limit
      (Procedure.afterwards g' x (start.withCallLimit limit)) := by
  have hinner := hx start hm
  unfold Procedure.afterwards
  cases ho : x start with
  | ok a after =>
    rw [ho] at hinner
    rw [hinner.2]
    exact ⟨(hlimit after).symm ▸ hinner.1, congrArg _ (hg after)⟩
  | error e after =>
    rw [ho] at hinner
    refine hinner.imp_right fun hsame => ?_
    rw [hsame]
    exact congrArg _ (hg after)
  | exhausted =>
    rw [ho] at hinner
    rw [hinner]
    rfl

theorem inEnvironment (env : Environment) (hx : Lifts limit x) :
    Lifts limit (inEnvironment env x) := fun m hm =>
  hx.afterwards { m with environment := env } hm (fun _ => rfl) fun _ => rfl

/-- Where a call is not turned down it is not turned down under a higher limit. -/
theorem asCall (line : Nat) (hx : Lifts limit x) : Lifts limit (asCall line x) := by
  intro m hm
  by_cases hfull : m.maxCallDepth ≤ m.callDepth
  · rw [asCall_apply, if_pos hfull]
    exact .inl rfl
  · have hroom : ¬ (m.withCallLimit limit).maxCallDepth ≤ (m.withCallLimit limit).callDepth :=
      fun hle => hfull (Nat.le_trans hm hle)
    rw [asCall_apply, asCall_apply, if_neg hfull, if_neg hroom]
    exact hx.afterwards { m with callDepth := m.callDepth + 1 } hm (fun _ => rfl)
      fun _ => rfl

theorem closed (limit : Nat) : Closed fun _ x => Lifts limit x where
  exhaust := exhaust
  plain := plain
  write := write
  bind := bind
  inEnvironment := inEnvironment
  asCall := asCall

end Lifts

end Run

end Lox
