import Lox.Proofs.Lexical.Simulation
import Lox.Proofs.Session.History

/-!
# Programs follow lexical scoping

A text that is accepted runs in a new session as the reference semantics says: with every bound it
prints the same and ends in the same way.
-/

namespace Lox

open Procedure

namespace Lexical

variable {depths : Depths} {limit : NodeId} {slots : Slots} {m : Machine} {s : State}

theorem simulates_runProgram (bound : Nat) (statements : List Stmt)
    (h : Running depths limit 0 slots [] m s .global)
    (hs : Stmt.CodedAll depths limit [] statements) :
    Simulates depths limit 0 slots m s (Lox.runProgram bound statements)
      (runProgram bound statements) fun _ _ _ => True := by
  induction statements generalizing slots m s with
  | nil => exact .pure h.states trivial
  | cons statement rest ih =>
    obtain ⟨hfirst, hrest⟩ := hs.cons
    refine Simulates.bind ((follows depths limit bound).execute statement h hfirst)
      fun c p later after t hg hm hcp => ?_
    have hi := hcp.2
    rw [ScopeNames.after_nil] at hi hrest
    have hglobal := (hi.scopes.global rfl).2
    rw [hglobal] at hi
    exact ih (h.next hg hm hi) hrest

/-- A new session matches the state in which the reference semantics starts. -/
theorem running_start {t : Session} (now : Number) (output : Output)
    (hm : t.machine.Ready depths limit [])
    (ht : ∃ table, t.machine = { ((Session.start now).withOutput output).machine with
      depths := table }) :
    Running depths limit 0 [] [] t.machine (State.start now output) .global := by
  obtain ⟨table, ht⟩ := ht
  have henv : t.machine.environment = .global := by rw [ht]; rfl
  have hsize : t.machine.store.size = 1 := by rw [ht]; rfl
  have hstates : Matches depths limit 0 [] t.machine (State.start now output) := {
    recorded := hm.sound.recorded
    low_le := Nat.zero_le _
    global := hm.sound.global
    nodup := List.nodup_nil
    isLocal := nofun
    size := rfl
    cells := by simp
    globals := fun name => ?_
    fieldsSize := by rw [ht]; rfl
    fields := fun id name => by rw [ht]; exact .none
    nextIdentity := by rw [ht]; rfl
    callDepth := by rw [ht]; rfl
    maxCallDepth := by rw [ht]; rfl
    hostFunctions := by rw [ht]; rfl
    output := by rw [ht]; rfl }
  · refine ⟨hstates, ⟨henv ▸ .start, fun h => absurd rfl h, nofun⟩, ?_, Nat.zero_le _⟩
    rw [henv, hsize]
    exact Nat.one_pos
  · have hget : t.machine.store.get? 0 name =
        (Table.empty.insert "clock" (.native ⟨0, "clock", 0⟩)).get? name := by rw [ht]; rfl
    rw [hget, State.start, Table.get?_insert, Table.get?_insert]
    split
    · exact .some (.native rfl)
    · exact .none

/-- A declaration changes nothing for those who hold a map already. -/
theorem get?_declare {s t : State} {locations : List (String × Location)} {name : String}
    {value : Scope → Value} {inner other : Scope} {key : String}
    (h : declare (.inside locations) name value s = .ok inner t)
    (hother : ∀ location, other.location? key = some location → location < s.cells.size) :
    t.get? other key = s.get? other key := by
  cases h
  unfold State.get?
  cases hl : other.location? key with
  | none => rfl
  | some location =>
    show (s.cells.push _)[location]? = s.cells[location]?
    rw [Array.getElem?_push, if_neg (Nat.ne_of_lt (hother location hl))]

/-- An assignment is seen by all whose maps lead to the same place. -/
theorem get?_put {s : State} {scope other : Scope} {name key : String} {location : Location}
    (value : Value) (hscope : scope.location? name = some location)
    (hother : other.location? key = some location) (hlt : location < s.cells.size) :
    (s.put scope name value).get? other key = some value := by
  have hget : s.cells[location]? = some s.cells[location] := Array.getElem?_eq_getElem hlt
  simp only [State.get?, State.put, hscope, hother, Array.getElem?_modify, hget, if_true,
    Option.map_some]

end Lexical

namespace Session

/-- What `check` accepts is read and resolved without faults. -/
theorem exists_of_check {source : String} (h : check source = .ok ()) :
    ∃ statements found, (Reading.ofSource source 0).result = .ok statements ∧
      resolve statements = .ok found := by
  unfold check at h
  cases hread : (Reading.ofSource source 0).result with
  | error faults =>
    rw [hread] at h
    cases h
  | ok statements =>
    rw [hread] at h
    cases hresolve : resolve statements with
    | error faults =>
      simp only [bind, Except.bind, hresolve] at h
      cases h
    | ok found => exact ⟨statements, found, rfl, hresolve⟩

/-- How a run in a session and a run of the reference semantics end alike: with the same error or
none, and with the same text printed. -/
def FollowsLexical (x : Step Unit) (y : Lexical.Run Unit) (s : Session) (t : Lexical.State) : Prop :=
  Agree (fun e f after last => e = .failed f ∧ after.printed = last.output.text) x y s t
    fun _ _ after last => after.printed = last.output.text

/-- Resolution and the chain of scopes implement lexical scoping. With every bound, a program that is
accepted runs in a new session to the same end as by the reference semantics. There a declaration
is not seen through a map made before it, and an assignment is seen through all maps that lead to
the place assigned to. -/
theorem run_follows_lexical_scoping (now : Number) (output : Output) {source : String}
    (haccepted : check source = .ok ())
    (hfree : ((start now).withOutput output).SelfAssignFree source) :
    (∃ statements, (Reading.ofSource source 0).result = .ok statements ∧ ∀ bound,
      FollowsLexical (run bound source) (Lexical.runProgram bound statements)
        ((start now).withOutput output) (Lexical.State.start now output)) ∧
    (∀ (locations : List (String × Lexical.Location)) (name : String)
      (value : Lexical.Scope → Lexical.Value) (s t : Lexical.State) (inner other : Lexical.Scope)
      (key : String), Lexical.declare (.inside locations) name value s = .ok inner t →
      (∀ location, other.location? key = some location → location < s.cells.size) →
      t.get? other key = s.get? other key) ∧
    ∀ (s : Lexical.State) (scope other : Lexical.Scope) (name key : String) (value : Lexical.Value)
      (location : Lexical.Location), scope.location? name = some location →
      other.location? key = some location → location < s.cells.size →
      (s.put scope name value).get? other key = some value := by
  refine ⟨?_, fun _ _ _ _ _ _ _ _ => Lexical.get?_declare,
    fun _ _ _ _ _ value _ => Lexical.get?_put value⟩
  obtain ⟨statements, found, hread, hresolve⟩ := exists_of_check haccepted
  refine ⟨statements, hread, fun bound => ?_⟩
  have hs := Sound.start now output
  have hp := prepared_of_resolve (s := (start now).withOutput output) hread hresolve
  have hrun := run_of_resolve bound (s := (start now).withOutput output) hread hresolve
  obtain ⟨found, -, hmachine⟩ := hp.machine
  generalize (⟨_, _⟩ : Session) = u at hp hrun hmachine
  have hready := hs.ready hp
  have hagree := Lexical.simulates_runProgram bound statements
    (Lexical.running_start now output hready ⟨_, hmachine⟩) (hs.coded hp (hfree _ hread))
  rcases Agree.cases hagree with ⟨a, b, m, t, hx, hy, later, -, hm, -⟩ |
    ⟨e, f, m, t, hx, hy, he, hout⟩ | ⟨hx, hy⟩
  · refine Agree.of_ok (hrun.trans (by rw [onMachine, hx])) hy ?_
    exact congrArg Output.text hm.output
  · refine Agree.of_error (hrun.trans (by rw [onMachine, hx])) hy ⟨?_, ?_⟩
    · rw [he]
    · exact congrArg Output.text hout
  · rw [FollowsLexical, Agree, hrun, onMachine, hx, hy]
    trivial

theorem run_follows_lexical_scoping_closure :
    check "var a = 0; { fun f() { print a; } var a = 1; f(); }" = .ok () ∧
    ∃ statements, ∀ bound, FollowsLexical (run bound
      "var a = 0; { fun f() { print a; } var a = 1; f(); }")
      (Lexical.runProgram bound statements) ((start ⟨0⟩).withOutput .unlimited)
      (Lexical.State.start ⟨0⟩ .unlimited) := by
  have haccepted : check "var a = 0; { fun f() { print a; } var a = 1; f(); }" = .ok () := by
    decide +kernel
  obtain ⟨⟨statements, -, hruns⟩, -⟩ :=
    run_follows_lexical_scoping ⟨0⟩ .unlimited haccepted (by decide +kernel)
  exact ⟨haccepted, statements, hruns⟩

end Session

end Lox
