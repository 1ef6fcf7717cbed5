import Lox.Proofs.Evaluation.NestedRuns
import Lox.Proofs.Session.Events

/-!
# Scope chains

In a session every scope but the global one was opened inside an older one, and stays inside it for
good. So the environments that there are, between two texts and at every moment of a run, are chains
of enclosing links that end at the global scope. The scopes of `this` and `super` keep the one name
that they were opened for.

## Main results

* `Session.scope_chains_well_founded`: all of this for a session, with one more text that it runs
  now.
-/

namespace Lox

open Procedure

/-! ### Environments at an event -/

namespace Event

/-- Nothing is under way on the machine, but for a program without statements. -/
def rest (m : Machine) : Event := .begins ⟨0, m, .program []⟩

/-- At rest there are only the values in the scopes and those in the fields. -/
theorem forall_rest {P : Value → Prop} {m : Machine}
    (hstore : ∀ scope name value, m.store.get? scope name = some value → P value)
    (hfields : ∀ object name value, m.fields.get? object name = some value → P value) :
    ∀ value, (rest m).Has value → P value := by
  intro value hv
  cases hv with
  | stored hv => exact hstore _ _ value hv
  | field hv => exact hfields _ _ value hv
  | given hv => cases hv

/-- A value at the event is the class or one that inherits from it, or it is an instance of such a
class. -/
inductive HasClass (x : Event) : Class → Prop where
  | ofClass {b c : Class} (h : x.Has (.ofClass c)) (hb : b ∈ c.chain) : HasClass x b
  | ofInstance {b : Class} {object : Instance} (h : x.Has (.ofInstance object))
      (hb : b ∈ object.ofClass.chain) : HasClass x b

/-- The environment is the current one at the event, or that of a function or of a method of a
class. -/
inductive HasEnvironment (x : Event) : Environment → Prop where
  | current : HasEnvironment x x.machine.environment
  | function {f : Function} (h : x.Has (.function f)) : HasEnvironment x f.closure
  | method {b : Class} {name : String} {f : Function} (h : x.HasClass b)
      (hf : b.methods.get? name = some f) : HasEnvironment x f.closure

variable {done : Configuration → Prop} {depths : Depths} {x : Event} {b : Class} {env : Environment}

theorem HasClass.waits (h : x.Nested done depths) (hb : x.HasClass b) :
    b.methods.Every (Function.Waits done depths x.machine) := by
  cases hb with
  | ofClass hc hb => exact Class.every_iff.1 (h.values _ hc) b hb
  | ofInstance ho hb => exact Class.every_iff.1 (h.values _ ho) b hb

theorem HasClass.rooted (h : x.Rooted done) (hb : x.HasClass b) :
    ∃ d, done d ∧ d.Made x.machine b := by
  cases hb with
  | ofClass hc hb => exact (h.values _ hc : Class.Rooted done x.machine _) b hb
  | ofInstance ho hb => exact (h.values _ ho : Instance.Rooted done x.machine _).ofClass b hb

/-- Every environment at a nested event is nested and is there. -/
theorem HasEnvironment.nested (h : x.Nested done depths) (henv : x.HasEnvironment env) :
    (∃ p names, env.Nested done p names) ∧ env.Within x.machine.store.size := by
  cases henv with
  | current =>
    obtain ⟨names, hnested⟩ := h.environment
    exact ⟨⟨.code, names, hnested⟩, h.within⟩
  | function hf =>
    obtain ⟨-, hwithin, p, names, hnested, -⟩ : Function.Nested done depths x.machine _ :=
      h.values _ hf
    exact ⟨⟨p, names, hnested⟩, hwithin⟩
  | method hb hf =>
    obtain ⟨hwithin, p, names, hnested, -⟩ := hb.waits h _ _ hf
    exact ⟨⟨p, names, hnested⟩, hwithin⟩

end Event

/-! ### Enclosing links -/

section Links

variable {done : Configuration → Prop} {depths : Depths} {inner outer other : ScopeId}
  {env env' : Environment}

theorem Links.functional (H : Charted done) (h : Links done inner outer)
    (h' : Links done inner other) : outer = other := by
  obtain ⟨o, ho, hplace, rfl⟩ := h
  obtain ⟨o', ho', hplace', rfl⟩ := h'
  rw [H.unique ho ho' (hplace.trans hplace'.symm)]

/-- A scope is inside an older one. -/
theorem Links.lt (H : Charted done) (hall : ∀ c, done c → c.Nested done depths)
    (h : Links done inner outer) : outer < inner := by
  obtain ⟨o, ⟨c, hc, hopens⟩, rfl, rfl⟩ := h
  exact ((hall c hc).within_of_opens H hopens).scope_lt

/-- Chains of links to the global scope from one scope are the same. -/
theorem Links.chain_eq (H : Charted done) {l l' : List ScopeId} (h : l.IsChain (Links done))
    (h' : l'.IsChain (Links done)) (hlast : l.getLast? = some 0) (hlast' : l'.getLast? = some 0)
    (hhead : l.head? = l'.head?) : l = l' := by
  -- There is no link from the global scope, so that no chain ends inside the other one.
  have hnone : ∀ outer, ¬ Links done 0 outer := by
    rintro outer ⟨o, ho, hplace, -⟩
    exact absurd hplace (Nat.ne_of_gt (H.place_pos ho))
  induction l generalizing l' with
  | nil => cases hlast
  | cons scope rest ih =>
    cases l' with
    | nil => cases hlast'
    | cons scope' rest' =>
      obtain rfl : scope = scope' := Option.some.inj hhead
      cases rest with
      | nil =>
        obtain rfl : scope = 0 := Option.some.inj hlast
        cases rest' with
        | nil => rfl
        | cons next' rest' => exact absurd (List.isChain_cons_cons.1 h').1 (hnone _)
      | cons next rest =>
        obtain ⟨hlink, hrest⟩ := List.isChain_cons_cons.1 h
        cases rest' with
        | nil =>
          obtain rfl : scope = 0 := Option.some.inj hlast'
          exact absurd hlink (hnone _)
        | cons next' rest' =>
          obtain ⟨hlink', hrest'⟩ := List.isChain_cons_cons.1 h'
          rw [List.getLast?_cons_cons] at hlast hlast'
          rw [ih hrest hrest' hlast hlast' (congrArg some (hlink.functional H hlink'))]

/-- A nested environment is known from its innermost scope. -/
theorem Environment.Nested.eq_of_scope (H : Charted done) {p q : Purpose}
    {names names' : ScopeNames} (h : env.Nested done p names) (h' : env'.Nested done q names')
    (hscope : env.scope = env'.scope) : env = env' := by
  have hchain : env.chain = env'.chain := Links.chain_eq H h.chain_links h'.chain_links
    h.getLast?_chain h'.getLast?_chain (congrArg some hscope)
  obtain ⟨scope, enclosing⟩ := env
  obtain ⟨scope', enclosing'⟩ := env'
  obtain ⟨rfl, rfl⟩ := List.cons.inj hchain
  rfl

end Links

/-! ### Sessions -/

namespace Configuration

variable {programs : List Configuration} {c : Configuration} {o o' : Opening}

/-- No place is opened twice in programs whose events follow one another. -/
theorem charted_of_path {m : Machine} (hunder : ∀ program ∈ programs, program.Under .ofReading)
    (hpath : Event.Path m (events programs)) : Charted (Begins programs) where
  under := by
    rintro c ⟨program, hmem, hreach⟩
    exact (hunder program hmem).reaches hreach
  starts := by
    rintro c d ⟨program, hmem, hreach⟩ hstarts
    exact ⟨program, hmem, hreach.tail hstarts⟩
  unique := by
    have htrace : ∀ {c}, Begins programs c → c.trace <:+: events programs := by
      rintro c ⟨program, hmem, hreach⟩
      refine hreach.infix_trace.trans ?_
      rw [events, List.flatMap_def]
      exact List.infix_of_mem_flatten (List.mem_map_of_mem hmem)
    rintro o o' ⟨c, hc, hopens⟩ ⟨c', hc', hopens'⟩ hplace
    obtain ⟨x, y, hxy, hacts, hx, hy⟩ := hopens.exists_between
    obtain ⟨x', y', hxy', hacts', hx', hy'⟩ := hopens'.exists_between
    rw [← hplace] at hx' hy'
    obtain ⟨rfl, rfl⟩ := hpath.neighbours_eq (hxy.trans (htrace hc)) (hxy'.trans (htrace hc'))
      hx hy hx' hy'
    obtain rfl := hacts.functional hacts'
    exact hopens.functional hopens'

end Configuration

namespace Session

variable {past : List Configuration} {s t : Session} {bound : Nat} {source : String}
  {program : Configuration} {done : Configuration → Prop} {depths : Depths}

/-- At this moment one of the programs is under way, or the session is at rest after them. -/
def Moment (s : Session) (programs : List Configuration) (x : Event) : Prop :=
  x ∈ Configuration.events programs ∨ x = .rest s.machine

/-- What a program is that a text comes to. -/
theorem exists_of_program? (h : s.program? bound source = some program) :
    ∃ statements found, (Reading.ofSource source s.nextId).result = .ok statements ∧
      resolve statements = .ok found ∧ program =
        ⟨bound, { s.machine with depths := s.machine.depths.insertMany found },
          .program statements⟩ := by
  unfold program? at h
  split at h
  · cases h
  · next statements hread =>
    split at h
    · cases h
    · next found hresolve =>
      cases h
      exact ⟨statements, found, hread, hresolve, rfl⟩

namespace Lives

theorem environment_eq (h : Lives HostFunction.Inert past s) : s.machine.environment = .global :=
  h.passive.idle.environment

theorem within (h : Lives HostFunction.Inert past s) :
    s.machine.environment.Within s.machine.store.size := by
  rw [h.environment_eq]
  intro scope hscope
  obtain rfl := List.mem_singleton.1 hscope
  exact h.passive.under_ofReading.global

/-- An accepted program is nested, if the depths of its nodes are those that are recorded for it. -/
theorem nested_program (h : Lives HostFunction.Inert past s) (hm : s.machine.Nested done depths)
    (hp : s.program? bound source = some program) (hdone : done program)
    (hdepths : ∀ id < (Reading.ofSource source s.nextId).nextId,
      depths id = program.machine.depths[id]?) : program.Nested done depths := by
  obtain ⟨statements, found, hread, hresolve, rfl⟩ := exists_of_program? hp
  have hprepared := prepared_of_resolve hread hresolve
  have hplaced := hprepared.placed h.unnumbered
  refine ⟨hdone, ?_, nofun, h.within, [], ?_, ?_⟩
  · refine hm.grow (Nat.le_refl _) (fun _ _ _ hv => .inr hv) (fun _ _ _ hv => .inr hv)
      (fun id depth hdepth => ?_) rfl hm.settled
    have hlt : id < (Reading.ofSource source s.nextId).nextId := by
      refine Nat.lt_of_not_le fun hle => ?_
      exact nomatch hdepth.symm.trans (hprepared.unnumbered h.unnumbered id hle)
    exact (hdepths id hlt).trans hdepth
  · show s.machine.environment.Nested done .code []
    rw [h.environment_eq]
    exact .global
  · exact Stmt.Placed.all_congr statements
      (fun id hid => (hdepths id (hprepared.numbered.mem id hid).2).symm) hplaced

theorem nested_register (H : Charted done) {m : Machine} (h : m.Nested done depths) (name : String)
    (arity : Nat) {f : HostFunction} (hf : f.Passive) :
    (m.register name arity f).Nested done depths := by
  have hnative : Value.Nested done depths m (.native ⟨m.hostFunctions.size, name, arity⟩) := trivial
  have hput := h.put H.writable_global name hnative
  constructor
  · exact hput.recorded
  · exact fun scope key value hv => (hput.store scope key value hv).mono (Nat.le_refl _)
  · exact fun object key value hv => (hput.fields object key value hv).mono (Nat.le_refl _)
  · intro g hg
    rcases Array.mem_push.1 hg with hg | rfl
    · exact hput.hostFunctions g hg
    · exact hf
  · exact hput.settled

theorem nested_start (H : Charted done) (now : Number) (output : Output) :
    ((Session.start now).withOutput output).machine.Nested done depths := by
  have hempty : Machine.empty.Nested done depths := by
    constructor
    · intro id depth hdepth
      simp [Machine.empty] at hdepth
    · intro scope name value hv
      obtain rfl : scope = 0 := Nat.lt_one_iff.1 (Store.Extends.get?_lt hv)
      cases hv
    · intro object name value hv
      cases hv
    · exact fun f hf => absurd hf (Array.not_mem_empty f)
    · intro o ho hlt
      exact absurd hlt (Nat.not_lt.2 (H.place_pos ho))
  have hclock : HostFunction.Passive (Host.clock now) := by
    rintro P Q arguments value - ⟨⟩
    trivial
  exact (nested_register H hempty "clock" 0 hclock).of_eq rfl rfl rfl rfl

/-- If all that the session has begun counts as done, its values are nested. -/
theorem nested (h : Lives HostFunction.Inert past s) (H : Charted done)
    (hdone : ∀ program ∈ past, done program)
    (hdepths : ∀ id < s.nextId, depths id = s.machine.depths[id]?) :
    s.machine.Nested done depths ∧ ∀ program ∈ past, program.Nested done depths := by
  induction h with
  | start now output => exact ⟨nested_start H now output, nofun⟩
  | register name arity _ hf ih =>
    obtain ⟨hm, hpast⟩ := ih hdone hdepths
    exact ⟨nested_register H hm name arity hf.passive, hpast⟩
  | @run past s t bound source before hrun ih =>
    rw [List.forall_mem_append] at hdone ⊢
    have hnext := nextId_of_run hrun
    obtain ⟨hm, hpast⟩ := ih hdone.1 fun id hid => by
      have hlt : id < t.nextId :=
        hnext ▸ Nat.lt_of_lt_of_le hid (nextId_le_ofSource source s.nextId)
      exact (hdepths id hlt).trans ((kept_of_run before.unnumbered hrun).2.2 id hid)
    rcases machine_of_run hrun with ⟨hnone, hmachine⟩ | ⟨program, hp, hafter⟩
    · rw [hnone, hmachine]
      exact ⟨hm, hpast, nofun⟩
    · have hrestored := program.endsIn_restored t.machine hafter
      have hprogram : program.Nested done depths := by
        have hbegun := hdone.2 program (Option.mem_toList.2 hp)
        refine before.nested_program hm hp hbegun fun id hid => ?_
        rw [hdepths id (hnext ▸ hid), hrestored.depths]
      refine ⟨hprogram.of_after? H hafter, hpast, fun c hc => ?_⟩
      obtain rfl := Option.some.inj (hp.symm.trans (Option.mem_toList.1 hc))
      exact hprogram

/-- With one more text, the programs have no place opened twice. -/
theorem charted (h : Lives HostFunction.Inert past s) (bound : Nat) (source : String) :
    Charted (Configuration.Begins (past ++ (s.program? bound source).toList)) := by
  cases hp : s.program? bound source with
  | none =>
    rw [Option.toList_none, List.append_nil]
    exact Configuration.charted_of_path h.under_past h.path.1
  | some program =>
    refine Configuration.charted_of_path ?_ (h.path_program hp)
    rw [Option.toList_some, List.forall_mem_append]
    refine ⟨h.under_past, fun c hc => ?_⟩
    obtain rfl := List.mem_singleton.1 hc
    exact h.under_program hp

/-- The session and its programs are nested among what these begin, with one more text that may be
cut short. -/
theorem exists_nested (h : Lives HostFunction.Inert past s) (bound : Nat) (source : String) :
    ∃ depths, s.machine.Nested
      (Configuration.Begins (past ++ (s.program? bound source).toList)) depths ∧
      ∀ program ∈ past ++ (s.program? bound source).toList, program.Nested
        (Configuration.Begins (past ++ (s.program? bound source).toList)) depths := by
  have H := h.charted bound source
  have hdone : ∀ program ∈ past ++ (s.program? bound source).toList,
      Configuration.Begins (past ++ (s.program? bound source).toList) program :=
    fun _ => Configuration.Begins.of_mem
  rw [List.forall_mem_append] at hdone
  cases hp : s.program? bound source with
  | none =>
    rw [hp] at H hdone
    obtain ⟨hm, hpast⟩ := h.nested H hdone.1 fun _ _ => rfl
    refine ⟨_, hm, ?_⟩
    rw [Option.toList_none, List.append_nil] at hpast ⊢
    exact hpast
  | some program =>
    rw [hp] at H hdone
    have hdepths : ∀ id < s.nextId, program.machine.depths[id]? = s.machine.depths[id]? := by
      obtain ⟨statements, found, hread, hresolve, rfl⟩ := exists_of_program? hp
      exact fun id => (prepared_of_resolve hread hresolve).depths_of_lt h.unnumbered
    obtain ⟨hm, hpast⟩ := h.nested H hdone.1 hdepths
    have hbegun := hdone.2 program (Option.mem_toList.2 rfl)
    have hprogram := h.nested_program hm hp hbegun fun _ _ => rfl
    refine ⟨_, hm, ?_⟩
    rw [Option.toList_some] at hpast hprogram ⊢
    rw [List.forall_mem_append]
    refine ⟨hpast, fun c hc => ?_⟩
    obtain rfl := List.mem_singleton.1 hc
    exact hprogram

/-- Every moment is nested. -/
theorem nested_moment (h : Lives HostFunction.Inert past s) {programs : List Configuration}
    (H : Charted (Configuration.Begins programs))
    (hm : s.machine.Nested (Configuration.Begins programs) depths)
    (hall : ∀ program ∈ programs, program.Nested (Configuration.Begins programs) depths) {x : Event}
    (hx : s.Moment programs x) : x.Nested (Configuration.Begins programs) depths := by
  rcases hx with hx | rfl
  · obtain ⟨program, hmem, hx⟩ := List.mem_flatMap.1 hx
    exact Event.nested_of_mem H (hall program hmem) hx
  · refine ⟨hm, h.within, ⟨[], ?_⟩, Event.forall_rest hm.store hm.fields⟩
    show s.machine.environment.Nested _ .code []
    rw [h.environment_eq]
    exact .global

/-- At every moment all values have roots. -/
theorem rooted_moment (h : Lives HostFunction.Inert past s) {x : Event}
    (hx : s.Moment (past ++ (s.program? bound source).toList) x) :
    x.Rooted (Configuration.Begins (past ++ (s.program? bound source).toList)) := by
  have H := (h.charted bound source).toBegun
  have hdone : ∀ program ∈ past ++ (s.program? bound source).toList,
      Configuration.Begins (past ++ (s.program? bound source).toList) program :=
    fun _ => Configuration.Begins.of_mem
  obtain ⟨hm, hpast⟩ := h.rooted H fun program hmem => hdone program (List.mem_append_left _ hmem)
  rcases hx with hx | rfl
  · obtain ⟨program, hmem, hx⟩ := List.mem_flatMap.1 hx
    refine Event.rooted_of_mem H ?_ hx
    rcases List.mem_append.1 hmem with hpast' | hnow
    · exact hpast program hpast'
    · exact h.rooted_program hm (Option.mem_toList.1 hnow) (hdone program hmem)
  · exact ⟨hm, Event.forall_rest hm.store hm.fields⟩

end Lives

/-! ### The main theorem -/

/-- Scope chains are well founded. Take a session with the programs that it has run, however these
ended, and one more text that it runs now, as far as the bound lets it. From a scope there is one
enclosing link at most, ever, and it leads to an older scope, so that no chain of links is endless.
At every moment, in a run or between two texts, the current environment, that of every function and
that of every method of every class follow these links to the global scope, and two environments
that begin with the same scope are the same, also at different moments. A function has the
environment of its declaration, or else the scope that was opened for the instance that it is bound
to; the methods of a class that inherits have the scope that was opened for its superclass. The
former scope binds `this` to the instance and nothing else, the latter binds `super` to the
superclass and nothing else. -/
theorem scope_chains_well_founded (h : Lives HostFunction.Inert past s) (bound : Nat)
    (source : String) :
    let programs := past ++ (s.program? bound source).toList
    let done := Configuration.Begins programs
    (∀ inner outer other, Links done inner outer → Links done inner other → outer = other) ∧
    (∀ inner outer, Links done inner outer → outer < inner) ∧
    (WellFounded fun outer inner => Links done inner outer) ∧
    (∀ x y env env', s.Moment programs x → s.Moment programs y → x.HasEnvironment env →
      y.HasEnvironment env' → env.scope = env'.scope → env = env') ∧
    ∀ x, s.Moment programs x →
      (∀ env, x.HasEnvironment env → env.chain.IsChain (Links done) ∧
        env.chain.getLast? = some 0 ∧ ∀ scope ∈ env.chain, scope < x.machine.store.size) ∧
      (∀ f, x.Has (.function f) → f.Declared done ∨ ∃ o object, Opened done o ∧
        o.purpose = .receiver object ∧ f.closure = o.environment) ∧
      (∀ b a name f, x.HasClass b → b.superclass = some a → b.methods.get? name = some f →
        ∃ o, Opened done o ∧ o.purpose = .superclass a ∧ f.closure = o.environment) ∧
      ∀ o, Opened done o → o.place < x.machine.store.size →
        (∀ object, o.purpose = .receiver object →
          x.machine.store.scope o.place = .ofList [("this", .ofInstance object)]) ∧
        ∀ c, o.purpose = .superclass c →
          x.machine.store.scope o.place = .ofList [("super", .ofClass c)] := by
  intro programs done
  have H : Charted done := h.charted bound source
  obtain ⟨depths, hm, hall⟩ := h.exists_nested bound source
  have hbegun : ∀ c, done c → c.Nested done depths := by
    rintro c ⟨program, hmem, hreach⟩
    exact (hall program hmem).reaches H hreach
  have hlt : ∀ inner outer, Links done inner outer → outer < inner :=
    fun inner outer hlink => hlink.lt H hbegun
  have hnested : ∀ x, s.Moment programs x → x.Nested done depths :=
    fun x hx => h.nested_moment H hm hall hx
  refine ⟨fun inner outer other hlink => hlink.functional H, hlt,
    Subrelation.wf (fun hlink => hlt _ _ hlink) Nat.lt_wfRel.wf, ?_, fun x hx => ⟨?_, ?_, ?_, ?_⟩⟩
  · intro x y env env' hx hy henv henv' hscope
    obtain ⟨⟨p, names, henv⟩, -⟩ := henv.nested (hnested x hx)
    obtain ⟨⟨q, names', henv'⟩, -⟩ := henv'.nested (hnested y hy)
    exact henv.eq_of_scope H henv' hscope
  · intro env henv
    obtain ⟨⟨p, names, henv⟩, hwithin⟩ := henv.nested (hnested x hx)
    exact ⟨henv.chain_links, henv.getLast?_chain, hwithin⟩
  · intro f hf
    have hf : f.Nested done depths x.machine := (hnested x hx).values _ hf
    refine hf.origin.imp_right ?_
    rintro ⟨c, m, method, object, hc, hbinds, rfl⟩
    exact ⟨_, object, ⟨c, hc, .bound hbinds⟩, rfl, rfl⟩
  · intro b a name f hb ha hf
    obtain ⟨d, hd, hmade⟩ := hb.rooted (h.rooted_moment hx)
    obtain ⟨-, -, hclosure, -⟩ := hmade.makes.method hf
    rw [ha] at hclosure
    obtain ⟨hsuperclass⟩ := hmade.makes
    cases ha
    exact ⟨_, ⟨_, hd, .derived hsuperclass⟩, rfl, hclosure⟩
  · intro o ho hplace
    have hsettled := (hnested x hx).machine.settled o ho hplace
    constructor
    · intro object hpurpose
      exact hsettled _ (congrArg Purpose.bindings? hpurpose)
    · intro c hpurpose
      exact hsettled _ (congrArg Purpose.bindings? hpurpose)

/-- A method when its body begins: the scopes of the call and of `this` are inside the global
one. -/
theorem scope_chains_well_founded_method :
    ∃ program c, ((start ⟨0⟩).withOutput .unlimited).program? 7
        "class A { m() { } } A().m();" = some program ∧
      Configuration.Begins [program] c ∧ c.machine.environment = ⟨2, [1, 0]⟩ ∧
      Links (Configuration.Begins [program]) 2 1 ∧ Links (Configuration.Begins [program]) 1 0 := by
  have hbody : ((((start ⟨0⟩).withOutput .unlimited).program? 7
      "class A { m() { } } A().m();").bind fun program =>
        (program.descend? [1, 0, 0, 2, 0, 0]).map (·.machine.environment)) = some ⟨2, [1, 0]⟩ := by
    decide +kernel
  obtain ⟨program, hp, hbody⟩ := Option.bind_eq_some_iff.1 hbody
  obtain ⟨c, hc, henv⟩ := Option.map_eq_some_iff.1 hbody
  have hbegins : Configuration.Begins [program] c :=
    ⟨program, List.mem_singleton.2 rfl, Configuration.reaches_of_descend? hc⟩
  obtain ⟨-, -, -, -, hmoments⟩ := scope_chains_well_founded (.start ⟨0⟩ .unlimited) 7
    "class A { m() { } } A().m();"
  rw [hp] at hmoments
  obtain ⟨hchains, -⟩ := hmoments (.begins c) (.inl (Configuration.begins_mem_events.2 hbegins))
  obtain ⟨hchain, -⟩ := hchains _ .current
  have hmachine : (Event.begins c).machine.environment = ⟨2, [1, 0]⟩ := henv
  rw [hmachine] at hchain
  obtain ⟨hcall, hchain⟩ := List.isChain_cons_cons.1 hchain
  obtain ⟨hthis, -⟩ := List.isChain_cons_cons.1 hchain
  exact ⟨program, c, hp, hbegins, henv, hcall, hthis⟩

end Session

end Lox
