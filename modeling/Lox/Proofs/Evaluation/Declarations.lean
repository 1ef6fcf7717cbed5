import Lox.Proofs.Evaluation.Roots
import Mathlib.Data.List.Forall2
import Mathlib.Data.List.Induction

/-!
# Methods of a class as they are declared

In one declaration the last method of a name counts. Along the chain of a class it is the nearest
declaration with such a method that counts, and the chain goes back to declarations that were executed
earlier and earlier.
-/

namespace Lox

/-- Of the entries of a name the last one counts. -/
theorem Table.get?_ofList {α : Type} (entries : List (String × α)) (name : String) :
    (ofList entries).get? name = entries.reverse.lookup name := by
  induction entries using List.reverseRecOn with
  | nil => rfl
  | append_singleton entries entry ih =>
    obtain ⟨key, value⟩ := entry
    rw [ofList] at ih ⊢
    rw [List.foldl_append, List.foldl_cons, List.foldl_nil, get?_insert, ih, List.reverse_append,
      List.reverse_singleton, List.singleton_append]
    by_cases hname : name = key
    · rw [if_pos hname, hname, List.lookup_cons_self]
    · rw [if_neg hname, lookup_cons_of_ne _ _ hname]

/-- A table of methods has the last method of each name. -/
theorem Machine.get?_methodTable (firstId : Nat) (closure : Environment)
    (methods : List FunctionDef) (name : String) :
    ((methodTable firstId closure methods).get? name).map Function.declaration =
      methods.reverse.find? (·.name.text = name) := by
  rw [methodTable, Table.get?_ofList]
  induction methods using List.reverseRecOn with
  | nil => rfl
  | append_singleton methods method ih =>
    rw [List.mapIdx_concat, List.reverse_append, List.reverse_append, List.reverse_singleton,
      List.reverse_singleton, List.singleton_append, List.singleton_append]
    by_cases hname : method.name.text = name
    · rw [List.find?_cons_of_pos (by simpa using hname), hname, List.lookup_cons_self]
      rfl
    · rw [List.find?_cons_of_neg (by simpa using hname),
        Table.lookup_cons_of_ne _ _ (Ne.symm hname), ih]

namespace Configuration

/-- The last method of this name in a class declaration. -/
def lastMethod? (name : String) (d : Configuration) : Option FunctionDef :=
  d.methods.reverse.find? (·.name.text = name)

variable {d : Configuration} {c : Class} {name : String}

theorem Makes.lastMethod? (h : d.Makes c) :
    (c.methods.get? name).map Function.declaration = d.lastMethod? name := by
  cases h with
  | intro => exact Machine.get?_methodTable _ _ _ name

theorem Makes.id (h : d.Makes c) : c.id = d.machine.nextIdentity := by
  cases h with
  | intro => rfl

/-- A class has been made before, not from this machine on. -/
theorem Made.not_grows {m : Machine} (h : d.Made m c) : ¬ m.Grows d.machine := by
  have hid := h.id
  rw [h.makes.id] at hid
  exact fun hg => absurd hid (Nat.not_lt.2 hg.nextIdentity)

end Configuration

namespace Class

/-- The class and those above it were made by these tasks, in this order. -/
def DeclaredBy (declarations : List Configuration) (c : Class) : Prop :=
  List.Forall₂ Configuration.Makes declarations c.chain

variable {done : Configuration → Prop} {declarations : List Configuration} {m : Machine} {c : Class}

/-- The nearest declaration with a method of the name has the one that is found. -/
theorem DeclaredBy.findMethod? (h : c.DeclaredBy declarations) (name : String) :
    (c.findMethod? name).map Function.declaration =
      declarations.findSome? (Configuration.lastMethod? name) := by
  rw [findMethod?_eq]
  unfold DeclaredBy at h
  generalize c.chain = chain at h ⊢
  induction h with
  | nil => rfl
  | @cons d b ds bs hmakes _ ih =>
    rw [List.findSome?_cons, List.findSome?_cons, ← hmakes.lastMethod?]
    cases b.methods.get? name with
    | none => exact ih
    | some f => rfl

/-- A class with roots was made, with all those above it, by tasks that have been begun. -/
theorem Rooted.exists_declaredBy (h : c.Rooted done m) :
    ∃ declarations, c.DeclaredBy declarations ∧
      ∀ d ∈ declarations, done d ∧ ∃ b, d.Made m b := by
  have hchain : ∀ bs : List Class, (∀ b ∈ bs, ∃ d, done d ∧ d.Made m b) →
      ∃ ds, List.Forall₂ Configuration.Makes ds bs ∧
        ∀ d ∈ ds, done d ∧ ∃ b, d.Made m b := by
    intro bs hbs
    induction bs with
    | nil => exact ⟨[], .nil, nofun⟩
    | cons b rest ih =>
      obtain ⟨⟨d, hd, hmade⟩, hrest⟩ := List.forall_mem_cons.1 hbs
      obtain ⟨ds, hds, hall⟩ := ih hrest
      exact ⟨d :: ds, .cons hmade.makes hds, List.forall_mem_cons.2 ⟨⟨hd, b, hmade⟩, hall⟩⟩
  exact hchain c.chain h

theorem Rooted.above {superclass : Class} (h : c.Rooted done m)
    (hc : c.superclass = some superclass) :
    superclass.Rooted done m ∧ superclass.id < c.id := by
  refine ⟨fun b hb => h b (mem_chain_iff.2 (.inr ⟨superclass, hc, hb⟩)), ?_⟩
  obtain ⟨d, -, hmade⟩ := h c c.mem_chain_self
  exact (hmade.above superclass hc).1

/-- No class above is newer. -/
theorem Rooted.id_le : ∀ {c : Class}, c.Rooted done m → ∀ a ∈ c.chain, a.id ≤ c.id
  | ⟨_, _, none, _⟩, _, _, ha => Nat.le_of_eq (congrArg Class.id (List.mem_singleton.1 ha))
  | ⟨_, _, some _, _⟩, h, a, ha => by
    obtain ⟨habove, hid⟩ := h.above rfl
    rcases List.mem_cons.1 ha with rfl | ha
    · exact Nat.le_refl _
    · exact Nat.le_trans (habove.id_le a ha) (Nat.le_of_lt hid)

/-- Each class of the chain is newer than all those above it. -/
theorem Rooted.pairwise_chain : ∀ {c : Class}, c.Rooted done m →
    c.chain.Pairwise fun below above => above.id < below.id
  | ⟨_, _, none, _⟩, _ => .cons nofun .nil
  | ⟨_, _, some _, _⟩, h => by
    obtain ⟨habove, hid⟩ := h.above rfl
    exact .cons (fun a ha => Nat.lt_of_le_of_lt (habove.id_le a ha) hid) habove.pairwise_chain

end Class

end Lox
