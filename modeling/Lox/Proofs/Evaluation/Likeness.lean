import Mathlib.Data.List.Forall2
import Lox.Host
import Lox.Proofs.Evaluation.Content
import Lox.Proofs.Syntax.Counterpart

/-!
# Likeness of values and machines

Two machines are alike when they differ only in the trees that their functions were made from, which
are counterparts of each other, and in the names of local variables. Scopes, instances and identities
have the same numbers in both, so that like machines look the same to `print` and to a host.

## Implementation notes

How the names of a scope change is not to be seen from its bindings. It is kept beside the machines, in
a `World`, which grows as they run: by the scopes that are added and by the names that these bind.
-/

namespace Lox

/-! ### Tables -/

/-- Counterparts of the same names in the same order, with values that `P` relates. -/
def Table.Alike {α β : Type} (renames : Renaming) (P : α → β → Prop) (t : Table α) (u : Table β) :
    Prop :=
  List.Forall₂ (fun a b => b.1 = renames.apply a.1 ∧ P a.2 b.2) t.entries u.entries

namespace Table.Alike

variable {α β : Type} {renames : Renaming} {P Q : α → β → Prop} {t : Table α} {u : Table β} {a : α}
  {b : β}

theorem empty : Table.Alike renames P ∅ ∅ := .nil

theorem mono (h : t.Alike renames P u) (hPQ : ∀ a b, P a b → Q a b) : t.Alike renames Q u :=
  h.imp fun _ _ h => ⟨h.1, hPQ _ _ h.2⟩

theorem names_eq (h : t.Alike renames P u) : u.names = t.names.map renames.apply := by
  obtain ⟨entries⟩ := t
  obtain ⟨others⟩ := u
  show others.map Prod.fst = (entries.map Prod.fst).map renames.apply
  replace h : List.Forall₂ _ entries others := h
  induction h with
  | nil => rfl
  | cons h _ ih => rw [List.map_cons, List.map_cons, List.map_cons, h.1, ih]

theorem sortedNames_eq (h : t.Alike .refl P u) : t.sortedNames = u.sortedNames := by
  rw [sortedNames, sortedNames, h.names_eq, show Renaming.refl.apply = id from rfl, List.map_id]

theorem get? (h : t.Alike renames P u) (name : String) :
    Option.Rel P (t.get? name) (u.get? (renames.apply name)) := by
  obtain ⟨entries⟩ := t
  obtain ⟨others⟩ := u
  show Option.Rel P (entries.lookup name) (others.lookup (renames.apply name))
  replace h : List.Forall₂ _ entries others := h
  induction h with
  | nil => exact .none
  | @cons entry other _ _ h _ ih =>
    have hkey : (renames.apply name == other.1) = (name == entry.1) := by
      rw [h.1, Bool.eq_iff_iff, beq_iff_eq, beq_iff_eq, renames.injective.eq_iff]
    rw [List.lookup_cons, List.lookup_cons, hkey]
    split
    · exact .some h.2
    · exact ih

theorem insert (h : t.Alike renames P u) (name : String) (hab : P a b) :
    (t.insert name a).Alike renames P (u.insert (renames.apply name) b) := by
  obtain ⟨entries⟩ := t
  obtain ⟨others⟩ := u
  show List.Forall₂ _ (insertEntry name a entries) (insertEntry (renames.apply name) b others)
  replace h : List.Forall₂ _ entries others := h
  induction h with
  | nil => exact .cons ⟨rfl, hab⟩ .nil
  | @cons entry other _ _ h hrest ih =>
    obtain ⟨key, old⟩ := entry
    obtain ⟨key', old'⟩ := other
    obtain ⟨rfl, hold⟩ : key' = renames.apply key ∧ P old old' := h
    by_cases hk : name = key
    · subst hk
      rw [insertEntry, insertEntry, if_pos rfl, if_pos rfl]
      exact .cons ⟨rfl, hab⟩ hrest
    · rw [insertEntry, insertEntry, if_neg hk, if_neg (renames.injective.ne hk)]
      exact .cons ⟨rfl, hold⟩ ih

theorem ofList {as : List (String × α)} {bs : List (String × β)}
    (h : List.Forall₂ (fun a b => b.1 = renames.apply a.1 ∧ P a.2 b.2) as bs) :
    (Table.ofList as).Alike renames P (Table.ofList bs) := by
  have general : ∀ (t : Table α) (u : Table β), t.Alike renames P u →
      (as.foldl (fun t entry => t.insert entry.1 entry.2) t).Alike renames P
        (bs.foldl (fun t entry => t.insert entry.1 entry.2) u) := by
    induction h with
    | nil => exact fun _ _ h => h
    | @cons entry other _ _ hentry _ ih =>
      intro t u htu
      have hinsert := htu.insert entry.1 hentry.2
      rw [← hentry.1] at hinsert
      exact ih _ _ hinsert
  exact general Table.empty Table.empty empty

/-- Names with one value each from two lists of related values. -/
theorem zip {as : List α} {bs : List β} (h : List.Forall₂ P as bs) (names : List String) :
    (Table.ofList (names.zip as)).Alike renames P
      (Table.ofList ((names.map renames.apply).zip bs)) := by
  refine ofList ?_
  induction h generalizing names with
  | nil =>
    rw [List.zip_nil_right, List.zip_nil_right]
    exact .nil
  | cons hab _ ih =>
    cases names with
    | nil => exact .nil
    | cons name names => exact .cons ⟨rfl, hab⟩ (ih names)

end Table.Alike

/-! ### Stores -/

/-- As many scopes, with counterparts of the same names and with values that `P` relates. -/
structure Store.Alike {α β : Type} (renames : ScopeId → Renaming) (P : α → β → Prop) (s : Store α)
    (t : Store β) : Prop where
  size : s.size = t.size
  scope : ∀ id, (s.scope id).Alike (renames id) P (t.scope id)

namespace Store.Alike

variable {α β : Type} {renames others : ScopeId → Renaming} {P Q : α → β → Prop} {s : Store α}
  {t : Store β} {a : α} {b : β}

theorem mono (h : s.Alike renames P t) (hPQ : ∀ a b, P a b → Q a b) : s.Alike renames Q t :=
  ⟨h.size, fun id => (h.scope id).mono hPQ⟩

theorem get? (h : s.Alike renames P t) (id : ScopeId) (name : String) :
    Option.Rel P (s.get? id name) (t.get? id ((renames id).apply name)) := (h.scope id).get? name

/-- One more scope, whose names may change in another way than those of the other scopes. -/
theorem push {bindings : Table α} {more : Table β} (h : s.Alike renames P t)
    (hb : bindings.Alike (others s.size) P more)
    (ho : ∀ id, id ≠ s.size → others id = renames id) :
    (s.push bindings).Alike others P (t.push more) := by
  have hscope : ∀ {γ : Type} (s : Store γ) (bindings : Table γ) (id : ScopeId),
      (s.push bindings).scope id = if id = s.size then bindings else s.scope id := by
    intro γ s bindings id
    by_cases hid : id = s.size
    · rw [if_pos hid, hid, Store.scope_push_size]
    · rw [if_neg hid]
      unfold Store.size at hid
      simp [Store.scope, Store.push, Array.getElem?_push, hid]
  refine ⟨by rw [Store.size_push, Store.size_push, h.size], fun id => ?_⟩
  rw [hscope, hscope, ← h.size]
  by_cases hid : id = s.size
  · rw [if_pos hid, if_pos hid, hid]
    exact hb
  · rw [if_neg hid, if_neg hid, ho id hid]
    exact h.scope id

theorem put (h : s.Alike renames P t) (id : ScopeId) (name : String) (hab : P a b) :
    (s.put id name a).Alike renames P (t.put id ((renames id).apply name) b) := by
  refine ⟨by rw [Store.size_put, Store.size_put, h.size], fun other => ?_⟩
  by_cases ho : other = id
  · subst ho
    by_cases hlt : other < s.size
    · rw [Store.scope_put_self s name a hlt, Store.scope_put_self t _ b (h.size ▸ hlt)]
      exact (h.scope other).insert name hab
    · have hout : ∀ {γ : Type} (s : Store γ) (name : String) (value : γ), ¬ other < s.size →
          (s.put other name value).scope other = s.scope other := by
        intro γ s name value hlt
        have hnone : s.scopes[other]? = none := Array.getElem?_eq_none (Nat.le_of_not_lt hlt)
        simp [Store.scope, Store.put, Array.getElem?_modify, hnone]
      rw [hout s name a hlt, hout t _ b (h.size ▸ hlt)]
      exact h.scope other
  · rw [Store.scope_put_of_ne s name a ho, Store.scope_put_of_ne t _ b ho]
    exact h.scope other

/-- A name that stays in all scopes is found in both stores or in none. -/
theorem getAt? (h : s.Alike renames P t) (env : Environment) (depth : Nat) {name : String}
    (hname : ∀ id, (renames id).apply name = name) :
    Option.Rel P (env.getAt? s depth name) (env.getAt? t depth name) := by
  unfold Environment.getAt?
  cases env.ancestor? depth with
  | none => exact .none
  | some outer =>
    have hget := h.get? outer.scope name
    rw [hname outer.scope] at hget
    exact hget

end Store.Alike

/-! ### Worlds -/

/-- What is known of the scopes of a store, by place. -/
abbrev World := List Frame

namespace World

/-- How the names of a scope change. -/
def renames (w : World) (id : ScopeId) : Renaming := (w[id]?.getD .plain).renames

/-- As many scopes or more, of each of which at least as much is known. -/
def Grows (w w' : World) : Prop :=
  ∀ (id : ScopeId) (frame : Frame), w[id]? = some frame →
    ∃ grown, w'[id]? = some grown ∧ frame.Le grown

/-- The names of the first scope stay when the world grows. -/
theorem Grows.global {w w' : World} (h : w.Grows w')
    (hw : ∃ frame, w[0]? = some frame ∧ frame.renames = .refl) :
    ∃ frame, w'[0]? = some frame ∧ frame.renames = .refl := by
  obtain ⟨frame, hframe, hrefl⟩ := hw
  obtain ⟨grown, hgrown, hle⟩ := h 0 frame hframe
  exact ⟨grown, hgrown, hle.renames.trans hrefl⟩

/-- The world in which one scope binds one name more. -/
def declare (w : World) (id : ScopeId) (name : String) : World := w.modify id (·.declare name)

variable {w w' w'' : World}

theorem Grows.refl (w : World) : w.Grows w := fun _ frame h => ⟨frame, h, .refl frame⟩

theorem Grows.trans (h : w.Grows w') (k : w'.Grows w'') : w.Grows w'' := by
  intro id frame hframe
  obtain ⟨grown, hgrown, hle⟩ := h id frame hframe
  obtain ⟨last, hlast, hle'⟩ := k id grown hgrown
  exact ⟨last, hlast, hle.trans hle'⟩

theorem grows_push (w : World) (frame : Frame) : w.Grows (w ++ [frame]) := by
  intro id known hknown
  refine ⟨known, ?_, .refl known⟩
  obtain ⟨hlt, -⟩ := List.getElem?_eq_some_iff.1 hknown
  rw [List.getElem?_append_left hlt, hknown]

theorem getElem?_declare (w : World) (id other : ScopeId) (name : String) :
    (w.declare id name)[other]? =
      if id = other then w[other]?.map (·.declare name) else w[other]? := by
  rw [declare, List.getElem?_modify]
  split <;> simp

theorem grows_declare (w : World) (id : ScopeId) (name : String) : w.Grows (w.declare id name) := by
  intro other known hknown
  rw [getElem?_declare, hknown]
  by_cases hid : id = other
  · rw [if_pos hid]
    exact ⟨_, rfl, rfl, fun _ h => List.mem_cons_of_mem _ h⟩
  · rw [if_neg hid]
    exact ⟨known, rfl, .refl known⟩

theorem renames_declare (w : World) (id other : ScopeId) (name : String) :
    (w.declare id name).renames other = w.renames other := by
  rw [renames, renames, getElem?_declare]
  split
  · cases w[other]? <;> rfl
  · rfl

theorem length_declare (w : World) (id : ScopeId) (name : String) :
    (w.declare id name).length = w.length := List.length_modify ..

theorem renames_push_self (w : World) (frame : Frame) :
    renames (w ++ [frame]) w.length = frame.renames := by
  simp [renames]

theorem renames_push_of_ne (w : World) (frame : Frame) {id : ScopeId} (h : id ≠ w.length) :
    renames (w ++ [frame]) id = w.renames id := by
  rw [renames, renames, List.getElem?_append]
  split
  · rfl
  · next hlt =>
    have hlater : w.length < id := Nat.lt_of_le_of_ne (Nat.le_of_not_lt hlt) (Ne.symm h)
    have hnone : ([frame] : List Frame)[id - w.length]? = none :=
      List.getElem?_eq_none (Nat.sub_pos_of_lt hlater)
    rw [hnone, List.getElem?_eq_none (Nat.le_of_not_lt hlt)]

theorem renames_eq {id : ScopeId} {frame : Frame} (h : w[id]? = some frame) :
    w.renames id = frame.renames := by rw [renames, h, Option.getD_some]

end World

/-- Of the scopes of an environment the world knows at least what the frames say. -/
def Environment.Shows (env : Environment) (w : World) (frames : Frames) : Prop :=
  List.Forall₂ (fun id frame => ∃ known, w[id]? = some known ∧ frame.Le known) env.chain frames

namespace Environment.Shows

variable {env : Environment} {w w' : World} {frames : Frames}

theorem mono (h : env.Shows w frames) (hw : w.Grows w') : env.Shows w' frames := by
  refine h.imp fun id frame hknown => ?_
  obtain ⟨known, hknown, hle⟩ := hknown
  obtain ⟨grown, hgrown, hle'⟩ := hw id known hknown
  exact ⟨grown, hgrown, hle.trans hle'⟩

/-- One more scope around the place. -/
theorem push (h : env.Shows w frames) (frame : Frame) :
    (env.inner w.length).Shows (w ++ [frame]) (frame :: frames) :=
  .cons ⟨frame, List.getElem?_concat_length, .refl frame⟩ (h.mono (World.grows_push w frame))

theorem declare (h : env.Shows w frames) (name : String) :
    env.Shows (w.declare env.scope name) (frames.declare name) := by
  have hgrown := h.mono (World.grows_declare w env.scope name)
  unfold Shows at h hgrown
  rw [chain] at h hgrown
  cases h with
  | cons hfirst hrest =>
    obtain ⟨known, hknown, hle⟩ := hfirst
    cases hgrown with
    | cons _ houter =>
      refine .cons ⟨known.declare name, ?_, hle.renames, ?_⟩ houter
      · rw [World.getElem?_declare, if_pos rfl, hknown]
        rfl
      · exact fun other hother => by
          rcases List.mem_cons.1 hother with rfl | hother
          · exact List.mem_cons_self
          · exact List.mem_cons_of_mem _ (hle.bound hother)

/-- Less may be said of the innermost scope. -/
theorem of_declare {name : String} (h : env.Shows w (frames.declare name)) : env.Shows w frames := by
  cases frames with
  | nil => exact h
  | cons frame outer =>
    unfold Shows at h ⊢
    rw [chain] at h ⊢
    cases h with
    | cons hfirst hrest =>
      obtain ⟨known, hknown, hle⟩ := hfirst
      exact .cons ⟨known, hknown, hle.renames, fun _ h => hle.bound (List.mem_cons_of_mem _ h)⟩ hrest

/-- The scope at a depth, if there is one. -/
theorem at? (h : env.Shows w frames) (depth : Nat) :
    (env.ancestor? depth = none ∧ frames.at? (some depth) = none) ∨
    ∃ outer frame known, env.ancestor? depth = some outer ∧ frames.at? (some depth) = some frame ∧
      w[outer.scope]? = some known ∧ frame.Le known := by
  have hdrop := List.forall₂_drop depth h
  have hat : frames.at? (some depth) = (frames.drop depth)[0]? := by
    rw [List.getElem?_drop, Nat.add_zero]
    rfl
  rw [hat, Environment.ancestor?]
  revert hdrop
  generalize env.chain.drop depth = scopes
  generalize frames.drop depth = known
  intro hdrop
  cases hdrop with
  | nil => exact .inl ⟨rfl, rfl⟩
  | cons hfirst _ =>
    obtain ⟨known, hknown, hle⟩ := hfirst
    exact .inr ⟨_, _, known, rfl, rfl, hknown, hle⟩

/-- The name that is declared in the innermost scope. -/
theorem renameDeclared (h : env.Shows w frames) (name : String) :
    frames.renameDeclared name = (w.renames env.scope).apply name := by
  rcases h.at? 0 with ⟨hnone, -⟩ | ⟨outer, frame, known, houter, hframe, hknown, hle⟩
  · cases hnone
  · rw [Environment.ancestor?_zero] at houter
    cases houter
    rw [World.renames_eq hknown, hle.renames, Frames.renameDeclared, Frames.rename, hframe]

end Environment.Shows

/-! ### Values -/

section Value

variable {r s : Correspondence} {w w' : World}

/-- The same function, made from declarations that are counterparts. Inside its closure are the scopes
`inner`, before its own. -/
structure Function.Alike (r : Correspondence) (w : World) (inner : Frames) (f g : Function) : Prop where
  id : f.id = g.id
  closure : f.closure = g.closure
  isInitializer : f.isInitializer = g.isInitializer
  declaration : ∃ frames, f.closure.Shows w frames ∧
    f.declaration.Counterpart r (inner ++ frames) g.declaration

/-- The same class, with methods alike. These get a scope for `this` when they are bound. -/
inductive Class.Alike (r : Correspondence) (w : World) : Class → Class → Prop where
  | base {id name ms ns} (methods : ms.Alike .refl (Function.Alike r w [.plain]) ns) :
      Class.Alike r w ⟨id, name, none, ms⟩ ⟨id, name, none, ns⟩
  | derived {id name c d ms ns} (superclass : Class.Alike r w c d)
      (methods : ms.Alike .refl (Function.Alike r w [.plain]) ns) :
      Class.Alike r w ⟨id, name, some c, ms⟩ ⟨id, name, some d, ns⟩

structure Instance.Alike (r : Correspondence) (w : World) (a b : Instance) : Prop where
  id : a.id = b.id
  ofClass : a.ofClass.Alike r w b.ofClass

/-- The same value, made from declarations that are counterparts. -/
inductive Value.Alike (r : Correspondence) (w : World) : Value → Value → Prop where
  | nil : Value.Alike r w .nil .nil
  | bool (value) : Value.Alike r w (.bool value) (.bool value)
  | number (value) : Value.Alike r w (.number value) (.number value)
  | string (value) : Value.Alike r w (.string value) (.string value)
  | native (f) : Value.Alike r w (.native f) (.native f)
  | function {f g} (h : f.Alike r w [] g) : Value.Alike r w (.function f) (.function g)
  | ofClass {c d} (h : c.Alike r w d) : Value.Alike r w (.ofClass c) (.ofClass d)
  | ofInstance {a b} (h : a.Alike r w b) : Value.Alike r w (.ofInstance a) (.ofInstance b)

/-- Values alike one by one. -/
abbrev ValuesAlike (r : Correspondence) (w : World) : List Value → List Value → Prop :=
  List.Forall₂ (Value.Alike r w)

namespace Function.Alike

variable {inner : Frames} {f g : Function}

theorem name_eq (h : f.Alike r w inner g) : f.name = g.name := by
  obtain ⟨frames, -, hdeclaration⟩ := h.declaration
  exact hdeclaration.name

theorem arity_eq (h : f.Alike r w inner g) : f.arity = g.arity := by
  obtain ⟨frames, -, hdeclaration⟩ := h.declaration
  exact hdeclaration.length_params

theorem mono (hr : r.Le s) (hw : w.Grows w') (h : f.Alike r w inner g) : f.Alike s w' inner g := by
  obtain ⟨frames, hshows, hdeclaration⟩ := h.declaration
  exact ⟨h.id, h.closure, h.isInitializer, frames, hshows.mono hw, hdeclaration.mono hr⟩

end Function.Alike

namespace Class.Alike

variable {c d : Class}

theorem id_eq (h : c.Alike r w d) : c.id = d.id := by
  cases h <;> rfl

theorem name_eq (h : c.Alike r w d) : c.name = d.name := by
  cases h <;> rfl

theorem methods (h : c.Alike r w d) :
    c.methods.Alike .refl (Function.Alike r w [.plain]) d.methods := by
  cases h with
  | base hm => exact hm
  | derived _ hm => exact hm

theorem findMethod? (h : c.Alike r w d) (name : String) :
    Option.Rel (Function.Alike r w [.plain]) (c.findMethod? name) (d.findMethod? name) := by
  induction h with
  | base hm => exact hm.get? name
  | @derived _ _ c d ms ns _ hm ih =>
    have hget : Option.Rel (Function.Alike r w [.plain]) (ms.get? name) (ns.get? name) := hm.get? name
    rw [Class.findMethod?, Class.findMethod?]
    revert hget
    generalize ms.get? name = f
    generalize ns.get? name = g
    intro hget
    cases hget with
    | none => exact ih
    | some h => exact .some h

theorem initializer? (h : c.Alike r w d) :
    Option.Rel (Function.Alike r w [.plain]) c.initializer? d.initializer? :=
  h.findMethod? initializerName

theorem arity_eq (h : c.Alike r w d) : c.arity = d.arity := by
  have hinit := h.initializer?
  unfold Class.arity
  revert hinit
  generalize c.initializer? = f
  generalize d.initializer? = g
  intro hinit
  cases hinit with
  | none => rfl
  | some h => exact h.arity_eq

theorem superclassNames_eq (h : c.Alike r w d) : c.superclassNames = d.superclassNames := by
  induction h with
  | base => rfl
  | derived hsuper _ ih => rw [Class.superclassNames, Class.superclassNames, hsuper.name_eq, ih]

theorem mono (hr : r.Le s) (hw : w.Grows w') (h : c.Alike r w d) : c.Alike s w' d := by
  induction h with
  | base hm => exact .base (hm.mono fun _ _ h => h.mono hr hw)
  | derived _ hm ih => exact .derived ih (hm.mono fun _ _ h => h.mono hr hw)

end Class.Alike

theorem Instance.Alike.mono {a b : Instance} (hr : r.Le s) (hw : w.Grows w') (h : a.Alike r w b) :
    a.Alike s w' b := ⟨h.id, h.ofClass.mono hr hw⟩

namespace Value.Alike

variable {a b c d : Value}

theorem mono (hr : r.Le s) (hw : w.Grows w') (h : a.Alike r w b) : a.Alike s w' b := by
  cases h with
  | nil => exact .nil
  | bool value => exact .bool value
  | number value => exact .number value
  | string value => exact .string value
  | native f => exact .native f
  | function h => exact .function (h.mono hr hw)
  | ofClass h => exact .ofClass (h.mono hr hw)
  | ofInstance h => exact .ofInstance (h.mono hr hw)

theorem of_isPlain (h : a.IsPlain) : a.Alike r w a := by
  cases a with
  | nil => exact .nil
  | bool value => exact .bool value
  | number value => exact .number value
  | string value => exact .string value
  | _ => exact h.elim

theorem content_eq (h : a.Alike r w b) : a.content = b.content := by
  cases h with
  | nil | bool | number | string | native => rfl
  | function h => rw [Value.content, Value.content, h.id, h.name_eq]
  | ofClass h => rw [Value.content, Value.content, h.id_eq, h.name_eq]
  | ofInstance h => rw [Value.content, Value.content, h.id, h.ofClass.name_eq]

theorem arity?_eq (h : a.Alike r w b) : a.arity? = b.arity? := by
  cases h with
  | function h => rw [Value.arity?, Value.arity?, h.arity_eq]
  | ofClass h => rw [Value.arity?, Value.arity?, h.arity_eq]
  | _ => rfl

theorem isTruthy_eq (h : a.Alike r w b) : a.isTruthy = b.isTruthy := by
  rw [← isTruthy_content, h.content_eq, isTruthy_content]

theorem display_eq (h : a.Alike r w b) : a.display = b.display := by
  rw [← display_content, h.content_eq, display_content]

theorem equal_eq (h : a.Alike r w b) (k : c.Alike r w d) : a.equal c = b.equal d := by
  rw [← equal_content, h.content_eq, k.content_eq, equal_content]

theorem decides_eq (operator : LogicalOperator) (h : a.Alike r w b) :
    operator.decides a = operator.decides b := by
  rw [← LogicalOperator.decides_content, h.content_eq, LogicalOperator.decides_content]

theorem unary_eq (operator : UnaryOperator) (h : a.Alike r w b) :
    operator.apply a = operator.apply b := by
  rw [← UnaryOperator.apply_content, h.content_eq, UnaryOperator.apply_content]

theorem binary_eq (operator : BinaryOperator) (h : a.Alike r w b) (k : c.Alike r w d) :
    operator.apply a c = operator.apply b d := by
  rw [← BinaryOperator.apply_content, h.content_eq, k.content_eq, BinaryOperator.apply_content]

end Value.Alike

end Value

/-! ### Host functions -/

/-- The function does not look into the declarations of the functions that it is given. -/
def HostFunction.Uniform (f : HostFunction) : Prop :=
  ∀ (r : Correspondence) (w : World) (as bs : List Value), ValuesAlike r w as bs →
    (∃ a b, f as = .ok a ∧ f bs = .ok b ∧ a.Alike r w b) ∨
      ∃ message, f as = .error message ∧ f bs = .error message

namespace Host

theorem uniform_clock (now : Number) : HostFunction.Uniform (clock now) :=
  fun _ _ _ _ _ => .inl ⟨_, _, rfl, rfl, .number now⟩

theorem uniform_double : HostFunction.Uniform double := by
  intro r w as bs h
  cases h with
  | nil => exact .inr ⟨_, rfl, rfl⟩
  | cons hab hrest =>
    cases hab with
    | number x =>
      cases hrest with
      | nil => exact .inl ⟨_, _, rfl, rfl, .number _⟩
      | cons => exact .inr ⟨_, rfl, rfl⟩
    | _ => exact .inr ⟨_, rfl, rfl⟩

theorem uniform_display : HostFunction.Uniform display := by
  intro r w as bs h
  cases h with
  | nil => exact .inl ⟨_, _, rfl, rfl, .nil⟩
  | cons hab => exact .inl ⟨_, _, rfl, rfl, hab.display_eq ▸ .string _⟩

theorem uniform_same : HostFunction.Uniform same := by
  intro r w as bs h
  cases h with
  | nil => exact .inl ⟨_, _, rfl, rfl, .nil⟩
  | cons hab hrest =>
    cases hrest with
    | nil => exact .inl ⟨_, _, rfl, rfl, .nil⟩
    | cons hcd hrest =>
      cases hrest with
      | nil => exact .inl ⟨_, _, rfl, rfl, hab.equal_eq hcd ▸ .bool _⟩
      | cons => exact .inl ⟨_, _, rfl, rfl, .nil⟩

theorem uniform_fail : HostFunction.Uniform fail := fun _ _ _ _ _ => .inr ⟨_, rfl, rfl⟩

end Host

/-! ### Machines -/

/-- Machines whose scopes the world describes, whose functions were made from counterparts, and with the
same depths for nodes that stand for each other. -/
structure Machine.Alike (r : Correspondence) (w : World) (m n : Machine) : Prop where
  store : m.store.Alike w.renames (Value.Alike r w) n.store
  size : m.store.size = w.length
  bound : ∀ (id : ScopeId) (frame : Frame), w[id]? = some frame → ∀ name ∈ frame.bound,
    (m.store.scope id).contains name = true
  global : ∃ frame, w[0]? = some frame ∧ frame.renames = .refl
  fields : m.fields.Alike (fun _ => .refl) (Value.Alike r w) n.fields
  nextIdentity : m.nextIdentity = n.nextIdentity
  environment : m.environment = n.environment
  callDepth : m.callDepth = n.callDepth
  maxCallDepth : m.maxCallDepth = n.maxCallDepth
  depths : ∀ i j, r.node i j → m.depths[i]? = r.depth i ∧ n.depths[j]? = r.depth i
  hostFunctions : m.hostFunctions = n.hostFunctions
  uniform : ∀ f ∈ n.hostFunctions, HostFunction.Uniform f
  output : m.output = n.output

namespace Machine.Alike

variable {r : Correspondence} {w : World} {m n : Machine} {frames : Frames}

/-- Global names stay. -/
theorem renames_global (h : m.Alike r w n) : w.renames 0 = .refl := by
  obtain ⟨frame, hframe, hrefl⟩ := h.global
  rw [World.renames_eq hframe, hrefl]

theorem global? (h : m.Alike r w n) (name : String) :
    Option.Rel (Value.Alike r w) (m.global? name) (n.global? name) := by
  have hget := h.store.get? 0 name
  rw [h.renames_global] at hget
  simp only [Machine.global?, Environment.get?, Environment.global, Environment.chain,
    List.findSome?_cons, List.findSome?_nil]
  revert hget
  show Option.Rel _ (m.store.get? 0 name) (n.store.get? 0 name) → _
  generalize m.store.get? 0 name = a
  generalize n.store.get? 0 name = b
  intro hget
  cases hget with
  | none => exact .none
  | some h => exact .some h

/-- A variable has like values in both machines, or it has none and the same name. -/
theorem valueOf? (h : m.Alike r w n) (henv : m.environment.Shows w frames) {i j : NodeId}
    (hn : r.node i j) {name other : String} (hreads : frames.Reads (r.depth i) name other) :
    (∃ a b, m.valueOf? i name = some a ∧ n.valueOf? j other = some b ∧ a.Alike r w b) ∨
      m.valueOf? i name = none ∧ n.valueOf? j other = none ∧ other = name := by
  obtain ⟨hi, hj⟩ := h.depths i j hn
  unfold Machine.valueOf?
  rw [hi, hj, ← h.environment]
  cases hd : r.depth i with
  | none =>
    have hname : other = name := by rw [hreads.rename, hd]; rfl
    have hglobal := h.global? name
    rw [hname]
    simp only
    revert hglobal
    generalize m.global? name = a
    generalize n.global? name = b
    intro hglobal
    cases hglobal with
    | none => exact .inr ⟨rfl, rfl, trivial⟩
    | some hab => exact .inl ⟨_, _, rfl, rfl, hab⟩
  | some depth =>
    rw [hd] at hreads
    simp only [Environment.getAt?]
    rcases henv.at? depth with ⟨houter, hframe⟩ | ⟨outer, frame, known, houter, hframe, hknown, hle⟩
    · have hname : other = name := by rw [hreads.rename, Frames.rename, hframe]
      rw [houter]
      exact .inr ⟨rfl, rfl, hname⟩
    · rw [houter]
      simp only [Option.bind_some]
      have hname : other = (w.renames outer.scope).apply name := by
        rw [hreads.rename, Frames.rename, hframe, World.renames_eq hknown, hle.renames]
      have hget := h.store.get? outer.scope name
      rw [← hname] at hget
      cases ha : m.store.get? outer.scope name with
      | some a =>
        rw [ha] at hget
        generalize n.store.get? outer.scope other = b at hget
        cases hget with
        | some hab => exact .inl ⟨_, _, rfl, rfl, hab⟩
      | none =>
        rw [ha] at hget
        generalize n.store.get? outer.scope other = b at hget
        cases hget with
        | none =>
          refine .inr ⟨rfl, rfl, ?_⟩
          -- A name that changes is bound, so it would have been found.
          by_contra hne
          obtain ⟨frame', hframe', hmem⟩ := hreads.bound hne
          rw [hframe, Option.some.injEq] at hframe'
          subst hframe'
          have hbound := h.bound _ _ hknown name (hle.bound hmem)
          rw [Table.contains, show (m.store.scope outer.scope).get? name = none from ha] at hbound
          cases hbound

/-- An assignment writes the same scope in both machines, or there is none to write and the name is the
same. -/
theorem assignee? (h : m.Alike r w n) (henv : m.environment.Shows w frames) {i j : NodeId}
    (hn : r.node i j) {name other : String} (hname : other = frames.rename (r.depth i) name) :
    (∃ scope, m.assignee? i name = some scope ∧ n.assignee? j other = some scope ∧
      other = (w.renames scope).apply name) ∨
    m.assignee? i name = none ∧ n.assignee? j other = none ∧ other = name := by
  obtain ⟨hi, hj⟩ := h.depths i j hn
  unfold Machine.assignee?
  rw [hi, hj, ← h.environment]
  cases hd : r.depth i with
  | none =>
    have hname : other = name := by rw [hname, hd]; rfl
    subst hname
    have hglobal := h.store.get? 0 other
    rw [h.renames_global] at hglobal
    replace hglobal : Option.Rel _ (m.store.get? 0 other) (n.store.get? 0 other) := hglobal
    simp only [Environment.scopeOf?, Environment.global, Environment.chain, List.find?_cons,
      List.find?_nil, Store.binds]
    revert hglobal
    generalize m.store.get? 0 other = a
    generalize n.store.get? 0 other = b
    intro hglobal
    cases hglobal with
    | none => exact .inr ⟨rfl, rfl, trivial⟩
    | some hab => exact .inl ⟨0, rfl, rfl, by rw [h.renames_global]; rfl⟩
  | some depth =>
    rw [hd] at hname
    rcases henv.at? depth with ⟨houter, hframe⟩ | ⟨outer, frame, known, houter, hframe, hknown, hle⟩
    · rw [Frames.rename, hframe] at hname
      simp only [houter]
      exact .inr ⟨rfl, rfl, hname⟩
    · rw [Frames.rename, hframe] at hname
      simp only [houter]
      refine .inl ⟨outer.scope, rfl, rfl, ?_⟩
      rw [hname, World.renames_eq hknown, hle.renames]

end Machine.Alike

end Lox
