import Lox.Proofs.Agreement
import Lox.Proofs.Evaluation.Likeness
import Lox.Proofs.Evaluation.Steps

/-!
# Steps alike

Counterparts on like machines take the same steps and end in the same way. Nodes count only by the
depths that are recorded for them.
-/

namespace Lox

open Procedure

/-- Like machines, at places with these scopes around them. -/
structure Machine.AlikeIn (r : Correspondence) (w : World) (frames : Frames) (m n : Machine) : Prop
    extends m.Alike r w n where
  shows : m.environment.Shows w frames

/-- The runs of `x` and `y` agree, with the same fault if they fail, and leave machines alike. If they
end normally, the scopes around the place are `frames`, and `P` relates the results. -/
def Lockstep {α β : Type} (r : Correspondence) (w : World) (m n : Machine) (x : Run α) (y : Run β)
    (frames : Frames) (P : World → α → β → Prop) : Prop :=
  Agree
    (fun e f after last =>
      e.fault = f.fault ∧ r.line e.line f.line ∧ ∃ w', after.Alike r w' last)
    x y m n
    fun a b after last => ∃ w', w.Grows w' ∧ after.AlikeIn r w' frames last ∧ P w' a b

theorem Correspondence.Le.refl (r : Correspondence) : r.Le r := ⟨id, fun _ => rfl, id⟩

namespace Machine.AlikeIn

variable {r : Correspondence} {w : World} {frames : Frames} {m n : Machine}

theorem of_declare {name : String} (h : m.AlikeIn r w (frames.declare name) n) :
    m.AlikeIn r w frames n := ⟨h.toAlike, h.shows.of_declare⟩

theorem of_after {s : Stmt} (h : m.AlikeIn r w (frames.after s) n) : m.AlikeIn r w frames n := by
  unfold Frames.after at h
  split at h
  · exact h.of_declare
  · exact h

end Machine.AlikeIn

namespace Lockstep

variable {α β γ δ : Type} {r : Correspondence} {w : World} {m n after last : Machine} {x : Run α}
  {y : Run β} {frames inner : Frames} {P : World → α → β → Prop}

theorem of_ok {a : α} {b : β} {w' : World} (hx : x m = .ok a after) (hy : y n = .ok b last)
    (hw : w.Grows w') (h : after.AlikeIn r w' frames last) (hP : P w' a b) :
    Lockstep r w m n x y frames P :=
  Agree.of_ok hx hy ⟨w', hw, h, hP⟩

theorem of_error {fault : RuntimeFault} {k l : Nat} (hx : x m = .error ⟨fault, k⟩ after)
    (hy : y n = .error ⟨fault, l⟩ last) (h : after.Alike r w last) (hl : r.line k l) :
    Lockstep r w m n x y frames P :=
  Agree.of_error hx hy ⟨rfl, hl, w, h⟩

theorem pure {a : α} {b : β} (h : m.AlikeIn r w frames n) (hP : P w a b) :
    Lockstep r w m n (Pure.pure a) (Pure.pure b) frames P :=
  of_ok rfl rfl (.refl w) h hP

theorem raise {k l : Nat} (h : m.AlikeIn r w inner n) (fault : RuntimeFault) (hl : r.line k l) :
    Lockstep r w m n (Run.raise fault k : Run α) (Run.raise fault l : Run β) frames P :=
  of_error rfl rfl h.toAlike hl

theorem exhaust : Lockstep r w m n (exhaust : Run α) (exhaust : Run β) frames P := trivial

theorem bind {f : α → Run γ} {g : β → Run δ} {Q : World → γ → δ → Prop}
    (h : Lockstep r w m n x y inner P)
    (hnext : ∀ w' a b after last, w.Grows w' → after.AlikeIn r w' inner last → P w' a b →
      Lockstep r w' after last (f a) (g b) frames Q) :
    Lockstep r w m n (x >>= f) (y >>= g) frames Q := by
  refine Agree.bind h fun a b after last hP => ?_
  obtain ⟨w', hw, halike, hP⟩ := hP
  refine (hnext w' a b after last hw halike hP).mono fun c d after last hQ => ?_
  obtain ⟨w'', hw', halike, hQ⟩ := hQ
  exact ⟨w'', hw.trans hw', halike, hQ⟩

/-- What follows a look at the machines may depend on what they show. -/
theorem read {f : Machine → γ} {g : Machine → δ} {k : γ → Run α} {l : δ → Run β}
    (hnext : Lockstep r w m n (k (f m)) (l (g n)) frames P) :
    Lockstep r w m n (Procedure.read f >>= k) (Procedure.read g >>= l) frames P := hnext

theorem of_after {s : Stmt} (h : Lockstep r w m n x y (frames.after s) P) :
    Lockstep r w m n x y frames P :=
  h.mono fun _ _ _ _ ⟨w', hw, halike, hP⟩ => ⟨w', hw, halike.of_after, hP⟩

theorem inEnvironment {around : Frames} {env : Environment} (h : m.AlikeIn r w frames n)
    (henv : env.Shows w around)
    (hx : ∀ after last, after.AlikeIn r w around last → Lockstep r w after last x y inner P) :
    Lockstep r w m n (Run.inEnvironment env x) (Run.inEnvironment env y) frames P := by
  have hinside : Machine.AlikeIn r w around { m with environment := env }
      { n with environment := env } := ⟨{ h.toAlike with environment := rfl }, henv⟩
  refine Agree.congr (Run.inEnvironment_apply env x m) (Run.inEnvironment_apply env y n) ?_
  refine Agree.afterwards (hx _ _ hinside) ?_ ?_
  · rintro a b after last ⟨w', hw, halike, hP⟩
    exact ⟨w', hw, ⟨{ halike.toAlike with environment := h.environment }, h.shows.mono hw⟩, hP⟩
  · rintro e f after last ⟨hfault, hline, w', halike⟩
    exact ⟨hfault, hline, w', { halike with environment := h.environment }⟩

theorem asCall {k l : Nat} (h : m.AlikeIn r w frames n) (hl : r.line k l)
    (hx : ∀ after last, after.AlikeIn r w frames last → Lockstep r w after last x y inner P) :
    Lockstep r w m n (Run.asCall k x) (Run.asCall l y) inner P := by
  have hm := Run.asCall_apply k x m
  have hn := Run.asCall_apply l y n
  by_cases hfull : n.maxCallDepth ≤ n.callDepth
  · rw [if_pos hfull] at hn
    rw [if_pos (by rwa [h.maxCallDepth, h.callDepth])] at hm
    exact of_error hm hn h.toAlike hl
  · rw [if_neg hfull] at hn
    rw [if_neg (by rwa [h.maxCallDepth, h.callDepth])] at hm
    have hinside : Machine.AlikeIn r w frames { m with callDepth := m.callDepth + 1 }
        { n with callDepth := n.callDepth + 1 } :=
      ⟨{ h.toAlike with callDepth := congrArg (· + 1) h.callDepth }, h.shows⟩
    refine Agree.congr hm hn (Agree.afterwards (hx _ _ hinside) ?_ ?_)
    · rintro a b after last ⟨w', hw, halike, hP⟩
      exact ⟨w', hw, ⟨{ halike.toAlike with callDepth := congrArg (· - 1) halike.callDepth },
        halike.shows⟩, hP⟩
    · rintro e f after last ⟨hfault, hline, w', halike⟩
      exact ⟨hfault, hline, w', { halike with callDepth := congrArg (· - 1) halike.callDepth }⟩

/-! ### Operators and variables -/

theorem located {k l : Nat} (h : m.AlikeIn r w frames n) {result : Except RuntimeFault Value}
    (hr : ∀ value, result = .ok value → value.IsPlain) (hl : r.line k l) :
    Lockstep r w m n (Run.located k result) (Run.located l result) frames (Value.Alike r) := by
  cases result with
  | ok value => exact pure h (.of_isPlain (hr value rfl))
  | error fault => exact raise h fault hl

theorem unary {k l : Nat} (h : m.AlikeIn r w frames n) (operator : UnaryOperator) {a b : Value}
    (hab : a.Alike r w b) (hl : r.line k l) :
    Lockstep r w m n (Run.located k (operator.apply a)) (Run.located l (operator.apply b)) frames
      (Value.Alike r) := by
  rw [hab.unary_eq]
  exact located h (fun value => UnaryOperator.isPlain_apply) hl

theorem binary {k l : Nat} (h : m.AlikeIn r w frames n) (operator : BinaryOperator)
    {a b c d : Value} (hab : a.Alike r w b) (hcd : c.Alike r w d) (hl : r.line k l) :
    Lockstep r w m n (Run.located k (operator.apply a c)) (Run.located l (operator.apply b d)) frames
      (Value.Alike r) := by
  rw [hab.binary_eq operator hcd]
  exact located h (fun value => BinaryOperator.isPlain_apply) hl

theorem valueOf {k l : Nat} (h : m.AlikeIn r w frames n) {i j : NodeId} (hn : r.node i j)
    {name other : String} (hreads : frames.Reads (r.depth i) name other) (hl : r.line k l) :
    Lockstep r w m n (Run.valueOf i name k) (Run.valueOf j other l) frames (Value.Alike r) := by
  have hx := Run.valueOf_apply i name k m
  have hy := Run.valueOf_apply j other l n
  rcases h.valueOf? h.shows hn hreads with ⟨a, b, ha, hb, hab⟩ | ⟨ha, hb, hname⟩
  · rw [ha] at hx
    rw [hb] at hy
    exact of_ok hx hy (.refl w) h hab
  · subst hname
    rw [ha] at hx
    rw [hb] at hy
    exact of_error hx hy h.toAlike hl

/-- A new variable, whose value may close over the scope that it is put into. -/
theorem define (h : m.AlikeIn r w frames n) {name other : String}
    (hname : other = frames.renameDeclared name) {a b : Value}
    (hab : a.Alike r (w.declare m.environment.scope name) b) :
    Lockstep r w m n (Run.define name a) (Run.define other b) (frames.declare name)
      fun _ _ _ => True := by
  have hw := w.grows_declare m.environment.scope name
  have hother : other = ((w.declare m.environment.scope name).renames m.environment.scope).apply name := by
    rw [hname, h.shows.renameDeclared, World.renames_declare]
  have hfields := h.fields.mono fun _ _ h => h.mono (.refl r) hw
  have hglobal := hw.global h.global
  refine of_ok rfl rfl hw ⟨{ h.toAlike with
    store := ?_, size := ?_, bound := ?_, global := hglobal, fields := hfields },
    h.shows.declare name⟩ trivial
  · show (m.store.put m.environment.scope name a).Alike _ _ (n.store.put n.environment.scope other b)
    rw [← h.environment, hother]
    refine Store.Alike.put ?_ _ name hab
    rw [funext (w.renames_declare m.environment.scope · name)]
    exact h.store.mono fun _ _ h => h.mono (.refl r) hw
  · exact (Store.size_put ..).trans (h.size.trans (w.length_declare ..).symm)
  · intro id frame hframe key hkey
    rw [World.getElem?_declare] at hframe
    show ((m.store.put m.environment.scope name a).scope id).contains key = true
    by_cases hid : m.environment.scope = id
    · subst hid
      rw [if_pos rfl, Option.map_eq_some_iff] at hframe
      obtain ⟨known, hknown, rfl⟩ := hframe
      have hlt : m.environment.scope < m.store.size :=
        h.size ▸ (List.getElem?_eq_some_iff.1 hknown).1
      rw [Store.scope_put_self _ _ _ hlt, Table.contains_insert, Bool.or_eq_true, decide_eq_true_eq]
      rcases List.mem_cons.1 hkey with rfl | hkey
      · exact .inl rfl
      · exact .inr (h.bound _ known hknown key hkey)
    · rw [if_neg hid] at hframe
      rw [Store.scope_put_of_ne _ _ _ (Ne.symm hid)]
      exact h.bound id frame hframe key hkey

theorem assign (h : m.AlikeIn r w frames n) {s t : Reference} (hn : r.node s.id t.id)
    (hl : r.line s.name.line t.name.line)
    (hname : t.name.text = frames.rename (r.depth s.id) s.name.text) {a b : Value}
    (hab : a.Alike r w b) :
    Lockstep r w m n (Run.assign s a) (Run.assign t b) frames fun _ _ _ => True := by
  have hx := Run.assign_apply s a m
  have hy := Run.assign_apply t b n
  rcases h.assignee? h.shows hn hname with ⟨scope, hs, ht, hscope⟩ | ⟨hs, ht, hnone⟩
  · rw [hs] at hx
    rw [ht] at hy
    refine of_ok hx hy (.refl w) ⟨{ h.toAlike with store := ?_, size := ?_, bound := ?_ }, h.shows⟩
      trivial
    · show (m.store.put scope s.name.text a).Alike _ _ (n.store.put scope t.name.text b)
      rw [hscope]
      exact h.store.put scope _ hab
    · exact (Store.size_put ..).trans h.size
    · intro id frame hframe key hkey
      have hbound := h.bound id frame hframe key hkey
      show ((m.store.put scope s.name.text a).scope id).contains key = true
      by_cases hid : id = scope
      · subst hid
        have hlt : id < m.store.size := h.size ▸ (List.getElem?_eq_some_iff.1 hframe).1
        rw [Store.scope_put_self _ _ _ hlt, Table.contains_insert, hbound, Bool.or_true]
      · rwa [Store.scope_put_of_ne _ _ _ hid]
  · rw [hs] at hx
    rw [ht, hnone] at hy
    exact of_error hx hy h.toAlike hl

/-! ### Scopes, functions and instances -/

theorem newScope (h : m.AlikeIn r w frames n) {env : Environment} (henv : env.Shows w inner)
    (frame : Frame) {bindings others : Table Value}
    (hb : bindings.Alike frame.renames (Value.Alike r w) others)
    (hbound : ∀ name ∈ frame.bound, bindings.contains name = true) :
    Lockstep r w m n (Run.newScope env bindings) (Run.newScope env others) frames
      fun w' e f => e = f ∧ e.Shows w' (frame :: inner) := by
  have hw := w.grows_push frame
  have hinner : (env.inner m.store.size).Shows (w ++ [frame]) (frame :: inner) := by
    rw [h.size]
    exact henv.push frame
  have hfields := h.fields.mono fun _ _ h => h.mono (.refl r) hw
  have hglobal := hw.global h.global
  refine of_ok rfl rfl hw ⟨{ h.toAlike with
    store := ?_, size := ?_, bound := ?_, global := hglobal, fields := hfields }, h.shows.mono hw⟩
    ⟨congrArg env.inner h.store.size, hinner⟩
  · refine (h.store.mono fun _ _ h => h.mono (.refl r) hw).push ?_ fun id hid => ?_
    · rw [h.size, World.renames_push_self]
      exact hb.mono fun _ _ h => h.mono (.refl r) hw
    · exact w.renames_push_of_ne frame (h.size ▸ hid)
  · rw [Store.size_push, List.length_append, List.length_singleton, h.size]
  · intro id known hknown name hname
    by_cases hid : id = w.length
    · subst hid
      rw [List.getElem?_concat_length, Option.some.injEq] at hknown
      subst hknown
      rw [← h.size, Store.scope_push_size]
      exact hbound name hname
    · have hlt : id < w.length + 1 := by
        simpa using (List.getElem?_eq_some_iff.1 hknown).1
      have hlt : id < w.length := Nat.lt_of_le_of_ne (Nat.le_of_lt_succ hlt) hid
      rw [List.getElem?_append_left hlt] at hknown
      rw [Store.scope_push_of_lt _ _ (h.size ▸ hlt)]
      exact h.bound id known hknown name hname

/-- New identities are the same on both machines. -/
theorem freshIdentity (h : m.AlikeIn r w frames n) (count : Nat) {f : Nat → Run α} {g : Nat → Run β}
    (hnext : ∀ id after last, after.AlikeIn r w frames last → after.environment = m.environment →
      Lockstep r w after last (f id) (g id) inner P) :
    Lockstep r w m n (Run.freshIdentity count >>= f) (Run.freshIdentity count >>= g) inner P := by
  have hafter : Machine.AlikeIn r w frames { m with nextIdentity := m.nextIdentity + count }
      { n with nextIdentity := n.nextIdentity + count } :=
    ⟨{ h.toAlike with nextIdentity := congrArg (· + count) h.nextIdentity }, h.shows⟩
  have hrest := hnext m.nextIdentity _ _ hafter rfl
  rw [h.nextIdentity] at hrest
  exact Agree.congr (by rw [← h.nextIdentity]; rfl) rfl hrest

theorem bindMethod (h : m.AlikeIn r w frames n) {f g : Function} (hfg : f.Alike r w [.plain] g)
    {a b : Instance} (hab : a.Alike r w b) :
    Lockstep r w m n (Run.bind f a) (Run.bind g b) frames
      fun w' f' g' => f'.Alike r w' [] g' ∧ f'.arity = f.arity := by
  obtain ⟨around, hshows, hdeclaration⟩ := hfg.declaration
  have hthis : (Table.ofList [("this", Value.ofInstance a)]).Alike Frame.plain.renames (Value.Alike r w)
      (Table.ofList [("this", Value.ofInstance b)]) := .ofList (.cons ⟨rfl, .ofInstance hab⟩ .nil)
  unfold Run.bind
  rw [← hfg.closure]
  refine bind (newScope h hshows .plain hthis nofun) fun w' closure _ after last hw halike hclosure => ?_
  obtain ⟨rfl, hclosure⟩ := hclosure
  refine freshIdentity halike 1 fun id after last halike _ => ?_
  exact pure halike ⟨⟨rfl, rfl, hfg.isInitializer, _, hclosure, hdeclaration⟩, rfl⟩

theorem instantiate (h : m.AlikeIn r w frames n) {c d : Class} (hcd : c.Alike r w d) :
    Lockstep r w m n (Run.instantiate c) (Run.instantiate d) frames (Instance.Alike r) :=
  of_ok rfl rfl (.refl w) ⟨{ h.toAlike with fields := h.fields.push .empty fun _ _ => rfl }, h.shows⟩
    ⟨h.fields.size, hcd⟩

/-- A method that is found in like classes, or in none of them, bound to like instances. -/
theorem boundMethod (h : m.AlikeIn r w frames n) {f g : Option Function}
    (hfg : Option.Rel (Function.Alike r w [.plain]) f g) {a b : Instance} (hab : a.Alike r w b)
    {name other : Identifier} (hn : name.Alike r.toLikeness other) :
    Lockstep r w m n
      (match f with
        | some method => do return .function (← Run.bind method a)
        | none => Run.raise (.undefinedProperty name.text) name.line)
      (match g with
        | some method => do return .function (← Run.bind method b)
        | none => Run.raise (.undefinedProperty other.text) other.line) frames (Value.Alike r) := by
  cases hfg with
  | none =>
    rw [hn.text]
    exact raise h _ hn.line
  | some hfg =>
    refine bind (bindMethod h hfg hab) fun w' f g after last hw halike hbound => ?_
    exact pure halike (.function hbound.1)

theorem property (h : m.AlikeIn r w frames n) {a b : Instance} (hab : a.Alike r w b)
    {name other : Identifier} (hn : name.Alike r.toLikeness other) :
    Lockstep r w m n (Run.property a name) (Run.property b other) frames (Value.Alike r) := by
  have hfield : Option.Rel (Value.Alike r w) (m.fields.get? a.id name.text)
      (n.fields.get? a.id name.text) := h.fields.get? a.id name.text
  have hmethod := boundMethod h (hab.ofClass.findMethod? name.text) hab hn
  rw [Run.property, Run.property, ← hab.id, ← hn.text]
  refine read ?_
  revert hfield
  generalize m.fields.get? a.id name.text = v
  generalize n.fields.get? a.id name.text = w
  intro hfield
  cases hfield with
  | none =>
    rw [← hn.text] at hmethod
    exact hmethod
  | some hvw => exact pure h hvw

theorem setField (h : m.AlikeIn r w frames n) {a b : Instance} (hab : a.Alike r w b) (name : String)
    {c d : Value} (hcd : c.Alike r w d) :
    Lockstep r w m n (Run.setField a name c) (Run.setField b name d) frames fun _ _ _ => True := by
  unfold Run.setField
  rw [hab.id]
  exact of_ok rfl rfl (.refl w) ⟨{ h.toAlike with fields := h.fields.put b.id name hcd }, h.shows⟩
    trivial

theorem superMethod {k l : Nat} (h : m.AlikeIn r w frames n) {i j : NodeId} (hn : r.node i j)
    (hl : r.line k l) {method other : Identifier} (hm : method.Alike r.toLikeness other) :
    Lockstep r w m n (Run.superMethod i k method) (Run.superMethod j l other) frames
      (Value.Alike r) := by
  obtain ⟨hi, hj⟩ := h.depths i j hn
  rw [Run.superMethod, Run.superMethod]
  refine read ?_
  rw [hi, hj]
  cases r.depth i with
  | none => exact raise h _ hl
  | some depth =>
    have hsuper := h.store.getAt? m.environment depth fun id => (w.renames id).super
    have hthis := h.store.getAt? m.environment (depth - 1) fun id => (w.renames id).this
    refine read ?_
    rw [← h.environment]
    revert hsuper
    generalize m.environment.getAt? m.store depth "super" = a
    generalize m.environment.getAt? n.store depth "super" = b
    intro hsuper
    cases hsuper with
    | none => exact raise h _ hl
    | some hsuper =>
      refine read ?_
      rw [← h.environment]
      revert hthis
      generalize m.environment.getAt? m.store (depth - 1) "this" = a
      generalize m.environment.getAt? n.store (depth - 1) "this" = b
      intro hthis
      cases hthis with
      | none => exact raise h _ hl
      | some hthis =>
        cases hsuper with
        | ofClass hclass =>
          cases hthis with
          | ofInstance hobject =>
            have hmethod := boundMethod h (hclass.findMethod? method.text) hobject hm
            rw [hm.text] at hmethod ⊢
            exact hmethod
          | _ => exact raise h _ hl
        | _ => exact raise h _ hl

theorem write {k l : Nat} (h : m.AlikeIn r w frames n) (text : String) (hl : r.line k l) :
    Lockstep r w m n (Run.write text k) (Run.write text l) frames fun _ _ _ => True := by
  unfold Lockstep Agree Run.write
  rw [h.output]
  by_cases htakes : n.output.takes text = true
  · rw [if_pos htakes, if_pos htakes]
    exact ⟨w, .refl w, ⟨{ h.toAlike with output := rfl }, h.shows⟩, trivial⟩
  · rw [if_neg htakes, if_neg htakes]
    exact ⟨rfl, hl, w, { h.toAlike with output := rfl }⟩

theorem callHost {k l : Nat} (h : m.AlikeIn r w frames n) (f : Native) {as bs : List Value}
    (habs : ValuesAlike r w as bs) (hl : r.line k l) :
    Lockstep r w m n (Run.callHost f as k) (Run.callHost f bs l) frames (Value.Alike r) := by
  unfold Lockstep Agree Run.callHost
  simp only [bind_apply, Procedure.read, h.hostFunctions]
  cases hf : n.hostFunctions[f.id]? with
  | none => exact ⟨w, .refl w, h, .nil⟩
  | some host =>
    have huniform := h.uniform host (Array.mem_of_getElem? hf)
    rcases huniform r w as bs habs with ⟨a, b, ha, hb, hab⟩ | ⟨message, ha, hb⟩
    · simp only [ha, hb]
      exact ⟨w, .refl w, h, hab⟩
    · simp only [ha, hb]
      exact ⟨rfl, hl, w, h.toAlike⟩

end Lockstep

end Lox
