import Lox.Syntax

/-!
# Equality of syntax trees

Two trees can be compared node by node, so that what a text is read as can be decided.
-/

namespace Lox

/-! ### Expressions -/

mutual

/-- Compares two expressions. -/
def Expr.same : Expr → Expr → Bool
  | literal v, literal w => v = w
  | unary o a k, unary p b l => o = p && a.same b && k = l
  | binary a o b k, binary c p d l => a.same c && o = p && b.same d && k = l
  | logical a o b, logical c p d => a.same c && o = p && b.same d
  | grouping a, grouping b => a.same b
  | reference s, reference t => s = t
  | assign s a, assign t b => s = t && a.same b
  | call a as k, call b bs l => a.same b && Expr.allSame as bs && k = l
  | get a x, get b y => a.same b && x = y
  | set a x c, set b y d => a.same b && x = y && c.same d
  | this i k, this j l => i = j && k = l
  | super i k x, super j l y => i = j && k = l && x = y
  | _, _ => false

/-- Compares two lists of expressions. -/
def Expr.allSame : List Expr → List Expr → Bool
  | [], [] => true
  | a :: as, b :: bs => a.same b && Expr.allSame as bs
  | _, _ => false

end

mutual

theorem Expr.same_self (a : Expr) : a.same a = true := by
  match a with
  | literal v | reference s | this i k | super i k x => simp [same]
  | unary o a k => simp [same, a.same_self]
  | binary a o b k => simp [same, a.same_self, b.same_self]
  | logical a o b => simp [same, a.same_self, b.same_self]
  | grouping a => simp [same, a.same_self]
  | assign s a => simp [same, a.same_self]
  | call a as k => simp [same, a.same_self, Expr.allSame_self as]
  | get a x => simp [same, a.same_self]
  | set a x c => simp [same, a.same_self, c.same_self]

theorem Expr.allSame_self (as : List Expr) : Expr.allSame as as = true := by
  match as with
  | [] => rfl
  | a :: rest => simp [allSame, a.same_self, Expr.allSame_self rest]

end

mutual

theorem Expr.eq_of_same {a b : Expr} (h : a.same b = true) : a = b := by
  unfold same at h
  -- One goal for each kind of expression, and the last for two of different kinds.
  split at h <;> try simp only [Bool.and_eq_true, decide_eq_true_eq] at h
  · rw [h]
  · rw [h.1.1, Expr.eq_of_same h.1.2, h.2]
  · rw [Expr.eq_of_same h.1.1.1, h.1.1.2, Expr.eq_of_same h.1.2, h.2]
  · rw [Expr.eq_of_same h.1.1, h.1.2, Expr.eq_of_same h.2]
  · rw [Expr.eq_of_same h]
  · rw [h]
  · rw [h.1, Expr.eq_of_same h.2]
  · rw [Expr.eq_of_same h.1.1, Expr.eq_of_allSame h.1.2, h.2]
  · rw [Expr.eq_of_same h.1, h.2]
  · rw [Expr.eq_of_same h.1.1, h.1.2, Expr.eq_of_same h.2]
  · rw [h.1, h.2]
  · rw [h.1.1, h.1.2, h.2]
  · cases h

theorem Expr.eq_of_allSame {as bs : List Expr} (h : Expr.allSame as bs = true) : as = bs := by
  unfold allSame at h
  split at h
  · rfl
  · rw [Bool.and_eq_true] at h
    rw [Expr.eq_of_same h.1, Expr.eq_of_allSame h.2]
  · cases h

end

instance : DecidableEq Expr := fun a b =>
  decidable_of_iff (a.same b = true) ⟨Expr.eq_of_same, fun h => h ▸ a.same_self⟩

/-! ### Statements -/

mutual

/-- Compares two statements. -/
def Stmt.same : Stmt → Stmt → Bool
  | .expression a, .expression b => a = b
  | .print a, .print b => a = b
  | .var x a, .var y b => x = y && a = b
  | .block as, .block bs => Stmt.allSame as bs
  | .conditional a s c, .conditional b t d => a = b && s.same t && Stmt.optionSame c d
  | .whileLoop a s, .whileLoop b t => a = b && s.same t
  | .function f, .function g => FunctionDef.same f g
  | .ret k a, .ret l b => k = l && a = b
  | .classDef x a fs, .classDef y b gs => x = y && a = b && FunctionDef.allSame fs gs
  | _, _ => false
termination_by structural s => s

/-- Compares two statements that may be absent. -/
def Stmt.optionSame : Option Stmt → Option Stmt → Bool
  | none, none => true
  | some s, some t => s.same t
  | _, _ => false
termination_by structural s => s

/-- Compares two lists of statements. -/
def Stmt.allSame : List Stmt → List Stmt → Bool
  | [], [] => true
  | s :: as, t :: bs => s.same t && Stmt.allSame as bs
  | _, _ => false
termination_by structural s => s

/-- Compares two functions. -/
def FunctionDef.same : FunctionDef → FunctionDef → Bool
  | ⟨x, xs, as⟩, ⟨y, ys, bs⟩ => x = y && xs = ys && Stmt.allSame as bs
termination_by structural f => f

/-- Compares two lists of functions. -/
def FunctionDef.allSame : List FunctionDef → List FunctionDef → Bool
  | [], [] => true
  | f :: fs, g :: gs => FunctionDef.same f g && FunctionDef.allSame fs gs
  | _, _ => false
termination_by structural s => s

end

mutual

theorem Stmt.same_self (s : Stmt) : s.same s = true := by
  match s with
  | .expression a | .print a | .var x a | .ret k a => simp [Stmt.same]
  | .block body => simp [Stmt.same, Stmt.allSame_self body]
  | .conditional a s c => simp [Stmt.same, s.same_self, Stmt.optionSame_self c]
  | .whileLoop a s => simp [Stmt.same, s.same_self]
  | .function f => simp [Stmt.same, FunctionDef.same_self f]
  | .classDef x a fs => simp [Stmt.same, FunctionDef.allSame_self fs]

theorem Stmt.optionSame_self (c : Option Stmt) : Stmt.optionSame c c = true := by
  match c with
  | none => rfl
  | some s => exact s.same_self

theorem Stmt.allSame_self (body : List Stmt) : Stmt.allSame body body = true := by
  match body with
  | [] => rfl
  | s :: rest => simp [Stmt.allSame, s.same_self, Stmt.allSame_self rest]

theorem FunctionDef.same_self (f : FunctionDef) : FunctionDef.same f f = true := by
  match f with
  | ⟨x, xs, body⟩ => simp [FunctionDef.same, Stmt.allSame_self body]

theorem FunctionDef.allSame_self (fs : List FunctionDef) : FunctionDef.allSame fs fs = true := by
  match fs with
  | [] => rfl
  | f :: rest => simp [FunctionDef.allSame, FunctionDef.same_self f, FunctionDef.allSame_self rest]

end

mutual

theorem Stmt.eq_of_same {s t : Stmt} (h : s.same t = true) : s = t := by
  unfold Stmt.same at h
  -- One goal for each kind of statement, and the last for two of different kinds.
  split at h <;> try simp only [Bool.and_eq_true, decide_eq_true_eq] at h
  · rw [h]
  · rw [h]
  · rw [h.1, h.2]
  · rw [Stmt.eq_of_allSame h]
  · rw [h.1.1, Stmt.eq_of_same h.1.2, Stmt.eq_of_optionSame h.2]
  · rw [h.1, Stmt.eq_of_same h.2]
  · rw [FunctionDef.eq_of_same h]
  · rw [h.1, h.2]
  · rw [h.1.1, h.1.2, FunctionDef.eq_of_allSame h.2]
  · cases h
termination_by sizeOf s

theorem Stmt.eq_of_optionSame {c d : Option Stmt} (h : Stmt.optionSame c d = true) : c = d := by
  unfold Stmt.optionSame at h
  split at h
  · rfl
  · rw [Stmt.eq_of_same h]
  · cases h
termination_by sizeOf c

theorem Stmt.eq_of_allSame {as bs : List Stmt} (h : Stmt.allSame as bs = true) : as = bs := by
  unfold Stmt.allSame at h
  split at h
  · rfl
  · rw [Bool.and_eq_true] at h
    rw [Stmt.eq_of_same h.1, Stmt.eq_of_allSame h.2]
  · cases h
termination_by sizeOf as

theorem FunctionDef.eq_of_same {f g : FunctionDef} (h : FunctionDef.same f g = true) : f = g := by
  match f, g with
  | ⟨x, xs, as⟩, ⟨y, ys, bs⟩ =>
    simp only [FunctionDef.same, Bool.and_eq_true, decide_eq_true_eq] at h
    rw [h.1.1, h.1.2, Stmt.eq_of_allSame h.2]
termination_by sizeOf f

theorem FunctionDef.eq_of_allSame {fs gs : List FunctionDef}
    (h : FunctionDef.allSame fs gs = true) : fs = gs := by
  unfold FunctionDef.allSame at h
  split at h
  · rfl
  · rw [Bool.and_eq_true] at h
    rw [FunctionDef.eq_of_same h.1, FunctionDef.eq_of_allSame h.2]
  · cases h
termination_by sizeOf fs

end

instance : DecidableEq Stmt := fun s t =>
  decidable_of_iff (s.same t = true) ⟨Stmt.eq_of_same, fun h => h ▸ s.same_self⟩

end Lox
