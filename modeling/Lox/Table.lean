/-!
# Tables

Finite maps from names, each name once, in the order in which the names were first put in.
`get?_insert` says all there is to know of a table but the order.
-/

namespace Lox

structure Table (α : Type) where
  entries : List (String × α)

namespace Table

variable {α : Type}

def empty : Table α := ⟨[]⟩

instance : EmptyCollection (Table α) := ⟨empty⟩

def get? (t : Table α) (name : String) : Option α := t.entries.lookup name

def contains (t : Table α) (name : String) : Bool := (t.get? name).isSome

def names (t : Table α) : List String := t.entries.map Prod.fst

/-- The entries with `name` put in, or changed where it stands. -/
def insertEntry (name : String) (value : α) : List (String × α) → List (String × α)
  | [] => [(name, value)]
  | (key, old) :: rest =>
    if name = key then (name, value) :: rest else (key, old) :: insertEntry name value rest

def insert (t : Table α) (name : String) (value : α) : Table α :=
  ⟨insertEntry name value t.entries⟩

/-- A table of these entries; the last entry of a name counts. -/
def ofList (entries : List (String × α)) : Table α :=
  entries.foldl (fun t entry => t.insert entry.1 entry.2) empty

/-- The names in the order of their code points. -/
def sortedNames (t : Table α) : List String := t.names.mergeSort fun a b => a ≤ b

theorem get?_empty (name : String) : (∅ : Table α).get? name = none := rfl

theorem lookup_cons_of_ne {key k : String} (old : α) (rest : List (String × α)) (h : key ≠ k) :
    ((k, old) :: rest).lookup key = rest.lookup key := by
  simp [List.lookup_cons, beq_eq_false_iff_ne.2 h]

theorem lookup_insertEntry (entries : List (String × α)) (name key : String) (value : α) :
    (insertEntry name value entries).lookup key =
      if key = name then some value else entries.lookup key := by
  induction entries with
  | nil =>
    by_cases h : key = name
    · simp [insertEntry, h]
    · simp [insertEntry, lookup_cons_of_ne _ _ h, h]
  | cons entry rest ih =>
    obtain ⟨k, old⟩ := entry
    by_cases hk : name = k
    · subst hk
      by_cases h : key = name
      · simp [insertEntry, h]
      · simp [insertEntry, lookup_cons_of_ne _ _ h, h]
    · by_cases h : key = k
      · subst h
        simp [insertEntry, hk, Ne.symm hk]
      · simp only [insertEntry, hk, if_false, lookup_cons_of_ne _ _ h, ih]

theorem get?_insert (t : Table α) (name key : String) (value : α) :
    (t.insert name value).get? key = if key = name then some value else t.get? key :=
  lookup_insertEntry t.entries name key value

@[simp] theorem get?_insert_self (t : Table α) (name : String) (value : α) :
    (t.insert name value).get? name = some value := by simp [get?_insert]

theorem get?_insert_of_ne (t : Table α) {name key : String} (value : α) (h : key ≠ name) :
    (t.insert name value).get? key = t.get? key := by simp [get?_insert, h]

theorem contains_insert (t : Table α) (name key : String) (value : α) :
    (t.insert name value).contains key = (key = name || t.contains key) := by
  by_cases h : key = name <;> simp [contains, get?_insert, h]

theorem contains_foldl_insert (entries : List (String × α)) (t : Table α) (key : String) :
    (entries.foldl (fun t entry => t.insert entry.1 entry.2) t).contains key = true ↔
      key ∈ entries.map Prod.fst ∨ t.contains key = true := by
  induction entries generalizing t with
  | nil => simp
  | cons entry rest ih =>
    simp only [List.foldl_cons, ih, contains_insert, List.map_cons, List.mem_cons, Bool.or_eq_true,
      decide_eq_true_eq]
    grind

theorem contains_empty (key : String) : (empty : Table α).contains key = false := rfl

theorem contains_ofList_iff (entries : List (String × α)) (key : String) :
    (ofList entries).contains key = true ↔ key ∈ entries.map Prod.fst := by
  rw [ofList, contains_foldl_insert, contains_empty]
  simp

theorem get?_ofList_singleton (name key : String) (value : α) :
    (ofList [(name, value)]).get? key = if key = name then some value else none :=
  get?_insert empty name key value

theorem mem_names_iff_contains (t : Table α) (name : String) :
    name ∈ t.names ↔ t.contains name = true := by
  obtain ⟨entries⟩ := t
  induction entries with
  | nil => simp [names, contains, get?]
  | cons entry rest ih =>
    obtain ⟨key, value⟩ := entry
    simp only [names, contains, get?, List.map_cons, List.mem_cons] at *
    by_cases h : name = key
    · simp [h]
    · simp only [h, false_or, lookup_cons_of_ne _ _ h, ih]

end Table

end Lox
