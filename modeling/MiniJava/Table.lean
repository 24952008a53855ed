/-!
# Insertion-ordered tables

A table maps names to values and remembers the order in which names first
arrived.  Inserting a name again replaces its value and keeps its place, so
the order of entries never depends on how often a name was written.
-/

namespace MiniJava

/-- Values under distinct names, in order of first insertion. -/
structure Table (α : Type) where
  entries : List (String × α)
deriving DecidableEq, Repr

namespace Table

variable {α : Type}

/-- The table without entries. -/
def empty : Table α := ⟨[]⟩

/-- Replace the value at `name` where it stands, or add it at the end. -/
def insertEntry (name : String) (value : α) :
    List (String × α) → List (String × α)
  | [] => [(name, value)]
  | entry :: rest =>
      if entry.1 = name then (name, value) :: rest
      else entry :: insertEntry name value rest

/-- Give `name` the value, keeping the place of a name already present. -/
def insert (table : Table α) (name : String) (value : α) : Table α :=
  ⟨insertEntry name value table.entries⟩

/-- Insert values from left to right, each under its own name. -/
def ofList (nameOf : α → String) (values : List α) : Table α :=
  values.foldl (fun table value => table.insert (nameOf value) value) empty

/-- The value stored under a name. -/
def find? (table : Table α) (name : String) : Option α :=
  (table.entries.find? fun entry => entry.1 = name).map Prod.snd

/-- The names of a table in order. -/
def names (table : Table α) : List String := table.entries.map Prod.fst

/-- The values of a table in order. -/
def values (table : Table α) : List α := table.entries.map Prod.snd

/-- The number of entries. -/
def size (table : Table α) : Nat := table.entries.length

/-- Whether the table has no entries. -/
def isEmpty (table : Table α) : Bool := table.entries.isEmpty

@[simp]
theorem find?_empty (name : String) : (empty : Table α).find? name = none := rfl

/-- Inserting is visible at its own name and nowhere else. -/
theorem find?_insert (table : Table α) (name other : String) (value : α) :
    (table.insert name value).find? other =
      if name = other then some value else table.find? other := by
  obtain ⟨entries⟩ := table
  simp only [insert, find?]
  induction entries with
  | nil => by_cases same : name = other <;> simp [insertEntry, same]
  | cons entry rest induction =>
      by_cases here : entry.1 = name
      · by_cases same : name = other <;> simp [insertEntry, here, same]
      · rw [insertEntry, if_neg here]
        by_cases found : entry.1 = other
        · have different : name ≠ other := fun same => here (found.trans same.symm)
          simp [found, different]
        · simpa [found] using induction

end Table

end MiniJava
