import Mathlib.Data.List.Nodup
import MiniJava.Tac.Class

/-!
# Sequential layouts

In a sequential layout the slots are handed out in order, so the entry in place
`n` has slot `n` (`InOrder`).  Giving a slot to one more name keeps this: the
next free slot is the number of entries.  It follows that no two names share a
slot.

Names are entered at the end and never leave their places.  So the names of a
layout are those that were pushed, each once, and the parameters come first if
their names differ.
-/

namespace MiniJava

namespace Table

variable {α : Type}

theorem mem_of_find?_eq_some {table : Table α} {name : String} {value : α}
    (found : table.find? name = some value) : (name, value) ∈ table.entries := by
  obtain ⟨entry, here, rfl⟩ := Option.map_eq_some_iff.mp found
  have same : entry.1 = name := by simpa using List.find?_some here
  rw [← same]
  exact List.mem_of_find?_eq_some here

/-- A new name is entered at the end. -/
theorem entries_insert_of_find?_eq_none {table : Table α} {name : String}
    (new : table.find? name = none) (value : α) :
    (table.insert name value).entries = table.entries ++ [(name, value)] := by
  obtain ⟨entries⟩ := table
  have absent : ∀ entry ∈ entries, entry.1 ≠ name := by
    simpa [find?, List.find?_eq_none] using new
  clear new
  induction entries with
  | nil => rfl
  | cons entry rest induction =>
      rw [List.forall_mem_cons] at absent
      have tail : insertEntry name value rest = rest ++ [(name, value)] := induction absent.2
      simp [insert, insertEntry, absent.1, tail]

theorem values_insert_of_find?_eq_none {table : Table α} {name : String}
    (new : table.find? name = none) (value : α) :
    (table.insert name value).values = table.values ++ [value] := by
  rw [values, entries_insert_of_find?_eq_none new, List.map_append]
  rfl

theorem size_insert_of_find?_eq_none {table : Table α} {name : String}
    (new : table.find? name = none) (value : α) :
    (table.insert name value).size = table.size + 1 := by
  rw [size, entries_insert_of_find?_eq_none new, List.length_append]
  rfl

theorem find?_eq_none_iff {table : Table α} {name : String} :
    table.find? name = none ↔ name ∉ table.names := by
  simp only [find?, names, Option.map_eq_none_iff, List.find?_eq_none, decide_eq_true_eq,
    List.mem_map, not_exists, not_and]

theorem names_insert_of_find?_eq_none {table : Table α} {name : String}
    (new : table.find? name = none) (value : α) :
    (table.insert name value).names = table.names ++ [name] := by
  rw [names, entries_insert_of_find?_eq_none new, List.map_append]
  rfl

end Table

namespace Tac.Registers

/-- Slots are numbered in the order of the entries. -/
def InOrder (registers : Registers) : Prop :=
  registers.slots.values = List.range registers.slots.size

theorem InOrder.nextFree_eq {registers : Registers} (inOrder : registers.InOrder) :
    registers.nextFree = registers.slots.size := by
  rw [nextFree, max?, inOrder]
  cases registers.slots.size with
  | zero => rfl
  | succ size =>
      have last : (List.range (size + 1)).max? = some size := by
        rw [List.max?_eq_some_iff]
        exact ⟨List.mem_range.mpr (Nat.lt_succ_self size),
          fun slot mem => Nat.le_of_lt_succ (List.mem_range.mp mem)⟩
      rw [last]

theorem InOrder.push {registers : Registers} (inOrder : registers.InOrder) (name : String) :
    (registers.push name).InOrder := by
  rw [Registers.push]
  cases found : registers.find? name with
  | some slot => exact inOrder
  | none =>
      show (registers.insert name registers.nextFree).InOrder
      rw [inOrder.nextFree_eq]
      rw [InOrder, insert, Table.values_insert_of_find?_eq_none found,
        Table.size_insert_of_find?_eq_none found, List.range_succ, inOrder]

theorem InOrder.foldl_push (names : List String) :
    ∀ {registers : Registers}, registers.InOrder →
      (names.foldl Registers.push registers).InOrder := by
  induction names with
  | nil => exact id
  | cons name rest induction =>
      intro registers inOrder
      exact induction (inOrder.push name)

/-- Every method has a layout with slots in order. -/
theorem sequential_inOrder (isStatic : Bool) (params : List Operand) (body : List Instr) :
    (sequential isStatic params body).InOrder := by
  apply InOrder.foldl_push
  cases isStatic <;> rfl

/-- Two names never share a slot. -/
theorem InOrder.injective {registers : Registers} (inOrder : registers.InOrder)
    {name other : String} {slot : Nat} (found : registers.find? name = some slot)
    (found' : registers.find? other = some slot) : name = other := by
  have distinct : (registers.slots.entries.map Prod.snd).Nodup := by
    show registers.slots.values.Nodup
    rw [inOrder]
    exact List.nodup_range
  have same : (name, slot) = (other, slot) :=
    List.inj_on_of_nodup_map distinct (Table.mem_of_find?_eq_some found)
      (Table.mem_of_find?_eq_some found') rfl
  exact congrArg Prod.fst same

/-! ## Names in order -/

/-- A name is entered at the end unless it has a slot. -/
theorem names_push (registers : Registers) (name : String) :
    (registers.push name).slots.names =
      if name ∈ registers.slots.names then registers.slots.names
      else registers.slots.names ++ [name] := by
  rw [push]
  cases found : registers.find? name with
  | some slot =>
      have present : name ∈ registers.slots.names := by
        by_contra absent
        rw [find?, Table.find?_eq_none_iff.mpr absent] at found
        cases found
      rw [if_pos present]
  | none =>
      rw [if_neg (Table.find?_eq_none_iff.mp found)]
      exact Table.names_insert_of_find?_eq_none found _

theorem mem_names_push {registers : Registers} {name other : String} :
    other ∈ (registers.push name).slots.names ↔ other ∈ registers.slots.names ∨ other = name := by
  rw [names_push]
  split
  · rename_i present
    constructor
    · exact .inl
    · rintro (mem | rfl)
      · exact mem
      · exact present
  · rw [List.mem_append, List.mem_singleton]

theorem mem_names_foldl_push {other : String} :
    ∀ {names : List String} {registers : Registers},
      other ∈ (names.foldl push registers).slots.names ↔
        other ∈ registers.slots.names ∨ other ∈ names
  | [], _ => by simp
  | name :: rest, registers => by
      rw [List.foldl_cons, mem_names_foldl_push, mem_names_push, List.mem_cons, or_assoc]

theorem nodup_names_push {registers : Registers} (nodup : registers.slots.names.Nodup)
    (name : String) : (registers.push name).slots.names.Nodup := by
  rw [names_push]
  split
  · exact nodup
  · rw [← List.concat_eq_append]
    exact nodup.concat ‹_›

theorem nodup_names_foldl_push :
    ∀ (names : List String) {registers : Registers}, registers.slots.names.Nodup →
      (names.foldl push registers).slots.names.Nodup
  | [], _, nodup => nodup
  | name :: rest, _, nodup => nodup_names_foldl_push rest (nodup_names_push nodup name)

/-- Names keep their places. -/
theorem names_prefix_foldl_push :
    ∀ (names : List String) (registers : Registers),
      registers.slots.names <+: (names.foldl push registers).slots.names
  | [], _ => List.prefix_rfl
  | name :: rest, registers => by
      refine List.IsPrefix.trans ?_ (names_prefix_foldl_push rest (registers.push name))
      rw [names_push]
      split
      · exact List.prefix_rfl
      · exact List.prefix_append ..

/-- Names that are new are entered one after another. -/
theorem names_foldl_push_of_nodup :
    ∀ {names : List String} {registers : Registers}, (registers.slots.names ++ names).Nodup →
      (names.foldl push registers).slots.names = registers.slots.names ++ names
  | [], _, _ => (List.append_nil _).symm
  | name :: rest, registers, nodup => by
      have absent : name ∉ registers.slots.names := fun mem =>
        (List.disjoint_of_nodup_append nodup) mem List.mem_cons_self
      have pushed : (registers.push name).slots.names = registers.slots.names ++ [name] := by
        rw [names_push, if_neg absent]
      rw [List.append_cons] at nodup
      rw [List.foldl_cons, names_foldl_push_of_nodup (pushed ▸ nodup), pushed, List.append_assoc]
      rfl

theorem InOrder.entries_eq {registers : Registers} (inOrder : registers.InOrder) :
    registers.slots.entries = registers.slots.names.zipIdx := by
  have length : registers.slots.size = registers.slots.names.length := by
    simp [Table.size, Table.names]
  rw [List.zipIdx_eq_zip_range', ← List.range_eq_range', ← length, ← inOrder]
  exact List.zip_of_prod rfl rfl

/-- The slot of a name is its place. -/
theorem InOrder.find?_eq_some_iff {registers : Registers} (inOrder : registers.InOrder)
    (nodup : registers.slots.names.Nodup) {name : String} {slot : Nat} :
    registers.find? name = some slot ↔ registers.slots.names[slot]? = some name := by
  have place : ∀ {slot}, registers.find? name = some slot →
      registers.slots.names[slot]? = some name := by
    intro slot found
    have mem := Table.mem_of_find?_eq_some found
    rw [inOrder.entries_eq] at mem
    exact List.mem_zipIdx_iff_getElem?.mp mem
  refine ⟨place, fun here => ?_⟩
  cases found : registers.find? name with
  | none => exact absurd (List.mem_of_getElem? here) (Table.find?_eq_none_iff.mp found)
  | some slot' =>
      have inside := (List.getElem?_eq_some_iff.mp here).1
      rw [(List.getElem?_inj inside nodup).mp (here.trans (place found).symm)]

/-! ## The names of a sequential layout -/

section
variable (isStatic : Bool) (params : List Operand) (body : List Instr)

/-- The name that comes before the parameters. -/
def receiverNames (isStatic : Bool) : List String := if isStatic then [] else [thisName]

theorem sequential_eq :
    sequential isStatic params body =
      (mentioned body).foldl push ((params.map Operand.name).foldl push
        ((receiverNames isStatic).foldl push empty)) := by
  rw [sequential, List.foldl_append]
  cases isStatic <;> rfl

theorem nodup_names_sequential : (sequential isStatic params body).slots.names.Nodup := by
  rw [sequential_eq]
  exact nodup_names_foldl_push _ (nodup_names_foldl_push _ (nodup_names_foldl_push _ .nil))

theorem mem_names_sequential {name : String} :
    name ∈ (sequential isStatic params body).slots.names ↔
      name ∈ receiverNames isStatic ∨ name ∈ params.map Operand.name ∨ name ∈ mentioned body := by
  have none : name ∉ (empty : Registers).slots.names := List.not_mem_nil
  rw [sequential_eq, mem_names_foldl_push, mem_names_foldl_push, mem_names_foldl_push, or_assoc,
    or_iff_right none]

/-- Parameters of different names come first, behind the receiver. -/
theorem names_prefix_sequential
    (distinct : (receiverNames isStatic ++ params.map Operand.name).Nodup) :
    receiverNames isStatic ++ params.map Operand.name <+:
      (sequential isStatic params body).slots.names := by
  have first : ((receiverNames isStatic).foldl push empty).slots.names = receiverNames isStatic :=
    names_foldl_push_of_nodup (List.Nodup.of_append_left distinct)
  have second : ((params.map Operand.name).foldl push
      ((receiverNames isStatic).foldl push empty)).slots.names =
      receiverNames isStatic ++ params.map Operand.name := by
    rw [names_foldl_push_of_nodup (first.symm ▸ distinct), first]
  rw [sequential_eq, ← second]
  exact names_prefix_foldl_push _ _

end

/-- Every variable that a body mentions has a slot. -/
theorem isSome_find?_sequential (isStatic : Bool) (params : List Operand) {body : List Instr}
    {name : String} (mem : name ∈ mentioned body) :
    ((sequential isStatic params body).find? name).isSome = true := by
  rw [Option.isSome_iff_ne_none]
  intro absent
  exact Table.find?_eq_none_iff.mp absent ((mem_names_sequential ..).mpr (.inr (.inr mem)))

/-! ## The number of slots to reserve -/

theorem lt_nextFree_of_find? {registers : Registers} {name : String} {slot : Nat}
    (found : registers.find? name = some slot) : slot < registers.nextFree := by
  have mem : slot ∈ registers.slots.values :=
    List.mem_map_of_mem (Table.mem_of_find?_eq_some found)
  rw [nextFree, max?]
  cases greatest : registers.slots.values.max? with
  | none =>
      rw [List.max?_eq_none_iff.mp greatest] at mem
      cases mem
  | some last => exact Nat.lt_succ_of_le ((List.max?_eq_some_iff.mp greatest).2 slot mem)

theorem lt_limit_of_find? {registers : Registers} {name : String} {slot : Nat}
    (found : registers.find? name = some slot) : slot < registers.limit :=
  Nat.lt_of_lt_of_le (lt_nextFree_of_find? found) (Nat.le_max_right _ _)

theorem InOrder.size_le_limit {registers : Registers} (inOrder : registers.InOrder) :
    registers.slots.names.length ≤ registers.limit := by
  have length : registers.slots.names.length = registers.slots.size := by
    simp [Table.size, Table.names]
  rw [length, ← inOrder.nextFree_eq]
  exact Nat.le_max_right _ _

end Tac.Registers

end MiniJava
