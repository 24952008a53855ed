import Mathlib.Data.List.Nodup
import MiniJava.Source.Symbols

/-!
# Collected symbols

The table that is collected from a program has an entry for the name of every
declared method, and each entry is that of a declaration.  Of several
declarations of one name the last one counts.
-/

namespace MiniJava

open Source (SymbolTable MethodDecl MethodEntry Program)

/-- Of several values under one name the last one counts. -/
theorem Table.find?_ofList {α : Type} (nameOf : α → String) (values : List α) (name : String) :
    (Table.ofList nameOf values).find? name =
      values.reverse.find? fun value => nameOf value = name := by
  rw [ofList, ← List.foldr_reverse]
  induction values.reverse with
  | nil => rfl
  | cons value rest induction =>
      rw [List.foldr_cons, find?_insert, List.find?_cons, induction]
      by_cases same : nameOf value = name <;> simp [same]

theorem exists_of_method?_collect {program : Program} {name : String} {entry : MethodEntry}
    (found : (SymbolTable.collect program).method? name = some entry) :
    ∃ decl ∈ program.decl.methods, decl.name = name ∧ entry = .ofDecl decl := by
  rw [SymbolTable.method?, SymbolTable.collect, Table.find?_ofList] at found
  have same : entry.name = name := by simpa using List.find?_some found
  have mem := List.mem_of_find?_eq_some found
  rw [List.mem_reverse, List.mem_map] at mem
  obtain ⟨decl, declared, rfl⟩ := mem
  exact ⟨decl, declared, same, rfl⟩

/-- The name of a declared method is known. -/
theorem method?_collect_ne_none {program : Program} {decl : MethodDecl}
    (declared : decl ∈ program.decl.methods) :
    (SymbolTable.collect program).method? decl.name ≠ none := by
  intro found
  rw [SymbolTable.method?, SymbolTable.collect, Table.find?_ofList, List.find?_eq_none] at found
  refine absurd rfl (of_decide_eq_false (Bool.eq_false_iff.mpr (found (.ofDecl decl) ?_)))
  exact List.mem_reverse.mpr (List.mem_map_of_mem declared)

/-- A method whose name is declared once is found under it. -/
theorem method?_collect {program : Program} {decl : MethodDecl}
    (distinct : (program.decl.methods.map MethodDecl.name).Nodup)
    (declared : decl ∈ program.decl.methods) :
    (SymbolTable.collect program).method? decl.name = some (.ofDecl decl) := by
  obtain ⟨entry, found⟩ := Option.ne_none_iff_exists'.mp (method?_collect_ne_none declared)
  obtain ⟨other, declared', same, rfl⟩ := exists_of_method?_collect found
  rw [found, List.inj_on_of_nodup_map distinct declared' declared same]

end MiniJava
