import Mathlib.Data.List.TakeWhile
import MiniJava.Source.Symbols

/-!
# Two readings of the imports

A symbol table finds the import that a simple name denotes (`resolve?`), and the
assembler finds the internal name to print for it (`qualify`).  Both take the
first path that matches, but an import of the bare name is a match for the first
reading only.

That makes no difference as long as such an import is the only match or comes
behind a longer path: the text is then the same.  If the bare name comes first
and a longer path follows, the table resolves the name to itself, while the
assembler goes on and prints the longer path.  So the readings agree if and only
if the bare name is not `Overtaken` (`qualify_eq_iff`).
-/

namespace MiniJava.Import

open Source (SymbolTable)

variable {imports : List String} {path name : String}

/-! ## Paths that match -/

theorem exists_of_qualifies (h : qualifies path name = true) :
    ∃ package, path.toList = package ++ '.' :: name.toList := by
  obtain ⟨package, same⟩ := List.isSuffixOf_iff_suffix.mp h
  exact ⟨package, same.symm⟩

theorem length_lt_of_qualifies (h : qualifies path name = true) :
    name.toList.length < path.toList.length := by
  obtain ⟨package, same⟩ := exists_of_qualifies h
  rw [same, List.length_append, List.length_cons]
  omega

theorem not_qualifies_self (name : String) : qualifies name name = false := by
  rw [Bool.eq_false_iff]
  intro h
  exact absurd (length_lt_of_qualifies h) (Nat.lt_irrefl _)

/-- The last segment of a path is a given name without dots exactly if the path
is that name or qualifies it. -/
theorem simpleName_eq_iff (noDot : '.' ∉ name.toList) :
    simpleName path = name ↔ path = name ∨ qualifies path name = true := by
  have segment : ∀ c ∈ name.toList.reverse, decide (c ≠ '.') = true := by
    intro c mem
    have other : c ≠ '.' := fun same => noDot (same ▸ List.mem_reverse.mp mem)
    exact decide_eq_true other
  rw [simpleName, ← String.toList_inj, String.toList_ofList, List.reverse_eq_iff]
  constructor
  · intro last
    have split := List.takeWhile_append_dropWhile (p := (· ≠ '.')) (l := path.toList.reverse)
    rw [last] at split
    cases rest : path.toList.reverse.dropWhile (· ≠ '.') with
    | nil =>
        rw [rest, List.append_nil, List.reverse_inj] at split
        exact .inl (String.toList_inj.mp split.symm)
    | cons c package =>
        have dot : c = '.' := by
          have first := List.head?_dropWhile_not (· ≠ '.') path.toList.reverse
          rw [rest] at first
          simpa using first
        rw [rest, dot] at split
        have turned : package.reverse ++ '.' :: name.toList = path.toList := by
          simpa using congrArg List.reverse split
        exact .inr (List.isSuffixOf_iff_suffix.mpr ⟨package.reverse, turned⟩)
  · rintro (rfl | long)
    · exact List.takeWhile_eq_self_iff.mpr segment
    · obtain ⟨package, same⟩ := exists_of_qualifies long
      rw [same, List.reverse_append, List.reverse_cons, List.append_assoc,
        List.takeWhile_append_of_pos segment]
      simp

theorem toList_internalName (path : String) :
    (internalName path).toList = path.toList.map fun c => if c = '.' then '/' else c :=
  String.toList_map

theorem internalName_of_noDot (noDot : '.' ∉ name.toList) : internalName name = name := by
  rw [← String.toList_inj, toList_internalName]
  have kept : ∀ c ∈ name.toList, (if c = '.' then '/' else c) = id c := by
    intro c mem
    have other : c ≠ '.' := fun same => noDot (same ▸ mem)
    exact if_neg other
  rw [List.map_congr_left kept, List.map_id]

theorem internalName_ne_of_qualifies (h : qualifies path name = true) :
    internalName path ≠ name := by
  intro same
  have lengths := congrArg (fun text => text.toList.length) same
  simp only [toList_internalName, List.length_map] at lengths
  exact absurd (length_lt_of_qualifies h) (Nat.not_lt.mpr (Nat.le_of_eq lengths))

/-! ## The first match -/

theorem qualify_cons_of_qualifies (h : qualifies path name = true) :
    qualify (path :: imports) name = internalName path := by
  simp [qualify, h]

theorem qualify_cons_of_not_qualifies (h : qualifies path name = false) :
    qualify (path :: imports) name = qualify imports name := by
  simp [qualify, h]

theorem resolve?_cons_of_eq (h : simpleName path = name) :
    resolve? (path :: imports) name = some path := by
  simp [resolve?, h]

theorem resolve?_cons_of_ne (h : simpleName path ≠ name) :
    resolve? (path :: imports) name = resolve? imports name := by
  simp [resolve?, h]

/-- A name is printed as it is exactly if no import qualifies it. -/
theorem qualify_eq_self_iff :
    qualify imports name = name ↔ ∀ path ∈ imports, qualifies path name = false := by
  induction imports with
  | nil => simp [qualify]
  | cons path imports induction =>
      cases h : qualifies path name with
      | true =>
          rw [qualify_cons_of_qualifies h]
          simp [internalName_ne_of_qualifies h, h]
      | false =>
          rw [qualify_cons_of_not_qualifies h, induction]
          simp [h]

/-- An import of the bare name stands before the first path that qualifies it. -/
def Overtaken (imports : List String) (name : String) : Prop :=
  ∃ before after, imports = before ++ name :: after ∧
    (∀ path ∈ before, qualifies path name = false) ∧ ∃ path ∈ after, qualifies path name = true

theorem Overtaken.exists_qualifies (h : Overtaken imports name) :
    ∃ path ∈ imports, qualifies path name = true := by
  obtain ⟨before, after, rfl, _, path, mem, long⟩ := h
  exact ⟨path, List.mem_append_right _ (List.mem_cons_of_mem _ mem), long⟩

theorem overtaken_cons :
    Overtaken (path :: imports) name ↔ qualifies path name = false ∧
      (path = name ∧ (∃ other ∈ imports, qualifies other name = true) ∨
        Overtaken imports name) := by
  constructor
  · rintro ⟨before, after, split, short, long⟩
    cases before with
    | nil =>
        cases split
        exact ⟨not_qualifies_self _, .inl ⟨rfl, long⟩⟩
    | cons first before =>
        cases split
        refine ⟨short path List.mem_cons_self, .inr ⟨before, after, rfl, ?_, long⟩⟩
        exact fun other mem => short other (List.mem_cons_of_mem path mem)
  · rintro ⟨short, ⟨rfl, long⟩ | ⟨before, after, rfl, shorter, long⟩⟩
    · exact ⟨[], imports, rfl, by simp, long⟩
    · exact ⟨path :: before, after, rfl, by simpa [short] using shorter, long⟩

/-- The internal name that is printed for a simple name is that of the import
which the symbol table finds, or the name itself where it finds none, if and only
if no import of the bare name is overtaken by a longer path. -/
theorem qualify_eq_iff (symbols : SymbolTable) {name : String} (noDot : '.' ∉ name.toList) :
    qualify symbols.imports name = ((symbols.import? name).map internalName).getD name ↔
      ¬ Overtaken symbols.imports name := by
  rw [SymbolTable.import?]
  induction symbols.imports with
  | nil => simp [qualify, resolve?, Overtaken]
  | cons path imports induction =>
      rw [overtaken_cons]
      cases long : qualifies path name with
      | true =>
          have found : simpleName path = name := (simpleName_eq_iff noDot).mpr (.inr long)
          simp [qualify_cons_of_qualifies long, resolve?_cons_of_eq found]
      | false =>
          rw [qualify_cons_of_not_qualifies long]
          by_cases bare : path = name
          · -- The table stops here, while the assembler looks for a longer path.
            have found : simpleName path = name := (simpleName_eq_iff noDot).mpr (.inl bare)
            rw [resolve?_cons_of_eq found, bare, Option.map_some, Option.getD_some,
              internalName_of_noDot noDot, qualify_eq_self_iff]
            have longer : (∃ other ∈ imports, qualifies other name = true) ∨
                Overtaken imports name ↔ ∃ other ∈ imports, qualifies other name = true :=
              or_iff_left_of_imp Overtaken.exists_qualifies
            simp [longer]
          · have other : simpleName path ≠ name := by
              rw [ne_eq, simpleName_eq_iff noDot]
              simp [bare, long]
            rw [resolve?_cons_of_ne other, induction]
            simp [bare]

/-- A longer path that comes first is what both readings find. -/
theorem qualify_eq_iff_list :
    let symbols : SymbolTable := ⟨"Foo", none, ["java.util.List", "List"], .empty, .empty⟩
    '.' ∉ "List".toList ∧ ¬ Overtaken symbols.imports "List" ∧
    symbols.import? "List" = some "java.util.List" ∧
    qualify symbols.imports "List" =
      ((symbols.import? "List").map internalName).getD "List" := by
  intro symbols
  have noDot : '.' ∉ "List".toList := by decide
  have long : qualifies "java.util.List" "List" = true := by decide
  have clear : ¬ Overtaken symbols.imports "List" := by
    simp [symbols, overtaken_cons, long]
  exact ⟨noDot, clear, by decide, (qualify_eq_iff symbols noDot).mpr clear⟩

/-- With `io` before `tools.io` the table finds the first and the assembler prints
the second. -/
theorem not_qualify_eq_io :
    let symbols : SymbolTable := ⟨"Foo", none, ["io", "tools.io"], .empty, .empty⟩
    '.' ∉ "io".toList ∧ symbols.import? "io" = some "io" ∧
    qualify symbols.imports "io" = "tools/io" ∧
    qualify symbols.imports "io" ≠ ((symbols.import? "io").map internalName).getD "io" := by
  intro symbols
  have noDot : '.' ∉ "io".toList := by decide
  have found : symbols.import? "io" = some "io" := by decide
  have long : qualifies "tools.io" "io" = true := by decide
  have printed : qualify symbols.imports "io" = "tools/io" := by
    rw [qualify_cons_of_not_qualifies (not_qualifies_self "io"), qualify_cons_of_qualifies long,
      ← String.toList_inj, toList_internalName]
    decide
  refine ⟨noDot, found, printed, ?_⟩
  rw [printed, found, Option.map_some, Option.getD_some, internalName_of_noDot noDot]
  decide

end MiniJava.Import
