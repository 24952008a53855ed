import MiniJava.Proofs.Assembly.Mirror
import MiniJava.Proofs.Lowering.Parallel
import MiniJava.Proofs.Lowering.Survey

/-!
# Methods are compiled independently of each other

The methods of a class draw their names from one supply, so what is generated
for a method has other numbers if other methods come before it.  That is the
only difference: from two supplies a method is refused for the same reason or
lowered to bodies that differ by a shift of their numbers, and the assembly of
the two differs in the numbers of its labels (`independent_of_names`).

The proof compares both supplies with the fresh one, because a shift by natural
numbers keeps all names apart.
-/

namespace MiniJava

open Source (MethodDecl SymbolTable Scope)
open Tac Semantics Lowering

namespace Lowering

/-! ## Lowering a method -/

/-- The variables of a method in the source: its parameters, and those that its
body mentions. -/
def sourceVariables (symbols : SymbolTable) (decl : MethodDecl) : List String :=
  decl.params.map (fun param => param.name) ++
    match symbols.method? decl.name with
    | none => []
    | some entry => (subStmtsOfAll decl.body).flatMap fun stmt =>
        (exprsOf stmt).flatMap (variablesOf ⟨symbols, entry⟩)

theorem Parallel.capture {offset : Names} {attempt : Attempt Unit}
    (h : UniformIn offset attempt) :
    Uniform offset (Except.map (List.map (Instr.rename (.shift offset))))
      (Attempt.capture attempt).run := by
  have run : ∀ names, (Attempt.capture attempt).run names =
      ⟨(attempt.run names).value.map fun _ => (attempt.run names).code, [],
        (attempt.run names).notes, (attempt.run names).names⟩ := fun _ => rfl
  intro names
  rw [run, run, h names]
  cases (attempt.run names).value with
  | error error => rfl
  | ok value => rfl

theorem map_rename_closing (naming : Renaming) (scope : Scope) (body : List Source.Stmt) :
    (closing scope body).map (Instr.rename naming) = closing scope body := by
  rw [closing]
  split <;> rfl

/-- A method is lowered to the same method from every supply, with shifted
names. -/
theorem uniform_lowerMethod {symbols : SymbolTable} {decl : MethodDecl}
    (plain : ∀ name ∈ sourceVariables symbols decl, ¬ Names.Reserved name) (offset : Names) :
    Parallel.Uniform offset (Except.map (Method.rename (.shift offset)))
      (lowerMethod symbols decl).run := by
  obtain ⟨params, used⟩ := List.forall_mem_append.mp plain
  cases found : symbols.method? decl.name with
  | none =>
      rw [lowerMethod, found]
      exact .pure rfl
  | some entry =>
      rw [found] at used
      have body : ∀ stmt ∈ subStmtsOfAll decl.body, ∀ expr ∈ exprsOf stmt,
          Unreserved ⟨symbols, entry⟩ expr := fun stmt inside expr mem name read =>
        used name (List.mem_flatMap.mpr ⟨stmt, inside, List.mem_flatMap.mpr ⟨expr, mem, read⟩⟩)
      rw [lowerMethod, found]
      refine .lift_bind (.note _) fun _ =>
        .attempt_bind (Parallel.capture (uniform_lowerStmts decl.body body)) fun code => .pure ?_
      have fixed : ∀ param ∈ decl.params.map fun param =>
          (⟨param.name, .ofSource param.ty⟩ : Operand),
          (Renaming.shift offset).name param.name = param.name := by
        intro param mem
        obtain ⟨param, inside, rfl⟩ := List.mem_map.mp mem
        exact Renaming.renumber_of_not_reserved _ _ (params _ (List.mem_map_of_mem inside))
      have registers := Registers.sequential_rename (Renaming.faithful_shift offset) decl.isStatic
        fixed (code ++ closing ⟨symbols, entry⟩ decl.body)
      rw [List.map_append, map_rename_closing] at registers
      simp only [Except.map, Method.assignRegisters, Method.sequential, Method.rename, registers,
        List.map_append, map_rename_closing]

/-- From any supply a method is lowered as from the fresh one, with shifted
names. -/
theorem value_lowerMethod {symbols : SymbolTable} {decl : MethodDecl}
    (plain : ∀ name ∈ sourceVariables symbols decl, ¬ Names.Reserved name) (names : Names) :
    ((lowerMethod symbols decl).run names).value =
      ((lowerMethod symbols decl).run .fresh).value.map (Method.rename (.shift names)) := by
  have outcome := uniform_lowerMethod plain names .fresh
  rw [Names.fresh_plus] at outcome
  rw [outcome]

theorem params_of_lowerMethod {symbols : SymbolTable} {decl : MethodDecl} {names : Names}
    {method : Method} (accepted : ((lowerMethod symbols decl).run names).value = .ok method) :
    ∀ param ∈ method.params, param.name ∈ sourceVariables symbols decl := by
  obtain ⟨entry, code, lowered⟩ := loweredMethod_of_gives ⟨accepted, rfl, rfl⟩
  rw [lowered.params]
  intro param mem
  obtain ⟨param, inside, rfl⟩ := List.mem_map.mp mem
  exact List.mem_append_left _ (List.mem_map_of_mem inside)

end Lowering

/-! ## Two supplies -/

/-- From two supplies a method is refused for the same reason or lowered to
methods that differ by a shift of their numbers, which can be undone.  Their
assembly is refused for the same reason or differs in the numbers of its labels
only. -/
theorem independent_of_names (symbols : SymbolTable) (decl : MethodDecl)
    (plain : ∀ name ∈ sourceVariables symbols decl, ¬ Names.Reserved name)
    (names names' : Names) :
    let lower := fun names => ((lowerMethod symbols decl).run names).value
    let naming := Renaming.between names names'
    (∃ error, lower names = .error error ∧ lower names' = .error error) ∨
    ∃ method, lower names = .ok method ∧ lower names' = .ok (method.rename naming) ∧
      (method.rename naming).rename (.between names' names) = method ∧
      ∀ options unit,
        (∃ error, (Jasmin.assembleMethod options unit method).value = .error error ∧
          (Jasmin.assembleMethod options unit (method.rename naming)).value =
            .error (error.rename naming)) ∨
        ∃ assembled, (Jasmin.assembleMethod options unit method).value = .ok assembled ∧
          (Jasmin.assembleMethod options unit (method.rename naming)).value =
            .ok (assembled.relabel naming.label) ∧
          ∀ indent, (assembled.relabel naming.label).text indent =
            assembled.textWith (fun label => (naming.label label).text) indent := by
  intro lower naming
  have value : lower names = _ := value_lowerMethod plain names
  have value' : lower names' = _ := value_lowerMethod plain names'
  cases base : ((lowerMethod symbols decl).run .fresh).value with
  | error error =>
      rw [base] at value value'
      exact .inl ⟨error, value, value'⟩
  | ok method =>
      rw [base] at value value'
      have moved : naming.comp (.shift names) = .shift names' :=
        Renaming.between_comp_shift names names'
      have renamed : (method.rename (.shift names)).rename naming =
          method.rename (.shift names') := by
        rw [Method.rename_rename, moved]
      have fixed : ∀ names : Names, ∀ param ∈ method.params,
          (Renaming.shift names).name param.name = param.name := fun names param mem =>
        Renaming.renumber_of_not_reserved _ _ (plain _ (params_of_lowerMethod base param mem))
      refine .inr ⟨method.rename (.shift names), value, ?_, ?_, fun options unit => ?_⟩
      · rw [renamed]
        exact value'
      · rw [renamed, Method.rename_rename, Renaming.between_comp_shift]
      · rw [renamed, Jasmin.assembleMethod_rename (Renaming.faithful_shift names) _ _ (fixed names),
          Jasmin.assembleMethod_rename (Renaming.faithful_shift names') _ _ (fixed names')]
        cases (Jasmin.assembleMethod options unit method).value with
        | error error =>
            refine .inl ⟨_, rfl, ?_⟩
            rw [CompileError.rename_rename, moved]
            rfl
        | ok assembled =>
            refine .inr ⟨_, rfl, ?_, fun indent => ?_⟩
            · rw [Jasmin.Method.relabel_relabel, ← Renaming.label_comp, moved]
              rfl
            · rw [← Jasmin.Method.textWith_text, Jasmin.Method.textWith_relabel]
              rfl

/-- The method `climb` behind others: its temporaries and its labels have other
numbers, and its assembly has labels with other numbers. -/
theorem independent_of_names_climb :
    let names : Names := { temp := 3, onTrue := 5, join := 2, loopBody := 1, loopEnd := 4 }
    let naming := Renaming.between .fresh names
    let unit : Tac.Class := ⟨"Climber", none, [], [], []⟩
    let method : Method :=
      { name := "climb", params := [⟨"step", .int⟩], ret := .int, body := climbCode
        registers := ⟨⟨[("this", 0), ("step", 1), ("tmp0", 2), ("tmp1", 3)]⟩⟩ }
    (∀ name ∈ sourceVariables climbSymbols climb, ¬ Names.Reserved name) ∧
    ((lowerMethod climbSymbols climb).run .fresh).value = .ok method ∧
    ((lowerMethod climbSymbols climb).run names).value = .ok (method.rename naming) ∧
    (method.rename naming).registers.slots.names = ["this", "step", "tmp3", "tmp4"] ∧
    ∃ assembled, (Jasmin.assembleMethod {} unit method).value = .ok assembled ∧
      (Jasmin.assembleMethod {} unit (method.rename naming)).value =
        .ok (assembled.relabel naming.label) ∧
      ∀ indent, (assembled.relabel naming.label).text indent =
        assembled.textWith (fun label => (naming.label label).text) indent := by
  intro names naming unit method
  have plain : ∀ name ∈ sourceVariables climbSymbols climb, ¬ Names.Reserved name := by
    have only : ∀ name ∈ sourceVariables climbSymbols climb, name = "step" := by decide
    intro name mem
    rw [only name mem]
    exact Names.not_reserved (by decide) (by decide)
  have accepted : ((lowerMethod climbSymbols climb).run .fresh).value = .ok method := by
    decide +kernel
  have assembles : (Jasmin.assembleMethod {} unit method).value.isOk = true := by decide +kernel
  rcases independent_of_names climbSymbols climb plain .fresh names with
    ⟨error, refused, -⟩ | ⟨method', accepted', moved, -, each⟩
  · cases refused.symm.trans accepted
  · cases accepted'.symm.trans accepted
    rcases each {} unit with ⟨error, refused, -⟩ | assembled
    · rw [refused] at assembles
      cases assembles
    · exact ⟨plain, accepted, moved, by decide +kernel, assembled⟩

end MiniJava
