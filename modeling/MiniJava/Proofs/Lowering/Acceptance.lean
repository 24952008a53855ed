import MiniJava.Proofs.Lowering.Stmt
import MiniJava.Proofs.Symbols

/-!
# What lowering accepts

Lowering fails for two reasons.  A method may be missing from the symbol table,
and an assignment may have a literal on its left, perhaps in parentheses: only
then does the left side come down to a literal (`target_eq_literal_iff`).  The
other errors do not occur: an expression is always lowered, in every position
(`lowerExpr_eq`).

Whether an attempt fails, and how, does not depend on the supply of names.  So an
attempt has one ending, an error or none (`Ends`), and the ending of a sequence
is the first error of its parts.  The ending of a program is read off its syntax
(`ends_lowerProgram`), in the order in which code is written: the second branch
of a conditional comes before the first one.
-/

namespace MiniJava

open Source (Expr Stmt Scope SymbolTable MethodDecl MethodEntry Program)
open Tac Semantics Lowering

/-- Whether an expression is a literal, perhaps in parentheses. -/
def isConstant : Expr → Bool
  | .int _ _ | .bool _ _ => true
  | .paren inner _ => isConstant inner
  | _ => false

/-- The literal that such an expression is. -/
def constant? : Expr → Option Literal
  | .int value _ => some (.int value)
  | .bool value _ => some (.bool value)
  | .paren inner _ => constant? inner
  | _ => none

theorem isSome_constant? : ∀ expr, (constant? expr).isSome = isConstant expr
  | .paren inner _ => isSome_constant? inner
  | .int _ _ | .bool _ _ | .this _ | .var _ _ | .binary _ _ _ _ | .not _ _ | .newObject _ _
  | .newArray _ _ _ | .arrayInit _ _ | .index _ _ _ | .length _ _ | .call _ _ _ _ => rfl

/-! ## Left sides in the order of the code -/

mutual

/-- The left sides of the assignments in a statement, in the order in which they
are lowered: the second branch of a conditional comes first. -/
def leftSides : Stmt → List Expr
  | .assign left _ => [left]
  | .ifElse _ thenBranch elseBranch => leftSides elseBranch ++ leftSides thenBranch
  | .whileLoop _ body => leftSides body
  | .block stmts => leftSidesOfAll stmts
  | .expr _ | .ret _ => []

def leftSidesOfAll : List Stmt → List Expr
  | [] => []
  | stmt :: rest => leftSides stmt ++ leftSidesOfAll rest

end

section
variable {left : Expr}

mutual

/-- The left sides are those of the assignments at any depth. -/
theorem mem_leftSides : ∀ stmt : Stmt,
    left ∈ leftSides stmt ↔ ∃ inner ∈ subStmts stmt, left ∈ targetOf? inner
  | .assign _ _ | .expr _ | .ret _ => by simp [leftSides, subStmts, targetOf?, eq_comm]
  | .ifElse _ thenBranch elseBranch => by
      have onTrue := mem_leftSides thenBranch
      have onFalse := mem_leftSides elseBranch
      simp only [Option.mem_def] at onTrue onFalse
      simp [leftSides, subStmts, targetOf?, onTrue, onFalse, or_and_right, exists_or, or_comm]
  | .whileLoop _ body => by
      have inside := mem_leftSides body
      simp only [Option.mem_def] at inside
      simp [leftSides, subStmts, targetOf?, inside]
  | .block stmts => by
      have inside := mem_leftSidesOfAll stmts
      simp only [Option.mem_def] at inside
      simp [leftSides, subStmts, targetOf?, inside]

theorem mem_leftSidesOfAll : ∀ stmts : List Stmt,
    left ∈ leftSidesOfAll stmts ↔ ∃ inner ∈ subStmtsOfAll stmts, left ∈ targetOf? inner
  | [] => by simp [leftSidesOfAll, subStmtsOfAll]
  | stmt :: rest => by
      simp only [leftSidesOfAll, subStmtsOfAll, List.mem_append, mem_leftSides stmt,
        mem_leftSidesOfAll rest, or_and_right, exists_or]

end

end

namespace Lowering

/-! ## What comes down to a literal -/

section
variable {scope : Scope} {names : Names} {lit : Literal}

theorem settle_eq_literal_iff {rhs : Rhs} :
    (Gen.settle rhs names).value = .literal lit ↔ rhs = .element (.literal lit) := by
  cases rhs with
  | element elem => exact Rhs.element.injEq _ _ ▸ Iff.rfl
  | _ => exact iff_of_false nofun nofun

theorem readName_ne_literal (name : String) (ty : Ty) :
    (readName scope name ty names).value ≠ .literal lit := by
  rw [readName]
  intro same
  split at same <;> cases same

theorem pack_ne_literal (elemTy : Ty) (items : List (Gen Element)) :
    (pack elemTy items names).value ≠ .literal lit := by
  rw [pack, Gen.value_bind]
  intro same
  split at same <;> cases same

mutual

/-- Only a literal is computed to a literal. -/
theorem compute_eq_literal_iff : ∀ {expr : Expr} {names : Names},
    (compute scope expr names).value = .element (.literal lit) ↔ constant? expr = some lit
  | .int _ _, _ | .bool _ _, _ => by simp [compute, constant?, Element.int, Element.bool]
  | .var name _, _ => iff_of_false (fun h => readName_ne_literal name _ (Rhs.element.inj h)) nofun
  | .paren inner _, _ => by
      rw [constant?, ← operand_eq_literal_iff]
      exact ⟨Rhs.element.inj, congrArg Rhs.element⟩
  | .arrayInit _ _, _ => iff_of_false (fun h => pack_ne_literal _ _ (Rhs.element.inj h)) nofun
  | .this _, _ | .binary (.arith _) _ _ _, _ | .binary .and _ _ _, _ | .binary .lt _ _ _, _
  | .not _ _, _ | .newObject _ _, _ | .newArray _ _ _, _ | .index _ _ _, _ | .length _ _, _
  | .call _ _ _ _, _ => iff_of_false nofun nofun

theorem operand_eq_literal_iff : ∀ {expr : Expr} {names : Names},
    (operand scope expr names).value = .literal lit ↔ constant? expr = some lit
  | _, _ => settle_eq_literal_iff.trans compute_eq_literal_iff

end

/-- Only a literal is no place to assign to. -/
theorem target_eq_literal_iff {left : Expr} :
    (target scope left names).value = .literal lit ↔ constant? left = some lit := by
  rw [target.eq_def]
  split
  · split <;> simp [constant?]
  · simp [constant?]
  · have same : (operand scope left names).value = .literal lit ↔ constant? left = some lit :=
      operand_eq_literal_iff
    rw [← same, Gen.map_apply]
    cases (operand scope left names).value <;> simp [Place.ofElement]

/-- Only the plain name of a field is the place of a field. -/
theorem target_eq_field_iff {left : Expr} {object field : Operand} :
    (target scope left names).value = .field object field ↔
      ∃ name ty, left = .var name ty ∧ scope.isField name = true ∧
        object = receiverOf scope ∧ field = ⟨name, .ofSource ty⟩ := by
  rw [target.eq_def]
  split
  · rename_i name ty
    split
    · rw [Gen.pure_apply, Place.field.injEq]
      constructor
      · rintro ⟨rfl, rfl⟩
        exact ⟨name, ty, rfl, ‹_›, rfl, rfl⟩
      · rintro ⟨_, _, same, -, rfl, rfl⟩
        cases same
        exact ⟨rfl, rfl⟩
    · refine iff_of_false (by simp) ?_
      rintro ⟨_, _, same, isField, -⟩
      cases same
      exact absurd isField ‹_›
  · simp
  · rename_i plain _
    rw [Gen.map_apply]
    refine iff_of_false ?_ ?_
    · cases (operand scope left names).value <;> simp [Place.ofElement]
    · rintro ⟨name, ty, same, -⟩
      exact plain name ty same

theorem ofRhs_ne_fieldStore (rhs : Rhs) (object field : Operand) :
    Lowered.ofRhs rhs ≠ .fieldStore object field := by
  cases rhs <;> nofun

theorem ofEffect_ne_fieldStore (out : Element ⊕ Call) (object field : Operand) :
    Lowered.ofEffect out ≠ .fieldStore object field := by
  cases out <;> nofun

theorem ofPlace_eq_fieldStore_iff {place : Place} {object field : Operand} :
    Lowered.ofPlace place = .fieldStore object field ↔ place = .field object field := by
  cases place <;> simp [Lowered.ofPlace]

/-- An expression leaves a field waiting for its value only on the left of an
assignment, and only if it is the plain name of the field. -/
theorem generate_eq_fieldStore_iff {position : Position} {expr : Expr} {object field : Operand} :
    (generate scope position expr names).value = .fieldStore object field ↔
      position = .target ∧ ∃ name ty, expr = .var name ty ∧ scope.isField name = true ∧
        object = receiverOf scope ∧ field = ⟨name, .ofSource ty⟩ := by
  cases position with
  | operand => exact iff_of_false nofun nofun
  | rhs => exact iff_of_false (ofRhs_ne_fieldStore _ _ _) nofun
  | statement => exact iff_of_false (ofEffect_ne_fieldStore _ _ _) nofun
  | target =>
      rw [generate, Gen.map_apply, ofPlace_eq_fieldStore_iff, target_eq_field_iff]
      exact (and_iff_right rfl).symm

end

/-! ## How attempts end -/

variable {α β : Type}

/-- The error that a result is, if it is one. -/
def errorOf? : Except CompileError α → Option CompileError
  | .error error => some error
  | .ok _ => none

/-- From every supply the attempt ends in the same way: with this error, or with
a value if there is none. -/
def Ends (attempt : Attempt α) (error? : Option CompileError) : Prop :=
  ∀ names, errorOf? (attempt.run names).value = error?

theorem errorOf?_eq_none_iff {result : Except CompileError α} :
    errorOf? result = none ↔ ∃ value, result = .ok value := by
  cases result <;> simp [errorOf?]

theorem errorOf?_eq_some_iff {result : Except CompileError α} {error : CompileError} :
    errorOf? result = some error ↔ result = .error error := by
  cases result <;> simp [errorOf?]

namespace Ends

/-- Whether an attempt fails is the same from every supply. -/
theorem fails_iff {attempt : Attempt α} {error? : Option CompileError} (h : Ends attempt error?)
    (names : Names) :
    (∃ error, (attempt.run names).value = .error error) ↔ error?.isSome = true := by
  rw [← h names, Option.isSome_iff_exists]
  exact exists_congr fun _ => errorOf?_eq_some_iff.symm

theorem pure (value : α) : Ends (Pure.pure value) none := fun _ => rfl

theorem throw (error : CompileError) : Ends (MonadExcept.throw error : Attempt α) (some error) :=
  fun _ => rfl

theorem lift (gen : Gen α) : Ends (liftM gen) none := fun _ => rfl

/-- A sequence ends with the first error of its parts. -/
theorem bind {first : Attempt α} {next : α → Attempt β} {error? error?' : Option CompileError}
    (h : Ends first error?) (h' : ∀ value, Ends (next value) error?') :
    Ends (first >>= next) (error?.or error?') := by
  intro names
  rw [ExceptT.run_bind, Gen.value_bind, ← h names]
  cases (first.run names).value with
  | error error => rfl
  | ok value => exact h' value _

/-- What comes next is known to follow a value that the generator hands back. -/
theorem lift_bind {gen : Gen α} {next : α → Attempt β} {error? : Option CompileError}
    (h : ∀ names, Ends (next (gen names).value) error?) : Ends (liftM gen >>= next) error? := by
  intro names
  rw [run_lift_bind]
  exact h names _

theorem capture {attempt : Attempt Unit} {error? : Option CompileError} (h : Ends attempt error?) :
    Ends (Attempt.capture attempt) error? := by
  intro names
  rw [← h names]
  show errorOf? ((attempt.run names).value.map _) = _
  cases (attempt.run names).value <;> rfl

theorem conditional (cond : Gen Element) {thenBranch elseBranch : Attempt Unit}
    {onTrue onFalse : Option CompileError} (hthen : Ends thenBranch onTrue)
    (helse : Ends elseBranch onFalse) :
    Ends (conditional cond thenBranch elseBranch) (onFalse.or onTrue) := by
  refine .lift_bind fun _ => .lift_bind fun _ => .lift_bind fun _ => helse.bind fun _ =>
    .lift_bind fun _ => .lift_bind fun _ => ?_
  rw [← Option.or_none (o := onTrue)]
  exact hthen.bind fun _ => .lift _

theorem loop (cond : Gen Element) {body : Attempt Unit} {error? : Option CompileError}
    (hbody : Ends body error?) : Ends (loop cond body) error? := by
  refine .lift_bind fun _ => .lift_bind fun _ => .lift_bind fun _ => .lift_bind fun _ =>
    .lift_bind fun _ => .lift_bind fun _ => ?_
  rw [← Option.or_none (o := error?)]
  exact hbody.bind fun _ => .lift_bind fun _ => .lift_bind fun _ => .lift _

end Ends

/-! ## Statements, methods and programs -/

/-- The error of an assignment, if its left side is a literal. -/
def refusal? (left : Expr) : Option CompileError :=
  (constant? left).map fun lit => .unsupported (.assignment lit)

theorem isSome_refusal? (left : Expr) : (refusal? left).isSome = isConstant left := by
  rw [refusal?, Option.isSome_map, isSome_constant?]

/-- Some of these statements assigns to a literal. -/
def AssignsConstant (stmts : List Stmt) : Prop :=
  ∃ stmt ∈ stmts, ∃ left ∈ targetOf? stmt, isConstant left = true

theorem isSome_findSome?_refusal? {lefts : List Expr} {stmts : List Stmt}
    (same : ∀ left, left ∈ lefts ↔ ∃ stmt ∈ stmts, left ∈ targetOf? stmt) :
    (lefts.findSome? refusal?).isSome = true ↔ AssignsConstant stmts := by
  simp only [List.findSome?_isSome_iff, isSome_refusal?, same, AssignsConstant]
  exact ⟨fun ⟨left, ⟨stmt, mem, target⟩, constant⟩ => ⟨stmt, mem, left, target, constant⟩,
    fun ⟨stmt, mem, left, target, constant⟩ => ⟨left, ⟨stmt, mem, target⟩, constant⟩⟩

section
variable {scope : Scope}

theorem ends_assignment (left right : Expr) :
    Ends (assignment scope left right) (refusal? left) := by
  refine .lift_bind fun names => .lift_bind fun names' => ?_
  have place (h : ∀ lit, (target scope left names).value ≠ .literal lit) :
      refusal? left = none := by
    rw [refusal?, Option.map_eq_none_iff, Option.eq_none_iff_forall_ne_some]
    exact fun lit constant => h lit (target_eq_literal_iff.mpr constant)
  cases found : (target scope left names).value with
  | var op =>
      rw [place (found ▸ nofun)]
      exact .lift _
  | cell cell =>
      rw [place (found ▸ nofun)]
      exact .lift _
  | field object field =>
      rw [place (found ▸ nofun)]
      exact .lift_bind fun _ => .lift _
  | literal lit =>
      rw [refusal?, target_eq_literal_iff.mp found]
      exact .throw _

mutual

theorem ends_lowerStmt : ∀ stmt,
    Ends (lowerStmt scope stmt) ((leftSides stmt).findSome? refusal?)
  | .assign left right => by
      rw [leftSides, List.findSome?_singleton, lowerStmt_assign]
      exact ends_assignment left right
  | .ifElse cond thenBranch elseBranch => by
      rw [leftSides, List.findSome?_append, lowerStmt_ifElse]
      exact .conditional _ (ends_lowerStmt thenBranch) (ends_lowerStmt elseBranch)
  | .whileLoop cond body => by
      rw [leftSides, lowerStmt_whileLoop]
      exact .loop _ (ends_lowerStmt body)
  | .expr expr => by
      rw [lowerStmt_expr]
      exact .lift _
  | .block stmts => by
      rw [leftSides, lowerStmt]
      exact ends_lowerStmts stmts
  | .ret value => by
      rw [lowerStmt_ret]
      exact .lift _

theorem ends_lowerStmts : ∀ stmts,
    Ends (lowerStmts scope stmts) ((leftSidesOfAll stmts).findSome? refusal?)
  | [] => .pure ()
  | stmt :: rest => by
      rw [leftSidesOfAll, List.findSome?_append]
      exact (ends_lowerStmt stmt).bind fun _ => ends_lowerStmts rest

end

end

/-- The error of a method: that it is unknown, or that of the first assignment to
a literal. -/
def methodError? (symbols : SymbolTable) (decl : MethodDecl) : Option CompileError :=
  match symbols.method? decl.name with
  | none => some (.unknownMethod decl.name)
  | some _ => (leftSidesOfAll decl.body).findSome? refusal?

section
variable {symbols : SymbolTable}

theorem ends_lowerMethod (decl : MethodDecl) :
    Ends (lowerMethod symbols decl) (methodError? symbols decl) := by
  rw [lowerMethod, methodError?]
  cases symbols.method? decl.name with
  | none => exact .throw _
  | some entry =>
      refine .lift_bind fun _ => ?_
      rw [← Option.or_none (o := List.findSome? _ _)]
      exact (ends_lowerStmts decl.body).capture.bind fun _ => .pure _

theorem ends_lowerMethods : ∀ decls : List MethodDecl,
    Ends (lowerMethods symbols decls) (decls.findSome? (methodError? symbols))
  | [] => .pure _
  | decl :: rest => by
      rw [← List.singleton_append, List.findSome?_append, List.findSome?_singleton,
        ← Option.or_none (o := rest.findSome? _)]
      exact (ends_lowerMethod decl).bind fun _ => (ends_lowerMethods rest).bind fun _ => .pure _

theorem ends_lowerProgram (program : Program) :
    Ends (lowerProgram symbols program)
      (program.decl.methods.findSome? (methodError? symbols)) := by
  rw [← Option.or_none (o := List.findSome? _ _)]
  exact (ends_lowerMethods program.decl.methods).bind fun _ => .pure _

theorem isSome_methodError? {decl : MethodDecl} :
    (methodError? symbols decl).isSome = true ↔
      symbols.method? decl.name = none ∨ AssignsConstant (subStmtsOfAll decl.body) := by
  rw [methodError?]
  cases found : symbols.method? decl.name with
  | none => simp
  | some entry => simp [isSome_findSome?_refusal? fun left => mem_leftSidesOfAll decl.body]

/-- A program is lowered if its methods are known and no assignment has a literal
on its left. -/
theorem succeeds_lowerProgram {program : Program}
    (found : ∀ decl ∈ program.decl.methods, ∃ entry, symbols.method? decl.name = some entry)
    (places : ∀ decl ∈ program.decl.methods, ∀ stmt ∈ subStmtsOfAll decl.body,
      ∀ left ∈ targetOf? stmt, isConstant left = false) (names : Names) :
    ∃ unit, ((lowerProgram symbols program).run names).value = .ok unit := by
  rw [← errorOf?_eq_none_iff, ends_lowerProgram program names, List.findSome?_eq_none_iff]
  intro decl declared
  rw [← Option.not_isSome_iff_eq_none, isSome_methodError?]
  rintro (unknown | ⟨stmt, inside, left, target, constant⟩)
  · obtain ⟨entry, known⟩ := found decl declared
    rw [unknown] at known
    cases known
  · rw [places decl declared stmt inside left target] at constant
    cases constant

/-- No method of a program is unknown to the table that is collected from it. -/
theorem methodError?_collect_ne {program : Program} {decl : MethodDecl}
    (declared : decl ∈ program.decl.methods) (name : String) :
    methodError? (.collect program) decl ≠ some (.unknownMethod name) := by
  intro error
  rw [methodError?] at error
  split at error
  · exact method?_collect_ne_none declared ‹_›
  · obtain ⟨left, -, refused⟩ := List.exists_of_findSome?_eq_some error
    obtain ⟨lit, -, same⟩ := Option.map_eq_some_iff.mp refused
    cases same

/-- How lowering ends, from any supply of names.

* An expression is lowered in every position: no field that waits for its value is
  asked for one, and no operator on truth values is taken for arithmetic.  What
  remains is such a field only where its plain name is assigned to.
* A statement fails exactly if it contains an assignment to a literal, and the
  error is that of the first one in the order of lowering.
* A program fails exactly if a method is unknown to the symbol table or contains
  such an assignment, and the error is that of the first such method.
* Methods are never unknown to the table that is collected from the program. -/
theorem error_of_lowering (symbols : SymbolTable) (entry : MethodEntry) (names : Names) :
    let scope : Scope := ⟨symbols, entry⟩
    (∀ position expr, ∃ lowered, ((lowerExpr scope position expr).run names).value = .ok lowered ∧
      ∀ object field, lowered = .fieldStore object field ↔
        position = .target ∧ ∃ name ty, expr = .var name ty ∧ scope.isField name = true ∧
          object = receiverOf scope ∧ field = ⟨name, .ofSource ty⟩) ∧
    (∀ stmt,
      errorOf? ((lowerStmt scope stmt).run names).value = (leftSides stmt).findSome? refusal? ∧
      ((∃ error, ((lowerStmt scope stmt).run names).value = .error error) ↔
        AssignsConstant (subStmts stmt))) ∧
    (∀ program,
      errorOf? ((lowerProgram symbols program).run names).value =
        program.decl.methods.findSome? (methodError? symbols) ∧
      ((∃ error, ((lowerProgram symbols program).run names).value = .error error) ↔
        ∃ decl ∈ program.decl.methods,
          symbols.method? decl.name = none ∨ AssignsConstant (subStmtsOfAll decl.body))) ∧
    ∀ program name,
      ((lowerProgram (.collect program) program).run names).value ≠
        .error (.unknownMethod name) := by
  intro scope
  refine ⟨fun position expr => ⟨(generate scope position expr names).value, ?_,
      fun _ _ => generate_eq_fieldStore_iff⟩,
    fun stmt => ⟨ends_lowerStmt stmt names, ?_⟩,
    fun program => ⟨ends_lowerProgram program names, ?_⟩, fun program name failed => ?_⟩
  · rw [run_lowerExpr]
  · rw [(ends_lowerStmt stmt).fails_iff names]
    exact isSome_findSome?_refusal? fun left => mem_leftSides stmt
  · rw [(ends_lowerProgram program).fails_iff names, List.findSome?_isSome_iff]
    exact exists_congr fun decl => and_congr_right fun _ => isSome_methodError?
  · rw [← errorOf?_eq_some_iff, ends_lowerProgram program names] at failed
    obtain ⟨decl, declared, error⟩ := List.exists_of_findSome?_eq_some failed
    exact methodError?_collect_ne declared name error

/-- The second branch of a conditional is lowered first. -/
example : (leftSides (.ifElse (.boolOf true) (.assign (.intOf 1) (.intOf 0))
    (.assign (.parenOf (.boolOf false)) (.boolOf true)))).findSome? refusal? =
      some (.unsupported (.assignment (.bool false))) := by
  decide

end

end Lowering

end MiniJava
