import MiniJava.Lowering.Expr

/-!
# Lowering statements

A statement becomes a list of instructions with labels and jumps.  An assignment
is refused if its left side is lowered to no place, or its right side to no value.
That is noticed only after both have been lowered, so the names they took are
spent.

A loop tests its condition twice in the code: once before the body is entered
and once at its end.  Each test is lowered on its own and has temporaries of
its own.
-/

namespace MiniJava.Lowering

open Source (Expr Stmt Scope)
open Tac Gen

/-- The result type of the method under compilation. -/
def resultTy (scope : Scope) : Ty := .ofSource scope.method.ret

/-- A lowered expression as the right-hand side of an assignment. -/
def Lowered.toRhs : Lowered → Attempt Rhs
  | value elem => pure (.element elem)
  | bare rhs => pure rhs
  | fieldStore _ field => throw (.unsupported (.pendingField field.name))

/-- Store the value of an expression in the place that another one denotes. -/
def lowerAssign (scope : Scope) (left right : Expr) : Attempt Unit := do
  let place ← lowerExpr scope .target left
  let source ← lowerExpr scope .rhs right
  match place with
  | .fieldStore object field =>
      let value ← source.toElement field.ty
      emit (.putField object field value)
  | .value (.operand op) =>
      let rhs ← source.toRhs
      emit (.assign (.var op) (.ofSource left.ty) rhs)
  | .bare (.index cell) =>
      let rhs ← source.toRhs
      emit (.assign (.cell cell) (.ofSource left.ty) rhs)
  | .value (.literal lit) => throw (.unsupported (.assignment lit))
  | .bare rhs => throw (.unsupported (.assignmentTo rhs))

/-- Run one of two branches.  The code of the second one comes first, and the
test jumps over it. -/
def conditional (cond : Attempt Element) (thenBranch elseBranch : Attempt Unit) :
    Attempt Unit := do
  let test ← cond
  let id ← number .thenBranch
  emit (.branch (.element test) (.numbered .thenBranch id))
  elseBranch
  emit (.goto (.endIf id))
  emit (.label (.numbered .thenBranch id))
  thenBranch
  emit (.label (.endIf id))

/-- Run a body as long as a condition holds. -/
def loop (cond : Attempt Element) (body : Attempt Unit) : Attempt Unit := do
  let entry ← cond
  let start ← label .loopBody
  let done ← label .loopEnd
  emit (.branch (.element entry) start)
  emit (.goto done)
  emit (.label start)
  body
  let again ← cond
  emit (.branch (.element again) start)
  emit (.label done)

/-- Run an expression for what it does. -/
def lowerEffect (scope : Scope) (expr : Expr) : Attempt Unit := do
  match ← lowerExpr scope .statement expr with
  | .bare (.call call) => emit (.call call)
  | _ => pure ()

/-- Leave the method.  A method without result returns no value, and an
expression given there is not evaluated. -/
def lowerReturn (scope : Scope) : Option Expr → Attempt Unit
  | none => emit (.ret (resultTy scope) none)
  | some expr =>
      if (resultTy scope).isVoid then
        emit (.ret (resultTy scope) none)
      else do
        let value ← lowerOperand scope expr
        emit (.ret (resultTy scope) (some value))

mutual

/-- Lower a statement. -/
def lowerStmt (scope : Scope) : Stmt → Attempt Unit
  | .assign left right => lowerAssign scope left right
  | .ifElse cond thenBranch elseBranch =>
      conditional (lowerOperand scope cond) (lowerStmt scope thenBranch)
        (lowerStmt scope elseBranch)
  | .whileLoop cond body => loop (lowerOperand scope cond) (lowerStmt scope body)
  | .expr expr => lowerEffect scope expr
  | .block stmts => lowerStmts scope stmts
  | .ret value => lowerReturn scope value

/-- Lower statements in order. -/
def lowerStmts (scope : Scope) : List Stmt → Attempt Unit
  | [] => pure ()
  | stmt :: rest => do
      lowerStmt scope stmt
      lowerStmts scope rest

end

end MiniJava.Lowering
