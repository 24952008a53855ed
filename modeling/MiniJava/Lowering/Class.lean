import MiniJava.Lowering.Stmt

/-!
# Lowering methods and classes

The header of a method comes from its declaration, its result type and its
scope from the symbol table.  A method without result whose last statement is
not itself a return gets one.  All methods of a class draw on one supply of
names, so labels are unique throughout the class.
-/

namespace MiniJava.Lowering

open Source (MethodDecl Program SymbolTable Stmt Scope)
open Tac Gen

/-- The return that ends a method without result. -/
def closing (scope : Scope) (body : List Stmt) : List Instr :=
  if (resultTy scope).isVoid && !body.getLast?.any Stmt.isReturn then
    [.ret .void none]
  else []

/-- Lower a method against a symbol table. -/
def lowerMethod (symbols : SymbolTable) (decl : MethodDecl) : Attempt Method :=
  match symbols.method? decl.name with
  | none => throw (.unknownMethod decl.name)
  | some entry => do
      let scope : Scope := ⟨symbols, entry⟩
      note (.loweringMethod entry)
      let body ← Attempt.capture (lowerStmts scope decl.body)
      let method : Method :=
        { name := decl.name
          isPublic := decl.isPublic
          isStatic := decl.isStatic
          isVariadic := decl.isVariadic
          params := decl.params.map fun param => ⟨param.name, .ofSource param.ty⟩
          ret := resultTy scope
          body := body ++ closing scope decl.body }
      return method.assignRegisters

/-- Lower methods in order. -/
def lowerMethods (symbols : SymbolTable) : List MethodDecl → Attempt (List Method)
  | [] => pure []
  | decl :: rest => do
      let method ← lowerMethod symbols decl
      let methods ← lowerMethods symbols rest
      return method :: methods

/-- Lower a program against a symbol table. -/
def lowerProgram (symbols : SymbolTable) (program : Program) : Attempt Class := do
  let methods ← lowerMethods symbols program.decl.methods
  return {
    name := program.decl.name
    superName := program.decl.superName
    imports := program.imports
    fields := program.decl.fields.map fun field => ⟨field.name, .ofSource field.ty⟩
    methods := methods }

end MiniJava.Lowering
