import MiniJava.Jasmin.Assemble
import MiniJava.Lowering.Class

/-!
# Whole compilation units

A program is lowered against a symbol table and then assembled.  Every run
starts with a fresh supply of names, so the same program always gives the same
text.
-/

namespace MiniJava

open Source (Program SymbolTable)

/-- The texts of a compiled class. -/
structure Output where
  code : String
  assembly : String
deriving DecidableEq, Repr

/-- Lower a program to three-address code. -/
def lower (symbols : SymbolTable) (program : Program) :
    Noted (Except CompileError Tac.Class) := do
  .note (.loweringClass program.decl.name)
  let outcome := (Lowering.lowerProgram symbols program).run .fresh
  ⟨outcome.value, outcome.notes⟩

/-- Compile a program to three-address text and assembly text. -/
def compile (options : Options) (symbols : SymbolTable) (program : Program) :
    Noted (Except CompileError Output) := do
  match ← lower symbols program with
  | .error error => return .error error
  | .ok unit =>
    match ← Jasmin.assembleClass options unit with
    | .error error => return .error error
    | .ok assembled =>
        .note (.emittedClass unit.name)
        return .ok ⟨unit.text, assembled.text options.indent⟩

end MiniJava
