import MiniJava.Source.Syntax
import MiniJava.Tac.Text

/-!
# Errors

Compilation stops at the first error.  An error names its cause; the wording is
given once, by `CompileError.message`.
-/

namespace MiniJava

open Tac

/-- Constructs for which there is no rule. -/
inductive Unsupported where
  /-- An assignment whose target is a literal. -/
  | assignment (target : Literal)
  /-- An assignment whose target is an expression that denotes no place. -/
  | assignmentTo (target : Rhs)
  /-- An operator on truth values where one on integers is expected. -/
  | arithmetic (op : Source.BinOp)
  /-- A field that waits for its value where a value is wanted. -/
  | pendingField (name : String)
  /-- A local variable of a type that has no slot. -/
  | localOf (ty : Ty)
  /-- A field or method of a value that is no object. -/
  | memberOf (ty : Ty)
  /-- A comparison or conjunction whose value is wanted. -/
  | valueOf (op : BinOp)
  /-- A new array of a type other than integer array. -/
  | arrayOf (ty : Ty)
  /-- A call whose kind does not go with what it is made on. -/
  | callOn (kind : CallKind) (target : Target)
  /-- A variable that is assigned a value of type void. -/
  | voidStore (name : String)
  /-- A conjunction as the condition of a branch. -/
  | conjunctionBranch
  /-- A construct described in words. -/
  | other (construct : String)
deriving DecidableEq, Repr

/-- Reasons to give up on a compilation unit. -/
inductive CompileError where
  | unsupported (construct : Unsupported)
  | unknownVariable (method name : String)
  | unknownMethod (name : String)
  | stackUnderflow (method : String)
  /-- The text of an integer or truth value that is no numeral. -/
  | invalidLiteral (text : String)
deriving DecidableEq, Repr

/-! ## Wording -/

/-- The form of a name in the form of what has it. -/
def nameForm (name : String) : String := "\"" ++ name ++ "\""

/-- The constructor form of a type. -/
def Tac.Ty.form : Ty → String
  | .int => "I32"
  | .bool => "Bool"
  | .void => "Void"
  | .string => "String"
  | .object className => "Class(" ++ nameForm className ++ ")"
  | .array elem => "Array(" ++ elem.form ++ ")"

/-- The form of a record with the given fields. -/
def recordForm (name : String) (fields : List (String × String)) : String :=
  name ++ " \x7b " ++ ", ".intercalate (fields.map fun (field, form) => field ++ ": " ++ form)
    ++ " \x7d"

def Tac.Operand.form (operand : Operand) : String :=
  recordForm "Operand" [("name", nameForm operand.name), ("ty", operand.ty.form)]

def Tac.Literal.form (literal : Literal) : String :=
  recordForm "Literal" [("value", nameForm literal.value), ("ty", literal.ty.form)]

def Tac.Element.form : Element → String
  | .operand op => "Operand(" ++ op.form ++ ")"
  | .literal lit => "Literal(" ++ lit.form ++ ")"

def Tac.Cell.form (cell : Cell) : String :=
  recordForm "ArrayOperand"
    [("array", cell.array.form), ("index", cell.index.form), ("elem_ty", cell.elemTy.form)]

def Tac.BinOp.form : BinOp → String
  | .arith .add => "Add"
  | .arith .sub => "Sub"
  | .arith .mul => "Mul"
  | .arith .div => "Div"
  | .and => "And"
  | .lt => "Lt"
  | .ge => "Gte"

def Tac.CallKind.form : CallKind → String
  | .virtual => "Virtual"
  | .static => "Static"
  | .special => "Special"

def Tac.Target.form : Target → String
  | .className name => "Class(" ++ nameForm name ++ ")"
  | .object receiver => "Object(" ++ receiver.form ++ ")"

def Tac.Call.form (call : Call) : String :=
  recordForm "CallExpr"
    [("kind", call.kind.form), ("target", call.target.form), ("method", nameForm call.method),
      ("args", "[" ++ ", ".intercalate (call.args.map Element.form) ++ "]"),
      ("ret", call.ret.form)]

/-- The constructor form of an expression. -/
def Tac.Rhs.form : Rhs → String
  | .element elem => "Element(" ++ elem.form ++ ")"
  | .binary op lhs rhs =>
      recordForm "Binary" [("op", op.form), ("lhs", lhs.form), ("rhs", rhs.form)]
  | .not operand => "Not(" ++ operand.form ++ ")"
  | .call invocation => "Call(" ++ invocation.form ++ ")"
  | .new className => "New(" ++ nameForm className ++ ")"
  | .newArray size ty => recordForm "NewArray" [("size", size.form), ("ty", ty.form)]
  | .length array => "ArrayLength(" ++ array.form ++ ")"
  | .getField object field =>
      recordForm "GetField" [("object", object.form), ("field", field.form)]
  | .index place => "Index(" ++ place.form ++ ")"

/-- The description of an unsupported construct. -/
def Unsupported.describe : Unsupported → String
  | assignment target => "assignment to Value(Literal(" ++ target.form ++ "))"
  | assignmentTo target => "assignment to Expr(" ++ target.form ++ ")"
  | arithmetic op => "'" ++ op.symbol ++ "' as arithmetic"
  | pendingField name => "field store to '" ++ name ++ "' used as a value"
  | localOf ty => "local of type " ++ ty.text
  | memberOf ty => "member access on " ++ ty.text
  | valueOf op => "'" ++ op.symbol ++ "' used as a value"
  | arrayOf ty => "newarray of " ++ ty.text
  | callOn kind target => kind.mnemonic ++ " on target " ++ target.text
  | voidStore name => "storing a void value into '" ++ name ++ "'"
  | conjunctionBranch => "'&&' as a branch condition"
  | other construct => construct

/-- The text of an error. -/
def CompileError.message : CompileError → String
  | unsupported construct => "not implemented: " ++ construct.describe
  | unknownVariable method name =>
      "unknown variable '" ++ name ++ "' in method '" ++ method ++ "'"
  | unknownMethod name => "unknown method '" ++ name ++ "'"
  | stackUnderflow method =>
      "operand stack underflow in method '" ++ method ++ "'"
  | invalidLiteral text => "invalid literal '" ++ text ++ "'"

end MiniJava
