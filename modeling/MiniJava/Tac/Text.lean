import MiniJava.Tac.Class

/-!
# The textual form of three-address code

Every operand is written with its type, with two exceptions: the base of an
array cell shows only its name, the cell's type standing at the end, and the
receiver of a field access is written without a type when it is `this`.
-/

namespace MiniJava.Tac

/-! ## Operands and expressions -/

def Operand.text (operand : Operand) : String := operand.name ++ operand.ty.text

def Literal.text (literal : Literal) : String :=
  literal.value ++ literal.ty.text

def Element.text : Element → String
  | .operand op => op.text
  | .literal lit => lit.text

def Cell.text (cell : Cell) : String :=
  cell.array.name ++ "[" ++ cell.index.text ++ "]" ++ cell.elemTy.text

/-- The object of a field access. -/
def Operand.holderText (operand : Operand) : String :=
  if operand.isThis then operand.name else operand.text

def Target.text : Target → String
  | .className name => name
  | .object receiver => receiver.text

def Call.text (call : Call) : String :=
  call.kind.mnemonic ++ "(" ++ call.target.text ++ ", \"" ++ call.method ++ "\""
    ++ .join (call.args.map fun arg => ", " ++ arg.text)
    ++ ")" ++ call.ret.text

def Rhs.text : Rhs → String
  | .element elem => elem.text
  | .binary op lhs rhs =>
      lhs.text ++ " " ++ op.symbol ++ op.resultTy.text ++ " " ++ rhs.text
  | .not operand => "!" ++ Ty.text .bool ++ " " ++ operand.text
  | .call invocation => invocation.text
  | .new className => "new(" ++ className ++ ")" ++ Ty.text (.object className)
  | .newArray size ty => "new(array, " ++ size.text ++ ")" ++ ty.text
  | .length array => "arraylength(" ++ array.text ++ ")" ++ Ty.text .int
  | .getField object field =>
      "getfield(" ++ object.holderText ++ ", " ++ field.text ++ ")"
        ++ field.ty.text
  | .index place => place.text

def Dest.text : Dest → String
  | .var op => op.text
  | .cell place => place.text

/-! ## Instructions, methods and classes -/

def Instr.text : Instr → String
  | .assign dest ty rhs => dest.text ++ " :=" ++ ty.text ++ " " ++ rhs.text ++ ";"
  | .putField object field value =>
      "putfield(" ++ object.holderText ++ ", " ++ field.text ++ ", "
        ++ value.text ++ ")" ++ Ty.text .void ++ ";"
  | .call invocation => invocation.text ++ ";"
  | .goto target => "goto " ++ target.text ++ ";"
  | .label mark => mark.text ++ ":"
  | .branch cond target => "if(" ++ cond.text ++ ") goto " ++ target.text ++ ";"
  | .ret ty (some value) => "ret" ++ ty.text ++ " " ++ value.text ++ ";"
  | .ret ty none => "ret" ++ ty.text ++ ";"

/-- A word followed by a blank, if it applies. -/
def flag (applies : Bool) (word : String) : String :=
  if applies then word ++ " " else ""

def Method.text (method : Method) : String :=
  ".method " ++ flag method.isPublic "public" ++ flag method.isStatic "static"
    ++ flag method.isVariadic "varargs" ++ method.name
    ++ "(" ++ ", ".intercalate (method.params.map Operand.text) ++ ")"
    ++ method.ret.text ++ " \x7b\n"
    ++ .join (method.body.map fun instr => instr.text ++ "\n") ++ "\x7d\n"

/-- The constructor that every class has: it only calls the superclass. -/
def Class.constructorText (unit : Class) : String :=
  ".construct " ++ unit.name ++ "()" ++ Ty.text .void ++ " \x7b\n"
    ++ "invokespecial(this, \"<init>\")" ++ Ty.text .void ++ ";\n\x7d\n"

def Class.text (unit : Class) : String :=
  .join (unit.imports.map fun path => "import " ++ path ++ ";\n")
    ++ unit.name
    ++ (match unit.superName with
        | some superName => " extends " ++ superName
        | none => "")
    ++ " \x7b\n\n"
    ++ .join (unit.fields.map fun field => ".field public " ++ field.text ++ ";\n")
    ++ (if unit.fields.isEmpty then "" else "\n")
    ++ unit.constructorText
    ++ .join (unit.methods.map fun method => "\n" ++ method.text) ++ "\x7d\n"

end MiniJava.Tac
