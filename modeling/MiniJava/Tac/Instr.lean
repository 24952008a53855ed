import MiniJava.Label
import MiniJava.Numeral
import MiniJava.Operator
import MiniJava.Tac.Ty

/-!
# Three-address instructions

An instruction performs at most one operation, on operands that are variables
or literals.  Control flow is explicit: labels mark places in the instruction
list, and jumps and conditional branches name them.
-/

namespace MiniJava.Tac

/-! ## Operands -/

/-- The name of the receiver inside an instance method. -/
def thisName : String := "this"

/-- A named value: a variable, a field or the receiver. -/
structure Operand where
  name : String
  ty : Ty
deriving DecidableEq, Repr

/-- Whether the operand is the receiver. -/
def Operand.isThis (operand : Operand) : Bool := operand.name = thisName

/-- A constant given by its text.  Truth values are written `1` and `0`. -/
structure Literal where
  value : String
  ty : Ty
deriving DecidableEq, Repr

namespace Literal

def int (value : Int32) : Literal := ⟨Numeral.write value, .int⟩

def bool (value : Bool) : Literal := ⟨if value then "1" else "0", .bool⟩

/-- The number that the text denotes. -/
def toInt? (literal : Literal) : Option Int32 := Numeral.read? literal.value

end Literal

/-- An operand of an instruction: a variable or a literal. -/
inductive Element where
  | operand (op : Operand)
  | literal (lit : Literal)
deriving DecidableEq, Repr

namespace Element

def var (name : String) (ty : Ty) : Element := .operand ⟨name, ty⟩

def int (value : Int32) : Element := .literal (.int value)

def bool (value : Bool) : Element := .literal (.bool value)

def ty : Element → Ty
  | operand op => op.ty
  | literal lit => lit.ty

def isLiteral : Element → Bool
  | literal _ => true
  | operand _ => false

def operand? : Element → Option Operand
  | operand op => some op
  | literal _ => none

def literal? : Element → Option Literal
  | literal lit => some lit
  | operand _ => none

end Element

/-- One cell of an array. -/
structure Cell where
  array : Operand
  index : Element
  elemTy : Ty
deriving DecidableEq, Repr

/-- The cell of an array, typed by the array; a base that is not an array is
taken to hold integers. -/
def Cell.of (array : Operand) (index : Element) : Cell where
  array := array
  index := index
  elemTy := array.ty.element?.getD .int

/-! ## Operations -/

/-- Binary operators.  Comparisons and conjunction only steer branches. -/
inductive BinOp where
  | arith (op : Arith)
  | and
  | lt
  | ge
deriving DecidableEq, Repr

namespace BinOp

def symbol : BinOp → String
  | arith op => op.symbol
  | and => "&&"
  | lt => "<"
  | ge => ">="

def isArith : BinOp → Bool
  | arith _ => true
  | _ => false

def resultTy (op : BinOp) : Ty := if op.isArith then .int else .bool

end BinOp

/-- How the machine selects the method of a call. -/
inductive CallKind where
  | virtual
  | static
  | special
deriving DecidableEq, Repr

/-- The mnemonic of a call, the same in three-address code and assembly. -/
def CallKind.mnemonic : CallKind → String
  | virtual => "invokevirtual"
  | static => "invokestatic"
  | special => "invokespecial"

/-- What a call is made on: a class by its simple name, or an object. -/
inductive Target where
  | className (name : String)
  | object (receiver : Operand)
deriving DecidableEq, Repr

/-- A method call. -/
structure Call where
  kind : CallKind
  target : Target
  method : String
  args : List Element
  ret : Ty
deriving DecidableEq, Repr

/-- Right-hand sides of assignments and conditions of branches. -/
inductive Rhs where
  | element (elem : Element)
  | binary (op : BinOp) (lhs rhs : Element)
  | not (operand : Element)
  | call (invocation : Call)
  | new (className : String)
  | newArray (size : Element) (ty : Ty)
  | length (array : Operand)
  | getField (object field : Operand)
  | index (place : Cell)
deriving DecidableEq, Repr

namespace Rhs

/-- The type of the value that an expression leaves behind. -/
def ty : Rhs → Ty
  | element elem => elem.ty
  | binary op _ _ => op.resultTy
  | not _ => .bool
  | call invocation => invocation.ret
  | new className => .object className
  | newArray _ ty => ty
  | length _ => .int
  | getField _ field => field.ty
  | index place => place.elemTy

def element? : Rhs → Option Element
  | element elem => some elem
  | _ => none

end Rhs

/-! ## Instructions -/

/-- Where an assignment stores its value. -/
inductive Dest where
  | var (op : Operand)
  | cell (place : Cell)
deriving DecidableEq, Repr

def Dest.ty : Dest → Ty
  | var op => op.ty
  | cell place => place.elemTy

/-- Instructions.  `ty` of an assignment is the annotation of its sign. -/
inductive Instr where
  | assign (dest : Dest) (ty : Ty) (rhs : Rhs)
  | putField (object field : Operand) (value : Element)
  /-- A call whose result nobody uses. -/
  | call (invocation : Call)
  | goto (target : Label)
  | label (mark : Label)
  | branch (cond : Rhs) (target : Label)
  | ret (ty : Ty) (value : Option Element)
deriving DecidableEq, Repr

namespace Instr

/-- Assign to a variable at the variable's own type. -/
def set (dest : Operand) (rhs : Rhs) : Instr := .assign (.var dest) dest.ty rhs

def dest? : Instr → Option Dest
  | assign dest _ _ => some dest
  | _ => none

def isReturn : Instr → Bool
  | ret _ _ => true
  | _ => false

end Instr

/-! ## The variables of an instruction -/

/-- The variable of an operand position, if it holds one. -/
def Element.operands (element : Element) : List Operand :=
  element.operand?.toList

/-- The array, then the index. -/
def Cell.operands (cell : Cell) : List Operand :=
  cell.array :: cell.index.operands

/-- The receiver, then the arguments; a class is not a variable. -/
def Call.operands (call : Call) : List Operand :=
  let receiver := match call.target with
    | .object receiver => [receiver]
    | .className _ => []
  receiver ++ call.args.flatMap Element.operands

/-- The variables of an expression from left to right; field names are not
variables. -/
def Rhs.operands : Rhs → List Operand
  | .element elem => elem.operands
  | .binary _ lhs rhs => lhs.operands ++ rhs.operands
  | .not operand => operand.operands
  | .call invocation => invocation.operands
  | .new _ => []
  | .newArray size _ => size.operands
  | .length array => [array]
  | .getField object _ => [object]
  | .index place => place.operands

def Dest.operands : Dest → List Operand
  | .var op => [op]
  | .cell place => place.operands

/-- The variables of an instruction, its destination first. -/
def Instr.operands : Instr → List Operand
  | .assign dest _ rhs => dest.operands ++ rhs.operands
  | .putField object _ value => object :: value.operands
  | .call invocation => invocation.operands
  | .goto _ => []
  | .label _ => []
  | .branch cond _ => cond.operands
  | .ret _ value => value.toList.flatMap Element.operands

end MiniJava.Tac
