import MiniJava.Tac.Registers

/-!
# Methods and classes of three-address code
-/

namespace MiniJava.Tac

/-- A method: its header, its instructions and the slots of its variables.
An empty table of slots asks for the sequential layout. -/
structure Method where
  name : String
  isPublic : Bool := true
  isStatic : Bool := false
  isVariadic : Bool := false
  params : List Operand
  ret : Ty
  body : List Instr
  registers : Registers := .empty
deriving DecidableEq, Repr

namespace Method

/-- The sequential layout of a method. -/
def sequential (method : Method) : Registers :=
  .sequential method.isStatic method.params method.body

/-- Give a method its sequential layout in place of the one it has. -/
def assignRegisters (method : Method) : Method :=
  { method with registers := method.sequential }

/-- The layout in force: the one given, or else the sequential one. -/
def layout (method : Method) : Registers :=
  if method.registers.isEmpty then method.sequential else method.registers

end Method

/-- A class of three-address code. -/
structure Class where
  name : String
  superName : Option String
  imports : List String
  fields : List Operand
  methods : List Method
deriving DecidableEq, Repr

namespace Class

/-- The first method of the given name. -/
def method? (unit : Class) (name : String) : Option Method :=
  unit.methods.find? fun method => method.name = name

/-- The first field of the given name. -/
def field? (unit : Class) (name : String) : Option Operand :=
  unit.fields.find? fun field => field.name = name

end Class

end MiniJava.Tac
