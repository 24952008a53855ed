import MiniJava.Source.Ty

/-!
# Types of three-address code

Three-address code annotates every operand with a type, written as a suffix:
`.i32`, `.bool`, `.V`, `.String`, `.Foo`, `.array.i32`.  Unlike source types
these nest, and primitive types are told apart by constructor and not by name:
a class may well be called `i32`.
-/

namespace MiniJava.Tac

/-- Types of three-address operands. -/
inductive Ty where
  | int
  | bool
  | void
  | string
  | object (className : String)
  | array (elem : Ty)
deriving DecidableEq, Repr

namespace Ty

/-- The type that a source name stands for; unknown names are classes. -/
def ofName (name : String) : Ty :=
  if name = "int" then int
  else if name = "boolean" then bool
  else if name = "void" then void
  else if name = "String" then string
  else object name

/-- The three-address type of a source type. -/
def ofSource (ty : Source.Ty) : Ty :=
  if ty.isArray then array (ofName ty.name) else ofName ty.name

def isVoid : Ty → Bool
  | void => true
  | _ => false

/-- Whether values of the type are references on the machine. -/
def isReference : Ty → Bool
  | string | object _ | array _ => true
  | _ => false

def isArray : Ty → Bool
  | array _ => true
  | _ => false

/-- The element type of an array type. -/
def element? : Ty → Option Ty
  | array elem => some elem
  | _ => none

/-- The class of an object type. -/
def className? : Ty → Option String
  | object className => some className
  | _ => none

/-- The suffix that annotates an operand of the type. -/
def text : Ty → String
  | int => ".i32"
  | bool => ".bool"
  | void => ".V"
  | string => ".String"
  | object className => "." ++ className
  | array elem => ".array" ++ elem.text

example : (ofSource (.arrayOf "int")).text = ".array.i32" := by decide

end Ty

end MiniJava.Tac
