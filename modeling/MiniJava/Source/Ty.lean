/-!
# Source types

A source type is a name and an array flag, so arrays have one dimension and
every name is a type: `int`, `boolean` and `void` are primitive by their
spelling, everything else names a class.
-/

namespace MiniJava.Source

/-- A type as source code writes it. -/
structure Ty where
  name : String
  isArray : Bool
deriving DecidableEq, Repr

namespace Ty

/-- The type of 32-bit integers. -/
def int : Ty := ⟨"int", false⟩

/-- The type of truth values. -/
def boolean : Ty := ⟨"boolean", false⟩

/-- The result type of methods without a result. -/
def void : Ty := ⟨"void", false⟩

/-- The type named by a class. -/
def object (name : String) : Ty := ⟨name, false⟩

/-- The array type over the type of the given name. -/
def arrayOf (name : String) : Ty := ⟨name, true⟩

/-- The element type of an array type; any other type is its own element. -/
def element (ty : Ty) : Ty := ⟨ty.name, false⟩

def isInt (ty : Ty) : Bool := ty = int

def isBoolean (ty : Ty) : Bool := ty = boolean

def isVoid (ty : Ty) : Bool := ty = void

/-- Whether values of the type are integers or truth values. -/
def isPrimitive (ty : Ty) : Bool := ty.isInt || ty.isBoolean

/-- The spelling of a type. -/
def text (ty : Ty) : String := if ty.isArray then ty.name ++ "[]" else ty.name

end Ty

end MiniJava.Source
