import MiniJava.Jasmin.Instr

/-!
# Assembly files

An assembly file declares a class, its fields, a default constructor and its
methods.  Each method declares how high its stack grows and how many slots it
uses.
-/

namespace MiniJava.Jasmin

/-- An assembled method. -/
structure Method where
  name : String
  isPublic : Bool
  isStatic : Bool
  descriptor : MethodDescriptor
  stackLimit : Nat
  localsLimit : Nat
  code : List Instr
deriving DecidableEq, Repr

/-- A field of an assembled class. -/
structure Field where
  name : String
  descriptor : Descriptor
deriving DecidableEq, Repr

/-- An assembled class; `superName` is an internal name. -/
structure Class where
  name : String
  superName : String
  fields : List Field
  methods : List Method
deriving DecidableEq, Repr

/-- The text of a method. -/
def Method.text (indent : String) (method : Method) : String :=
  ".method "
    ++ (if method.isPublic then "public " else "")
    ++ (if method.isStatic then "static " else "")
    ++ method.name ++ method.descriptor.text ++ "\n"
    ++ indent ++ ".limit stack " ++ Nat.repr method.stackLimit ++ "\n"
    ++ indent ++ ".limit locals " ++ Nat.repr method.localsLimit ++ "\n"
    ++ .join (method.code.map (Instr.line indent))
    ++ ".end method\n"

/-- The text of a field. -/
def Field.text (field : Field) : String :=
  ".field public " ++ field.name ++ " " ++ field.descriptor.text ++ "\n"

/-- The code of the default constructor: it only runs that of the superclass. -/
def Class.constructorCode (unit : Class) : List Instr :=
  [.load .ref 0, .invoke .special unit.superName "<init>" ⟨[], .void⟩, .ret none]

/-- The text of a class. -/
def Class.text (indent : String) (unit : Class) : String :=
  ".class public " ++ unit.name ++ "\n"
    ++ ".super " ++ unit.superName ++ "\n\n"
    ++ .join (unit.fields.map Field.text)
    ++ (if unit.fields.isEmpty then "" else "\n")
    ++ ";default constructor\n.method public <init>()V\n"
    ++ .join (unit.constructorCode.map (Instr.line indent))
    ++ ".end method\n"
    ++ .join (unit.methods.map fun method => "\n" ++ method.text indent)

end MiniJava.Jasmin
