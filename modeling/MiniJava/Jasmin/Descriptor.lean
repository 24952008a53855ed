import MiniJava.Import
import MiniJava.Tac.Ty

/-!
# Machine descriptors

A descriptor is the machine's name of a type, with classes given by their
internal names.  A method descriptor writes those of the parameters one after
another, without anything between them.
-/

namespace MiniJava.Jasmin

/-- The machine's view of a type. -/
inductive Descriptor where
  | int
  | boolean
  | void
  | object (internalName : String)
  | array (elem : Descriptor)
deriving DecidableEq, Repr

namespace Descriptor

/-- The internal name of the class of character strings. -/
def stringClass : String := "java/lang/String"

/-- The descriptor of a type whose class names are resolved by the imports. -/
def ofTy (imports : List String) : Tac.Ty → Descriptor
  | .int => int
  | .bool => boolean
  | .void => void
  | .string => object stringClass
  | .object className => object (Import.qualify imports className)
  | .array elem => array (ofTy imports elem)

def isVoid : Descriptor → Bool
  | void => true
  | _ => false

/-- The spelling of a descriptor. -/
def text : Descriptor → String
  | int => "I"
  | boolean => "Z"
  | void => "V"
  | object internalName => "L" ++ internalName ++ ";"
  | array elem => "[" ++ elem.text

end Descriptor

/-- The machine's view of a method's parameters and result. -/
structure MethodDescriptor where
  params : List Descriptor
  ret : Descriptor
deriving DecidableEq, Repr

namespace MethodDescriptor

/-- The descriptor of a method with the given types. -/
def ofTys (imports : List String) (params : List Tac.Ty) (ret : Tac.Ty) :
    MethodDescriptor where
  params := params.map (Descriptor.ofTy imports)
  ret := .ofTy imports ret

/-- The spelling of a method descriptor. -/
def text (descriptor : MethodDescriptor) : String :=
  "(" ++ .join (descriptor.params.map Descriptor.text) ++ ")"
    ++ descriptor.ret.text

end MethodDescriptor

end MiniJava.Jasmin
