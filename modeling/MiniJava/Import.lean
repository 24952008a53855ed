/-!
# Imports

An import is a dotted path such as `java.util.List`.  Source code refers to
the class by its simple name, the last segment of the path; the machine knows
it by its internal name, the path with slashes for dots.

Two questions are asked of a list of imports.  `resolve?` asks which import a
simple name denotes, and so counts a path of one segment as an import of that
segment.  `qualify` asks for the internal name to print, and looks for a path
that ends in a dot and the name; a path of one segment has no dot and leaves
the name as it is, which is the same text.
-/

namespace MiniJava.Import

/-- The last dotted segment of a path. -/
def simpleName (path : String) : String :=
  .ofList (path.toList.reverse.takeWhile (· ≠ '.')).reverse

/-- The path with slashes for dots. -/
def internalName (path : String) : String :=
  path.map fun c => if c = '.' then '/' else c

/-- Whether a path ends in a dot followed by the name. -/
def qualifies (path name : String) : Bool :=
  ('.' :: name.toList).isSuffixOf path.toList

/-- The first import whose last segment is the name. -/
def resolve? (imports : List String) (name : String) : Option String :=
  imports.find? fun path => simpleName path = name

/-- The internal name of a class, through the first import that qualifies it. -/
def qualify (imports : List String) (name : String) : String :=
  match imports.find? fun path => qualifies path name with
  | some path => internalName path
  | none => name

/-- The internal name of the class at the root of every hierarchy. -/
def rootClass : String := "java/lang/Object"

/-- The internal name of a declared superclass; a class that declares none, or
`Object`, extends the root class. -/
def superclass (imports : List String) : Option String → String
  | none => rootClass
  | some name => if name = "Object" then rootClass else qualify imports name

example : resolve? ["io", "java.util.List"] "List" = some "java.util.List" := by
  decide
example : resolve? ["io", "java.util.List"] "util" = none := by decide
example : qualify ["io", "java.util.List"] "io" = "io" := by decide

end MiniJava.Import
