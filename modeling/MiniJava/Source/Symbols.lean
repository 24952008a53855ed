import MiniJava.Import
import MiniJava.Source.Syntax
import MiniJava.Table

/-!
# Symbol tables

A symbol table lists what the class under compilation declares.  It is usually
collected from the program, where the last of several declarations of one name
wins, but lowering takes any table, also one that disagrees with the program.
A scope is a table together with the method whose body is being read.
-/

namespace MiniJava.Source

/-! ## Method entries -/

/-- What a symbol table knows of a method. -/
structure MethodEntry where
  name : String
  isStatic : Bool
  isVariadic : Bool
  ret : Ty
  params : List Var
  locals : List Var
deriving DecidableEq, Repr

namespace MethodEntry

/-- The entry of a declared method. -/
def ofDecl (method : MethodDecl) : MethodEntry where
  name := method.name
  isStatic := method.isStatic
  isVariadic := method.isVariadic
  ret := method.ret
  params := method.params.map Param.toVar
  locals := method.locals

/-- The first parameter of the given name. -/
def param? (method : MethodEntry) (name : String) : Option Var :=
  method.params.find? fun param => param.name = name

/-- The first local variable of the given name. -/
def local? (method : MethodEntry) (name : String) : Option Var :=
  method.locals.find? fun entry => entry.name = name

/-- What a name denotes inside the method: a local, else a parameter. -/
def lookup? (method : MethodEntry) (name : String) : Option Var :=
  (method.local? name).orElse fun _ => method.param? name

/-- Whether a name is a parameter or a local, and so hides a field. -/
def declares (method : MethodEntry) (name : String) : Bool :=
  (method.param? name).isSome || (method.local? name).isSome

/-- The type of the variadic parameter. -/
def variadicTy? (method : MethodEntry) : Option Ty :=
  if method.isVariadic then method.params.getLast?.map Var.ty else none

/-- The number of parameters before the variadic one. -/
def fixedArity (method : MethodEntry) : Nat :=
  if method.isVariadic then method.params.length - 1 else method.params.length

/-- The signature as source code writes it. -/
def text (method : MethodEntry) : String :=
  let params := method.params.map fun param => param.ty.text ++ " " ++ param.name
  method.ret.text ++ " " ++ method.name ++ "(" ++ ", ".intercalate params ++ ")"

end MethodEntry

/-! ## Tables -/

/-- The declarations of one class. -/
structure SymbolTable where
  className : String
  superName : Option String
  imports : List String
  fields : Table Var
  methods : Table MethodEntry
deriving DecidableEq, Repr

namespace SymbolTable

/-- The table of a program's own declarations. -/
def collect (program : Program) : SymbolTable where
  className := program.decl.name
  superName := program.decl.superName
  imports := program.imports
  fields := .ofList Var.name program.decl.fields
  methods := .ofList MethodEntry.name (program.decl.methods.map .ofDecl)

def field? (symbols : SymbolTable) (name : String) : Option Var :=
  symbols.fields.find? name

def method? (symbols : SymbolTable) (name : String) : Option MethodEntry :=
  symbols.methods.find? name

/-- The import that a simple class name denotes. -/
def import? (symbols : SymbolTable) (name : String) : Option String :=
  Import.resolve? symbols.imports name

def isImported (symbols : SymbolTable) (name : String) : Bool :=
  (symbols.import? name).isSome

/-- Whether a name is that of the declared superclass. -/
def isSuper (symbols : SymbolTable) (name : String) : Bool :=
  symbols.superName = some name

end SymbolTable

/-! ## Scopes -/

/-- The declarations visible in the body of one method. -/
structure Scope where
  symbols : SymbolTable
  method : MethodEntry

/-- Whether a name denotes a field: the class declares it and the method does
not hide it. -/
def Scope.isField (scope : Scope) (name : String) : Bool :=
  (scope.symbols.field? name).isSome && !scope.method.declares name

end MiniJava.Source
