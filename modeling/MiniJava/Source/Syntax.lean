import MiniJava.Operator
import MiniJava.Source.Ty

/-!
# Typed source programs

A program is one class with its imports.  Every expression carries the type
that analysis gave it.  That annotation is trusted and never recomputed: two
expressions that differ only in an annotation are different programs.  The
functions named `…Of` build an expression with the annotation that its parts
determine.
-/

namespace MiniJava.Source

/-- Binary operators of expressions. -/
inductive BinOp where
  | arith (op : Arith)
  | and
  | lt
deriving DecidableEq, Repr

namespace BinOp

/-- The source spelling of an operator. -/
def symbol : BinOp → String
  | arith op => op.symbol
  | and => "&&"
  | lt => "<"

/-- Whether an operator yields an integer rather than a truth value. -/
def isArith : BinOp → Bool
  | arith _ => true
  | _ => false

/-- The type of the operator's result. -/
def resultTy (op : BinOp) : Ty := if op.isArith then .int else .boolean

end BinOp

/-! ## Expressions -/

/-- Expressions; the last component of every form is its type annotation. -/
inductive Expr where
  | int (value : Int32) (ty : Ty)
  | bool (value : Bool) (ty : Ty)
  | this (ty : Ty)
  /-- A local, a parameter, a field or, as the receiver of a call, a class. -/
  | var (name : String) (ty : Ty)
  | binary (op : BinOp) (lhs rhs : Expr) (ty : Ty)
  | not (operand : Expr) (ty : Ty)
  | paren (inner : Expr) (ty : Ty)
  | newObject (className : String) (ty : Ty)
  | newArray (elem : Ty) (size : Expr) (ty : Ty)
  | arrayInit (items : List Expr) (ty : Ty)
  | index (array position : Expr) (ty : Ty)
  | length (array : Expr) (ty : Ty)
  | call (receiver : Expr) (method : String) (args : List Expr) (ty : Ty)

namespace Expr

/-- The type annotation of an expression. -/
def ty : Expr → Ty
  | int _ ty | bool _ ty | this ty | var _ ty | binary _ _ _ ty | not _ ty
  | paren _ ty | newObject _ ty | newArray _ _ ty | arrayInit _ ty
  | index _ _ ty | length _ ty | call _ _ _ ty => ty

/-- Replace the type annotation of an expression. -/
def retype (ty : Ty) : Expr → Expr
  | int value _ => .int value ty
  | bool value _ => .bool value ty
  | this _ => .this ty
  | var name _ => .var name ty
  | binary op lhs rhs _ => .binary op lhs rhs ty
  | not operand _ => .not operand ty
  | paren inner _ => .paren inner ty
  | newObject className _ => .newObject className ty
  | newArray elem size _ => .newArray elem size ty
  | arrayInit items _ => .arrayInit items ty
  | index array position _ => .index array position ty
  | length array _ => .length array ty
  | call receiver method args _ => .call receiver method args ty

@[simp]
theorem ty_retype (expr : Expr) (ty : Ty) : (expr.retype ty).ty = ty := by
  cases expr <;> rfl

/-- The referenced name, when the expression is a plain reference. -/
def varName? : Expr → Option String
  | var name _ => some name
  | _ => none

def intOf (value : Int32) : Expr := .int value .int

def boolOf (value : Bool) : Expr := .bool value .boolean

def thisOf (className : String) : Expr := .this (.object className)

def binaryOf (op : BinOp) (lhs rhs : Expr) : Expr :=
  .binary op lhs rhs op.resultTy

def notOf (operand : Expr) : Expr := .not operand .boolean

def parenOf (inner : Expr) : Expr := .paren inner inner.ty

def newObjectOf (className : String) : Expr :=
  .newObject className (.object className)

/-- Arrays have one dimension: only the name of the element type counts. -/
def newArrayOf (elem : Ty) (size : Expr) : Expr :=
  .newArray elem size (.arrayOf elem.name)

def arrayInitOf (elem : Ty) (items : List Expr) : Expr :=
  .arrayInit items (.arrayOf elem.name)

def indexOf (array position : Expr) : Expr :=
  .index array position array.ty.element

def lengthOf (array : Expr) : Expr := .length array .int

end Expr

/-! ## Statements -/

/-- Statements; both branches of a conditional are present. -/
inductive Stmt where
  | assign (target value : Expr)
  | ifElse (cond : Expr) (thenBranch elseBranch : Stmt)
  | whileLoop (cond : Expr) (body : Stmt)
  | expr (expr : Expr)
  | block (stmts : List Stmt)
  | ret (value : Option Expr)

/-- Whether a statement is itself a return. -/
def Stmt.isReturn : Stmt → Bool
  | ret _ => true
  | _ => false

/-! ## Declarations -/

/-- A named and typed entity: a field, a parameter or a local variable. -/
structure Var where
  name : String
  ty : Ty
deriving DecidableEq, Repr

/-- A parameter.  The type of a variadic one is the array its method sees. -/
structure Param extends Var where
  isVariadic : Bool
deriving DecidableEq, Repr

/-- A plain parameter. -/
def Param.plain (name : String) (ty : Ty) : Param := ⟨⟨name, ty⟩, false⟩

/-- A variadic parameter given by the type of one argument. -/
def Param.variadic (name : String) (elem : Ty) : Param :=
  ⟨⟨name, .arrayOf elem.name⟩, true⟩

/-- A method with its parameters, its local variables and its body. -/
structure MethodDecl where
  name : String
  isPublic : Bool
  isStatic : Bool
  params : List Param
  ret : Ty
  locals : List Var
  body : List Stmt

/-- A method is variadic when its last parameter is. -/
def MethodDecl.isVariadic (method : MethodDecl) : Bool :=
  method.params.getLast?.any (·.isVariadic)

/-- A class declaration. -/
structure ClassDecl where
  name : String
  superName : Option String
  fields : List Var
  methods : List MethodDecl

/-- A compilation unit: the imports and one class. -/
structure Program where
  imports : List String
  decl : ClassDecl

end MiniJava.Source
