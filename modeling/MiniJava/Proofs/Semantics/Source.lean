import MiniJava.Lowering.Dispatch
import MiniJava.Proofs.Semantics.World

/-!
# The meaning of source programs

Expressions are evaluated from left to right.  They can change fields and
arrays through calls, but never a local variable, so evaluation is a total
function of the variables and an effect on the world.  Statements may run
forever and are given by a relation between the states before and after a run
that finishes.

*Names.*  A name denotes a field exactly if the class declares it and the
method does not; any other name denotes a variable.

*Calls.*  The dispatch rules decide whether the receiver is a value or a class.
A receiver that falls under no rule is evaluated like any other expression
unless it is a plain name, which is taken for a class.  The declared method is
known only if the receiver is of the class under compilation; what its parts
determine counts there, and not the annotation (`typeOf`).

*Arrays.*  An array literal, and the array that collects the trailing arguments
of a variadic call (`collected?`), is allocated first and then filled item by item.  Sizes and
positions are 32-bit integers like all others.
-/

namespace MiniJava.Semantics

open Source (Expr Stmt Scope MethodEntry)
open Lowering (Dispatch)
open Tac (Ty CallKind)

/-! ## Methods and receivers -/

/-- A method as source code refers to it: how it is selected, the class that a
static call names, and the name of the method. -/
structure Member where
  kind : CallKind
  className : Option String
  name : String
deriving DecidableEq, Repr

/-- The constructor that runs on a new object. -/
def Member.constructor : Member := ⟨.special, none, "<init>"⟩

/-- Whether a call is made on the class under compilation. -/
def isOwn (scope : Scope) (receiver : Expr) (receiverTy : Ty) : Bool :=
  match Dispatch.ofReceiver scope receiver with
  | .onValue => receiverTy.className? = some scope.symbols.className
  | .onClass name => name = scope.symbols.className
  | .assumed _ => false

/-- The declaration that a call refers to, if it is one of the class under
compilation. -/
def ownMethod? (scope : Scope) (receiver : Expr) (receiverTy : Ty) (method : String) :
    Option MethodEntry :=
  if isOwn scope receiver receiverTy then scope.symbols.method? method else none

/-- The type of an expression as its parts determine it.  Annotations count
where there is nothing else: at names, at array literals and at the results of
methods that are not declared here. -/
def typeOf (scope : Scope) : Expr → Ty
  | .int _ _ => .int
  | .bool _ _ => .bool
  | .this _ => .object scope.symbols.className
  | .var _ ty => .ofSource ty
  | .binary (.arith _) _ _ _ => .int
  | .binary .and _ _ _ => .bool
  | .binary .lt _ _ _ => .bool
  | .not _ _ => .bool
  | .paren inner _ => typeOf scope inner
  | .newObject className _ => .object className
  | .newArray elem _ _ => .array (.ofSource elem)
  | .arrayInit _ ty => .array (.ofSource ty.element)
  | .index array _ _ => (typeOf scope array).element?.getD .int
  | .length _ _ => .int
  | .call receiver method _ ty =>
      match ownMethod? scope receiver (typeOf scope receiver) method with
      | some entry => .ofSource entry.ret
      | none => .ofSource ty

/-! ## Expressions -/

/-- Effects of source programs: fields are known by their names. -/
abbrev Effect (α : Type) : Type := Exec Member String α

/-- The variables of a method under execution. -/
structure Env where
  receiver : Value
  locals : String → Value

/-- Write items into consecutive cells of an array, each right after it was
evaluated. -/
def fill (array : Value) : Nat → List (Effect Value) → Effect Unit
  | _, [] => pure ()
  | position, item :: rest => do
      let value ← item
      Exec.storeCell array (.int (.ofNat position)) value
      fill array (position + 1) rest

/-- Allocate an array and fill it with the items. -/
def pack (elemTy : Ty) (items : List (Effect Value)) : Effect Value := do
  let array ← Exec.newArray (.initial elemTy) (.int (.ofNat items.length))
  fill array 0 items
  return array

/-- Evaluate the receiver of a call: how the method is selected, the class that
is named, and the object. -/
def reach (scope : Scope) (receiver : Expr) (object : Effect Value) :
    Effect (CallKind × Option String × Option Value) :=
  match Dispatch.ofReceiver scope receiver with
  | .onValue => do return (.virtual, none, some (← object))
  | .onClass name => pure (.static, some name, none)
  | .assumed name =>
      if receiver.varName?.isSome then pure (.static, some name, none)
      else do
        let _ ← object
        return (.static, some name, none)

/-- How a method collects the trailing arguments of a call: how many others come
before them, and the type of each.  Only a variadic method collects arguments,
namely those behind its other parameters.  A single array of the declared type is
passed on instead. -/
def collected? (callee : MethodEntry) (argTys : List Source.Ty) : Option (Nat × Source.Ty) :=
  match callee.isVariadic, callee.params.getLast? with
  | true, some last =>
      let others := callee.params.dropLast.length
      if others ≤ argTys.length ∧ argTys.drop others ≠ [last.ty] then
        some (others, last.ty.element)
      else none
  | _, _ => none

/-- Evaluate arguments from left to right, collecting the trailing ones of a
variadic method in an array. -/
def passArgs (callee : Option MethodEntry) (argTys : List Source.Ty)
    (args : List (Effect Value)) : Effect (List Value) :=
  match callee.bind fun entry => collected? entry argTys with
  | none => Exec.inOrder args
  | some (others, elemTy) => do
      let direct ← Exec.inOrder (args.take others)
      let packed ← pack (.ofSource elemTy) (args.drop others)
      return direct ++ [packed]

/-- The call that an expression makes once its parts are evaluated. -/
def request (scope : Scope) (receiver : Expr) (object : Effect Value) (method : String)
    (argTys : List Source.Ty) (args : List (Effect Value)) :
    Effect (Request Member) := do
  let (kind, className, object) ← reach scope receiver object
  let callee := ownMethod? scope receiver (typeOf scope receiver) method
  let args ← passArgs callee argTys args
  return ⟨⟨kind, className, method⟩, object, args⟩

section
variable (oracle : Oracle Member String) (scope : Scope) (env : Env)

mutual

/-- The value of an expression. -/
def eval : Expr → Effect Value
  | .int value _ => pure (.int value)
  | .bool value _ => pure (.ofBool value)
  | .this _ => pure env.receiver
  | .var name _ =>
      if scope.isField name then Exec.getField env.receiver name
      else pure (env.locals name)
  | .binary (.arith op) lhs rhs _ => do
      let left ← eval lhs
      let right ← eval rhs
      Exec.arith op left right
  | .binary .and lhs rhs _ => do
      let left ← eval lhs
      if ← Exec.truth left then eval rhs else return .ofBool false
  | .binary .lt lhs rhs _ => do
      let left ← eval lhs
      let right ← eval rhs
      return .ofBool (← Exec.less left right)
  | .not operand _ => do
      let value ← eval operand
      Exec.negate value
  | .paren inner _ => eval inner
  | .newObject className _ => do
      let object ← Exec.newObject className
      let _ ← Exec.invoke oracle ⟨.constructor, some object, []⟩
      return object
  | .newArray elem size _ => do
      let size ← eval size
      Exec.newArray (.initial (.ofSource elem)) size
  | .arrayInit items ty => pack (.ofSource ty.element) (evalEach items)
  | .index array position _ => do
      let array ← eval array
      let position ← eval position
      Exec.loadCell array position
  | .length array _ => do
      let array ← eval array
      Exec.length array
  | .call receiver method args _ => do
      let request ← request scope receiver (eval receiver) method (args.map Expr.ty)
        (evalEach args)
      Exec.invoke oracle request

/-- The effects that yield the values of expressions. -/
def evalEach : List Expr → List (Effect Value)
  | [] => []
  | expr :: rest => eval expr :: evalEach rest

end

end

/-! ## What expressions mention -/

/-- Whether the receiver of a call names a class rather than an object. -/
def namesClass (scope : Scope) (receiver : Expr) : Bool :=
  match Dispatch.ofReceiver scope receiver with
  | .onValue => false
  | .onClass _ => true
  | .assumed _ => receiver.varName?.isSome

section
variable (scope : Scope)

mutual

/-- The variables whose values an expression may read; fields and classes are
none. -/
def variablesOf : Expr → List String
  | .int _ _ | .bool _ _ | .this _ | .newObject _ _ => []
  | .var name _ => if scope.isField name then [] else [name]
  | .binary _ lhs rhs _ => variablesOf lhs ++ variablesOf rhs
  | .not operand _ => variablesOf operand
  | .paren inner _ => variablesOf inner
  | .newArray _ size _ => variablesOf size
  | .arrayInit items _ => variablesOfAll items
  | .index array position _ => variablesOf array ++ variablesOf position
  | .length array _ => variablesOf array
  | .call receiver _ args _ =>
      (if namesClass scope receiver then [] else variablesOf receiver)
        ++ variablesOfAll args

/-- The variables whose values some of the expressions may read. -/
def variablesOfAll : List Expr → List String
  | [] => []
  | expr :: rest => variablesOf expr ++ variablesOfAll rest

end

mutual

/-- The receivers in an expression that fall under no dispatch rule. -/
def assumedReceivers : Expr → List Expr
  | .int _ _ | .bool _ _ | .this _ | .newObject _ _ | .var _ _ => []
  | .binary _ lhs rhs _ => assumedReceivers lhs ++ assumedReceivers rhs
  | .not operand _ => assumedReceivers operand
  | .paren inner _ => assumedReceivers inner
  | .newArray _ size _ => assumedReceivers size
  | .arrayInit items _ => assumedReceiversOfAll items
  | .index array position _ => assumedReceivers array ++ assumedReceivers position
  | .length array _ => assumedReceivers array
  | .call receiver _ args _ =>
      (match Dispatch.ofReceiver scope receiver with
        | .assumed _ => [receiver]
        | _ => [])
        ++ assumedReceivers receiver ++ assumedReceiversOfAll args

/-- The receivers in some of the expressions that fall under no rule. -/
def assumedReceiversOfAll : List Expr → List Expr
  | [] => []
  | expr :: rest => assumedReceivers expr ++ assumedReceiversOfAll rest

end

end

/-! ## What statements contain -/

mutual

/-- A statement and all statements inside it. -/
def subStmts : Stmt → List Stmt
  | .assign target value => [.assign target value]
  | .ifElse cond thenBranch elseBranch =>
      .ifElse cond thenBranch elseBranch :: (subStmts thenBranch ++ subStmts elseBranch)
  | .whileLoop cond body => .whileLoop cond body :: subStmts body
  | .expr expr => [.expr expr]
  | .block stmts => .block stmts :: subStmtsOfAll stmts
  | .ret value => [.ret value]

/-- The statements of a list and all statements inside them. -/
def subStmtsOfAll : List Stmt → List Stmt
  | [] => []
  | stmt :: rest => subStmts stmt ++ subStmtsOfAll rest

end

/-- The expressions that a statement itself holds. -/
def exprsOf : Stmt → List Expr
  | .assign target value => [target, value]
  | .ifElse cond _ _ => [cond]
  | .whileLoop cond _ => [cond]
  | .expr expr => [expr]
  | .block _ => []
  | .ret value => value.toList

/-- The expression that is assigned to. -/
def targetOf? : Stmt → Option Expr
  | .assign target _ => some target
  | _ => none

/-- The expression whose value is returned. -/
def returnOf? : Stmt → Option Expr
  | .ret value => value
  | _ => none

/-- Whether an expression is a plain name or an array access. -/
def isPlace : Expr → Bool
  | .var _ _ | .index _ _ _ => true
  | _ => false

/-! ## Statements -/

/-- How a statement ends. -/
inductive Flow where
  /-- The next statement follows. -/
  | normal
  /-- The method is left, possibly with a value. -/
  | returned (value : Option Value)
deriving DecidableEq, Repr

/-- The value that is left to the caller. -/
def Flow.value? : Flow → Option Value
  | .normal => none
  | .returned value => value

/-- Give a variable a value. -/
def Env.set (env : Env) (name : String) (value : Value) : Env :=
  { env with locals := fun other => if other = name then value else env.locals other }

/-- Whether a condition holds. -/
def holds (oracle : Oracle Member String) (scope : Scope) (env : Env) (cond : Expr) :
    Effect Bool :=
  eval oracle scope env cond >>= Exec.truth

/-- Runs of statements that finish, with the state before and after. -/
inductive Run (oracle : Oracle Member String) (scope : Scope) :
    Stmt → Env → World Member String → Flow → Env → World Member String → Prop where
  | assignVar :
      scope.isField name = false →
      eval oracle scope env value world = (.ok result, after) →
      Run oracle scope (.assign (.var name ty) value) env world
        .normal (env.set name result) after
  | assignField :
      scope.isField name = true →
      (do let result ← eval oracle scope env value
          Exec.putField env.receiver name result) world = (.ok (), after) →
      Run oracle scope (.assign (.var name ty) value) env world .normal env after
  /-- The array and the position are evaluated before the value. -/
  | assignCell :
      (do let array ← eval oracle scope env array
          let position ← eval oracle scope env position
          let result ← eval oracle scope env value
          Exec.storeCell array position result) world = (.ok (), after) →
      Run oracle scope (.assign (.index array position ty) value) env world
        .normal env after
  /-- Parentheses around a target mean nothing. -/
  | assignParen :
      Run oracle scope (.assign target value) env world flow env' after →
      Run oracle scope (.assign (.paren target ty) value) env world flow env' after
  | ifTrue :
      holds oracle scope env test world = (.ok true, between) →
      Run oracle scope thenBranch env between flow env' after →
      Run oracle scope (.ifElse test thenBranch elseBranch) env world flow env' after
  | ifFalse :
      holds oracle scope env test world = (.ok false, between) →
      Run oracle scope elseBranch env between flow env' after →
      Run oracle scope (.ifElse test thenBranch elseBranch) env world flow env' after
  | whileFalse :
      holds oracle scope env test world = (.ok false, after) →
      Run oracle scope (.whileLoop test body) env world .normal env after
  | whileTrue :
      holds oracle scope env test world = (.ok true, start) →
      Run oracle scope body env start .normal env₁ between →
      Run oracle scope (.whileLoop test body) env₁ between flow env₂ after →
      Run oracle scope (.whileLoop test body) env world flow env₂ after
  | whileReturned :
      holds oracle scope env test world = (.ok true, start) →
      Run oracle scope body env start (.returned value) env₁ after →
      Run oracle scope (.whileLoop test body) env world (.returned value) env₁ after
  | expr :
      eval oracle scope env e world = (.ok value, after) →
      Run oracle scope (.expr e) env world .normal env after
  | blockNil : Run oracle scope (.block []) env world .normal env world
  | blockCons :
      Run oracle scope first env world .normal env₁ between →
      Run oracle scope (.block rest) env₁ between flow env₂ after →
      Run oracle scope (.block (first :: rest)) env world flow env₂ after
  | blockReturned :
      Run oracle scope first env world (.returned value) env₁ after →
      Run oracle scope (.block (first :: rest)) env world (.returned value) env₁ after
  | retNone : Run oracle scope (.ret none) env world (.returned none) env world
  | retSome :
      eval oracle scope env e world = (.ok value, after) →
      Run oracle scope (.ret (some e)) env world (.returned (some value)) env after

end MiniJava.Semantics
