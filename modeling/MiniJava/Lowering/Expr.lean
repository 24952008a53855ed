import MiniJava.Lowering.Dispatch
import MiniJava.Lowering.Gen

/-!
# Lowering expressions

`lowerExpr` lowers an expression in a position.  It writes the instructions that
must run first and yields what is left to do with the expression.  Operands are
lowered from left to right and brought down to variables and literals, so every
operation works on those.  Truth values of conjunctions and comparisons are
produced by control flow: the right operand of a conjunction runs only if the
left one holds.

A field on the left of an assignment is left waiting for its value.  Where a value
is wanted instead, such a field is refused, and so is an operator on truth values
that is taken for arithmetic.

The rules that put lowered parts together do not depend on whether lowering the
parts may fail.  They hold in every monad into which generators lift.
-/

namespace MiniJava.Lowering

open Source (Expr Scope MethodEntry)
open Tac Gen

/-! ## Positions -/

/-- Where an expression stands. -/
inductive Position where
  | operand
  | rhs
  | target
  | statement
deriving DecidableEq, Repr

/-- What is left to do with an expression once its instructions have run. -/
inductive Lowered where
  | value (elem : Element)
  | bare (rhs : Rhs)
  | fieldStore (object field : Operand)
deriving DecidableEq, Repr

/-- Bring a lowered expression down to one variable or literal.  A bare expression
goes into a temporary of the given type. -/
def Lowered.toElement (ty : Ty) : Lowered → Attempt Element
  | value elem => pure elem
  | bare (.element elem) => pure elem
  | bare rhs => store rhs ty
  | fieldStore _ field => throw (.unsupported (.pendingField field.name))

/-- Leave an expression bare on the right of an assignment, and store it in a
temporary elsewhere. -/
def finish (position : Position) (rhs : Rhs) : Gen Lowered :=
  if position = .rhs then pure (.bare rhs) else .value <$> store rhs rhs.ty

/-! ## Rules over lowered parts -/

/-- The receiver of the method under compilation. -/
def receiverOf (scope : Scope) : Operand :=
  ⟨thisName, .object scope.symbols.className⟩

/-- Read a name: a variable stands for itself, a field is fetched. -/
def readName (scope : Scope) (name : String) (ty : Ty) : Gen Element :=
  if scope.isField name then
    store (.getField (receiverOf scope) ⟨name, ty⟩) ty
  else
    pure (.var name ty)

/-- Lower a name.  A field that is assigned to is not read. -/
def lowerName (scope : Scope) (position : Position) (name : String) (ty : Ty) : Gen Lowered :=
  if scope.isField name && position = .target then
    pure (.fieldStore (receiverOf scope) ⟨name, ty⟩)
  else
    .value <$> readName scope name ty

/-- Allocate an object and run its constructor. -/
def construct (className : String) : Gen Element := do
  let result ← temp (.object className)
  emit (.set result (.new className))
  emit (.call
    { kind := .special, target := .object result, method := "<init>",
      args := [], ret := .void })
  return .operand result

section
variable {m : Type → Type} [Monad m] [MonadLiftT Gen m]

/-- A truth value that is false unless the branch on `cond` is taken and
`onTrue` then yields it. -/
def chosen (cond : Rhs) (onTrue : m Element) : m Element := do
  let whenTrue ← label .onTrue
  emit (.branch cond whenTrue)
  let result ← temp .bool
  emit (.set result (.element (.bool false)))
  let done ← label .join
  emit (.goto done)
  emit (.label whenTrue)
  let value ← onTrue
  emit (.set result (.element value))
  emit (.label done)
  return .operand result

/-- The conjunction of two operands; the right one runs only if the left one
holds. -/
def conjunction (lhs rhs : m Element) : m Element := do
  let left ← lhs
  chosen (.element left) rhs

/-- Whether the left operand is less than the right one. -/
def comparison (lhs rhs : m Element) : m Element := do
  let left ← lhs
  let right ← rhs
  chosen (.binary .lt left right) (pure (.bool true))

/-- Store items into consecutive cells of an array, each right after it was
computed. -/
def fill (array : Operand) : Nat → List (m Element) → m Unit
  | _, [] => pure ()
  | position, item :: rest => do
      let value ← item
      let cell := Cell.of array (.int (.ofNat position))
      emit (.assign (.cell cell) cell.elemTy (.element value))
      fill array (position + 1) rest

/-- Allocate an array for the items and fill it in order.  An array without
items is only allocated. -/
def pack (elemTy : Ty) (items : List (m Element)) : m Element := do
  let size := Element.int (.ofNat items.length)
  let fresh ← store (.newArray size (.array elemTy)) (.array elemTy)
  if items.isEmpty then
    return fresh
  let array ← holder (.array elemTy)
  emit (.set array (.element fresh))
  fill array 0 items
  return .operand array

/-- The cell of an array at an index. -/
def cellOf (array index : m Element) : m Cell := do
  let base ← array >>= fun elem => toVariable elem
  let position ← index
  return .of base position

end

/-! ## Calls -/

/-- What a call is made on, and whether that is the class under compilation. -/
structure Reached where
  kind : CallKind
  target : Target
  isOwn : Bool

section
variable {m : Type → Type} [Monad m] [MonadLiftT Gen m]

/-- Evaluate the receiver of a call as far as its dispatch asks. -/
def reach (scope : Scope) (receiver : Expr) (object : m Element)
    (method : String) : m Reached :=
  match Dispatch.ofReceiver scope receiver with
  | .onValue => do
      let object ← object >>= fun elem => toVariable elem
      return ⟨.virtual, .object object,
        object.ty.className? = some scope.symbols.className⟩
  | .onClass name =>
      pure ⟨.static, .className name, name = scope.symbols.className⟩
  | .assumed name => do
      note (.assumedStatic name method scope.method.name)
      return ⟨.static, .className name, false⟩

/-- Evaluate the arguments of a call from left to right, packing the trailing
ones if the method is variadic. -/
def passArgs (callee : Option MethodEntry) (argTys : List Source.Ty)
    (args : List (m Element)) : m (List Element) :=
  match callee.bind fun entry => packing? entry argTys with
  | none => inOrder args
  | some (fixed, elemTy) => do
      let direct ← inOrder (args.take fixed)
      let packed ← pack (.ofSource elemTy) (args.drop fixed)
      return direct ++ [packed]

/-- The call of a method.  The result type of a method of the class under
compilation is the declared one; of any other method it is `otherRet`. -/
def invoke (scope : Scope) (receiver : Expr) (object : m Element)
    (method : String) (argTys : List Source.Ty) (args : List (m Element))
    (otherRet : Ty) : m Call := do
  let reached ← reach scope receiver object method
  let callee := if reached.isOwn then scope.symbols.method? method else none
  let args ← passArgs callee argTys args
  let ret := match callee with
    | some entry => .ofSource entry.ret
    | none => otherRet
  return ⟨reached.kind, reached.target, method, args, ret⟩

end

/-! ## Expressions -/

/-- Compute with integers.  Other operators have rules of their own. -/
def arithmetic (position : Position) (op : Source.BinOp) (lhs rhs : Attempt Element) :
    Attempt Lowered :=
  match op with
  | .arith op => do
      let left ← lhs
      let right ← rhs
      finish position (.binary (.arith op) left right)
  | op => throw (.unsupported (.arithmetic op))

/-- Bring an expression that was lowered as an operand down to a variable or
literal. -/
def settled (expr : Expr) (lowered : Attempt Lowered) : Attempt Element := do
  (← lowered).toElement (.ofSource expr.ty)

mutual

/-- Lower an expression in the given position.  Its parts are always lowered as
operands. -/
def lowerExpr (scope : Scope) (position : Position) : Expr → Attempt Lowered
  | .int value _ => pure (.value (.int value))
  | .bool value _ => pure (.value (.bool value))
  | .this _ => pure (.value (.operand (receiverOf scope)))
  | .var name ty => lowerName scope position name (.ofSource ty)
  | .binary .and lhs rhs _ =>
      .value <$> conjunction (settled lhs (lowerExpr scope .operand lhs))
        (settled rhs (lowerExpr scope .operand rhs))
  | .binary .lt lhs rhs _ =>
      .value <$> comparison (settled lhs (lowerExpr scope .operand lhs))
        (settled rhs (lowerExpr scope .operand rhs))
  | .binary op lhs rhs _ =>
      arithmetic position op (settled lhs (lowerExpr scope .operand lhs))
        (settled rhs (lowerExpr scope .operand rhs))
  | .not operand _ => do
      let value ← settled operand (lowerExpr scope .operand operand)
      finish position (.not value)
  | .paren inner _ => lowerExpr scope .operand inner
  | .newObject className _ => .value <$> construct className
  | .newArray elem size _ => do
      let size ← settled size (lowerExpr scope .operand size)
      finish position (.newArray size (.array (.ofSource elem)))
  | .arrayInit items ty => .value <$> pack (.ofSource ty.element) (lowerOperands scope items)
  | .index array offset _ => do
      let cell ← cellOf (settled array (lowerExpr scope .operand array))
        (settled offset (lowerExpr scope .operand offset))
      if position = .target then
        return .bare (.index cell)
      finish position (.index cell)
  | .length array _ => do
      let elem ← settled array (lowerExpr scope .operand array)
      let base ← toVariable elem
      .value <$> store (.length base) .int
  | .call receiver method args ty => do
      let otherRet := if position = .statement then .void else .ofSource ty
      let call ← invoke scope receiver (settled receiver (lowerExpr scope .operand receiver))
        method (args.map Expr.ty) (lowerOperands scope args) otherRet
      -- A call whose value is not used is handed back to be made without a result.
      if position = .statement then
        return .bare (.call call)
      .value <$> store (.call call) call.ret

/-- Lower each expression of a list to a variable or literal. -/
def lowerOperands (scope : Scope) : List Expr → List (Attempt Element)
  | [] => []
  | expr :: rest => settled expr (lowerExpr scope .operand expr) :: lowerOperands scope rest

end

/-- Lower an expression to a variable or literal. -/
def lowerOperand (scope : Scope) (expr : Expr) : Attempt Element :=
  settled expr (lowerExpr scope .operand expr)

end MiniJava.Lowering
