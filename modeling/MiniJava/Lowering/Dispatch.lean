import MiniJava.Source.Symbols
import MiniJava.Tac.Ty

/-!
# Dispatch of calls

How a call reaches its method is decided from its receiver.  A receiver that
denotes a value gives a call on that value; a plain name that denotes no value
but a known class gives a call on the class.  A receiver that fits no rule is
taken for a class, named by the reference or else by the receiver's type; such
a receiver is not evaluated.

Trailing arguments of a variadic method are packed into one array, unless the
caller already passes an array of the parameter's type.
-/

namespace MiniJava.Lowering

open Source (Expr Scope MethodEntry)

/-- How a call reaches its method. -/
inductive Dispatch where
  /-- On the value of the receiver. -/
  | onValue
  /-- On a class that the receiver names. -/
  | onClass (name : String)
  /-- On a class that no declaration accounts for. -/
  | assumed (name : String)
deriving DecidableEq, Repr

namespace Dispatch

/-- The rule by the type of the receiver: objects of a known class are values. -/
def byType (scope : Scope) (receiver : Expr) : Dispatch :=
  let symbols := scope.symbols
  let name := receiver.ty.name
  if !receiver.ty.isArray && (name = symbols.className || symbols.isSuper name
      || symbols.isImported name) then
    .onValue
  else
    .assumed (receiver.varName?.getD name)

/-- The rule for a call on the given receiver. -/
def ofReceiver (scope : Scope) (receiver : Expr) : Dispatch :=
  match receiver with
  | .this _ => .onValue
  | .var name _ =>
      let symbols := scope.symbols
      if scope.method.declares name || (symbols.field? name).isSome then
        .onValue
      else if name = symbols.className || symbols.isImported name then
        .onClass name
      else
        byType scope receiver
  | _ => byType scope receiver

end Dispatch

/-- How the arguments of a variadic call are packed: how many are passed as
they are, and the type of the packed ones.  `none` when nothing is packed. -/
def packing? (callee : MethodEntry) (argTys : List Source.Ty) :
    Option (Nat × Source.Ty) :=
  callee.variadicTy?.bind fun ty =>
    let fixed := callee.fixedArity
    let passesArray := argTys.length = fixed + 1 && argTys[fixed]? = some ty
    if passesArray || argTys.length < fixed then none
    else some (fixed, ty.element)

end MiniJava.Lowering
