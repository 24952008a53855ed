import Mathlib.Logic.Function.Basic
import MiniJava.Jasmin.Instr
import MiniJava.Proofs.Semantics.World

/-!
# Running machine code

The machine keeps an operand stack and numbered registers for the method under
execution.  An instruction takes its operands from the top of the stack, the
last one first, and leaves its result there.

Loads, stores and accesses to cells come in two kinds, one for integers and one
for references, and fail on values of the other kind.  A method is known by how
it is selected and by its owner, name and descriptor, a field by its owner,
name and descriptor.

`perform` says what one instruction does and where control goes from there;
`runLine` follows a list of instructions until control leaves it.
-/

namespace MiniJava.Semantics

open Jasmin (Kind Descriptor MethodDescriptor ZeroTest PairTest)
open Tac (CallKind)

/-! ## Values and members -/

/-- Whether a value is of a kind. -/
def Value.hasKind : Value → Kind → Bool
  | .int _, .int => true
  | .null, .ref | .ref _, .ref => true
  | _, _ => false

/-- A method as machine code refers to it. -/
structure MethodRef where
  kind : CallKind
  owner : String
  name : String
  descriptor : MethodDescriptor
deriving DecidableEq, Repr

/-- A field as machine code refers to it. -/
structure FieldRef where
  owner : String
  name : String
  descriptor : Descriptor
deriving DecidableEq, Repr

/-- The surroundings of machine code: what constants given by their text denote,
and what calls answer. -/
structure Machine where
  constant : String → Value
  oracle : Oracle MethodRef FieldRef

/-! ## One instruction -/

/-- The state of a method under execution. -/
structure Activation where
  /-- The top of the stack comes first. -/
  stack : List Value
  registers : Nat → Value

/-- Leave a value on the stack. -/
def Activation.push (act : Activation) (value : Value) : Activation :=
  { act with stack := value :: act.stack }

/-- Put a value into a register. -/
def Activation.set (act : Activation) (slot : Nat) (value : Value) : Activation :=
  { act with registers := Function.update act.registers slot value }

/-- Where control goes after an instruction. -/
inductive Signal where
  | next
  | jump (target : Label)
  | leave (value : Option Value)
deriving DecidableEq, Repr

/-- Effects of machine code. -/
abbrev MachineEffect (α : Type) : Type := Exec MethodRef FieldRef α

/-- The outcome of a test against zero. -/
def zeroTest : ZeroTest → Int32 → Bool
  | .ne, value => value ≠ 0
  | .lt, value => value < 0
  | .ge, value => 0 ≤ value
  | .gt, value => 0 < value
  | .le, value => value ≤ 0

/-- The outcome of a test of two integers. -/
def pairTest : PairTest → Int32 → Int32 → Bool
  | .lt, left, right => left < right
  | .ge, left, right => right ≤ left

namespace Machine

/-- A value, which must be of the given kind. -/
def checked (kind : Kind) (value : Value) : MachineEffect Value :=
  if value.hasKind kind then pure value else Exec.fail .illTyped

/-- A value, which must be an integer. -/
def integer : Value → MachineEffect Int32
  | .int value => pure value
  | _ => Exec.fail .illTyped

/-- Take values from the stack; they come in the order in which they were
pushed. -/
def take (count : Nat) (act : Activation) : MachineEffect (List Value × Activation) :=
  if count ≤ act.stack.length then
    pure ((act.stack.take count).reverse, { act with stack := act.stack.drop count })
  else Exec.fail .illTyped

/-- Take the top of the stack. -/
def takeOne (act : Activation) : MachineEffect (Value × Activation) := do
  let (values, act) ← take 1 act
  return (values.headD .null, act)

/-- Continue at a label if a test succeeds. -/
def jumpIf (test : Bool) (target : Label) : Signal := if test then .jump target else .next

/-- Make the call that a reference stands for, on values from the stack. -/
def call (machine : Machine) (method : MethodRef) (act : Activation) :
    MachineEffect Activation := do
  let (args, act) ← take method.descriptor.params.length act
  let (receiver, act) ← match method.kind with
    | .static => pure (none, act)
    | .virtual | .special => do
        let (object, act) ← takeOne act
        pure (some object, act)
  let result ← Exec.invoke machine.oracle ⟨method, receiver, args⟩
  return if method.descriptor.ret.isVoid then act else act.push result

/-- What an instruction does, and where control goes from it. -/
def perform (machine : Machine) (instr : Jasmin.Instr) (act : Activation) :
    MachineEffect (Signal × Activation) :=
  match instr with
  | .iconst value | .bipush value | .sipush value | .ldcInt value =>
      pure (.next, act.push (.int value))
  | .ldcText text => pure (.next, act.push (machine.constant text))
  | .load kind slot => do
      let value ← checked kind (act.registers slot)
      return (.next, act.push value)
  | .store kind slot => do
      let (value, act) ← takeOne act
      let value ← checked kind value
      return (.next, act.set slot value)
  | .iinc slot delta => do
      let value ← Exec.arith .add (act.registers slot) (.int delta)
      return (.next, act.set slot value)
  | .arith op => do
      let (right, act) ← takeOne act
      let (left, act) ← takeOne act
      let value ← Exec.arith op left right
      return (.next, act.push value)
  | .ixor => do
      let (right, act) ← takeOne act
      let (left, act) ← takeOne act
      let left ← integer left
      let right ← integer right
      return (.next, act.push (.int (left ^^^ right)))
  | .new className => do
      let object ← Exec.newObject className
      return (.next, act.push object)
  | .newIntArray => do
      let (size, act) ← takeOne act
      let array ← Exec.newArray (.int 0) size
      return (.next, act.push array)
  | .arrayLength => do
      let (array, act) ← takeOne act
      let length ← Exec.length array
      return (.next, act.push length)
  | .arrayLoad kind => do
      let (index, act) ← takeOne act
      let (array, act) ← takeOne act
      let value ← Exec.loadCell array index
      let value ← checked kind value
      return (.next, act.push value)
  | .arrayStore kind => do
      let (value, act) ← takeOne act
      let (index, act) ← takeOne act
      let (array, act) ← takeOne act
      let value ← checked kind value
      Exec.storeCell array index value
      return (.next, act)
  | .getField owner name descriptor => do
      let (object, act) ← takeOne act
      let value ← Exec.getField object ⟨owner, name, descriptor⟩
      return (.next, act.push value)
  | .putField owner name descriptor => do
      let (value, act) ← takeOne act
      let (object, act) ← takeOne act
      Exec.putField object ⟨owner, name, descriptor⟩ value
      return (.next, act)
  | .invoke kind owner method descriptor => do
      let act ← machine.call ⟨kind, owner, method, descriptor⟩ act
      return (.next, act)
  | .pop => do
      let (_, act) ← takeOne act
      return (.next, act)
  | .goto target => pure (.jump target, act)
  | .ifZero test target => do
      let (value, act) ← takeOne act
      let value ← integer value
      return (jumpIf (zeroTest test value) target, act)
  | .ifPair test target => do
      let (right, act) ← takeOne act
      let (left, act) ← takeOne act
      let left ← integer left
      let right ← integer right
      return (jumpIf (pairTest test left right) target, act)
  | .ret none => pure (.leave none, act)
  | .ret (some kind) => do
      let (value, act) ← takeOne act
      let value ← checked kind value
      return (.leave (some value), act)
  | .label _ => pure (.next, act)

/-! ## Lists of instructions -/

/-- Run instructions in order until control goes elsewhere. -/
def runLine (machine : Machine) :
    List Jasmin.Instr → Activation → MachineEffect (Signal × Activation)
  | [], act => pure (.next, act)
  | instr :: rest, act => do
      let (signal, act) ← machine.perform instr act
      match signal with
      | .next => machine.runLine rest act
      | signal => pure (signal, act)

@[simp]
theorem takeOne_push (act : Activation) (value : Value) :
    takeOne (act.push value) = pure (value, act) := by
  simp [takeOne, take, Activation.push]

end Machine

end MiniJava.Semantics
