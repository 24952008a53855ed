import MiniJava.Jasmin.Class
import MiniJava.Jasmin.Emit
import MiniJava.Note
import MiniJava.Options

/-!
# Assembling three-address code

Each three-address instruction becomes a short run of machine instructions
that loads its operands, performs its operation and stores the result.  The
operand stack is empty between instructions.

Comparisons exist only as conditions of branches.  A comparison with a literal
subtracts and tests the difference against zero; one of two variables is tested
directly.  Adding a small constant to a variable takes one instruction if the
options allow it.
-/

namespace MiniJava.Jasmin

open Tac (Operand Literal Element Cell Call Target Rhs Dest Registers)

/-! ## The surroundings of an instruction -/

/-- What assembling an instruction depends on. -/
structure Frame where
  /-- The class under compilation. -/
  className : String
  imports : List String
  /-- The method under compilation. -/
  method : String
  registers : Registers
  /-- Whether small constants are added by one instruction. -/
  iinc : Bool

namespace Frame

open Emit

/-- The frame of a method. -/
def of (options : Options) (unit : Tac.Class) (method : Tac.Method) : Frame where
  className := unit.name
  imports := unit.imports
  method := method.name
  registers := method.layout
  iinc := options.iinc

/-- The slot of a variable. -/
def slotOf (frame : Frame) (name : String) : Emit Nat :=
  match frame.registers.find? name with
  | some slot => pure slot
  | none => fail (.unknownVariable frame.method name)

/-- The kind of slot that a variable of the given type lives in. -/
def kindOf (ty : Tac.Ty) : Emit Kind :=
  match ty with
  | .int | .bool => pure .int
  | .string | .object _ | .array _ => pure .ref
  | .void => fail (.unsupported (.localOf ty))

/-- The internal name of the class that an object belongs to. -/
def ownerOf (frame : Frame) (object : Operand) : Emit String :=
  if object.isThis then pure frame.className
  else match object.ty with
    | .object className => pure (Import.qualify frame.imports className)
    | .string => pure Descriptor.stringClass
    | ty => fail (.unsupported (.memberOf ty))

/-- The kind of cells of an array. -/
def cellKind (elemTy : Tac.Ty) : Kind := if elemTy.isReference then .ref else .int

def descriptorOf (frame : Frame) (ty : Tac.Ty) : Descriptor :=
  .ofTy frame.imports ty

def drop (frame : Frame) (count : Nat) : Emit Unit := pop frame.method count

/-! ## Operands -/

/-- Push the value of a variable. -/
def load (frame : Frame) (op : Operand) : Emit Unit := do
  let slot ← frame.slotOf op.name
  let kind ← kindOf op.ty
  put (.load kind slot)
  push 1

/-- Pop a value into a variable. -/
def store (frame : Frame) (op : Operand) : Emit Unit := do
  let slot ← frame.slotOf op.name
  let kind ← kindOf op.ty
  put (.store kind slot)
  frame.drop 1

/-- The instruction that pushes a literal. -/
def constant (lit : Literal) : Except CompileError Instr :=
  match lit.ty with
  | .int | .bool =>
      match lit.toInt? with
      | some value => .ok (.ofInt value)
      | none => .error (.invalidLiteral lit.text)
  | _ => .ok (.ldcText lit.value)

/-- Push a literal. -/
def literal (lit : Literal) : Emit Unit := do
  match constant lit with
  | .error error => fail error
  | .ok instr =>
      put instr
      push 1

/-- Push a variable or literal. -/
def element (frame : Frame) : Element → Emit Unit
  | .operand op => frame.load op
  | .literal lit => literal lit

/-- Push variables and literals from left to right. -/
def elements (frame : Frame) : List Element → Emit Unit
  | [] => pure ()
  | elem :: rest => do
      frame.element elem
      frame.elements rest

/-- Push an array and an index into it. -/
def cell (frame : Frame) (place : Cell) : Emit Unit := do
  frame.load place.array
  frame.element place.index

/-! ## Expressions -/

/-- Push what a call is made on; yields the class that declares the method and
the number of values pushed. -/
def receiver (frame : Frame) (call : Call) : Emit (String × Nat) :=
  match call.kind, call.target with
  | .static, .className name => pure (Import.qualify frame.imports name, 0)
  | .virtual, .object object | .special, .object object => do
      frame.load object
      return (← frame.ownerOf object, 1)
  | kind, target => fail (.unsupported (.callOn kind target))

/-- Make a call, leaving its result unless it has none. -/
def call (frame : Frame) (call : Call) : Emit Unit := do
  let (owner, pushed) ← frame.receiver call
  frame.elements call.args
  put (.invoke call.kind owner call.method
    (.ofTys frame.imports (call.args.map Element.ty) call.ret))
  frame.drop (call.args.length + pushed)
  if call.ret.isVoid then pure () else push 1

/-- Push the value of an expression. -/
def rhs (frame : Frame) : Rhs → Emit Unit
  | .element elem => frame.element elem
  | .binary (.arith op) left right => do
      frame.element left
      frame.element right
      put (.arith op)
      frame.drop 1
  | .binary op _ _ => fail (.unsupported (.valueOf op))
  | .not operand => do
      frame.element operand
      put (.iconst 1)
      push 1
      put .ixor
      frame.drop 1
  | .call invocation => frame.call invocation
  | .new className => do
      put (.new (Import.qualify frame.imports className))
      push 1
  | .newArray size ty =>
      if ty.element? = some .int then do
        frame.element size
        put .newIntArray
      else
        fail (.unsupported (.arrayOf ty))
  | .length array => do
      frame.load array
      put .arrayLength
  | .getField object field => do
      let owner ← frame.ownerOf object
      frame.load object
      put (.getField owner field.name (frame.descriptorOf field.ty))
  | .index place => do
      frame.cell place
      put (.arrayLoad (cellKind place.elemTy))
      frame.drop 1

/-! ## Instructions -/

/-- The constant by which `dest := rhs` increases `dest`, when one instruction
can do it: the sum of the variable and a literal that fits in a byte. -/
def increment? (frame : Frame) (dest : Operand) (rhs : Rhs) : Option Int32 :=
  if frame.iinc && dest.ty = .int then
    let candidate := match rhs with
      | .binary (.arith .add) (.operand op) (.literal lit) => some (op, lit)
      | .binary (.arith .add) (.literal lit) (.operand op) => some (op, lit)
      | _ => none
    candidate.bind fun (op, lit) => lit.toInt?.bind fun delta =>
      if op.name = dest.name ∧ -128 ≤ delta.toInt ∧ delta.toInt ≤ 127 then
        some delta
      else none
  else none

/-- Assign an expression to a variable. -/
def set (frame : Frame) (dest : Operand) (rhs : Rhs) : Emit Unit := do
  match frame.increment? dest rhs with
  | some delta =>
      let slot ← frame.slotOf dest.name
      put (.iinc slot delta)
  | none =>
      if rhs.ty.isVoid then
        fail (.unsupported (.voidStore dest.name))
      else
        frame.rhs rhs
        frame.store dest

/-- Branch on the comparison `left < right`, or on its opposite. -/
def compare (frame : Frame) (isLess : Bool) (left right : Element)
    (target : Label) : Emit Unit := do
  if right.isLiteral then
    frame.element left
    frame.element right
    put (.arith .sub)
    frame.drop 1
    put (.ifZero (if isLess then .lt else .ge) target)
  else if left.isLiteral then
    frame.element right
    frame.element left
    put (.arith .sub)
    frame.drop 1
    put (.ifZero (if isLess then .gt else .le) target)
  else
    frame.element left
    frame.element right
    put (.ifPair (if isLess then .lt else .ge) target)
    frame.drop 1
  frame.drop 1

/-- Branch on a condition. -/
def branch (frame : Frame) (cond : Rhs) (target : Label) : Emit Unit :=
  match cond with
  | .binary .lt left right => frame.compare true left right target
  | .binary .ge left right => frame.compare false left right target
  | .binary .and _ _ => fail (.unsupported .conjunctionBranch)
  | cond => do
      frame.rhs cond
      put (.ifZero .ne target)
      frame.drop 1

/-- The kind of value that a return of the given type hands back. -/
def returnKind (ty : Tac.Ty) : Option Kind :=
  match ty with
  | .void => none
  | .string | .object _ | .array _ => some .ref
  | .int | .bool => some .int

/-- Assemble one instruction. -/
def instr (frame : Frame) : Tac.Instr → Emit Unit
  | .assign (.var dest) _ rhs => frame.set dest rhs
  | .assign (.cell place) _ rhs => do
      frame.cell place
      frame.rhs rhs
      put (.arrayStore (cellKind place.elemTy))
      frame.drop 3
  | .putField object field value => do
      let owner ← frame.ownerOf object
      frame.load object
      frame.element value
      put (.putField owner field.name (frame.descriptorOf field.ty))
      frame.drop 2
  | .call invocation => do
      frame.call invocation
      if invocation.ret.isVoid then pure ()
      else
        put .pop
        frame.drop 1
  | .goto target => put (.goto target)
  | .label mark => put (.label mark)
  | .branch cond target => frame.branch cond target
  | .ret ty (some value) => do
      frame.element value
      put (.ret (returnKind ty))
      frame.drop 1
  | .ret ty none => put (.ret (returnKind ty))

/-- Assemble instructions in order, noting each one that succeeds. -/
def instrs (frame : Frame) :
    List Tac.Instr → Height → Noted (Except CompileError (List Instr × Height))
  | [], height => pure (.ok ([], height))
  | first :: rest, height =>
    match frame.instr first height with
    | .error error => pure (.error error)
    | .ok emitted => do
        .note (.assembled frame.method first emitted.height.current)
        let others ← frame.instrs rest emitted.height
        return others.map fun (code, height) => (emitted.code ++ code, height)

end Frame

/-! ## Methods and classes -/

/-- Assemble a method of a class. -/
def assembleMethod (options : Options) (unit : Tac.Class) (method : Tac.Method) :
    Noted (Except CompileError Method) := do
  .note (.emittingMethod unit.name method.name)
  let body ← (Frame.of options unit method).instrs method.body {}
  return body.map fun (code, height) =>
    { name := method.name
      isPublic := method.isPublic
      isStatic := method.isStatic
      descriptor :=
        .ofTys unit.imports (method.params.map Operand.ty) method.ret
      stackLimit := height.max
      localsLimit := method.layout.limit
      code := code }

/-- Assemble methods in order, up to the first that fails. -/
def assembleMethods (options : Options) (unit : Tac.Class) :
    List Tac.Method → Noted (Except CompileError (List Method))
  | [] => pure (.ok [])
  | method :: rest => do
    match ← assembleMethod options unit method with
    | .error error => return .error error
    | .ok first =>
        let others ← assembleMethods options unit rest
        return others.map (first :: ·)

/-- Assemble a class. -/
def assembleClass (options : Options) (unit : Tac.Class) :
    Noted (Except CompileError Class) := do
  let methods ← assembleMethods options unit unit.methods
  return methods.map fun methods =>
    { name := unit.name
      superName := Import.superclass unit.imports unit.superName
      fields := unit.fields.map fun field =>
        ⟨field.name, .ofTy unit.imports field.ty⟩
      methods := methods }

end MiniJava.Jasmin
