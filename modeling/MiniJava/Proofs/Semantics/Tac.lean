import Mathlib.Logic.Function.Basic
import Mathlib.Logic.Relation
import MiniJava.Proofs.Semantics.World

/-!
# Running three-address code

A method body is one flat list of instructions.  A configuration holds the
number of the next instruction, the variables and the world.  Control goes from
one instruction to the next unless a jump names a label; the place of a label
is the first instruction that marks it with the same text.

Labels do nothing when they are reached.  A run ends by a return, by a fault,
or because it is stuck: at the end of the list, or at a jump to a label that
nothing marks.

A `Platform` says what the code is run against: how its calls, fields and
classes are known outside, what constants other than integers denote, and what
calls answer.
-/

namespace MiniJava.Semantics

open Tac

/-- The surroundings of three-address code. -/
structure Platform (Callee Field : Type) where
  /-- The method that a call refers to. -/
  callee : Call → Callee
  /-- The field of an object that an access refers to. -/
  field : (object field : Operand) → Field
  /-- The class that is instantiated under a name. -/
  className : String → String
  /-- The value of a constant that is no integer, given by its text. -/
  constant : String → Value
  oracle : Oracle Callee Field

/-- The values of all variables. -/
abbrev Store : Type := String → Value

variable {Callee Field : Type} (platform : Platform Callee Field)

/-! ## Operands and expressions -/

/-- The value of a literal.  A text that is no numeral counts as zero where an
integer is wanted; such a literal is never assembled. -/
def Platform.literal (lit : Literal) : Value :=
  match lit.ty with
  | .int | .bool => .int (lit.toInt?.getD 0)
  | _ => platform.constant lit.value

/-- The value of a variable or literal. -/
def Platform.element (store : Store) : Element → Value
  | .operand op => store op.name
  | .literal lit => platform.literal lit

/-- The object that a call is made on. -/
def targetValue (store : Store) : Target → Option Value
  | .className _ => none
  | .object receiver => some (store receiver.name)

/-- The request that a call makes. -/
def Platform.request (store : Store) (call : Call) : Request Callee where
  callee := platform.callee call
  receiver := targetValue store call.target
  args := call.args.map (platform.element store)

/-- The value of a binary operation. -/
def binary (op : BinOp) (left right : Value) : Exec Callee Field Value :=
  match op with
  | .arith op => Exec.arith op left right
  | .lt => do return .ofBool (← Exec.less left right)
  | .ge => do return .ofBool (!(← Exec.less left right))
  | .and => do
      let first ← Exec.truth left
      let second ← Exec.truth right
      return .ofBool (first && second)

/-- The value of a right-hand side. -/
def Platform.rhs (store : Store) : Rhs → Exec Callee Field Value
  | .element elem => pure (platform.element store elem)
  | .binary op left right =>
      binary op (platform.element store left) (platform.element store right)
  | .not operand => Exec.negate (platform.element store operand)
  | .call call => Exec.invoke platform.oracle (platform.request store call)
  | .new className => Exec.newObject (platform.className className)
  | .newArray size ty =>
      Exec.newArray (.initial (ty.element?.getD .int)) (platform.element store size)
  | .length array => Exec.length (store array.name)
  | .getField object field =>
      Exec.getField (store object.name) (platform.field object field)
  | .index place =>
      Exec.loadCell (store place.array.name) (platform.element store place.index)

/-- Whether the condition of a branch holds. -/
def Platform.test (store : Store) (cond : Rhs) : Exec Callee Field Bool :=
  platform.rhs store cond >>= Exec.truth

/-! ## Instructions -/

variable [DecidableEq Field]

/-- The variables after an instruction that neither jumps nor returns. -/
def Platform.perform (store : Store) : Instr → Exec Callee Field Store
  | .assign (.var op) _ rhs => do
      let value ← platform.rhs store rhs
      return Function.update store op.name value
  | .assign (.cell place) _ rhs => do
      let value ← platform.rhs store rhs
      Exec.storeCell (store place.array.name) (platform.element store place.index) value
      return store
  | .putField object field value => do
      Exec.putField (store object.name) (platform.field object field)
        (platform.element store value)
      return store
  | .call call => do
      let _ ← Exec.invoke platform.oracle (platform.request store call)
      return store
  | .goto _ | .label _ | .branch _ _ | .ret _ _ => pure store

/-- The state of a run. -/
structure Config (Callee Field : Type) where
  pc : Nat
  store : Store
  world : World Callee Field

/-- What one instruction leads to. -/
inductive Outcome (Callee Field : Type) where
  | next (config : Config Callee Field)
  | returned (value : Option Value)
  | failed (fault : Fault) (world : World Callee Field)
  | stuck

/-- Whether an instruction marks the given label. -/
def marksText (text : String) : Instr → Bool
  | .label mark => mark.text = text
  | _ => false

/-- The place of a label: the first instruction that marks it. -/
def placeOf? (program : List Instr) (target : Label) : Option Nat :=
  program.findIdx? (marksText target.text)

/-- Go on at a label. -/
def jump (program : List Instr) (target : Label) (store : Store)
    (world : World Callee Field) : Outcome Callee Field :=
  match placeOf? program target with
  | some place => .next ⟨place, store, world⟩
  | none => .stuck

/-- Take one step. -/
def step (program : List Instr) (config : Config Callee Field) :
    Outcome Callee Field :=
  match program[config.pc]? with
  | none => .stuck
  | some (.goto target) => jump program target config.store config.world
  | some (.branch cond target) =>
      match platform.test config.store cond config.world with
      | (.ok true, world) => jump program target config.store world
      | (.ok false, world) => .next ⟨config.pc + 1, config.store, world⟩
      | (.error fault, world) => .failed fault world
  | some (.ret _ value) => .returned (value.map (platform.element config.store))
  | some instr =>
      match platform.perform config.store instr config.world with
      | (.ok store, world) => .next ⟨config.pc + 1, store, world⟩
      | (.error fault, world) => .failed fault world

/-- Any number of steps. -/
def Steps (program : List Instr) :
    Config Callee Field → Config Callee Field → Prop :=
  Relation.ReflTransGen fun config config' => step platform program config = .next config'

/-! ## Steps at known instructions -/

variable {platform} {program : List Instr} {config : Config Callee Field}

/-- Instructions whose successor is the next one. -/
def isStraight : Instr → Bool
  | .goto _ | .branch _ _ | .ret _ _ => false
  | _ => true

/-- A straight instruction that is performed hands control to the next one. -/
theorem step_of_ok {instr : Instr} {store : Store} {world : World Callee Field}
    (straight : isStraight instr = true) (here : program[config.pc]? = some instr)
    (ok : platform.perform config.store instr config.world = (.ok store, world)) :
    step platform program config = .next ⟨config.pc + 1, store, world⟩ := by
  cases instr <;> simp_all [step, isStraight]

/-- A straight instruction that fails ends the run with its fault. -/
theorem step_of_error {instr : Instr} {fault : Fault} {world : World Callee Field}
    (straight : isStraight instr = true) (here : program[config.pc]? = some instr)
    (error : platform.perform config.store instr config.world = (.error fault, world)) :
    step platform program config = .failed fault world := by
  cases instr <;> simp_all [step, isStraight]

theorem step_assign {op : Operand} {ty : Ty} {rhs : Rhs} {value : Value}
    {world : World Callee Field}
    (here : program[config.pc]? = some (.assign (.var op) ty rhs))
    (ok : platform.rhs config.store rhs config.world = (.ok value, world)) :
    step platform program config =
      .next ⟨config.pc + 1, Function.update config.store op.name value, world⟩ :=
  step_of_ok rfl here (Exec.bind_of_ok ok _)

theorem step_label {mark : Label} (here : program[config.pc]? = some (.label mark)) :
    step platform program config = .next ⟨config.pc + 1, config.store, config.world⟩ :=
  step_of_ok rfl here rfl

theorem step_goto {target : Label} {place : Nat}
    (here : program[config.pc]? = some (.goto target))
    (found : placeOf? program target = some place) :
    step platform program config = .next ⟨place, config.store, config.world⟩ := by
  simp [step, here, jump, found]

/-- A branch whose test holds goes to its label. -/
theorem step_branch_true {cond : Rhs} {target : Label} {place : Nat}
    {world : World Callee Field}
    (here : program[config.pc]? = some (.branch cond target))
    (taken : platform.test config.store cond config.world = (.ok true, world))
    (found : placeOf? program target = some place) :
    step platform program config = .next ⟨place, config.store, world⟩ := by
  simp [step, here, taken, jump, found]

/-- A branch whose test does not hold falls through. -/
theorem step_branch_false {cond : Rhs} {target : Label} {world : World Callee Field}
    (here : program[config.pc]? = some (.branch cond target))
    (skipped : platform.test config.store cond config.world = (.ok false, world)) :
    step platform program config = .next ⟨config.pc + 1, config.store, world⟩ := by
  simp [step, here, skipped]

/-- A branch whose test fails ends the run with its fault. -/
theorem step_branch_error {cond : Rhs} {target : Label} {fault : Fault}
    {world : World Callee Field}
    (here : program[config.pc]? = some (.branch cond target))
    (error : platform.test config.store cond config.world = (.error fault, world)) :
    step platform program config = .failed fault world := by
  simp [step, here, error]

theorem step_ret {ty : Ty} {value : Option Element}
    (here : program[config.pc]? = some (.ret ty value)) :
    step platform program config =
      .returned (value.map (platform.element config.store)) := by
  simp [step, here]

end MiniJava.Semantics
