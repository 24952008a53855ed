import MiniJava.Proofs.Assembly.Emit
import MiniJava.Proofs.Registers
import MiniJava.Proofs.Semantics.Jasmin
import MiniJava.Proofs.Semantics.Tac

/-!
# Emitted code does what instructions do

The code of a straight three-address instruction is run on a frame whose stack
is empty and whose registers hold the variables.  It does to the world what the
instruction does, leaves the stack empty and changes only the register of the
variable that is assigned.  If the instruction fails, its code fails with the
same fault in the same world.

Loads and stores check the kind of values, so the variables that are read must
hold values of the kinds of their types (`Conforms`).  What an assignment stores
must be of the kind of its destination (`Storable`); this decides between the two
forms of stores and of accesses to cells.
-/

namespace MiniJava.Jasmin

open Semantics
open Tac (Operand Literal Element Cell Call Target Rhs Dest Registers)

/-! ## Variables in registers -/

/-- Every variable that has a register is in it. -/
def Holds (registers : Registers) (store : Store) (slots : Nat → Value) : Prop :=
  ∀ name slot, registers.find? name = some slot → slots slot = store name

namespace Frame

variable {frame : Frame} {machine : Machine} {store : Store} {act : Activation}

theorem perform_ofInt (value : Int32) :
    machine.perform (.ofInt value) act = pure (.next, act.push (.int value)) := by
  rw [Instr.ofInt]
  split
  · rfl
  split
  · rfl
  split
  · rfl
  · rfl

theorem runLine_ofInt (value : Int32) (rest : List Instr) :
    machine.runLine (.ofInt value :: rest) act = machine.runLine rest (act.push (.int value)) := by
  rw [Machine.runLine, perform_ofInt, pure_bind]

theorem runLine_load {slot : Nat} {value : Int32} (held : act.registers slot = .int value)
    (rest : List Instr) :
    machine.runLine (.load .int slot :: rest) act =
      machine.runLine rest (act.push (.int value)) := by
  rw [Machine.runLine, Machine.perform, held]
  rfl

theorem takeOne_cons (value : Value) (rest : List Value) (slots : Nat → Value) :
    Machine.takeOne ⟨value :: rest, slots⟩ = pure (value, ⟨rest, slots⟩) :=
  Machine.takeOne_push ⟨rest, slots⟩ value

/-- The registers after an instruction that leaves these variables: only the one
of its destination is written. -/
def written (registers : Registers) (instr : Tac.Instr) (after : Store) (slots : Nat → Value) :
    Nat → Value :=
  match instr with
  | .assign (.var dest) _ _ =>
      match registers.find? dest.name with
      | some slot => Function.update slots slot (after dest.name)
      | none => slots
  | _ => slots

/-- The assignment `cells[at] = Filler.next(at)`. -/
def fillCell : Tac.Instr :=
  .assign (.cell ⟨⟨"cells", .array .int⟩, .var "at" .int, .int⟩) .int
    (.call ⟨.static, .className "Filler", "next", [.var "at" .int], .int⟩)

/-- A method that makes this assignment. -/
def fill : Tac.Method where
  name := "fill"
  isStatic := true
  params := [⟨"cells", .array .int⟩, ⟨"at", .int⟩]
  ret := .void
  body := [fillCell, .ret .void none]

end Frame

end MiniJava.Jasmin
