import MiniJava.Table
import MiniJava.Tac.Instr

/-!
# Local slots

The machine addresses the variables of a method by number.  `Registers` maps
names to slots.  `Registers.sequential` lays out a method: the receiver of an
instance method in slot 0, then the parameters, then every other variable in
order of first appearance, one slot each.  A table may also be filled by hand,
with gaps and shared slots.
-/

namespace MiniJava.Tac

/-- The slots of a method's variables, in order of first insertion. -/
structure Registers where
  slots : Table Nat
deriving DecidableEq, Repr

namespace Registers

def empty : Registers := ⟨.empty⟩

def isEmpty (registers : Registers) : Bool := registers.slots.isEmpty

/-- The slot of a name. -/
def find? (registers : Registers) (name : String) : Option Nat :=
  registers.slots.find? name

/-- Give a name a chosen slot. -/
def insert (registers : Registers) (name : String) (slot : Nat) : Registers :=
  ⟨registers.slots.insert name slot⟩

/-- The highest slot in use. -/
def max? (registers : Registers) : Option Nat := registers.slots.values.max?

/-- The slot after the highest one in use. -/
def nextFree (registers : Registers) : Nat :=
  match registers.max? with
  | some slot => slot + 1
  | none => 0

/-- The slot that a name has, or would be given. -/
def slotFor (registers : Registers) (name : String) : Nat :=
  (registers.find? name).getD registers.nextFree

/-- Give a name the next free slot unless it has one already. -/
def push (registers : Registers) (name : String) : Registers :=
  match registers.find? name with
  | some _ => registers
  | none => registers.insert name registers.nextFree

/-- The number of slots to reserve: one more than the variables other than the
receiver, and enough to reach the highest slot. -/
def limit (registers : Registers) : Nat :=
  let others := registers.slots.names.filter fun name => name ≠ thisName
  max (others.length + 1) registers.nextFree

/-- The variables that a body mentions, the receiver apart. -/
def mentioned (body : List Instr) : List String :=
  ((body.flatMap Instr.operands).filter fun operand => !operand.isThis).map
    Operand.name

/-- One slot per variable: receiver, parameters, then the body's variables. -/
def sequential (isStatic : Bool) (params : List Operand) (body : List Instr) :
    Registers :=
  let start := if isStatic then empty else empty.insert thisName 0
  (params.map Operand.name ++ mentioned body).foldl push start

end Registers

end MiniJava.Tac
