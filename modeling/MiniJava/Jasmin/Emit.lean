import MiniJava.Error
import MiniJava.Jasmin.Height
import MiniJava.Jasmin.Instr

/-!
# Emitting machine code

`Emit α` follows the height of the operand stack, writes machine instructions
in order and stops at the first error.  Heights are accounted for separately
from the instructions: a rule says what it pushes and pops.
-/

namespace MiniJava.Jasmin

/-- What a successful emission leaves behind. -/
structure Emitted (α : Type) where
  value : α
  code : List Instr
  height : Height

/-- An emission, as a function of the height of the stack before it. -/
def Emit (α : Type) : Type := Height → Except CompileError (Emitted α)

namespace Emit

variable {α β : Type}

instance : Monad Emit where
  pure value := fun height => .ok ⟨value, [], height⟩
  bind first next := fun height =>
    match first height with
    | .error error => .error error
    | .ok before =>
      match next before.value before.height with
      | .error error => .error error
      | .ok after => .ok ⟨after.value, before.code ++ after.code, after.height⟩

/-! ## Equations of sequencing -/

@[simp]
theorem pure_apply (value : α) (height : Height) :
    (pure value : Emit α) height = .ok ⟨value, [], height⟩ := rfl

/-- A sequence succeeds if and only if both of its parts do, the second one
from the height where the first one ends; the code of the parts is joined. -/
theorem bind_eq_ok_iff (first : Emit α) (next : α → Emit β) (height : Height)
    (result : Emitted β) :
    (first >>= next) height = .ok result ↔
      ∃ before after, first height = .ok before ∧
        next before.value before.height = .ok after ∧
        result = ⟨after.value, before.code ++ after.code, after.height⟩ := by
  simp only [Bind.bind]
  cases first height with
  | error => simp
  | ok before =>
    cases second : next before.value before.height with
    | error => simp [second]
    | ok => simp [second, eq_comm]

/-- A sequence fails by the error of its first part, or by that of its second
part if the first one succeeds. -/
theorem bind_eq_error_iff (first : Emit α) (next : α → Emit β) (height : Height)
    (error : CompileError) :
    (first >>= next) height = .error error ↔
      first height = .error error ∨
      ∃ before, first height = .ok before ∧
        next before.value before.height = .error error := by
  simp only [Bind.bind]
  cases first height with
  | error => simp
  | ok before =>
    cases second : next before.value before.height with
    | error => simp [second]
    | ok => simp [second]

/-! ## Primitive emissions -/

/-- Stop with an error. -/
def fail (error : CompileError) : Emit α := fun _ => .error error

/-- Write one instruction. -/
def put (instr : Instr) : Emit Unit := fun height => .ok ⟨(), [instr], height⟩

/-- Account for pushed values. -/
def push (count : Nat) : Emit Unit := fun height =>
  .ok ⟨(), [], height.push count⟩

/-- Account for popped values in the named method. -/
def pop (method : String) (count : Nat) : Emit Unit := fun height =>
  match height.pop? count with
  | some lower => .ok ⟨(), [], lower⟩
  | none => .error (.stackUnderflow method)

end Emit

end MiniJava.Jasmin
