import MiniJava.Error
import MiniJava.Note

/-!
# Generating code

Lowering is a function of a supply of names.  It yields a value, writes
instructions in order, takes notes and leaves a later supply: `Gen α` is that
function, and running one after another concatenates what they wrote.

Lowering may fail, so it lives in `Attempt`.  A failed attempt still has an
outcome: the names it took stay taken, and its notes are kept.
-/

namespace MiniJava.Lowering

open Tac

/-- What a generator leaves behind. -/
structure Outcome (α : Type) where
  value : α
  code : List Instr
  notes : List Note
  names : Names

/-- A generator of code. -/
def Gen (α : Type) : Type := Names → Outcome α

namespace Gen

variable {α β : Type}

instance : Monad Gen where
  pure value := fun names => ⟨value, [], [], names⟩
  bind first next := fun names =>
    let before := first names
    let after := next before.value before.names
    ⟨after.value, before.code ++ after.code, before.notes ++ after.notes,
      after.names⟩

/-! ## Equations of sequencing -/

@[simp]
theorem pure_apply (value : α) (names : Names) :
    (pure value : Gen α) names = ⟨value, [], [], names⟩ := rfl

@[simp]
theorem value_bind (first : Gen α) (next : α → Gen β) (names : Names) :
    ((first >>= next) names).value =
      (next (first names).value (first names).names).value := rfl

@[simp]
theorem code_bind (first : Gen α) (next : α → Gen β) (names : Names) :
    ((first >>= next) names).code = (first names).code ++
      (next (first names).value (first names).names).code := rfl

@[simp]
theorem notes_bind (first : Gen α) (next : α → Gen β) (names : Names) :
    ((first >>= next) names).notes = (first names).notes ++
      (next (first names).value (first names).names).notes := rfl

@[simp]
theorem names_bind (first : Gen α) (next : α → Gen β) (names : Names) :
    ((first >>= next) names).names =
      (next (first names).value (first names).names).names := rfl

instance : LawfulMonad Gen := LawfulMonad.mk' Gen
  (by intro α first; funext names
      change Outcome.mk (first names).value ((first names).code ++ [])
        ((first names).notes ++ []) (first names).names = _
      simp)
  (by intro α β value next; rfl)
  (by intro α β γ first next last; funext names
      simp [Bind.bind])

@[simp]
theorem map_apply (f : α → β) (first : Gen α) (names : Names) :
    (f <$> first) names = ⟨f (first names).value, (first names).code,
      (first names).notes, (first names).names⟩ := by
  change Outcome.mk (f (first names).value) ((first names).code ++ [])
    ((first names).notes ++ []) (first names).names = _
  simp

/-! ## Primitive generators -/

/-- Write one instruction. -/
def emit (instr : Instr) : Gen Unit := fun names => ⟨(), [instr], [], names⟩

/-- Take a note. -/
def note (entry : Note) : Gen Unit := fun names => ⟨(), [], [entry], names⟩

/-- Take the next number of a family. -/
def number (family : Family) : Gen Nat := fun names =>
  ⟨names.next family, [], [], names.advance family⟩

/-- Take the next label of a family. -/
def label (family : Family) : Gen Label := do
  return .numbered family (← number family)

/-- Take the next temporary. -/
def temp (ty : Ty) : Gen Operand := fun names =>
  ⟨⟨names.nextTemp, ty⟩, [], [], names.advanceTemp⟩

/-- Take the next variable for a packed array. -/
def holder (ty : Ty) : Gen Operand := fun names =>
  ⟨⟨names.nextPack, ty⟩, [], [], names.advance .pack⟩

/-- Store an expression in a temporary of the given type. -/
def store (rhs : Rhs) (ty : Ty) : Gen Element := do
  let result ← temp ty
  emit (.set result rhs)
  return .operand result

/-- Bring a variable or literal down to a variable. -/
def toVariable : Element → Gen Operand
  | .operand op => pure op
  | .literal lit => do
      let result ← temp lit.ty
      emit (.set result (.element (.literal lit)))
      return result

/-- Run actions from left to right and collect their values. -/
def inOrder {m : Type → Type} [Monad m] : List (m α) → m (List α)
  | [] => pure []
  | first :: rest => do
      let value ← first
      let values ← inOrder rest
      return value :: values

end Gen

/-! ## Generators that may fail -/

/-- A generator of code that stops at the first error. -/
abbrev Attempt : Type → Type := ExceptT CompileError Gen

namespace Attempt

/-- Take the code that an attempt writes as its value. -/
def capture (attempt : Attempt Unit) : Attempt (List Instr) :=
  ExceptT.mk fun names =>
    let outcome := attempt.run names
    ⟨outcome.value.map fun _ => outcome.code, [], outcome.notes, outcome.names⟩

end Attempt

end MiniJava.Lowering
