import MiniJava.Source.Symbols
import MiniJava.Tac.Text

/-!
# The journal of a run

Compilation keeps a journal of what it does.  A note says what happened;
`Note.text` words it.  Notes are kept also when compilation fails, up to the
point of failure.
-/

namespace MiniJava

/-- One entry of the journal. -/
inductive Note where
  | loweringClass (name : String)
  | loweringMethod (method : Source.MethodEntry)
  /-- A call whose receiver no rule covers is taken for a static call. -/
  | assumedStatic (className method caller : String)
  | emittingMethod (className method : String)
  /-- The instruction was assembled; `height` values are left on the stack. -/
  | assembled (method : String) (instr : Tac.Instr) (height : Nat)
  | emittedClass (name : String)
deriving DecidableEq, Repr

/-- The wording of a note, preceded by how important it is. -/
def Note.text : Note → String
  | loweringClass name => "DEBUG lowering class '" ++ name ++ "'"
  | loweringMethod method => "DEBUG lowering method '" ++ method.text ++ "'"
  | assumedStatic className method caller =>
      "DEBUG no dispatch rule for '" ++ className ++ "." ++ method ++ "' in '"
        ++ caller ++ "', assuming static"
  | emittingMethod className method =>
      "DEBUG emitting method '" ++ className ++ "." ++ method ++ "'"
  | assembled method instr height =>
      "TRACE " ++ method ++ ": `" ++ instr.text ++ "` leaves stack at "
        ++ Nat.repr height
  | emittedClass name => "DEBUG emitted class '" ++ name ++ "'"

/-! ## Results with notes -/

/-- A result and the notes taken on the way to it. -/
structure Noted (α : Type) where
  value : α
  notes : List Note

namespace Noted

variable {α β : Type}

instance : Monad Noted where
  pure value := ⟨value, []⟩
  bind first next :=
    let second := next first.value
    ⟨second.value, first.notes ++ second.notes⟩

@[simp]
theorem value_pure (value : α) : (pure value : Noted α).value = value := rfl

@[simp]
theorem notes_pure (value : α) : (pure value : Noted α).notes = [] := rfl

@[simp]
theorem value_bind (first : Noted α) (next : α → Noted β) :
    (first >>= next).value = (next first.value).value := rfl

@[simp]
theorem notes_bind (first : Noted α) (next : α → Noted β) :
    (first >>= next).notes = first.notes ++ (next first.value).notes := rfl

instance : LawfulMonad Noted := LawfulMonad.mk' Noted
  (by intro α first; obtain ⟨value, notes⟩ := first
      simp [Functor.map])
  (by intro α β value next; rfl)
  (by intro α β γ first next last; simp [Bind.bind])

/-- Take a note. -/
def note (entry : Note) : Noted Unit := ⟨(), [entry]⟩

end Noted

end MiniJava
