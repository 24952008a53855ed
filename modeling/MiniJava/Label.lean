/-!
# Labels and fresh names

Lowering invents two kinds of names: variables (`tmp0`, `__varargs_array_0`)
and branch targets (`true_0`, `endif_3`).  Each is a stem and a number, and
each stem counts on its own.  A `Names` value holds the counters of one
compilation run; they only grow, so no name is handed out twice.

Branch targets that close a conditional share the number of the target that
opens it and have no counter of their own.
-/

namespace MiniJava

/-! ## Labels -/

/-- The stems that have a counter. -/
inductive Family where
  /-- The taken branch of a conjunction or a comparison. -/
  | onTrue
  /-- The end of a conjunction or a comparison. -/
  | join
  /-- The start of a loop body. -/
  | loopBody
  /-- The end of a loop. -/
  | loopEnd
  /-- The taken branch of a conditional. -/
  | thenBranch
  /-- The variables that hold a packed array. -/
  | pack
deriving DecidableEq, Repr

namespace Family

/-- The text before the number. -/
def stem : Family → String
  | onTrue => "true_"
  | join => "end_"
  | loopBody => "whilebody_"
  | loopEnd => "endwhile_"
  | thenBranch => "if_"
  | pack => "__varargs_array_"

/-- All families, in the order in which their counters are reported. -/
def all : List Family := [onTrue, join, loopBody, loopEnd, thenBranch, pack]

end Family

/-- A branch target. -/
inductive Label where
  | numbered (family : Family) (id : Nat)
  /-- The end of the conditional with the same number. -/
  | endIf (id : Nat)
deriving DecidableEq, Repr

/-- The spelling of a label, the same in three-address code and assembly. -/
def Label.text : Label → String
  | numbered family id => family.stem ++ Nat.repr id
  | endIf id => "endif_" ++ Nat.repr id

/-! ## The supply of fresh names -/

/-- The next number of every stem. -/
structure Names where
  temp : Nat := 0
  onTrue : Nat := 0
  join : Nat := 0
  loopBody : Nat := 0
  loopEnd : Nat := 0
  thenBranch : Nat := 0
  pack : Nat := 0
deriving DecidableEq, Repr

namespace Names

/-- The supply of a run that has not begun. -/
def fresh : Names := {}

/-- The next number of a family. -/
def next (names : Names) : Family → Nat
  | .onTrue => names.onTrue
  | .join => names.join
  | .loopBody => names.loopBody
  | .loopEnd => names.loopEnd
  | .thenBranch => names.thenBranch
  | .pack => names.pack

/-- The supply after one number of the family was taken. -/
def advance (names : Names) : Family → Names
  | .onTrue => { names with onTrue := names.onTrue + 1 }
  | .join => { names with join := names.join + 1 }
  | .loopBody => { names with loopBody := names.loopBody + 1 }
  | .loopEnd => { names with loopEnd := names.loopEnd + 1 }
  | .thenBranch => { names with thenBranch := names.thenBranch + 1 }
  | .pack => { names with pack := names.pack + 1 }

/-- Taking a number moves the counter of its own family and no other. -/
theorem next_advance (names : Names) (taken other : Family) :
    (names.advance taken).next other =
      if taken = other then names.next other + 1 else names.next other := by
  cases taken <;> cases other <;> rfl

/-- The name of the temporary with the given number. -/
def tempName (id : Nat) : String := "tmp" ++ Nat.repr id

/-- The name of the variable that holds the packed array of the given number. -/
def packName (id : Nat) : String := (Label.numbered .pack id).text

/-- The next temporary. -/
def nextTemp (names : Names) : String := tempName names.temp

/-- The next variable that holds a packed array. -/
def nextPack (names : Names) : String := packName names.pack

/-- The supply after the next temporary was taken. -/
def advanceTemp (names : Names) : Names := { names with temp := names.temp + 1 }

end Names

end MiniJava
