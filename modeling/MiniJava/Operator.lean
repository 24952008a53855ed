/-!
# Arithmetic operators

The four operators on 32-bit integers are the same in source expressions, in
three-address code and on the machine, so they are named once here.  Operators
that yield a truth value differ between those levels and are declared there.
-/

namespace MiniJava

/-- Operators from two integers to an integer. -/
inductive Arith where
  | add
  | sub
  | mul
  | div
deriving DecidableEq, Repr

namespace Arith

/-- The infix spelling of an operator. -/
def symbol : Arith → String
  | add => "+"
  | sub => "-"
  | mul => "*"
  | div => "/"

/-- The machine mnemonic of an operator. -/
def mnemonic : Arith → String
  | add => "iadd"
  | sub => "isub"
  | mul => "imul"
  | div => "idiv"

end Arith

end MiniJava
