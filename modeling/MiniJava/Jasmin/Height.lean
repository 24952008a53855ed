/-!
# The height of the operand stack

While a method is assembled its operand stack is followed by height alone.
The greatest height met is what the method must declare.
-/

namespace MiniJava.Jasmin

/-- The height of the operand stack, and the greatest height so far. -/
structure Height where
  current : Nat := 0
  max : Nat := 0
deriving DecidableEq, Repr

namespace Height

/-- The height after values were pushed. -/
def push (height : Height) (count : Nat) : Height where
  current := height.current + count
  max := Nat.max height.max (height.current + count)

/-- The height after values were popped; `none` when there are too few. -/
def pop? (height : Height) (count : Nat) : Option Height :=
  if count ≤ height.current then
    some { height with current := height.current - count }
  else none

end Height

end MiniJava.Jasmin
