/-!
# Decimal numerals of 32-bit integers

`Numeral.write` gives the shortest decimal text of an integer.
`Numeral.read?` accepts more than that: one optional sign, then one or more
decimal digits with any number of leading zeros, as long as the value fits in
32 bits.  Nothing else is a numeral, in particular neither blanks nor
separators nor digits outside ASCII.
-/

namespace MiniJava.Numeral

/-- The decimal text of an integer, with a minus sign below zero. -/
def write (value : Int32) : String :=
  if value.toInt < 0 then "-" ++ Nat.repr value.toInt.natAbs
  else Nat.repr value.toInt.natAbs

/-- The value of one ASCII digit. -/
def digit? (c : Char) : Option Nat :=
  if '0'.toNat ≤ c.toNat ∧ c.toNat ≤ '9'.toNat then
    some (c.toNat - '0'.toNat)
  else none

/-- Read digits from the left, starting from the value of those before. -/
def extend? (value : Nat) : List Char → Option Nat
  | [] => some value
  | c :: rest => (digit? c).bind fun digit => extend? (10 * value + digit) rest

/-- The value of a nonempty digit sequence. -/
def magnitude? : List Char → Option Nat
  | [] => none
  | c :: rest => extend? 0 (c :: rest)

/-- The value of a digit sequence under one optional sign. -/
def signed? : List Char → Option Int
  | '-' :: digits => (magnitude? digits).map fun value => -(value : Int)
  | '+' :: digits => (magnitude? digits).map fun value => (value : Int)
  | digits => (magnitude? digits).map fun value => (value : Int)

/-- The integers that fit in 32 bits with sign. -/
def Fits (value : Int) : Prop := -2147483648 ≤ value ∧ value ≤ 2147483647

instance (value : Int) : Decidable (Fits value) :=
  inferInstanceAs (Decidable (_ ∧ _))

/-- Read a numeral; `none` when the text is none or its value does not fit. -/
def read? (text : String) : Option Int32 :=
  (signed? text.toList).bind fun value =>
    if Fits value then some (Int32.ofInt value) else none

example : write (-2147483648) = "-2147483648" := by decide
example : read? "+007" = some 7 := by decide
example : read? "-2147483648" = some (-2147483648) := by decide
example : read? "2147483648" = none := by decide
example : read? "+-1" = none := by decide
example : read? "-" = none := by decide

end MiniJava.Numeral
