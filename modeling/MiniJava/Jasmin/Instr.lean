import MiniJava.Jasmin.Descriptor
import MiniJava.Label
import MiniJava.Numeral
import MiniJava.Operator
import MiniJava.Tac.Instr

/-!
# Machine instructions

The instructions of a stack machine, as far as three-address code needs them,
and their spelling in Jasmin assembly.
-/

namespace MiniJava.Jasmin

/-- What a slot or a cell holds: an integer or truth value, or a reference. -/
inductive Kind where
  | int
  | ref
deriving DecidableEq, Repr

/-- The letter that stands for a kind in mnemonics. -/
def Kind.letter : Kind → String
  | int => "i"
  | ref => "a"

/-- Tests of one integer against zero. -/
inductive ZeroTest where
  | ne
  | lt
  | ge
  | gt
  | le
deriving DecidableEq, Repr

def ZeroTest.mnemonic : ZeroTest → String
  | ne => "ifne"
  | lt => "iflt"
  | ge => "ifge"
  | gt => "ifgt"
  | le => "ifle"

/-- Tests of two integers against each other. -/
inductive PairTest where
  | lt
  | ge
deriving DecidableEq, Repr

def PairTest.mnemonic : PairTest → String
  | lt => "if_icmplt"
  | ge => "if_icmpge"

/-- Machine instructions, labels included. -/
inductive Instr where
  /-- Push an integer that has an instruction of its own. -/
  | iconst (value : Int32)
  /-- Push an integer that fits in a byte. -/
  | bipush (value : Int32)
  /-- Push an integer that fits in two bytes. -/
  | sipush (value : Int32)
  /-- Push any integer. -/
  | ldcInt (value : Int32)
  /-- Push a constant given by its text. -/
  | ldcText (text : String)
  | load (kind : Kind) (slot : Nat)
  | store (kind : Kind) (slot : Nat)
  /-- Add a constant to a slot, without the stack. -/
  | iinc (slot : Nat) (delta : Int32)
  | arith (op : Arith)
  | ixor
  | new (className : String)
  | newIntArray
  | arrayLength
  | arrayLoad (kind : Kind)
  | arrayStore (kind : Kind)
  | getField (owner name : String) (descriptor : Descriptor)
  | putField (owner name : String) (descriptor : Descriptor)
  | invoke (kind : Tac.CallKind) (owner method : String)
      (descriptor : MethodDescriptor)
  /-- Drop one value. -/
  | pop
  | goto (target : Label)
  | ifZero (test : ZeroTest) (target : Label)
  | ifPair (test : PairTest) (target : Label)
  | ret (kind : Option Kind)
  | label (mark : Label)
deriving DecidableEq, Repr

namespace Instr

/-- Push an integer by the shortest instruction that can. -/
def ofInt (value : Int32) : Instr :=
  if -1 ≤ value.toInt ∧ value.toInt ≤ 5 then iconst value
  else if -128 ≤ value.toInt ∧ value.toInt ≤ 127 then bipush value
  else if -32768 ≤ value.toInt ∧ value.toInt ≤ 32767 then sipush value
  else ldcInt value

/-- The slot of a load or store; the first four are part of the mnemonic. -/
def slotText (slot : Nat) : String :=
  if slot ≤ 3 then "_" ++ Nat.repr slot else " " ++ Nat.repr slot

/-- The spelling of an instruction, without indentation. -/
def text : Instr → String
  | iconst value =>
      if value = -1 then "iconst_m1" else "iconst_" ++ Numeral.write value
  | bipush value => "bipush " ++ Numeral.write value
  | sipush value => "sipush " ++ Numeral.write value
  | ldcInt value => "ldc " ++ Numeral.write value
  | ldcText text => "ldc " ++ text
  | load kind slot => kind.letter ++ "load" ++ slotText slot
  | store kind slot => kind.letter ++ "store" ++ slotText slot
  | iinc slot delta => "iinc " ++ Nat.repr slot ++ " " ++ Numeral.write delta
  | arith op => op.mnemonic
  | ixor => "ixor"
  | new className => "new " ++ className
  | newIntArray => "newarray int"
  | arrayLength => "arraylength"
  | arrayLoad kind => kind.letter ++ "aload"
  | arrayStore kind => kind.letter ++ "astore"
  | getField owner name descriptor =>
      "getfield " ++ owner ++ "/" ++ name ++ " " ++ descriptor.text
  | putField owner name descriptor =>
      "putfield " ++ owner ++ "/" ++ name ++ " " ++ descriptor.text
  | invoke kind owner method descriptor =>
      kind.mnemonic ++ " " ++ owner ++ "/" ++ method ++ descriptor.text
  | pop => "pop"
  | goto target => "goto " ++ target.text
  | ifZero test target => test.mnemonic ++ " " ++ target.text
  | ifPair test target => test.mnemonic ++ " " ++ target.text
  | ret none => "return"
  | ret (some kind) => kind.letter ++ "return"
  | label mark => mark.text ++ ":"

/-- The line of an instruction; labels are not indented. -/
def line (indent : String) : Instr → String
  | label mark => (label mark).text ++ "\n"
  | instr => indent ++ instr.text ++ "\n"

end Instr

end MiniJava.Jasmin
