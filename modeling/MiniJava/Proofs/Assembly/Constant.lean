import MiniJava.Proofs.Assembly.Instr
import MiniJava.Proofs.Label
import MiniJava.Proofs.Numeral

/-!
# Integer constants

Four opcodes push an integer constant.  Those that take less room are more
particular about their operands, so assembly tries them in order and takes the
first that will do.

`Pushes` says which lines of assembly push what, apart from how they are written
here.  The line of a literal pushes the number that its text spells, by the first
opcode that can push it, and there is such a line for exactly the texts that
spell a number of 32 bits (`line_of_literal`).
-/

namespace MiniJava.Jasmin

open Numeral (Spells Fits)
open Semantics
open Tac (Literal)

/-! ## Lines that push integers -/

/-- The opcodes that push integer constants. -/
inductive Opcode where
  | iconst
  | bipush
  | sipush
  | ldc
deriving DecidableEq, Repr

namespace Opcode

/-- The place of an opcode in the order of preference. -/
def rank : Opcode → Nat
  | iconst => 0
  | bipush => 1
  | sipush => 2
  | ldc => 3

/-- The text before the operand; that of `iconst` is part of the opcode. -/
def stem : Opcode → String
  | iconst => "iconst_"
  | bipush => "bipush "
  | sipush => "sipush "
  | ldc => "ldc "

/-- The integers that an opcode can push. -/
def Takes : Opcode → Int → Prop
  | iconst, value => -1 ≤ value ∧ value ≤ 5
  | bipush, value => -128 ≤ value ∧ value ≤ 127
  | sipush, value => -32768 ≤ value ∧ value ≤ 32767
  | ldc, value => Fits value

end Opcode

/-- The lines of an opcode with a legal operand, and the integer that they push. -/
inductive Pushes : Opcode → String → Int → Prop where
  | minusOne : Pushes .iconst "iconst_m1" (-1)
  | small {value : Nat} : value ≤ 5 → Pushes .iconst ("iconst_" ++ Nat.repr value) value
  | operand {opcode : Opcode} {text : String} {value : Int} : opcode ≠ .iconst →
      Spells text.toList value → opcode.Takes value → Pushes opcode (opcode.stem ++ text) value

namespace Pushes

variable {opcode opcode' : Opcode} {line : String} {value value' : Int}

theorem takes (h : Pushes opcode line value) : opcode.Takes value := by
  cases h with
  | minusOne => exact ⟨by omega, by omega⟩
  | small le => exact ⟨by omega, by omega⟩
  | operand _ _ takes => exact takes

/-- The first letter of a line tells the opcode. -/
theorem opcode_eq (h : Pushes opcode line value) (h' : Pushes opcode' line value') :
    opcode = opcode' := by
  have first : ∀ {opcode value}, Pushes opcode line value →
      line.toList.head? = opcode.stem.toList.head? := by
    intro opcode value pushes
    cases pushes with
    | minusOne => rfl
    | small _ => simp [Opcode.stem]
    | operand _ _ _ => cases opcode <;> simp [Opcode.stem]
  have same := (first h).symm.trans (first h')
  revert same
  cases opcode <;> cases opcode' <;> decide

/-- A line pushes one integer only. -/
theorem unique (h : Pushes opcode line value) (h' : Pushes opcode' line value') :
    opcode = opcode' ∧ value = value' := by
  obtain rfl := opcode_eq h h'
  refine ⟨rfl, ?_⟩
  generalize same : line = line' at h'
  have minusOne_ne : ∀ n : Nat, "iconst_m1" ≠ "iconst_" ++ Nat.repr n := by
    intro n equal
    have stems := (@append_repr_inj "iconst_m" "iconst_" 1 n (by decide) (by decide) equal).1
    revert stems
    decide
  cases h with
  | minusOne =>
      cases h' with
      | minusOne => rfl
      | small _ => exact absurd same (minusOne_ne _)
      | operand other _ _ => exact absurd rfl other
  | small _ =>
      cases h' with
      | minusOne => exact absurd same.symm (minusOne_ne _)
      | small _ =>
          obtain ⟨_, rfl⟩ := append_repr_inj (by decide) (by decide) same
          rfl
      | operand other _ _ => exact absurd rfl other
  | operand other spells _ =>
      cases h' with
      | minusOne => exact absurd rfl other
      | small _ => exact absurd rfl other
      | operand _ spells' _ =>
          obtain rfl := (String.append_right_inj _).mp same
          have values := (Numeral.signed?_eq_some_iff.mpr spells).symm.trans
            (Numeral.signed?_eq_some_iff.mpr spells')
          exact Option.some.inj values

end Pushes

/-- An instruction whose line pushes an integer and nothing else, by the first
opcode that can push it, and which does so on the machine. -/
structure Encodes (i : Instr) (value : Int32) (opcode : Opcode) : Prop where
  pushes : Pushes opcode i.text value.toInt
  unique : ∀ other number, Pushes other i.text number → other = opcode ∧ number = value.toInt
  first : ∀ earlier line, earlier.rank < opcode.rank → ¬ Pushes earlier line value.toInt
  runs : ∀ (machine : Machine) act,
    machine.perform i act = pure (.next, act.push (.int value))

theorem spells_write (value : Int32) : Spells (Numeral.write value).toList value.toInt :=
  Numeral.signed?_eq_some_iff.mp (Numeral.signed?_write value)

theorem encodes_ofInt (value : Int32) : ∃ opcode, Encodes (.ofInt value) value opcode := by
  suffices line : ∃ opcode, Pushes opcode (Instr.ofInt value).text value.toInt ∧
      ∀ earlier : Opcode, earlier.rank < opcode.rank → ¬ earlier.Takes value.toInt by
    obtain ⟨opcode, pushes, first⟩ := line
    exact ⟨opcode, pushes, fun _ _ other => other.unique pushes,
      fun earlier _ lower other => first earlier lower other.takes,
      fun _ _ => Frame.perform_ofInt value⟩
  have spells := spells_write value
  rw [Instr.ofInt]
  split
  · next inRange =>
      refine ⟨.iconst, ?_, fun earlier lower => absurd lower (Nat.not_lt_zero _)⟩
      rw [Instr.text]
      split
      · next minus =>
          rw [minus]
          exact .minusOne
      · next other =>
          have nonneg : 0 ≤ value.toInt := by
            have ne : value.toInt ≠ -1 := fun same => other (Int32.toInt_inj.mp same)
            omega
          obtain ⟨number, same⟩ := Int.eq_ofNat_of_zero_le nonneg
          have text : Numeral.write value = Nat.repr number := by simp [Numeral.write, same]
          rw [text, same]
          exact .small (by omega)
  · next notSmall =>
      split
      · next inRange =>
          refine ⟨.bipush, .operand (by decide) spells inRange, ?_⟩
          rintro (_ | _ | _ | _) lower takes
          · exact notSmall takes
          all_goals exact absurd lower (by decide)
      · next notByte =>
          split
          · next inRange =>
              refine ⟨.sipush, .operand (by decide) spells inRange, ?_⟩
              rintro (_ | _ | _ | _) lower takes
              · exact notSmall takes
              · exact notByte takes
              all_goals exact absurd lower (by decide)
          · next notShort =>
              refine ⟨.ldc, .operand (by decide) spells (Numeral.fits_toInt value), ?_⟩
              rintro (_ | _ | _ | _) lower takes
              · exact notSmall takes
              · exact notByte takes
              · exact notShort takes
              · exact absurd lower (by decide)

/-! ## Literals -/

namespace Frame

/-- A numeric literal is assembled to the instruction of the integer that it
denotes, if it denotes one. -/
theorem literal_of_numeric {text : String} {ty : Tac.Ty} (numeric : ty = .int ∨ ty = .bool)
    (height : Height) :
    literal ⟨text, ty⟩ height =
      match Numeral.read? text with
      | some value => .ok ⟨(), [.ofInt value], height.push 1⟩
      | none => .error (.invalidLiteral (Literal.text ⟨text, ty⟩)) := by
  cases number : Numeral.read? text with
  | none =>
      rcases numeric with rfl | rfl <;> simp [literal, constant, Literal.toInt?, number, Emit.fail]
  | some value =>
      rcases numeric with rfl | rfl <;>
        simp [literal, constant, Literal.toInt?, number] <;> rfl

theorem literal_ok_iff {text : String} {ty : Tac.Ty} (numeric : ty = .int ∨ ty = .bool)
    (height : Height) :
    (∃ emitted, literal ⟨text, ty⟩ height = .ok emitted) ↔
      ∃ number, Spells text.toList number ∧ Fits number := by
  rw [literal_of_numeric numeric, ← Numeral.isSome_read?_iff]
  cases Numeral.read? text with
  | none => simp
  | some value => simp

/-- An integer survives as a literal, whose line pushes it by the first opcode
that can.  A numeric literal is assembled if and only if its text is made of
decimal digits behind one optional sign and spells a number of 32 bits, and then
exactly as the decimal text of that number. -/
theorem line_of_literal (value : Int32) (text : String) {ty : Tac.Ty}
    (numeric : ty = .int ∨ ty = .bool) (height : Height) :
    (Literal.int value).toInt? = some value ∧
    (∃ i opcode, literal (.int value) height = .ok ⟨(), [i], height.push 1⟩ ∧
      Encodes i value opcode) ∧
    ((∃ emitted, literal ⟨text, ty⟩ height = .ok emitted) ↔
      ∃ number, Spells text.toList number ∧ Fits number) ∧
    ∀ number : Int32, Spells text.toList number.toInt →
      literal ⟨text, ty⟩ height = literal ⟨Numeral.write number, ty⟩ height := by
  refine ⟨Numeral.read?_write value, ?_, literal_ok_iff numeric height, ?_⟩
  · obtain ⟨opcode, encodes⟩ := encodes_ofInt value
    refine ⟨.ofInt value, opcode, ?_, encodes⟩
    rw [Literal.int, literal_of_numeric (.inl rfl), Numeral.read?_write]
  · intro number spells
    rw [literal_of_numeric numeric, literal_of_numeric numeric, Numeral.read?_write,
      Numeral.read?_eq_some_iff.mpr spells]

/-- The lowest integer survives, and `+007` is assembled as `7` is. -/
theorem line_of_literal_lowest :
    let lowest : Int32 := -2147483648
    let number : Int32 := 7
    (Tac.Ty.bool = .int ∨ Tac.Ty.bool = .bool) ∧ Spells "+007".toList number.toInt ∧
    (Literal.int lowest).toInt? = some lowest ∧
    (∃ i opcode, literal (.int lowest) {} = .ok ⟨(), [i], Height.push {} 1⟩ ∧
      Encodes i lowest opcode) ∧
    (∃ emitted, literal ⟨"+007", .bool⟩ {} = .ok emitted) ∧
    literal ⟨"+007", .bool⟩ {} = literal ⟨Numeral.write number, .bool⟩ {} := by
  intro lowest number
  have numeric : Tac.Ty.bool = .int ∨ Tac.Ty.bool = .bool := .inr rfl
  have spells : Spells "+007".toList number.toInt := Numeral.read?_eq_some_iff.mp (by decide)
  obtain ⟨survives, encoded, accepted, same⟩ := line_of_literal lowest "+007" numeric {}
  exact ⟨numeric, spells, survives, encoded,
    accepted.mpr ⟨number.toInt, spells, Numeral.fits_toInt number⟩, same number spells⟩

end Frame

end MiniJava.Jasmin
