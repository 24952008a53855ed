import MiniJava.Proofs.Assembly.Instr
import MiniJava.Proofs.Assembly.Refusal

/-!
# Branches on comparisons

A comparison of two variables is tested directly.  If one of the operands is a
literal, the machine subtracts and tests the difference against zero instead.
The difference is taken in 32 bits.  If the true difference does not fit there,
the one that is computed has the opposite sign and the branch goes the wrong
way: it is taken where the comparison fails and passed by where it holds.

So a branch decides its comparison if and only if nothing is subtracted or the
difference fits (`taken_iff_of_branch`).
-/

namespace MiniJava.Jasmin

open Semantics
open Tac (Element Rhs)
open Numeral (Fits)

/-! ## The sign of a difference -/

/-- A difference that fits is computed, and one that does not fit is computed
with the opposite sign. -/
theorem toInt_sub_cases (left right : Int32) :
    let difference := left.toInt - right.toInt
    let computed := (left - right).toInt
    (Fits difference ∧ computed = difference) ∨
      (¬ Fits difference ∧ (0 < difference ∧ computed < 0 ∨ difference < 0 ∧ 0 < computed)) := by
  intro difference computed
  have lower := left.le_toInt
  have upper := left.toInt_lt
  have lower' := right.le_toInt
  have upper' := right.toInt_lt
  have wrapped : computed = difference.bmod 4294967296 := Int32.toInt_sub left right
  rw [Int.bmod_def] at wrapped
  simp only [Fits]
  omega

/-- What a test against zero says of an integer. -/
def ZeroTest.Holds : ZeroTest → Int → Prop
  | ne, value => value ≠ 0
  | lt, value => value < 0
  | ge, value => 0 ≤ value
  | gt, value => 0 < value
  | le, value => value ≤ 0

theorem zeroTest_eq_true_iff (test : ZeroTest) (value : Int32) :
    zeroTest test value = true ↔ test.Holds value.toInt := by
  cases test with
  | ne => simp [zeroTest, ZeroTest.Holds, ← Int32.toInt_inj]
  | _ => simp [zeroTest, ZeroTest.Holds, Int32.lt_iff_toInt_lt, Int32.le_iff_toInt_le]

/-- A test of the sign is right about the true difference exactly if that fits. -/
theorem zeroTest_sub_iff {test : ZeroTest} (ofSign : test ≠ .ne) (left right : Int32) :
    (zeroTest test (left - right) = true ↔ test.Holds (left.toInt - right.toInt)) ↔
      Fits (left.toInt - right.toInt) := by
  rw [zeroTest_eq_true_iff]
  rcases toInt_sub_cases left right with ⟨fits, same⟩ | ⟨unfit, opposite⟩
  · simp only [fits, same]
  · cases test with
    | ne => exact absurd rfl ofSign
    | _ =>
        simp only [unfit, ZeroTest.Holds, iff_false]
        omega

/-! ## Comparisons -/

namespace Frame

variable {frame : Frame} {slots : Nat → Value}

/-- An operand that stands for an integer: a variable whose register holds it or
a literal that denotes it. -/
inductive IsInt (frame : Frame) (slots : Nat → Value) : Element → Int32 → Prop where
  | held {name : String} {slot : Nat} {value : Int32}
      (found : frame.registers.find? name = some slot) (holds : slots slot = .int value) :
      IsInt frame slots (.var name .int) value
  | written {text : String} {value : Int32} (number : Numeral.read? text = some value) :
      IsInt frame slots (.literal ⟨text, .int⟩) value

theorem IsInt.not_refused {elem : Element} {value : Int32} (isInt : IsInt frame slots elem value)
    (error : CompileError) : ¬ ElementRefusal frame elem error := by
  intro refusal
  cases isInt with
  | held found _ =>
      cases refusal with
      | unknown missing => rw [found] at missing; cases missing
      | void isVoid => cases isVoid
  | written number =>
      cases refusal with
      | literal failed => simp [constant, Tac.Literal.toInt?, number] at failed

/-- The instruction of an operand pushes the integer that it stands for. -/
theorem IsInt.runLine_cons {elem : Element} {value : Int32} (isInt : IsInt frame slots elem value)
    {i : Instr} (code : ElementCode frame elem i) (machine : Machine) (stack : List Value)
    (rest : List Instr) :
    machine.runLine (i :: rest) ⟨stack, slots⟩ =
      machine.runLine rest ⟨.int value :: stack, slots⟩ := by
  cases isInt with
  | held found holds =>
      cases code with
      | load found' =>
          cases found.symm.trans found'
          exact runLine_load holds rest
  | written number =>
      cases code with
      | literal made =>
          simp only [constant, Tac.Literal.toInt?, number, Except.ok.injEq] at made
          subst made
          exact runLine_ofInt value rest

/-- The operator of a comparison. -/
def comparisonOp (isLess : Bool) : Tac.BinOp := if isLess then .lt else .ge

/-- What a comparison says of two integers with sign. -/
def Compares : Bool → Int32 → Int32 → Prop
  | true, left, right => left.toInt < right.toInt
  | false, left, right => right.toInt ≤ left.toInt

instance : ∀ isLess left right, Decidable (Compares isLess left right)
  | true, left, right => inferInstanceAs (Decidable (left.toInt < right.toInt))
  | false, left, right => inferInstanceAs (Decidable (right.toInt ≤ left.toInt))

/-- The true value of the difference that is tested, if one is. -/
def difference? (left right : Element) (l r : Int32) : Option Int :=
  if right.isLiteral then some (l.toInt - r.toInt)
  else if left.isLiteral then some (r.toInt - l.toInt)
  else none

/-- A subtraction and a test of the difference. -/
theorem runLine_difference (machine : Machine) (test : ZeroTest) (target : Label) (l r : Int32)
    (stack : List Value) :
    machine.runLine [.arith .sub, .ifZero test target] ⟨.int r :: .int l :: stack, slots⟩ =
      pure (Machine.jumpIf (zeroTest test (l - r)) target, ⟨stack, slots⟩) := by
  simp only [Machine.runLine, Machine.perform, takeOne_cons, Exec.arith, Activation.push,
    Machine.integer, pure_bind]
  cases zeroTest test (l - r) <;> rfl

theorem runLine_ifPair (machine : Machine) (test : PairTest) (target : Label) (l r : Int32)
    (stack : List Value) :
    machine.runLine [.ifPair test target] ⟨.int r :: .int l :: stack, slots⟩ =
      pure (Machine.jumpIf (pairTest test l r) target, ⟨stack, slots⟩) := by
  simp only [Machine.runLine, Machine.perform, takeOne_cons, Machine.integer, pure_bind]
  cases pairTest test l r <;> rfl

/-- Comparisons of integers are assembled. -/
theorem compare_accepted {left right : Element} {l r : Int32} (isLeft : IsInt frame slots left l)
    (isRight : IsInt frame slots right r) (isLess : Bool) (target : Label) (before : Height) :
    ∃ emitted, frame.compare isLess left right target before = .ok emitted := by
  have accepted : ∀ elem ∈ [left, right], ∀ error, ElementRefusal frame elem error → False := by
    intro elem mem error refusal
    rcases List.mem_pair.mp mem with rfl | rfl
    · exact isLeft.not_refused error refusal
    · exact isRight.not_refused error refusal
  have meets : Meets (frame.compare isLess left right target) before.current _ _ :=
    meets_compare accepted
  have met := meets before rfl
  cases result : frame.compare isLess left right target before with
  | error error => rw [result] at met; exact met.elim
  | ok emitted => exact ⟨emitted, rfl⟩

/-- The code of a comparison jumps or goes on, and it does the right one of the
two exactly if the difference that it tests fits. -/
theorem runLine_compare {left right : Element} {l r : Int32} (isLeft : IsInt frame slots left l)
    (isRight : IsInt frame slots right r) {isLess : Bool} {target : Label}
    {before after : Height} {code : List Instr}
    (made : CompareCode frame isLess left right target before code after) (machine : Machine)
    (stack : List Value) :
    ∃ taken, machine.runLine code ⟨stack, slots⟩ =
        pure (Machine.jumpIf taken target, ⟨stack, slots⟩) ∧
      ((taken = true ↔ Compares isLess l r) ↔
        ∀ value ∈ difference? left right l r, Fits value) := by
  cases made with
  | rightLiteral literal first second _ _ =>
      refine ⟨zeroTest (if isLess then .lt else .ge) (l - r), ?_, ?_⟩
      · rw [isLeft.runLine_cons first, isRight.runLine_cons second, runLine_difference]
      · have meaning : Compares isLess l r ↔
            (if isLess then ZeroTest.lt else .ge).Holds (l.toInt - r.toInt) := by
          cases isLess <;> simp only [Compares, ZeroTest.Holds, reduceIte, Bool.false_eq_true] <;>
            omega
        rw [meaning, zeroTest_sub_iff (by cases isLess <;> decide)]
        simp [difference?, literal]
  | leftLiteral variable' literal first second _ _ =>
      -- The variable is pushed first, so the test is turned around.
      refine ⟨zeroTest (if isLess then .gt else .le) (r - l), ?_, ?_⟩
      · rw [isRight.runLine_cons first, isLeft.runLine_cons second, runLine_difference]
      · have meaning : Compares isLess l r ↔
            (if isLess then ZeroTest.gt else .le).Holds (r.toInt - l.toInt) := by
          cases isLess <;> simp only [Compares, ZeroTest.Holds, reduceIte, Bool.false_eq_true] <;>
            omega
        rw [meaning, zeroTest_sub_iff (by cases isLess <;> decide)]
        simp [difference?, variable', literal]
  | noLiteral variable' variable'' first second _ _ =>
      refine ⟨pairTest (if isLess then .lt else .ge) l r, ?_, ?_⟩
      · rw [isLeft.runLine_cons first, isRight.runLine_cons second, runLine_ifPair]
      · have meaning : pairTest (if isLess then .lt else .ge) l r = true ↔ Compares isLess l r := by
          cases isLess <;>
            simp [pairTest, Compares, Int32.lt_iff_toInt_lt, Int32.le_iff_toInt_le]
        simp [meaning, difference?, variable', variable'']

/-- A branch on a comparison of integers is assembled, and its code does nothing
but jump to the target or go on.  It jumps exactly where the comparison holds if
and only if the operands are two variables or the difference of the operands, in
the order in which they are subtracted, fits in 32 bits. -/
theorem taken_iff_of_branch (frame : Frame) (machine : Machine) (isLess : Bool)
    {left right : Element} (target : Label) {slots : Nat → Value} {l r : Int32}
    (isLeft : IsInt frame slots left l) (isRight : IsInt frame slots right r)
    (stack : List Value) (before : Height) :
    ∃ emitted taken,
      frame.instr (.branch (.binary (comparisonOp isLess) left right) target) before =
        .ok emitted ∧
      machine.runLine emitted.code ⟨stack, slots⟩ =
        pure (Machine.jumpIf taken target, ⟨stack, slots⟩) ∧
      ((taken = true ↔ Compares isLess l r) ↔
        ∀ value ∈ difference? left right l r, Fits value) := by
  obtain ⟨⟨_, code, after⟩, accepted⟩ := compare_accepted isLeft isRight isLess target before
  have made : CompareCode frame isLess left right target before code after :=
    emits_compare accepted
  obtain ⟨taken, run, decides⟩ := runLine_compare isLeft isRight made machine stack
  refine ⟨⟨(), code, after⟩, taken, ?_, run, decides⟩
  cases isLess <;> exact accepted

/-- A method that compares its first parameter with a literal and with its second
parameter. -/
def compared : Tac.Method where
  name := "compared"
  isStatic := true
  params := [⟨"x", .int⟩, ⟨"y", .int⟩]
  ret := .void
  body := [.branch (.binary .lt (.var "x" .int) (.int 1)) (.numbered .onTrue 0),
    .branch (.binary .lt (.var "x" .int) (.var "y" .int)) (.numbered .onTrue 0),
    .label (.numbered .onTrue 0), .ret .void none]

def comparedFrame : Frame := .of {} ⟨"Foo", none, [], [], [compared]⟩ compared

/-- The least value from which `1` can be subtracted in 32 bits is compared
rightly. -/
theorem taken_iff_of_branch_lowest :
    let machine : Machine := ⟨fun _ => .null, fun _ heap => (.ok .null, heap)⟩
    let slots : Nat → Value := fun _ => .int (-2147483647)
    let target : Label := .numbered .onTrue 0
    IsInt comparedFrame slots (.var "x" .int) (-2147483647) ∧
    IsInt comparedFrame slots (.int 1) 1 ∧
    ∃ emitted taken,
      comparedFrame.instr (.branch (.binary .lt (.var "x" .int) (.int 1)) target) {} =
        .ok emitted ∧
      machine.runLine emitted.code ⟨[], slots⟩ =
        pure (Machine.jumpIf taken target, ⟨[], slots⟩) ∧
      (taken = true ↔ Compares true (-2147483647) 1) := by
  intro machine slots target
  have isLeft : IsInt comparedFrame slots (.var "x" .int) (-2147483647) := .held rfl rfl
  have isRight : IsInt comparedFrame slots (.int 1) 1 := .written (by decide)
  obtain ⟨emitted, taken, accepted, run, decides⟩ :=
    taken_iff_of_branch comparedFrame machine true target isLeft isRight [] {}
  exact ⟨isLeft, isRight, emitted, taken, accepted, run, decides.mpr (by decide)⟩

/-- For the least value of all, `x < 1` is decided wrongly, while `x < y` is
decided rightly for the same values. -/
theorem not_taken_of_branch_least :
    let machine : Machine := ⟨fun _ => .null, fun _ heap => (.ok .null, heap)⟩
    let slots : Nat → Value := fun slot => .int (if slot = 0 then -2147483648 else 1)
    let target : Label := .numbered .onTrue 0
    let withLiteral : List Instr :=
      [.load .int 0, .iconst 1, .arith .sub, .ifZero .lt target]
    let withVariable : List Instr := [.load .int 0, .load .int 1, .ifPair .lt target]
    Compares true (-2147483648) 1 ∧
    (comparedFrame.instrs compared.body {}).value.map Prod.fst =
      .ok (withLiteral ++ withVariable ++ [.label target, .ret none]) ∧
    machine.runLine withLiteral ⟨[], slots⟩ = pure (.next, ⟨[], slots⟩) ∧
    machine.runLine withVariable ⟨[], slots⟩ = pure (.jump target, ⟨[], slots⟩) := by
  refine ⟨by decide, by decide +kernel, ?_, ?_⟩
  · rfl
  · rfl

end Frame

end MiniJava.Jasmin
