import MiniJava.Proofs.Assembly.Instr
import MiniJava.Proofs.Assembly.Mirror

/-!
# Adding constants in place

The options decide whether a small constant is added to a variable by one
instruction or by way of the stack.  The two ways do the same on every stack and
all registers (`runLine_of_addition`).  One instruction takes less of the stack
and asks less of its operands: it looks at the name of the variable that is read
and not at its type, and at the text of the literal and not at its type.

So the option makes no difference but in those places if a variable has one type
wherever it is mentioned and the literals that are added are integers: a method
is refused for the same reason, or assembled to code in which additions stand
for increments (`sameOutcome_of_iinc`).
-/

namespace MiniJava

/-! ## Bodies -/

namespace Tac

/-- Whether a variable has the same type wherever the body mentions it. -/
def SingleTyped (body : List Instr) : Prop :=
  ∀ first ∈ body.flatMap Instr.operands, ∀ second ∈ body.flatMap Instr.operands,
    first.name = second.name → first.ty = second.ty

/-- The literals that an assignment adds. -/
def Instr.addedLiterals : Instr → List Literal
  | .assign _ _ (.binary (.arith .add) left right) => [left, right].filterMap Element.literal?
  | _ => []

end Tac

namespace Jasmin

open Semantics
open Tac (Operand Literal Rhs SingleTyped)

/-! ## Code -/

/-- Code that adds a constant to a variable by way of the stack. -/
inductive Addition (slot : Nat) (delta : Int32) : List Instr → Prop where
  | variableFirst :
      Addition slot delta [.load .int slot, .ofInt delta, .arith .add, .store .int slot]
  | constantFirst :
      Addition slot delta [.ofInt delta, .load .int slot, .arith .add, .store .int slot]

section
variable (machine : Machine)

theorem runLine_add_store (left right : Int32) (slot : Nat) (act : Activation) :
    machine.runLine [.arith .add, .store .int slot] ((act.push (.int left)).push (.int right)) =
      pure (.next, act.set slot (.int (left + right))) := by
  simp only [Machine.runLine, Machine.perform, Machine.takeOne_push, pure_bind, Exec.arith,
    Machine.checked]
  rfl

/-- A register that holds no integer can neither be loaded as one nor
incremented. -/
theorem runLine_fail {act : Activation} {slot : Nat}
    (held : ∀ value, act.registers slot ≠ .int value) (delta : Int32) (rest : List Instr) :
    machine.runLine (.load .int slot :: rest) act = Exec.fail .illTyped ∧
      machine.runLine [.iinc slot delta] act = Exec.fail .illTyped := by
  rw [Machine.runLine, Machine.runLine, Machine.perform, Machine.perform]
  cases value : act.registers slot with
  | int number => exact absurd value (held number)
  | _ => exact ⟨rfl, rfl⟩

/-- Adding a constant in place does what adding it by way of the stack does. -/
theorem runLine_of_addition {slot : Nat} {delta : Int32} {group : List Instr}
    (adds : Addition slot delta group) (act : Activation) :
    machine.runLine group act = machine.runLine [.iinc slot delta] act := by
  by_cases held : ∃ value, act.registers slot = .int value
  · obtain ⟨value, held⟩ := held
    have inPlace : machine.runLine [.iinc slot delta] act =
        pure (.next, act.set slot (.int (value + delta))) := by
      rw [Machine.runLine, Machine.perform, held]
      rfl
    cases adds with
    | variableFirst =>
        rw [Frame.runLine_load held, Frame.runLine_ofInt, runLine_add_store, inPlace]
    | constantFirst =>
        have held' : (act.push (.int delta)).registers slot = .int value := held
        rw [Frame.runLine_ofInt, Frame.runLine_load held', runLine_add_store, inPlace,
          Int32.add_comm]
  · rw [not_exists] at held
    cases adds with
    | variableFirst =>
        obtain ⟨load, inPlace⟩ := runLine_fail machine held delta
          [.ofInt delta, .arith .add, .store .int slot]
        rw [load, inPlace]
    | constantFirst =>
        have held' : ∀ value, (act.push (.int delta)).registers slot ≠ .int value := held
        rw [Frame.runLine_ofInt, (runLine_fail machine held' delta _).1,
          (runLine_fail machine held delta []).2]

end

/-- The first code is the second one with some additions done in place. -/
inductive Shortens : List Instr → List Instr → Prop where
  | nil : Shortens [] []
  | keep (instr : Instr) {short long : List Instr} (rest : Shortens short long) :
      Shortens (instr :: short) (instr :: long)
  | increment {slot : Nat} {delta : Int32} {group short long : List Instr}
      (adds : Addition slot delta group) (small : -128 ≤ delta.toInt ∧ delta.toInt ≤ 127)
      (rest : Shortens short long) : Shortens (.iinc slot delta :: short) (group ++ long)

namespace Shortens

theorem refl : ∀ code, Shortens code code
  | [] => .nil
  | instr :: rest => .keep instr (refl rest)

theorem append {short long short' long' : List Instr} (first : Shortens short long)
    (second : Shortens short' long') : Shortens (short ++ short') (long ++ long') := by
  induction first with
  | nil => exact second
  | keep instr _ ih => exact .keep instr ih
  | increment adds small _ ih =>
      rw [List.append_assoc]
      exact .increment adds small ih

end Shortens

/-! ## Instructions -/

/-- Two results of which both are errors, and the same one, or both are related
values. -/
inductive SameOutcome {α : Type} (related : α → α → Prop) :
    Except CompileError α → Except CompileError α → Prop where
  | error (error : CompileError) : SameOutcome related (.error error) (.error error)
  | ok {value value' : α} (h : related value value') : SameOutcome related (.ok value) (.ok value')

/-- Shorter code, which needs no higher stack. -/
def ShorterCode (short long : Emitted Unit) : Prop :=
  Shortens short.code long.code ∧ ∃ level, long.height = short.height.raise level

theorem Height.raise_raise (first second : Nat) (height : Height) :
    (height.raise first).raise second = height.raise (Nat.max first second) := by
  simp only [raise, Height.mk.injEq, true_and]
  exact Nat.max_assoc ..

/-- Emissions that succeed one after the other. -/
theorem Emits.andThen {α β : Type} {first : Emit α} {next : α → Emit β}
    {before between after : Height} {middle : α} {value : β} {code rest : List Instr}
    (h : Emits first before middle code between)
    (h' : Emits (next middle) between value rest after) :
    Emits (first >>= next) before value (code ++ rest) after :=
  (Emit.bind_eq_ok_iff ..).mpr ⟨_, _, h, h', rfl⟩

namespace Frame

variable {frame : Frame}

theorem emits_of_slotOf {name : String} {slot : Nat}
    (found : frame.registers.find? name = some slot) (height : Height) :
    Emits (frame.slotOf name) height slot [] height := by
  rw [slotOf, found]
  rfl

theorem emits_of_drop {count : Nat} {height lower : Height}
    (enough : height.pop? count = some lower) :
    Emits (frame.drop count) height () [] lower := by
  rw [Emits, drop, Emit.pop, enough]

theorem emits_of_load {op : Operand} {slot : Nat}
    (found : frame.registers.find? op.name = some slot) (isInt : op.ty = .int) (height : Height) :
    Emits (frame.load op) height () [.load .int slot] (height.push 1) := by
  have kind : Emits (kindOf op.ty) height .int [] height := by
    rw [isInt]
    rfl
  exact (emits_of_slotOf found height).andThen (kind.andThen rfl)

theorem emits_of_store {op : Operand} {slot : Nat}
    (found : frame.registers.find? op.name = some slot) (isInt : op.ty = .int)
    {height lower : Height} (enough : height.pop? 1 = some lower) :
    Emits (frame.store op) height () [.store .int slot] lower := by
  have kind : Emits (kindOf op.ty) height .int [] height := by
    rw [isInt]
    rfl
  have put : Emits (Emit.put (.store .int slot)) height () [.store .int slot] height := rfl
  exact (emits_of_slotOf found height).andThen (kind.andThen (put.andThen (emits_of_drop enough)))

theorem emits_of_literal {lit : Literal} {value : Int32} (isInt : lit.ty = .int)
    (number : lit.toInt? = some value) (height : Height) :
    Emits (literal lit) height () [.ofInt value] (height.push 1) := by
  simp only [literal, constant, isInt, number]
  rfl

/-- The sum of a variable and a constant is stored by way of the stack. -/
theorem set_of_sum (slow : frame.iinc = false) {dest op : Operand} {lit : Literal} {rhs : Rhs}
    {delta : Int32} (same : op.name = dest.name) (destTy : dest.ty = .int) (opTy : op.ty = .int)
    (litTy : lit.ty = .int) (number : lit.toInt? = some delta)
    (shape : rhs = .binary (.arith .add) (.operand op) (.literal lit) ∨
      rhs = .binary (.arith .add) (.literal lit) (.operand op)) (height : Height) :
    (frame.registers.find? dest.name = none ∧
      frame.set dest rhs height = .error (.unknownVariable frame.method dest.name)) ∨
    ∃ slot group, frame.registers.find? dest.name = some slot ∧ Addition slot delta group ∧
      Emits (frame.set dest rhs) height () group (height.raise (height.current + 2)) := by
  have set_eq : frame.set dest rhs = (do frame.rhs rhs; frame.store dest) := by
    have plain : frame.increment? dest rhs = none := by simp [increment?, slow]
    rw [set, plain]
    rcases shape with rfl | rfl <;> rfl
  rw [set_eq]
  have literal := emits_of_literal litTy number
  cases found : frame.registers.find? dest.name with
  | none =>
      have missing : ∀ height, frame.load op height =
          .error (.unknownVariable frame.method dest.name) := by
        intro height
        simp only [load, slotOf, same, found]
        rfl
      refine .inl ⟨rfl, (Emit.bind_eq_error_iff ..).mpr (.inl ?_)⟩
      rcases shape with rfl | rfl
      · exact (Emit.bind_eq_error_iff ..).mpr (.inl (missing height))
      · exact (Emit.bind_eq_error_iff ..).mpr (.inr ⟨_, literal height,
          (Emit.bind_eq_error_iff ..).mpr (.inl (missing _))⟩)
  | some slot =>
      -- Both operands are on the stack before they are added, in either order.
      have load := emits_of_load (same ▸ found : frame.registers.find? op.name = some slot) opTy
      have sum : Emits (do Emit.put (.arith .add); frame.drop 1) ((height.push 1).push 1) ()
          [.arith .add] ⟨height.current + 1, Nat.max height.max (height.current + 2)⟩ := by
        have put : Emits (Emit.put (.arith .add)) ((height.push 1).push 1) () [.arith .add]
            ((height.push 1).push 1) := rfl
        refine put.andThen (emits_of_drop ?_)
        simp [Height.push, Height.pop?]
      have store : Emits (frame.store dest)
          ⟨height.current + 1, Nat.max height.max (height.current + 2)⟩ () [.store .int slot]
          (height.raise (height.current + 2)) := emits_of_store found destTy rfl
      rcases shape with rfl | rfl
      · have value : Emits (frame.rhs (.binary (.arith .add) (.operand op) (.literal lit)))
            height () [.load .int slot, .ofInt delta, .arith .add] _ :=
          (load height).andThen ((literal _).andThen sum)
        exact .inr ⟨slot, _, rfl, .variableFirst, value.andThen store⟩
      · have value : Emits (frame.rhs (.binary (.arith .add) (.literal lit) (.operand op)))
            height () [.ofInt delta, .load .int slot, .arith .add] _ :=
          (literal height).andThen ((load _).andThen sum)
        exact .inr ⟨slot, _, rfl, .constantFirst, value.andThen store⟩

/-! ### With and without increments -/

section
variable {fast slow : Frame} {body : List Tac.Instr} (alike : Alike .id fast slow)
  (plain : slow.iinc = false) (single : SingleTyped body)
  (integers : ∀ instr ∈ body, ∀ lit ∈ instr.addedLiterals, lit.ty = .int)
include alike plain single integers

/-- What is done in place at one time can be done by way of the stack. -/
theorem shortens_set {dest : Operand} {ty : Tac.Ty} {rhs : Rhs} {delta : Int32}
    (mem : .assign (.var dest) ty rhs ∈ body) (small : fast.increment? dest rhs = some delta)
    (height : Height) (level : Nat) :
    SameOutcome ShorterCode (fast.set dest rhs height)
      (slow.set dest rhs (height.raise level)) := by
  obtain ⟨-, destTy, ⟨op, lit, same, number, shape⟩, range⟩ := increment_of_eq_some small
  have opTy : op.ty = .int := by
    rw [← destTy]
    refine single op ?_ dest ?_ same
    · refine List.mem_flatMap.mpr ⟨_, mem, ?_⟩
      rcases shape with rfl | rfl <;>
        simp [Tac.Instr.operands, Rhs.operands, Tac.Element.operands, Tac.Element.operand?]
    · exact List.mem_flatMap.mpr ⟨_, mem, List.mem_cons_self⟩
  have litTy : lit.ty = .int := by
    refine integers _ mem lit ?_
    rcases shape with rfl | rfl <;> simp [Tac.Instr.addedLiterals, Tac.Element.literal?]
  have slots : slow.registers.find? dest.name = fast.registers.find? dest.name :=
    alike.slots dest.name
  have set_eq : fast.set dest rhs =
      (do let slot ← fast.slotOf dest.name; Emit.put (.iinc slot delta)) := by
    rw [set, small]
  rcases set_of_sum plain same destTy opTy litTy number shape (height.raise level) with
    ⟨missing, refused⟩ | ⟨slot, group, found, adds, stored⟩
  · rw [slots] at missing
    rw [refused, set_eq, slotOf, missing, alike.method]
    exact .error _
  · rw [slots] at found
    have inPlace : Emits (fast.set dest rhs) height () [.iinc slot delta] height := by
      rw [set_eq]
      exact (emits_of_slotOf found height).andThen rfl
    rw [stored, inPlace]
    refine .ok ⟨?_, _, Height.raise_raise ..⟩
    rw [← List.append_nil group]
    exact .increment adds range .nil

theorem shortens_instr {instr : Tac.Instr} (mem : instr ∈ body) (height : Height) (level : Nat) :
    SameOutcome ShorterCode (fast.instr instr height) (slow.instr instr (height.raise level)) := by
  by_cases increments : ∃ dest ty rhs delta,
      instr = .assign (.var dest) ty rhs ∧ fast.increment? dest rhs = some delta
  · obtain ⟨dest, ty, rhs, delta, rfl, small⟩ := increments
    exact shortens_set alike plain single integers mem small height level
  · have agree : ∀ dest ty rhs, instr = .assign (.var dest) ty rhs →
        slow.increment? (dest.rename .id) (rhs.rename .id) = fast.increment? dest rhs := by
      intro dest ty rhs shape
      cases small : fast.increment? dest rhs with
      | none => simp [increment?, plain]
      | some delta => exact absurd ⟨dest, ty, rhs, delta, shape, small⟩ increments
    have mirrors : Mirrors .id level _ _ := alike.mirrors_instr instr agree
    have mirrored := mirrors height
    rw [Tac.Instr.rename_id] at mirrored
    rw [mirrored]
    cases fast.instr instr height with
    | error error =>
        rw [Renaming.outcome, CompileError.rename_id]
        exact .error error
    | ok emitted =>
        have code : emitted.code.map (Instr.relabel id) = emitted.code := by simp
        refine .ok ⟨?_, level, rfl⟩
        rw [Emitted.mirror, Renaming.label_id, code]
        exact .refl emitted.code

/-- Whole bodies, from the instructions on that are left. -/
theorem shortens_instrs : ∀ {rest : List Tac.Instr}, (∀ instr ∈ rest, instr ∈ body) →
    ∀ (height : Height) (level : Nat),
      SameOutcome (fun short long => Shortens short.1 long.1 ∧ short.2.max ≤ long.2.max)
        (fast.instrs rest height).value (slow.instrs rest (height.raise level)).value
  | [], _, height, level => .ok ⟨.nil, Nat.le_max_left _ _⟩
  | first :: rest, inside, height, level => by
      rw [List.forall_mem_cons] at inside
      have step := shortens_instr alike plain single integers inside.1 height level
      rw [instrs, instrs]
      generalize fast.instr first height = result at step
      generalize slow.instr first (height.raise level) = result' at step
      cases step with
      | error error => exact .error error
      | @ok short long shorter =>
          -- What follows starts from a stack that was higher by another level.
          obtain ⟨code, level', raised⟩ := shorter
          have others := shortens_instrs inside.2 short.height level'
          simp only [Noted.value_bind, Noted.value_pure, raised]
          generalize (fast.instrs rest short.height).value = result at others
          generalize (slow.instrs rest (short.height.raise level')).value = result' at others
          cases others with
          | error error => exact .error error
          | ok related => exact .ok ⟨code.append related.1, related.2⟩

end

end Frame

/-! ## Methods -/

/-- Two methods that differ in their code and the height of their stack only. -/
structure ShorterMethod (short long : Method) : Prop where
  header : short = { long with code := short.code, stackLimit := short.stackLimit }
  localsLimit : short.localsLimit = long.localsLimit
  stackLimit : short.stackLimit ≤ long.stackLimit
  code : Shortens short.code long.code

/-- Whether constants are added in place makes no difference but that: with and
without it a method is refused for the same reason, or the code differs in
additions that are done in place and does the same there. -/
theorem sameOutcome_of_iinc (options : Options) (unit : Tac.Class) (method : Tac.Method)
    (single : SingleTyped method.body)
    (integers : ∀ instr ∈ method.body, ∀ lit ∈ instr.addedLiterals, lit.ty = .int) :
    SameOutcome ShorterMethod (assembleMethod { options with iinc := true } unit method).value
      (assembleMethod { options with iinc := false } unit method).value ∧
    ∀ slot delta group, Addition slot delta group → ∀ (machine : Machine) act,
      machine.runLine group act = machine.runLine [.iinc slot delta] act := by
  refine ⟨?_, fun slot delta group adds machine act => runLine_of_addition machine adds act⟩
  let fast := Frame.of { options with iinc := true } unit method
  let slow := Frame.of { options with iinc := false } unit method
  have alike : Frame.Alike .id fast slow := ⟨rfl, rfl, rfl, Renaming.faithful_id, fun _ => rfl⟩
  have body := Frame.shortens_instrs alike rfl single integers (fun _ mem => mem) {} 0
  rw [Height.raise_zero] at body
  simp only [assembleMethod, Noted.value_bind, Noted.value_pure]
  generalize (fast.instrs method.body {}).value = result at body
  generalize (slow.instrs method.body {}).value = result' at body
  cases body with
  | error error => exact .error error
  | ok related => exact .ok ⟨rfl, rfl, related.2, related.1⟩

/-- A method that adds constants to its parameter, two of them small. -/
def bump : Tac.Method where
  name := "bump"
  isStatic := true
  params := [⟨"n", .int⟩]
  ret := .int
  body :=
    [.set ⟨"n", .int⟩ (.binary (.arith .add) (.var "n" .int) (.int 1)),
     .set ⟨"n", .int⟩ (.binary (.arith .add) (.int (-128)) (.var "n" .int)),
     .set ⟨"n", .int⟩ (.binary (.arith .add) (.var "n" .int) (.int 128)),
     .ret .int (some (.var "n" .int))]

theorem sameOutcome_of_iinc_bump :
    let short : List Instr :=
      [.iinc 0 1, .iinc 0 (-128), .load .int 0, .sipush 128, .arith .add, .store .int 0,
        .load .int 0, .ret (some .int)]
    let long : List Instr :=
      [.load .int 0, .iconst 1, .arith .add, .store .int 0, .bipush (-128), .load .int 0,
        .arith .add, .store .int 0, .load .int 0, .sipush 128, .arith .add, .store .int 0,
        .load .int 0, .ret (some .int)]
    SingleTyped bump.body ∧ (∀ instr ∈ bump.body, ∀ lit ∈ instr.addedLiterals, lit.ty = .int) ∧
    Shortens short long ∧
    ∀ (machine : Machine) act,
      machine.runLine [.load .int 0, .iconst 1, .arith .add, .store .int 0] act =
        machine.runLine [.iinc 0 1] act := by
  intro short long
  let unit : Tac.Class := ⟨"Foo", none, [], [], [bump]⟩
  have single : SingleTyped bump.body := by
    unfold SingleTyped
    decide
  have integers : ∀ instr ∈ bump.body, ∀ lit ∈ instr.addedLiterals, lit.ty = .int := by decide
  obtain ⟨same, effect⟩ := sameOutcome_of_iinc {} unit bump single integers
  have fast : (assembleMethod { iinc := true } unit bump).value =
      .ok ⟨"bump", true, true, ⟨[.int], .int⟩, 2, 2, short⟩ := by decide +kernel
  have slow : (assembleMethod { iinc := false } unit bump).value =
      .ok ⟨"bump", true, true, ⟨[.int], .int⟩, 2, 2, long⟩ := by decide +kernel
  rw [fast, slow] at same
  cases same with
  | ok shorter => exact ⟨single, integers, shorter.code, effect 0 1 _ .variableFirst⟩

end Jasmin

end MiniJava
