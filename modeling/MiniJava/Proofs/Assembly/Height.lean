import MiniJava.Proofs.Assembly.Emit
import MiniJava.Proofs.Semantics.Jasmin

/-!
# The accounting of heights

Every machine instruction pops and pushes a fixed number of values
(`Instr.pops`, `Instr.pushes`), and the machine does what these numbers say
(`perform_moves`).  Assembly accounts for heights apart from the code it writes.
Here the two are compared.

The code of a three-address instruction, followed by what its instructions pop
and push, ends at the height that was accounted for (`follow?_instr`).  If the
stack is empty before it, the stack is empty after it (`current_of_instr`).  A
jump can only come last in the code of an instruction, and a label is all of it
(`arranged_of_instr`).
-/

namespace MiniJava.Jasmin

open Semantics
open Tac (Operand Literal Element Cell Call Target Rhs Dest Registers)

/-! ## Stack effects -/

namespace Instr

/-- The number of values that an instruction takes from the stack. -/
def pops : Instr → Nat
  | iconst _ | bipush _ | sipush _ | ldcInt _ | ldcText _ | load _ _ | iinc _ _ | new _ => 0
  | store _ _ | newIntArray | arrayLength | getField _ _ _ | pop => 1
  | arith _ | ixor | arrayLoad _ | putField _ _ _ => 2
  | arrayStore _ => 3
  | invoke kind _ _ descriptor =>
      descriptor.params.length + if kind = .static then 0 else 1
  | goto _ | label _ | ret none => 0
  | ifZero _ _ | ret (some _) => 1
  | ifPair _ _ => 2

/-- The number of values that an instruction leaves on the stack. -/
def pushes : Instr → Nat
  | iconst _ | bipush _ | sipush _ | ldcInt _ | ldcText _ | load _ _ => 1
  | arith _ | ixor | new _ | newIntArray | arrayLength | arrayLoad _ | getField _ _ _ => 1
  | store _ _ | iinc _ _ | arrayStore _ | putField _ _ _ | pop => 0
  | invoke _ _ _ descriptor => if descriptor.ret.isVoid then 0 else 1
  | goto _ | ifZero _ _ | ifPair _ _ | ret _ | label _ => 0

/-- The label that control may go to after an instruction. -/
def target? : Instr → Option Label
  | goto target | ifZero _ target | ifPair _ target => some target
  | _ => none

/-- Whether control may go to the next instruction. -/
def fallsThrough : Instr → Bool
  | goto _ | ret _ => false
  | _ => true

/-- Whether an instruction is neither a jump nor a label. -/
def isPlain : Instr → Bool
  | goto _ | ifZero _ _ | ifPair _ _ | label _ => false
  | _ => true

end Instr

/-- The height of the stack after an instruction. -/
def heightAfter (height : Nat) (instr : Instr) : Nat := height - instr.pops + instr.pushes

/-! ### The effects on the machine -/

/-- Where an effect succeeds it has popped and pushed that many values. -/
def Moves {α : Type} (pops pushes : Nat) (act : Activation)
    (effect : MachineEffect (α × Activation)) : Prop :=
  ∀ world value act' world', effect world = (.ok (value, act'), world') →
    pops ≤ act.stack.length ∧ act'.stack.length = act.stack.length - pops + pushes

namespace Moves

variable {α β : Type} {act : Activation} {pops pushes : Nat}

theorem done (value : α) : Moves 0 0 act (pure (value, act)) := by
  rintro world _ _ _ ⟨⟩
  exact ⟨Nat.zero_le _, rfl⟩

theorem set (value : α) (slot : Nat) (stored : Value) :
    Moves 0 0 act (pure (value, act.set slot stored)) := by
  rintro world _ _ _ ⟨⟩
  exact ⟨Nat.zero_le _, rfl⟩

theorem push (value : α) (pushed : Value) : Moves 0 1 act (pure (value, act.push pushed)) := by
  rintro world _ _ _ ⟨⟩
  exact ⟨Nat.zero_le _, rfl⟩

/-- An effect that does not see the stack comes first. -/
theorem after {effect : MachineEffect β} {next : β → MachineEffect (α × Activation)}
    (h : ∀ value, Moves pops pushes act (next value)) :
    Moves pops pushes act (effect >>= next) := by
  intro world value act' world' ok
  obtain ⟨middle, between, _, ok'⟩ := Exec.bind_eq_ok ok
  exact h middle between value act' world' ok'

/-- Values are taken first. -/
theorem taking {count : Nat} {next : List Value × Activation → MachineEffect (α × Activation)}
    (h : ∀ values act', Moves pops pushes act' (next (values, act'))) :
    Moves (pops + count) pushes act (Machine.take count act >>= next) := by
  intro world value act' world' ok
  obtain ⟨⟨values, between⟩, _, taken, ok'⟩ := Exec.bind_eq_ok ok
  rw [Machine.take] at taken
  split at taken
  · cases taken
    obtain ⟨enough, length⟩ := h _ _ _ _ _ _ ok'
    rw [List.length_drop] at enough length
    omega
  · cases taken

/-- One value is taken first. -/
theorem takingOne {next : Value × Activation → MachineEffect (α × Activation)}
    (h : ∀ value act', Moves pops pushes act' (next (value, act'))) :
    Moves (pops + 1) pushes act (Machine.takeOne act >>= next) := by
  rw [Machine.takeOne, bind_assoc]
  exact taking fun values act' => h (values.headD .null) act'

end Moves

theorem perform_invoke_moves (machine : Machine) (kind : Tac.CallKind) (owner method : String)
    (descriptor : MethodDescriptor) (act : Activation) :
    Moves (Instr.invoke kind owner method descriptor).pops
      (Instr.invoke kind owner method descriptor).pushes act
      (machine.perform (.invoke kind owner method descriptor) act) := by
  have ends : ∀ (act : Activation) (result : Value),
      Moves 0 (if descriptor.ret.isVoid then 0 else 1) act
        (pure (Signal.next, if descriptor.ret.isVoid then act else act.push result)) := by
    intro act result
    cases descriptor.ret.isVoid with
    | true => exact .done _
    | false => exact .push _ _
  rw [Instr.pops, Instr.pushes, Nat.add_comm]
  cases kind with
  | static =>
      simp only [Machine.perform, Machine.call, bind_assoc, pure_bind, reduceIte]
      exact .taking fun _ act => .after fun _ => ends act _
  | _ =>
      simp only [Machine.perform, Machine.call, bind_assoc, pure_bind, reduceCtorEq, reduceIte]
      exact .taking fun _ _ => .takingOne fun _ act => .after fun _ => ends act _

/-- Machine instructions pop and push what their stack effects say. -/
theorem perform_moves (machine : Machine) (instr : Instr) (act : Activation) :
    Moves instr.pops instr.pushes act (machine.perform instr act) := by
  cases instr with
  | iconst value | bipush value | sipush value | ldcInt value | ldcText text => exact .push _ _
  | load kind slot => exact .after fun _ => .push _ _
  | store kind slot => exact .takingOne fun _ _ => .after fun _ => .set _ _ _
  | iinc slot delta => exact .after fun _ => .set _ _ _
  | arith op => exact .takingOne fun _ _ => .takingOne fun _ _ => .after fun _ => .push _ _
  | ixor =>
      exact .takingOne fun _ _ => .takingOne fun _ _ => .after fun _ => .after fun _ => .push _ _
  | new className => exact .after fun _ => .push _ _
  | newIntArray => exact .takingOne fun _ _ => .after fun _ => .push _ _
  | arrayLength => exact .takingOne fun _ _ => .after fun _ => .push _ _
  | arrayLoad kind =>
      exact .takingOne fun _ _ => .takingOne fun _ _ => .after fun _ => .after fun _ => .push _ _
  | arrayStore kind =>
      exact .takingOne fun _ _ => .takingOne fun _ _ => .takingOne fun _ _ => .after fun _ =>
        .after fun _ => .done _
  | getField owner name descriptor => exact .takingOne fun _ _ => .after fun _ => .push _ _
  | putField owner name descriptor =>
      exact .takingOne fun _ _ => .takingOne fun _ _ => .after fun _ => .done _
  | invoke kind owner method descriptor => exact perform_invoke_moves _ _ _ _ _ _
  | pop => exact .takingOne fun _ _ => .done _
  | goto target => exact .done _
  | ifZero test target => exact .takingOne fun _ _ => .after fun _ => .done _
  | ifPair test target =>
      exact .takingOne fun _ _ => .takingOne fun _ _ => .after fun _ => .after fun _ => .done _
  | ret kind =>
      cases kind with
      | none => exact .done _
      | some kind => exact .takingOne fun _ _ => .after fun _ => .done _
  | label mark => exact .done _

/-! ## Following code -/

namespace Height

/-- The height is covered by the greatest one so far. -/
def Proper (height : Height) : Prop := height.current ≤ height.max

/-- Follow the effects of instructions; `none` when one of them pops too much. -/
def follow? : List Instr → Height → Option Height
  | [], height => some height
  | instr :: rest, height =>
      (height.pop? instr.pops).bind fun lower => follow? rest (lower.push instr.pushes)

variable {height after : Height} {instr : Instr} {code rest : List Instr}

theorem proper_push (height : Height) (count : Nat) : (height.push count).Proper :=
  Nat.le_max_right _ _

theorem Proper.pop (proper : height.Proper) {count : Nat} (lower : height.pop? count = some after) :
    after.Proper := by
  obtain ⟨-, rfl⟩ := pop?_eq_some_iff.mp lower
  exact Nat.le_trans (Nat.sub_le _ _) proper

theorem Proper.pushEach : ∀ (count : Nat) {height : Height}, height.Proper →
    (pushEach count height).Proper
  | 0, _, proper => proper
  | count + 1, height, _ => Proper.pushEach count (height.proper_push 1)

theorem Proper.push_zero (proper : height.Proper) : height.push 0 = height := by
  obtain ⟨current, max⟩ := height
  rw [Proper] at proper
  simp [Height.push, proper]

theorem follow?_append (code rest : List Instr) (height : Height) :
    follow? (code ++ rest) height = (follow? code height).bind (follow? rest) := by
  induction code generalizing height with
  | nil => rfl
  | cons instr code ih =>
      rw [List.cons_append, follow?, follow?, Option.bind_assoc]
      congr 1
      funext lower
      exact ih _

theorem follow?_push (pops : instr.pops = 0) (pushes : instr.pushes = 1) (height : Height)
    (rest : List Instr) : follow? (instr :: rest) height = follow? rest (height.push 1) := by
  rw [follow?, pops, pushes]
  rfl

/-- An instruction whose values on balance are accounted for as popped. -/
theorem follow?_drop {count : Nat} (proper : height.Proper)
    (balance : instr.pops = count + instr.pushes) (enough : instr.pops ≤ height.current)
    (lower : height.pop? count = some after) : follow? [instr] height = some after := by
  obtain ⟨-, rfl⟩ := pop?_eq_some_iff.mp lower
  have popped : height.pop? instr.pops = some _ := pop?_eq_some_iff.mpr ⟨enough, rfl⟩
  rw [follow?, popped]
  rw [Proper] at proper
  have current : height.current - instr.pops + instr.pushes = height.current - count := by omega
  have covered : height.current - count ≤ height.max := by omega
  simp [follow?, push, current, covered]

/-- An instruction after which the height is the same. -/
theorem follow?_same (proper : height.Proper) (balance : instr.pops = instr.pushes)
    (enough : instr.pops ≤ height.current) : follow? [instr] height = some height :=
  follow?_drop proper (by omega) enough (pop?_eq_some_iff.mpr ⟨Nat.zero_le _, rfl⟩)

theorem Proper.follow (proper : height.Proper) (followed : follow? code height = some after) :
    after.Proper := by
  induction code generalizing height with
  | nil => cases followed; exact proper
  | cons instr code ih =>
      obtain ⟨lower, -, rest⟩ := Option.bind_eq_some_iff.mp followed
      exact ih (lower.proper_push _) rest

/-- The last instruction only pops, and what it pops is accounted for. -/
theorem follow?_append_drop {between : Height} (proper : height.Proper)
    (followed : follow? code height = some between) (pushes : instr.pushes = 0)
    (lower : between.pop? instr.pops = some after) :
    follow? (code ++ [instr]) height = some after := by
  rw [follow?_append, followed]
  have balance : instr.pops = instr.pops + instr.pushes := by rw [pushes, Nat.add_zero]
  exact follow?_drop (proper.follow followed) balance (pop?_eq_some_iff.mp lower).1 lower

end Height

namespace Frame

open MiniJava.Jasmin.Height (follow? follow?_append follow?_push follow?_drop follow?_same
  follow?_append_drop pushEach)

variable {frame : Frame} {before after : Height} {code : List Instr}

/-- The instruction of an operand. -/
theorem ElementCode.effect {elem : Element} {i : Instr} (made : ElementCode frame elem i) :
    i.pops = 0 ∧ i.pushes = 1 ∧ i.isPlain = true := by
  cases made with
  | load found => exact ⟨rfl, rfl, rfl⟩
  | literal made =>
      rcases constant_eq_ok made with ⟨_, value, _, rfl⟩ | ⟨_, _, rfl⟩
      · rw [Instr.ofInt]
        split_ifs <;> exact ⟨rfl, rfl, rfl⟩
      · exact ⟨rfl, rfl, rfl⟩

theorem follow?_element {elem : Element} {i : Instr} (made : ElementCode frame elem i)
    (height : Height) (rest : List Instr) :
    follow? (i :: rest) height = follow? rest (height.push 1) := by
  obtain ⟨pops, pushes, -⟩ := made.effect
  exact follow?_push pops pushes height rest

theorem follow?_elements {elems : List Element} {code : List Instr}
    (each : List.Forall₂ (ElementCode frame) elems code) :
    ∀ height : Height, follow? code height = some (pushEach elems.length height) := by
  induction each with
  | nil => intro height; rfl
  | cons first _ ih =>
      intro height
      rw [follow?_element first]
      exact ih (height.push 1)

/-- What a call pops is what was pushed for it. -/
theorem pops_invoke {call : Call}
    (isStatic : call.kind = .static ↔ targetElements call.target = []) :
    (Instr.invoke call.kind (frame.calleeOwner call) call.method
      (.ofTys frame.imports (call.args.map Element.ty) call.ret)).pops =
      (targetElements call.target ++ call.args).length := by
  have arity : (MethodDescriptor.ofTys frame.imports (call.args.map Element.ty)
      call.ret).params.length = call.args.length := by
    simp [MethodDescriptor.ofTys]
  rw [Instr.pops, arity, List.length_append, Nat.add_comm]
  congr 1
  obtain ⟨kind, target, method, args, ret⟩ := call
  cases target with
  | className name => rw [if_pos (isStatic.mpr rfl)]; rfl
  | object object => rw [if_neg fun static => by cases isStatic.mp static]; rfl

theorem follow?_call {call : Call} (made : CallCode frame call before code after)
    (proper : before.Proper) : follow? code before = some after := by
  obtain ⟨isStatic, ⟨operands, each, rfl⟩, ⟨lower, popped, rfl⟩⟩ := made
  have isVoid : (MethodDescriptor.ofTys frame.imports (call.args.map Element.ty)
      call.ret).ret.isVoid = call.ret.isVoid := isVoid_ofTy _ _
  rw [follow?_append, follow?_elements each, Option.bind_some, follow?, pops_invoke isStatic,
    popped, Option.bind_some, Instr.pushes, isVoid]
  cases call.ret.isVoid with
  | true =>
      have covered : lower.Proper := (Height.Proper.pushEach _ proper).pop popped
      exact congrArg some covered.push_zero
  | false => rfl

theorem follow?_rhs {rhs : Rhs} (made : RhsCode frame rhs before code after)
    (proper : before.Proper) : follow? code before = some after := by
  have one := before.proper_push 1
  have two := (before.push 1).proper_push 1
  cases made with
  | element first => rw [follow?_element first]; rfl
  | arith first second lower =>
      rw [follow?_element first, follow?_element second]
      exact follow?_drop two rfl (Nat.le_add_left 2 _) lower
  | not first lower =>
      rw [follow?_element first, follow?_push rfl rfl]
      exact follow?_drop two rfl (Nat.le_add_left 2 _) lower
  | call called => exact follow?_call called proper
  | new => rfl
  | newArray ints first =>
      rw [follow?_element first]
      exact follow?_same one rfl (Nat.le_add_left 1 _)
  | length first =>
      rw [follow?_element first]
      exact follow?_same one rfl (Nat.le_add_left 1 _)
  | getField first =>
      rw [follow?_element first]
      exact follow?_same one rfl (Nat.le_add_left 1 _)
  | index first second lower =>
      rw [follow?_element first, follow?_element second]
      exact follow?_drop two rfl (Nat.le_add_left 2 _) lower

theorem follow?_compare {isLess : Bool} {left right : Element} {target : Label}
    (made : CompareCode frame isLess left right target before code after) :
    follow? code before = some after := by
  have two := (before.push 1).proper_push 1
  -- the difference of the operands is tested against zero
  have difference : ∀ {i j : Instr} {first second : Element} {test : ZeroTest} {between : Height},
      ElementCode frame first i → ElementCode frame second j →
      ((before.push 1).push 1).pop? 1 = some between → between.pop? 1 = some after →
      follow? [i, j, .arith .sub, .ifZero test target] before = some after := by
    intro i j first second test between first second lower lower'
    rw [follow?_element first, follow?_element second]
    have subtracted : follow? [.arith .sub] ((before.push 1).push 1) = some between :=
      follow?_drop two rfl (Nat.le_add_left 2 _) lower
    exact follow?_append_drop two subtracted rfl lower'
  cases made with
  | rightLiteral literal first second lower lower' => exact difference first second lower lower'
  | leftLiteral variable' literal first second lower lower' =>
      exact difference first second lower lower'
  | noLiteral variable' variable'' first second lower lower' =>
      rw [follow?_element first, follow?_element second]
      obtain ⟨-, rfl⟩ := Height.pop?_eq_some_iff.mp lower
      obtain ⟨-, rfl⟩ := Height.pop?_eq_some_iff.mp lower'
      exact follow?_drop two rfl (Nat.le_add_left 2 _)
        (Height.pop?_eq_some_iff.mpr ⟨Nat.le_add_left 2 _, rfl⟩)

/-- Returns have a value if and only if their type is not void. -/
def ReturnsMatch (instr : Tac.Instr) : Prop :=
  ∀ ty value, instr = .ret ty value → (value.isSome = true ↔ ty.isVoid = false)

/-- The accounting of an instruction is true of its code. -/
theorem follow?_instr {instr : Tac.Instr} (made : InstrCode frame instr before code after)
    (returns : ReturnsMatch instr) (proper : before.Proper) :
    follow? code before = some after := by
  have one := before.proper_push 1
  have two := (before.push 1).proper_push 1
  cases made with
  | increment small found => exact follow?_same proper rfl (Nat.zero_le _)
  | set large hasValue value found lower =>
      exact follow?_append_drop proper (follow?_rhs value proper) rfl lower
  | setCell first second value lower =>
      rw [follow?_element first, follow?_element second]
      exact follow?_append_drop two (follow?_rhs value two) rfl lower
  | putField first second lower =>
      rw [follow?_element first, follow?_element second]
      exact follow?_drop two rfl (Nat.le_add_left 2 _) lower
  | callVoid isVoid called => exact follow?_call called proper
  | callPop hasValue called lower =>
      exact follow?_append_drop proper (follow?_call called proper) rfl lower
  | goto => exact follow?_same proper rfl (Nat.zero_le _)
  | label => exact follow?_same proper rfl (Nat.zero_le _)
  | branchLess compared => exact follow?_compare compared
  | branchAtLeast compared => exact follow?_compare compared
  | branch value lower => exact follow?_append_drop proper (follow?_rhs value proper) rfl lower
  | @retValue ty value i _ _ first lower =>
      have hasValue : ty.isVoid = false := (returns ty (some value) rfl).mp rfl
      rw [follow?_element first]
      cases ty with
      | void => cases hasValue
      | _ => exact follow?_drop one rfl (Nat.le_add_left 1 _) lower
  | @ret ty =>
      have isVoid : ty.isVoid ≠ false := fun hasValue => by
        cases (returns ty none rfl).mpr hasValue
      cases ty with
      | void => exact follow?_same proper rfl (Nat.zero_le _)
      | _ => exact absurd rfl isVoid

theorem current_le_of_rhs {rhs : Rhs} (made : RhsCode frame rhs before code after) :
    after.current ≤ before.current + 1 := by
  have dropped : ∀ {lower : Height}, ((before.push 1).push 1).pop? 1 = some lower →
      lower.current ≤ before.current + 1 := by
    intro lower popped
    obtain ⟨-, rfl⟩ := Height.pop?_eq_some_iff.mp popped
    exact Nat.le_refl _
  cases made with
  | arith first second lower => exact dropped lower
  | not first lower => exact dropped lower
  | index first second lower => exact dropped lower
  | call called =>
      rw [called.current_eq]
      split <;> omega
  | _ => exact Nat.le_refl _

/-- The stack is empty after an instruction if it was empty before. -/
theorem current_of_instr {instr : Tac.Instr} (made : InstrCode frame instr before code after)
    (empty : before.current = 0) : after.current = 0 := by
  have dropped : ∀ {height lower : Height} {count : Nat}, height.current ≤ count →
      height.pop? count = some lower → lower.current = 0 := by
    intro height lower count few popped
    obtain ⟨-, rfl⟩ := Height.pop?_eq_some_iff.mp popped
    exact Nat.sub_eq_zero_of_le few
  have compared : ∀ {isLess : Bool} {left right : Element} {target : Label},
      CompareCode frame isLess left right target before code after → after.current = 0 := by
    intro isLess left right target made
    cases made with
    | rightLiteral _ _ _ lower lower' | leftLiteral _ _ _ _ lower lower'
    | noLiteral _ _ _ _ lower lower' =>
        obtain ⟨-, rfl⟩ := Height.pop?_eq_some_iff.mp lower
        exact dropped (by simp [Height.push, empty]) lower'
  cases made with
  | set large hasValue value found lower =>
      have few := current_le_of_rhs value
      exact dropped (by omega) lower
  | setCell first second value lower =>
      have few : _ ≤ before.current + 1 + 1 + 1 := current_le_of_rhs value
      exact dropped (by omega) lower
  | putField first second lower => exact dropped (by simp [Height.push, empty]) lower
  | callVoid isVoid called => rw [called.current_eq, empty, isVoid]; rfl
  | callPop hasValue called lower =>
      exact dropped (by rw [called.current_eq, empty, hasValue]; exact Nat.le_refl 1) lower
  | branchLess made => exact compared made
  | branchAtLeast made => exact compared made
  | branch value lower =>
      have few := current_le_of_rhs value
      exact dropped (by omega) lower
  | retValue first lower => exact dropped (by simp [Height.push, empty]) lower
  | _ => exact empty

/-! ## Jumps and labels -/

/-- Whether code has neither jumps nor labels. -/
def isPlainCode (code : List Instr) : Bool := code.all Instr.isPlain

theorem plain_cons {elem : Element} {i : Instr} {rest : List Instr}
    (first : ElementCode frame elem i) (plain : isPlainCode rest = true) :
    isPlainCode (i :: rest) = true := by
  rw [isPlainCode, List.all_cons, first.effect.2.2]
  exact plain

theorem plain_of_elements {elems : List Element} {code : List Instr}
    (each : List.Forall₂ (ElementCode frame) elems code) : isPlainCode code = true := by
  induction each with
  | nil => rfl
  | cons first _ ih => exact plain_cons first ih

theorem plain_of_call {call : Call} (made : CallCode frame call before code after) :
    isPlainCode code = true := by
  obtain ⟨operands, each, rfl⟩ := made.code_eq
  rw [isPlainCode, List.all_append, Bool.and_eq_true]
  exact ⟨plain_of_elements each, rfl⟩

theorem plain_of_rhs {rhs : Rhs} (made : RhsCode frame rhs before code after) :
    isPlainCode code = true := by
  cases made with
  | call called => exact plain_of_call called
  | new => rfl
  | element first | newArray _ first | length first | getField first | not first =>
      exact plain_cons first rfl
  | arith first second | index first second => exact plain_cons first (plain_cons second rfl)

/-- A jump can only come last, and a label only alone. -/
def Arranged (code : List Instr) : Prop :=
  ∃ init last, code = init ++ [last] ∧ isPlainCode init = true ∧
    ∀ mark, last = .label mark → init = []

theorem arranged_of_compare {isLess : Bool} {left right : Element} {target : Label}
    (made : CompareCode frame isLess left right target before code after) : Arranged code := by
  cases made with
  | @rightLiteral i j _ _ _ _ first second | @leftLiteral i j _ _ _ _ _ first second =>
      exact ⟨[i, j, .arith .sub], _, rfl, plain_cons first (plain_cons second rfl), nofun⟩
  | @noLiteral i j _ _ _ _ _ first second =>
      exact ⟨[i, j], _, rfl, plain_cons first (plain_cons second rfl), nofun⟩

theorem arranged_of_instr {instr : Tac.Instr} (made : InstrCode frame instr before code after) :
    Arranged code := by
  cases made with
  | increment _ _ | goto => exact ⟨[], _, rfl, rfl, nofun⟩
  | label => exact ⟨[], _, rfl, rfl, fun _ _ => rfl⟩
  | set _ _ value _ _ => exact ⟨_, _, rfl, plain_of_rhs value, nofun⟩
  | @setCell _ _ _ i j code _ _ _ first second value _ =>
      have plain := plain_cons first (plain_cons second (plain_of_rhs value))
      exact ⟨i :: j :: code, _, rfl, plain, nofun⟩
  | @putField _ _ _ i j _ _ first second _ =>
      exact ⟨[i, j], _, rfl, plain_cons first (plain_cons second rfl), nofun⟩
  | callVoid _ called =>
      obtain ⟨operands, each, rfl⟩ := called.code_eq
      exact ⟨operands, _, rfl, plain_of_elements each, nofun⟩
  | callPop _ called _ => exact ⟨_, _, rfl, plain_of_call called, nofun⟩
  | branchLess compared => exact arranged_of_compare compared
  | branchAtLeast compared => exact arranged_of_compare compared
  | branch value _ => exact ⟨_, _, rfl, plain_of_rhs value, nofun⟩
  | @retValue _ _ i _ _ first _ => exact ⟨[i], _, rfl, plain_cons first rfl, nofun⟩
  | ret => exact ⟨[], _, rfl, rfl, nofun⟩

end Frame

end MiniJava.Jasmin
