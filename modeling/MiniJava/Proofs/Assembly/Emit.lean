import Mathlib.Data.List.Forall2
import MiniJava.Jasmin.Assemble

/-!
# What is emitted

An emission that succeeds from some height writes code and leaves a height
(`Emits`).  For every rule of assembly this module says which code and which
heights that can be (`RhsCode`, `CallCode`, `InstrCode`), so that neither the
meaning of the code nor the accounting has to look at the rules again.
-/

namespace MiniJava.Jasmin

open Tac (Operand Literal Element Cell Call Target Rhs)

variable {α β : Type}

/-- From this height an emission succeeds with a value, code and a height. -/
def Emits (emit : Emit α) (before : Height) (value : α) (code : List Instr)
    (after : Height) : Prop :=
  emit before = .ok ⟨value, code, after⟩

namespace Emits

variable {before after : Height} {code : List Instr}

theorem bind {first : Emit α} {next : α → Emit β} {value : β}
    (h : Emits (first >>= next) before value code after) :
    ∃ middle code₁ between code₂, Emits first before middle code₁ between ∧
      Emits (next middle) between value code₂ after ∧ code = code₁ ++ code₂ := by
  obtain ⟨⟨middle, code₁, between⟩, ⟨last, code₂, after'⟩, h₁, h₂, same⟩ :=
    (Emit.bind_eq_ok_iff ..).mp h
  cases same
  exact ⟨middle, code₁, between, code₂, h₁, h₂, rfl⟩

theorem pure {value value' : α} (h : Emits (Pure.pure value) before value' code after) :
    value' = value ∧ code = [] ∧ after = before := by
  cases h
  exact ⟨rfl, rfl, rfl⟩

theorem fail {error : CompileError} {value : α}
    (h : Emits (Emit.fail error) before value code after) : False := by
  cases h

theorem put {instr : Instr} {value : Unit} (h : Emits (Emit.put instr) before value code after) :
    code = [instr] ∧ after = before := by
  cases h
  exact ⟨rfl, rfl⟩

theorem push {count : Nat} {value : Unit} (h : Emits (Emit.push count) before value code after) :
    code = [] ∧ after = before.push count := by
  cases h
  exact ⟨rfl, rfl⟩

theorem pop {method : String} {count : Nat} {value : Unit}
    (h : Emits (Emit.pop method count) before value code after) :
    code = [] ∧ before.pop? count = some after := by
  rw [Emits, Emit.pop] at h
  cases lower : before.pop? count with
  | none => rw [lower] at h; cases h
  | some height => rw [lower] at h; cases h; exact ⟨rfl, rfl⟩

end Emits

namespace Height

theorem pop?_eq_some_iff {height lower : Height} {count : Nat} :
    height.pop? count = some lower ↔
      count ≤ height.current ∧ lower = { height with current := height.current - count } := by
  rw [pop?, Option.ite_none_right_eq_some, Option.some.injEq, eq_comm]

/-- The height after values were pushed one by one. -/
def pushEach : Nat → Height → Height
  | 0, height => height
  | count + 1, height => pushEach count (height.push 1)

theorem pushEach_add : ∀ (first second : Nat) (height : Height),
    pushEach second (pushEach first height) = pushEach (first + second) height
  | 0, second, height => by rw [Nat.zero_add]; rfl
  | first + 1, second, height => by
      rw [Nat.succ_add]
      exact pushEach_add first second (height.push 1)

theorem current_pushEach : ∀ (count : Nat) (height : Height),
    (pushEach count height).current = height.current + count
  | 0, height => rfl
  | count + 1, height => by
      rw [pushEach, current_pushEach, push, Nat.add_assoc, Nat.add_comm 1]

end Height

/-! ## Operands -/

namespace Frame

open MiniJava.Jasmin.Height (pushEach pushEach_add)

variable {frame : Frame} {before after : Height} {code : List Instr}

/-- The instruction that pushes a variable or literal. -/
inductive ElementCode (frame : Frame) : Element → Instr → Prop where
  | load {op : Operand} {slot : Nat} (found : frame.registers.find? op.name = some slot) :
      ElementCode frame (.operand op) (.load (cellKind op.ty) slot)
  | literal {lit : Literal} {instr : Instr} (constant : constant lit = .ok instr) :
      ElementCode frame (.literal lit) instr

/-- Numbers and truth values are pushed by their value, other constants by their
text. -/
theorem constant_eq_ok {lit : Literal} {i : Instr} (made : constant lit = .ok i) :
    ((lit.ty = .int ∨ lit.ty = .bool) ∧ ∃ value, lit.toInt? = some value ∧ i = .ofInt value) ∨
      (lit.ty ≠ .int ∧ lit.ty ≠ .bool ∧ i = .ldcText lit.value) := by
  obtain ⟨text, ty⟩ := lit
  cases number : Literal.toInt? ⟨text, ty⟩ with
  | none => cases ty <;> simp_all [constant]
  | some value => cases ty <;> simp_all [constant]

theorem emits_slotOf {name : String} {slot : Nat}
    (h : Emits (frame.slotOf name) before slot code after) :
    frame.registers.find? name = some slot ∧ code = [] ∧ after = before := by
  rw [slotOf] at h
  cases found : frame.registers.find? name with
  | none => rw [found] at h; exact h.fail.elim
  | some slot' =>
      rw [found] at h
      obtain ⟨rfl, rfl, rfl⟩ := h.pure
      exact ⟨rfl, rfl, rfl⟩

theorem emits_kindOf {ty : Tac.Ty} {kind : Kind} (h : Emits (kindOf ty) before kind code after) :
    kind = cellKind ty ∧ code = [] ∧ after = before := by
  cases ty with
  | void => exact h.fail.elim
  | _ => exact h.pure

theorem emits_load {op : Operand} (h : Emits (frame.load op) before () code after) :
    ∃ instr, ElementCode frame (.operand op) instr ∧ code = [instr] ∧ after = before.push 1 := by
  obtain ⟨slot, _, _, _, hslot, h₁, rfl⟩ := h.bind
  obtain ⟨found, rfl, rfl⟩ := emits_slotOf hslot
  obtain ⟨kind, _, _, _, hkind, h₂, rfl⟩ := h₁.bind
  obtain ⟨rfl, rfl, rfl⟩ := emits_kindOf hkind
  obtain ⟨_, _, _, _, hput, hpush, rfl⟩ := h₂.bind
  obtain ⟨rfl, rfl⟩ := hput.put
  obtain ⟨rfl, rfl⟩ := hpush.push
  exact ⟨_, .load found, rfl, rfl⟩

theorem emits_store {op : Operand} (h : Emits (frame.store op) before () code after) :
    ∃ slot, frame.registers.find? op.name = some slot ∧
      code = [.store (cellKind op.ty) slot] ∧ before.pop? 1 = some after := by
  obtain ⟨slot, _, _, _, hslot, h₁, rfl⟩ := h.bind
  obtain ⟨found, rfl, rfl⟩ := emits_slotOf hslot
  obtain ⟨kind, _, _, _, hkind, h₂, rfl⟩ := h₁.bind
  obtain ⟨rfl, rfl, rfl⟩ := emits_kindOf hkind
  obtain ⟨_, _, _, _, hput, hdrop, rfl⟩ := h₂.bind
  obtain ⟨rfl, rfl⟩ := hput.put
  obtain ⟨rfl, lower⟩ := hdrop.pop
  exact ⟨slot, found, rfl, lower⟩

theorem emits_element {elem : Element} (h : Emits (frame.element elem) before () code after) :
    ∃ instr, ElementCode frame elem instr ∧ code = [instr] ∧ after = before.push 1 := by
  cases elem with
  | operand op => exact emits_load h
  | literal lit =>
      rw [element, literal] at h
      cases made : constant lit with
      | error error => rw [made] at h; exact h.fail.elim
      | ok instr =>
          rw [made] at h
          obtain ⟨_, _, _, _, hput, hpush, rfl⟩ := h.bind
          obtain ⟨rfl, rfl⟩ := hput.put
          obtain ⟨rfl, rfl⟩ := hpush.push
          exact ⟨instr, .literal made, rfl, rfl⟩

theorem emits_elements : ∀ {elems : List Element} {before after : Height} {code : List Instr},
    Emits (frame.elements elems) before () code after →
    List.Forall₂ (ElementCode frame) elems code ∧ after = pushEach elems.length before
  | [], _, _, _, h => by
      obtain ⟨-, rfl, rfl⟩ := h.pure
      exact ⟨.nil, rfl⟩
  | elem :: rest, _, _, _, h => by
      obtain ⟨_, _, _, _, hfirst, hrest, rfl⟩ := h.bind
      obtain ⟨instr, first, rfl, rfl⟩ := emits_element hfirst
      obtain ⟨each, rfl⟩ := emits_elements hrest
      exact ⟨.cons first each, rfl⟩

/-! ## Calls -/

/-- The internal name of the class that an object belongs to; nothing is
emitted for objects that belong to none. -/
def ownerName (frame : Frame) (object : Operand) : String :=
  if object.isThis then frame.className
  else match object.ty with
    | .object className => Import.qualify frame.imports className
    | .string => Descriptor.stringClass
    | _ => ""

theorem emits_ownerOf {object : Operand} {owner : String}
    (h : Emits (frame.ownerOf object) before owner code after) :
    owner = frame.ownerName object ∧ code = [] ∧ after = before := by
  rw [ownerOf] at h
  rw [ownerName]
  cases isThis : object.isThis with
  | true =>
      rw [isThis] at h
      exact h.pure
  | false =>
      rw [isThis] at h
      cases ty : object.ty with
      | object className => rw [ty] at h; exact h.pure
      | string => rw [ty] at h; exact h.pure
      | _ => rw [ty] at h; exact h.fail.elim

/-- The internal name of the class that a call refers to. -/
def calleeOwner (frame : Frame) (call : Call) : String :=
  match call.target with
  | .className name => Import.qualify frame.imports name
  | .object object => frame.ownerName object

theorem isVoid_ofTy (imports : List String) (ty : Tac.Ty) :
    (Descriptor.ofTy imports ty).isVoid = ty.isVoid := by
  cases ty <;> rfl

/-- What is pushed for the target of a call. -/
def targetElements : Target → List Element
  | .className _ => []
  | .object object => [.operand object]

/-- The code of a call and the heights around it. -/
structure CallCode (frame : Frame) (call : Call) (before : Height) (code : List Instr)
    (after : Height) : Prop where
  /-- A call is static if and only if it is made on a class. -/
  isStatic : call.kind = .static ↔ targetElements call.target = []
  code_eq : ∃ operands,
    List.Forall₂ (ElementCode frame) (targetElements call.target ++ call.args) operands ∧
    code = operands ++ [.invoke call.kind (frame.calleeOwner call) call.method
      (.ofTys frame.imports (call.args.map Element.ty) call.ret)]
  height_eq : ∃ lower,
    (pushEach (targetElements call.target ++ call.args).length before).pop?
      (targetElements call.target ++ call.args).length = some lower ∧
    after = if call.ret.isVoid then lower else lower.push 1

theorem emits_receiver {call : Call} {owner : String} {pushed : Nat}
    (h : Emits (frame.receiver call) before (owner, pushed) code after) :
    (call.kind = .static ↔ targetElements call.target = []) ∧
      owner = frame.calleeOwner call ∧ pushed = (targetElements call.target).length ∧
      List.Forall₂ (ElementCode frame) (targetElements call.target) code ∧
      after = pushEach (targetElements call.target).length before := by
  obtain ⟨kind, target, method, args, ret⟩ := call
  cases kind with
  | static =>
      cases target with
      | className name =>
          obtain ⟨same, rfl, rfl⟩ := h.pure
          cases same
          exact ⟨by simp [targetElements], rfl, rfl, .nil, rfl⟩
      | object object => exact h.fail.elim
  | virtual =>
      cases target with
      | className name => exact h.fail.elim
      | object object =>
          obtain ⟨_, _, _, _, hload, h₁, rfl⟩ := h.bind
          obtain ⟨instr, first, rfl, rfl⟩ := emits_load hload
          obtain ⟨_, _, _, _, howner, h₂, rfl⟩ := h₁.bind
          obtain ⟨rfl, rfl, rfl⟩ := emits_ownerOf howner
          obtain ⟨same, rfl, rfl⟩ := h₂.pure
          cases same
          exact ⟨by simp [targetElements], rfl, rfl, .cons first .nil, rfl⟩
  | special =>
      cases target with
      | className name => exact h.fail.elim
      | object object =>
          obtain ⟨_, _, _, _, hload, h₁, rfl⟩ := h.bind
          obtain ⟨instr, first, rfl, rfl⟩ := emits_load hload
          obtain ⟨_, _, _, _, howner, h₂, rfl⟩ := h₁.bind
          obtain ⟨rfl, rfl, rfl⟩ := emits_ownerOf howner
          obtain ⟨same, rfl, rfl⟩ := h₂.pure
          cases same
          exact ⟨by simp [targetElements], rfl, rfl, .cons first .nil, rfl⟩

theorem emits_call {call : Call} (h : Emits (frame.call call) before () code after) :
    CallCode frame call before code after := by
  obtain ⟨⟨owner, pushed⟩, _, _, _, hreceiver, h₁, rfl⟩ := h.bind
  obtain ⟨isStatic, rfl, rfl, receivers, rfl⟩ := emits_receiver hreceiver
  obtain ⟨_, _, _, _, hargs, h₂, rfl⟩ := h₁.bind
  obtain ⟨args, rfl⟩ := emits_elements hargs
  obtain ⟨_, _, _, _, hput, h₃, rfl⟩ := h₂.bind
  obtain ⟨rfl, rfl⟩ := hput.put
  obtain ⟨_, _, lower, last, hdrop, h₄, rfl⟩ := h₃.bind
  obtain ⟨rfl, popped⟩ := hdrop.pop
  rw [pushEach_add, Nat.add_comm call.args.length] at popped
  have ends : last = [] ∧ after = if call.ret.isVoid then lower else lower.push 1 := by
    cases void : call.ret.isVoid with
    | true =>
        rw [void] at h₄
        exact h₄.pure.2
    | false =>
        rw [void] at h₄
        exact h₄.push
  obtain ⟨rfl, rfl⟩ := ends
  exact ⟨isStatic, ⟨_, List.rel_append receivers args, by simp⟩,
    ⟨lower, by rwa [List.length_append], rfl⟩⟩

/-- A call replaces what was pushed for it by its result, if it has one. -/
theorem CallCode.current_eq {call : Call} (made : CallCode frame call before code after) :
    after.current = before.current + if call.ret.isVoid then 0 else 1 := by
  obtain ⟨lower, popped, rfl⟩ := made.height_eq
  obtain ⟨-, rfl⟩ := Height.pop?_eq_some_iff.mp popped
  cases call.ret.isVoid with
  | true => simp [Height.current_pushEach]
  | false => simp [Height.current_pushEach, Height.push]

/-! ## Expressions -/

/-- The code of an expression and the heights around it. -/
inductive RhsCode (frame : Frame) : Rhs → Height → List Instr → Height → Prop where
  | element {elem : Element} {i : Instr} {before : Height} (first : ElementCode frame elem i) :
      RhsCode frame (.element elem) before [i] (before.push 1)
  | arith {op : Arith} {left right : Element} {i j : Instr} {before after : Height}
      (first : ElementCode frame left i) (second : ElementCode frame right j)
      (lower : ((before.push 1).push 1).pop? 1 = some after) :
      RhsCode frame (.binary (.arith op) left right) before [i, j, .arith op] after
  | not {operand : Element} {i : Instr} {before after : Height}
      (first : ElementCode frame operand i)
      (lower : ((before.push 1).push 1).pop? 1 = some after) :
      RhsCode frame (.not operand) before [i, .iconst 1, .ixor] after
  | call {call : Call} {before after : Height} {code : List Instr}
      (made : CallCode frame call before code after) :
      RhsCode frame (.call call) before code after
  | new {className : String} {before : Height} :
      RhsCode frame (.new className) before [.new (Import.qualify frame.imports className)]
        (before.push 1)
  | newArray {size : Element} {ty : Tac.Ty} {i : Instr} {before : Height}
      (ints : ty.element? = some .int) (first : ElementCode frame size i) :
      RhsCode frame (.newArray size ty) before [i, .newIntArray] (before.push 1)
  | length {array : Operand} {i : Instr} {before : Height}
      (first : ElementCode frame (.operand array) i) :
      RhsCode frame (.length array) before [i, .arrayLength] (before.push 1)
  | getField {object field : Operand} {i : Instr} {before : Height}
      (first : ElementCode frame (.operand object) i) :
      RhsCode frame (.getField object field) before
        [i, .getField (frame.ownerName object) field.name (frame.descriptorOf field.ty)]
        (before.push 1)
  | index {place : Cell} {i j : Instr} {before after : Height}
      (first : ElementCode frame (.operand place.array) i)
      (second : ElementCode frame place.index j)
      (lower : ((before.push 1).push 1).pop? 1 = some after) :
      RhsCode frame (.index place) before [i, j, .arrayLoad (cellKind place.elemTy)] after

theorem emits_cell {place : Cell} (h : Emits (frame.cell place) before () code after) :
    ∃ i j, ElementCode frame (.operand place.array) i ∧ ElementCode frame place.index j ∧
      code = [i, j] ∧ after = (before.push 1).push 1 := by
  obtain ⟨_, _, _, _, hload, hindex, rfl⟩ := h.bind
  obtain ⟨i, first, rfl, rfl⟩ := emits_load hload
  obtain ⟨j, second, rfl, rfl⟩ := emits_element hindex
  exact ⟨i, j, first, second, rfl, rfl⟩

/-- Two operands and what is done with them. -/
theorem emits_pair {left right : Element} {next : Emit Unit}
    (h : Emits (do frame.element left; frame.element right; next) before () code after) :
    ∃ i j rest, ElementCode frame left i ∧ ElementCode frame right j ∧
      Emits next ((before.push 1).push 1) () rest after ∧ code = i :: j :: rest := by
  obtain ⟨_, _, _, _, hleft, h₁, rfl⟩ := h.bind
  obtain ⟨i, first, rfl, rfl⟩ := emits_element hleft
  obtain ⟨_, _, _, rest, hright, h₂, rfl⟩ := h₁.bind
  obtain ⟨j, second, rfl, rfl⟩ := emits_element hright
  exact ⟨i, j, rest, first, second, h₂, rfl⟩

/-- An instruction that pops, at the end of a rule. -/
theorem emits_put_drop {instr : Instr} {count : Nat}
    (h : Emits (do Emit.put instr; frame.drop count) before () code after) :
    code = [instr] ∧ before.pop? count = some after := by
  obtain ⟨_, _, _, _, hput, hdrop, rfl⟩ := h.bind
  obtain ⟨rfl, rfl⟩ := hput.put
  obtain ⟨rfl, lower⟩ := hdrop.pop
  exact ⟨rfl, lower⟩

theorem emits_rhs {rhs : Rhs} (h : Emits (frame.rhs rhs) before () code after) :
    RhsCode frame rhs before code after := by
  cases rhs with
  | element elem =>
      obtain ⟨i, first, rfl, rfl⟩ := emits_element h
      exact .element first
  | binary op left right =>
      cases op with
      | arith op =>
          obtain ⟨i, j, _, first, second, h₁, rfl⟩ := emits_pair h
          obtain ⟨rfl, lower⟩ := emits_put_drop h₁
          exact .arith first second lower
      | _ => exact h.fail.elim
  | not operand =>
      obtain ⟨_, _, _, _, hoperand, h₁, rfl⟩ := h.bind
      obtain ⟨i, first, rfl, rfl⟩ := emits_element hoperand
      obtain ⟨_, _, _, _, hput, h₂, rfl⟩ := h₁.bind
      obtain ⟨rfl, rfl⟩ := hput.put
      obtain ⟨_, _, _, _, hpush, h₃, rfl⟩ := h₂.bind
      obtain ⟨rfl, rfl⟩ := hpush.push
      obtain ⟨rfl, lower⟩ := emits_put_drop h₃
      exact .not first lower
  | call invocation => exact .call (emits_call h)
  | new className =>
      obtain ⟨_, _, _, _, hput, hpush, rfl⟩ := h.bind
      obtain ⟨rfl, rfl⟩ := hput.put
      obtain ⟨rfl, rfl⟩ := hpush.push
      exact .new
  | newArray size ty =>
      rw [rhs] at h
      split at h
      · obtain ⟨_, _, _, _, hsize, hput, rfl⟩ := h.bind
        obtain ⟨i, first, rfl, rfl⟩ := emits_element hsize
        obtain ⟨rfl, rfl⟩ := hput.put
        exact .newArray ‹_› first
      · exact h.fail.elim
  | length array =>
      obtain ⟨_, _, _, _, hload, hput, rfl⟩ := h.bind
      obtain ⟨i, first, rfl, rfl⟩ := emits_load hload
      obtain ⟨rfl, rfl⟩ := hput.put
      exact .length first
  | getField object field =>
      obtain ⟨owner, _, _, _, howner, h₁, rfl⟩ := h.bind
      obtain ⟨rfl, rfl, rfl⟩ := emits_ownerOf howner
      obtain ⟨_, _, _, _, hload, hput, rfl⟩ := h₁.bind
      obtain ⟨i, first, rfl, rfl⟩ := emits_load hload
      obtain ⟨rfl, rfl⟩ := hput.put
      exact .getField first
  | index place =>
      obtain ⟨_, _, _, _, hcell, h₁, rfl⟩ := h.bind
      obtain ⟨i, j, first, second, rfl, rfl⟩ := emits_cell hcell
      obtain ⟨rfl, lower⟩ := emits_put_drop h₁
      exact .index first second lower

/-! ## Instructions -/

/-- The code of a comparison and the heights around it.  A literal is subtracted
from the other operand. -/
inductive CompareCode (frame : Frame) (isLess : Bool) (left right : Element)
    (target : Label) : Height → List Instr → Height → Prop where
  | rightLiteral {i j : Instr} {before between after : Height}
      (literal : right.isLiteral = true)
      (first : ElementCode frame left i) (second : ElementCode frame right j)
      (lower : ((before.push 1).push 1).pop? 1 = some between)
      (lower' : between.pop? 1 = some after) :
      CompareCode frame isLess left right target before
        [i, j, .arith .sub, .ifZero (if isLess then .lt else .ge) target] after
  | leftLiteral {i j : Instr} {before between after : Height}
      (variable' : right.isLiteral = false) (literal : left.isLiteral = true)
      (first : ElementCode frame right i) (second : ElementCode frame left j)
      (lower : ((before.push 1).push 1).pop? 1 = some between)
      (lower' : between.pop? 1 = some after) :
      CompareCode frame isLess left right target before
        [i, j, .arith .sub, .ifZero (if isLess then .gt else .le) target] after
  | noLiteral {i j : Instr} {before between after : Height}
      (variable' : right.isLiteral = false) (variable'' : left.isLiteral = false)
      (first : ElementCode frame left i) (second : ElementCode frame right j)
      (lower : ((before.push 1).push 1).pop? 1 = some between)
      (lower' : between.pop? 1 = some after) :
      CompareCode frame isLess left right target before
        [i, j, .ifPair (if isLess then .lt else .ge) target] after

/-- A subtraction and a test of the difference. -/
theorem emits_difference {test : ZeroTest} {target : Label}
    (h : Emits (do
      Emit.put (.arith .sub)
      frame.drop 1
      Emit.put (.ifZero test target)
      frame.drop 1) before () code after) :
    code = [.arith .sub, .ifZero test target] ∧
      ∃ between, before.pop? 1 = some between ∧ between.pop? 1 = some after := by
  obtain ⟨_, _, _, _, hput, h₁, rfl⟩ := h.bind
  obtain ⟨rfl, rfl⟩ := hput.put
  obtain ⟨_, _, between, _, hdrop, h₂, rfl⟩ := h₁.bind
  obtain ⟨rfl, lower⟩ := hdrop.pop
  obtain ⟨rfl, lower'⟩ := emits_put_drop h₂
  exact ⟨rfl, between, lower, lower'⟩

theorem emits_compare {isLess : Bool} {left right : Element} {target : Label}
    (h : Emits (frame.compare isLess left right target) before () code after) :
    CompareCode frame isLess left right target before code after := by
  rw [compare] at h
  cases rightLiteral : right.isLiteral with
  | true =>
      rw [rightLiteral] at h
      obtain ⟨i, j, _, first, second, h₁, rfl⟩ := emits_pair h
      obtain ⟨rfl, between, lower, lower'⟩ := emits_difference h₁
      exact .rightLiteral rightLiteral first second lower lower'
  | false =>
      rw [rightLiteral] at h
      cases leftLiteral : left.isLiteral with
      | true =>
          rw [leftLiteral] at h
          obtain ⟨i, j, _, first, second, h₁, rfl⟩ := emits_pair h
          obtain ⟨rfl, between, lower, lower'⟩ := emits_difference h₁
          exact .leftLiteral rightLiteral leftLiteral first second lower lower'
      | false =>
          rw [leftLiteral] at h
          obtain ⟨i, j, _, first, second, h₁, rfl⟩ := emits_pair h
          obtain ⟨_, _, _, _, hput, h₂, rfl⟩ := h₁.bind
          obtain ⟨rfl, rfl⟩ := hput.put
          obtain ⟨_, _, between, _, hdrop, hdrop', rfl⟩ := h₂.bind
          obtain ⟨rfl, lower⟩ := hdrop.pop
          obtain ⟨rfl, lower'⟩ := hdrop'.pop
          exact .noLiteral rightLiteral leftLiteral first second lower lower'

/-- An assignment that one instruction can do. -/
structure Increment (frame : Frame) (dest : Operand) (rhs : Rhs) (delta : Int32) : Prop where
  allowed : frame.iinc = true
  isInt : dest.ty = .int
  sum : ∃ op lit, op.name = dest.name ∧ Literal.toInt? lit = some delta ∧
    (rhs = .binary (.arith .add) (.operand op) (.literal lit) ∨
      rhs = .binary (.arith .add) (.literal lit) (.operand op))
  small : -128 ≤ delta.toInt ∧ delta.toInt ≤ 127

theorem increment_of_eq_some {dest : Operand} {rhs : Rhs} {delta : Int32}
    (h : frame.increment? dest rhs = some delta) : Increment frame dest rhs delta := by
  have ofCandidate : ∀ {op : Operand} {lit : Literal},
      (rhs = .binary (.arith .add) (.operand op) (.literal lit) ∨
        rhs = .binary (.arith .add) (.literal lit) (.operand op)) →
      (frame.iinc && dest.ty = .int) = true →
      (lit.toInt?.bind fun delta =>
        if op.name = dest.name ∧ -128 ≤ delta.toInt ∧ delta.toInt ≤ 127 then some delta
        else none) = some delta →
      Increment frame dest rhs delta := by
    intro op lit shape applies h
    obtain ⟨value, number, h⟩ := Option.bind_eq_some_iff.mp h
    obtain ⟨⟨same, small⟩, rfl⟩ := Option.ite_none_right_eq_some.mp h |>.imp_right Option.some.inj
    obtain ⟨allowed, isInt⟩ := Bool.and_eq_true_iff.mp applies
    exact ⟨allowed, of_decide_eq_true isInt, ⟨op, lit, same, number, shape⟩, small⟩
  unfold increment? at h
  split at h
  · split at h
    · exact ofCandidate (.inl rfl) ‹_› h
    · exact ofCandidate (.inr rfl) ‹_› h
    · cases h
  · cases h

/-- The code of an instruction and the heights around it. -/
inductive InstrCode (frame : Frame) : Tac.Instr → Height → List Instr → Height → Prop where
  | increment {dest : Operand} {ty : Tac.Ty} {rhs : Rhs} {delta : Int32} {slot : Nat}
      {before : Height} (small : frame.increment? dest rhs = some delta)
      (found : frame.registers.find? dest.name = some slot) :
      InstrCode frame (.assign (.var dest) ty rhs) before [.iinc slot delta] before
  | set {dest : Operand} {ty : Tac.Ty} {rhs : Rhs} {slot : Nat} {code : List Instr}
      {before between after : Height} (large : frame.increment? dest rhs = none)
      (hasValue : rhs.ty.isVoid = false) (value : RhsCode frame rhs before code between)
      (found : frame.registers.find? dest.name = some slot)
      (lower : between.pop? 1 = some after) :
      InstrCode frame (.assign (.var dest) ty rhs) before
        (code ++ [.store (cellKind dest.ty) slot]) after
  | setCell {place : Cell} {ty : Tac.Ty} {rhs : Rhs} {i j : Instr} {code : List Instr}
      {before between after : Height} (first : ElementCode frame (.operand place.array) i)
      (second : ElementCode frame place.index j)
      (value : RhsCode frame rhs ((before.push 1).push 1) code between)
      (lower : between.pop? 3 = some after) :
      InstrCode frame (.assign (.cell place) ty rhs) before
        (i :: j :: (code ++ [.arrayStore (cellKind place.elemTy)])) after
  | putField {object field : Operand} {value : Element} {i j : Instr} {before after : Height}
      (first : ElementCode frame (.operand object) i) (second : ElementCode frame value j)
      (lower : ((before.push 1).push 1).pop? 2 = some after) :
      InstrCode frame (.putField object field value) before
        [i, j, .putField (frame.ownerName object) field.name (frame.descriptorOf field.ty)] after
  | callVoid {call : Call} {code : List Instr} {before after : Height}
      (isVoid : call.ret.isVoid = true) (made : CallCode frame call before code after) :
      InstrCode frame (.call call) before code after
  | callPop {call : Call} {code : List Instr} {before between after : Height}
      (hasValue : call.ret.isVoid = false) (made : CallCode frame call before code between)
      (lower : between.pop? 1 = some after) :
      InstrCode frame (.call call) before (code ++ [.pop]) after
  | goto {target : Label} {before : Height} :
      InstrCode frame (.goto target) before [.goto target] before
  | label {mark : Label} {before : Height} :
      InstrCode frame (.label mark) before [.label mark] before
  | branchLess {left right : Element} {target : Label} {code : List Instr}
      {before after : Height}
      (made : CompareCode frame true left right target before code after) :
      InstrCode frame (.branch (.binary .lt left right) target) before code after
  | branchAtLeast {left right : Element} {target : Label} {code : List Instr}
      {before after : Height}
      (made : CompareCode frame false left right target before code after) :
      InstrCode frame (.branch (.binary .ge left right) target) before code after
  | branch {cond : Rhs} {target : Label} {code : List Instr} {before between after : Height}
      (value : RhsCode frame cond before code between) (lower : between.pop? 1 = some after) :
      InstrCode frame (.branch cond target) before (code ++ [.ifZero .ne target]) after
  | retValue {ty : Tac.Ty} {value : Element} {i : Instr} {before after : Height}
      (first : ElementCode frame value i) (lower : (before.push 1).pop? 1 = some after) :
      InstrCode frame (.ret ty (some value)) before [i, .ret (returnKind ty)] after
  | ret {ty : Tac.Ty} {before : Height} :
      InstrCode frame (.ret ty none) before [.ret (returnKind ty)] before

theorem emits_set {dest : Operand} {ty : Tac.Ty} {rhs : Rhs}
    (h : Emits (frame.set dest rhs) before () code after) :
    InstrCode frame (.assign (.var dest) ty rhs) before code after := by
  rw [set] at h
  cases small : frame.increment? dest rhs with
  | some delta =>
      rw [small] at h
      obtain ⟨slot, _, _, _, hslot, hput, rfl⟩ := h.bind
      obtain ⟨found, rfl, rfl⟩ := emits_slotOf hslot
      obtain ⟨rfl, rfl⟩ := hput.put
      exact .increment small found
  | none =>
      rw [small] at h
      cases void : rhs.ty.isVoid with
      | true =>
          rw [void] at h
          exact h.fail.elim
      | false =>
          rw [void] at h
          obtain ⟨_, _, _, _, hrhs, hstore, rfl⟩ := h.bind
          obtain ⟨slot, found, rfl, lower⟩ := emits_store hstore
          exact .set small void (emits_rhs hrhs) found lower

theorem emits_branch {cond : Rhs} {target : Label}
    (h : Emits (frame.branch cond target) before () code after) :
    InstrCode frame (.branch cond target) before code after := by
  have ofValue : Emits (do
      frame.rhs cond
      Emit.put (.ifZero .ne target)
      frame.drop 1) before () code after →
      InstrCode frame (.branch cond target) before code after := by
    intro h
    obtain ⟨_, _, _, _, hrhs, h₁, rfl⟩ := h.bind
    obtain ⟨rfl, lower⟩ := emits_put_drop h₁
    exact .branch (emits_rhs hrhs) lower
  cases cond with
  | binary op left right =>
      cases op with
      | arith op => exact ofValue h
      | lt => exact .branchLess (emits_compare h)
      | ge => exact .branchAtLeast (emits_compare h)
      | and => exact h.fail.elim
  | _ => exact ofValue h

/-- What an accepted instruction is assembled to. -/
theorem emits_instr {instr : Tac.Instr} (h : Emits (frame.instr instr) before () code after) :
    InstrCode frame instr before code after := by
  cases instr with
  | assign dest ty rhs =>
      cases dest with
      | var op => exact emits_set h
      | cell place =>
          obtain ⟨_, _, _, _, hcell, h₁, rfl⟩ := h.bind
          obtain ⟨i, j, first, second, rfl, rfl⟩ := emits_cell hcell
          obtain ⟨_, _, _, _, hrhs, h₂, rfl⟩ := h₁.bind
          obtain ⟨rfl, lower⟩ := emits_put_drop h₂
          exact .setCell first second (emits_rhs hrhs) lower
  | putField object field value =>
      obtain ⟨owner, _, _, _, howner, h₁, rfl⟩ := h.bind
      obtain ⟨rfl, rfl, rfl⟩ := emits_ownerOf howner
      have pair : Emits (do frame.element (.operand object); frame.element value; _) _ _ _ _ := h₁
      obtain ⟨i, j, _, first, second, h₂, rfl⟩ := emits_pair pair
      obtain ⟨rfl, lower⟩ := emits_put_drop h₂
      exact .putField first second lower
  | call call =>
      obtain ⟨_, _, _, _, hcall, h₁, rfl⟩ := h.bind
      have made := emits_call hcall
      cases void : call.ret.isVoid with
      | true =>
          rw [void] at h₁
          obtain ⟨-, rfl, rfl⟩ := h₁.pure
          rw [List.append_nil]
          exact .callVoid void made
      | false =>
          rw [void] at h₁
          obtain ⟨rfl, lower⟩ := emits_put_drop h₁
          exact .callPop void made lower
  | goto target =>
      obtain ⟨rfl, rfl⟩ := h.put
      exact .goto
  | label mark =>
      obtain ⟨rfl, rfl⟩ := h.put
      exact .label
  | branch cond target => exact emits_branch h
  | ret ty value =>
      cases value with
      | none =>
          obtain ⟨rfl, rfl⟩ := h.put
          exact .ret
      | some value =>
          obtain ⟨_, _, _, _, helement, h₁, rfl⟩ := h.bind
          obtain ⟨i, first, rfl, rfl⟩ := emits_element helement
          obtain ⟨rfl, lower⟩ := emits_put_drop h₁
          exact .retValue first lower

end Frame

end MiniJava.Jasmin
