import MiniJava.Proofs.Assembly.Path
import MiniJava.Proofs.Assembly.Refusal
import MiniJava.Proofs.Registers

/-!
# The layout of a method's variables

The sequential layout of a method numbers its variables from 0 on: the receiver
of an instance method, the parameters, then what the body mentions
(`SequentialLayout`).  The rules of assembly write no slot that they did not
find in the table (`Addressed`), and a method reserves more slots than the
highest in its table.  So in a method that is assembled with its sequential
layout every slot is one that it reserves.
-/

namespace MiniJava

open Tac (Operand Element Registers thisName)
open Tac.Registers (receiverNames mentioned)

/-! ## Slots in code -/

namespace Jasmin

/-- The slot that an instruction names. -/
def Instr.slot? : Instr → Option Nat
  | load _ slot => some slot
  | store _ slot => some slot
  | iinc slot _ => some slot
  | _ => none

theorem Instr.slot?_ofInt (value : Int32) : (ofInt value).slot? = none := by
  unfold ofInt
  split_ifs <;> rfl

/-- Every slot that the code names is the slot of a variable. -/
def Addressed (registers : Registers) (code : List Instr) : Prop :=
  ∀ instr ∈ code, ∀ slot, instr.slot? = some slot → ∃ name, registers.find? name = some slot

namespace Addressed

variable {registers : Registers} {code rest : List Instr} {instr : Instr}

theorem nil : Addressed registers [] := nofun

/-- An instruction without a slot. -/
theorem cons (none : instr.slot? = none) (others : Addressed registers rest) :
    Addressed registers (instr :: rest) := by
  refine List.forall_mem_cons.mpr ⟨fun slot named => ?_, others⟩
  rw [none] at named
  cases named

/-- An instruction that names the slot of a variable. -/
theorem cons_of_find? {name : String} {slot : Nat} (found : registers.find? name = some slot)
    (named : instr.slot? = some slot) (others : Addressed registers rest) :
    Addressed registers (instr :: rest) := by
  refine List.forall_mem_cons.mpr ⟨fun slot' named' => ?_, others⟩
  cases named.symm.trans named'
  exact ⟨name, found⟩

theorem append (first : Addressed registers code) (second : Addressed registers rest) :
    Addressed registers (code ++ rest) :=
  List.forall_mem_append.mpr ⟨first, second⟩

theorem cons_of_element {frame : Frame} {elem : Element}
    (pushes : Frame.ElementCode frame elem instr) (others : Addressed frame.registers rest) :
    Addressed frame.registers (instr :: rest) := by
  cases pushes with
  | load found => exact cons_of_find? found rfl others
  | literal constant =>
      refine cons ?_ others
      rcases Frame.constant_eq_ok constant with ⟨-, value, -, rfl⟩ | ⟨-, -, rfl⟩
      · exact Instr.slot?_ofInt value
      · rfl

theorem of_elements {frame : Frame} {elems : List Element}
    (each : List.Forall₂ (Frame.ElementCode frame) elems code) :
    Addressed frame.registers code := by
  induction each with
  | nil => exact nil
  | cons pushes _ others => exact cons_of_element pushes others

end Addressed

namespace Frame

open Addressed

variable {frame : Frame} {before after : Height} {code : List Instr}

theorem CallCode.addressed {call : Tac.Call} (made : CallCode frame call before code after) :
    Addressed frame.registers code := by
  obtain ⟨operands, each, rfl⟩ := made.code_eq
  exact (of_elements each).append (.cons rfl .nil)

theorem RhsCode.addressed {rhs : Tac.Rhs} (made : RhsCode frame rhs before code after) :
    Addressed frame.registers code := by
  cases made with
  | element first => exact cons_of_element first .nil
  | arith first second => exact cons_of_element first (cons_of_element second (.cons rfl .nil))
  | not first => exact cons_of_element first (.cons rfl (.cons rfl .nil))
  | call made => exact made.addressed
  | new => exact .cons rfl .nil
  | newArray _ first => exact cons_of_element first (.cons rfl .nil)
  | length first => exact cons_of_element first (.cons rfl .nil)
  | getField first => exact cons_of_element first (.cons rfl .nil)
  | index first second => exact cons_of_element first (cons_of_element second (.cons rfl .nil))

theorem CompareCode.addressed {isLess : Bool} {left right : Element} {target : Label}
    (made : CompareCode frame isLess left right target before code after) :
    Addressed frame.registers code := by
  cases made with
  | rightLiteral _ first second =>
      exact cons_of_element first (cons_of_element second (.cons rfl (.cons rfl .nil)))
  | leftLiteral _ _ first second =>
      exact cons_of_element first (cons_of_element second (.cons rfl (.cons rfl .nil)))
  | noLiteral _ _ first second =>
      exact cons_of_element first (cons_of_element second (.cons rfl .nil))

/-- An instruction is assembled with slots from the table only. -/
theorem InstrCode.addressed {instr : Tac.Instr} (made : InstrCode frame instr before code after) :
    Addressed frame.registers code := by
  cases made with
  | increment _ found => exact cons_of_find? found rfl .nil
  | set _ _ value found => exact value.addressed.append (cons_of_find? found rfl .nil)
  | setCell first second value =>
      exact cons_of_element first (cons_of_element second (value.addressed.append (.cons rfl .nil)))
  | putField first second =>
      exact cons_of_element first (cons_of_element second (.cons rfl .nil))
  | callVoid _ made => exact made.addressed
  | callPop _ made => exact made.addressed.append (.cons rfl .nil)
  | goto => exact .cons rfl .nil
  | label => exact .cons rfl .nil
  | branchLess made => exact made.addressed
  | branchAtLeast made => exact made.addressed
  | branch value => exact value.addressed.append (.cons rfl .nil)
  | retValue first => exact cons_of_element first (.cons rfl .nil)
  | ret => exact .cons rfl .nil

theorem addressed_of_instrs {body : List Tac.Instr}
    (assembled : (frame.instrs body before).value = .ok (code, after)) :
    Addressed frame.registers code := by
  induction body generalizing before code with
  | nil =>
      cases assembled
      exact .nil
  | cons first rest ih =>
      obtain ⟨⟨_, block, between⟩, others, accepted, remaining, rfl⟩ := instrs_cons_eq_ok assembled
      exact (emits_instr accepted).addressed.append (ih remaining)

end Frame

theorem localsLimit_of_assembleMethod {options : Options} {unit : Tac.Class} {method : Tac.Method}
    {assembled : Method} (ok : (assembleMethod options unit method).value = .ok assembled) :
    assembled.localsLimit = method.layout.limit := by
  rw [assembleMethod] at ok
  simp only [Noted.value_bind, Noted.value_pure] at ok
  cases body : ((Frame.of options unit method).instrs method.body {}).value with
  | error error => rw [body] at ok; cases ok
  | ok result => rw [body] at ok; cases ok; rfl

/-- A method reserves every slot that its code names. -/
theorem slot_lt_localsLimit {options : Options} {unit : Tac.Class} {method : Tac.Method}
    {assembled : Method} (ok : (assembleMethod options unit method).value = .ok assembled)
    {instr : Instr} (mem : instr ∈ assembled.code) {slot : Nat}
    (named : instr.slot? = some slot) : slot < assembled.localsLimit := by
  obtain ⟨after, body, -⟩ := assembleMethod_eq_ok ok
  obtain ⟨name, found⟩ := Frame.addressed_of_instrs body instr mem slot named
  rw [localsLimit_of_assembleMethod ok]
  exact Registers.lt_limit_of_find? found

end Jasmin

/-! ## Sequential layouts -/

namespace Tac

theorem Registers.mem_mentioned {body : List Instr} {name : String} :
    name ∈ mentioned body ↔
      name ≠ thisName ∧ ∃ instr ∈ body, ∃ op, .operand op ∈ instr.elements ∧ op.name = name := by
  simp only [mentioned, List.mem_map, List.mem_filter, List.mem_flatMap, Instr.mem_operands,
    Operand.isThis, Bool.not_eq_true', decide_eq_false_iff_not]
  constructor
  · rintro ⟨op, ⟨⟨instr, mem, isElement⟩, notThis⟩, rfl⟩
    exact ⟨notThis, instr, mem, op, isElement, rfl⟩
  · rintro ⟨notThis, instr, mem, op, isElement, rfl⟩
    exact ⟨op, ⟨⟨instr, mem, isElement⟩, notThis⟩, rfl⟩

namespace Method

/-- The number of slots before those of the parameters. -/
def receiverCount (method : Method) : Nat := if method.isStatic then 0 else 1

/-- The parameters differ in name from each other and from the receiver. -/
def ParamsDiffer (method : Method) : Prop :=
  (thisName :: method.params.map Operand.name).Nodup

theorem ParamsDiffer.nodup {method : Method} (differ : method.ParamsDiffer) :
    (receiverNames method.isStatic ++ method.params.map Operand.name).Nodup := by
  cases isStatic : method.isStatic with
  | true => exact (List.nodup_cons.mp differ).2
  | false => exact differ

theorem length_receiverNames (method : Method) :
    (receiverNames method.isStatic).length = method.receiverCount := by
  rw [receiverCount]
  cases method.isStatic <;> rfl

/-- What a table must be to lay out the variables of a method. -/
structure SequentialLayout (method : Method) (registers : Registers) : Prop where
  slot_eq_place : ∀ (place : Nat) (name : String) (slot : Nat),
    registers.slots.entries[place]? = some (name, slot) → slot = place
  find?_iff_mem : ∀ name slot,
    registers.find? name = some slot ↔ (name, slot) ∈ registers.slots.entries
  injective : ∀ name other slot, registers.find? name = some slot →
    registers.find? other = some slot → name = other
  mem_names : ∀ name, name ∈ registers.slots.names ↔
    (method.isStatic = false ∧ name = thisName) ∨
    (∃ param ∈ method.params, param.name = name) ∨
    (name ≠ thisName ∧
      ∃ instr ∈ method.body, ∃ op, .operand op ∈ instr.elements ∧ op.name = name)
  param : method.ParamsDiffer → ∀ (place : Nat) param, method.params[place]? = some param →
    registers.find? param.name = some (method.receiverCount + place)

theorem find?_param_sequential {method : Method} (differ : method.ParamsDiffer) {place : Nat}
    {param : Operand} (here : method.params[place]? = some param) :
    method.sequential.find? param.name = some (method.receiverCount + place) := by
  have inOrder := Registers.sequential_inOrder method.isStatic method.params method.body
  have nodup := Registers.nodup_names_sequential method.isStatic method.params method.body
  obtain ⟨others, names⟩ := Registers.names_prefix_sequential _ _ method.body differ.nodup
  refine (inOrder.find?_eq_some_iff nodup).mpr ?_
  have place' : (method.params.map Operand.name)[place]? = some param.name := by
    rw [List.getElem?_map, here]
    rfl
  have inside : place < (method.params.map Operand.name).length :=
    (List.getElem?_eq_some_iff.mp place').1
  rw [← names, List.append_assoc, List.getElem?_append_right (by rw [length_receiverNames]; omega),
    length_receiverNames, Nat.add_sub_cancel_left, List.getElem?_append_left inside]
  exact place'

theorem sequentialLayout_sequential (method : Method) :
    method.SequentialLayout method.sequential := by
  have inOrder := Registers.sequential_inOrder method.isStatic method.params method.body
  have nodup := Registers.nodup_names_sequential method.isStatic method.params method.body
  refine ⟨?_, ?_, fun _ _ _ => inOrder.injective, ?_,
    fun differ _ _ => find?_param_sequential differ⟩
  · intro place name slot here
    rw [sequential, inOrder.entries_eq, List.getElem?_zipIdx] at here
    obtain ⟨_, -, same⟩ := Option.map_eq_some_iff.mp here
    cases same
    exact Nat.zero_add place
  · intro name slot
    rw [sequential, inOrder.find?_eq_some_iff nodup, inOrder.entries_eq,
      List.mem_zipIdx_iff_getElem?]
  · intro name
    rw [sequential, Registers.mem_names_sequential, Registers.mem_mentioned, List.mem_map]
    cases method.isStatic with
    | true => simp [receiverNames]
    | false => simp [receiverNames]

/-- Receiver and parameters fit into what a method reserves. -/
theorem length_params_le_limit {method : Method} (differ : method.ParamsDiffer) :
    method.receiverCount + method.params.length ≤ method.sequential.limit := by
  have inOrder := Registers.sequential_inOrder method.isStatic method.params method.body
  have names := Registers.names_prefix_sequential _ _ method.body differ.nodup
  calc method.receiverCount + method.params.length
      = (receiverNames method.isStatic ++ method.params.map Operand.name).length := by
        rw [List.length_append, length_receiverNames, List.length_map]
    _ ≤ method.sequential.slots.names.length := names.length_le
    _ ≤ method.sequential.limit := inOrder.size_le_limit

end Method

end Tac

namespace Jasmin

/-- The sequential layout of a method numbers its variables in order, and a
method that is assembled with it reserves every slot that its code names, and
those of its receiver and parameters. -/
theorem layout_of_sequential (method : Tac.Method) :
    method.SequentialLayout method.sequential ∧
    ∀ options unit assembled, method.layout = method.sequential →
      (assembleMethod options unit method).value = .ok assembled →
      (∀ instr ∈ assembled.code, ∀ slot, instr.slot? = some slot → slot < assembled.localsLimit) ∧
      (method.ParamsDiffer →
        method.receiverCount + method.params.length ≤ assembled.localsLimit) := by
  refine ⟨method.sequentialLayout_sequential, fun options unit assembled layout ok => ?_⟩
  refine ⟨fun instr mem slot named => slot_lt_localsLimit ok mem named, fun differ => ?_⟩
  rw [localsLimit_of_assembleMethod ok, layout]
  exact Tac.Method.length_params_le_limit differ

/-- An instance method that adds its second parameter to a field and counts in a
variable of its own. -/
def tally : Tac.Method where
  name := "tally"
  params := [⟨"by", .int⟩, ⟨"unused", .bool⟩]
  ret := .int
  body :=
    [.set ⟨"t", .int⟩ (.getField ⟨"this", .object "Foo"⟩ ⟨"total", .int⟩),
     .set ⟨"t", .int⟩ (.binary (.arith .add) (.var "t" .int) (.var "by" .int)),
     .set ⟨"t", .int⟩ (.binary (.arith .add) (.var "t" .int) (.int 1)),
     .ret .int (some (.var "t" .int))]

theorem layout_of_sequential_tally :
    let code : List Instr :=
      [.load .ref 0, .getField "Foo" "total" .int, .store .int 3, .load .int 3, .load .int 1,
        .arith .add, .store .int 3, .iinc 3 1, .load .int 3, .ret (some .int)]
    tally.ParamsDiffer ∧ tally.layout = tally.sequential ∧
    tally.sequential.slots.entries = [("this", 0), ("by", 1), ("unused", 2), ("t", 3)] ∧
    (∀ instr ∈ code, ∀ slot, instr.slot? = some slot → slot < 4) ∧ 1 + 2 ≤ 4 := by
  intro code
  let unit : Tac.Class := ⟨"Foo", none, [], [], [tally]⟩
  have differ : tally.ParamsDiffer := by
    unfold Tac.Method.ParamsDiffer
    decide
  have ok : (assembleMethod {} unit tally).value =
      .ok ⟨"tally", true, false, ⟨[.int, .boolean], .int⟩, 2, 4, code⟩ := by
    decide +kernel
  obtain ⟨-, fits⟩ := layout_of_sequential tally
  obtain ⟨slots, params⟩ := fits {} unit _ rfl ok
  exact ⟨differ, rfl, by decide +kernel, slots, params differ⟩

end Jasmin

end MiniJava
