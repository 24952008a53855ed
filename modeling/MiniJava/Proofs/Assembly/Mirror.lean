import MiniJava.Jasmin.Assemble
import MiniJava.Proofs.Renaming

/-!
# Assembling renamed code

The rules of assembly look at a variable in two ways: they look up its slot, and
they ask whether it is the receiver.  They look at the height of the stack and
pass on the greatest height without looking at it.  So if the variables and
labels of an instruction are renamed and the slots go with the variables, the
instruction is assembled to the same code with its labels renamed, or refused
for the same reason; and if the stack was higher at some time before, it was
higher at some time before afterwards (`Mirrors`).
-/

namespace MiniJava.Jasmin

open Tac (Operand Literal Element Cell Call Target Rhs)

/-! ## Two emissions side by side -/

/-- The same height, after one that was at least `level`. -/
def Height.raise (level : Nat) (height : Height) : Height :=
  { height with max := Nat.max height.max level }

/-- Pushing reaches the same greatest height, or leaves the one that was there before. -/
theorem Height.raise_push (level count : Nat) (height : Height) :
    (height.raise level).push count = (height.push count).raise level := by
  simp only [raise, push, Height.mk.injEq, true_and]
  exact Nat.max_right_comm ..

/-- Whether enough is on the stack does not depend on its greatest height. -/
theorem Height.raise_pop? (level count : Nat) (height : Height) :
    (height.raise level).pop? count = (height.pop? count).map (Height.raise level) := by
  by_cases enough : count ≤ height.current <;> simp [raise, pop?, enough]

@[simp]
theorem Height.raise_zero (height : Height) : height.raise 0 = height := by
  simp [raise]

variable {α β : Type}

/-- What is left after a renaming and from a stack that was higher before. -/
def Emitted.mirror (naming : Renaming) (level : Nat) (emitted : Emitted α) : Emitted α :=
  ⟨emitted.value, emitted.code.map (Instr.relabel naming.label), emitted.height.raise level⟩

/-- The second emission does what the first one does, after a renaming and from
a stack that was higher before. -/
def Mirrors (naming : Renaming) (level : Nat) (emit emit' : Emit α) : Prop :=
  ∀ height : Height, emit' (height.raise level) =
    naming.outcome (Emitted.mirror naming level) (emit height)

namespace Mirrors

variable {naming : Renaming} {level : Nat}

theorem pure (value : α) : Mirrors naming level (Pure.pure value) (Pure.pure value) :=
  fun _ => rfl

/-- Emissions in sequence are mirrored part by part, up to the first error. -/
theorem bind {first first' : Emit α} {next next' : α → Emit β}
    (h : Mirrors naming level first first')
    (h' : ∀ value, Mirrors naming level (next value) (next' value)) :
    Mirrors naming level (first >>= next) (first' >>= next') := by
  intro height
  simp only [Bind.bind, h height]
  cases first height with
  | error error => rfl
  | ok before =>
      simp only [Renaming.outcome, Emitted.mirror, h' before.value before.height]
      cases next before.value before.height with
      | error error => rfl
      | ok after => simp only [List.map_append]

/-- The same error is reported, with the variables that it mentions renamed. -/
theorem fail {error error' : CompileError} (same : error' = error.rename naming) :
    Mirrors naming level (Emit.fail error : Emit α) (Emit.fail error') := by
  subst same
  exact fun _ => rfl

/-- An instruction is written with its label renamed. -/
theorem put {instr instr' : Instr} (same : instr' = instr.relabel naming.label) :
    Mirrors naming level (Emit.put instr) (Emit.put instr') := by
  subst same
  exact fun _ => rfl

theorem push (count : Nat) : Mirrors naming level (Emit.push count) (Emit.push count) := by
  intro height
  simp only [Emit.push, Renaming.outcome, Emitted.mirror, Height.raise_push, List.map_nil]

theorem pop (method : String) (count : Nat) :
    Mirrors naming level (Emit.pop method count) (Emit.pop method count) := by
  intro height
  simp only [Emit.pop, Height.raise_pop?]
  cases height.pop? count with
  | none => rfl
  | some lower => rfl

end Mirrors

/-! ## Rules -/

namespace Frame

/-- Two frames in which variables have the same slots under different names. -/
structure Alike (naming : Renaming) (frame frame' : Frame) : Prop where
  className : frame'.className = frame.className
  imports : frame'.imports = frame.imports
  method : frame'.method = frame.method
  faithful : naming.Faithful
  slots : ∀ name, frame'.registers.find? (naming.name name) = frame.registers.find? name

variable {naming : Renaming} {level : Nat} {frame frame' : Frame}

/-- The kind of an access is that of the type. -/
theorem mirrors_kindOf (ty : Tac.Ty) : Mirrors naming level (kindOf ty) (kindOf ty) := by
  cases ty with
  | void => exact .fail rfl
  | _ => exact .pure _

/-- Literals have neither variables nor labels. -/
theorem mirrors_literal (lit : Literal) : Mirrors naming level (literal lit) (literal lit) := by
  unfold literal constant
  cases lit.ty
  case int | bool =>
    cases lit.toInt? with
    | none => exact .fail rfl
    | some value => exact .bind (.put (Instr.relabel_ofInt ..).symm) fun _ => .push 1
  all_goals exact .bind (.put rfl) fun _ => .push 1

namespace Alike

variable (alike : Alike naming frame frame')
include alike

/-- A variable is looked up under its new name, and the same slot is found. -/
theorem mirrors_slotOf (name : String) :
    Mirrors naming level (frame.slotOf name) (frame'.slotOf (naming.name name)) := by
  unfold slotOf
  rw [alike.slots, alike.method]
  cases frame.registers.find? name with
  | none => exact .fail rfl
  | some slot => exact .pure slot

theorem mirrors_drop (count : Nat) :
    Mirrors naming level (frame.drop count) (frame'.drop count) := by
  rw [drop, drop, alike.method]
  exact .pop frame.method count

theorem mirrors_load (op : Operand) :
    Mirrors naming level (frame.load op) (frame'.load (op.rename naming)) :=
  .bind (alike.mirrors_slotOf op.name) fun _ => .bind (mirrors_kindOf op.ty) fun _ =>
    .bind (.put rfl) fun _ => .push 1

theorem mirrors_store (op : Operand) :
    Mirrors naming level (frame.store op) (frame'.store (op.rename naming)) :=
  .bind (alike.mirrors_slotOf op.name) fun _ => .bind (mirrors_kindOf op.ty) fun _ =>
    .bind (.put rfl) fun _ => alike.mirrors_drop 1

theorem mirrors_element (elem : Element) :
    Mirrors naming level (frame.element elem) (frame'.element (elem.rename naming)) := by
  cases elem with
  | operand op => exact alike.mirrors_load op
  | literal lit => exact mirrors_literal lit

/-- Arguments are loaded from left to right in both frames. -/
theorem mirrors_elements : ∀ elems : List Element,
    Mirrors naming level (frame.elements elems)
      (frame'.elements (elems.map (Element.rename naming)))
  | [] => .pure ()
  | elem :: rest => .bind (alike.mirrors_element elem) fun _ => mirrors_elements rest

theorem mirrors_cell (place : Cell) :
    Mirrors naming level (frame.cell place) (frame'.cell (place.rename naming)) :=
  .bind (alike.mirrors_load place.array) fun _ => alike.mirrors_element place.index

/-- The owner of a field is decided by whether its object is the receiver. -/
theorem mirrors_ownerOf (object : Operand) :
    Mirrors naming level (frame.ownerOf object) (frame'.ownerOf (object.rename naming)) := by
  unfold ownerOf
  rw [Operand.isThis_rename alike.faithful, Operand.ty_rename, alike.className, alike.imports]
  split
  · exact .pure _
  · split
    · exact .pure _
    · exact .pure _
    · exact .fail rfl

/-- A call on a class loads nothing, and a call on a value loads the value. -/
theorem mirrors_receiver (call : Call) :
    Mirrors naming level (frame.receiver call) (frame'.receiver (call.rename naming)) := by
  obtain ⟨kind, target, method, args, ret⟩ := call
  have onObject : ∀ object : Operand, Mirrors naming level
      (do frame.load object; return (← frame.ownerOf object, 1))
      (do
        frame'.load (object.rename naming)
        return (← frame'.ownerOf (object.rename naming), 1)) :=
    fun object => .bind (alike.mirrors_load object) fun _ =>
      .bind (alike.mirrors_ownerOf object) fun _ => .pure _
  cases target with
  | className name =>
      cases kind with
      | static =>
          unfold receiver
          rw [alike.imports]
          exact .pure _
      | virtual => exact .fail rfl
      | special => exact .fail rfl
  | object object =>
      cases kind with
      | static => exact .fail rfl
      | virtual => exact onObject object
      | special => exact onObject object

/-- The descriptor of a call comes from types, which are not renamed. -/
theorem mirrors_call (call : Call) :
    Mirrors naming level (frame.call call) (frame'.call (call.rename naming)) := by
  have args : (call.args.map (Element.rename naming)).map Element.ty =
      call.args.map Element.ty := by
    simp
  have result : ∀ isVoid : Bool, Mirrors naming level
      (if isVoid then Pure.pure () else Emit.push 1) (if isVoid then Pure.pure () else Emit.push 1)
    | true => .pure ()
    | false => .push 1
  refine .bind (alike.mirrors_receiver call) fun (owner, pushed) => ?_
  refine .bind (alike.mirrors_elements call.args) fun _ => ?_
  refine .bind (.put ?_) fun _ => ?_
  · simp only [Call.rename, args, alike.imports, Instr.relabel]
  · simp only [Call.rename, List.length_map]
    exact .bind (alike.mirrors_drop _) fun _ => result call.ret.isVoid

/-- Two operands are loaded before the instruction that takes them. -/
theorem mirrors_pair (left right : Element) {next next' : Emit Unit}
    (h : Mirrors naming level next next') :
    Mirrors naming level (do frame.element left; frame.element right; next)
      (do frame'.element (left.rename naming); frame'.element (right.rename naming); next') :=
  .bind (alike.mirrors_element left) fun _ => .bind (alike.mirrors_element right) fun _ => h

theorem mirrors_put_drop {instr instr' : Instr} (same : instr' = instr.relabel naming.label)
    (count : Nat) :
    Mirrors naming level (do Emit.put instr; frame.drop count)
      (do Emit.put instr'; frame'.drop count) :=
  .bind (.put same) fun _ => alike.mirrors_drop count

/-- An expression is computed by the same code on the renamed slots. -/
theorem mirrors_rhs (rhs : Rhs) :
    Mirrors naming level (frame.rhs rhs) (frame'.rhs (rhs.rename naming)) := by
  cases rhs with
  | element elem => exact alike.mirrors_element elem
  | binary op left right =>
      cases op with
      | arith op => exact alike.mirrors_pair left right (alike.mirrors_put_drop rfl 1)
      | _ => exact .fail rfl
  | not operand =>
      exact .bind (alike.mirrors_element operand) fun _ => .bind (.put rfl) fun _ =>
        .bind (.push 1) fun _ => alike.mirrors_put_drop rfl 1
  | call invocation => exact alike.mirrors_call invocation
  | new className =>
      refine .bind (.put ?_) fun _ => .push 1
      rw [alike.imports]
      rfl
  | newArray size ty =>
      unfold Frame.rhs Rhs.rename
      dsimp only
      split
      · exact .bind (alike.mirrors_element size) fun _ => .put rfl
      · exact .fail rfl
  | length array => exact .bind (alike.mirrors_load array) fun _ => .put rfl
  | getField object field =>
      refine .bind (alike.mirrors_ownerOf object) fun _ =>
        .bind (alike.mirrors_load object) fun _ => .put ?_
      rw [descriptorOf, alike.imports]
      rfl
  | index place => exact .bind (alike.mirrors_cell place) fun _ => alike.mirrors_put_drop rfl 1

/-- The shape of the operands decides how they are compared, and a renaming keeps it. -/
theorem mirrors_compare (isLess : Bool) (left right : Element) (target : Label) :
    Mirrors naming level (frame.compare isLess left right target)
      (frame'.compare isLess (left.rename naming) (right.rename naming) (naming.label target)) := by
  have difference : ∀ test, Mirrors naming level
      (do Emit.put (.arith .sub); frame.drop 1; Emit.put (.ifZero test target); frame.drop 1)
      (do
        Emit.put (.arith .sub)
        frame'.drop 1
        Emit.put (.ifZero test (naming.label target))
        frame'.drop 1) := fun test =>
    .bind (.put rfl) fun _ => .bind (alike.mirrors_drop 1) fun _ => alike.mirrors_put_drop rfl 1
  cases right with
  | literal lit => exact alike.mirrors_pair left (.literal lit) (difference _)
  | operand op =>
      cases left with
      | literal lit => exact alike.mirrors_pair (.operand op) (.literal lit) (difference _)
      | operand op' =>
          exact alike.mirrors_pair (.operand op') (.operand op)
            (.bind (.put rfl) fun _ => .bind (alike.mirrors_drop 1) fun _ => alike.mirrors_drop 1)

/-- A branch goes to the renamed label. -/
theorem mirrors_branch (cond : Rhs) (target : Label) :
    Mirrors naming level (frame.branch cond target)
      (frame'.branch (cond.rename naming) (naming.label target)) := by
  have ofValue : Mirrors naming level
      (do frame.rhs cond; Emit.put (.ifZero .ne target); frame.drop 1)
      (do
        frame'.rhs (cond.rename naming)
        Emit.put (.ifZero .ne (naming.label target))
        frame'.drop 1) :=
    .bind (alike.mirrors_rhs cond) fun _ => alike.mirrors_put_drop rfl 1
  cases cond with
  | binary op left right =>
      cases op with
      | arith op => exact ofValue
      | lt => exact alike.mirrors_compare true left right target
      | ge => exact alike.mirrors_compare false left right target
      | and => exact .fail rfl
  | _ => exact ofValue

/-! ## Instructions -/

/-- An assignment is mirrored if both frames agree on whether one instruction
can do it. -/
theorem mirrors_set (dest : Operand) (rhs : Rhs)
    (agree : frame'.increment? (dest.rename naming) (rhs.rename naming) =
      frame.increment? dest rhs) :
    Mirrors naming level (frame.set dest rhs)
      (frame'.set (dest.rename naming) (rhs.rename naming)) := by
  unfold set
  rw [agree, Rhs.ty_rename]
  cases frame.increment? dest rhs with
  | some delta => exact .bind (alike.mirrors_slotOf dest.name) fun _ => .put rfl
  | none =>
      cases rhs.ty.isVoid with
      | true => exact .fail rfl
      | false => exact .bind (alike.mirrors_rhs rhs) fun _ => alike.mirrors_store dest

/-- An instruction is assembled to the same code with its labels renamed. -/
theorem mirrors_instr (instr : Tac.Instr)
    (agree : ∀ dest ty rhs, instr = .assign (.var dest) ty rhs →
      frame'.increment? (dest.rename naming) (rhs.rename naming) = frame.increment? dest rhs) :
    Mirrors naming level (frame.instr instr) (frame'.instr (instr.rename naming)) := by
  cases instr with
  | assign dest ty rhs =>
      cases dest with
      | var op => exact alike.mirrors_set op rhs (agree op ty rhs rfl)
      | cell place =>
          exact .bind (alike.mirrors_cell place) fun _ => .bind (alike.mirrors_rhs rhs) fun _ =>
            alike.mirrors_put_drop rfl 3
  | putField object field value =>
      refine .bind (alike.mirrors_ownerOf object) fun owner =>
        .bind (alike.mirrors_load object) fun _ => .bind (alike.mirrors_element value) fun _ =>
          alike.mirrors_put_drop ?_ 2
      rw [descriptorOf, alike.imports]
      rfl
  | call invocation =>
      refine .bind (alike.mirrors_call invocation) fun _ => ?_
      have result : ∀ isVoid : Bool, Mirrors naming level
          (if isVoid then Pure.pure () else do Emit.put .pop; frame.drop 1)
          (if isVoid then Pure.pure () else do Emit.put .pop; frame'.drop 1)
        | true => .pure ()
        | false => alike.mirrors_put_drop rfl 1
      exact result invocation.ret.isVoid
  | goto target => exact .put rfl
  | label mark => exact .put rfl
  | branch cond target => exact alike.mirrors_branch cond target
  | ret ty value =>
      cases value with
      | none => exact .put rfl
      | some value =>
          exact .bind (alike.mirrors_element value) fun _ => alike.mirrors_put_drop rfl 1

/-- Whether one instruction can do an assignment does not depend on names. -/
theorem increment?_rename (same : frame'.iinc = frame.iinc) (dest : Operand) (rhs : Rhs) :
    frame'.increment? (dest.rename naming) (rhs.rename naming) = frame.increment? dest rhs := by
  have names : ∀ op : Operand,
      (op.rename naming).name = (dest.rename naming).name ↔ op.name = dest.name :=
    fun op => alike.faithful.injective.eq_iff
  unfold increment?
  rw [same, Operand.ty_rename]
  cases rhs with
  | binary op left right =>
      cases op with
      | arith op =>
          cases op <;> cases left <;> cases right <;>
            simp only [Rhs.rename, Element.rename, Option.bind_some, Option.bind_none, names]
      | _ => rfl
  | _ => rfl

/-- Code is assembled to the same code with its labels renamed, at the same heights. -/
theorem value_instrs (same : frame'.iinc = frame.iinc) :
    ∀ (body : List Tac.Instr) (height : Height),
      (frame'.instrs (body.map (Tac.Instr.rename naming)) height).value =
        naming.outcome (fun (code, after) => (code.map (Instr.relabel naming.label), after))
          (frame.instrs body height).value
  | [], _ => rfl
  | first :: rest, height => by
      have mirrors : Mirrors naming 0 _ _ := alike.mirrors_instr first
        fun dest _ rhs _ => alike.increment?_rename same dest rhs
      have mirrored := mirrors height
      rw [Height.raise_zero] at mirrored
      simp only [List.map_cons, instrs, mirrored]
      cases frame.instr first height with
      | error error => rfl
      | ok emitted =>
          simp only [Renaming.outcome, Emitted.mirror, Height.raise_zero, Noted.value_bind,
            Noted.value_pure, value_instrs same rest emitted.height]
          cases (frame.instrs rest emitted.height).value with
          | error error => rfl
          | ok others => simp [Except.map]

end Alike

end Frame

/-! ## Methods -/

/-- A renaming that keeps the parameters gives a frame with the same slots. -/
theorem alike_of_rename {naming : Renaming} (faithful : naming.Faithful) (options : Options)
    (unit : Tac.Class) {method : Tac.Method}
    (fixed : ∀ param ∈ method.params, naming.name param.name = param.name) :
    Frame.Alike naming (.of options unit method) (.of options unit (method.rename naming)) where
  className := rfl
  imports := rfl
  method := rfl
  faithful := faithful
  slots := fun name => by
    show (method.rename naming).layout.find? _ = method.layout.find? name
    rw [Tac.Method.layout_rename faithful fixed]
    exact Tac.Registers.find?_rename faithful method.layout name

/-- A method with renamed variables is assembled to the same code with renamed
labels, with the same limits, or refused for the same reason. -/
theorem assembleMethod_rename {naming : Renaming} (faithful : naming.Faithful) (options : Options)
    (unit : Tac.Class) {method : Tac.Method}
    (fixed : ∀ param ∈ method.params, naming.name param.name = param.name) :
    (assembleMethod options unit (method.rename naming)).value =
      naming.outcome (Method.relabel naming.label) (assembleMethod options unit method).value := by
  have body := (alike_of_rename faithful options unit fixed).value_instrs rfl method.body {}
  simp only [assembleMethod, Noted.value_bind, Noted.value_pure]
  rw [show (method.rename naming).body = method.body.map (Tac.Instr.rename naming) from rfl, body,
    Tac.Method.layout_rename faithful fixed, Tac.Registers.limit_rename faithful]
  cases ((Frame.of options unit method).instrs method.body {}).value with
  | error error => rfl
  | ok result => rfl

end MiniJava.Jasmin
