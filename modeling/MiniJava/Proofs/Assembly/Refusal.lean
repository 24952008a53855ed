import MiniJava.Proofs.Assembly.Emit

/-!
# Why an instruction is refused

Assembling an instruction fails for one of a few reasons: an operand without a
slot or of type void, a literal whose text is no numeral, a member of something
that is no object, an operation without a rule, or a stack with too few values
on it.  `InstrRefusal` lists them with the error that each of them gives, and
`refusal_of_instr` says that there are no others, at any height of the stack.

Heights matter for one of the reasons only.  A rule pushes what it later pops,
except for a call without result, which pushes nothing: the stack runs dry
where such a call is the value stored in a cell or the condition of a branch,
and nowhere else.

An emission *meets* its description (`Meets`) if it leaves the height that is
described when it succeeds, and fails only in the ways that are described.
-/

namespace MiniJava

open Tac (Operand Literal Element Cell Call Target Rhs Dest CallKind)

/-! ## The operands that are pushed -/

namespace Tac

def Cell.elements (cell : Cell) : List Element := [.operand cell.array, cell.index]

def Call.elements (call : Call) : List Element :=
  Jasmin.Frame.targetElements call.target ++ call.args

/-- The variables and literals of an expression. -/
def Rhs.elements : Rhs → List Element
  | .element elem => [elem]
  | .binary _ lhs rhs => [lhs, rhs]
  | .not operand => [operand]
  | .call invocation => invocation.elements
  | .new _ => []
  | .newArray size _ => [size]
  | .length array => [.operand array]
  | .getField object _ => [.operand object]
  | .index place => place.elements

def Dest.elements : Dest → List Element
  | .var op => [.operand op]
  | .cell place => place.elements

/-- The variables and literals of an instruction. -/
def Instr.elements : Instr → List Element
  | .assign dest _ rhs => dest.elements ++ rhs.elements
  | .putField object _ value => [.operand object, value]
  | .call invocation => invocation.elements
  | .goto _ => []
  | .label _ => []
  | .branch cond _ => cond.elements
  | .ret _ value => value.toList

section
variable {op : Operand}

theorem Element.mem_operands {elem : Element} : op ∈ elem.operands ↔ elem = .operand op := by
  cases elem <;> simp [operands, operand?, eq_comm]

theorem Cell.mem_operands {cell : Cell} : op ∈ cell.operands ↔ .operand op ∈ cell.elements := by
  simp [operands, elements, Element.mem_operands, eq_comm]

theorem Call.mem_operands {call : Call} : op ∈ call.operands ↔ .operand op ∈ call.elements := by
  obtain ⟨kind, target, method, args, ret⟩ := call
  cases target <;>
    simp [operands, elements, Jasmin.Frame.targetElements, Element.mem_operands]

theorem Rhs.mem_operands {rhs : Rhs} : op ∈ rhs.operands ↔ .operand op ∈ rhs.elements := by
  cases rhs with
  | call invocation => exact Call.mem_operands
  | index place => exact Cell.mem_operands
  | _ => simp [operands, elements, Element.mem_operands, eq_comm]

/-- The variables of an instruction are those among its operands. -/
theorem Instr.mem_operands {instr : Instr} :
    op ∈ instr.operands ↔ .operand op ∈ instr.elements := by
  cases instr with
  | assign dest ty rhs =>
      cases dest <;>
        simp [operands, elements, Dest.operands, Dest.elements, Rhs.mem_operands,
          Cell.mem_operands]
  | putField object field value => simp [operands, elements, Element.mem_operands, eq_comm]
  | call invocation => exact Call.mem_operands
  | goto target => simp [operands, elements]
  | label mark => simp [operands, elements]
  | branch cond target => exact Rhs.mem_operands
  | ret ty value => cases value <;> simp [operands, elements, Element.mem_operands, eq_comm]

end

/-- Whether values of the type have fields and methods. -/
def Ty.hasMembers : Ty → Bool
  | string | object _ => true
  | _ => false

/-- Whether a call is made on what its kind asks for. -/
def Call.fits (call : Call) : Bool :=
  match call.kind, call.target with
  | .static, .className _ => true
  | .virtual, .object _ => true
  | .special, .object _ => true
  | _, _ => false

/-! ## Rules -/

/-- Whether members of an object can be named. -/
def Operand.hasMembers (op : Operand) : Bool := op.isThis || op.ty.hasMembers

/-- Whether there is a rule for a call. -/
def Call.hasRule (call : Call) : Bool :=
  call.fits && match call.target with
    | .object object => object.hasMembers
    | .className _ => true

/-- Whether there is a rule for the value of an expression.  Comparisons and
conjunctions have none. -/
def Rhs.hasRule : Rhs → Bool
  | .binary op _ _ => op.isArith
  | .call invocation => invocation.hasRule
  | .newArray _ ty => ty.element? = some .int
  | .getField object _ => object.hasMembers
  | _ => true

/-- Whether an expression is a comparison or a conjunction, which only steer
branches. -/
def Rhs.steers : Rhs → Bool
  | .binary op _ _ => !op.isArith
  | _ => false

/-- Whether there is a rule for an instruction. -/
def Instr.hasRule : Instr → Bool
  | .assign (.var _) _ rhs => rhs.hasRule && !rhs.ty.isVoid
  | .assign (.cell _) _ rhs => rhs.hasRule
  | .putField object _ _ => object.hasMembers
  | .call invocation => invocation.hasRule
  | .branch (.binary op _ _) _ => op ≠ .and
  | .branch cond _ => cond.hasRule
  | .goto _ | .label _ | .ret _ _ => true

/-- Whether an instruction stores in a cell or tests what a call without result
leaves. -/
def Instr.runsDry : Instr → Bool
  | .assign (.cell _) _ (.call invocation) => invocation.ret.isVoid
  | .branch (.call invocation) _ => invocation.ret.isVoid
  | _ => false

end Tac

namespace Jasmin

/-! ## Reasons -/

/-- Why a variable or literal is not pushed, or a variable not stored to. -/
inductive ElementRefusal (frame : Frame) : Element → CompileError → Prop where
  | unknown : frame.registers.find? op.name = none →
      ElementRefusal frame (.operand op) (.unknownVariable frame.method op.name)
  | void : op.ty = .void → ElementRefusal frame (.operand op) (.unsupported (.localOf .void))
  | literal : Frame.constant lit = .error error → ElementRefusal frame (.literal lit) error

/-- Why an object has no members. -/
inductive OwnerRefusal (object : Operand) : CompileError → Prop where
  | member : object.hasMembers = false →
      OwnerRefusal object (.unsupported (.memberOf object.ty))

/-- Why a call is not made. -/
inductive CallRefusal (frame : Frame) (call : Call) : CompileError → Prop where
  | element : elem ∈ call.elements → ElementRefusal frame elem error → CallRefusal frame call error
  | owner : call.target = .object object → OwnerRefusal object error → CallRefusal frame call error
  | unfit : call.fits = false →
      CallRefusal frame call (.unsupported (.callOn call.kind call.target))

/-- Why an expression is not evaluated. -/
inductive RhsRefusal (frame : Frame) : Rhs → CompileError → Prop where
  | element : elem ∈ rhs.elements → ElementRefusal frame elem error → RhsRefusal frame rhs error
  | call : CallRefusal frame call error → RhsRefusal frame (.call call) error
  | owner : OwnerRefusal object error → RhsRefusal frame (.getField object field) error
  | valueOf : op.isArith = false →
      RhsRefusal frame (.binary op left right) (.unsupported (.valueOf op))
  | arrayOf : ty.element? ≠ some .int →
      RhsRefusal frame (.newArray size ty) (.unsupported (.arrayOf ty))

/-- Why an instruction is not assembled. -/
inductive InstrRefusal (frame : Frame) : Tac.Instr → CompileError → Prop where
  | element : elem ∈ instr.elements → ElementRefusal frame elem error →
      InstrRefusal frame instr error
  | rhs : RhsRefusal frame rhs error → InstrRefusal frame (.assign dest ty rhs) error
  | voidStore : rhs.ty.isVoid = true →
      InstrRefusal frame (.assign (.var dest) ty rhs) (.unsupported (.voidStore dest.name))
  | owner : OwnerRefusal object error → InstrRefusal frame (.putField object field value) error
  | call : CallRefusal frame call error → InstrRefusal frame (.call call) error
  | cond {cond : Rhs} : cond.steers = false → RhsRefusal frame cond error →
      InstrRefusal frame (.branch cond target) error
  | conjunction : InstrRefusal frame (.branch (.binary .and left right) target)
      (.unsupported .conjunctionBranch)
  | underflow : instr.runsDry = true → InstrRefusal frame instr (.stackUnderflow frame.method)

/-- A construct without a rule is not supported. -/
theorem OwnerRefusal.sort {object : Operand} {error : CompileError}
    (refusal : OwnerRefusal object error) :
    object.hasMembers = false ∧ ∃ construct, error = .unsupported construct := by
  cases refusal with
  | member missing => exact ⟨missing, _, rfl⟩

/-- A call is refused for one of its operands, or for its form. -/
theorem CallRefusal.sort {frame : Frame} {call : Call} {error : CompileError}
    (refusal : CallRefusal frame call error) :
    (∃ elem ∈ call.elements, ElementRefusal frame elem error) ∨
      (call.hasRule = false ∧ ∃ construct, error = .unsupported construct) := by
  cases refusal with
  | element mem refusal => exact .inl ⟨_, mem, refusal⟩
  | owner target refusal =>
      obtain ⟨missing, unsupported⟩ := refusal.sort
      refine .inr ⟨?_, unsupported⟩
      simp only [Call.hasRule, target, missing, Bool.and_false]
  | unfit unfit => exact .inr ⟨by rw [Call.hasRule, unfit, Bool.false_and], _, rfl⟩

/-- An expression is refused for one of its operands, or for its form. -/
theorem RhsRefusal.sort {frame : Frame} {rhs : Rhs} {error : CompileError}
    (refusal : RhsRefusal frame rhs error) :
    (∃ elem ∈ rhs.elements, ElementRefusal frame elem error) ∨
      (rhs.hasRule = false ∧ ∃ construct, error = .unsupported construct) := by
  cases refusal with
  | element mem refusal => exact .inl ⟨_, mem, refusal⟩
  | call refusal => exact refusal.sort
  | owner refusal => exact .inr refusal.sort
  | valueOf notArith => exact .inr ⟨notArith, _, rfl⟩
  | arrayOf other => exact .inr ⟨decide_eq_false other, _, rfl⟩

/-- Apart from the operands of an instruction and a stack that runs dry, what is
missing is a rule. -/
theorem InstrRefusal.sort {frame : Frame} {instr : Tac.Instr} {error : CompileError}
    (refusal : InstrRefusal frame instr error) :
    (∃ elem ∈ instr.elements, ElementRefusal frame elem error) ∨
      (instr.hasRule = false ∧ ∃ construct, error = .unsupported construct) ∨
      instr.runsDry = true := by
  cases refusal with
  | element mem refusal => exact .inl ⟨_, mem, refusal⟩
  | @rhs rhs error dest ty refusal =>
      rcases refusal.sort with ⟨elem, mem, refusal⟩ | ⟨missing, unsupported⟩
      · exact .inl ⟨elem, List.mem_append_right _ mem, refusal⟩
      · refine .inr (.inl ⟨?_, unsupported⟩)
        cases dest with
        | var op => rw [Tac.Instr.hasRule, missing, Bool.false_and]
        | cell place => exact missing
  | voidStore void =>
      exact .inr (.inl ⟨by rw [Tac.Instr.hasRule, void, Bool.not_true, Bool.and_false], _, rfl⟩)
  | owner refusal => exact .inr (.inl refusal.sort)
  | call refusal => exact refusal.sort.imp_right .inl
  | @cond error target cond plain refusal =>
      refine refusal.sort.imp_right fun ⟨missing, unsupported⟩ => .inl ⟨?_, unsupported⟩
      cases cond with
      | binary op left right =>
          rw [Rhs.steers, Bool.not_eq_false'] at plain
          rw [Rhs.hasRule, plain] at missing
          cases missing
      | _ => exact missing
  | conjunction => exact .inr (.inl ⟨rfl, _, rfl⟩)
  | underflow dry => exact .inr (.inr dry)

/-! ## Emissions that meet a description -/

variable {α β : Type}

/-- From a stack of height `before`, an emission leaves one of height `after` or
fails with an error that is `refused`. -/
def Meets (emit : Emit α) (before : Nat) (after : α → Nat) (refused : CompileError → Prop) : Prop :=
  ∀ height : Height, height.current = before →
    match emit height with
    | .ok out => out.height.current = after out.value
    | .error error => refused error

namespace Meets

variable {before count : Nat} {refused : CompileError → Prop}

theorem pure (value : α) : Meets (Pure.pure value) before (fun _ => before) refused :=
  fun _ here => here

theorem bind {first : Emit α} {next : α → Emit β} {between : α → Nat} {after : β → Nat}
    (h : Meets first before between refused)
    (h' : ∀ value, Meets (next value) (between value) after refused) :
    Meets (first >>= next) before after refused := by
  intro height here
  have ran := h height here
  simp only [Bind.bind]
  cases result : first height with
  | error error => rwa [result] at ran
  | ok out =>
      rw [result] at ran
      have ran' := h' out.value out.height ran
      simp only
      cases result' : next out.value out.height with
      | error error => rwa [result'] at ran'
      | ok out' => rwa [result'] at ran'

theorem fail {error : CompileError} {after : α → Nat} (h : refused error) :
    Meets (Emit.fail error) before after refused :=
  fun _ _ => h

theorem put (instr : Instr) : Meets (Emit.put instr) before (fun _ => before) refused :=
  fun _ here => here

theorem push (count : Nat) : Meets (Emit.push count) before (fun _ => before + count) refused :=
  fun _ here => congrArg (· + count) here

theorem drop {frame : Frame} (h : before < count → refused (.stackUnderflow frame.method)) :
    Meets (frame.drop count) before (fun _ => before - count) refused := by
  intro height here
  rw [Frame.drop, Emit.pop, Height.pop?, here]
  by_cases enough : count ≤ before
  · simp [enough]
  · simp only [enough, if_false]
    exact h (Nat.lt_of_not_le enough)

end Meets

namespace Frame

variable {frame : Frame} {before : Nat} {refused : CompileError → Prop}

/-! ## Operands -/

theorem meets_slotOf {name : String} (h : frame.registers.find? name = none →
      refused (.unknownVariable frame.method name)) :
    Meets (frame.slotOf name) before (fun _ => before) refused := by
  rw [slotOf]
  cases found : frame.registers.find? name with
  | none => exact .fail (h found)
  | some slot => exact .pure slot

theorem meets_kindOf {ty : Tac.Ty} (h : ty = .void → refused (.unsupported (.localOf .void))) :
    Meets (kindOf ty) before (fun _ => before) refused := by
  cases ty with
  | void => exact .fail (h rfl)
  | _ => exact .pure _

theorem meets_load {op : Operand}
    (h : ∀ error, ElementRefusal frame (.operand op) error → refused error) :
    Meets (frame.load op) before (fun _ => before + 1) refused :=
  .bind (meets_slotOf fun none => h _ (.unknown none)) fun _ =>
    .bind (meets_kindOf fun void => h _ (.void void)) fun _ => .bind (.put _) fun _ => .push 1

theorem meets_store {op : Operand}
    (h : ∀ error, ElementRefusal frame (.operand op) error → refused error) :
    Meets (frame.store op) (before + 1) (fun _ => before) refused :=
  .bind (meets_slotOf fun none => h _ (.unknown none)) fun _ =>
    .bind (meets_kindOf fun void => h _ (.void void)) fun _ => .bind (.put _) fun _ =>
      .drop fun few => by omega

theorem meets_element {elem : Element}
    (h : ∀ error, ElementRefusal frame elem error → refused error) :
    Meets (frame.element elem) before (fun _ => before + 1) refused := by
  cases elem with
  | operand op => exact meets_load h
  | literal lit =>
      rw [element, literal]
      cases made : constant lit with
      | error error => exact .fail (h _ (.literal made))
      | ok instr => exact .bind (.put _) fun _ => .push 1

/-- Each element adds one to the height, up to the first that is refused. -/
theorem meets_elements : ∀ {elems : List Element} {before : Nat},
    (∀ elem ∈ elems, ∀ error, ElementRefusal frame elem error → refused error) →
    Meets (frame.elements elems) before (fun _ => before + elems.length) refused
  | [], _, _ => .pure ()
  | elem :: rest, before, h => by
      refine .bind (meets_element (h elem List.mem_cons_self)) fun _ => ?_
      rw [List.length_cons, Nat.add_comm rest.length, ← Nat.add_assoc]
      exact meets_elements fun other mem => h other (List.mem_cons_of_mem _ mem)

theorem meets_pair {left right : Element}
    (h : ∀ elem ∈ [left, right], ∀ error, ElementRefusal frame elem error → refused error)
    {next : Emit Unit} {after : Nat} (h' : Meets next (before + 2) (fun _ => after) refused) :
    Meets (do frame.element left; frame.element right; next) before (fun _ => after) refused :=
  .bind (meets_element (h left List.mem_cons_self)) fun _ =>
    .bind (meets_element (h right (by simp))) fun _ => h'

theorem meets_cell {place : Cell}
    (h : ∀ elem ∈ place.elements, ∀ error, ElementRefusal frame elem error → refused error) :
    Meets (frame.cell place) before (fun _ => before + 2) refused :=
  .bind (meets_load (h _ List.mem_cons_self)) fun _ => meets_element (h _ (by simp [Cell.elements]))

/-- Only an object of a type without members has no owner. -/
theorem meets_ownerOf {object : Operand}
    (h : ∀ error, OwnerRefusal object error → refused error) :
    Meets (frame.ownerOf object) before (fun _ => before) refused := by
  rw [ownerOf]
  cases isThis : object.isThis with
  | true => exact .pure _
  | false =>
      cases ty : object.ty with
      | string => exact .pure _
      | object className => exact .pure _
      | _ =>
          refine .fail ?_
          rw [← ty]
          exact h _ (.member (by rw [Operand.hasMembers, isThis, ty]; rfl))

/-! ## Expressions -/

theorem meets_receiver {call : Call}
    (h : ∀ error, CallRefusal frame call error → refused error) :
    Meets (frame.receiver call) before (fun made => before + made.2) refused := by
  have loaded : ∀ object, call.target = .object object →
      Meets (do frame.load object; return (← frame.ownerOf object, 1)) before
        (fun made => before + made.2) refused := by
    intro object same
    have mem : .operand object ∈ call.elements := by simp [Call.elements, targetElements, same]
    refine .bind (meets_load fun error refusal => h _ (.element mem refusal)) fun _ => ?_
    refine .bind (meets_ownerOf fun error refusal => h _ (.owner same refusal)) fun owner => ?_
    exact fun _ here => here
  obtain ⟨kind, target, method, args, ret⟩ := call
  cases kind with
  | static =>
      cases target with
      | className name => exact fun _ here => here
      | object object => exact .fail (h _ (.unfit rfl))
  | virtual | special =>
      cases target with
      | className name => exact .fail (h _ (.unfit rfl))
      | object object => exact loaded object rfl

/-- The number of values that an expression leaves on the stack. -/
def leaves : Rhs → Nat
  | .call invocation => if invocation.ret.isVoid then 0 else 1
  | _ => 1

theorem leaves_of_not_void {rhs : Rhs} (nonVoid : rhs.ty.isVoid = false) : leaves rhs = 1 := by
  cases rhs with
  | call invocation => exact if_neg (Bool.eq_false_iff.mp nonVoid)
  | _ => rfl

/-- A call leaves its result, if it has one, in place of its operands. -/
theorem meets_call {call : Call} (h : ∀ error, CallRefusal frame call error → refused error) :
    Meets (frame.call call) before (fun _ => before + leaves (.call call)) refused := by
  have args : ∀ elem ∈ call.args, ∀ error, ElementRefusal frame elem error → refused error :=
    fun elem mem error refusal => h error (.element (List.mem_append_right _ mem) refusal)
  refine .bind (meets_receiver h) fun made => .bind (meets_elements args) fun _ =>
    .bind (.put _) fun _ => .bind (.drop fun few => by omega) fun _ => ?_
  rw [show before + made.2 + call.args.length - (call.args.length + made.2) = before by omega,
    leaves]
  cases call.ret.isVoid with
  | true => exact .pure ()
  | false => exact .push 1

theorem meets_rhs {rhs : Rhs} (h : ∀ error, RhsRefusal frame rhs error → refused error) :
    Meets (frame.rhs rhs) before (fun _ => before + leaves rhs) refused := by
  have elements : ∀ elem ∈ rhs.elements, ∀ error, ElementRefusal frame elem error →
      refused error := fun elem mem error refusal => h error (.element mem refusal)
  cases rhs with
  | element elem => exact meets_element (elements elem (by simp [Rhs.elements]))
  | binary op left right =>
      cases op with
      | arith op =>
          exact meets_pair elements (.bind (.put _) fun _ => .drop fun few => by omega)
      | _ => exact .fail (h _ (.valueOf rfl))
  | not operand =>
      exact .bind (meets_element (elements operand (by simp [Rhs.elements]))) fun _ =>
        .bind (.put _) fun _ => .bind (.push 1) fun _ => .bind (.put _) fun _ =>
          .drop fun few => by omega
  | call invocation => exact meets_call fun error refusal => h error (.call refusal)
  | new className => exact .bind (.put _) fun _ => .push 1
  | newArray size ty =>
      rw [Frame.rhs]
      split
      · exact .bind (meets_element (elements size (by simp [Rhs.elements]))) fun _ => .put _
      · exact .fail (h _ (.arrayOf ‹_›))
  | length array =>
      exact .bind (meets_load (elements _ (by simp [Rhs.elements]))) fun _ => .put _
  | getField object field =>
      exact .bind (meets_ownerOf fun error refusal => h error (.owner refusal)) fun _ =>
        .bind (meets_load (elements _ (by simp [Rhs.elements]))) fun _ => .put _
  | index place =>
      exact .bind (meets_cell elements) fun _ => .bind (.put _) fun _ =>
        .drop fun few => by omega

/-! ## Instructions -/

theorem meets_set {dest : Operand} {ty : Tac.Ty} {rhs : Rhs} :
    Meets (frame.set dest rhs) before (fun _ => before)
      (InstrRefusal frame (.assign (.var dest) ty rhs)) := by
  have stored : ∀ error, ElementRefusal frame (.operand dest) error →
      InstrRefusal frame (.assign (.var dest) ty rhs) error :=
    fun error refusal => .element (by simp [Tac.Instr.elements, Dest.elements]) refusal
  rw [set]
  split
  · exact .bind (meets_slotOf fun none => stored _ (.unknown none)) fun _ => .put _
  · split
    · exact .fail (.voidStore ‹_›)
    · rename_i nonVoid
      have computed : Meets (frame.rhs rhs) before (fun _ => before + leaves rhs)
          (InstrRefusal frame (.assign (.var dest) ty rhs)) :=
        meets_rhs fun error refusal => .rhs refusal
      rw [leaves_of_not_void (Bool.eq_false_iff.mpr nonVoid)] at computed
      exact .bind computed fun _ => meets_store stored

theorem meets_compare {isLess : Bool} {left right : Element} {target : Label}
    (h : ∀ elem ∈ [left, right], ∀ error, ElementRefusal frame elem error → refused error) :
    Meets (frame.compare isLess left right target) before (fun _ => before) refused := by
  have swapped : ∀ elem ∈ [right, left], ∀ error, ElementRefusal frame elem error →
      refused error := fun elem mem => h elem (by simpa [or_comm] using mem)
  have last : Meets (frame.drop 1) (before + 1) (fun _ => before) refused :=
    .drop fun few => by omega
  have difference : ∀ test, Meets (do
      Emit.put (.arith .sub)
      frame.drop 1
      Emit.put (.ifZero test target)
      frame.drop 1) (before + 2) (fun _ => before) refused :=
    fun test => .bind (.put _) fun _ => .bind (.drop fun few => by omega) fun _ =>
      .bind (.put _) fun _ => last
  rw [compare]
  split
  · exact meets_pair h (difference _)
  · split
    · exact meets_pair swapped (difference _)
    · exact meets_pair h (.bind (.put _) fun _ => .bind (.drop fun few => by omega) fun _ => last)

theorem meets_branch {cond : Rhs} {target : Label} :
    ∃ after, Meets (frame.branch cond target) before (fun _ => after)
      (InstrRefusal frame (.branch cond target)) := by
  have compared : ∀ op left right, cond = .binary op left right →
      ∀ elem ∈ [left, right], ∀ error, ElementRefusal frame elem error →
        InstrRefusal frame (.branch cond target) error := by
    intro op left right same elem mem error refusal
    subst same
    exact .element mem refusal
  have ofValue : cond.steers = false → Meets (do
      frame.rhs cond
      Emit.put (.ifZero .ne target)
      frame.drop 1) before (fun _ => before + leaves cond - 1)
      (InstrRefusal frame (.branch cond target)) := by
    intro plain
    refine .bind (meets_rhs fun error refusal => .cond plain refusal) fun _ =>
      .bind (.put _) fun _ => .drop fun few => ?_
    -- Only a call without result leaves nothing to test.
    cases cond with
    | call invocation =>
        cases void : invocation.ret.isVoid with
        | true => exact .underflow void
        | false => simp [leaves, void] at few
    | _ => simp [leaves] at few
  cases cond with
  | binary op left right =>
      cases op with
      | arith op => exact ⟨_, ofValue rfl⟩
      | lt => exact ⟨_, meets_compare (compared _ _ _ rfl)⟩
      | ge => exact ⟨_, meets_compare (compared _ _ _ rfl)⟩
      | and => exact ⟨before, .fail .conjunction⟩
  | _ => exact ⟨_, ofValue rfl⟩

/-- An instruction is refused for a reason that can be read off it. -/
theorem meets_instr (frame : Frame) (before : Nat) (instr : Tac.Instr) :
    ∃ after, Meets (frame.instr instr) before (fun _ => after) (InstrRefusal frame instr) := by
  have elements : ∀ elem ∈ instr.elements, ∀ error, ElementRefusal frame elem error →
      InstrRefusal frame instr error := fun elem mem error refusal => .element mem refusal
  cases instr with
  | assign dest ty rhs =>
      cases dest with
      | var op => exact ⟨before, meets_set⟩
      | cell place =>
          refine ⟨_, .bind (meets_cell fun elem mem => elements elem (List.mem_append_left _ mem))
            fun _ => .bind (meets_rhs fun error refusal => .rhs refusal) fun _ =>
              .bind (.put _) fun _ => .drop fun few => ?_⟩
          cases rhs with
          | call invocation =>
              cases void : invocation.ret.isVoid with
              | true => exact .underflow void
              | false => simp [leaves, void] at few; omega
          | _ => simp [leaves] at few; omega
  | putField object field value =>
      refine ⟨_, .bind (meets_ownerOf fun error refusal => .owner refusal) fun _ =>
        .bind (meets_load (elements _ (by simp [Tac.Instr.elements]))) fun _ =>
          .bind (meets_element (elements _ (by simp [Tac.Instr.elements]))) fun _ =>
            .bind (.put _) fun _ => .drop fun few => ?_⟩
      omega
  | call invocation =>
      refine ⟨before, .bind (meets_call fun error refusal => .call refusal) fun _ => ?_⟩
      cases void : invocation.ret.isVoid with
      | true => simpa [leaves, void] using Meets.pure ()
      | false =>
          simp only [leaves, void]
          exact .bind (.put _) fun _ => .drop fun few => by simp at few
  | goto target => exact ⟨before, .put _⟩
  | label mark => exact ⟨before, .put _⟩
  | branch cond target => exact meets_branch
  | ret ty value =>
      cases value with
      | none => exact ⟨before, .put _⟩
      | some value =>
          exact ⟨_, .bind (meets_element (elements _ (by simp [Tac.Instr.elements]))) fun _ =>
            .bind (.put _) fun _ => .drop fun few => by omega⟩

/-- An instruction that is not assembled is refused for one of the reasons. -/
theorem refusal_of_instr {instr : Tac.Instr} {height : Height} {error : CompileError}
    (failed : frame.instr instr height = .error error) : InstrRefusal frame instr error := by
  obtain ⟨after, meets⟩ := meets_instr frame height.current instr
  have refused := meets height rfl
  rwa [failed] at refused

/-- Code is refused for one of its instructions. -/
theorem exists_of_instrs_error {error : CompileError} :
    ∀ {body : List Tac.Instr} {height : Height},
      (frame.instrs body height).value = .error error →
      ∃ instr ∈ body, InstrRefusal frame instr error
  | [], _, failed => by cases failed
  | first :: rest, height, failed => by
      rw [instrs] at failed
      cases made : frame.instr first height with
      | error other =>
          rw [made] at failed
          cases failed
          exact ⟨first, List.mem_cons_self, refusal_of_instr made⟩
      | ok emitted =>
          rw [made] at failed
          simp only [Noted.value_bind, Noted.value_pure] at failed
          cases others : (frame.instrs rest emitted.height).value with
          | ok result => rw [others] at failed; cases failed
          | error other =>
              rw [others] at failed
              cases failed
              obtain ⟨instr, mem, refusal⟩ := exists_of_instrs_error others
              exact ⟨instr, List.mem_cons_of_mem _ mem, refusal⟩

end Frame

/-! ## Methods and classes -/

/-- A method that is not assembled has an instruction that is refused. -/
theorem exists_of_assembleMethod_error {options : Options} {unit : Tac.Class} {method : Tac.Method}
    {error : CompileError} (failed : (assembleMethod options unit method).value = .error error) :
    ∃ instr ∈ method.body, InstrRefusal (Frame.of options unit method) instr error := by
  simp only [assembleMethod, Noted.value_bind, Noted.value_pure] at failed
  cases body : ((Frame.of options unit method).instrs method.body {}).value with
  | ok result => rw [body] at failed; cases failed
  | error other =>
      rw [body] at failed
      cases failed
      exact Frame.exists_of_instrs_error body

theorem exists_of_assembleMethods_error {options : Options} {unit : Tac.Class}
    {error : CompileError} : ∀ {methods : List Tac.Method},
      (assembleMethods options unit methods).value = .error error →
      ∃ method ∈ methods, ∃ instr ∈ method.body,
        InstrRefusal (Frame.of options unit method) instr error
  | [], failed => by cases failed
  | method :: rest, failed => by
      simp only [assembleMethods, Noted.value_bind] at failed
      cases made : (assembleMethod options unit method).value with
      | error other =>
          rw [made] at failed
          cases failed
          exact ⟨method, List.mem_cons_self, exists_of_assembleMethod_error made⟩
      | ok assembled =>
          rw [made] at failed
          simp only [Noted.value_bind, Noted.value_pure] at failed
          cases others : (assembleMethods options unit rest).value with
          | ok result => rw [others] at failed; cases failed
          | error other =>
              rw [others] at failed
              cases failed
              obtain ⟨method, mem, refused⟩ := exists_of_assembleMethods_error others
              exact ⟨method, List.mem_cons_of_mem _ mem, refused⟩

/-- A class that is not assembled has an instruction that is refused. -/
theorem exists_of_assembleClass_error {options : Options} {unit : Tac.Class} {error : CompileError}
    (failed : (assembleClass options unit).value = .error error) :
    ∃ method ∈ unit.methods, ∃ instr ∈ method.body,
      InstrRefusal (Frame.of options unit method) instr error := by
  simp only [assembleClass, Noted.value_bind, Noted.value_pure] at failed
  cases methods : (assembleMethods options unit unit.methods).value with
  | ok result => rw [methods] at failed; cases failed
  | error other =>
      rw [methods] at failed
      cases failed
      exact exists_of_assembleMethods_error methods

end Jasmin

end MiniJava
