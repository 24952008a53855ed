import MiniJava.Proofs.Assembly.Refusal
import MiniJava.Proofs.Linking
import MiniJava.Proofs.Lowering.Inventory
import MiniJava.Proofs.Numeral
import MiniJava.Proofs.Registers

/-!
# Lowered code does not contradict itself

Whatever a program and its symbol table look like, the code that it is lowered
to is consistent: its variables have slots, its literals are numerals, and no
value is taken from an empty stack.  If it is not assembled all the same, then a
rule is missing for one of its constructs, or a static method uses a receiver
that it does not have.

The first two follow from what the operands of lowered code are (`Stems`), the
third from the places where calls stand: a call without result is a statement
or is stored in a variable, which is refused before anything is pushed.
-/

namespace MiniJava

open Source (Expr Stmt Scope SymbolTable MethodDecl MethodEntry Program)
open Tac Semantics Lowering Jasmin

/-! ## The operands of lowered code -/

section
variable {scope : Scope} {expr : Expr} {instr : Tac.Instr}

theorem stems_of_computes {rhs : Rhs} (h : Computes scope expr rhs) :
    ∀ elem ∈ rhs.elements, Stems scope (parts scope expr) elem := by
  intro elem mem
  cases h with
  | element denotes =>
      rw [List.mem_singleton.mp mem]
      exact denotes.stems
  | arith left right =>
      rcases List.mem_pair.mp mem with rfl | rfl
      · exact left.stems.mono fun _ inside => by simp [parts, inside]
      · exact right.stems.mono fun _ inside => by simp [parts, inside]
  | not denotes =>
      rw [List.mem_singleton.mp mem]
      exact denotes.stems.mono (List.subset_cons_self ..)
  | newArray denotes =>
      rw [List.mem_singleton.mp mem]
      exact denotes.stems.mono (List.subset_cons_self ..)
  | index base position =>
      rcases List.mem_pair.mp mem with rfl | rfl
      · exact base.stems.mono fun _ inside => by simp [parts, inside]
      · exact position.stems.mono fun _ inside => by simp [parts, inside]

theorem stems_of_issued {site : CallSite} {otherRet : Ty} {call : Call}
    (h : Issued scope site otherRet call) :
    ∀ elem ∈ call.elements, Stems scope (callParts scope site.receiver site.args) elem := by
  intro elem mem
  rcases List.mem_append.mp mem with mem | mem
  · have aims := h.aims
    generalize call.kind = kind at aims
    generalize call.target = target at aims mem
    cases aims with
    | value onValue denotes =>
        rw [List.mem_singleton.mp mem]
        exact denotes.stems.mono fun _ inside => by simp [callParts, onValue, inside]
    | onClass _ => cases mem
    | assumed _ => cases mem
  · cases h.passes elem mem with
    | direct inside denotes =>
        exact denotes.stems.mono fun _ inside' =>
          List.mem_append_right _ (mem_partsOfAll_of_mem inside inside')
    | packed _ reserved => exact .array reserved

theorem stems_of_packing {elemTy : Ty} {items : List Expr}
    (h : Packing scope elemTy items instr) :
    ∀ elem ∈ instr.elements, Stems scope (partsOfAll scope items) elem := by
  intro elem mem
  cases h with
  | allocate reserved =>
      rcases List.mem_pair.mp mem with rfl | rfl
      · exact .array reserved
      · exact .literal (.inl ⟨_, rfl⟩)
  | hold reserved reserved' =>
      rcases List.mem_pair.mp mem with rfl | rfl
      · exact .array reserved'
      · exact .array reserved
  | item reserved inside denotes =>
      rcases List.mem_cons.mp mem with rfl | mem
      · exact .array reserved
      rcases List.mem_pair.mp mem with rfl | rfl
      · exact .literal (.inl ⟨_, rfl⟩)
      · exact denotes.stems.mono fun _ inside' => mem_partsOfAll_of_mem inside inside'

/-- What is stored in a variable that lowering invents. -/
theorem stems_of_set {temp : String} {ty : Ty} {rhs : Rhs} {exprs : List Expr}
    (reserved : Names.Reserved temp)
    (void : ty = .void → ∃ part ∈ exprs, typeOf scope part = .void)
    (h : ∀ elem ∈ rhs.elements, Stems scope exprs elem) :
    ∀ elem ∈ (Instr.set ⟨temp, ty⟩ rhs).elements, Stems scope exprs elem := by
  intro elem mem
  rcases List.mem_cons.mp mem with rfl | mem
  · exact .reserved reserved void
  · exact h elem mem

theorem stems_of_written (h : Written scope expr instr) :
    ∀ elem ∈ instr.elements, Stems scope (parts scope expr) elem := by
  have own : ∀ {ty : Ty}, ty = typeOf scope expr →
      ty = .void → ∃ part ∈ parts scope expr, typeOf scope part = .void :=
    fun same void => ⟨expr, mem_parts_self _ _, same ▸ void⟩
  cases h with
  | settled computes reserved =>
      exact stems_of_set reserved (own computes.ty) (stems_of_computes computes)
  | fetched isField reserved =>
      refine stems_of_set reserved (own rfl) fun elem mem => ?_
      rw [List.mem_singleton.mp mem]
      exact .receiver (mem_parts_self _ _) (by rw [usesThis, isField, Bool.or_true])
  | conjunct left =>
      intro elem mem
      rw [List.mem_singleton.mp mem]
      exact left.stems.mono fun _ inside => by simp [parts, inside]
  | compared left right =>
      intro elem mem
      rcases List.mem_pair.mp mem with rfl | rfl
      · exact left.stems.mono fun _ inside => by simp [parts, inside]
      · exact right.stems.mono fun _ inside => by simp [parts, inside]
  | outcome reserved =>
      refine stems_of_set reserved (by simp) fun elem mem => ?_
      rw [List.mem_singleton.mp mem]
      exact .literal (.inr ⟨_, rfl⟩)
  | conjoined right reserved =>
      refine stems_of_set reserved (by simp) fun elem mem => ?_
      rw [List.mem_singleton.mp mem]
      exact right.stems.mono fun _ inside => by simp [parts, inside]
  | goto => exact List.forall_mem_nil _
  | label => exact List.forall_mem_nil _
  | allocated reserved => exact stems_of_set reserved (by simp) (List.forall_mem_nil _)
  | constructed reserved =>
      intro elem mem
      rw [List.mem_singleton.mp mem]
      exact .reserved reserved (by simp)
  | measured base reserved =>
      refine stems_of_set reserved (by simp) fun elem mem => ?_
      rw [List.mem_singleton.mp mem]
      exact base.stems.mono (List.subset_cons_self ..)
  | items packing =>
      exact fun elem mem => (stems_of_packing packing elem mem).mono (List.subset_cons_self ..)
  | args _ packing =>
      intro elem mem
      refine (stems_of_packing packing elem mem).mono (List.Subset.trans (partsOfAll_drop ..) ?_)
      exact List.subset_cons_of_subset _ (List.subset_append_right ..)
  | called issued reserved =>
      refine stems_of_set reserved (own issued.ret) fun elem mem =>
        (stems_of_issued issued elem mem).mono ?_
      exact List.subset_cons_self ..

/-- The operands of lowered code are constants, variables and, where the source
uses it, the receiver. -/
theorem stems_of_writtenBy {stmt : Stmt} (h : WrittenBy scope stmt instr) :
    ∀ elem ∈ instr.elements, Stems scope (valuesOf scope stmt) elem := by
  cases h with
  | part inside written =>
      intro elem mem
      exact (stems_of_written written elem mem).mono (parts_subset_valuesOf inside)
  | assignVar denotes computes =>
      intro elem mem
      rcases List.mem_cons.mp mem with rfl | mem
      · exact denotes.stems.mono (parts_subset_partsOf (by simp [evaluated]))
      · exact (stems_of_computes computes elem mem).mono
          (parts_subset_partsOf (by simp [evaluated]))
  | assignCell base index computes =>
      intro elem mem
      rcases List.mem_append.mp mem with mem | mem
      · rcases List.mem_pair.mp mem with rfl | rfl
        · exact base.stems.mono fun _ inside => by
            simp [valuesOf, partsOf, evaluated, partsOfAll, parts, inside]
        · exact index.stems.mono fun _ inside => by
            simp [valuesOf, partsOf, evaluated, partsOfAll, parts, inside]
      · exact (stems_of_computes computes elem mem).mono
          (parts_subset_partsOf (by simp [evaluated]))
  | settled isField computes reserved =>
      refine stems_of_set reserved
        (fun void => ⟨_, List.mem_append_left _ (mem_parts_self _ _), void⟩) fun elem mem => ?_
      exact (stems_of_computes computes elem mem).mono (parts_subset_partsOf (by simp [evaluated]))
  | putField isField value =>
      intro elem mem
      rcases List.mem_pair.mp mem with rfl | rfl
      · refine .receiver (List.mem_append_left _ (mem_parts_self scope (.var _ _))) ?_
        rw [usesThis, isField, Bool.or_true]
      · rcases value with denotes | ⟨temp, reserved, rfl⟩
        · exact denotes.stems.mono (parts_subset_partsOf (by simp [evaluated]))
        · exact .reserved reserved
            fun void => ⟨_, List.mem_append_left _ (mem_parts_self _ _), void⟩
  | args _ packing =>
      intro elem mem
      exact (stems_of_packing packing elem mem).mono
        (List.Subset.trans (partsOfAll_drop ..) (List.subset_append_right ..))
  | called issued => exact stems_of_issued issued
  | test tests denotes =>
      intro elem mem
      rw [List.mem_singleton.mp mem]
      refine denotes.stems.mono ?_
      rw [valuesOf_of_condOf? tests]
      exact parts_subset_partsOf (mem_evaluated_of_condOf? tests)
  | goto => exact List.forall_mem_nil _
  | label => exact List.forall_mem_nil _
  | retNone => exact List.forall_mem_nil _
  | retSome nonVoid denotes =>
      intro elem mem
      rw [List.mem_singleton.mp mem]
      exact denotes.stems.mono (parts_subset_partsOf (by simp [evaluated, nonVoid]))

/-! ## The stack of lowered code -/

/-- A computed value is no call. -/
theorem Computes.runsDry {rhs : Rhs} (h : Computes scope expr rhs) (dest : Dest) (ty : Ty) :
    (Instr.assign dest ty rhs).runsDry = false := by
  cases h <;> cases dest <;> rfl

theorem runsDry_of_packing {elemTy : Ty} {items : List Expr}
    (h : Packing scope elemTy items instr) : instr.runsDry = false := by
  cases h <;> rfl

theorem runsDry_of_writtenBy {stmt : Stmt} (h : WrittenBy scope stmt instr) :
    instr.runsDry = false := by
  cases h with
  | part _ written =>
      cases written with
      | settled computes _ => exact computes.runsDry _ _
      | items packing => exact runsDry_of_packing packing
      | args _ packing => exact runsDry_of_packing packing
      | _ => rfl
  | assignVar _ computes => exact computes.runsDry _ _
  | assignCell _ _ computes => exact computes.runsDry _ _
  | settled _ computes _ => exact computes.runsDry _ _
  | args _ packing => exact runsDry_of_packing packing
  | _ => rfl

end

/-! ## The slots of lowered code -/

/-- The text of a constant is a numeral. -/
theorem constant_of_isConstant {lit : Literal} (h : lit.IsConstant) :
    ∃ instr, Frame.constant lit = .ok instr := by
  rcases h with ⟨value, rfl⟩ | ⟨value, rfl⟩
  · exact ⟨.ofInt value, by simp [Frame.constant, Literal.int, Literal.toInt?, Numeral.read?_write]⟩
  · cases value with
    | false => exact ⟨_, rfl⟩
    | true => exact ⟨_, rfl⟩

section
variable {symbols : SymbolTable} {decl : MethodDecl} {entry : MethodEntry} {names after : Names}
  {code : List Tac.Instr} {method : Tac.Method} {instr : Tac.Instr} {op : Operand}

theorem Lowering.LoweredMethod.layout
    (lowered : LoweredMethod symbols decl entry names code after method) :
    method.layout = .sequential method.isStatic method.params method.body := by
  rw [Method.layout, lowered.registers]
  split
  · rfl
  · rfl

/-- Every variable of a lowered method has a slot, except the receiver of a
static one. -/
theorem Lowering.LoweredMethod.slot_of_operand
    (lowered : LoweredMethod symbols decl entry names code after method)
    (mem : instr ∈ method.body) (used : op ∈ instr.operands)
    (missing : method.layout.find? op.name = none) : op.name = thisName ∧ decl.isStatic = true := by
  rw [lowered.layout] at missing
  have isThis : op.isThis = true := by
    by_contra other
    have mentioned : op.name ∈ Registers.mentioned method.body :=
      List.mem_map_of_mem (List.mem_filter.mpr
        ⟨List.mem_flatMap.mpr ⟨instr, mem, used⟩, by simpa using other⟩)
    have found := Registers.isSome_find?_sequential method.isStatic method.params mentioned
    rw [missing] at found
    cases found
  have name : op.name = thisName := of_decide_eq_true isThis
  refine ⟨name, ?_⟩
  rw [← lowered.isStatic]
  by_contra instance'
  have receiver : thisName ∈ Registers.receiverNames method.isStatic := by
    simp [Registers.receiverNames, instance']
  have found := (Registers.mem_names_sequential method.isStatic method.params method.body).mpr
    (.inl receiver)
  exact Table.find?_eq_none_iff.mp missing (name ▸ found)

theorem Lowering.LoweredMethod.isConstant_of_literal
    (lowered : LoweredMethod symbols decl entry names code after method) {lit : Literal}
    (mem : instr ∈ method.body) (used : .literal lit ∈ instr.elements) : lit.IsConstant := by
  rcases lowered.written mem with ⟨stmt, _, written⟩ | ⟨_, rfl⟩
  · cases stems_of_writtenBy written _ used with
    | literal constant => exact constant
  · cases used

theorem Lowering.LoweredMethod.runsDry
    (lowered : LoweredMethod symbols decl entry names code after method)
    (mem : instr ∈ method.body) : instr.runsDry = false := by
  rcases lowered.written mem with ⟨stmt, _, written⟩ | ⟨_, rfl⟩
  · exact runsDry_of_writtenBy written
  · rfl

end

/-- The methods of a lowered class are those that the program declares. -/
theorem exists_of_mem_methods {symbols : SymbolTable} {program : Program} {names : Names}
    {unit : Tac.Class} {method : Tac.Method}
    (accepted : ((lowerProgram symbols program).run names).value = .ok unit)
    (mem : method ∈ unit.methods) :
    ∃ decl ∈ program.decl.methods, ∃ entry names code after,
      LoweredMethod symbols decl entry names code after method := by
  obtain ⟨methods, _, _, _, gives, finished, _⟩ := Gives.bind ⟨accepted, rfl, rfl⟩
  obtain rfl := Except.ok.inj finished.value_eq
  exact exists_of_forall₂ (forall₂_of_lowerMethods gives).flip mem

/-! ## Refusals of lowered code -/

/-- A class that a program was lowered to is assembled, or a rule is missing for
a construct, or a static method uses a receiver. -/
theorem error_of_assembleClass {options : Options} {symbols : SymbolTable} {program : Program}
    {names : Names} {unit : Tac.Class} {error : CompileError}
    (accepted : ((lowerProgram symbols program).run names).value = .ok unit)
    (failed : (assembleClass options unit).value = .error error) :
    (∃ construct, error = .unsupported construct) ∨
      ∃ decl ∈ program.decl.methods, decl.isStatic = true ∧
        error = .unknownVariable decl.name thisName := by
  obtain ⟨method, made, instr, mem, refusal⟩ := exists_of_assembleClass_error failed
  obtain ⟨decl, declared, entry, _, _, _, lowered⟩ := exists_of_mem_methods accepted made
  rcases refusal.sort with ⟨elem, used, refusal⟩ | unsupported | dry
  · cases refusal with
    | unknown missing =>
        obtain ⟨same, isStatic⟩ :=
          lowered.slot_of_operand mem (Instr.mem_operands.mpr used) missing
        refine .inr ⟨decl, declared, isStatic, ?_⟩
        rw [same, ← lowered.name]
        rfl
    | void _ => exact .inl ⟨_, rfl⟩
    | literal refused =>
        obtain ⟨_, ok⟩ := constant_of_isConstant (lowered.isConstant_of_literal mem used)
        rw [ok] at refused
        cases refused
  · exact .inl unsupported.2
  · rw [lowered.runsDry mem] at dry
    cases dry

/-- In a class with a field `x`: `static int peek()` returns `x`. -/
def peekDecl : MethodDecl where
  name := "peek"
  isPublic := true
  isStatic := true
  params := []
  ret := .int
  locals := []
  body := [.ret (some (.var "x" .int))]

def peekProgram : Program := ⟨[], ⟨"Foo", none, [⟨"x", .int⟩], [peekDecl]⟩⟩

theorem error_of_assembleClass_peek :
    ∃ unit error, ((lowerProgram (.collect peekProgram) peekProgram).run .fresh).value = .ok unit ∧
      (assembleClass {} unit).value = .error error ∧
      error = .unknownVariable "peek" "this" ∧
      ((∃ construct, error = .unsupported construct) ∨
        ∃ decl ∈ peekProgram.decl.methods, decl.isStatic = true ∧
          error = .unknownVariable decl.name thisName) := by
  have ok : ((lowerProgram (.collect peekProgram) peekProgram).run .fresh).value.isOk = true := by
    decide +kernel
  have refused : (do
      let unit ← ((lowerProgram (.collect peekProgram) peekProgram).run .fresh).value
      (assembleClass {} unit).value) = .error (.unknownVariable "peek" "this") := by
    decide +kernel
  obtain ⟨unit, accepted⟩ := exists_of_isOk ok
  rw [accepted] at refused
  exact ⟨unit, _, accepted, refused, rfl, error_of_assembleClass accepted refused⟩

end MiniJava
