import MiniJava.Proofs.Lowering.Parts

/-!
# The instructions that lowering writes

Every instruction of lowered code is there on account of one expression or one
statement of the source.  This module says once which instructions those are:
`Written` for the parts of expressions, `WrittenBy` for statements.  Properties
of single instructions (their types, that they can be assembled) are then read
off a list of cases and need no induction over the syntax of their own
(`LoweredMethod.written`).
-/

namespace MiniJava

open Source (Expr Stmt Scope SymbolTable MethodDecl MethodEntry)
open Tac Semantics Lowering

/-! ## The instructions of expressions -/

/-- Instructions that put items into a new array. -/
inductive Packing (scope : Scope) (elemTy : Ty) (items : List Expr) : Instr → Prop where
  | allocate : Names.Reserved temp →
      Packing scope elemTy items
        (.set ⟨temp, .array elemTy⟩ (.newArray (.int count) (.array elemTy)))
  | hold : Names.Reserved temp → Names.Reserved array →
      Packing scope elemTy items
        (.set ⟨array, .array elemTy⟩ (.element (.var temp (.array elemTy))))
  | item : Names.Reserved array → item ∈ items → Denotes scope item value →
      Packing scope elemTy items
        (.assign (.cell ⟨⟨array, .array elemTy⟩, .int position, elemTy⟩) elemTy (.element value))

/-- Instructions that are written on account of an expression, those of its parts
apart. -/
inductive Written (scope : Scope) : Expr → Instr → Prop where
  /-- The value goes into a temporary. -/
  | settled : Computes scope expr rhs → Names.Reserved temp →
      Written scope expr (.set ⟨temp, rhs.ty⟩ rhs)
  | fetched : scope.isField name = true → Names.Reserved temp →
      Written scope (.var name ty)
        (.set ⟨temp, .ofSource ty⟩ (.getField (receiverOf scope) ⟨name, .ofSource ty⟩))
  | conjunct : Denotes scope lhs left →
      Written scope (.binary .and lhs rhs ty) (.branch (.element left) mark)
  | compared : Denotes scope lhs left → Denotes scope rhs right →
      Written scope (.binary .lt lhs rhs ty) (.branch (.binary .lt left right) mark)
  /-- A truth value that is known from where control is. -/
  | outcome : Names.Reserved temp →
      Written scope expr (.set ⟨temp, .bool⟩ (.element (.bool value)))
  | conjoined : Denotes scope rhs right → Names.Reserved temp →
      Written scope (.binary .and lhs rhs ty) (.set ⟨temp, .bool⟩ (.element right))
  | goto : Written scope expr (.goto mark)
  | label : Written scope expr (.label mark)
  | allocated : Names.Reserved temp →
      Written scope (.newObject className ty) (.set ⟨temp, .object className⟩ (.new className))
  | constructed : Names.Reserved temp →
      Written scope (.newObject className ty)
        (.call ⟨.special, .object ⟨temp, .object className⟩, "<init>", [], .void⟩)
  | measured : Denotes scope array (.operand base) → Names.Reserved temp →
      Written scope (.length array ty) (.set ⟨temp, .int⟩ (.length base))
  | items : Packing scope (.ofSource ty.element) items instr →
      Written scope (.arrayInit items ty) instr
  | args : CallSite.collected? scope ⟨receiver, method, args⟩ = some (fixed, elemTy) →
      Packing scope (.ofSource elemTy) (args.drop fixed) instr →
      Written scope (.call receiver method args ty) instr
  | called : Issued scope ⟨receiver, method, args⟩ (.ofSource ty) call → Names.Reserved temp →
      Written scope (.call receiver method args ty) (.set ⟨temp, call.ret⟩ (.call call))

/-! ## The instructions of statements -/

/-- The condition that a statement tests. -/
def condOf? : Stmt → Option Expr
  | .ifElse cond _ _ => some cond
  | .whileLoop cond _ => some cond
  | _ => none

/-- A condition is evaluated by the statement that tests it. -/
theorem mem_evaluated_of_condOf? {scope : Scope} {stmt : Stmt} {cond : Expr}
    (tests : condOf? stmt = some cond) : cond ∈ evaluated scope stmt := by
  cases stmt with
  | ifElse test thenBranch elseBranch =>
      cases tests
      exact List.mem_singleton_self _
  | whileLoop test body =>
      cases tests
      exact List.mem_singleton_self _
  | _ => cases tests

/-- All parts of a statement with a condition are evaluated for their values. -/
theorem valuesOf_of_condOf? {scope : Scope} {stmt : Stmt} {cond : Expr}
    (tests : condOf? stmt = some cond) : valuesOf scope stmt = partsOf scope stmt := by
  cases stmt with
  | expr value => cases tests
  | _ => rfl

/-- Instructions that are written on account of a statement, those of the
statements inside it apart. -/
inductive WrittenBy (scope : Scope) : Stmt → Instr → Prop where
  | part : part ∈ valuesOf scope stmt → Written scope part instr → WrittenBy scope stmt instr
  | assignVar {left : Expr} : Denotes scope left (.operand op) → Computes scope value rhs →
      WrittenBy scope (.assign left value) (.assign (.var op) (.ofSource left.ty) rhs)
  | assignCell : Denotes scope array (.operand base) → Denotes scope position index →
      Computes scope value rhs →
      WrittenBy scope (.assign (.index array position ty) value)
        (.assign (.cell (.of base index)) (.ofSource ty) rhs)
  /-- The value of a field goes into a temporary of the type of the field. -/
  | settled : scope.isField name = true → Computes scope value rhs → Names.Reserved temp →
      WrittenBy scope (.assign (.var name ty) value) (.set ⟨temp, .ofSource ty⟩ rhs)
  | putField : scope.isField name = true →
      Denotes scope value elem ∨
        (∃ temp, Names.Reserved temp ∧ elem = .var temp (.ofSource ty)) →
      WrittenBy scope (.assign (.var name ty) value)
        (.putField (receiverOf scope) ⟨name, .ofSource ty⟩ elem)
  | args : CallSite.collected? scope ⟨receiver, method, args⟩ = some (fixed, elemTy) →
      Packing scope (.ofSource elemTy) (args.drop fixed) instr →
      WrittenBy scope (.expr (.call receiver method args ty)) instr
  | called : Issued scope ⟨receiver, method, args⟩ .void call →
      WrittenBy scope (.expr (.call receiver method args ty)) (.call call)
  | test {cond : Expr} : condOf? stmt = some cond → Denotes scope cond elem →
      WrittenBy scope stmt (.branch (.element elem) mark)
  | goto : WrittenBy scope stmt (.goto mark)
  | label : WrittenBy scope stmt (.label mark)
  | retNone : WrittenBy scope (.ret value) (.ret (resultTy scope) none)
  | retSome : (resultTy scope).isVoid = false → Denotes scope value elem →
      WrittenBy scope (.ret (some value)) (.ret (resultTy scope) (some elem))

/-! ## Code of which every instruction has a property -/

namespace Lowering

variable {α β : Type} {P : Instr → Prop}

/-- Every instruction that a generator writes has the property. -/
def Writes (P : Instr → Prop) (gen : Gen α) : Prop := ∀ names, ∀ instr ∈ (gen names).code, P instr

namespace Writes

/-- A generator without code has every property. -/
theorem silent {gen : Gen α} (h : ∀ names, (gen names).code = []) : Writes P gen := by
  intro names instr mem
  rw [h names] at mem
  cases mem

/-- The rule for what comes next may use how the first value came about. -/
theorem bind {first : Gen α} {next : α → Gen β} (h : Writes P first)
    (h' : ∀ names, Writes P (next (first names).value)) : Writes P (first >>= next) := by
  intro names instr mem
  rw [Gen.code_bind, List.mem_append] at mem
  rcases mem with mem | mem
  · exact h names instr mem
  · exact h' names _ instr mem

theorem pure (value : α) : Writes P (Pure.pure value : Gen α) := silent fun _ => rfl

theorem map {gen : Gen α} (f : α → β) (h : Writes P gen) : Writes P (f <$> gen) := by
  intro names instr mem
  rw [Gen.map_apply] at mem
  exact h names instr mem

theorem emit {instr : Instr} (h : P instr) : Writes P (Gen.emit instr) := by
  intro names other mem
  rw [List.mem_singleton.mp mem]
  exact h

theorem store {rhs : Rhs} {ty : Ty} (h : ∀ temp, Names.Reserved temp → P (.set ⟨temp, ty⟩ rhs)) :
    Writes P (Gen.store rhs ty) :=
  bind (silent fun _ => rfl) fun names => bind (emit (h _ names.reserved_nextTemp)) fun _ => pure _

/-- Only a right-hand side that is no variable or literal is stored. -/
theorem settleAs {rhs : Rhs} {ty : Ty}
    (h : ∀ temp, Names.Reserved temp → P (.set ⟨temp, ty⟩ rhs)) :
    Writes P (Gen.settleAs ty rhs) := by
  cases rhs with
  | element elem => exact pure elem
  | _ => exact store h

theorem toVariable {elem : Element}
    (h : ∀ temp, Names.Reserved temp → P (.set ⟨temp, elem.ty⟩ (.element elem))) :
    Writes P (Gen.toVariable elem) := by
  cases elem with
  | operand op => exact pure op
  | literal lit =>
      exact bind (silent fun _ => rfl) fun names =>
        bind (emit (h _ names.reserved_nextTemp)) fun _ => pure _

theorem inOrder : ∀ {gens : List (Gen α)}, (∀ gen ∈ gens, Writes P gen) →
    Writes P (Gen.inOrder gens)
  | [], _ => pure []
  | _ :: _, h =>
      bind (h _ List.mem_cons_self) fun _ =>
        bind (inOrder fun gen mem => h gen (List.mem_cons_of_mem _ mem)) fun _ => pure _

/-- The value of the branch that is taken may be any that it yields. -/
theorem chosen {cond : Rhs} {onTrue : Gen Element} (branch : ∀ mark, P (.branch cond mark))
    (goto : ∀ mark, P (.goto mark)) (label : ∀ mark, P (.label mark))
    (onFalse : ∀ temp, Names.Reserved temp → P (.set ⟨temp, .bool⟩ (.element (.bool false))))
    (h : Writes P onTrue) (value : ∀ temp names, Names.Reserved temp →
      P (.set ⟨temp, .bool⟩ (.element (onTrue names).value))) : Writes P (chosen cond onTrue) :=
  bind (silent fun _ => rfl) fun _ => bind (emit (branch _)) fun _ =>
    bind (silent fun _ => rfl) fun names => bind (emit (onFalse _ names.reserved_nextTemp)) fun _ =>
      bind (silent fun _ => rfl) fun _ => bind (emit (goto _)) fun _ =>
        bind (emit (label _)) fun _ => bind h fun names' =>
          bind (emit (value _ names' names.reserved_nextTemp)) fun _ =>
            bind (emit (label _)) fun _ => pure _

end Writes

/-! ## Lowered expressions -/

/-- The property holds of all that is written on account of some expressions. -/
def Covers (scope : Scope) (P : Instr → Prop) (exprs : List Expr) : Prop :=
  ∀ part ∈ exprs, ∀ instr, Written scope part instr → P instr

theorem Covers.mono {scope : Scope} {exprs fewer : List Expr} (h : Covers scope P exprs)
    (subset : fewer ⊆ exprs) : Covers scope P fewer :=
  fun part mem => h part (subset mem)

section
variable {scope : Scope} {expr : Expr}

/-- Each store takes what stands for the item before it. -/
theorem writes_fill (array : Operand) : ∀ {items : List Expr} (position : Nat),
    (∀ gen ∈ operandsOf scope items, Writes P gen) →
    (∀ item ∈ items, ∀ value index, Denotes scope item value →
      P (.assign (.cell (.of array (.int index))) (Cell.of array (.int index)).elemTy
        (.element value))) →
    Writes P (fill array position (operandsOf scope items))
  | [], _, _, _ => .pure ()
  | item :: _, position, h, stored =>
      .bind (h _ List.mem_cons_self) fun names =>
        .bind (.emit (stored item List.mem_cons_self _ _ (denotes_operand scope item names)))
          fun _ => writes_fill array (position + 1)
            (fun gen mem => h gen (List.mem_cons_of_mem _ mem))
            fun other mem => stored other (List.mem_cons_of_mem _ mem)

/-- Packing writes its own instructions and those of the items. -/
theorem writes_pack {elemTy : Ty} {items : List Expr}
    (packing : ∀ instr, Packing scope elemTy items instr → P instr)
    (h : ∀ gen ∈ operandsOf scope items, Writes P gen) :
    Writes P (pack elemTy (operandsOf scope items)) := by
  refine .bind (.store fun temp reserved => packing _ (.allocate reserved)) fun names => ?_
  split
  · exact .pure _
  · refine .bind (.silent fun _ => rfl) fun names' => ?_
    have held := packing _ (.hold names.reserved_nextTemp names'.reserved_nextPack)
    refine .bind (.emit held) fun _ => .bind (writes_fill _ 0 h ?_) fun _ => .pure _
    intro item mem value index denotes
    exact packing _ (.item names'.reserved_nextPack mem denotes)

/-- What stands for an expression may be brought into a variable. -/
theorem writes_toVariable (covers : Covers scope P (parts scope expr)) (names : Names) :
    Writes P (Gen.toVariable (operand scope expr names).value) :=
  .toVariable fun _ reserved =>
    covers expr (mem_parts_self scope expr) _
      (.settled (.element (denotes_operand scope expr names)) reserved)

/-- What is computed for an expression may be stored in a temporary. -/
theorem writes_settle (covers : Covers scope P (parts scope expr)) (names : Names) :
    Writes P (Gen.settle (compute scope expr names).value) :=
  .settleAs fun _ reserved =>
    covers expr (mem_parts_self scope expr) _
      (.settled (computes_compute scope expr names) reserved)

theorem writes_readName (name : String) (ty : Source.Ty)
    (covers : Covers scope P (parts scope (.var name ty))) :
    Writes P (readName scope name (.ofSource ty)) := by
  rw [readName]
  split
  · exact .store fun _ reserved => covers _ (mem_parts_self _ _) _ (.fetched ‹_› reserved)
  · exact .pure _

/-- A receiver is evaluated only if the call is on its value. -/
theorem writes_reach (receiver : Expr) (method : String)
    (h : Dispatch.ofReceiver scope receiver = .onValue →
      Writes P (operand scope receiver >>= Gen.toVariable)) :
    Writes P (reach scope receiver (operand scope receiver) method) := by
  rw [reach]
  split
  · exact .bind (h ‹_›) fun _ => .pure _
  · exact .pure _
  · exact .bind (.silent fun _ => rfl) fun _ => .pure _

/-- Arguments are packed only if the call site asks for it. -/
theorem writes_passArgs (site : CallSite)
    (packing : ∀ fixed elemTy instr, site.collected? scope = some (fixed, elemTy) →
      Packing scope (.ofSource elemTy) (site.args.drop fixed) instr → P instr)
    (h : ∀ gen ∈ operandsOf scope site.args, Writes P gen) :
    Writes P (passArgs (site.callee? scope) (site.args.map Expr.ty)
      (operandsOf scope site.args)) := by
  simp only [passArgs, packing?_eq_collected?]
  cases found : (site.callee? scope).bind fun entry =>
      collected? entry (site.args.map Expr.ty) with
  | none => exact .inOrder h
  | some way =>
      obtain ⟨fixed, elemTy⟩ := way
      rw [operandsOf_eq_map] at h ⊢
      refine .bind (.inOrder fun gen mem => h gen (List.mem_of_mem_take mem)) fun _ => ?_
      refine .bind ?_ fun _ => .pure _
      rw [← List.map_drop, ← operandsOf_eq_map]
      refine writes_pack (packing fixed elemTy · found) fun gen mem => h gen ?_
      rw [operandsOf_eq_map, List.map_drop] at mem
      exact List.mem_of_mem_drop mem

/-- Before a call come the instructions of its receiver and of its arguments. -/
theorem writes_invoke {receiver : Expr} {method : String} {args : List Expr} (otherRet : Ty)
    (object : Dispatch.ofReceiver scope receiver = .onValue →
      Writes P (operand scope receiver >>= Gen.toVariable))
    (packing : ∀ fixed elemTy instr,
      CallSite.collected? scope ⟨receiver, method, args⟩ = some (fixed, elemTy) →
      Packing scope (.ofSource elemTy) (args.drop fixed) instr → P instr)
    (h : ∀ gen ∈ operandsOf scope args, Writes P gen) :
    Writes P (invoke scope receiver (operand scope receiver) method (args.map Expr.ty)
      (operandsOf scope args) otherRet) := by
  refine .bind (writes_reach receiver method object) fun names => ?_
  have passed := writes_passArgs ⟨receiver, method, args⟩ packing h
  rw [CallSite.callee?, ownMethod?, ← isOwn_reach names scope receiver (operand scope receiver)
    method (ty_operand scope receiver names)] at passed
  exact .bind passed fun _ => .pure _

mutual

/-- Every instruction that an expression is lowered to is written on account of
one of its parts. -/
theorem writes_compute : ∀ expr, Covers scope P (parts scope expr) →
    Writes P (compute scope expr)
  | .int _ _, _ => .pure _
  | .bool _ _, _ => .pure _
  | .this _, _ => .pure _
  | .var name ty, covers => .map _ (writes_readName name ty covers)
  | .binary (.arith op) lhs rhs ty, covers =>
      .bind (writes_operand lhs (covers.mono fun _ mem => by simp [parts, mem])) fun _ =>
        .bind (writes_operand rhs (covers.mono fun _ mem => by simp [parts, mem])) fun _ => .pure _
  | .binary .and lhs rhs ty, covers =>
      have own := covers (.binary .and lhs rhs ty) (mem_parts_self _ _)
      .map _ (.bind (writes_operand lhs (covers.mono fun _ mem => by simp [parts, mem]))
        fun names => .chosen (fun _ => own _ (.conjunct (denotes_operand scope lhs names)))
          (fun _ => own _ .goto) (fun _ => own _ .label)
          (fun _ reserved => own _ (.outcome reserved))
          (writes_operand rhs (covers.mono fun _ mem => by simp [parts, mem]))
          fun _ names' reserved => own _ (.conjoined (denotes_operand scope rhs names') reserved))
  | .binary .lt lhs rhs ty, covers =>
      have own := covers (.binary .lt lhs rhs ty) (mem_parts_self _ _)
      .map _ (.bind (writes_operand lhs (covers.mono fun _ mem => by simp [parts, mem]))
        fun names => .bind (writes_operand rhs (covers.mono fun _ mem => by simp [parts, mem]))
          fun names' => .chosen
            (fun _ => own _ (.compared (denotes_operand scope lhs names)
              (denotes_operand scope rhs names')))
            (fun _ => own _ .goto) (fun _ => own _ .label)
            (fun _ reserved => own _ (.outcome reserved)) (.pure _)
            fun _ _ reserved => own _ (.outcome reserved))
  | .not inner ty, covers =>
      .map _ (writes_operand inner (covers.mono fun _ mem => by simp [parts, mem]))
  | .paren inner ty, covers =>
      .map _ (writes_operand inner (covers.mono fun _ mem => by simp [parts, mem]))
  | .newObject className ty, covers =>
      have own := covers (.newObject className ty) (mem_parts_self _ _)
      .map _ (.bind (.silent fun _ => rfl) fun names =>
        .bind (.emit (own _ (.allocated names.reserved_nextTemp))) fun _ =>
          .bind (.emit (own _ (.constructed names.reserved_nextTemp))) fun _ => .pure _)
  | .newArray elem size ty, covers =>
      .bind (writes_operand size (covers.mono fun _ mem => by simp [parts, mem])) fun _ => .pure _
  | .arrayInit items ty, covers =>
      .map _ (writes_pack
        (fun _ packing => covers (.arrayInit items ty) (mem_parts_self _ _) _ (.items packing))
        (writes_operandsOf items (covers.mono fun _ mem => by simp [parts, mem])))
  | .index array position ty, covers =>
      have covered := covers.mono fun _ mem => by simp [parts, mem]
      .map _ (.bind (.bind (writes_operand array covered) (writes_toVariable covered)) fun _ =>
        .bind (writes_operand position (covers.mono fun _ mem => by simp [parts, mem]))
          fun _ => .pure _)
  | .length array ty, covers =>
      have covered := covers.mono fun _ mem => by simp [parts, mem]
      .bind (.bind (writes_operand array covered) (writes_toVariable covered)) fun names =>
        .map _ (.store fun _ reserved => covers (.length array ty) (mem_parts_self _ _) _
          (.measured ((denotes_operand scope array names).toVariable _) reserved))
  | .call receiver method args ty, covers =>
      have own := covers (.call receiver method args ty) (mem_parts_self _ _)
      .bind (writes_invoke _
        (fun onValue =>
          have covered := covers.mono fun _ mem => by simp [parts, onValue, mem]
          .bind (writes_operand receiver covered) (writes_toVariable covered))
        (fun _ _ _ found packing => own _ (.args found packing))
        (writes_operandsOf args (covers.mono fun _ mem => by simp [parts, mem])))
        fun names => .map _ (.store fun _ reserved =>
          own _ (.called (issued_invoke scope receiver method args _ names) reserved))

theorem writes_operand : ∀ expr, Covers scope P (parts scope expr) →
    Writes P (operand scope expr)
  | expr, covers => .bind (writes_compute expr covers) (writes_settle covers)

theorem writes_operandsOf : ∀ exprs, Covers scope P (partsOfAll scope exprs) →
    ∀ gen ∈ operandsOf scope exprs, Writes P gen
  | [], _, _, mem => by cases mem
  | expr :: rest, covers, gen, mem => by
      rcases List.mem_cons.mp mem with rfl | mem
      · exact writes_operand expr (covers.mono (List.subset_append_left ..))
      · exact writes_operandsOf rest (covers.mono (List.subset_append_right ..)) gen mem

end

end

/-! ## Lowered statements -/

section
variable {scope : Scope}

theorem Writes.lift {gen : Gen α} (h : Writes P gen) : Writes P (liftM gen : Attempt α).run :=
  .map _ h

theorem Writes.lift_bind {gen : Gen α} {next : α → Attempt β} (h : Writes P gen)
    (h' : ∀ names, Writes P (next (gen names).value).run) : Writes P (liftM gen >>= next).run := by
  rw [run_lift_bind]
  exact .bind h h'

/-- An attempt that fails writes nothing more. -/
theorem Writes.attempt_bind {first : Attempt α} {next : α → Attempt β} (h : Writes P first.run)
    (h' : ∀ value, Writes P (next value).run) : Writes P (first >>= next).run := by
  rw [ExceptT.run_bind]
  refine .bind h fun names => ?_
  split
  · exact h' _
  · exact .pure _

theorem writes_cellOf {array position : Expr} (covers : Covers scope P (parts scope array))
    (covers' : Covers scope P (parts scope position)) :
    Writes P (cellOf (operand scope array) (operand scope position)) :=
  .bind (.bind (writes_operand array covers) (writes_toVariable covers)) fun _ =>
    .bind (writes_operand position covers') fun _ => .pure _

/-- The left side of an assignment is an expression, of which only the parts may be evaluated. -/
theorem writes_target (expr : Expr) (covers : Covers scope P (parts scope expr)) :
    Writes P (target scope expr) := by
  cases expr with
  | var name ty =>
      rw [target]
      split
      · exact .pure _
      · exact .pure _
  | index array position ty =>
      exact .map _ (writes_cellOf (covers.mono fun _ mem => by simp [parts, mem])
        (covers.mono fun _ mem => by simp [parts, mem]))
  | _ => exact .map _ (writes_operand _ covers)

/-- An assignment ends with a store, perhaps behind one to a temporary. -/
theorem writes_assignment (left right : Expr)
    (h : ∀ instr, WrittenBy scope (.assign left right) instr → P instr) :
    Writes P (assignment scope left right).run := by
  have covers : Covers scope P (partsOfAll scope [left, right]) :=
    fun _ mem _ written => h _ (.part mem written)
  refine .lift_bind (writes_target left (covers.mono fun _ mem => by simp [partsOfAll, mem]))
    fun names => ?_
  refine .lift_bind (writes_compute right (covers.mono fun _ mem => by simp [partsOfAll, mem]))
    fun names' => ?_
  have computes := computes_compute scope right names'
  have places := places_target scope left names
  generalize (target scope left names).value = place at places
  generalize (compute scope right names').value = rhs at computes
  cases places with
  | var denotes => exact .lift (.emit (h _ (.assignVar denotes computes)))
  | cell base index => exact .lift (.emit (h _ (.assignCell base index computes)))
  | field isField =>
      refine .lift_bind (.settleAs fun _ reserved => h _ (.settled isField computes reserved))
        fun names'' => .lift (.emit (h _ (.putField isField ?_)))
      cases computes with
      | element denotes => exact .inl denotes
      | _ => exact .inr ⟨_, names''.reserved_nextTemp, rfl⟩
  | literal _ => exact .pure _

/-- A conditional adds a branch, a jump and two labels to what its parts write. -/
theorem writes_conditional {cond : Gen Element} {thenBranch elseBranch : Attempt Unit}
    (goto : ∀ mark, P (.goto mark)) (label : ∀ mark, P (.label mark))
    (branch : ∀ names mark, P (.branch (.element (cond names).value) mark)) (h : Writes P cond)
    (hthen : Writes P thenBranch.run) (helse : Writes P elseBranch.run) :
    Writes P (conditional cond thenBranch elseBranch).run :=
  .lift_bind h fun names => .lift_bind (.silent fun _ => rfl) fun _ =>
    .lift_bind (.emit (branch names _)) fun _ => .attempt_bind helse fun _ =>
      .lift_bind (.emit (goto _)) fun _ => .lift_bind (.emit (label _)) fun _ =>
        .attempt_bind hthen fun _ => .lift (.emit (label _))

/-- A loop adds two branches, a jump and two labels to what its parts write. -/
theorem writes_loop {cond : Gen Element} {body : Attempt Unit}
    (goto : ∀ mark, P (.goto mark)) (label : ∀ mark, P (.label mark))
    (branch : ∀ names mark, P (.branch (.element (cond names).value) mark)) (h : Writes P cond)
    (hbody : Writes P body.run) : Writes P (loop cond body).run :=
  .lift_bind h fun names => .lift_bind (.silent fun _ => rfl) fun _ =>
    .lift_bind (.silent fun _ => rfl) fun _ => .lift_bind (.emit (branch names _)) fun _ =>
      .lift_bind (.emit (goto _)) fun _ => .lift_bind (.emit (label _)) fun _ =>
        .attempt_bind hbody fun _ => .lift_bind h fun names' =>
          .lift_bind (.emit (branch names' _)) fun _ => .lift (.emit (label _))

/-- A call that stands as a statement is written without a result. -/
theorem writes_perform (expr : Expr) (h : ∀ instr, WrittenBy scope (.expr expr) instr → P instr) :
    Writes P (perform scope expr) := by
  have covers : Covers scope P (valuesOf scope (.expr expr)) :=
    fun _ mem _ written => h _ (.part mem written)
  cases expr with
  | call receiver method args ty =>
      rw [perform, effect, ← operandsOf_eq_map, map_eq_pure_bind, bind_assoc]
      refine .bind (writes_invoke _ (fun onValue => ?_) (fun _ _ _ found packing =>
        h _ (.args found packing)) (writes_operandsOf args ?_)) fun names =>
          .emit (h _ (.called (issued_invoke scope receiver method args .void names)))
      · have covered : Covers scope P (parts scope receiver) :=
          covers.mono fun _ mem => by simp [valuesOf, callParts, onValue, mem]
        exact .bind (writes_operand receiver covered) (writes_toVariable covered)
      · exact covers.mono (List.subset_append_right ..)
  | _ =>
      refine .bind (.map _ (writes_operand _ (covers.mono fun _ mem => ?_))) fun _ => .pure _
      exact List.mem_append_left _ mem

/-- A value is returned only from a method with a result. -/
theorem writes_leave (value : Option Expr)
    (h : ∀ instr, WrittenBy scope (.ret value) instr → P instr) : Writes P (leave scope value) := by
  cases value with
  | none => exact .emit (h _ .retNone)
  | some value =>
      rw [leave]
      split
      · exact .emit (h _ .retNone)
      · rename_i nonVoid
        refine .bind (writes_operand value fun part mem _ written => h _ (.part ?_ written))
          fun names => .emit (h _ (.retSome (Bool.eq_false_iff.mpr nonVoid)
            (denotes_operand scope value names)))
        rw [valuesOf, partsOf, evaluated, if_neg nonVoid]
        · exact List.mem_append_left _ mem
        · intro _ _ _ _ same
          cases same

mutual

/-- Every instruction that a statement is lowered to is written on account of it
or of a statement inside it. -/
theorem writes_lowerStmt : ∀ stmt,
    (∀ inner ∈ subStmts stmt, ∀ instr, WrittenBy scope inner instr → P instr) →
    Writes P (lowerStmt scope stmt).run
  | .assign left right, h => by
      rw [lowerStmt_assign]
      exact writes_assignment left right (h _ List.mem_cons_self)
  | .ifElse cond thenBranch elseBranch, h => by
      rw [lowerStmt_ifElse]
      have own := h (.ifElse cond thenBranch elseBranch) List.mem_cons_self
      exact writes_conditional (fun _ => own _ .goto) (fun _ => own _ .label)
        (fun names _ => own _ (.test rfl (denotes_operand scope cond names)))
        (writes_operand cond fun _ mem _ written =>
          own _ (.part (List.mem_append_left _ mem) written))
        (writes_lowerStmt thenBranch fun inner mem => h inner (by simp [subStmts, mem]))
        (writes_lowerStmt elseBranch fun inner mem => h inner (by simp [subStmts, mem]))
  | .whileLoop cond body, h => by
      rw [lowerStmt_whileLoop]
      have own := h (.whileLoop cond body) List.mem_cons_self
      exact writes_loop (fun _ => own _ .goto) (fun _ => own _ .label)
        (fun names _ => own _ (.test rfl (denotes_operand scope cond names)))
        (writes_operand cond fun _ mem _ written =>
          own _ (.part (List.mem_append_left _ mem) written))
        (writes_lowerStmt body fun inner mem => h inner (List.mem_cons_of_mem _ mem))
  | .expr expr, h => by
      rw [lowerStmt_expr]
      exact .lift (writes_perform expr (h _ List.mem_cons_self))
  | .block stmts, h => by
      rw [lowerStmt]
      exact writes_lowerStmts stmts fun inner mem => h inner (List.mem_cons_of_mem _ mem)
  | .ret value, h => by
      rw [lowerStmt_ret]
      exact .lift (writes_leave value (h _ List.mem_cons_self))

theorem writes_lowerStmts : ∀ stmts,
    (∀ inner ∈ subStmtsOfAll stmts, ∀ instr, WrittenBy scope inner instr → P instr) →
    Writes P (lowerStmts scope stmts).run
  | [], _ => .pure _
  | stmt :: rest, h =>
      .attempt_bind (writes_lowerStmt stmt fun inner mem => h inner (List.mem_append_left _ mem))
        fun _ => writes_lowerStmts rest fun inner mem => h inner (List.mem_append_right _ mem)

end

end

/-- Every instruction of a lowered method is written on account of a statement of
its body, or ends a method without result. -/
theorem LoweredMethod.written {symbols : SymbolTable} {decl : MethodDecl} {entry : MethodEntry}
    {names after : Names} {code : List Instr} {method : Method}
    (lowered : LoweredMethod symbols decl entry names code after method) {instr : Instr}
    (mem : instr ∈ method.body) :
    (∃ stmt ∈ subStmtsOfAll decl.body, WrittenBy ⟨symbols, entry⟩ stmt instr) ∨
      (method.ret = .void ∧ instr = .ret .void none) := by
  rw [lowered.body, List.mem_append] at mem
  rcases mem with mem | mem
  · rw [← lowered.gives.code_eq] at mem
    have writes : Writes (fun instr => ∃ stmt ∈ subStmtsOfAll decl.body,
        WrittenBy ⟨symbols, entry⟩ stmt instr) (lowerStmts ⟨symbols, entry⟩ decl.body).run :=
      writes_lowerStmts decl.body fun stmt inside _ written => ⟨stmt, inside, written⟩
    exact .inl (writes names instr mem)
  · rw [closing] at mem
    split at mem
    · rename_i void
      have isVoid : method.ret.isVoid = true := by
        rw [lowered.ret]
        exact (Bool.and_eq_true _ _ ▸ void).1
      refine .inr ⟨?_, List.mem_singleton.mp mem⟩
      cases same : method.ret with
      | void => rfl
      | _ => rw [same] at isVoid; cases isVoid
    · cases mem

end Lowering

end MiniJava
