import MiniJava.Proofs.Lowering.Assigned
import MiniJava.Proofs.Lowering.Renumbering

/-!
# Lowering from another supply of names

Nothing in lowering looks at a name that was generated or at a number that was
drawn.  So from a supply that is further on, the same instructions are written
with the names further on (`Parallel`), for every source whose own variables are
not called like generated ones.

Generators run one after another pass values on, and these are renamed as well.
The relation therefore holds between two generators, and says how the value of
the second one comes from that of the first.
-/

namespace MiniJava.Lowering

open Source (Expr Stmt Scope MethodEntry)
open Tac Semantics

variable {α β : Type}

/-- From a supply that is further on by the offset, the second generator does
what the first one does, with shifted names. -/
def Parallel (offset : Names) (act : α → β) (gen : Gen α) (gen' : Gen β) : Prop :=
  ∀ names : Names, gen' (names.plus offset) =
    ⟨act (gen names).value, (gen names).code.map (Instr.rename (.shift offset)),
      (gen names).notes, (gen names).names.plus offset⟩

namespace Parallel

variable {offset : Names} {α' β' : Type}

/-! ## Rules -/

theorem pure {act : α → β} {value : α} {value' : β} (same : value' = act value) :
    Parallel offset act (Pure.pure value) (Pure.pure value') := by
  subst same
  exact fun _ => rfl

/-- What comes next may use a value only through the renaming. -/
theorem bind {act : α → α'} {act' : β → β'} {gen : Gen α} {gen' : Gen α'} {next : α → Gen β}
    {next' : α' → Gen β'} (h : Parallel offset act gen gen')
    (h' : ∀ value, Parallel offset act' (next value) (next' (act value))) :
    Parallel offset act' (gen >>= next) (gen' >>= next') := by
  intro names
  simp only [Bind.bind, h names, h' (gen names).value (gen names).names, List.map_append]

theorem map {act : α → α'} {act' : β → β'} {gen : Gen α} {gen' : Gen α'} {f : α → β}
    {f' : α' → β'} (h : Parallel offset act gen gen')
    (same : ∀ value, f' (act value) = act' (f value)) :
    Parallel offset act' (f <$> gen) (f' <$> gen') := by
  intro names
  simp only [Gen.map_apply, h names, same]

/-- An instruction is written with its names shifted. -/
theorem emit {instr instr' : Instr} (same : instr' = instr.rename (.shift offset)) :
    Parallel offset id (Gen.emit instr) (Gen.emit instr') := by
  subst same
  exact fun _ => rfl

theorem note (entry : Note) : Parallel offset id (Gen.note entry) (Gen.note entry) := fun _ => rfl

/-- The numbers of a family are further on by a constant. -/
theorem number (family : Family) :
    Parallel offset (· + offset.next family) (Gen.number family) (Gen.number family) := by
  intro names
  simp only [Gen.number, Names.next_plus, Names.advance_plus, List.map_nil]

/-- A label that is drawn is the renamed one. -/
theorem label (family : Family) :
    Parallel offset (Renaming.shift offset).label (Gen.label family) (Gen.label family) :=
  (number family).bind fun _ => .pure rfl

/-- A temporary that is drawn is the renamed one. -/
theorem temp (ty : Ty) :
    Parallel offset (Operand.rename (.shift offset)) (Gen.temp ty) (Gen.temp ty) := by
  intro names
  have name : (Renaming.shift offset).name names.nextTemp = (names.plus offset).nextTemp :=
    Renaming.renumber_tempName ..
  simp only [Gen.temp, Operand.rename, name, Names.advanceTemp_plus, List.map_nil]

theorem holder (ty : Ty) :
    Parallel offset (Operand.rename (.shift offset)) (Gen.holder ty) (Gen.holder ty) := by
  intro names
  have name : (Renaming.shift offset).name names.nextPack = (names.plus offset).nextPack :=
    Renaming.renumber_packName ..
  simp only [Gen.holder, Operand.rename, name, Names.advance_plus, List.map_nil]

/-! ## Operands -/

theorem store (rhs : Rhs) (ty : Ty) :
    Parallel offset (Element.rename (.shift offset)) (Gen.store rhs ty)
      (Gen.store (rhs.rename (.shift offset)) ty) :=
  (temp ty).bind fun _ => (emit rfl).bind fun _ => .pure rfl

/-- Whether a right-hand side is stored does not depend on its names. -/
theorem settleAs (ty : Ty) (rhs : Rhs) :
    Parallel offset (Element.rename (.shift offset)) (Gen.settleAs ty rhs)
      (Gen.settleAs ty (rhs.rename (.shift offset))) := by
  cases rhs with
  | element elem => exact .pure rfl
  | _ => exact store _ ty

theorem settle (rhs : Rhs) :
    Parallel offset (Element.rename (.shift offset)) (Gen.settle rhs)
      (Gen.settle (rhs.rename (.shift offset))) := by
  rw [Gen.settle, Gen.settle, Rhs.ty_rename]
  exact settleAs rhs.ty rhs

theorem toVariable (elem : Element) :
    Parallel offset (Operand.rename (.shift offset)) (Gen.toVariable elem)
      (Gen.toVariable (elem.rename (.shift offset))) := by
  cases elem with
  | operand op => exact .pure rfl
  | literal lit => exact (temp lit.ty).bind fun _ => (emit rfl).bind fun _ => .pure rfl

/-- A generator that writes the same from every supply, with shifted names. -/
abbrev Uniform (offset : Names) (act : α → α) (gen : Gen α) : Prop := Parallel offset act gen gen

theorem inOrder {act : α → α} : ∀ {gens : List (Gen α)}, (∀ gen ∈ gens, Uniform offset act gen) →
    Uniform offset (List.map act) (Gen.inOrder gens)
  | [], _ => .pure rfl
  | _ :: _, h => by
      rw [List.forall_mem_cons] at h
      exact h.1.bind fun _ => (inOrder h.2).bind fun _ => .pure rfl

/-- Both branches of a truth value draw their names in the same order. -/
theorem chosen (cond : Rhs) {onTrue : Gen Element}
    (h : Uniform offset (Element.rename (.shift offset)) onTrue) :
    Parallel offset (Element.rename (.shift offset)) (chosen cond onTrue)
      (chosen (cond.rename (.shift offset)) onTrue) :=
  (label .onTrue).bind fun _ => (emit rfl).bind fun _ => (temp .bool).bind fun _ =>
    (emit rfl).bind fun _ => (label .join).bind fun _ => (emit rfl).bind fun _ =>
      (emit rfl).bind fun _ => h.bind fun _ => (emit rfl).bind fun _ => (emit rfl).bind fun _ =>
        .pure rfl

theorem construct (className : String) :
    Uniform offset (Element.rename (.shift offset)) (construct className) :=
  (temp _).bind fun _ => (emit rfl).bind fun _ => (emit rfl).bind fun _ => .pure rfl

/-- The array that is filled was drawn, so it is renamed; the items come from the source. -/
theorem fill (array : Operand) : ∀ {items : List (Gen Element)} (position : Nat),
    (∀ item ∈ items, Uniform offset (Element.rename (.shift offset)) item) →
    Parallel offset id (fill array position items)
      (fill (array.rename (.shift offset)) position items)
  | [], _, _ => .pure rfl
  | _ :: _, position, h => by
      rw [List.forall_mem_cons] at h
      exact h.1.bind fun _ => (emit rfl).bind fun _ => fill array (position + 1) h.2

theorem pack (elemTy : Ty) {items : List (Gen Element)}
    (h : ∀ item ∈ items, Uniform offset (Element.rename (.shift offset)) item) :
    Uniform offset (Element.rename (.shift offset)) (pack elemTy items) := by
  refine (store _ _).bind fun fresh => ?_
  split
  · exact .pure rfl
  · exact (holder _).bind fun array => (emit rfl).bind fun _ => (fill array 0 h).bind fun _ =>
      .pure rfl

theorem cellOf {array index : Gen Element}
    (h : Uniform offset (Element.rename (.shift offset)) array)
    (h' : Uniform offset (Element.rename (.shift offset)) index) :
    Uniform offset (Cell.rename (.shift offset)) (cellOf array index) :=
  (h.bind toVariable).bind fun _ => h'.bind fun _ => .pure rfl

/-! ## Calls -/

/-- Dispatch looks at the source alone. -/
theorem reach (scope : Scope) (receiver : Expr) {object : Gen Element} (method : String)
    (h : Dispatch.ofReceiver scope receiver = .onValue →
      Uniform offset (Element.rename (.shift offset)) object) :
    Uniform offset (fun reached => { reached with target := reached.target.rename (.shift offset) })
      (reach scope receiver object method) := by
  rw [Lowering.reach]
  cases dispatch : Dispatch.ofReceiver scope receiver with
  | onValue => exact ((h dispatch).bind toVariable).bind fun _ => .pure rfl
  | onClass name => exact .pure rfl
  | assumed name => exact (note _).bind fun _ => .pure rfl

/-- Whether arguments are packed is decided by the types of the source. -/
theorem passArgs (callee : Option MethodEntry) (argTys : List Source.Ty)
    {args : List (Gen Element)}
    (h : ∀ arg ∈ args, Uniform offset (Element.rename (.shift offset)) arg) :
    Uniform offset (List.map (Element.rename (.shift offset))) (passArgs callee argTys args) := by
  rw [Lowering.passArgs]
  split
  · exact inOrder h
  · refine (inOrder fun gen mem => h gen (List.mem_of_mem_take mem)).bind fun _ =>
      (pack _ fun gen mem => h gen (List.mem_of_mem_drop mem)).bind fun _ => .pure ?_
    rw [List.map_append]
    rfl

theorem invoke (scope : Scope) (receiver : Expr) {object : Gen Element} (method : String)
    (argTys : List Source.Ty) {args : List (Gen Element)} (otherRet : Ty)
    (h : Dispatch.ofReceiver scope receiver = .onValue →
      Uniform offset (Element.rename (.shift offset)) object)
    (h' : ∀ arg ∈ args, Uniform offset (Element.rename (.shift offset)) arg) :
    Uniform offset (Call.rename (.shift offset))
      (invoke scope receiver object method argTys args otherRet) :=
  (reach scope receiver method h).bind fun _ => (passArgs _ argTys h').bind fun _ => .pure rfl

end Parallel

/-! ## Expressions -/

section
variable {scope : Scope} {offset : Names}

open Parallel (Uniform)

/-- Variables of the source keep their names. -/
theorem shift_of_not_reserved {name : String} (plain : ¬ Names.Reserved name) (ty : Ty) :
    Operand.rename (.shift offset) ⟨name, ty⟩ = ⟨name, ty⟩ := by
  rw [Operand.rename, Renaming.shift, Renaming.renumber_of_not_reserved _ _ plain]

theorem shift_receiverOf (scope : Scope) :
    (receiverOf scope).rename (.shift offset) = receiverOf scope :=
  shift_of_not_reserved thisName_not_reserved _

theorem uniform_readName {name : String} {ty : Source.Ty}
    (plain : Unreserved scope (.var name ty)) :
    Uniform offset (Element.rename (.shift offset)) (readName scope name (.ofSource ty)) := by
  rw [readName]
  split
  · have fetched : Parallel offset _ _ _ :=
      .store (.getField (receiverOf scope) ⟨name, .ofSource ty⟩) (.ofSource ty)
    rwa [Rhs.rename, shift_receiverOf] at fetched
  · rename_i other
    have shown : ¬ Names.Reserved name := plain name (by simp [variablesOf, other])
    refine .pure ?_
    rw [Element.var, Element.rename, shift_of_not_reserved shown]

mutual

/-- An expression is lowered to the same right-hand side from every supply, with shifted
names. -/
theorem uniform_compute : ∀ expr, Unreserved scope expr →
    Uniform offset (Rhs.rename (.shift offset)) (compute scope expr)
  | .int _ _, _ => .pure rfl
  | .bool _ _, _ => .pure rfl
  | .this _, _ => .pure (congrArg (Rhs.element ∘ Element.operand) (shift_receiverOf scope).symm)
  | .var _ _, plain => (uniform_readName plain).map fun _ => rfl
  | .binary (.arith _) lhs rhs _, plain =>
      (uniform_operand lhs plain.binary.1).bind fun _ =>
        (uniform_operand rhs plain.binary.2).bind fun _ => .pure rfl
  | .binary .and lhs rhs _, plain =>
      .map ((uniform_operand lhs plain.binary.1).bind fun _ =>
        .chosen _ (uniform_operand rhs plain.binary.2)) fun _ => rfl
  | .binary .lt lhs rhs _, plain =>
      .map ((uniform_operand lhs plain.binary.1).bind fun _ =>
        (uniform_operand rhs plain.binary.2).bind fun _ => .chosen _ (.pure rfl)) fun _ => rfl
  | .not operand _, plain => (uniform_operand operand plain).map fun _ => rfl
  | .paren inner _, plain => (uniform_operand inner plain).map fun _ => rfl
  | .newObject className _, _ => (Parallel.construct className).map fun _ => rfl
  | .newArray _ size _, plain => (uniform_operand size plain).bind fun _ => .pure rfl
  | .arrayInit items _, plain =>
      (Parallel.pack _ (uniform_operandsOf items plain)).map fun _ => rfl
  | .index array position _, plain =>
      (Parallel.cellOf (uniform_operand array plain.index.1)
        (uniform_operand position plain.index.2)).map fun _ => rfl
  | .length array _, plain =>
      ((uniform_operand array plain).bind Parallel.toVariable).bind fun _ =>
        (Parallel.store _ _).map fun _ => rfl
  | .call receiver method args _, plain =>
      (Parallel.invoke scope receiver method _ _
        (fun onValue => uniform_operand receiver (plain.receiver onValue))
        (uniform_operandsOf args plain.args)).bind fun _ => (Parallel.store _ _).map fun _ => rfl

theorem uniform_operand : ∀ expr, Unreserved scope expr →
    Uniform offset (Element.rename (.shift offset)) (operand scope expr)
  | expr, plain => (uniform_compute expr plain).bind Parallel.settle

theorem uniform_operandsOf : ∀ exprs,
    (∀ name ∈ variablesOfAll scope exprs, ¬ Names.Reserved name) →
    ∀ gen ∈ operandsOf scope exprs, Uniform offset (Element.rename (.shift offset)) gen
  | [], _, _, mem => by cases mem
  | expr :: rest, plain, gen, mem => by
      rcases List.mem_cons.mp mem with rfl | mem
      · exact uniform_operand expr fun name mem => plain name (List.mem_append_left _ mem)
      · exact uniform_operandsOf rest (fun name mem => plain name (List.mem_append_right _ mem))
          gen mem

end

/-- Rename the variables of a place. -/
def Place.rename (naming : Renaming) : Place → Place
  | .var op => .var (op.rename naming)
  | .cell place => .cell (place.rename naming)
  | .field object name => .field (object.rename naming) name
  | .literal lit => .literal lit

/-- The place that is assigned to is the same from every supply, with shifted names. -/
theorem uniform_target {left : Expr} (plain : Unreserved scope left) :
    Uniform offset (Place.rename (.shift offset)) (target scope left) := by
  have evaluated : ∀ expr, Unreserved scope expr →
      Uniform offset (Place.rename (.shift offset)) (Place.ofElement <$> operand scope expr) :=
    fun expr plain => (uniform_operand expr plain).map fun elem => by cases elem <;> rfl
  cases left with
  | var name ty =>
      rw [target]
      split
      · exact .pure (by rw [Place.rename, shift_receiverOf])
      · rename_i other
        have shown : ¬ Names.Reserved name := plain name (by simp [variablesOf, other])
        exact .pure (by rw [Place.rename, shift_of_not_reserved shown])
  | index array position ty =>
      exact (Parallel.cellOf (uniform_operand array plain.index.1)
        (uniform_operand position plain.index.2)).map fun _ => rfl
  | _ => exact evaluated _ plain

/-- A call that stands as a statement is the same from every supply, with shifted names. -/
theorem uniform_perform {expr : Expr} (plain : Unreserved scope expr) :
    Uniform offset id (perform scope expr) := by
  cases expr with
  | call receiver method args ty =>
      rw [perform, effect, ← operandsOf_eq_map, map_eq_pure_bind, bind_assoc]
      exact (Parallel.invoke scope receiver method _ _
        (fun onValue => uniform_operand receiver (plain.receiver onValue))
        (uniform_operandsOf args plain.args)).bind fun _ => .emit rfl
  | _ =>
      rw [perform, effect, map_eq_pure_bind, bind_assoc]
      · exact (uniform_operand _ plain).bind fun _ => .pure rfl
      · intro _ _ _ _ isCall
        cases isCall

theorem uniform_leave {value : Option Expr} (plain : ∀ expr ∈ value, Unreserved scope expr) :
    Uniform offset id (leave scope value) := by
  cases value with
  | none => exact .emit rfl
  | some expr =>
      rw [leave]
      split
      · exact .emit rfl
      · exact (uniform_operand expr (plain expr rfl)).bind fun _ => .emit rfl

end

/-! ## Statements -/

namespace Parallel

variable {offset : Names} {α' β' : Type}

theorem lift {act : α → β} {gen : Gen α} {gen' : Gen β} (h : Parallel offset act gen gen') :
    Parallel offset (Except.map act) (liftM gen : Attempt α).run (liftM gen' : Attempt β).run :=
  h.map fun _ => rfl

theorem lift_bind {act : α → α'} {act' : β → β'} {gen : Gen α} {gen' : Gen α'}
    {next : α → Attempt β} {next' : α' → Attempt β'} (h : Parallel offset act gen gen')
    (h' : ∀ value, Parallel offset (Except.map act') (next value).run (next' (act value)).run) :
    Parallel offset (Except.map act') (liftM gen >>= next).run (liftM gen' >>= next').run := by
  rw [run_lift_bind, run_lift_bind]
  exact h.bind h'

/-- Both attempts fail, with the same error, or both go on. -/
theorem attempt_bind {act : α → α'} {act' : β → β'} {first : Attempt α} {first' : Attempt α'}
    {next : α → Attempt β} {next' : α' → Attempt β'}
    (h : Parallel offset (Except.map act) first.run first'.run)
    (h' : ∀ value, Parallel offset (Except.map act') (next value).run (next' (act value)).run) :
    Parallel offset (Except.map act') (first >>= next).run (first' >>= next').run := by
  rw [ExceptT.run_bind, ExceptT.run_bind]
  refine h.bind fun result => ?_
  cases result with
  | error error => exact .pure rfl
  | ok value => exact h' value

/-- An attempt that writes the same from every supply, with shifted names. -/
abbrev UniformIn (offset : Names) (attempt : Attempt Unit) : Prop :=
  Uniform offset (Except.map id) attempt.run

/-- The two labels of a conditional carry the same number, which is further on. -/
theorem conditional {cond : Gen Element} {thenBranch elseBranch : Attempt Unit}
    (h : Uniform offset (Element.rename (.shift offset)) cond)
    (hthen : UniformIn offset thenBranch) (helse : UniformIn offset elseBranch) :
    UniformIn offset (conditional cond thenBranch elseBranch) :=
  lift_bind h fun _ => lift_bind (number .thenBranch) fun _ => lift_bind (emit rfl) fun _ =>
    attempt_bind helse fun _ => lift_bind (emit rfl) fun _ => lift_bind (emit rfl) fun _ =>
      attempt_bind hthen fun _ => lift (emit rfl)

theorem loop {cond : Gen Element} {body : Attempt Unit}
    (h : Uniform offset (Element.rename (.shift offset)) cond) (hbody : UniformIn offset body) :
    UniformIn offset (loop cond body) :=
  lift_bind h fun _ => lift_bind (label .loopBody) fun _ => lift_bind (label .loopEnd) fun _ =>
    lift_bind (emit rfl) fun _ => lift_bind (emit rfl) fun _ => lift_bind (emit rfl) fun _ =>
      -- The condition is lowered once more, from the supply that the body leaves.
      attempt_bind hbody fun _ => lift_bind h fun _ => lift_bind (emit rfl) fun _ =>
        lift (emit rfl)

end Parallel

section
variable {scope : Scope} {offset : Names}

open Parallel (UniformIn)

/-- Both assignments are refused, or both store into the same place. -/
theorem uniform_assignment {left right : Expr} (plain : Unreserved scope left)
    (plain' : Unreserved scope right) : UniformIn offset (assignment scope left right) := by
  refine .lift_bind (uniform_target plain) fun place => .lift_bind (uniform_compute right plain')
    fun rhs => ?_
  cases place with
  | var op => exact .lift (.emit rfl)
  | cell cell => exact .lift (.emit rfl)
  | field object field =>
      exact .lift_bind (Parallel.settleAs field.ty rhs) fun _ => .lift (.emit rfl)
  | literal lit => exact .pure rfl

mutual

/-- A statement is lowered to the same instructions from every supply, with shifted
names. -/
theorem uniform_lowerStmt : ∀ stmt,
    (∀ inner ∈ subStmts stmt, ∀ expr ∈ exprsOf inner, Unreserved scope expr) →
    UniformIn offset (lowerStmt scope stmt)
  | .assign left right, plain => by
      rw [lowerStmt_assign]
      exact uniform_assignment (plain _ List.mem_cons_self left List.mem_cons_self)
        (plain _ List.mem_cons_self right (List.mem_cons_of_mem _ List.mem_cons_self))
  | .ifElse cond thenBranch elseBranch, plain => by
      rw [lowerStmt_ifElse]
      exact .conditional
        (uniform_operand cond (plain _ List.mem_cons_self cond List.mem_cons_self))
        (uniform_lowerStmt thenBranch fun inner mem => plain inner (by simp [subStmts, mem]))
        (uniform_lowerStmt elseBranch fun inner mem => plain inner (by simp [subStmts, mem]))
  | .whileLoop cond body, plain => by
      rw [lowerStmt_whileLoop]
      exact .loop (uniform_operand cond (plain _ List.mem_cons_self cond List.mem_cons_self))
        (uniform_lowerStmt body fun inner mem => plain inner (List.mem_cons_of_mem _ mem))
  | .expr expr, plain => by
      rw [lowerStmt_expr]
      exact .lift (uniform_perform (plain _ List.mem_cons_self expr List.mem_cons_self))
  | .block stmts, plain => by
      rw [lowerStmt]
      exact uniform_lowerStmts stmts fun inner mem => plain inner (List.mem_cons_of_mem _ mem)
  | .ret value, plain => by
      rw [lowerStmt_ret]
      exact .lift (uniform_leave fun expr mem =>
        plain _ List.mem_cons_self expr (Option.mem_toList.mpr mem))

/-- Statements are lowered to the same instructions from every supply, with
shifted names. -/
theorem uniform_lowerStmts : ∀ stmts,
    (∀ inner ∈ subStmtsOfAll stmts, ∀ expr ∈ exprsOf inner, Unreserved scope expr) →
    UniformIn offset (lowerStmts scope stmts)
  | [], _ => .pure rfl
  | stmt :: rest, plain =>
      .attempt_bind
        (uniform_lowerStmt stmt fun inner mem => plain inner (List.mem_append_left _ mem))
        fun _ => uniform_lowerStmts rest fun inner mem => plain inner (List.mem_append_right _ mem)

end

end

end MiniJava.Lowering
