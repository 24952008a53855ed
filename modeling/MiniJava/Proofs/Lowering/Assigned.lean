import MiniJava.Proofs.Lowering.Path
import MiniJava.Proofs.Lowering.Survey

/-!
# Temporaries are assigned before they are read

On every path through a lowered method, a temporary or holder is assigned before
an instruction reads it.

What is proved along the syntax is a statement about continuations.  The code of
a generator is safe wherever it stands, provided that its end is safe once the
variables of the value that it hands back are assigned too (`Prepares`).  The
code of a statement is safe provided that its end is (`Proceeds`).  Variables of
the source are never asked for, because they have no reserved names.
-/

namespace MiniJava.Lowering

open Source (Expr Stmt Scope SymbolTable MethodDecl MethodEntry)
open Tac Semantics

variable {α β : Type}

/-! ## Generators that assign what they hand back -/

/-- Wherever some variables are assigned, the code of the generator is safe, and
behind it the variables of its value are assigned as well. -/
structure Prepares (needs : List Operand) (gen : Gen α) (operands : α → List Operand) :
    Prop where
  tidy : Tidy gen
  safe : ∀ ⦃names program before steps known⦄, (∀ op ∈ needs, Assigned known op) →
    Placed program names before (gen names).code →
    (∀ ⦃more⦄, known ⊆ more → (∀ op ∈ operands (gen names).value, Assigned more op) →
      Safe program steps (before ++ (gen names).code).length more) →
    Safe program steps before.length known

namespace Prepares

variable {needs : List Operand} {operands : α → List Operand} {operands' : β → List Operand}

/-- A variable of the source counts as assigned. -/
theorem ofSource {op : Operand} {gen : Gen α} (h : Prepares (op :: needs) gen operands)
    (plain : ¬ Names.Reserved op.name) : Prepares needs gen operands where
  tidy := h.tidy
  safe _ _ _ _ _ assigned placed next := by
    refine h.safe (fun other mem reserved => ?_) placed next
    rcases List.mem_cons.mp mem with rfl | mem
    · exact absurd reserved plain
    · exact assigned other mem reserved

theorem pure {value : α} (h : operands value ⊆ needs) :
    Prepares needs (Pure.pure value) operands where
  tidy := .pure value
  safe names program before steps known assigned placed next := by
    simpa using next (subset_refl known) fun op mem => assigned op (h mem)

/-- What comes next may read the value. -/
theorem bind {gen : Gen α} {next : α → Gen β} (h : Prepares needs gen operands)
    (h' : ∀ value, Prepares (operands value ++ needs) (next value) operands') :
    Prepares needs (gen >>= next) operands' where
  tidy := h.tidy.bind fun value => (h' value).tidy
  safe names program before steps known assigned placed rest := by
    rw [Gen.code_bind] at placed rest
    refine h.safe assigned placed.left fun more subset ready => ?_
    have placed' := placed.right (h.tidy names).1 fun mark mem => ((h.tidy names).2 mark mem).2
    refine (h' _).safe (fun op mem => ?_) placed' fun after subset' ready' => ?_
    · rcases List.mem_append.mp mem with mem | mem
      · exact ready op mem
      · exact (assigned op mem).mono subset
    · rw [List.append_assoc]
      exact rest (subset.trans subset') ready'

theorem map {gen : Gen α} {f : α → β} (h : Prepares needs gen operands)
    (same : ∀ value, operands' (f value) ⊆ operands value) :
    Prepares needs (f <$> gen) operands' := by
  rw [map_eq_pure_bind]
  exact h.bind fun value => .pure (List.subset_append_of_subset_left _ (same value))

theorem element {gen : Gen Element} (h : Prepares needs gen Element.operands) :
    Prepares needs (Rhs.element <$> gen) Rhs.operands := h.map fun _ => List.Subset.refl _

theorem note (entry : Note) : Prepares needs (Gen.note entry) fun _ => [] where
  tidy _ := .note entry
  safe names program before steps known _ _ next := by
    simpa [Gen.note] using next (subset_refl known) (List.forall_mem_nil _)

/-- One instruction that reads nothing but what is assigned. -/
theorem emit {instr : Instr} (straight : isStraight instr = true) (unmarked : instr.mark? = none)
    (reads : instr.reads ⊆ needs) : Prepares needs (Gen.emit instr) fun _ => [] where
  tidy _ := .emit unmarked
  safe names program before steps known assigned placed next := by
    have here := placed.head
    refine .straight here straight (fun op mem => assigned op (reads mem)) ?_
    have more := next (Set.subset_union_left (s := known) (t := assignedBy instr))
      (List.forall_mem_nil _)
    simpa [Gen.emit] using more

/-- A return reads at most what is assigned, and nothing comes after it. -/
theorem ret {ty : Ty} {value : Option Element}
    (reads : (Instr.ret ty value).reads ⊆ needs) :
    Prepares needs (Gen.emit (.ret ty value)) fun _ => [] where
  tidy _ := .emit rfl
  safe _ _ _ _ _ assigned placed _ :=
    .of_successors placed.head (fun op mem => assigned op (reads mem)) nofun

/-- A variable that was just drawn is assigned by the next instruction. -/
theorem assigned {draw : Gen Operand} {rhs : Rhs} (draws : ∀ names, Draws names draw)
    (reads : rhs.operands ⊆ needs) : Prepares needs (Gen.assigned draw rhs) fun op => [op] where
  tidy names := by
    have code : (Gen.assigned draw rhs names).code = [.set (draw names).value rhs] := by
      simp [Gen.assigned, (draws names).code, Gen.emit]
    refine ⟨(draws names).le, fun mark mem => ?_⟩
    simp [code, Instr.mark?, Instr.set] at mem
  safe names program before steps known ready placed next := by
    have code : (Gen.assigned draw rhs names).code = [.set (draw names).value rhs] := by
      simp [Gen.assigned, (draws names).code, Gen.emit]
    rw [code] at placed next
    refine .straight placed.head rfl (fun op mem => ready op (reads mem)) ?_
    have here := next (Set.subset_union_left (s := known)
      (t := assignedBy (.set (draw names).value rhs))) fun op mem _ => by
        rw [List.mem_singleton.mp mem]
        exact .inr rfl
    simpa using here

/-- A truth value made by control flow is assigned on both ways. -/
theorem chosen {cond : Rhs} {onTrue : Gen Element} (reads : cond.operands ⊆ needs)
    (h : Prepares needs onTrue Element.operands) :
    Prepares needs (chosen cond onTrue) Element.operands where
  tidy := tidy_chosen cond h.tidy
  safe names program before steps known ready placed next := by
    have branches := twoWay_chosen h.tidy placed
    rw [code_chosen] at next
    have le : names ≤ chosenNames names :=
      Names.le_trans (Names.le_advanceTemp _) (le_chosenNames names)
    have placedTrue := branches.inTrue le
      ((Label.below_advance names .onTrue).mono
        (Names.le_trans (Names.le_advanceTemp _) (Names.le_advance _ _)))
      (by simp [Instr.mark?, Instr.set])
    -- Both ways end with an assignment to the result.
    have finish : ∀ {more} value, known ⊆ more →
        Safe program steps (before ++ twoWay _ _ _ _ _).length
          (more ∪ assignedBy (.set ⟨names.nextTemp, .bool⟩ (.element value))) :=
      fun _ subset => next (subset.trans Set.subset_union_left) fun op mem _ => by
        rw [List.mem_singleton.mp mem]
        exact .inr rfl
    refine branches.safe_entry (fun op mem => ready op (reads mem)) ?_ ?_
    · refine .straight (branches.inFalse (Names.le_refl _)).head rfl (List.forall_mem_nil _) ?_
      have leave := branches.safe_leaveFalse (finish (.bool false) (subset_refl known))
      rwa [List.length_append] at leave
    · refine h.safe ready placedTrue.left fun more subset ready' => ?_
      have here := placedTrue.instrAt
      rw [← List.length_append] at here
      refine .straight here rfl ready' ?_
      have leave := branches.safe_leaveTrue (finish (onTrue (chosenNames names)).value subset)
      rwa [← List.append_assoc, List.length_append] at leave

/-! ### Rules of lowering -/

theorem store {rhs : Rhs} (ty : Ty) (reads : rhs.operands ⊆ needs) :
    Prepares needs (Gen.store rhs ty) Element.operands := by
  rw [Gen.store, Gen.assigned_bind]
  exact (Prepares.assigned (draws_temp · ty) reads).bind fun _ =>
    .pure (List.subset_append_left ..)

theorem settleAs {rhs : Rhs} (ty : Ty) (reads : rhs.operands ⊆ needs) :
    Prepares needs (Gen.settleAs ty rhs) Element.operands := by
  cases rhs with
  | element elem => exact .pure reads
  | _ => exact .store ty reads

theorem settle {gen : Gen Rhs} (h : Prepares needs gen Rhs.operands) :
    Prepares needs (gen >>= Gen.settle) Element.operands :=
  h.bind fun rhs => .settleAs rhs.ty (List.subset_append_left ..)

theorem toVariable {gen : Gen Element} (h : Prepares needs gen Element.operands) :
    Prepares needs (gen >>= Gen.toVariable) fun op => [op] := by
  refine h.bind fun elem => ?_
  cases elem with
  | operand op => exact .pure (List.subset_append_left ..)
  | literal lit => exact .assigned (draws_temp · lit.ty) (List.nil_subset _)

theorem inOrder {gens : List (Gen Element)}
    (h : ∀ gen ∈ gens, ∀ needs, Prepares needs gen Element.operands) :
    Prepares needs (Gen.inOrder gens) (List.flatMap Element.operands) := by
  induction gens generalizing needs with
  | nil => exact .pure (List.nil_subset _)
  | cons gen rest induction =>
      refine (h gen List.mem_cons_self needs).bind fun elem => ?_
      refine (induction fun gen mem => h gen (List.mem_cons_of_mem _ mem)).bind fun elems => ?_
      refine .pure fun op mem => ?_
      rw [List.flatMap_cons] at mem
      simp only [List.mem_append] at mem ⊢
      tauto

theorem construct (className : String) :
    Prepares needs (construct className) Element.operands := by
  rw [Lowering.construct, Gen.assigned_bind]
  refine (Prepares.assigned (draws_temp · _) (List.nil_subset _)).bind fun object => ?_
  refine Prepares.bind (.emit rfl rfl (List.subset_append_left ..)) fun _ => ?_
  exact .pure (List.subset_append_left ..)

theorem fill {array : Operand} {items : List (Gen Element)} {position : Nat}
    (h : ∀ item ∈ items, ∀ needs, Prepares needs item Element.operands) (mem : array ∈ needs) :
    Prepares needs (fill array position items) fun _ => [] := by
  induction items generalizing needs position with
  | nil => exact .pure (List.nil_subset _)
  | cons item rest induction =>
      refine (h item List.mem_cons_self needs).bind fun elem => ?_
      refine Prepares.bind (.emit rfl rfl fun op used => ?_) fun _ => ?_
      · rcases List.mem_cons.mp used with rfl | inside
        · exact List.mem_append_right _ mem
        · exact List.mem_append_left _ inside
      · exact induction (fun item inside => h item (List.mem_cons_of_mem _ inside))
          (List.mem_append_right _ (List.mem_append_right _ mem))

theorem pack (elemTy : Ty) {items : List (Gen Element)}
    (h : ∀ item ∈ items, ∀ needs, Prepares needs item Element.operands) :
    Prepares needs (pack elemTy items) Element.operands := by
  refine (Prepares.store _ (List.nil_subset _)).bind fun fresh => ?_
  split
  · exact .pure (List.subset_append_left ..)
  · simp only [monadLift_self]
    rw [Gen.assigned_bind]
    refine Prepares.bind (.assigned (draws_holder · _) (List.subset_append_left ..)) fun array => ?_
    refine (Prepares.fill h List.mem_cons_self).bind fun _ => ?_
    exact .pure (List.subset_append_left ..)

theorem cellOf {array index : Gen Element} (h : Prepares needs array Element.operands)
    (h' : ∀ needs, Prepares needs index Element.operands) :
    Prepares needs (cellOf array index) Cell.operands := by
  refine h.toVariable.bind fun base => (h' _).bind fun position => .pure fun op mem => ?_
  have either : op = base ∨ op ∈ position.operands := by
    simpa [Cell.operands, Cell.of] using mem
  simp only [List.mem_append, List.mem_singleton]
  tauto

/-- The variable that a call is made on. -/
def targetOperands : Target → List Operand
  | .object receiver => [receiver]
  | .className _ => []

theorem reach {scope : Scope} {receiver : Expr} {object : Gen Element} (method : String)
    (h : Dispatch.ofReceiver scope receiver = .onValue →
      Prepares needs object Element.operands) :
    Prepares needs (reach scope receiver object method)
      fun reached => targetOperands reached.target := by
  rw [Lowering.reach]
  cases rule : Dispatch.ofReceiver scope receiver with
  | onValue => exact (h rule).toVariable.bind fun _ => .pure (List.subset_append_left ..)
  | onClass name => exact .pure (List.nil_subset _)
  | assumed name => exact (Prepares.note _).bind fun _ => .pure (List.nil_subset _)

theorem passArgs (callee : Option MethodEntry) (argTys : List Source.Ty)
    {args : List (Gen Element)}
    (h : ∀ arg ∈ args, ∀ needs, Prepares needs arg Element.operands) :
    Prepares needs (passArgs callee argTys args) (List.flatMap Element.operands) := by
  rw [Lowering.passArgs]
  split
  · exact .inOrder h
  · refine (Prepares.inOrder fun gen mem => h gen (List.mem_of_mem_take mem)).bind fun direct => ?_
    refine (Prepares.pack _ fun gen mem => h gen (List.mem_of_mem_drop mem)).bind fun packed => ?_
    refine .pure fun op mem => ?_
    rw [List.flatMap_append, List.flatMap_singleton] at mem
    simp only [List.mem_append] at mem ⊢
    tauto

theorem invoke {scope : Scope} {receiver : Expr} {object : Gen Element} (method : String)
    (argTys : List Source.Ty) {args : List (Gen Element)} (otherRet : Ty)
    (h : Dispatch.ofReceiver scope receiver = .onValue → Prepares needs object Element.operands)
    (h' : ∀ arg ∈ args, ∀ needs, Prepares needs arg Element.operands) :
    Prepares needs (invoke scope receiver object method argTys args otherRet) Call.operands := by
  refine (Prepares.reach method h).bind fun reached => ?_
  refine (Prepares.passArgs _ argTys h').bind fun passed => .pure fun op mem => ?_
  have either : op ∈ targetOperands reached.target ∨ op ∈ passed.flatMap Element.operands :=
    List.mem_append.mp mem
  simp only [List.mem_append]
  tauto

end Prepares

/-! ## Expressions -/

section
variable {scope : Scope} {needs : List Operand}

/-- None of the variables of an expression has a name that lowering invents. -/
def Unreserved (scope : Scope) (expr : Expr) : Prop :=
  ∀ name ∈ variablesOf scope expr, ¬ Names.Reserved name

namespace Unreserved

theorem binary {op : Source.BinOp} {lhs rhs : Expr} {ty : Source.Ty}
    (h : Unreserved scope (.binary op lhs rhs ty)) :
    Unreserved scope lhs ∧ Unreserved scope rhs := by
  simpa only [Unreserved, variablesOf, List.forall_mem_append] using h

theorem index {array position : Expr} {ty : Source.Ty}
    (h : Unreserved scope (.index array position ty)) :
    Unreserved scope array ∧ Unreserved scope position := by
  simpa only [Unreserved, variablesOf, List.forall_mem_append] using h

theorem receiver {receiver : Expr} {method : String} {args : List Expr} {ty : Source.Ty}
    (h : Unreserved scope (.call receiver method args ty))
    (onValue : Dispatch.ofReceiver scope receiver = .onValue) : Unreserved scope receiver :=
  fun name mem => h name (by simp [variablesOf, namesClass, onValue, mem])

theorem args {receiver : Expr} {method : String} {args : List Expr} {ty : Source.Ty}
    (h : Unreserved scope (.call receiver method args ty)) :
    ∀ name ∈ variablesOfAll scope args, ¬ Names.Reserved name :=
  fun name mem => h name (by simp [variablesOf, mem])

end Unreserved

theorem prepares_readName {name : String} {ty : Source.Ty}
    (plain : Unreserved scope (.var name ty)) :
    Prepares needs (readName scope name (.ofSource ty)) Element.operands := by
  rw [readName]
  split
  · have receiver : Prepares (receiverOf scope :: needs)
        (Gen.store (.getField (receiverOf scope) ⟨name, .ofSource ty⟩) (.ofSource ty))
        Element.operands := .store _ (List.cons_subset_cons _ (List.nil_subset _))
    exact receiver.ofSource thisName_not_reserved
  · rename_i other
    have shown : ¬ Names.Reserved name := plain name (by simp [variablesOf, other])
    exact Prepares.ofSource (.pure (List.cons_subset_cons _ (List.nil_subset _))) shown

mutual

/-- Lowering an expression assigns the temporaries that stand for its value. -/
theorem prepares_compute : ∀ expr, Unreserved scope expr →
    ∀ needs, Prepares needs (compute scope expr) Rhs.operands
  | .int _ _, _, _ => .pure (List.nil_subset _)
  | .bool _ _, _, _ => .pure (List.nil_subset _)
  | .this _, _, _ =>
      Prepares.ofSource (.pure (List.cons_subset_cons _ (List.nil_subset _))) thisName_not_reserved
  | .var name ty, plain, _ => (prepares_readName plain).element
  | .binary (.arith op) lhs rhs ty, plain, needs => by
      have left := prepares_operand lhs plain.binary.1
      have right := prepares_operand rhs plain.binary.2
      refine (left needs).bind fun first => (right _).bind fun second => .pure fun op mem => ?_
      have either : op ∈ first.operands ∨ op ∈ second.operands := List.mem_append.mp mem
      simp only [List.mem_append]
      tauto
  | .binary .and lhs rhs ty, plain, needs => by
      have left := prepares_operand lhs plain.binary.1
      have right := prepares_operand rhs plain.binary.2
      exact .element ((left needs).bind fun _ =>
        .chosen (List.subset_append_left ..) (right _))
  | .binary .lt lhs rhs ty, plain, needs => by
      have left := prepares_operand lhs plain.binary.1
      have right := prepares_operand rhs plain.binary.2
      refine .element ((left needs).bind fun first => (right _).bind fun second => ?_)
      refine .chosen (fun op mem => ?_) (.pure (List.nil_subset _))
      have either : op ∈ first.operands ∨ op ∈ second.operands := List.mem_append.mp mem
      simp only [List.mem_append]
      tauto
  | .not inner _, plain, needs =>
      (prepares_operand inner plain needs).map fun _ => List.Subset.refl _
  | .paren inner _, plain, needs => (prepares_operand inner plain needs).element
  | .newObject className _, _, _ => (Prepares.construct className).element
  | .newArray _ size _, plain, needs =>
      (prepares_operand size plain needs).bind fun _ => .pure (List.subset_append_left ..)
  | .arrayInit items _, plain, _ =>
      (Prepares.pack _ (prepares_operandsOf items plain)).element
  | .index array position ty, plain, needs => by
      have base := prepares_operand array plain.index.1 needs
      have position := prepares_operand position plain.index.2
      exact (base.cellOf position).map fun _ => List.Subset.refl _
  | .length array _, plain, needs =>
      (prepares_operand array plain needs).toVariable.bind fun _ =>
        .element (.store _ (List.subset_append_left ..))
  | .call receiver method args ty, plain, needs => by
      have object : Dispatch.ofReceiver scope receiver = .onValue →
          Prepares needs (operand scope receiver) Element.operands :=
        fun onValue => prepares_operand receiver (plain.receiver onValue) needs
      have passed := prepares_operandsOf args plain.args
      refine (Prepares.invoke method _ _ object passed).bind fun call => ?_
      exact .element (.store _ (List.subset_append_left ..))

theorem prepares_operand : ∀ expr, Unreserved scope expr →
    ∀ needs, Prepares needs (operand scope expr) Element.operands
  | expr, plain, needs => (prepares_compute expr plain needs).settle

theorem prepares_operandsOf : ∀ exprs,
    (∀ name ∈ variablesOfAll scope exprs, ¬ Names.Reserved name) →
    ∀ gen ∈ operandsOf scope exprs, ∀ needs, Prepares needs gen Element.operands
  | [], _, _, mem => by cases mem
  | expr :: rest, plain, gen, mem => by
      rcases List.mem_cons.mp mem with rfl | mem
      · exact prepares_operand expr fun name mem => plain name (List.mem_append_left _ mem)
      · exact prepares_operandsOf rest (fun name mem => plain name (List.mem_append_right _ mem))
          gen mem

end

/-- The variables of a place that are read when something is stored there. -/
def placeOperands : Place → List Operand
  | .cell place => place.operands
  | .field object _ => [object]
  | .var _ | .literal _ => []

theorem prepares_target {left : Expr} (plain : Unreserved scope left) :
    Prepares needs (target scope left) placeOperands := by
  have evaluated : ∀ expr, Unreserved scope expr →
      Prepares needs (Place.ofElement <$> operand scope expr) placeOperands :=
    fun expr plain => (prepares_operand expr plain needs).map fun elem => by
      cases elem <;> exact List.nil_subset _
  cases left with
  | var name ty =>
      rw [target]
      split
      · exact Prepares.ofSource (.pure (List.cons_subset_cons _ (List.nil_subset _)))
          thisName_not_reserved
      · exact .pure (List.nil_subset _)
  | index array position ty =>
      have base := prepares_operand array plain.index.1 needs
      have position := prepares_operand position plain.index.2
      exact (base.cellOf position).map fun _ => List.Subset.refl _
  | _ => exact evaluated _ plain

theorem prepares_perform {expr : Expr} (plain : Unreserved scope expr) :
    Prepares needs (perform scope expr) fun _ => [] := by
  cases expr with
  | call receiver method args ty =>
      rw [perform, effect, ← operandsOf_eq_map, map_eq_pure_bind, bind_assoc]
      have object : Dispatch.ofReceiver scope receiver = .onValue →
          Prepares needs (operand scope receiver) Element.operands :=
        fun onValue => prepares_operand receiver (plain.receiver onValue) needs
      have passed := prepares_operandsOf args plain.args
      exact (Prepares.invoke method _ _ object passed).bind fun call =>
        .emit rfl rfl (List.subset_append_left ..)
  | _ =>
      have evaluated := prepares_operand _ plain needs
      rw [perform, effect, map_eq_pure_bind, bind_assoc]
      · exact evaluated.bind fun _ => .pure (List.nil_subset _)
      · intro _ _ _ _ isCall
        cases isCall

theorem prepares_leave {value : Option Expr} (plain : ∀ expr ∈ value, Unreserved scope expr) :
    Prepares needs (leave scope value) fun _ => [] := by
  cases value with
  | none => exact .ret (List.nil_subset _)
  | some expr =>
      rw [leave]
      split
      · exact .ret (List.nil_subset _)
      · refine (prepares_operand expr (plain expr rfl) needs).bind fun elem => .ret ?_
        simp [Instr.reads, Instr.operands]

end

/-! ## Statements -/

/-- Wherever some variables are assigned, the code of the attempt is safe if
what comes after it is. -/
structure Proceeds (needs : List Operand) (attempt : Attempt Unit) : Prop where
  tidy : Tidy attempt.run
  safe : ∀ ⦃names code after⦄, Gives attempt names () code after →
    ∀ ⦃program before steps known⦄, (∀ op ∈ needs, Assigned known op) →
      Placed program names before code →
      (∀ ⦃more⦄, known ⊆ more → Safe program steps (before ++ code).length more) →
      Safe program steps before.length known

namespace Proceeds

variable {needs : List Operand} {operands : α → List Operand}

theorem lift {gen : Gen Unit} (h : Prepares needs gen fun _ => []) :
    Proceeds needs (liftM gen) where
  tidy names := .lift (h.tidy names)
  safe names code after gives program before steps known assigned placed next := by
    obtain ⟨-, rfl, -⟩ := gives.lift
    exact h.safe assigned placed fun _ subset _ => next subset

theorem throw (error : CompileError) : Proceeds needs (MonadExcept.throw error) where
  tidy _ := .pure _
  safe _ _ _ gives := by cases gives.value_eq

theorem lift_bind {gen : Gen α} {next : α → Attempt Unit} (h : Prepares needs gen operands)
    (h' : ∀ value, Proceeds (operands value ++ needs) (next value)) :
    Proceeds needs (liftM gen >>= next) where
  tidy := by
    rw [run_lift_bind]
    exact h.tidy.bind fun value => (h' value).tidy
  safe names code after gives program before steps known assigned placed rest := by
    obtain ⟨code', gives', rfl⟩ := gives.lift_bind
    refine h.safe assigned placed.left fun more subset ready => ?_
    have placed' := placed.right (h.tidy names).1 fun mark mem => ((h.tidy names).2 mark mem).2
    refine (h' _).safe gives' (fun op mem => ?_) placed' fun last subset' => ?_
    · rcases List.mem_append.mp mem with mem | mem
      · exact ready op mem
      · exact (assigned op mem).mono subset
    · rw [List.append_assoc]
      exact rest (subset.trans subset')

theorem andThen {first second : Attempt Unit} (h : Proceeds needs first)
    (h' : Proceeds needs second) : Proceeds needs (do first; second) where
  tidy names := .attempt_bind (h.tidy names) fun _ => (h'.tidy.at (h.tidy names).1)
  safe names code after gives program before steps known assigned placed rest := by
    obtain ⟨_, code₁, between, code₂, gives₁, gives₂, rfl⟩ := gives.bind
    have placed' := placed.right (gives₁.le h.tidy)
      fun mark mem => (gives₁.within h.tidy mark mem).2
    refine h.safe gives₁ assigned placed.left fun more subset => ?_
    refine h'.safe gives₂ (fun op mem => (assigned op mem).mono subset) placed'
      fun last subset' => ?_
    rw [List.append_assoc]
    exact rest (subset.trans subset')

theorem conditional {cond : Gen Element} {thenBranch elseBranch : Attempt Unit}
    (h : Prepares needs cond Element.operands) (hthen : Proceeds needs thenBranch)
    (helse : Proceeds needs elseBranch) :
    Proceeds needs (conditional cond thenBranch elseBranch) where
  tidy := tidy_conditional h.tidy hthen.tidy helse.tidy
  safe names code after gives program before steps known assigned placed rest := by
    obtain ⟨elseCode, between, thenCode, givesElse, givesThen, rfl⟩ := gives_conditional gives
    obtain ⟨branches, inside⟩ := twoWay_conditional h.tidy hthen.tidy helse.tidy givesElse
      givesThen placed
    rw [← List.append_assoc] at rest
    refine h.safe assigned placed.left fun more subset ready => ?_
    have assigned' : ∀ op ∈ needs, Assigned more op :=
      fun op mem => (assigned op mem).mono subset
    refine branches.safe_entry ready ?_ ?_
    · exact helse.safe givesElse assigned' (branches.inFalse (Names.le_advance _ .thenBranch))
        fun last subset' => branches.safe_leaveFalse (rest (subset.trans subset'))
    · exact hthen.safe givesThen assigned' inside
        fun last subset' => branches.safe_leaveTrue (rest (subset.trans subset'))

/-- The body of a loop is safe for every number of steps, by induction on it: a
path that comes back to the start has fewer steps left. -/
theorem safe_body {cond : Gen Element} {body : Attempt Unit} {program before bodyCode : List Instr}
    {names names' between : Names} {entry : Rhs} {start done : Label}
    (h : Prepares needs cond Element.operands) (hbody : Proceeds needs body)
    (gives : Gives body names' () bodyCode between)
    (repeats : Loop program names before entry start done bodyCode (cond between).code
      (.element (cond between).value))
    (inBody : Placed program names' (before ++ loopHead entry start done) bodyCode)
    (inAgain : Placed program between (before ++ loopHead entry start done ++ bodyCode)
      (cond between).code) {steps : Nat} {known : Set String}
    (assigned : ∀ op ∈ needs, Assigned known op)
    (rest : ∀ ⦃more⦄, known ⊆ more → Safe program steps
      (before ++ loopCode entry start done bodyCode (cond between).code
        (.element (cond between).value)).length more) :
    Safe program steps (before ++ loopHead entry start done).length known := by
  induction steps generalizing known with
  | zero => trivial
  | succ steps induction =>
      refine hbody.safe gives assigned inBody fun more subset => ?_
      have assigned' : ∀ op ∈ needs, Assigned more op :=
        fun op mem => (assigned op mem).mono subset
      refine h.safe assigned' inAgain fun last subset' ready => ?_
      refine repeats.safe_again ready (rest (subset.trans subset')).pred ?_
      exact induction (fun op mem => (assigned' op mem).mono subset')
        fun after subset'' => (rest ((subset.trans subset').trans subset'')).pred

theorem loop {cond : Gen Element} {body : Attempt Unit}
    (h : Prepares needs cond Element.operands) (hbody : Proceeds needs body) :
    Proceeds needs (loop cond body) where
  tidy := tidy_loop h.tidy hbody.tidy
  safe names code after gives program before steps known assigned placed rest := by
    obtain ⟨bodyCode, between, givesBody, rfl, rfl⟩ := gives_loop gives
    obtain ⟨repeats, inBody, inAgain⟩ := loop_placed h.tidy hbody.tidy givesBody placed
    rw [← List.append_assoc] at rest
    refine h.safe assigned placed.left fun more subset ready => ?_
    refine repeats.safe_entry ready (rest subset) ?_
    exact safe_body h hbody givesBody repeats inBody inAgain
      (fun op mem => (assigned op mem).mono subset) fun last subset' => rest (subset.trans subset')

end Proceeds

section
variable {scope : Scope}

theorem proceeds_assignment {left right : Expr} (plain : Unreserved scope left)
    (plain' : Unreserved scope right) : Proceeds [] (assignment scope left right) := by
  refine .lift_bind (prepares_target plain) fun place => ?_
  refine .lift_bind (prepares_compute right plain' _) fun rhs => ?_
  cases place with
  | var op => exact .lift (.emit rfl rfl (List.subset_append_left ..))
  | cell cell =>
      refine .lift (.emit rfl rfl fun op mem => ?_)
      have either : op ∈ cell.operands ∨ op ∈ rhs.operands := List.mem_append.mp mem
      simp only [List.mem_append, placeOperands]
      tauto
  | field object field =>
      refine .lift_bind (.settleAs _ (List.subset_append_left ..)) fun elem => ?_
      refine .lift (.emit rfl rfl fun op mem => ?_)
      have either : op = object ∨ op ∈ elem.operands := List.mem_cons.mp mem
      simp only [List.mem_append, placeOperands, List.mem_singleton]
      tauto
  | literal lit => exact .throw _

mutual

/-- Lowered statements read no temporary before it is assigned. -/
theorem proceeds_lowerStmt : ∀ stmt,
    (∀ inner ∈ subStmts stmt, ∀ expr ∈ exprsOf inner, Unreserved scope expr) →
    Proceeds [] (lowerStmt scope stmt)
  | .assign left right, plain => by
      rw [lowerStmt_assign]
      exact proceeds_assignment (plain _ List.mem_cons_self left List.mem_cons_self)
        (plain _ List.mem_cons_self right (List.mem_cons_of_mem _ List.mem_cons_self))
  | .ifElse cond thenBranch elseBranch, plain => by
      rw [lowerStmt_ifElse]
      exact .conditional
        (prepares_operand cond (plain _ List.mem_cons_self cond List.mem_cons_self) _)
        (proceeds_lowerStmt thenBranch fun inner mem => plain inner (by simp [subStmts, mem]))
        (proceeds_lowerStmt elseBranch fun inner mem => plain inner (by simp [subStmts, mem]))
  | .whileLoop cond body, plain => by
      rw [lowerStmt_whileLoop]
      exact .loop (prepares_operand cond (plain _ List.mem_cons_self cond List.mem_cons_self) _)
        (proceeds_lowerStmt body fun inner mem => plain inner (List.mem_cons_of_mem _ mem))
  | .expr expr, plain => by
      rw [lowerStmt_expr]
      exact .lift (prepares_perform (plain _ List.mem_cons_self expr List.mem_cons_self))
  | .block stmts, plain => by
      rw [lowerStmt]
      exact proceeds_lowerStmts stmts fun inner mem => plain inner (List.mem_cons_of_mem _ mem)
  | .ret value, plain => by
      rw [lowerStmt_ret]
      exact .lift (prepares_leave fun expr mem =>
        plain _ List.mem_cons_self expr (Option.mem_toList.mpr mem))

theorem proceeds_lowerStmts : ∀ stmts,
    (∀ inner ∈ subStmtsOfAll stmts, ∀ expr ∈ exprsOf inner, Unreserved scope expr) →
    Proceeds [] (lowerStmts scope stmts)
  | [], _ => .lift (.pure (List.nil_subset _))
  | stmt :: rest, plain =>
      .andThen (proceeds_lowerStmt stmt fun inner mem => plain inner (List.mem_append_left _ mem))
        (proceeds_lowerStmts rest fun inner mem => plain inner (List.mem_append_right _ mem))

end

end

/-! ## Methods -/

/-- On every path through a lowered method, an instruction that reads a temporary
or a holder comes after one that assigns it.  No variable of the source may have
such a name. -/
theorem assigned_of_path {symbols : SymbolTable} {decl : MethodDecl} {entry : MethodEntry}
    {names : Names} {method : Method} (found : symbols.method? decl.name = some entry)
    (plain : ∀ stmt ∈ subStmtsOfAll decl.body, ∀ expr ∈ exprsOf stmt,
      ∀ name ∈ variablesOf ⟨symbols, entry⟩ expr, ¬ Names.Reserved name)
    (accepted : ((lowerMethod symbols decl).run names).value = .ok method)
    {passed : List Instr} {pc : Nat} {instr : Instr} (path : Path method.body passed pc)
    (here : method.body[pc]? = some instr) :
    ∀ op ∈ instr.reads, Names.Reserved op.name →
      ∃ earlier ∈ passed, earlier.written? = some op.name := by
  obtain ⟨code, after, gives, body⟩ := body_of_lowerMethod found accepted
  have placed : Placed method.body names [] code := ⟨⟨_, body⟩, by simp⟩
  have ends : ∀ steps known, Safe method.body steps ([] ++ code).length known := by
    intro steps known
    rw [body, closing]
    split
    · exact .of_successors (List.getElem?_concat_length ..) (List.forall_mem_nil _)
        (List.forall_mem_nil _)
    · cases steps with
      | zero => trivial
      | succ steps =>
          intro instr here
          simp at here
  have safe : ∀ steps, Safe method.body steps 0 ∅ := fun steps =>
    (proceeds_lowerStmts decl.body plain).safe gives (List.forall_mem_nil _) placed
      fun _ _ => ends steps _
  exact (Safe.path safe path 1 instr here).1

/-- The code of `climb`. -/
def climbCode : List Instr :=
  let test : Rhs := .binary .lt (.var "step" .int) (.int 2)
  [.branch test (.numbered .onTrue 0), .set ⟨"tmp0", .bool⟩ (.element (.bool false)),
    .goto (.numbered .join 0), .label (.numbered .onTrue 0),
    .set ⟨"tmp0", .bool⟩ (.element (.bool true)), .label (.numbered .join 0),
    .branch (.element (.var "tmp0" .bool)) (.numbered .loopBody 0), .goto (.numbered .loopEnd 0),
    .label (.numbered .loopBody 0),
    .set ⟨"step", .int⟩ (.binary (.arith .add) (.var "step" .int) (.int 1)),
    .branch test (.numbered .onTrue 1), .set ⟨"tmp1", .bool⟩ (.element (.bool false)),
    .goto (.numbered .join 1), .label (.numbered .onTrue 1),
    .set ⟨"tmp1", .bool⟩ (.element (.bool true)), .label (.numbered .join 1),
    .branch (.element (.var "tmp1" .bool)) (.numbered .loopBody 0),
    .label (.numbered .loopEnd 0), .ret .int (some (.var "step" .int))]

/-- A path through `climb` on which the test holds, the body runs, and the test
behind the body fails: the outcome of that test is read, and it was assigned. -/
theorem assigned_of_path_climb :
    ∃ method passed, ((lowerMethod climbSymbols climb).run .fresh).value = .ok method ∧
      method.body = climbCode ∧ Path climbCode passed 16 ∧ passed.length = 11 ∧
      (∀ op ∈ (Instr.branch (.element (.var "tmp1" .bool)) (.numbered .loopBody 0)).reads,
        Names.Reserved op.name → ∃ earlier ∈ passed, earlier.written? = some op.name) := by
  have code : ((lowerMethod climbSymbols climb).run .fresh).value.map Method.body =
      .ok climbCode := by
    decide +kernel
  have plain : ∀ stmt ∈ subStmtsOfAll climb.body, ∀ expr ∈ exprsOf stmt,
      ∀ name ∈ variablesOf ⟨climbSymbols, .ofDecl climb⟩ expr, ¬ Names.Reserved name := by
    have only : ∀ stmt ∈ subStmtsOfAll climb.body, ∀ expr ∈ exprsOf stmt,
        ∀ name ∈ variablesOf ⟨climbSymbols, .ofDecl climb⟩ expr, name = "step" := by
      decide
    intro stmt inside expr mem name used
    rw [only stmt inside expr mem name used]
    exact Names.not_reserved (by decide) (by decide)
  have atTrue : Path climbCode _ 3 := .step .start rfl (by decide)
  have atSet : Path climbCode _ 4 := atTrue.step rfl (by decide)
  have atJoin : Path climbCode _ 5 := atSet.step rfl (by decide)
  have atBranch : Path climbCode _ 6 := atJoin.step rfl (by decide)
  have atBody : Path climbCode _ 8 := atBranch.step rfl (by decide)
  have inBody : Path climbCode _ 9 := atBody.step rfl (by decide)
  have atTest : Path climbCode _ 10 := inBody.step rfl (by decide)
  have atFalse : Path climbCode _ 11 := atTest.step rfl (by decide)
  have atGoto : Path climbCode _ 12 := atFalse.step rfl (by decide)
  have atJoin' : Path climbCode _ 15 := atGoto.step rfl (by decide)
  have atEnd : Path climbCode _ 16 := atJoin'.step rfl (by decide)
  cases accepted : ((lowerMethod climbSymbols climb).run .fresh).value with
  | error error => rw [accepted] at code; cases code
  | ok method =>
      rw [accepted] at code
      have body : method.body = climbCode := Except.ok.inj code
      have here : method.body[16]? =
          some (.branch (.element (.var "tmp1" .bool)) (.numbered .loopBody 0)) := by
        rw [body]
        rfl
      exact ⟨method, _, rfl, body, atEnd, rfl,
        assigned_of_path rfl plain accepted (body.symm ▸ atEnd) here⟩

end MiniJava.Lowering
