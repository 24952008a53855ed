import MiniJava.Lowering.Stmt

/-!
# Lowering an expression cannot fail

Two things could go wrong with an expression.  An operator on truth values could be
taken for arithmetic, and a field that waits for its value could be asked for it.
Neither happens: those operators have rules of their own, and only the left side of
an assignment leaves a field waiting, while parts are lowered as operands.

So lowering an expression is a generator, which has no errors.  `generate` says
which one, for every position, and `lowerExpr_eq` says that lowering is no more
than that.  Recursion is in `compute` alone, which lowers to the right-hand side of
an assignment; the other positions are variations on it.  All that is shown of
lowered code elsewhere is shown of these generators.

Statements are left with one error, that of an assignment to a literal
(`lowerStmt_assign`).
-/

namespace MiniJava.Lowering

open Source (Expr Stmt Scope MethodEntry)
open Tac Gen

/-! ## Expressions without errors -/

namespace Gen

/-- Bring an expression down to one variable or literal: a single one stays
as it is, anything else goes into a temporary of the given type. -/
def settleAs (ty : Ty) : Rhs → Gen Element
  | .element elem => pure elem
  | rhs => store rhs ty

/-- Bring an expression down to one variable or literal. -/
def settle (rhs : Rhs) : Gen Element := settleAs rhs.ty rhs

end Gen

mutual

/-- Lower an expression to the right-hand side of an assignment. -/
def compute (scope : Scope) : Expr → Gen Rhs
  | .int value _ => pure (.element (.int value))
  | .bool value _ => pure (.element (.bool value))
  | .this _ => pure (.element (.operand (receiverOf scope)))
  | .var name ty => .element <$> readName scope name (.ofSource ty)
  | .binary (.arith op) lhs rhs _ => do
      let left ← compute scope lhs >>= settle
      let right ← compute scope rhs >>= settle
      return .binary (.arith op) left right
  | .binary .and lhs rhs _ =>
      .element <$> conjunction (compute scope lhs >>= settle)
        (compute scope rhs >>= settle)
  | .binary .lt lhs rhs _ =>
      .element <$> comparison (compute scope lhs >>= settle)
        (compute scope rhs >>= settle)
  | .not operand _ => .not <$> (compute scope operand >>= settle)
  | .paren inner _ => .element <$> (compute scope inner >>= settle)
  | .newObject className _ => .element <$> construct className
  | .newArray elem size _ => do
      let size ← compute scope size >>= settle
      return .newArray size (.array (.ofSource elem))
  | .arrayInit items ty =>
      .element <$> pack (.ofSource ty.element) (operandsOf scope items)
  | .index array position _ =>
      .index <$> cellOf (compute scope array >>= settle)
        (compute scope position >>= settle)
  | .length array _ => do
      let base ← compute scope array >>= settle >>= toVariable
      .element <$> store (.length base) .int
  | .call receiver method args ty => do
      let call ← invoke scope receiver (compute scope receiver >>= settle)
        method (args.map Expr.ty) (operandsOf scope args) (.ofSource ty)
      .element <$> store (.call call) call.ret

/-- Lower each expression of a list to a variable or literal. -/
def operandsOf (scope : Scope) : List Expr → List (Gen Element)
  | [] => []
  | expr :: rest => (compute scope expr >>= settle) :: operandsOf scope rest

end

/-- Lower an expression to a variable or literal. -/
def operand (scope : Scope) (expr : Expr) : Gen Element :=
  compute scope expr >>= settle

/-- A list of operands is lowered one by one. -/
theorem operandsOf_eq_map (scope : Scope) (exprs : List Expr) :
    operandsOf scope exprs = exprs.map (operand scope) := by
  induction exprs with
  | nil => rfl
  | cons expr rest induction => simp [operandsOf, operand, induction]

/-! ## Other positions -/

/-- What the left side of an assignment denotes. -/
inductive Place where
  | var (op : Operand)
  | cell (place : Cell)
  | field (object field : Operand)
  /-- A literal denotes no place. -/
  | literal (lit : Literal)
deriving DecidableEq, Repr

/-- A variable or literal seen as a place. -/
def Place.ofElement : Element → Place
  | .operand op => .var op
  | .literal lit => .literal lit

/-- Lower the left side of an assignment.  Only a plain name of a field and an
array access are stored through; any other expression is evaluated, and its
variable is the place. -/
def target (scope : Scope) : Expr → Gen Place
  | .var name ty =>
      if scope.isField name then
        pure (.field (receiverOf scope) ⟨name, .ofSource ty⟩)
      else
        pure (.var ⟨name, .ofSource ty⟩)
  | .index array position _ =>
      .cell <$> cellOf (operand scope array) (operand scope position)
  | expr => .ofElement <$> operand scope expr

/-- Lower an expression whose value is not used.  A call is handed back to be
made without a result. -/
def effect (scope : Scope) : Expr → Gen (Element ⊕ Call)
  | .call receiver method args _ =>
      .inr <$> invoke scope receiver (operand scope receiver) method
        (args.map Expr.ty) (args.map (operand scope)) .void
  | expr => .inl <$> operand scope expr

namespace Lowered

/-- A right-hand side, where a variable or literal counts as a value. -/
def ofRhs : Rhs → Lowered
  | .element elem => .value elem
  | rhs => .bare rhs

/-- A place to assign to. -/
def ofPlace : Place → Lowered
  | .var op => .value (.operand op)
  | .cell place => .bare (.index place)
  | .field object field => .fieldStore object field
  | .literal lit => .value (.literal lit)

/-- A value, or a call that is left to be made. -/
def ofEffect : Element ⊕ Call → Lowered
  | .inl elem => .value elem
  | .inr call => .bare (.call call)

theorem ofPlace_ofElement (elem : Element) : ofPlace (.ofElement elem) = .value elem := by
  cases elem <;> rfl

end Lowered

/-- Lower an expression in the given position. -/
def generate (scope : Scope) (position : Position) (expr : Expr) : Gen Lowered :=
  match position with
  | .operand => .value <$> operand scope expr
  | .rhs => .ofRhs <$> compute scope expr
  | .target => .ofPlace <$> target scope expr
  | .statement => .ofEffect <$> effect scope expr

/-! ## Rules over parts that cannot fail -/

section
variable {n : Type → Type} [Monad n] [MonadLiftT Gen n] [LawfulMonadLiftT Gen n] {α : Type}

/-- Lifted actions in order are the actions in order, lifted. -/
theorem inOrder_liftM : ∀ gens : List (Gen α),
    inOrder (gens.map fun gen => (liftM gen : n α)) = liftM (inOrder gens)
  | [] => by rw [List.map_nil, inOrder, inOrder, liftM_pure]
  | gen :: rest => by
      rw [List.map_cons, inOrder, inOrder, inOrder_liftM rest]
      simp only [liftM_bind, liftM_pure]

/-- The labels and the temporary are drawn in the same order from either monad. -/
theorem chosen_liftM (cond : Rhs) (onTrue : Gen Element) :
    chosen cond (liftM onTrue : n Element) = liftM (chosen cond onTrue) := by
  simp only [chosen, liftM_bind, liftM_pure, monadLift_self]

theorem conjunction_liftM (lhs rhs : Gen Element) :
    conjunction (liftM lhs : n Element) (liftM rhs) = liftM (conjunction lhs rhs) := by
  simp only [conjunction, chosen_liftM, liftM_bind]

theorem comparison_liftM (lhs rhs : Gen Element) :
    comparison (liftM lhs : n Element) (liftM rhs) = liftM (comparison lhs rhs) := by
  simp only [comparison, ← chosen_liftM, liftM_bind, liftM_pure]

theorem fill_liftM (array : Operand) : ∀ (position : Nat) (items : List (Gen Element)),
    fill array position (items.map fun item => (liftM item : n Element)) =
      liftM (fill array position items)
  | _, [] => by rw [List.map_nil, fill, fill, liftM_pure]
  | position, item :: rest => by
      rw [List.map_cons, fill, fill, fill_liftM array (position + 1) rest]
      simp only [liftM_bind, monadLift_self]

/-- Packing looks at how many items there are, and a lift keeps their number. -/
theorem pack_liftM (elemTy : Ty) (items : List (Gen Element)) :
    pack elemTy (items.map fun item => (liftM item : n Element)) = liftM (pack elemTy items) := by
  simp only [pack, fill_liftM, List.length_map, List.isEmpty_map, liftM_bind, monadLift_self]
  congr 1
  funext fresh
  split
  · rw [liftM_pure]
  · simp only [liftM_bind, liftM_pure]

theorem cellOf_liftM (array index : Gen Element) :
    cellOf (liftM array : n Element) (liftM index) = liftM (cellOf array index) := by
  simp only [cellOf, liftM_bind, liftM_pure, monadLift_self]

/-- Dispatch is decided by the source, before anything is run. -/
theorem reach_liftM (scope : Scope) (receiver : Expr) (object : Gen Element) (method : String) :
    reach scope receiver (liftM object : n Element) method =
      liftM (reach scope receiver object method) := by
  rw [reach, reach]
  cases Dispatch.ofReceiver scope receiver with
  | onValue => simp only [liftM_bind, liftM_pure, monadLift_self]
  | onClass name => rw [liftM_pure]
  | assumed name => simp only [liftM_bind, liftM_pure, monadLift_self]

/-- The decision to pack is made by types, before anything is run. -/
theorem passArgs_liftM (callee : Option MethodEntry) (argTys : List Source.Ty)
    (args : List (Gen Element)) :
    passArgs callee argTys (args.map fun arg => (liftM arg : n Element)) =
      liftM (passArgs callee argTys args) := by
  rw [passArgs, passArgs]
  cases callee.bind fun entry => packing? entry argTys with
  | none => exact inOrder_liftM args
  | some packing =>
      simp only [← List.map_take, ← List.map_drop, inOrder_liftM, pack_liftM, liftM_bind,
        liftM_pure]

theorem invoke_liftM (scope : Scope) (receiver : Expr) (object : Gen Element) (method : String)
    (argTys : List Source.Ty) (args : List (Gen Element)) (otherRet : Ty) :
    invoke scope receiver (liftM object : n Element) method argTys
        (args.map fun arg => (liftM arg : n Element)) otherRet =
      liftM (invoke scope receiver object method argTys args otherRet) := by
  simp only [invoke, reach_liftM, passArgs_liftM, liftM_bind, liftM_pure]

end

/-! ## Lowering is generating -/

section
variable {scope : Scope} {position : Position} {expr : Expr}

/-- What is computed as a variable or literal needs no temporary. -/
theorem operand_of_element {gen : Gen Element} (computed : compute scope expr = .element <$> gen) :
    operand scope expr = gen := by
  rw [operand, computed]
  simp only [map_eq_pure_bind, bind_assoc, pure_bind, settle, settleAs, bind_pure]

/-- In this position an expression is lowered as an operand, unless it may stay
bare. -/
structure Ordinary (scope : Scope) (position : Position) (expr : Expr) : Prop where
  place : position = .target → target scope expr = .ofElement <$> operand scope expr
  unused : position = .statement → effect scope expr = .inl <$> operand scope expr

/-- An expression that is computed as an element is that element. -/
theorem Ordinary.generate_of_element (ordinary : Ordinary scope position expr)
    {gen : Gen Element} (computed : compute scope expr = .element <$> gen) :
    generate scope position expr = .value <$> gen := by
  have settled := operand_of_element computed
  cases position with
  | operand => rw [generate, settled]
  | rhs =>
      rw [generate, computed, Functor.map_map]
      rfl
  | target =>
      rw [generate, ordinary.place rfl, settled, Functor.map_map]
      exact congrArg (· <$> gen) (funext Lowered.ofPlace_ofElement)
  | statement =>
      rw [generate, ordinary.unused rfl, settled, Functor.map_map]
      rfl

/-- An expression at hand is left as it is. -/
theorem Ordinary.generate_of_pure (ordinary : Ordinary scope position expr) {elem : Element}
    (computed : compute scope expr = pure (.element elem)) :
    generate scope position expr = pure (.value elem) := by
  have mapped : compute scope expr = .element <$> (pure elem : Gen Element) := by
    rw [computed, map_pure]
  rw [ordinary.generate_of_element mapped, map_pure]

/-- Any other expression is left bare on the right of an assignment, and stored in a
temporary elsewhere. -/
theorem Ordinary.generate_of_rhs (ordinary : Ordinary scope position expr) {α : Type}
    {gen : Gen α} {form : α → Rhs} (computed : compute scope expr = form <$> gen)
    (other : ∀ a elem, form a ≠ .element elem) :
    generate scope position expr = gen >>= fun a => finish position (form a) := by
  have settles (a : α) : settle (form a) = store (form a) (form a).ty := by
    cases shape : form a with
    | element elem => exact absurd shape (other a elem)
    | _ => rfl
  have bare (a : α) : Lowered.ofRhs (form a) = .bare (form a) := by
    cases shape : form a with
    | element elem => exact absurd shape (other a elem)
    | _ => rfl
  have stored : operand scope expr = gen >>= fun a => store (form a) (form a).ty := by
    rw [operand, computed]
    simp only [map_eq_pure_bind, bind_assoc, pure_bind, settles]
  cases position with
  | operand =>
      rw [generate, stored, map_bind]
      rfl
  | rhs =>
      rw [generate, computed, Functor.map_map, map_eq_pure_bind]
      simp only [bare]
      rfl
  | target =>
      rw [generate, ordinary.place rfl, Functor.map_map, stored, map_bind]
      simp only [Lowered.ofPlace_ofElement]
      rfl
  | statement =>
      rw [generate, ordinary.unused rfl, Functor.map_map, stored, map_bind]
      rfl

end

/-- An operand is at hand. -/
theorem settled_liftM (expr : Expr) (gen : Gen Element) :
    settled expr (liftM (Lowered.value <$> gen)) = liftM gen := by
  simp only [settled, Lowered.toElement, liftM_map, bind_map_left, bind_pure]

/-- A field is read, except where its plain name is assigned to. -/
theorem lowerName_eq (scope : Scope) (position : Position) (name : String) (ty : Source.Ty) :
    lowerName scope position name (.ofSource ty) = generate scope position (.var name ty) := by
  by_cases left : position = .target
  · subst left
    rw [lowerName, readName, generate, target]
    cases scope.isField name with
    | true => rfl
    | false => rfl
  · have ordinary : Ordinary scope position (.var name ty) :=
      ⟨fun same => absurd same left, fun _ => rfl⟩
    rw [ordinary.generate_of_element rfl, lowerName]
    simp only [left, decide_false, Bool.and_false, Bool.false_eq_true, if_false]

theorem arithmetic_liftM (position : Position) (op : Arith) (lhs rhs : Gen Element) :
    arithmetic position (.arith op) (liftM lhs) (liftM rhs) = liftM (do
      let left ← lhs
      let right ← rhs
      finish position (.binary (.arith op) left right)) := by
  simp only [arithmetic, liftM_bind]

mutual

/-- Lowering an expression does not fail, and is given by a generator. -/
theorem lowerExpr_eq (scope : Scope) : ∀ (expr : Expr) (position : Position),
    lowerExpr scope position expr = liftM (generate scope position expr)
  | .int _ _, position => by
      rw [lowerExpr, Ordinary.generate_of_pure ⟨fun _ => rfl, fun _ => rfl⟩ rfl, liftM_pure]
  | .bool _ _, position => by
      rw [lowerExpr, Ordinary.generate_of_pure ⟨fun _ => rfl, fun _ => rfl⟩ rfl, liftM_pure]
  | .this _, position => by
      rw [lowerExpr, Ordinary.generate_of_pure ⟨fun _ => rfl, fun _ => rfl⟩ rfl, liftM_pure]
  | .var name ty, position => by rw [lowerExpr, lowerName_eq]
  | .binary .and lhs rhs _, position => by
      rw [Ordinary.generate_of_element ⟨fun _ => rfl, fun _ => rfl⟩ rfl, lowerExpr,
        settled_lowerExpr scope lhs, settled_lowerExpr scope rhs, conjunction_liftM, liftM_map]
      rfl
  | .binary .lt lhs rhs _, position => by
      rw [Ordinary.generate_of_element ⟨fun _ => rfl, fun _ => rfl⟩ rfl, lowerExpr,
        settled_lowerExpr scope lhs, settled_lowerExpr scope rhs, comparison_liftM, liftM_map]
      rfl
  | .binary (.arith op) lhs rhs ty, position => by
      have computed : compute scope (.binary (.arith op) lhs rhs ty) =
          (fun pair : Element × Element => .binary (.arith op) pair.1 pair.2) <$>
            (do return (← operand scope lhs, ← operand scope rhs)) := by
        simp only [compute, map_bind, map_pure]
        rfl
      rw [Ordinary.generate_of_rhs ⟨fun _ => rfl, fun _ => rfl⟩ computed nofun, lowerExpr,
        settled_lowerExpr scope lhs, settled_lowerExpr scope rhs, arithmetic_liftM]
      simp only [bind_assoc, pure_bind]
      · nofun
      · nofun
  | .not inner _, position => by
      rw [Ordinary.generate_of_rhs ⟨fun _ => rfl, fun _ => rfl⟩ rfl nofun, lowerExpr,
        settled_lowerExpr scope inner, liftM_bind]
      rfl
  | .paren inner _, position => by
      rw [Ordinary.generate_of_element ⟨fun _ => rfl, fun _ => rfl⟩ rfl, lowerExpr,
        lowerExpr_eq scope inner .operand]
      rfl
  | .newObject className _, position => by
      rw [Ordinary.generate_of_element ⟨fun _ => rfl, fun _ => rfl⟩ rfl, lowerExpr, liftM_map]
  | .newArray elem size ty, position => by
      have computed : compute scope (.newArray elem size ty) =
          (fun size => .newArray size (.array (.ofSource elem))) <$> operand scope size := by
        simp only [compute, map_eq_pure_bind]
        rfl
      rw [Ordinary.generate_of_rhs ⟨fun _ => rfl, fun _ => rfl⟩ computed nofun, lowerExpr,
        settled_lowerExpr scope size, liftM_bind]
  | .arrayInit items ty, position => by
      rw [Ordinary.generate_of_element ⟨fun _ => rfl, fun _ => rfl⟩ rfl, lowerExpr,
        lowerOperands_eq scope items, pack_liftM, liftM_map]
  | .index array offset ty, position => by
      rw [lowerExpr, settled_lowerExpr scope array, settled_lowerExpr scope offset, cellOf_liftM]
      by_cases left : position = .target
      · subst left
        rw [generate, target, Functor.map_map, liftM_map, map_eq_pure_bind]
        rfl
      · rw [Ordinary.generate_of_rhs ⟨fun same => absurd same left, fun _ => rfl⟩ rfl nofun,
          liftM_bind]
        simp only [left, if_false]
        rfl
  | .length array ty, position => by
      have computed : compute scope (.length array ty) = .element <$> (do
          let elem ← operand scope array
          let base ← toVariable elem
          store (.length base) .int) := by
        simp only [compute, operand, map_bind, bind_assoc]
      rw [Ordinary.generate_of_element ⟨fun _ => rfl, fun _ => rfl⟩ computed, lowerExpr,
        settled_lowerExpr scope array]
      simp only [map_bind, liftM_bind, liftM_map]
  | .call receiver method args ty, position => by
      rw [lowerExpr, settled_lowerExpr scope receiver, lowerOperands_eq scope args, invoke_liftM]
      by_cases unused : position = .statement
      · subst unused
        rw [generate, effect, ← operandsOf_eq_map, Functor.map_map, liftM_map, map_eq_pure_bind]
        rfl
      · have computed : compute scope (.call receiver method args ty) = .element <$> (do
            let call ← invoke scope receiver (operand scope receiver) method (args.map Expr.ty)
              (operandsOf scope args) (.ofSource ty)
            store (.call call) call.ret) := by
          rw [compute, map_bind]
          rfl
        rw [Ordinary.generate_of_element ⟨fun _ => rfl, fun same => absurd same unused⟩ computed]
        simp only [unused, if_false, map_bind, liftM_bind, liftM_map]

/-- A part is lowered as an operand, so no field is left waiting in it. -/
theorem settled_lowerExpr (scope : Scope) : ∀ expr : Expr,
    settled expr (lowerExpr scope .operand expr) = liftM (operand scope expr)
  | expr => by rw [lowerExpr_eq scope expr .operand, generate, settled_liftM]

theorem lowerOperands_eq (scope : Scope) : ∀ exprs : List Expr,
    lowerOperands scope exprs = (operandsOf scope exprs).map fun gen => liftM gen
  | [] => rfl
  | expr :: rest => by
      rw [lowerOperands, settled_lowerExpr scope expr, lowerOperands_eq scope rest]
      rfl

end

/-- Lowering to a variable or literal does not fail. -/
theorem lowerOperand_eq (scope : Scope) (expr : Expr) :
    lowerOperand scope expr = liftM (operand scope expr) :=
  settled_lowerExpr scope expr

/-! ## What an attempt does -/

section
variable {α β : Type}

/-- Code that is generated in any case. -/
theorem run_lift (gen : Gen α) : (liftM gen : Attempt α).run = Except.ok <$> gen := rfl

theorem run_lift_bind (gen : Gen α) (next : α → Attempt β) :
    (liftM gen >>= next).run = gen >>= fun value => (next value).run := by
  rw [ExceptT.run_bind, run_lift, map_eq_pure_bind, bind_assoc]
  rfl

end

/-- Lowering an expression succeeds with what is generated. -/
theorem run_lowerExpr (scope : Scope) (position : Position) (expr : Expr) (names : Names) :
    let out := generate scope position expr names
    (lowerExpr scope position expr).run names =
      ⟨.ok out.value, out.code, out.notes, out.names⟩ := by
  rw [lowerExpr_eq, run_lift, map_apply]

/-! ## Statements -/

/-- Store the value of an expression in the place that another one denotes. -/
def assignment (scope : Scope) (left right : Expr) : Attempt Unit := do
  let place ← target scope left
  let rhs ← compute scope right
  match place with
  | .var op => emit (.assign (.var op) (.ofSource left.ty) rhs)
  | .cell cell => emit (.assign (.cell cell) (.ofSource left.ty) rhs)
  | .field object field =>
      let value ← settleAs field.ty rhs
      emit (.putField object field value)
  | .literal lit => throw (.unsupported (.assignment lit))

/-- Run an expression for what it does. -/
def perform (scope : Scope) (expr : Expr) : Gen Unit := do
  match ← effect scope expr with
  | .inl _ => pure ()
  | .inr call => emit (.call call)

/-- Leave the method. -/
def leave (scope : Scope) : Option Expr → Gen Unit
  | none => emit (.ret (resultTy scope) none)
  | some expr =>
      if (resultTy scope).isVoid then
        emit (.ret (resultTy scope) none)
      else do
        let value ← operand scope expr
        emit (.ret (resultTy scope) (some value))

theorem toElement_ofRhs (ty : Ty) (rhs : Rhs) :
    (Lowered.ofRhs rhs).toElement ty = liftM (settleAs ty rhs) := by
  cases rhs <;> rfl

/-- The right side of an assignment always has a value. -/
theorem toRhs_ofRhs (rhs : Rhs) : (Lowered.ofRhs rhs).toRhs = pure rhs := by
  cases rhs <;> rfl

section
variable (scope : Scope)

/-- The right side of an assignment has a value, and its left side denotes a place
unless it is a literal. -/
theorem lowerStmt_assign (left right : Expr) :
    lowerStmt scope (.assign left right) = assignment scope left right := by
  simp only [lowerStmt, lowerAssign, lowerExpr_eq, generate, liftM_map, bind_map_left, assignment]
  congr 1
  funext place
  congr 1
  funext rhs
  cases place with
  | var op => simp only [Lowered.ofPlace, toRhs_ofRhs, pure_bind]
  | cell cell => simp only [Lowered.ofPlace, toRhs_ofRhs, pure_bind]
  | field object field => simp only [Lowered.ofPlace, toElement_ofRhs]
  | literal lit => rfl

theorem lowerStmt_ifElse (cond : Expr) (thenBranch elseBranch : Stmt) :
    lowerStmt scope (.ifElse cond thenBranch elseBranch) =
      conditional (operand scope cond) (lowerStmt scope thenBranch)
        (lowerStmt scope elseBranch) := by
  rw [lowerStmt, lowerOperand_eq]

theorem lowerStmt_whileLoop (cond : Expr) (body : Stmt) :
    lowerStmt scope (.whileLoop cond body) =
      loop (operand scope cond) (lowerStmt scope body) := by
  rw [lowerStmt, lowerOperand_eq]

theorem lowerStmt_expr (expr : Expr) :
    lowerStmt scope (.expr expr) = (perform scope expr : Attempt Unit) := by
  simp only [lowerStmt, lowerEffect, lowerExpr_eq, generate, liftM_map, bind_map_left, perform,
    liftM_bind]
  congr 1
  funext out
  cases out <;> rfl

theorem lowerStmt_ret (value : Option Expr) :
    lowerStmt scope (.ret value) = (leave scope value : Attempt Unit) := by
  cases value with
  | none => rfl
  | some expr =>
      rw [lowerStmt, lowerReturn, leave, lowerOperand_eq]
      split
      · rfl
      · rw [liftM_bind]

end

end MiniJava.Lowering
