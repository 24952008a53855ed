import MiniJava.Proofs.Lowering.Rules

/-!
# Lowered expressions do what expressions do

Each rule of lowering is matched with the rule of evaluation for the same
construct, given that the parts match; the induction over expressions then only
puts the rules together.  What is shown of generators is then true of lowering,
which succeeds with what they generate (`run_lowerExpr`).

The source has its own rule for the arguments that a variadic method collects.
Lowering packs the same ones (`packing?_eq_collected?`).

Two facts about three-address code carry the argument.  Operands are handed
back as names and read later: that they still hold their values is `Steady`,
because source variables are not reserved names, fields are copied to
temporaries at the moment they are read, and no temporary is handed out twice.
And the type of an operand is the one that the parts of the expression
determine (`ty_compute`), which decides how a call is made.
-/

namespace MiniJava.Lowering

open Source (Expr Scope MethodEntry)
open Tac Semantics

/-! ## The platform of lowered code -/

/-- The class that a call names. -/
def namedClass : Target → Option String
  | .className name => some name
  | .object _ => none

/-- Lowered code refers to methods and fields as source code does. -/
def sourcePlatform (oracle : Oracle Member String) (constant : String → Value) :
    Platform Member String where
  callee call := ⟨call.kind, namedClass call.target, call.method⟩
  field _ field := field.name
  className := id
  constant := constant
  oracle := oracle

/-! ## The types of lowered operands -/

section
variable (names : Names)

theorem ty_store (rhs : Rhs) (ty : Ty) : (Gen.store rhs ty names).value.ty = ty := rfl

theorem ty_settle (rhs : Rhs) : (Gen.settle rhs names).value.ty = rhs.ty := by
  cases rhs <;> rfl

theorem ty_toVariable (elem : Element) : (Gen.toVariable elem names).value.ty = elem.ty := by
  cases elem <;> rfl

theorem ty_readName (scope : Scope) (name : String) (ty : Ty) :
    (readName scope name ty names).value.ty = ty := by
  rw [readName]
  split <;> rfl

theorem ty_pack (elemTy : Ty) (items : List (Gen Element)) :
    (pack elemTy items names).value.ty = .array elemTy := by
  rw [pack, Gen.value_bind]
  split <;> rfl

/-- Whether a lowered call is made on the class under compilation is what the
types of the source determine. -/
theorem isOwn_reach (scope : Scope) (receiver : Expr) (object : Gen Element)
    (method : String) {ty : Ty} (hty : (object names).value.ty = ty) :
    (reach scope receiver object method names).value.isOwn = isOwn scope receiver ty := by
  subst hty
  rw [reach, isOwn]
  cases Dispatch.ofReceiver scope receiver with
  | onValue => simp [ty_toVariable]
  | onClass name => rfl
  | assumed name => rfl

/-- The result type of a lowered call. -/
theorem ret_invoke (scope : Scope) (receiver : Expr) (object : Gen Element) (method : String)
    (argTys : List Source.Ty) (args : List (Gen Element)) (otherRet : Ty) {ty : Ty}
    (hty : (object names).value.ty = ty) :
    (invoke scope receiver object method argTys args otherRet names).value.ret =
      match ownMethod? scope receiver ty method with
      | some entry => .ofSource entry.ret
      | none => otherRet := by
  rw [ownMethod?, ← isOwn_reach names scope receiver object method hty]
  rfl

end

/-- A lowered expression has the type that its parts determine. -/
theorem ty_compute (scope : Scope) : ∀ (expr : Expr) (names : Names),
    (compute scope expr names).value.ty = typeOf scope expr
  | .int _ _, _ => rfl
  | .bool _ _, _ => rfl
  | .this _, _ => rfl
  | .var name ty, names => by
      simp only [compute, Gen.map_apply, Rhs.ty, ty_readName, typeOf]
  | .binary (.arith _) _ _ _, _ => rfl
  | .binary .and _ _ _, _ => rfl
  | .binary .lt _ _ _, _ => rfl
  | .not _ _, _ => by simp only [compute, Gen.map_apply, Rhs.ty, typeOf]
  | .paren inner _, names => by
      simp only [compute, Gen.map_apply, Gen.value_bind, Rhs.ty, ty_settle, typeOf]
      exact ty_compute scope inner _
  | .newObject _ _, _ => rfl
  | .newArray _ _ _, _ => rfl
  | .arrayInit _ _, _ => by
      simp only [compute, Gen.map_apply, Rhs.ty, ty_pack, typeOf]
  | .index array _ _, names => by
      have base : ((compute scope array >>= Gen.settle >>= Gen.toVariable) names).value.ty =
          typeOf scope array := by
        rw [Gen.value_bind, ty_toVariable, Gen.value_bind, ty_settle, ty_compute scope array]
      exact congrArg (fun ty => ty.element?.getD .int) base
  | .length _ _, _ => rfl
  | .call receiver method args ty, names => by
      have receiverTy : ∀ names, ((compute scope receiver >>= Gen.settle) names).value.ty =
          typeOf scope receiver := by
        intro names
        rw [Gen.value_bind, ty_settle, ty_compute scope receiver]
      simp only [compute, Gen.value_bind, Gen.map_apply, Rhs.ty, ty_store, typeOf]
      exact ret_invoke _ _ _ _ _ _ _ _ (receiverTy _)

theorem ty_operand (scope : Scope) (expr : Expr) (names : Names) :
    (operand scope expr names).value.ty = typeOf scope expr := by
  rw [operand, Gen.value_bind, ty_settle, ty_compute]

/-! ## Calls -/

/-- A list ends behind its entry at a position. -/
theorem drop_eq_singleton_iff {α : Type} {entries : List α} {position : Nat} {last : α} :
    entries.drop position = [last] ↔
      entries.length = position + 1 ∧ entries[position]? = some last := by
  constructor
  · intro rest
    have count := congrArg List.length rest
    rw [List.length_drop, List.length_singleton] at count
    refine ⟨by omega, ?_⟩
    rw [← List.head?_drop, rest]
    rfl
  · rintro ⟨count, found⟩
    obtain ⟨inside, rfl⟩ := List.getElem?_eq_some_iff.mp found
    rw [List.drop_eq_getElem_cons inside, List.drop_eq_nil_of_le (Nat.le_of_eq count)]

/-- Only a variadic parameter collects arguments. -/
theorem collected?_eq (callee : MethodEntry) (argTys : List Source.Ty) :
    collected? callee argTys = callee.variadicTy?.bind fun ty =>
      if callee.fixedArity ≤ argTys.length ∧ argTys.drop callee.fixedArity ≠ [ty] then
        some (callee.fixedArity, ty.element)
      else none := by
  rw [collected?, MethodEntry.variadicTy?, MethodEntry.fixedArity, List.length_dropLast]
  cases callee.isVariadic with
  | false => rfl
  | true => cases callee.params.getLast? <;> rfl

/-- Lowering packs the arguments that the method collects. -/
theorem packing?_eq_collected? (callee : MethodEntry) (argTys : List Source.Ty) :
    packing? callee argTys = collected? callee argTys := by
  rw [packing?, collected?_eq]
  refine congrArg (callee.variadicTy?.bind ·) (funext fun ty => ?_)
  simp only [Bool.or_eq_true, Bool.and_eq_true, decide_eq_true_eq, ← drop_eq_singleton_iff]
  simp only [← Nat.not_lt, ne_eq, ← not_or, ite_not, or_comm]

section
variable {oracle : Oracle Member String} {constant : String → Value} {visible : Visible}
  {env : Env}

theorem simulates_construct (className : String) :
    Simulates (sourcePlatform oracle constant) visible env
      (readElement (sourcePlatform oracle constant)) (construct className)
      (do let object ← Exec.newObject className
          let _ ← Exec.invoke oracle ⟨.constructor, some object, []⟩
          return object) := by
  refine ⟨tidy_construct className, fun names store _ => ?_⟩
  have regroup : construct className =
      (do let result ← Gen.temp (.object className)
          Gen.emit (.set result (.new className))
          return id result) >>= fun result => do
        Gen.emit (.call ⟨.special, .object result, "<init>", [], .void⟩)
        return .operand result := by
    simp [construct]
  rw [regroup]
  have allocate : Lowers (sourcePlatform oracle constant) readVariable names store _ _ :=
    lowers_setNew (f := id) (draws_temp names (.object className)) (.new className)
      fun _ _ => rfl
  refine allocate.bind ?_ ?_ fun store' _ => ?_
  · exact fun _ => (TidyAt.temp _).bind ((TidyAt.emit rfl).bind (.pure _))
  · exact .bind (fun _ => .emit rfl) fun _ => .pure _
  · exact Lowers.emitThen (.pure allocate.steady fun _ => rfl) (.pure _) rfl rfl rfl

/-- Read what a call is made on. -/
def readReached (reached : Reached) (store : Store) :
    Effect (CallKind × Option String × Option Value) :=
  pure (reached.kind, namedClass reached.target, targetValue store reached.target)

variable (oracle constant) in
/-- Read the parts of a call. -/
def readCall (call : Call) (store : Store) : Effect (Request Member) :=
  pure ((sourcePlatform oracle constant).request store call)

theorem simulates_reach {scope : Scope} {receiver : Expr} {object : Gen Element}
    {value : Effect Value} (method : String) (tidy : Tidy object)
    (h : namesClass scope receiver = false →
      Simulates (sourcePlatform oracle constant) visible env
        (readElement (sourcePlatform oracle constant)) object value)
    (plain : ∀ name, Dispatch.ofReceiver scope receiver = .assumed name →
      receiver.varName?.isSome = true) :
    Simulates (sourcePlatform oracle constant) visible env readReached
      (reach scope receiver object method) (Semantics.reach scope receiver value) := by
  refine ⟨tidy_reach scope receiver method tidy, fun names store agrees => ?_⟩
  rw [namesClass] at h
  rw [reach, Semantics.reach]
  cases dispatch : Dispatch.ofReceiver scope receiver with
  | onValue =>
      rw [dispatch] at h
      refine ((h rfl).toVariable.bind (fun _ => .pure _) ?_).lowers names store agrees
      intro op names store _ steady
      refine .pure (fun _ _ _ frame => ?_) fun _ => rfl
      have same := Exec.pure_inj (steady frame)
      simp only [readReached, targetValue, same]
  | onClass name => exact .pure (fun _ _ _ _ => rfl) fun _ => rfl
  | assumed name =>
      -- A plain name is not evaluated.
      simp only [if_pos (plain name dispatch)]
      exact Lowers.note _ (.pure (fun _ _ _ _ => rfl) fun _ => rfl)

theorem simulates_passArgs (callee : Option MethodEntry) (argTys : List Source.Ty)
    {args : List (Gen Element)} {values : List (Effect Value)}
    (h : SimulatesEach (sourcePlatform oracle constant) visible env args values) :
    Simulates (sourcePlatform oracle constant) visible env
      (readElements (sourcePlatform oracle constant)) (passArgs callee argTys args)
      (Semantics.passArgs callee argTys values) := by
  simp only [passArgs, Semantics.passArgs, packing?_eq_collected?]
  cases callee.bind fun entry => collected? entry argTys with
  | none => exact simulates_inOrder h
  | some packing =>
      refine (simulates_inOrder (List.forall₂_take _ h)).bind₂
        (simulates_pack _ (List.forall₂_drop _ h)) (fun _ _ => .pure _) ?_
      intro direct packed names store _ steady steady'
      refine .pure (fun _ _ _ frame => ?_) fun _ => ?_
      · have same := steady frame
        have same' := steady' frame
        simp only [readElements, List.map_append, List.map_cons, List.map_nil] at same same' ⊢
        rw [same, same']
      · simp [readElements]

/-- Lowering the parts of a call gives the request that the call makes. -/
theorem simulates_invoke {scope : Scope} {receiver : Expr} {object : Gen Element}
    {value : Effect Value} (method : String) (argTys : List Source.Ty)
    {args : List (Gen Element)} {values : List (Effect Value)} (otherRet : Ty)
    (tidy : Tidy object) (ty : ∀ names, (object names).value.ty = typeOf scope receiver)
    (h : namesClass scope receiver = false →
      Simulates (sourcePlatform oracle constant) visible env
        (readElement (sourcePlatform oracle constant)) object value)
    (plain : ∀ name, Dispatch.ofReceiver scope receiver = .assumed name →
      receiver.varName?.isSome = true)
    (h' : SimulatesEach (sourcePlatform oracle constant) visible env args values) :
    Simulates (sourcePlatform oracle constant) visible env (readCall oracle constant)
      (invoke scope receiver object method argTys args otherRet)
      (request scope receiver value method argTys values) := by
  have tidies := SimulatesEach.tidy h'
  refine ⟨tidy_invoke scope receiver method argTys otherRet tidy tidies, ?_⟩
  intro names store agrees
  have reached := (simulates_reach method tidy h plain).lowers names store agrees
  refine reached.bind (tidy_reach scope receiver method tidy)
    ((tidy_passArgs _ argTys tidies).bind fun _ => .pure _) fun store' frame => ?_
  rw [isOwn_reach names scope receiver object method (ty names), readReached, pure_bind]
  have passed := (simulates_passArgs (ownMethod? scope receiver (typeOf scope receiver) method)
    argTys h').lowers (reach scope receiver object method names).names store' (agrees.frame frame)
  have le := (tidy_passArgs (ownMethod? scope receiver (typeOf scope receiver) method) argTys
    tidies (reach scope receiver object method names).names).1
  refine passed.bind (tidy_passArgs _ argTys tidies) (.pure _) fun store'' frame' => ?_
  have sameTarget := Exec.pure_inj (reached.steady frame')
  simp only [Prod.mk.injEq, true_and] at sameTarget
  refine .pure (fun _ _ _ later => ?_) fun _ => ?_
  · have sameTarget := Exec.pure_inj (reached.steady (later.mono le (Names.le_refl _)))
    have sameArgs := Exec.pure_inj (passed.steady later)
    simp only [Prod.mk.injEq, true_and] at sameTarget
    exact congrArg pure (congrArg₂ (Request.mk _) sameTarget sameArgs)
  · rw [← sameTarget]
    rfl

/-! ## Expressions -/

theorem simulates_readName {scope : Scope} {name : String}
    (h : scope.isField name = false → visible.shows name) (ty : Ty) :
    Simulates (sourcePlatform oracle constant) visible env
      (readElement (sourcePlatform oracle constant)) (readName scope name ty)
      (if scope.isField name then Exec.getField env.receiver name
        else pure (env.locals name)) := by
  refine ⟨tidy_readName scope name ty, fun names store agrees => ?_⟩
  rw [readName]
  cases field : scope.isField name with
  | true =>
      rw [← agrees.receiver]
      exact lowers_store _ ty
  | false =>
      have shown := h field
      refine .pure (fun _ _ _ frame => ?_) fun world => ?_
      · exact congrArg pure (frame name fun generated =>
          visible.apart name shown generated.reserved)
      · exact congrArg (fun value => (Except.ok value, world)) (agrees.locals name shown)

theorem simulates_element {elem : Element} {value : Value}
    (steady : ∀ names, Steady (readElement (sourcePlatform oracle constant)) elem names)
    (same : ∀ store, Agrees visible env store →
      (sourcePlatform oracle constant).element store elem = value) :
    Simulates (sourcePlatform oracle constant) visible env
      (readRhs (sourcePlatform oracle constant)) (pure (.element elem)) (pure value) :=
  .pure steady fun store agrees => congrArg pure (same store agrees)

mutual

/-- Lowering an expression gives code that evaluates it. -/
theorem simulates_compute (scope : Scope) : ∀ expr,
    (∀ name ∈ variablesOf scope expr, visible.shows name) →
    (∀ receiver ∈ assumedReceivers scope expr, receiver.varName?.isSome = true) →
    Simulates (sourcePlatform oracle constant) visible env
      (readRhs (sourcePlatform oracle constant)) (compute scope expr)
      (eval oracle scope env expr)
  | .int value _, _, _ => by
      rw [compute, eval]
      exact simulates_element (fun _ _ _ _ _ => rfl) fun store _ => element_int _ store value
  | .bool value _, _, _ => by
      rw [compute, eval]
      exact simulates_element (fun _ _ _ _ _ => rfl) fun store _ => element_bool _ store value
  | .this _, _, _ => by
      rw [compute, eval]
      refine simulates_element (fun _ _ _ _ frame => ?_) fun store agrees => agrees.receiver
      exact congrArg pure (frame thisName fun generated =>
        thisName_not_reserved generated.reserved)
  | .var name ty, shown, _ => by
      rw [compute, eval]
      refine (simulates_readName (fun field => shown name ?_) _).map fun _ _ => rfl
      rw [variablesOf, field]
      exact List.mem_cons_self
  | .binary (.arith op) lhs rhs _, shown, plain => by
      rw [variablesOf, List.forall_mem_append] at shown
      rw [assumedReceivers, List.forall_mem_append] at plain
      rw [compute, eval]
      exact simulates_arith op (simulates_compute scope lhs shown.1 plain.1).settle
        (simulates_compute scope rhs shown.2 plain.2).settle
  | .binary .and lhs rhs _, shown, plain => by
      rw [variablesOf, List.forall_mem_append] at shown
      rw [assumedReceivers, List.forall_mem_append] at plain
      rw [compute, eval]
      exact (simulates_conjunction (simulates_compute scope lhs shown.1 plain.1).settle
        (simulates_compute scope rhs shown.2 plain.2).settle).map fun _ _ => rfl
  | .binary .lt lhs rhs _, shown, plain => by
      rw [variablesOf, List.forall_mem_append] at shown
      rw [assumedReceivers, List.forall_mem_append] at plain
      rw [compute, eval]
      exact (simulates_comparison (simulates_compute scope lhs shown.1 plain.1).settle
        (simulates_compute scope rhs shown.2 plain.2).settle).map fun _ _ => rfl
  | .not operand _, shown, plain => by
      rw [variablesOf] at shown
      rw [assumedReceivers] at plain
      rw [compute, eval]
      exact (simulates_compute scope operand shown plain).settle.andThen fun _ _ => rfl
  | .paren inner _, shown, plain => by
      rw [variablesOf] at shown
      rw [assumedReceivers] at plain
      rw [compute, eval]
      exact (simulates_compute scope inner shown plain).settle.map fun _ _ => rfl
  | .newObject className _, _, _ => by
      rw [compute, eval]
      exact (simulates_construct className).map fun _ _ => rfl
  | .newArray elem size _, shown, plain => by
      rw [variablesOf] at shown
      rw [assumedReceivers] at plain
      rw [compute, eval, ← map_eq_pure_bind]
      exact (simulates_compute scope size shown plain).settle.andThen fun _ _ => rfl
  | .arrayInit items ty, shown, plain => by
      rw [variablesOf] at shown
      rw [assumedReceivers] at plain
      rw [compute, eval]
      exact (simulates_pack _ (simulates_operandsOf scope items shown plain)).map fun _ _ => rfl
  | .index array position _, shown, plain => by
      rw [variablesOf, List.forall_mem_append] at shown
      rw [assumedReceivers, List.forall_mem_append] at plain
      rw [compute, eval]
      exact simulates_cellOf (simulates_compute scope array shown.1 plain.1).settle
        (simulates_compute scope position shown.2 plain.2).settle fun _ _ => rfl
  | .length array _, shown, plain => by
      rw [variablesOf] at shown
      rw [assumedReceivers] at plain
      rw [compute, eval]
      refine (simulates_compute scope array shown plain).settle.toVariable.bind
        (fun _ => (tidy_store _ _).map _) ?_
      intro op names store _ _
      exact (lowers_store (.length op) .int).map fun _ => rfl
  | .call receiver method args ty, shown, plain => by
      rw [variablesOf, List.forall_mem_append] at shown
      rw [assumedReceivers, List.forall_mem_append, List.forall_mem_append] at plain
      rw [compute, eval]
      have object : namesClass scope receiver = false → _ := fun h =>
        (simulates_compute scope receiver (by simpa [h] using shown.1) plain.1.2).settle
      have each := simulates_operandsOf scope args shown.2 plain.2
      refine (simulates_invoke method _ _ (tidy_operand scope receiver)
        (ty_operand scope receiver) object ?_ each).bind (fun _ => (tidy_store _ _).map _) ?_
      · intro name dispatch
        exact plain.1.1 receiver (by simp [dispatch])
      · intro call names store _ _
        exact (lowers_store (.call call) call.ret).map fun _ => rfl

/-- Lowering a list of operands gives code for each of them. -/
theorem simulates_operandsOf (scope : Scope) : ∀ exprs,
    (∀ name ∈ variablesOfAll scope exprs, visible.shows name) →
    (∀ receiver ∈ assumedReceiversOfAll scope exprs, receiver.varName?.isSome = true) →
    SimulatesEach (sourcePlatform oracle constant) visible env (operandsOf scope exprs)
      (evalEach oracle scope env exprs)
  | [], _, _ => by
      rw [operandsOf, evalEach]
      exact .nil
  | expr :: rest, shown, plain => by
      rw [variablesOfAll, List.forall_mem_append] at shown
      rw [assumedReceiversOfAll, List.forall_mem_append] at plain
      rw [operandsOf, evalEach]
      exact .cons (simulates_compute scope expr shown.1 plain.1).settle
        (simulates_operandsOf scope rest shown.2 plain.2)

end

theorem simulates_operand (scope : Scope) {expr : Expr}
    (shown : ∀ name ∈ variablesOf scope expr, visible.shows name)
    (plain : ∀ receiver ∈ assumedReceivers scope expr, receiver.varName?.isSome = true) :
    Simulates (sourcePlatform oracle constant) visible env
      (readElement (sourcePlatform oracle constant)) (operand scope expr)
      (eval oracle scope env expr) :=
  (simulates_compute scope expr shown plain).settle

/-! ## All positions -/

/-- What is left to do with an expression.  The value of a place is what it
holds. -/
def lowered (platform : Platform Member String) (out : Lowered) (store : Store) :
    Effect Value :=
  match out with
  | .value elem => pure (platform.element store elem)
  | .bare rhs => platform.rhs store rhs
  | .fieldStore object field =>
      Exec.getField (store object.name) (platform.field object field)

theorem lowered_ofRhs (platform : Platform Member String) (rhs : Rhs) (store : Store) :
    lowered platform (.ofRhs rhs) store = platform.rhs store rhs := by
  cases rhs <;> rfl

/-- An expression that is lowered for its effect. -/
theorem simulates_effect (scope : Scope) {expr : Expr}
    (shown : ∀ name ∈ variablesOf scope expr, visible.shows name)
    (plain : ∀ receiver ∈ assumedReceivers scope expr, receiver.varName?.isSome = true) :
    Simulates (sourcePlatform oracle constant) visible env
      (fun out store => lowered (sourcePlatform oracle constant) (.ofEffect out) store)
      (effect scope expr) (eval oracle scope env expr) := by
  cases expr with
  | call receiver method args ty =>
      rw [variablesOf, List.forall_mem_append] at shown
      rw [assumedReceivers, List.forall_mem_append, List.forall_mem_append] at plain
      rw [effect, eval, ← operandsOf_eq_map]
      refine (simulates_invoke method _ _ (tidy_operand scope receiver)
        (ty_operand scope receiver) (fun h => ?_) (fun name dispatch => ?_)
        (simulates_operandsOf scope args shown.2 plain.2)).andThen fun _ _ => rfl
      · exact simulates_operand scope (by simpa [h] using shown.1) plain.1.2
      · exact plain.1.1 receiver (by simp [dispatch])
  | _ => exact (simulates_operand scope shown plain).map fun _ _ => rfl

/-- In every position but that of a place, lowering gives code that evaluates
the expression. -/
theorem simulates_generate (scope : Scope) {position : Position} {expr : Expr}
    (value : position ≠ .target)
    (shown : ∀ name ∈ variablesOf scope expr, visible.shows name)
    (plain : ∀ receiver ∈ assumedReceivers scope expr, receiver.varName?.isSome = true) :
    Simulates (sourcePlatform oracle constant) visible env
      (lowered (sourcePlatform oracle constant)) (generate scope position expr)
      (eval oracle scope env expr) := by
  cases position with
  | operand => exact (simulates_operand scope shown plain).map fun _ _ => rfl
  | rhs =>
      exact (simulates_compute scope expr shown plain).map fun _ _ => lowered_ofRhs _ _ _
  | target => exact absurd rfl value
  | statement => exact (simulates_effect scope shown plain).map fun _ _ => rfl

end

/-- The variables of which an expression must not have any: those that lowering
may invent. -/
def unreserved : Visible where
  shows name := ¬ Names.Reserved name
  apart _ h := h

/-- Lowering an expression preserves its value, its effects and their order.
It succeeds.  The code runs to its end, and what is left evaluates to what the
expression does; or it stops with the fault of the expression, in the same world.
Only variables handed out on the way are changed. -/
theorem eval_of_lowerExpr (oracle : Oracle Member String) (constant : String → Value)
    (scope : Scope) (position : Position) (expr : Expr) (names : Names)
    (value : position ≠ .target)
    (apart : ∀ name ∈ variablesOf scope expr, ¬ Names.Reserved name)
    (plain : ∀ receiver ∈ assumedReceivers scope expr, receiver.varName?.isSome = true)
    (store : Store) (world : World Member String) :
    let platform := sourcePlatform oracle constant
    let out := (lowerExpr scope position expr).run names
    let result := eval oracle scope ⟨store thisName, store⟩ expr world
    ∃ left last, out.value = .ok left ∧ Steps platform out.code ⟨0, store, world⟩ last ∧
      (∀ name, ¬ Names.Generated names out.names name → last.store name = store name) ∧
      ((last.pc = out.code.length ∧ lowered platform left last.store last.world = result) ∨
        ∃ fault after, step platform out.code last = .failed fault after ∧
          result = (.error fault, after)) := by
  intro platform out result
  have total : out = _ := run_lowerExpr scope position expr names
  rw [total]
  let written := (generate scope position expr names).code
  have agrees : Agrees unreserved ⟨store thisName, store⟩ store := ⟨rfl, fun _ _ => rfl⟩
  have simulates : Simulates platform unreserved ⟨store thisName, store⟩ (lowered platform)
      (generate scope position expr) (eval oracle scope ⟨store thisName, store⟩ expr) :=
    simulates_generate scope value apart plain
  have lowers := simulates.lowers names store agrees
  have placed : Placed written names [] written := ⟨⟨[], by simp⟩, by simp⟩
  obtain ⟨last, steps, ⟨here, frame, same⟩ | ⟨fault, after, failed, frame, same⟩⟩ :=
    lowers.runs written [] world placed
  · exact ⟨_, last, rfl, steps, frame, .inl ⟨here, same⟩⟩
  · exact ⟨_, last, rfl, steps, frame, .inr ⟨fault, after, failed, same⟩⟩

/-- A class with one field, and a method of it with one parameter.  Another method
is variadic. -/
def counterScope : Scope where
  symbols :=
    { className := "Counter", superName := none, imports := [],
      fields := .ofList Source.Var.name [⟨"count", .int⟩],
      methods := .ofList MethodEntry.name
        [{ name := "sum", isStatic := false, isVariadic := true, ret := .int,
           params := [⟨"start", .int⟩, ⟨"steps", .arrayOf "int"⟩], locals := [] }] }
  method :=
    { name := "bump", isStatic := false, isVariadic := false, ret := .int,
      params := [⟨"step", .int⟩], locals := [] }

/-- The expression `this.sum(1, step, count) < count && Io.ready(step)`. -/
def readyToBump : Expr :=
  .binaryOf .and
    (.binaryOf .lt
      (.call (.this (.object "Counter")) "sum"
        [.int 1 .int, .var "step" .int, .var "count" .int] .int)
      (.var "count" .int))
    (.call (.var "Io" (.object "Io")) "ready" [.var "step" .int] .boolean)

theorem eval_of_lowerExpr_readyToBump :
    let platform := sourcePlatform (fun _ heap => (.ok (.int 1), heap)) fun _ => .null
    let store : Store := Function.update (fun _ => .int 3) thisName (.ref 0)
    let out := (lowerExpr counterScope .rhs readyToBump).run .fresh
    let result := eval platform.oracle counterScope ⟨.ref 0, store⟩ readyToBump default
    ∃ left last, out.value = .ok left ∧ Steps platform out.code ⟨0, store, default⟩ last ∧
      (∀ name, ¬ Names.Generated .fresh out.names name → last.store name = store name) ∧
      ((last.pc = out.code.length ∧ lowered platform left last.store last.world = result) ∨
        ∃ fault after, step platform out.code last = .failed fault after ∧
          result = (.error fault, after)) := by
  refine eval_of_lowerExpr _ _ counterScope .rhs readyToBump .fresh (by decide) ?_ ?_ _ _
  · have mentioned : variablesOf counterScope readyToBump = ["step", "step"] := by decide
    rw [mentioned]
    intro name hmem
    have same : name = "step" := by simpa using hmem
    subst same
    exact Names.not_reserved (by decide) (by decide)
  · have receivers : assumedReceivers counterScope readyToBump =
        [.var "Io" (.object "Io")] := by rfl
    rw [receivers]
    simp [Expr.varName?]

end MiniJava.Lowering
