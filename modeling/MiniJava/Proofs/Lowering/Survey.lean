import Mathlib.Data.List.Forall2
import MiniJava.Proofs.Lowering.Stmt

/-!
# Reading lowered code part by part

Many properties of lowered code are read off it from left to right: its jumps
and labels, the calls it makes, the variables it mentions.  What is read comes
from the syntax of what was lowered, construct by construct.

A *reading* says how the parts of what is read are put together (`Reading`).
It gives every expression and every statement a value, by one recursion over
the syntax.  A *survey* of a reading says what it means that code shows such a
value, with one rule for each way in which lowering puts code together
(`Survey`).  By one induction over the syntax, lowered code then shows the
value that its source has (`Survey.finds_compute`, `Survey.yields_lowerStmt`).

A rule about what comes after a generator may use how the value of that
generator came about.  This is how calls are read: when a call is written, all
of how it is made is known from the source (`Realizes`).
-/

namespace MiniJava

open Source (Expr Stmt Scope SymbolTable MethodDecl MethodEntry)
open Tac Semantics Lowering

/-! ## Calls -/

/-- The types of what is passed to a method: those of the arguments, where the
trailing ones may be collected in an array. -/
def passedTys (scope : Scope) (callee : Option MethodEntry) (args : List Expr) : List Ty :=
  match callee.bind fun entry => collected? entry (args.map Expr.ty) with
  | none => args.map (typeOf scope)
  | some (others, elemTy) => (args.take others).map (typeOf scope) ++ [.array (.ofSource elemTy)]

/-- A call in a source program. -/
structure CallSite where
  receiver : Expr
  method : String
  args : List Expr

namespace CallSite

/-- The method of the class under compilation that is called, if it is one. -/
def callee? (scope : Scope) (site : CallSite) : Option MethodEntry :=
  ownMethod? scope site.receiver (typeOf scope site.receiver) site.method

/-- How the method is selected. -/
def kind (scope : Scope) (site : CallSite) : CallKind :=
  if Dispatch.ofReceiver scope site.receiver = .onValue then .virtual else .static

end CallSite

/-- A call of the code is the one that the source asks for. -/
structure Realizes (scope : Scope) (site : CallSite) (call : Call) : Prop where
  method : call.method = site.method
  kind : call.kind = site.kind scope
  args : call.args.map Element.ty = passedTys scope (site.callee? scope) site.args
  ret : ∀ entry, site.callee? scope = some entry → call.ret = .ofSource entry.ret

namespace Lowering

theorem tys_inOrder (scope : Scope) : ∀ (exprs : List Expr) (names : Names),
    (Gen.inOrder (operandsOf scope exprs) names).value.map Element.ty = exprs.map (typeOf scope)
  | [], _ => rfl
  | expr :: rest, names => by
      show (operand scope expr names).value.ty :: _ = _
      rw [ty_operand, tys_inOrder scope rest, List.map_cons]

theorem tys_passArgs (scope : Scope) (callee : Option MethodEntry) (args : List Expr)
    (names : Names) :
    (passArgs callee (args.map Expr.ty) (operandsOf scope args) names).value.map Element.ty =
      passedTys scope callee args := by
  simp only [passArgs, passedTys, packing?_eq_collected?]
  cases callee.bind fun entry => collected? entry (args.map Expr.ty) with
  | none => exact tys_inOrder scope args names
  | some collected =>
      obtain ⟨others, elemTy⟩ := collected
      have direct := tys_inOrder scope (args.take others) names
      rw [operandsOf_eq_map, List.map_take, ← operandsOf_eq_map] at direct
      simp only [Gen.value_bind, Gen.pure_apply, List.map_append, direct, List.map_cons,
        List.map_nil, ty_pack]

/-- A lowered call is made the way its source determines. -/
theorem realizes_invoke (scope : Scope) (receiver : Expr) (method : String) (args : List Expr)
    (otherRet : Ty) (names : Names) :
    Realizes scope ⟨receiver, method, args⟩
      (invoke scope receiver (operand scope receiver) method (args.map Expr.ty)
        (operandsOf scope args) otherRet names).value where
  method := rfl
  kind := by
    show (reach scope receiver (operand scope receiver) method names).value.kind = _
    rw [reach, CallSite.kind]
    cases Dispatch.ofReceiver scope receiver with
    | onValue => rfl
    | onClass name => rfl
    | assumed name => rfl
  args := by
    have own := isOwn_reach names scope receiver (operand scope receiver) method
      (ty_operand scope receiver names)
    rw [CallSite.callee?, ownMethod?, ← own]
    exact tys_passArgs scope _ args _
  ret := by
    intro entry callee
    rw [ret_invoke names scope receiver _ method _ _ otherRet (ty_operand scope receiver names)]
    rw [CallSite.callee?] at callee
    rw [callee]

end Lowering

namespace Tac

/-- Whether a call runs a constructor. -/
def Call.isConstructor (call : Call) : Bool := call.kind = .special && call.method = "<init>"

def Rhs.call? : Rhs → Option Call
  | .call invocation => some invocation
  | _ => none

/-- Whether an instruction neither steers control nor makes a call of the
source. -/
def Instr.isPlain : Instr → Bool
  | .assign _ _ rhs => rhs.call?.isNone
  | .call invocation => invocation.isConstructor
  | .putField _ _ _ | .ret _ _ => true
  | .goto _ | .label _ | .branch _ _ => false

end Tac

/-- A computed expression is no call any more: its value is in a temporary. -/
theorem Lowering.call?_compute (scope : Scope) (expr : Expr) (names : Names) :
    (compute scope expr names).value.call? = none := by
  cases expr with
  | binary op lhs rhs ty => cases op <;> rfl
  | _ => rfl

/-! ## Readings -/

/-- The constructs that steer control by a pair of labels. -/
inductive Pair where
  /-- A conjunction or a comparison. -/
  | choice
  | loop
  | conditional
deriving DecidableEq, Repr

/-- How what is read off code is put together. -/
structure Reading (ι : Type) where
  /-- Code in which there is nothing to read. -/
  nothing : ι
  /-- One piece of code after another. -/
  andThen : ι → ι → ι
  call : CallSite → ι
  /-- Two pieces of code of which one runs. -/
  fork : Pair → ι → ι → ι
  /-- A piece of code that runs again and again. -/
  cycle : ι → ι
  nothing_andThen : ∀ x, andThen nothing x = x
  andThen_nothing : ∀ x, andThen x nothing = x
  andThen_assoc : ∀ x y z, andThen (andThen x y) z = andThen x (andThen y z)

namespace Reading

variable {ι : Type} (reading : Reading ι)

/-- Pieces of code from left to right. -/
def each : List ι → ι
  | [] => reading.nothing
  | first :: rest => reading.andThen first (each rest)

theorem each_append (first second : List ι) :
    reading.each (first ++ second) =
      reading.andThen (reading.each first) (reading.each second) := by
  induction first with
  | nil => rw [List.nil_append, each, reading.nothing_andThen]
  | cons head rest induction => rw [List.cons_append, each, induction, each, reading.andThen_assoc]

section
variable (scope : Scope)

mutual

/-- What is read off the code of an expression.  A receiver that is not a value
is not evaluated. -/
def expr : Expr → ι
  | .int _ _ | .bool _ _ | .this _ | .var _ _ | .newObject _ _ => reading.nothing
  | .binary (.arith _) lhs rhs _ => reading.andThen (expr lhs) (expr rhs)
  | .binary .and lhs rhs _ =>
      reading.andThen (expr lhs) (reading.fork .choice reading.nothing (expr rhs))
  | .binary .lt lhs rhs _ =>
      reading.andThen (expr lhs)
        (reading.andThen (expr rhs) (reading.fork .choice reading.nothing reading.nothing))
  | .not operand _ => expr operand
  | .paren inner _ => expr inner
  | .newArray _ size _ => expr size
  | .arrayInit items _ => reading.each (exprs items)
  | .index array position _ => reading.andThen (expr array) (expr position)
  | .length array _ => expr array
  | .call receiver method args _ =>
      reading.andThen
        (reading.andThen
          (if Dispatch.ofReceiver scope receiver = .onValue then expr receiver else reading.nothing)
          (reading.each (exprs args)))
        (reading.call ⟨receiver, method, args⟩)

def exprs : List Expr → List ι
  | [] => []
  | first :: rest => expr first :: exprs rest

end

/-- What is read before a call is made. -/
def parts (receiver : Expr) (args : List Expr) : ι :=
  reading.andThen
    (if Dispatch.ofReceiver scope receiver = .onValue then reading.expr scope receiver
      else reading.nothing)
    (reading.each (reading.exprs scope args))

/-- What is read before the value of an expression is at hand.  A call whose
value is not used is handed back and not yet made. -/
def before : Position → Expr → ι
  | .statement, .call receiver _ args _ => reading.parts scope receiver args
  | _, value => reading.expr scope value

mutual

/-- What is read off the code of a statement.  The condition of a loop is there
twice, and an expression that a method without result returns is not there. -/
def stmt : Stmt → ι
  | .assign target value => reading.andThen (reading.expr scope target) (reading.expr scope value)
  | .ifElse cond thenBranch elseBranch =>
      reading.andThen (reading.expr scope cond)
        (reading.fork .conditional (stmt elseBranch) (stmt thenBranch))
  | .whileLoop cond body =>
      reading.andThen (reading.expr scope cond)
        (reading.cycle (reading.andThen (stmt body) (reading.expr scope cond)))
  | .expr value => reading.expr scope value
  | .block body => stmts body
  | .ret none => reading.nothing
  | .ret (some value) =>
      if (resultTy scope).isVoid then reading.nothing else reading.expr scope value

def stmts : List Stmt → ι
  | [] => reading.nothing
  | first :: rest => reading.andThen (stmt first) (stmts rest)

end

end

/-- A property of readings that every construct keeps. -/
structure Keeps (P : ι → Prop) : Prop where
  nothing : P reading.nothing
  andThen : ∀ {x y}, P x → P y → P (reading.andThen x y)
  call : ∀ site, P (reading.call site)
  fork : ∀ pair {x y}, P x → P y → P (reading.fork pair x y)
  cycle : ∀ {x}, P x → P (reading.cycle x)

namespace Keeps

variable {reading : Reading ι} {P : ι → Prop}

theorem each (keeps : reading.Keeps P) :
    ∀ {values : List ι}, (∀ value ∈ values, P value) → P (reading.each values)
  | [], _ => keeps.nothing
  | _ :: _, h =>
      keeps.andThen (h _ List.mem_cons_self)
        (each keeps fun value hmem => h value (List.mem_cons_of_mem _ hmem))

mutual

theorem expr (keeps : reading.Keeps P) (scope : Scope) : ∀ value, P (reading.expr scope value)
  | .int _ _ | .bool _ _ | .this _ | .var _ _ | .newObject _ _ => keeps.nothing
  | .binary (.arith _) lhs rhs _ => keeps.andThen (expr keeps scope lhs) (expr keeps scope rhs)
  | .binary .and lhs rhs _ =>
      keeps.andThen (expr keeps scope lhs) (keeps.fork _ keeps.nothing (expr keeps scope rhs))
  | .binary .lt lhs rhs _ =>
      keeps.andThen (expr keeps scope lhs)
        (keeps.andThen (expr keeps scope rhs) (keeps.fork _ keeps.nothing keeps.nothing))
  | .not operand _ => expr keeps scope operand
  | .paren inner _ => expr keeps scope inner
  | .newArray _ size _ => expr keeps scope size
  | .arrayInit items _ => keeps.each (exprs keeps scope items)
  | .index array position _ =>
      keeps.andThen (expr keeps scope array) (expr keeps scope position)
  | .length array _ => expr keeps scope array
  | .call receiver _ args _ => by
      rw [Reading.expr]
      refine keeps.andThen (keeps.andThen ?_ (keeps.each (exprs keeps scope args))) (keeps.call _)
      split
      · exact expr keeps scope receiver
      · exact keeps.nothing

theorem exprs (keeps : reading.Keeps P) (scope : Scope) :
    ∀ values, ∀ value ∈ reading.exprs scope values, P value
  | [], _, hmem => by cases hmem
  | first :: rest, value, hmem => by
      rcases List.mem_cons.mp hmem with rfl | hmem
      · exact expr keeps scope first
      · exact exprs keeps scope rest value hmem

end

mutual

theorem stmt (keeps : reading.Keeps P) (scope : Scope) : ∀ body, P (reading.stmt scope body)
  | .assign target value => keeps.andThen (keeps.expr scope target) (keeps.expr scope value)
  | .ifElse cond thenBranch elseBranch =>
      keeps.andThen (keeps.expr scope cond)
        (keeps.fork _ (stmt keeps scope elseBranch) (stmt keeps scope thenBranch))
  | .whileLoop cond body =>
      keeps.andThen (keeps.expr scope cond)
        (keeps.cycle (keeps.andThen (stmt keeps scope body) (keeps.expr scope cond)))
  | .expr value => keeps.expr scope value
  | .block body => stmts keeps scope body
  | .ret none => keeps.nothing
  | .ret (some value) => by
      rw [Reading.stmt]
      split
      · exact keeps.nothing
      · exact keeps.expr scope value

theorem stmts (keeps : reading.Keeps P) (scope : Scope) : ∀ body, P (reading.stmts scope body)
  | [] => keeps.nothing
  | first :: rest => keeps.andThen (stmt keeps scope first) (stmts keeps scope rest)

end

end Keeps

end Reading

/-! ## Surveys -/

/-- Give a variable that was just drawn a value. -/
def Lowering.Gen.assigned (draw : Gen Operand) (rhs : Rhs) : Gen Operand := do
  let result ← draw
  Gen.emit (.set result rhs)
  return result

theorem Lowering.Gen.assigned_bind {α : Type} (draw : Gen Operand) (rhs : Rhs)
    (next : Operand → Gen α) :
    (do let result ← draw
        Gen.emit (.set result rhs)
        next result) = Gen.assigned draw rhs >>= next := by
  simp [Gen.assigned]

/-- What it means that code shows a value of a reading. -/
structure Survey (scope : Scope) {ι : Type} (reading : Reading ι) where
  /-- From every supply, the code of a generator shows the value. -/
  Finds : {α : Type} → Gen α → ι → Prop
  pure : ∀ {α : Type} (value : α), Finds (Pure.pure value) reading.nothing
  bind : ∀ {α β : Type} {first : Gen α} {next : α → Gen β} {x y : ι}, Finds first x →
    (∀ names, Finds (next (first names).value) y) → Finds (first >>= next) (reading.andThen x y)
  note : ∀ entry, Finds (Gen.note entry) reading.nothing
  emit : ∀ {instr : Instr}, instr.isPlain = true → Finds (Gen.emit instr) reading.nothing
  emitCall : ∀ {site : CallSite} {call : Call}, Realizes scope site call →
    Finds (Gen.emit (.call call)) (reading.call site)
  temp : ∀ {rhs : Rhs} (ty : Ty), rhs.call? = none →
    Finds (Gen.assigned (Gen.temp ty) rhs) reading.nothing
  tempCall : ∀ {site : CallSite} {call : Call} (ty : Ty), Realizes scope site call →
    Finds (Gen.assigned (Gen.temp ty) (.call call)) (reading.call site)
  holder : ∀ {rhs : Rhs} (ty : Ty), rhs.call? = none →
    Finds (Gen.assigned (Gen.holder ty) rhs) reading.nothing
  chosen : ∀ {cond : Rhs} {onTrue : Gen Element} {x : ι}, cond.call? = none → Finds onTrue x →
    Finds (chosen cond onTrue) (reading.fork .choice reading.nothing x)
  /-- If an attempt succeeds, its code shows the value. -/
  Yields : Attempt Unit → ι → Prop
  lift : ∀ {gen : Gen Unit} {x : ι}, Finds gen x → Yields (liftM gen) x
  throw : ∀ error x, Yields (MonadExcept.throw error) x
  lift_bind : ∀ {α : Type} {gen : Gen α} {next : α → Attempt Unit} {x y : ι}, Finds gen x →
    (∀ names, Yields (next (gen names).value) y) →
    Yields (liftM gen >>= next) (reading.andThen x y)
  andThen : ∀ {first second : Attempt Unit} {x y : ι}, Yields first x → Yields second y →
    Yields (do first; second) (reading.andThen x y)
  conditional : ∀ {cond : Gen Element} {thenBranch elseBranch : Attempt Unit} {x y z : ι},
    Finds cond x → Yields thenBranch y → Yields elseBranch z →
    Yields (conditional cond thenBranch elseBranch)
      (reading.andThen x (reading.fork .conditional z y))
  loop : ∀ {cond : Gen Element} {body : Attempt Unit} {x y : ι}, Finds cond x → Yields body y →
    Yields (loop cond body) (reading.andThen x (reading.cycle (reading.andThen y x)))

namespace Survey

variable {scope : Scope} {ι : Type} {reading : Reading ι} (survey : Survey scope reading)
  {α β : Type}

/-! ### Rules of lowering -/

/-- There is nothing to read in what comes next. -/
theorem bind_nothing {first : Gen α} {next : α → Gen β} {x : ι} (h : survey.Finds first x)
    (h' : ∀ names, survey.Finds (next (first names).value) reading.nothing) :
    survey.Finds (first >>= next) x := by
  have both := survey.bind h h'
  rwa [reading.andThen_nothing] at both

/-- There is nothing to read in what comes first. -/
theorem nothing_bind {first : Gen α} {next : α → Gen β} {y : ι}
    (h : survey.Finds first reading.nothing)
    (h' : ∀ names, survey.Finds (next (first names).value) y) :
    survey.Finds (first >>= next) y := by
  have both := survey.bind h h'
  rwa [reading.nothing_andThen] at both

theorem map {first : Gen α} {x : ι} (f : α → β) (h : survey.Finds first x) :
    survey.Finds (f <$> first) x := by
  rw [map_eq_pure_bind]
  exact survey.bind_nothing h fun _ => survey.pure _

theorem store {rhs : Rhs} (ty : Ty) (h : rhs.call? = none) :
    survey.Finds (Gen.store rhs ty) reading.nothing := by
  rw [Gen.store, Gen.assigned_bind]
  exact survey.bind_nothing (survey.temp ty h) fun _ => survey.pure _

theorem storeCall {site : CallSite} {call : Call} (ty : Ty) (h : Realizes scope site call) :
    survey.Finds (Gen.store (.call call) ty) (reading.call site) := by
  rw [Gen.store, Gen.assigned_bind]
  exact survey.bind_nothing (survey.tempCall ty h) fun _ => survey.pure _

theorem settleAs {rhs : Rhs} (ty : Ty) (h : rhs.call? = none) :
    survey.Finds (Gen.settleAs ty rhs) reading.nothing := by
  cases rhs with
  | element elem => exact survey.pure elem
  | _ => exact survey.store ty h

theorem settle {gen : Gen Rhs} {x : ι} (h : survey.Finds gen x)
    (plain : ∀ names, (gen names).value.call? = none) : survey.Finds (gen >>= Gen.settle) x :=
  survey.bind_nothing h fun names => survey.settleAs _ (plain names)

theorem toVariable (elem : Element) : survey.Finds (Gen.toVariable elem) reading.nothing := by
  cases elem with
  | operand op => exact survey.pure op
  | literal lit => exact survey.temp lit.ty rfl

theorem inOrder {gens : List (Gen α)} {values : List ι}
    (h : List.Forall₂ survey.Finds gens values) :
    survey.Finds (Gen.inOrder gens) (reading.each values) := by
  induction h with
  | nil => exact survey.pure []
  | cons first _ rest =>
      exact survey.bind first fun _ => survey.bind_nothing rest fun _ => survey.pure _

theorem readName (name : String) (ty : Ty) :
    survey.Finds (readName scope name ty) reading.nothing := by
  rw [Lowering.readName]
  split
  · exact survey.store ty rfl
  · exact survey.pure _

theorem construct (className : String) :
    survey.Finds (construct className) reading.nothing := by
  rw [Lowering.construct, Gen.assigned_bind]
  exact survey.nothing_bind (survey.temp _ rfl) fun _ =>
    survey.bind_nothing (survey.emit rfl) fun _ => survey.pure _

theorem fill (array : Operand) {items : List (Gen Element)} {values : List ι}
    (h : List.Forall₂ survey.Finds items values) (position : Nat) :
    survey.Finds (fill array position items) (reading.each values) := by
  induction h generalizing position with
  | nil => exact survey.pure ()
  | cons first _ rest =>
      exact survey.bind first fun _ => survey.nothing_bind (survey.emit rfl) fun _ =>
        rest (position + 1)

theorem pack (elemTy : Ty) {items : List (Gen Element)} {values : List ι}
    (h : List.Forall₂ survey.Finds items values) :
    survey.Finds (pack elemTy items) (reading.each values) := by
  refine survey.nothing_bind (survey.store _ rfl) fun names => ?_
  cases h with
  | nil => exact survey.pure _
  | cons first rest =>
      show survey.Finds (do
        let array ← Gen.holder (.array elemTy)
        Gen.emit (.set array _)
        Lowering.fill array 0 _
        return Element.operand array) _
      rw [Gen.assigned_bind]
      exact survey.nothing_bind (survey.holder _ rfl) fun _ =>
        survey.bind_nothing (survey.fill _ (.cons first rest) 0) fun _ => survey.pure _

theorem cellOf {array index : Gen Element} {x y : ι} (h : survey.Finds array x)
    (h' : survey.Finds index y) : survey.Finds (cellOf array index) (reading.andThen x y) :=
  survey.bind (survey.bind_nothing h fun _ => survey.toVariable _) fun _ =>
    survey.bind_nothing h' fun _ => survey.pure _

theorem reach (receiver : Expr) {object : Gen Element} (method : String) {x : ι}
    (h : survey.Finds object x) :
    survey.Finds (reach scope receiver object method)
      (if Dispatch.ofReceiver scope receiver = .onValue then x else reading.nothing) := by
  rw [Lowering.reach]
  cases Dispatch.ofReceiver scope receiver with
  | onValue =>
      exact survey.bind_nothing (survey.bind_nothing h fun _ => survey.toVariable _) fun _ =>
        survey.pure _
  | onClass name => exact survey.pure _
  | assumed name => exact survey.bind_nothing (survey.note _) fun _ => survey.pure _

theorem passArgs (callee : Option MethodEntry) (argTys : List Source.Ty)
    {args : List (Gen Element)} {values : List ι} (h : List.Forall₂ survey.Finds args values) :
    survey.Finds (passArgs callee argTys args) (reading.each values) := by
  rw [Lowering.passArgs]
  split
  · exact survey.inOrder h
  · rename_i fixed elemTy _
    rw [← List.take_append_drop fixed values, reading.each_append]
    exact survey.bind (survey.inOrder (List.forall₂_take fixed h)) fun _ =>
      survey.bind_nothing (survey.pack _ (List.forall₂_drop fixed h)) fun _ => survey.pure _

theorem invoke (receiver : Expr) {object : Gen Element} (method : String)
    (argTys : List Source.Ty) {args : List (Gen Element)} (otherRet : Ty) {x : ι} {values : List ι}
    (h : survey.Finds object x) (h' : List.Forall₂ survey.Finds args values) :
    survey.Finds (invoke scope receiver object method argTys args otherRet)
      (reading.andThen
        (if Dispatch.ofReceiver scope receiver = .onValue then x else reading.nothing)
        (reading.each values)) :=
  survey.bind (survey.reach receiver method h) fun _ =>
    survey.bind_nothing (survey.passArgs _ argTys h') fun _ => survey.pure _

/-! ### Expressions -/

mutual

/-- The code of an expression shows what is read off the expression. -/
theorem finds_compute (survey : Survey scope reading) :
    ∀ value, survey.Finds (compute scope value) (reading.expr scope value)
  | .int _ _ => survey.pure _
  | .bool _ _ => survey.pure _
  | .this _ => survey.pure _
  | .var name _ => survey.map _ (survey.readName name _)
  | .binary (.arith _) lhs rhs _ =>
      survey.bind (finds_operand survey lhs) fun _ =>
        survey.bind_nothing (finds_operand survey rhs) fun _ => survey.pure _
  | .binary .and lhs rhs _ =>
      survey.map _ (survey.bind (finds_operand survey lhs) fun _ =>
        survey.chosen rfl (finds_operand survey rhs))
  | .binary .lt lhs rhs _ =>
      survey.map _ (survey.bind (finds_operand survey lhs) fun _ =>
        survey.bind (finds_operand survey rhs) fun _ => survey.chosen rfl (survey.pure _))
  | .not operand _ => survey.map _ (finds_operand survey operand)
  | .paren inner _ => survey.map _ (finds_operand survey inner)
  | .newObject className _ => survey.map _ (survey.construct className)
  | .newArray _ size _ => survey.bind_nothing (finds_operand survey size) fun _ => survey.pure _
  | .arrayInit items _ => survey.map _ (survey.pack _ (finds_operandsOf survey items))
  | .index array position _ =>
      survey.map _ (survey.cellOf (finds_operand survey array) (finds_operand survey position))
  | .length array _ =>
      survey.bind_nothing
        (survey.bind_nothing (finds_operand survey array) fun _ => survey.toVariable _)
        fun _ => survey.map _ (survey.store _ rfl)
  | .call receiver method args _ =>
      survey.bind
        (survey.invoke receiver method _ _ (finds_operand survey receiver)
          (finds_operandsOf survey args))
        fun names => survey.map _
          (survey.storeCall _ (realizes_invoke scope receiver method args _ names))

theorem finds_operand (survey : Survey scope reading) :
    ∀ value, survey.Finds (operand scope value) (reading.expr scope value)
  | value => survey.settle (finds_compute survey value) (call?_compute scope value)

theorem finds_operandsOf (survey : Survey scope reading) :
    ∀ values, List.Forall₂ survey.Finds (operandsOf scope values) (reading.exprs scope values)
  | [] => .nil
  | first :: rest => .cons (finds_operand survey first) (finds_operandsOf survey rest)

end

theorem finds_target (value : Expr) :
    survey.Finds (target scope value) (reading.expr scope value) := by
  cases value with
  | var name ty =>
      rw [target, Reading.expr]
      split
      · exact survey.pure _
      · exact survey.pure _
  | index array position ty =>
      exact survey.map _
        (survey.cellOf (survey.finds_operand array) (survey.finds_operand position))
  | _ => exact survey.map _ (survey.finds_operand _)

theorem finds_effect (value : Expr) :
    survey.Finds (effect scope value) (reading.before scope .statement value) := by
  cases value with
  | call receiver method args ty =>
      rw [effect, ← operandsOf_eq_map]
      exact survey.map _ (survey.invoke receiver method _ _ (survey.finds_operand receiver)
        (survey.finds_operandsOf args))
  | _ => exact survey.map _ (survey.finds_operand _)

/-- The code of an expression in any position. -/
theorem finds_generate (position : Position) (value : Expr) :
    survey.Finds (generate scope position value) (reading.before scope position value) := by
  cases position with
  | operand => exact survey.map _ (survey.finds_operand value)
  | rhs => exact survey.map _ (survey.finds_compute value)
  | target => exact survey.map _ (survey.finds_target value)
  | statement => exact survey.map _ (survey.finds_effect value)

/-! ### Statements -/

theorem finds_perform (value : Expr) :
    survey.Finds (perform scope value) (reading.expr scope value) := by
  cases value with
  | call receiver method args ty =>
      rw [perform, effect, ← operandsOf_eq_map, map_eq_pure_bind, bind_assoc]
      exact survey.bind
        (survey.invoke receiver method _ _ (survey.finds_operand receiver)
          (survey.finds_operandsOf args))
        fun names => survey.emitCall (realizes_invoke scope receiver method args .void names)
  | _ => exact survey.bind_nothing (survey.finds_effect _) fun _ => survey.pure _

theorem finds_leave (value : Option Expr) :
    survey.Finds (leave scope value) (reading.stmt scope (.ret value)) := by
  cases value with
  | none => exact survey.emit rfl
  | some value =>
      rw [leave, Reading.stmt]
      split
      · exact survey.emit rfl
      · exact survey.bind_nothing (survey.finds_operand value) fun _ => survey.emit rfl

theorem yields_assignment (left right : Expr) :
    survey.Yields (assignment scope left right) (reading.stmt scope (.assign left right)) := by
  rw [Reading.stmt, ← reading.andThen_nothing (reading.expr scope right)]
  refine survey.lift_bind (survey.finds_target left) fun names => ?_
  refine survey.lift_bind (survey.finds_compute right) fun names' => ?_
  have plain := call?_compute scope right names'
  have stored : ∀ dest ty,
      (Instr.assign dest ty (compute scope right names').value).isPlain = true :=
    fun _ _ => by rw [Instr.isPlain, plain]; rfl
  cases (target scope left names).value with
  | var op => exact survey.lift (survey.emit (stored _ _))
  | cell cell => exact survey.lift (survey.emit (stored _ _))
  | field object field =>
      rw [← reading.nothing_andThen reading.nothing]
      exact survey.lift_bind (survey.settleAs field.ty plain) fun _ =>
        survey.lift (survey.emit rfl)
  | literal lit => exact survey.throw _ _

mutual

/-- The code of a statement shows what is read off the statement. -/
theorem yields_lowerStmt (survey : Survey scope reading) :
    ∀ body, survey.Yields (lowerStmt scope body) (reading.stmt scope body)
  | .assign left right => by
      rw [lowerStmt_assign]
      exact survey.yields_assignment left right
  | .ifElse cond thenBranch elseBranch => by
      rw [lowerStmt_ifElse, Reading.stmt]
      exact survey.conditional (survey.finds_operand cond) (yields_lowerStmt survey thenBranch)
        (yields_lowerStmt survey elseBranch)
  | .whileLoop cond body => by
      rw [lowerStmt_whileLoop, Reading.stmt]
      exact survey.loop (survey.finds_operand cond) (yields_lowerStmt survey body)
  | .expr value => by
      rw [lowerStmt_expr, Reading.stmt]
      exact survey.lift (survey.finds_perform value)
  | .block body => by
      rw [lowerStmt, Reading.stmt]
      exact yields_lowerStmts survey body
  | .ret value => by
      rw [lowerStmt_ret]
      exact survey.lift (survey.finds_leave value)

theorem yields_lowerStmts (survey : Survey scope reading) :
    ∀ body, survey.Yields (lowerStmts scope body) (reading.stmts scope body)
  | [] => survey.lift (survey.pure ())
  | first :: rest => survey.andThen (yields_lowerStmt survey first) (yields_lowerStmts survey rest)

end

end Survey

/-! ## Methods -/

namespace Lowering

/-- What a lowered method is made of. -/
structure LoweredMethod (symbols : SymbolTable) (decl : MethodDecl) (entry : MethodEntry)
    (names : Names) (code : List Instr) (after : Names) (method : Method) : Prop where
  found : symbols.method? decl.name = some entry
  gives : Gives (lowerStmts ⟨symbols, entry⟩ decl.body) names () code after
  name : method.name = decl.name
  isStatic : method.isStatic = decl.isStatic
  params : method.params = decl.params.map fun param => ⟨param.name, .ofSource param.ty⟩
  ret : method.ret = .ofSource entry.ret
  body : method.body = code ++ closing ⟨symbols, entry⟩ decl.body
  registers : method.registers = method.sequential

theorem loweredMethod_of_gives {symbols : SymbolTable} {decl : MethodDecl} {names after : Names}
    {method : Method} {code : List Instr}
    (gives : Gives (lowerMethod symbols decl) names method code after) :
    ∃ entry body, LoweredMethod symbols decl entry names body after method := by
  cases found : symbols.method? decl.name with
  | none =>
      simp only [lowerMethod, found] at gives
      cases gives.value_eq
  | some entry =>
      simp only [lowerMethod, found] at gives
      obtain ⟨_, gives₁, _⟩ := gives.lift_bind
      obtain ⟨body, _, between, _, captured, finished, _⟩ := gives₁.bind
      have same : between = after := finished.names_eq
      subst same
      rw [← Except.ok.inj finished.value_eq]
      exact ⟨entry, body, found, captured.capture, rfl, rfl, rfl, rfl, rfl, rfl⟩

/-- The methods of a class are lowered one after another. -/
theorem forall₂_of_lowerMethods {symbols : SymbolTable} :
    ∀ {decls : List MethodDecl} {names after : Names} {methods : List Method} {code : List Instr},
      Gives (lowerMethods symbols decls) names methods code after →
      List.Forall₂ (fun decl method => ∃ entry names code after,
        LoweredMethod symbols decl entry names code after method) decls methods
  | [], _, _, _, _, gives => by
      rw [← Except.ok.inj gives.value_eq]
      exact .nil
  | decl :: rest, _, _, _, _, gives => by
      obtain ⟨method, _, _, _, gives₁, gives₂, _⟩ := gives.bind
      obtain ⟨methods, _, _, _, gives₃, finished, _⟩ := gives₂.bind
      rw [← Except.ok.inj finished.value_eq]
      obtain ⟨entry, body, lowered⟩ := loweredMethod_of_gives gives₁
      exact .cons ⟨entry, _, body, _, lowered⟩ (forall₂_of_lowerMethods gives₃)

end Lowering

end MiniJava
