import MiniJava.Proofs.Annotation
import MiniJava.Proofs.Lowering.Inventory

/-!
# Lowering preserves types

In a well-typed method (`WellTyped`) annotations are honest, operands have the
types that their operators ask for, and what is stored somewhere has the type of
the place.  Lowering such a method gives well-typed code (`Instr.Typed`): an
assignment, its destination and its right-hand side have one type, branches test
truth values, comparisons compare integers, cells belong to arrays of their
type, fields and results have the declared types.  Whatever stands for an
expression in that code has the type that the annotation of the expression
denotes.
-/

namespace MiniJava

open Source (Expr Stmt Scope SymbolTable MethodDecl MethodEntry Var)
open Tac Semantics Lowering

/-! ## Well-typed methods -/

/-- The names that do not stand for classes. -/
def predefinedNames : List String := ["int", "boolean", "void", "String"]

/-- The parts of an expression have the types that its form asks for. -/
def Fitting (scope : Scope) : Expr → Prop
  | .binary (.arith _) lhs rhs _ => lhs.ty = .int ∧ rhs.ty = .int
  | .binary .lt lhs rhs _ => lhs.ty = .int ∧ rhs.ty = .int
  | .binary .and lhs rhs _ => lhs.ty = .boolean ∧ rhs.ty = .boolean
  | .not inner _ => inner.ty = .boolean
  | .newObject className _ => className ∉ predefinedNames
  | .newArray elem _ _ => elem.isArray = false
  | .arrayInit items ty => ∀ item ∈ items, item.ty = ty.element
  | .index array _ _ => array.ty.isArray = true
  | .length array _ => array.ty.isArray = true
  | .call receiver method args _ =>
      ∀ entry ∈ declaredMethod? scope receiver method,
        ∀ way ∈ collected? entry (args.map Expr.ty), ∀ arg ∈ args.drop way.1, arg.ty = way.2
  | _ => True

instance (scope : Scope) : DecidablePred (Fitting scope)
  | .binary (.arith _) lhs rhs _ => inferInstanceAs (Decidable (lhs.ty = .int ∧ rhs.ty = .int))
  | .binary .lt lhs rhs _ => inferInstanceAs (Decidable (lhs.ty = .int ∧ rhs.ty = .int))
  | .binary .and lhs rhs _ =>
      inferInstanceAs (Decidable (lhs.ty = .boolean ∧ rhs.ty = .boolean))
  | .not inner _ => inferInstanceAs (Decidable (inner.ty = .boolean))
  | .newObject className _ => inferInstanceAs (Decidable (className ∉ predefinedNames))
  | .newArray elem _ _ => inferInstanceAs (Decidable (elem.isArray = false))
  | .arrayInit items ty => inferInstanceAs (Decidable (∀ item ∈ items, item.ty = ty.element))
  | .index array _ _ => inferInstanceAs (Decidable (array.ty.isArray = true))
  | .length array _ => inferInstanceAs (Decidable (array.ty.isArray = true))
  | .call receiver method args _ =>
      inferInstanceAs (Decidable (∀ entry ∈ declaredMethod? scope receiver method,
        ∀ way ∈ collected? entry (args.map Expr.ty), ∀ arg ∈ args.drop way.1, arg.ty = way.2))
  | .int _ _ | .bool _ _ | .this _ | .var _ _ | .paren _ _ => inferInstanceAs (Decidable True)

theorem Fitting.flat {scope : Scope} {expr : Expr} (h : Fitting scope expr) : Flat expr := by
  cases expr with
  | newArray elem size ty => exact h
  | _ => trivial

/-- The expressions of a statement have the types that the statement asks for. -/
def StmtFitting (scope : Scope) : Stmt → Prop
  | .assign target value => target.ty = value.ty
  | .ifElse cond _ _ => cond.ty = .boolean
  | .whileLoop cond _ => cond.ty = .boolean
  | .ret (some value) => value.ty = scope.method.ret
  | _ => True

instance (scope : Scope) : DecidablePred (StmtFitting scope)
  | .assign target value => inferInstanceAs (Decidable (target.ty = value.ty))
  | .ifElse cond _ _ => inferInstanceAs (Decidable (cond.ty = .boolean))
  | .whileLoop cond _ => inferInstanceAs (Decidable (cond.ty = .boolean))
  | .ret (some value) => inferInstanceAs (Decidable (value.ty = scope.method.ret))
  | .ret none | .expr _ | .block _ => inferInstanceAs (Decidable True)

/-- The body of a method is well-typed. -/
structure WellTyped (scope : Scope) (body : List Stmt) : Prop where
  className : scope.symbols.className ∉ predefinedNames
  annotated : ∀ stmt ∈ subStmtsOfAll body, ∀ part ∈ partsOf scope stmt, Annotated scope part
  fitting : ∀ stmt ∈ subStmtsOfAll body, ∀ part ∈ partsOf scope stmt, Fitting scope part
  stmts : ∀ stmt ∈ subStmtsOfAll body, StmtFitting scope stmt

instance (scope : Scope) : DecidablePred (WellTyped scope) := fun _ =>
  decidable_of_iff (_ ∧ _ ∧ _ ∧ _)
    ⟨fun ⟨className, annotated, fitting, stmts⟩ => ⟨className, annotated, fitting, stmts⟩,
    fun ⟨className, annotated, fitting, stmts⟩ => ⟨className, annotated, fitting, stmts⟩⟩

/-! ## Well-typed code -/

namespace Tac

/-- The cell belongs to an array of its type. -/
def Cell.Typed (cell : Cell) : Prop := cell.array.ty = .array cell.elemTy

/-- A field of the class under compilation at its declared type. -/
def FieldTyped (scope : Scope) (object field : Operand) : Prop :=
  object.ty = .object scope.symbols.className ∧
    (scope.symbols.field? field.name).map (fun entry => Ty.ofSource entry.ty) = some field.ty

/-- A method of the class under compilation that is called on an object of that
class has its declared result type. -/
def Call.Typed (scope : Scope) (call : Call) : Prop :=
  ∀ object, call.kind = .virtual → call.target = .object object →
    object.ty = .object scope.symbols.className →
    ∀ entry ∈ scope.symbols.method? call.method, call.ret = .ofSource entry.ret

/-- The operands of an expression have the types that its operation asks for. -/
def Rhs.Typed (scope : Scope) : Rhs → Prop
  | .element _ | .new _ => True
  | .binary .and lhs rhs => lhs.ty = .bool ∧ rhs.ty = .bool
  | .binary _ lhs rhs => lhs.ty = .int ∧ rhs.ty = .int
  | .not operand => operand.ty = .bool
  | .newArray _ ty => ty.isArray = true
  | .length array => array.ty.isArray = true
  | .getField object field => FieldTyped scope object field
  | .index place => place.Typed
  | .call invocation => invocation.Typed scope

def Dest.Typed : Dest → Prop
  | .var _ => True
  | .cell place => place.Typed

/-- An instruction is well-typed in the method under compilation. -/
def Instr.Typed (scope : Scope) : Instr → Prop
  | .assign dest ty rhs => ty = dest.ty ∧ dest.ty = rhs.ty ∧ dest.Typed ∧ rhs.Typed scope
  | .putField object field value => FieldTyped scope object field ∧ value.ty = field.ty
  | .call invocation => invocation.Typed scope
  | .goto _ | .label _ => True
  | .branch cond _ => cond.ty = .bool ∧ cond.Typed scope
  | .ret ty value => ty = resultTy scope ∧ ∀ elem ∈ value, elem.ty = ty

end Tac

/-- The type of what is left of a lowered expression. -/
def Lowering.Lowered.ty : Lowered → Ty
  | .value elem => elem.ty
  | .bare rhs => rhs.ty
  | .fieldStore _ field => field.ty

/-- Whether an expression yields a value in a position; a call that is a
statement does not. -/
def Lowering.Position.yields : Position → Expr → Bool
  | .statement, .call _ _ _ _ => false
  | _, _ => true

/-! ## Types of operands -/

section
variable {scope : Scope} {expr : Expr} {exprs : List Expr}

/-- The parts of some expressions are well-typed. -/
structure Sound (scope : Scope) (exprs : List Expr) : Prop where
  className : scope.symbols.className ∉ predefinedNames
  annotated : ∀ part ∈ exprs, Annotated scope part
  fitting : ∀ part ∈ exprs, Fitting scope part

theorem Sound.mono {fewer : List Expr} (h : Sound scope exprs) (subset : fewer ⊆ exprs) :
    Sound scope fewer :=
  ⟨h.className, fun part mem => h.annotated part (subset mem),
    fun part mem => h.fitting part (subset mem)⟩

theorem ofName_of_not_predefined {name : String} (h : name ∉ predefinedNames) :
    Ty.ofName name = .object name := by
  simp only [predefinedNames, List.mem_cons, List.not_mem_nil, or_false, not_or] at h
  simp [Ty.ofName, h.1, h.2.1, h.2.2.1, h.2.2.2]

theorem Sound.not_misindexes :
    ∀ {expr : Expr}, Sound scope (parts scope expr) → misindexes expr = false
  | .paren _ _, h => (h.mono (List.subset_cons_self ..)).not_misindexes
  | .index array _ _, h => by
      have isArray : array.ty.isArray = true := h.fitting _ (mem_parts_self _ _)
      rw [misindexes, isArray]
      rfl
  | .int _ _, _ | .bool _ _, _ | .this _, _ | .var _ _, _ | .binary _ _ _ _, _ | .not _ _, _
  | .newObject _ _, _ | .newArray _ _ _, _ | .arrayInit _ _, _ | .length _ _, _
  | .call _ _ _ _, _ => rfl

/-- The type of a well-typed expression is the one it is annotated with. -/
theorem Sound.typeOf_eq (h : Sound scope (parts scope expr)) :
    typeOf scope expr = .ofSource expr.ty := by
  have agree : TypesAgree scope expr :=
    typeOf_cases h.annotated fun part mem => (h.fitting part mem).flat
  rcases agree with same | ⟨className, object, annotated, named⟩ | ⟨misindexes, _⟩
  · exact same
  · have proper : className ∉ predefinedNames := by
      rcases named with rfl | ⟨ty, mem⟩
      · exact h.className
      · exact h.fitting _ mem
    rw [object, annotated]
    exact (ofName_of_not_predefined proper).symm
  · cases h.not_misindexes.symm.trans misindexes

theorem Sound.denotes {elem : Element} (h : Sound scope (parts scope expr))
    (denotes : Denotes scope expr elem) : elem.ty = .ofSource expr.ty :=
  denotes.ty.trans h.typeOf_eq

theorem Sound.computes {rhs : Rhs} (h : Sound scope (parts scope expr))
    (computes : Computes scope expr rhs) : rhs.ty = .ofSource expr.ty :=
  computes.ty.trans h.typeOf_eq

/-- The type of a part of which the annotation is known. -/
theorem Sound.denotes_as {elem : Element} {ty : Source.Ty} (h : Sound scope exprs)
    (subset : parts scope expr ⊆ exprs) (denotes : Denotes scope expr elem)
    (annotated : expr.ty = ty) : elem.ty = .ofSource ty := by
  rw [← annotated]
  exact (h.mono subset).denotes denotes

/-! ## Types of expressions and calls -/

theorem Issued.typed {site : CallSite} {otherRet : Ty} {call : Call}
    (issued : Issued scope site otherRet call) : call.Typed scope := by
  intro object virtual target object_ty entry found
  have aims := issued.aims
  rw [virtual, target] at aims
  cases aims with
  | value onValue denotes =>
      have own : isOwn scope site.receiver (typeOf scope site.receiver) = true := by
        have same : typeOf scope site.receiver = .object scope.symbols.className :=
          denotes.ty.symm.trans object_ty
        rw [isOwn, onValue, same]
        exact decide_eq_true rfl
      have callee : site.callee? scope = some entry := by
        rw [CallSite.callee?, ownMethod?, if_pos own, ← issued.method]
        exact found
      rw [issued.ret, callee]

/-- The cells of what is annotated as an array. -/
theorem Sound.cell {base : Operand} (h : Sound scope (parts scope expr))
    (isArray : expr.ty.isArray = true) (denotes : Denotes scope expr (.operand base))
    (index : Element) :
    (Cell.of base index).Typed ∧ (Cell.of base index).elemTy = .ofSource expr.ty.element := by
  have array : base.ty = .array (.ofSource expr.ty.element) :=
    (h.denotes denotes).trans (Ty.ofSource_of_isArray isArray)
  simp [Cell.Typed, Cell.of, array, Ty.element?]

theorem Sound.rhs {rhs : Rhs} (h : Sound scope (parts scope expr))
    (computes : Computes scope expr rhs) : rhs.Typed scope := by
  have fitting := h.fitting expr (mem_parts_self scope expr)
  cases computes with
  | element _ => trivial
  | arith left right =>
      exact ⟨h.denotes_as (fun _ mem => by simp [parts, mem]) left fitting.1,
        h.denotes_as (fun _ mem => by simp [parts, mem]) right fitting.2⟩
  | not denotes => exact h.denotes_as (fun _ mem => by simp [parts, mem]) denotes fitting
  | newArray _ => rfl
  | index base position =>
      exact ((h.mono fun _ mem => by simp [parts, mem]).cell fitting base _).1

/-! ## Types of instructions -/

/-- A field that a name denotes has the type of the name. -/
theorem Sound.field {name : String} {ty : Source.Ty} (h : Sound scope (parts scope (.var name ty)))
    (isField : scope.isField name = true) :
    FieldTyped scope (receiverOf scope) ⟨name, .ofSource ty⟩ := by
  have declared : declaredTy? scope name = some ty := h.annotated _ (mem_parts_self _ _)
  rw [Scope.isField, Bool.and_eq_true, Bool.not_eq_true', MethodEntry.declares,
    Bool.or_eq_false_iff] at isField
  obtain ⟨found, noParam, noLocal⟩ := isField
  refine ⟨rfl, ?_⟩
  rw [declaredTy?, MethodEntry.lookup?] at declared
  simp only [Option.isSome_eq_false_iff, Option.isNone_iff_eq_none] at noParam noLocal
  rw [noParam, noLocal] at declared
  show (scope.symbols.field? name).map _ = _
  cases entry : scope.symbols.field? name with
  | none => rw [entry] at found; cases found
  | some var =>
      rw [entry] at declared
      cases declared
      rfl

theorem typed_of_packing {elemTy : Source.Ty} {items : List Expr} {instr : Instr}
    (h : Sound scope (partsOfAll scope items)) (same : ∀ item ∈ items, item.ty = elemTy)
    (packing : Packing scope (.ofSource elemTy) items instr) : instr.Typed scope := by
  cases packing with
  | allocate _ => exact ⟨rfl, rfl, trivial, rfl⟩
  | hold _ _ => exact ⟨rfl, rfl, trivial, trivial⟩
  | item _ inside denotes =>
      have ty := h.denotes_as (fun _ mem => mem_partsOfAll_of_mem inside mem) denotes
        (same _ inside)
      exact ⟨rfl, ty.symm, rfl, trivial⟩

/-- The packed arguments of a well-typed call have the type that is declared. -/
theorem Sound.packed {receiver : Expr} {method : String} {args : List Expr} {ty elemTy : Source.Ty}
    {fixed : Nat} (h : Sound scope (parts scope (.call receiver method args ty)))
    (found : CallSite.collected? scope ⟨receiver, method, args⟩ = some (fixed, elemTy)) :
    ∀ arg ∈ args.drop fixed, arg.ty = elemTy := by
  obtain ⟨entry, callee, way⟩ := Option.bind_eq_some_iff.mp found
  have agree : Dispatch.ofReceiver scope receiver = .onValue → TypesAgree scope receiver :=
    fun onValue => .inl (h.mono fun _ mem => by simp [parts, onValue, mem]).typeOf_eq
  exact h.fitting _ (mem_parts_self _ _) entry (declaredMethod?_of_ownMethod? agree callee) _ way

theorem typed_of_written {instr : Instr} (h : Sound scope (parts scope expr))
    (written : Written scope expr instr) : instr.Typed scope := by
  have fitting := h.fitting expr (mem_parts_self scope expr)
  cases written with
  | settled computes _ => exact ⟨rfl, rfl, trivial, h.rhs computes⟩
  | fetched isField _ => exact ⟨rfl, rfl, trivial, h.field isField⟩
  | conjunct left =>
      exact ⟨h.denotes_as (fun _ mem => by simp [parts, mem]) left fitting.1, trivial⟩
  | compared left right =>
      exact ⟨rfl, h.denotes_as (fun _ mem => by simp [parts, mem]) left fitting.1,
        h.denotes_as (fun _ mem => by simp [parts, mem]) right fitting.2⟩
  | outcome _ => exact ⟨rfl, rfl, trivial, trivial⟩
  | conjoined right _ =>
      have ty := h.denotes_as (fun _ mem => by simp [parts, mem]) right fitting.2
      exact ⟨rfl, ty.symm, trivial, trivial⟩
  | goto => trivial
  | label => trivial
  | allocated _ => exact ⟨rfl, rfl, trivial, trivial⟩
  | constructed _ => exact fun _ virtual => by cases virtual
  | measured base _ =>
      have array := (h.mono fun _ mem => by simp [parts, mem]).denotes base
      rw [Ty.ofSource_of_isArray fitting] at array
      refine ⟨rfl, rfl, trivial, ?_⟩
      show Ty.isArray (Element.ty (.operand _)) = true
      rw [array]
      rfl
  | items packing =>
      exact typed_of_packing (h.mono (List.subset_cons_self ..)) fitting packing
  | args found packing =>
      refine typed_of_packing (h.mono (List.Subset.trans (partsOfAll_drop ..) ?_)) (h.packed found)
        packing
      exact List.subset_cons_of_subset _ (List.subset_append_right ..)
  | called issued _ => exact ⟨rfl, rfl, trivial, issued.typed⟩

/-- The type of an expression that a statement evaluates. -/
theorem Sound.of_evaluated {stmt : Stmt} (h : Sound scope (partsOf scope stmt))
    (mem : expr ∈ evaluated scope stmt) : Sound scope (parts scope expr) :=
  h.mono (parts_subset_partsOf mem)

theorem typed_of_writtenBy {stmt : Stmt} {instr : Instr} (h : Sound scope (partsOf scope stmt))
    (fitting : StmtFitting scope stmt) (written : WrittenBy scope stmt instr) :
    instr.Typed scope := by
  cases written with
  | part inside written =>
      refine typed_of_written (h.mono ?_) written
      exact parts_subset_all scope (valuesOf_subset scope stmt inside)
  | @assignVar op value rhs left denotes computes =>
      have place : Sound scope (parts scope left) := h.of_evaluated (by simp [evaluated])
      have stored : Sound scope (parts scope value) := h.of_evaluated (by simp [evaluated])
      have same : left.ty = value.ty := fitting
      refine ⟨(place.denotes denotes).symm, ?_, trivial, stored.rhs computes⟩
      rw [stored.computes computes, ← same]
      exact place.denotes denotes
  | @assignCell array base position index value rhs ty denotes _ computes =>
      have place : Sound scope (parts scope (.index array position ty)) :=
        h.of_evaluated (by simp [evaluated])
      have stored : Sound scope (parts scope value) := h.of_evaluated (by simp [evaluated])
      have same : ty = value.ty := fitting
      have element : ty = array.ty.element := place.annotated _ (mem_parts_self _ _)
      have isArray : array.ty.isArray = true := place.fitting _ (mem_parts_self _ _)
      obtain ⟨typed, cell⟩ :=
        (place.mono fun _ mem => by simp [parts, mem]).cell isArray denotes index
      refine ⟨?_, ?_, typed, stored.rhs computes⟩
      · rw [element]
        exact cell.symm
      · rw [stored.computes computes, ← same, element]
        exact cell
  | @settled name value rhs temp ty isField computes _ =>
      have stored : Sound scope (parts scope value) := h.of_evaluated (by simp [evaluated])
      have same : ty = value.ty := fitting
      refine ⟨rfl, ?_, trivial, stored.rhs computes⟩
      rw [stored.computes computes, ← same]
      rfl
  | @putField name value elem ty isField source =>
      have place : Sound scope (parts scope (.var name ty)) := h.of_evaluated (by simp [evaluated])
      have stored : Sound scope (parts scope value) := h.of_evaluated (by simp [evaluated])
      have same : ty = value.ty := fitting
      refine ⟨place.field isField, ?_⟩
      rcases source with denotes | ⟨temp, _, rfl⟩
      · rw [stored.denotes denotes, same]
      · rfl
  | @args receiver method args fixed elemTy instr ty found packing =>
      have call : Sound scope (parts scope (.call receiver method args ty)) :=
        h.of_evaluated (by simp [evaluated])
      refine typed_of_packing (call.mono (List.Subset.trans (partsOfAll_drop ..) ?_))
        (call.packed found) packing
      exact List.subset_cons_of_subset _ (List.subset_append_right ..)
  | called issued => exact issued.typed
  | @test stmt elem mark cond tests denotes =>
      have sound : Sound scope (parts scope cond) := h.of_evaluated (mem_evaluated_of_condOf? tests)
      have truth : cond.ty = .boolean := by
        cases stmt with
        | ifElse test thenBranch elseBranch => cases tests; exact fitting
        | whileLoop test body => cases tests; exact fitting
        | _ => cases tests
      refine ⟨?_, trivial⟩
      show elem.ty = .bool
      rw [sound.denotes denotes, truth]
      rfl
  | goto => trivial
  | label => trivial
  | retNone => exact ⟨rfl, by simp⟩
  | @retSome value elem nonVoid denotes =>
      have sound : Sound scope (parts scope value) :=
        h.of_evaluated (by simp [evaluated, nonVoid])
      have same : value.ty = scope.method.ret := fitting
      refine ⟨rfl, ?_⟩
      rintro _ ⟨⟩
      rw [sound.denotes denotes, same]
      rfl

/-! ## Types of lowered expressions -/

theorem ty_ofRhs (rhs : Rhs) : (Lowered.ofRhs rhs).ty = rhs.ty := by
  cases rhs <;> rfl

/-- What is left of a lowered expression has the type that it is annotated with. -/
theorem Sound.ty_generate (h : Sound scope (parts scope expr)) {position : Position}
    (yields : position.yields expr = true) (names : Names) :
    (generate scope position expr names).value.ty = .ofSource expr.ty := by
  have value := h.denotes (denotes_operand scope expr names)
  cases position with
  | operand => exact value
  | rhs => exact (ty_ofRhs _).trans (h.computes (computes_compute scope expr names))
  | target =>
      show (Lowered.ofPlace (target scope expr names).value).ty = _
      have places := places_target scope expr names
      generalize (target scope expr names).value = place at places
      cases places with
      | var denotes => exact h.denotes denotes
      | @cell array base position index ty denotes _ =>
          have element : ty = array.ty.element := h.annotated _ (mem_parts_self _ _)
          have isArray : array.ty.isArray = true := h.fitting _ (mem_parts_self _ _)
          have cell := ((h.mono fun _ mem => by simp [parts, mem]).cell isArray denotes index).2
          exact cell.trans (congrArg Ty.ofSource element.symm)
      | field _ => rfl
      | literal denotes => exact h.denotes denotes
  | statement =>
      cases expr with
      | call receiver method args ty => cases yields
      | _ => exact value

end

/-! ## Methods -/

/-- Lowering a well-typed method preserves types: every expression is lowered to
something of the type it is annotated with, and every instruction is well-typed. -/
theorem typed_of_lowerMethod {symbols : SymbolTable} {decl : MethodDecl} {entry : MethodEntry}
    {names : Names} {method : Method} (found : symbols.method? decl.name = some entry)
    (wellTyped : WellTyped ⟨symbols, entry⟩ decl.body)
    (accepted : ((lowerMethod symbols decl).run names).value = .ok method) :
    (∀ stmt ∈ subStmtsOfAll decl.body, ∀ expr ∈ partsOf ⟨symbols, entry⟩ stmt,
      ∀ position names, position.yields expr = true →
        ∃ left, ((lowerExpr ⟨symbols, entry⟩ position expr).run names).value = .ok left ∧
          left.ty = .ofSource expr.ty) ∧
    ∀ instr ∈ method.body, instr.Typed ⟨symbols, entry⟩ := by
  have sound : ∀ stmt ∈ subStmtsOfAll decl.body,
      Sound ⟨symbols, entry⟩ (partsOf ⟨symbols, entry⟩ stmt) :=
    fun stmt mem => ⟨wellTyped.className, wellTyped.annotated stmt mem, wellTyped.fitting stmt mem⟩
  constructor
  · intro stmt mem expr inside position names yields
    refine ⟨_, congrArg Outcome.value (run_lowerExpr _ position expr names), ?_⟩
    exact ((sound stmt mem).mono (parts_subset_all _ inside)).ty_generate yields names
  · intro instr mem
    obtain ⟨entry', _, lowered⟩ := loweredMethod_of_gives ⟨accepted, rfl, rfl⟩
    obtain rfl : entry = entry' := Option.some.inj (found.symm.trans lowered.found)
    rcases lowered.written mem with ⟨stmt, inside, written⟩ | ⟨void, rfl⟩
    · exact typed_of_writtenBy (sound stmt inside) (wellTyped.stmts stmt inside) written
    · refine ⟨?_, by simp⟩
      rw [← void, lowered.ret]
      rfl

/-- In a class with a field `total` and the method `int pick(int first, int... rest)`:
`int tally(int[] xs, boolean stop)` adds up cells of `xs` and replaces each by
`this.pick(i, 1, 2)`, until `stop` holds or the end is reached. -/
def tallyDecl : MethodDecl where
  name := "tally"
  isPublic := true
  isStatic := false
  params := [.plain "xs" (.arrayOf "int"), .plain "stop" .boolean]
  ret := .int
  locals := [⟨"i", .int⟩]
  body :=
    let xs : Expr := .var "xs" (.arrayOf "int")
    let i : Expr := .var "i" .int
    let total : Expr := .var "total" .int
    let cond : Expr := .binaryOf .and (.binaryOf .lt i (.lengthOf xs))
      (.notOf (.var "stop" .boolean))
    [.assign i (.intOf 0),
      .whileLoop cond (.block
        [.assign total (.binaryOf (.arith .add) total (.indexOf xs i)),
          .assign (.indexOf xs i) (.call (.thisOf "Foo") "pick" [i, .intOf 1, .intOf 2] .int),
          .assign i (.binaryOf (.arith .add) i (.intOf 1))]),
      .ret (some total)]

def tallySymbols : SymbolTable where
  className := "Foo"
  superName := none
  imports := []
  fields := .ofList Var.name [⟨"total", .int⟩]
  methods := .ofList MethodEntry.name
    [.ofDecl tallyDecl,
      ⟨"pick", false, true, .int, [⟨"first", .int⟩, ⟨"rest", .arrayOf "int"⟩], []⟩]

theorem typed_of_lowerMethod_tally :
    let scope : Scope := ⟨tallySymbols, .ofDecl tallyDecl⟩
    WellTyped scope tallyDecl.body ∧
    ∃ method, ((lowerMethod tallySymbols tallyDecl).run .fresh).value = .ok method ∧
      method.body.length = 47 ∧
      (∀ stmt ∈ subStmtsOfAll tallyDecl.body, ∀ expr ∈ partsOf scope stmt,
        ∀ position names, position.yields expr = true →
          ∃ left, ((lowerExpr scope position expr).run names).value = .ok left ∧
            left.ty = .ofSource expr.ty) ∧
      ∀ instr ∈ method.body, instr.Typed scope := by
  intro scope
  have wellTyped : WellTyped scope tallyDecl.body := by decide +kernel
  have length : ((lowerMethod tallySymbols tallyDecl).run .fresh).value.map
      (fun method => method.body.length) = .ok 47 := by
    decide +kernel
  cases accepted : ((lowerMethod tallySymbols tallyDecl).run .fresh).value with
  | error error => rw [accepted] at length; cases length
  | ok method =>
      rw [accepted] at length
      exact ⟨wellTyped, method, rfl, Except.ok.inj length,
        typed_of_lowerMethod (by decide +kernel) wellTyped accepted⟩

end MiniJava
