import MiniJava.Proofs.Annotation
import MiniJava.Proofs.Consistency
import MiniJava.Proofs.Lowering.Acceptance
import MiniJava.Proofs.Typing

/-!
# Supported programs compile

A program with honest annotations is *supported* if it keeps to the part of the
language for which there are rules: variables hold values, arrays that are made
hold integers, what is used has a value, calls are made on objects, static
methods do without a receiver, and nothing is assigned to a literal
(`Supported`).  That is not enough.  Parentheses around a literal, arrays of
nothing, a call on what indexes no array, and an empty list of variadic arguments
lead out of that part, although none of them is mentioned (`Regular`).  A program
that is supported and regular compiles, with any options.

Lowering accepts such a program because no left side comes down to a literal.
For the code to be assembled, its operands have to hold something and have
slots, and there has to be a rule for each of its instructions.  Both are read
off the list of the instructions that lowering writes (`WrittenBy`).
-/

namespace MiniJava

open Source (Expr Stmt Scope SymbolTable MethodDecl MethodEntry Program Param Var)
open Tac Semantics Lowering Jasmin

/-! ## Supported programs -/

/-- Whether values of the type are objects of a class or of `String`. -/
def Source.Ty.isObject (ty : Source.Ty) : Bool :=
  !ty.isArray && ty.name ∉ ["int", "boolean", "void"]

/-- Whether an expression is a call. -/
def isCall : Expr → Bool
  | .call _ _ _ _ => true
  | _ => false

/-- Whether an expression is a literal. -/
def isLiteral : Expr → Bool
  | .int _ _ | .bool _ _ => true
  | _ => false

/-- Arrays that an expression makes hold integers, also those of packed
arguments, and a call that is made on a value is made on an object. -/
def SupportedForm (scope : Scope) : Expr → Prop
  | .newArray elem _ _ => elem = .int
  | .arrayInit _ ty => ty.element = .int
  | .call receiver method args _ =>
      (Dispatch.ofReceiver scope receiver = .onValue → receiver.ty.isObject = true) ∧
      ∀ entry ∈ declaredMethod? scope receiver method,
        ∀ way ∈ collected? entry (args.map Expr.ty), way.1 < args.length → way.2 = .int
  | _ => True

instance (scope : Scope) : DecidablePred (SupportedForm scope)
  | .newArray elem _ _ => inferInstanceAs (Decidable (elem = .int))
  | .arrayInit _ ty => inferInstanceAs (Decidable (ty.element = .int))
  | .call receiver method args _ => inferInstanceAs (Decidable
      ((Dispatch.ofReceiver scope receiver = .onValue → receiver.ty.isObject = true) ∧
        ∀ entry ∈ declaredMethod? scope receiver method,
          ∀ way ∈ collected? entry (args.map Expr.ty), way.1 < args.length → way.2 = .int))
  | .int _ _ | .bool _ _ | .this _ | .var _ _ | .binary _ _ _ _ | .not _ _ | .paren _ _
  | .newObject _ _ | .index _ _ _ | .length _ _ => inferInstanceAs (Decidable True)

/-- What a supported program does in a statement. -/
structure SupportedStmt (scope : Scope) (stmt : Stmt) : Prop where
  annotated : ∀ part ∈ partsOf scope stmt, Annotated scope part
  forms : ∀ part ∈ partsOf scope stmt, SupportedForm scope part
  results : ∀ part ∈ valuesOf scope stmt, isCall part = true → part.ty ≠ .void
  receivers : scope.method.isStatic = true → ∀ part ∈ partsOf scope stmt,
    usesThis scope part = false
  targets : ∀ left ∈ targetOf? stmt, isLiteral left = false

instance (scope : Scope) : DecidablePred (SupportedStmt scope) := fun _ =>
  decidable_of_iff (_ ∧ _ ∧ _ ∧ _ ∧ _)
    ⟨fun ⟨annotated, forms, results, receivers, targets⟩ =>
      ⟨annotated, forms, results, receivers, targets⟩,
    fun ⟨annotated, forms, results, receivers, targets⟩ =>
      ⟨annotated, forms, results, receivers, targets⟩⟩

/-- The scope of a method of a program. -/
def scopeOf (program : Program) (decl : MethodDecl) : Scope :=
  ⟨.collect program, .ofDecl decl⟩

/-- The variables that a method of a program may name: its locals, its parameters
and the fields of the class. -/
def variablesIn (program : Program) (decl : MethodDecl) : List Var :=
  decl.locals ++ decl.params.map Param.toVar ++ program.decl.fields

/-- A program in the part of the language that there are rules for. -/
structure Supported (program : Program) : Prop where
  distinct : (program.decl.methods.map MethodDecl.name).Nodup
  declared : ∀ decl ∈ program.decl.methods, ∀ var ∈ variablesIn program decl, var.ty ≠ .void
  stmts : ∀ decl ∈ program.decl.methods, ∀ stmt ∈ subStmtsOfAll decl.body,
    SupportedStmt (scopeOf program decl) stmt

instance : DecidablePred Supported := fun _ =>
  decidable_of_iff (_ ∧ _ ∧ _)
    ⟨fun ⟨distinct, declared, stmts⟩ => ⟨distinct, declared, stmts⟩,
    fun ⟨distinct, declared, stmts⟩ => ⟨distinct, declared, stmts⟩⟩

/-- What is indexed is no array of nothing, a call that is made on a value is not
made on what indexes no array, and a variadic method of this class whose
arguments are packed is one of integers, also if there are none to pack. -/
def RegularForm (scope : Scope) : Expr → Prop
  | .index array _ _ => array.ty ≠ .arrayOf "void"
  | .call receiver method args _ =>
      (Dispatch.ofReceiver scope receiver = .onValue → misindexes receiver = false) ∧
      ∀ entry ∈ declaredMethod? scope receiver method,
        ∀ way ∈ collected? entry (args.map Expr.ty), way.2 = .int
  | _ => True

instance (scope : Scope) : DecidablePred (RegularForm scope)
  | .index array _ _ => inferInstanceAs (Decidable (array.ty ≠ .arrayOf "void"))
  | .call receiver method args _ => inferInstanceAs (Decidable
      ((Dispatch.ofReceiver scope receiver = .onValue → misindexes receiver = false) ∧
        ∀ entry ∈ declaredMethod? scope receiver method,
          ∀ way ∈ collected? entry (args.map Expr.ty), way.2 = .int))
  | .int _ _ | .bool _ _ | .this _ | .var _ _ | .binary _ _ _ _ | .not _ _ | .paren _ _
  | .newObject _ _ | .newArray _ _ _ | .arrayInit _ _ | .length _ _ =>
      inferInstanceAs (Decidable True)

/-- What is asked of a supported program besides: its expressions are regular,
and no left side is a literal in parentheses. -/
def Regular (program : Program) : Prop :=
  ∀ decl ∈ program.decl.methods, ∀ stmt ∈ subStmtsOfAll decl.body,
    (∀ part ∈ partsOf (scopeOf program decl) stmt, RegularForm (scopeOf program decl) part) ∧
    ∀ left ∈ targetOf? stmt, isConstant left = false

instance : DecidablePred Regular := fun program =>
  inferInstanceAs (Decidable (∀ decl ∈ program.decl.methods, ∀ stmt ∈ subStmtsOfAll decl.body,
    (∀ part ∈ partsOf (scopeOf program decl) stmt, RegularForm (scopeOf program decl) part) ∧
    ∀ left ∈ targetOf? stmt, isConstant left = false))

/-! ## What lowering finds in such programs -/

/-- What the instructions of a statement need: values where they are used,
objects where members are, and integers in the arrays that are made. -/
structure Furnished (scope : Scope) (stmt : Stmt) : Prop where
  values : ∀ part ∈ valuesOf scope stmt, typeOf scope part ≠ .void
  owners : ∀ receiver method args ty, .call receiver method args ty ∈ partsOf scope stmt →
    Dispatch.ofReceiver scope receiver = .onValue → (typeOf scope receiver).hasMembers = true
  allocations : ∀ elem size ty, .newArray elem size ty ∈ partsOf scope stmt → elem = .int
  literals : ∀ items ty, .arrayInit items ty ∈ partsOf scope stmt → ty.element = .int
  packed : ∀ receiver method args ty, .call receiver method args ty ∈ partsOf scope stmt →
    ∀ fixed elemTy, CallSite.collected? scope ⟨receiver, method, args⟩ = some (fixed, elemTy) →
      elemTy = .int

namespace Tac

theorem Operand.hasMembers_of_ty {op : Operand} (h : op.ty.hasMembers = true) :
    op.hasMembers = true := by
  rw [hasMembers, h, Bool.or_true]

namespace Ty

theorem isVoid_of_ne {ty : Ty} (h : ty ≠ .void) : ty.isVoid = false := by
  cases ty with
  | void => exact absurd rfl h
  | _ => rfl

theorem eq_void_of_ofSource {ty : Source.Ty} (h : ofSource ty = .void) : ty = .void := by
  obtain ⟨name, isArray⟩ := ty
  cases isArray with
  | true => cases h
  | false =>
      have named : ofName name = .void := h
      rw [ofName] at named
      split at named
      · cases named
      split at named
      · cases named
      split at named
      · subst name
        rfl
      split at named <;> cases named

theorem hasMembers_ofSource {ty : Source.Ty} (h : ty.isObject = true) :
    (ofSource ty).hasMembers = true := by
  obtain ⟨name, isArray⟩ := ty
  cases isArray with
  | true => cases h
  | false =>
      simp only [Source.Ty.isObject, Bool.not_false, Bool.true_and, List.mem_cons, not_or,
        decide_eq_true_eq] at h
      show (ofName name).hasMembers = true
      rw [ofName, if_neg h.1, if_neg h.2.1, if_neg h.2.2.1]
      split <;> rfl

end Ty

end Tac

/-- Only arrays of nothing have elements of type `void`. -/
theorem Source.Ty.eq_arrayOf_void {ty : Source.Ty} (isArray : ty.isArray = true)
    (h : ty.element = .void) : ty = .arrayOf "void" := by
  obtain ⟨name, _⟩ := ty
  subst isArray
  exact congrArg Source.Ty.arrayOf (congrArg Source.Ty.name h)

/-- A declared variable is one of the locals, parameters and fields. -/
theorem exists_of_declaredTy? {program : Program} {decl : MethodDecl} {name : String}
    {ty : Source.Ty} (declared : declaredTy? (scopeOf program decl) name = some ty) :
    ∃ var ∈ variablesIn program decl, var.ty = ty := by
  rw [declaredTy?, Option.map_eq_some_iff] at declared
  obtain ⟨var, found, same⟩ := declared
  refine ⟨var, ?_, same⟩
  rw [variablesIn, List.mem_append, List.mem_append]
  simp only [MethodEntry.lookup?, Option.orElse_eq_or, Option.or_eq_some_iff] at found
  rcases found with (isLocal | ⟨_, isParam⟩) | ⟨_, isField⟩
  · exact .inl (.inl (List.mem_of_find?_eq_some isLocal))
  · exact .inl (.inr (List.mem_of_find?_eq_some isParam))
  · refine .inr ?_
    rw [scopeOf, SymbolTable.field?, SymbolTable.collect, Table.find?_ofList] at isField
    exact List.mem_reverse.mp (List.mem_of_find?_eq_some isField)

section
variable {scope : Scope} {stmt : Stmt}

/-- What is used in a supported and regular statement has a value. -/
theorem typeOf_ne_void (supported : SupportedStmt scope stmt)
    (regular : ∀ part ∈ partsOf scope stmt, RegularForm scope part)
    (declared : ∀ name ty, declaredTy? scope name = some ty → ty ≠ .void)
    (agree : ∀ part ∈ partsOf scope stmt, TypesAgree scope part) :
    ∀ part ∈ valuesOf scope stmt, typeOf scope part ≠ .void
  | .int _ _, _ | .bool _ _, _ | .this _, _ | .not _ _, _ | .newObject _ _, _
  | .newArray _ _ _, _ | .arrayInit _ _, _ | .length _ _, _ => nofun
  | .binary op _ _ _, _ => by cases op <;> simp [typeOf]
  | .var name ty, inside => by
      have known : declaredTy? scope name = some ty :=
        supported.annotated _ (valuesOf_subset scope stmt inside)
      exact fun void => declared name ty known (Ty.eq_void_of_ofSource void)
  | .paren inner ty, inside =>
      typeOf_ne_void supported regular declared agree inner
        (parts_subset_valuesOf inside (by simp [parts, mem_parts_self]))
  | .index array position ty, inside => by
      have inside' := valuesOf_subset scope stmt inside
      have agree' : TypesAgree scope array :=
        agree array (parts_subset_all scope inside' (by simp [parts, mem_parts_self]))
      rw [typeOf]
      cases isArray : array.ty.isArray with
      | true =>
          rw [agree'.array isArray]
          exact fun void => regular _ inside'
            (Source.Ty.eq_arrayOf_void isArray (Ty.eq_void_of_ofSource void))
      | false =>
          rw [agree'.no_array isArray]
          simp
  | .call receiver method args ty, inside => by
      intro void
      rcases agree _ (valuesOf_subset scope stmt inside) with same | ⟨_, object, _⟩ | ⟨_, isInt, _⟩
      · rw [same] at void
        exact supported.results _ inside rfl (Ty.eq_void_of_ofSource void)
      · cases object.symm.trans void
      · cases isInt.symm.trans void

/-- Lowering finds in a supported and regular statement what it needs. -/
theorem furnished_of_supported (supported : SupportedStmt scope stmt)
    (regular : ∀ part ∈ partsOf scope stmt, RegularForm scope part)
    (declared : ∀ name ty, declaredTy? scope name = some ty → ty ≠ .void) :
    Furnished scope stmt := by
  have flat : ∀ part ∈ partsOf scope stmt, Flat part := by
    intro part inside
    cases part with
    | newArray elem size ty =>
        have made : elem = .int := supported.forms _ inside
        rw [made]
        rfl
    | _ => trivial
  have agree : ∀ part ∈ partsOf scope stmt, TypesAgree scope part := by
    intro part inside
    have subset := parts_subset_all scope inside
    exact typeOf_cases (fun inner mem => supported.annotated inner (subset mem))
      fun inner mem => flat inner (subset mem)
  have receiver : ∀ {receiver method args ty},
      .call receiver method args ty ∈ partsOf scope stmt →
      Dispatch.ofReceiver scope receiver = .onValue → TypesAgree scope receiver := by
    intro receiver method args ty inside onValue
    refine agree receiver (parts_subset_all scope inside ?_)
    simp [parts, onValue, mem_parts_self]
  refine ⟨typeOf_ne_void supported regular declared agree, ?_,
    fun elem size ty inside => supported.forms _ inside,
    fun items ty inside => supported.forms _ inside, ?_⟩
  · intro object method args ty inside onValue
    have isObject := (supported.forms _ inside).1 onValue
    rcases receiver inside onValue with same | ⟨className, same, _⟩ | ⟨misindexes, _⟩
    · rw [same]
      exact Ty.hasMembers_ofSource isObject
    · rw [same]
      rfl
    · cases ((regular _ inside).1 onValue).symm.trans misindexes
  · intro object method args ty inside fixed elemTy packing
    obtain ⟨entry, own, packs⟩ := Option.bind_eq_some_iff.mp packing
    exact (regular _ inside).2 entry (declaredMethod?_of_ownMethod? (receiver inside) own)
      (fixed, elemTy) packs

/-! ## Rules for all instructions -/

section
variable {expr : Expr} {rhs : Rhs} {instr : Tac.Instr}

theorem hasRule_of_computes (furnished : Furnished scope stmt) (h : Computes scope expr rhs)
    (inside : expr ∈ partsOf scope stmt) : rhs.hasRule = true := by
  cases h with
  | newArray _ =>
      have made := furnished.allocations _ _ _ inside
      rw [made]
      rfl
  | _ => rfl

/-- A computed value can be stored in a variable. -/
theorem hasRule_of_stored (furnished : Furnished scope stmt) (h : Computes scope expr rhs)
    (inside : expr ∈ valuesOf scope stmt) (dest : Operand) (ty : Ty) :
    (Instr.assign (.var dest) ty rhs).hasRule = true := by
  have nonVoid : rhs.ty.isVoid = false :=
    Ty.isVoid_of_ne (h.ty ▸ furnished.values expr inside)
  rw [Tac.Instr.hasRule, hasRule_of_computes furnished h (valuesOf_subset scope stmt inside),
    nonVoid]
  rfl

theorem hasRule_of_packing {items : List Expr} (h : Packing scope (.ofSource .int) items instr) :
    instr.hasRule = true := by
  cases h with
  | allocate _ => rfl
  | hold _ _ => rfl
  | item _ _ _ => rfl

theorem hasRule_of_issued {site : CallSite} {otherRet : Ty} {call : Call}
    (h : Issued scope site otherRet call)
    (owner : Dispatch.ofReceiver scope site.receiver = .onValue →
      (typeOf scope site.receiver).hasMembers = true) : call.hasRule = true := by
  obtain ⟨kind, target, method, args, ret⟩ := call
  cases h.aims with
  | value onValue denotes =>
      have members := owner onValue
      rw [← denotes.ty] at members
      exact Operand.hasMembers_of_ty members
  | onClass _ => rfl
  | assumed _ => rfl

theorem hasRule_of_written (furnished : Furnished scope stmt) (h : Written scope expr instr)
    (inside : expr ∈ valuesOf scope stmt) : instr.hasRule = true := by
  have inside' := valuesOf_subset scope stmt inside
  cases h with
  | settled computes _ => exact hasRule_of_stored furnished computes inside _ _
  | @fetched name temp ty isField reserved =>
      have nonVoid : (Ty.ofSource ty).isVoid = false :=
        Ty.isVoid_of_ne (furnished.values _ inside)
      show (!(Ty.ofSource ty).isVoid) = true
      rw [nonVoid]
      rfl
  | conjoined right _ =>
      exact hasRule_of_stored furnished (.element right)
        (parts_subset_valuesOf inside (by simp [parts, mem_parts_self])) _ _
  | constructed _ => exact Operand.hasMembers_of_ty rfl
  | items packing =>
      rw [furnished.literals _ _ inside'] at packing
      exact hasRule_of_packing packing
  | args found packing =>
      rw [furnished.packed _ _ _ _ inside' _ _ found] at packing
      exact hasRule_of_packing packing
  | @called receiver method args ty call temp issued reserved =>
      have ret : call.ret = typeOf scope (.call receiver method args ty) := issued.ret
      have nonVoid : call.ret.isVoid = false :=
        Ty.isVoid_of_ne (ret ▸ furnished.values _ inside)
      have made := hasRule_of_issued issued (furnished.owners _ _ _ _ inside')
      show (call.hasRule && !call.ret.isVoid) = true
      rw [made, nonVoid]
      rfl
  | _ => rfl

/-- There is a rule for every instruction that is written on account of a
furnished statement. -/
theorem hasRule_of_writtenBy (furnished : Furnished scope stmt)
    (h : WrittenBy scope stmt instr) : instr.hasRule = true := by
  cases h with
  | part inside written => exact hasRule_of_written furnished written inside
  | assignVar left computes =>
      exact hasRule_of_stored furnished computes
        (parts_subset_partsOf (by simp [evaluated]) (mem_parts_self _ _)) _ _
  | assignCell base index computes =>
      exact hasRule_of_computes furnished computes
        (parts_subset_partsOf (by simp [evaluated]) (mem_parts_self _ _))
  | settled _ computes _ =>
      exact hasRule_of_stored furnished computes
        (parts_subset_partsOf (by simp [evaluated]) (mem_parts_self _ _)) _ _
  | args found packing =>
      rw [furnished.packed _ _ _ _ (List.mem_append_left _ (mem_parts_self _ _)) _ _ found]
        at packing
      exact hasRule_of_packing packing
  | called issued =>
      exact hasRule_of_issued issued
        (furnished.owners _ _ _ _ (List.mem_append_left _ (mem_parts_self _ _)))
  | _ => rfl

end

end

/-! ## Compilation -/

section
variable {symbols : SymbolTable} {decl : MethodDecl} {entry : MethodEntry} {names after : Names}
  {code : List Tac.Instr} {method : Tac.Method} {instr : Tac.Instr}

/-- Nothing in the code of a method that is furnished is refused. -/
theorem not_refused_of_furnished
    (lowered : LoweredMethod symbols decl entry names code after method)
    (furnished : ∀ stmt ∈ subStmtsOfAll decl.body, Furnished ⟨symbols, entry⟩ stmt)
    (receivers : decl.isStatic = true → ∀ stmt ∈ subStmtsOfAll decl.body,
      ∀ part ∈ partsOf ⟨symbols, entry⟩ stmt, usesThis ⟨symbols, entry⟩ part = false)
    (mem : instr ∈ method.body) (options : Options) (unit : Tac.Class) (error : CompileError) :
    ¬ InstrRefusal (Frame.of options unit method) instr error := by
  intro refusal
  rcases lowered.written mem with ⟨stmt, inside, written⟩ | ⟨_, rfl⟩
  · rcases refusal.sort with ⟨elem, used, refusal⟩ | ⟨missing, _⟩ | dry
    · have stems := stems_of_writtenBy written elem used
      cases refusal with
      | unknown missing =>
          obtain ⟨isThis, isStatic⟩ :=
            lowered.slot_of_operand mem (Instr.mem_operands.mpr used) missing
          cases stems with
          | operand uses _ =>
              obtain ⟨part, inside', uses⟩ := uses (decide_eq_true isThis)
              rw [receivers isStatic stmt inside part (valuesOf_subset _ _ inside')] at uses
              cases uses
      | void isVoid =>
          cases stems with
          | operand _ void =>
              obtain ⟨part, inside', void⟩ := void isVoid
              exact (furnished stmt inside).values part inside' void
      | literal refused =>
          obtain ⟨_, ok⟩ := constant_of_isConstant (lowered.isConstant_of_literal mem used)
          rw [ok] at refused
          cases refused
    · rw [hasRule_of_writtenBy (furnished stmt inside) written] at missing
      cases missing
    · rw [lowered.runsDry mem] at dry
      cases dry
  · rcases refusal.sort with ⟨elem, used, _⟩ | ⟨missing, _⟩ | dry
    · cases used
    · cases missing
    · cases dry

end

/-- A supported and regular program compiles, with any options. -/
theorem compiles_of_supported {program : Program} (supported : Supported program)
    (regular : Regular program) (options : Options) :
    ∃ output, (compile options (.collect program) program).value = .ok output := by
  have found : ∀ decl ∈ program.decl.methods,
      (SymbolTable.collect program).method? decl.name = some (.ofDecl decl) :=
    fun decl declared => method?_collect supported.distinct declared
  have furnished : ∀ decl ∈ program.decl.methods, ∀ stmt ∈ subStmtsOfAll decl.body,
      Furnished (scopeOf program decl) stmt := by
    intro decl declared stmt inside
    refine furnished_of_supported (supported.stmts decl declared stmt inside)
      (regular decl declared stmt inside).1 fun name ty known => ?_
    obtain ⟨var, mem, rfl⟩ := exists_of_declaredTy? known
    exact supported.declared decl declared var mem
  obtain ⟨unit, accepted⟩ := succeeds_lowerProgram
    (fun decl declared => ⟨_, found decl declared⟩)
    (fun decl declared stmt inside => (regular decl declared stmt inside).2) .fresh
  cases made : (assembleClass options unit).value with
  | error error =>
      obtain ⟨method, mem, instr, mem', refusal⟩ := exists_of_assembleClass_error made
      obtain ⟨decl, declared, entry, _, _, _, lowered⟩ := exists_of_mem_methods accepted mem
      obtain rfl : .ofDecl decl = entry :=
        Option.some.inj ((found decl declared).symm.trans lowered.found)
      refine absurd refusal (not_refused_of_furnished lowered (furnished decl declared)
        (fun isStatic stmt inside => ?_) mem' options unit error)
      exact (supported.stmts decl declared stmt inside).receivers isStatic
  | ok assembled =>
      refine ⟨⟨unit.text, assembled.text options.indent⟩, ?_⟩
      simp only [compile, lower, Noted.value_bind, accepted, made]
      rfl

/-- In a class with a field `total` and the method `pick`: `static int first(int[]
xs)` returns the first item, and `int fill(boolean stop, String name)` makes an
array and fills it with what `pick` returns. -/
def fillProgram : Program where
  imports := []
  decl :=
    { name := "Foo", superName := none, fields := [⟨"total", .int⟩]
      methods :=
        [pickDecl,
         { name := "first", isPublic := true, isStatic := true
           params := [.plain "xs" (.arrayOf "int")], ret := .int, locals := []
           body := [.ret (some (.indexOf (.var "xs" (.arrayOf "int")) (.intOf 0)))] },
         { name := "fill", isPublic := true, isStatic := false
           params := [.plain "stop" .boolean, .plain "name" (.object "String")], ret := .int
           locals := [⟨"xs", .arrayOf "int"⟩, ⟨"i", .int⟩]
           body :=
             let xs : Expr := .var "xs" (.arrayOf "int")
             let i : Expr := .var "i" .int
             let total : Expr := .var "total" .int
             let stop : Expr := .var "stop" .boolean
             [.assign xs (.newArrayOf .int (.intOf 3)),
               .whileLoop (.binaryOf .and (.binaryOf .lt i (.lengthOf xs)) (.notOf stop))
                 (.block
                   [.assign (.indexOf xs i)
                     (.call (.thisOf "Foo") "pick" [i, .intOf 1, .intOf 2] .int),
                     .assign total (.binaryOf (.arith .add) total (.indexOf xs i)),
                     .assign i (.binaryOf (.arith .add) i (.intOf 1))]),
               .ifElse stop
                 (.expr (.call (.var "name" (.object "String")) "length" [] .int))
                 (.expr (.call (.newObjectOf "Foo") "pick" [.intOf 7] .int)),
               .ret (some (.call (.var "Foo" (.object "Foo")) "first" [xs] .int))] }] }

theorem compiles_of_supported_fill :
    let options : Options := { iinc := false, indent := "  " }
    Supported fillProgram ∧ Regular fillProgram ∧
      ∃ output, (compile options (.collect fillProgram) fillProgram).value = .ok output := by
  intro options
  have supported : Supported fillProgram := by decide +kernel
  have regular : Regular fillProgram := by decide +kernel
  exact ⟨supported, regular, compiles_of_supported supported regular options⟩

/-! ## Supported programs that do not compile -/

/-- A class with a method `run` and perhaps another one. -/
def runProgram (others : List MethodDecl) (params : List Param) (body : List Stmt) : Program where
  imports := []
  decl :=
    { name := "Foo", superName := none, fields := []
      methods := others ++
        [{ name := "run", isPublic := true, isStatic := false, params := params
           ret := .void, locals := [], body := body }] }

/-- `this.gather()`, where the method is declared as `void gather(String... names)`. -/
def gatherProgram : Program :=
  runProgram
    [{ name := "gather", isPublic := true, isStatic := false
       params := [.variadic "names" (.object "String")], ret := .void, locals := [], body := [] }]
    [] [.expr (.call (.thisOf "Foo") "gather" [] .void)]

/-- `(5) = 1`. -/
def parenProgram : Program := runProgram [] [] [.assign (.parenOf (.intOf 5)) (.intOf 1)]

/-- `xs[0]` for an array `xs` of nothing. -/
def nothingProgram : Program :=
  runProgram [] [.plain "xs" (.arrayOf "void")]
    [.expr (.indexOf (.var "xs" (.arrayOf "void")) (.intOf 0))]

/-- `foo[0].run(foo)` for an object `foo`. -/
def objectProgram : Program :=
  let foo : Expr := .var "foo" (.object "Foo")
  runProgram [] [.plain "foo" (.object "Foo")]
    [.expr (.call (.indexOf foo (.intOf 0)) "run" [foo] .void)]

/-- Supported programs that are not regular, one for each way.  All but the last
one are well-typed. -/
theorem not_compiles_of_supported :
    let compiled program := (compile {} (.collect program) program).value
    let wellTyped program := ∀ decl ∈ program.decl.methods,
      WellTyped (scopeOf program decl) decl.body
    (Supported gatherProgram ∧ wellTyped gatherProgram ∧
      compiled gatherProgram = .error (.unsupported (.arrayOf (.array .string)))) ∧
    (Supported parenProgram ∧ wellTyped parenProgram ∧
      compiled parenProgram = .error (.unsupported (.assignment (.int 5)))) ∧
    (Supported nothingProgram ∧ wellTyped nothingProgram ∧
      compiled nothingProgram = .error (.unsupported (.voidStore "tmp0"))) ∧
    (Supported objectProgram ∧
      compiled objectProgram = .error (.unsupported (.memberOf .int))) := by
  decide +kernel

end MiniJava
