import MiniJava.Compile
import MiniJava.Proofs.Assembly.Path
import MiniJava.Proofs.Lowering.Calls
import MiniJava.Proofs.Symbols

/-!
# Calls between the methods of a class

A call finds its method by a name and a descriptor.  Where a method of the same
class is called, the descriptor of the call comes from the types of what is
passed, and that of the header from the declared parameters.  They are the same
if the arguments have the declared types (`Fits`).  Nothing is converted: an
argument of a subclass shows in the descriptor of the call.

Whether a call is static comes from its receiver, and whether a header is from
the modifier of the method.  A call on the name of the class is static, and a
call on a value is not, whatever the method.

The calls of compiled code are compared with those of the source one by one, in
the order of the code.
-/

namespace MiniJava

open Source (Expr Scope SymbolTable MethodDecl MethodEntry Program Var)
open Tac Semantics Lowering

/-! ## Lists side by side -/

theorem forall₂_comp {α β γ : Type} {R : α → β → Prop} {S : β → γ → Prop} {as : List α}
    {bs : List β} {cs : List γ} (h : List.Forall₂ R as bs) (h' : List.Forall₂ S bs cs) :
    List.Forall₂ (fun a c => ∃ b, R a b ∧ S b c) as cs := by
  induction h generalizing cs with
  | nil =>
      cases h'
      exact .nil
  | cons first _ induction =>
      cases h' with
      | cons first' rest' => exact .cons ⟨_, first, first'⟩ (induction rest')

theorem exists_of_forall₂ {α β : Type} {R : α → β → Prop} {as : List α} {bs : List β}
    (h : List.Forall₂ R as bs) {a : α} (mem : a ∈ as) : ∃ b ∈ bs, R a b := by
  induction h with
  | nil => cases mem
  | cons first _ induction =>
      rcases List.mem_cons.mp mem with rfl | mem
      · exact ⟨_, List.mem_cons_self, first⟩
      · obtain ⟨b, mem', related⟩ := induction mem
        exact ⟨b, List.mem_cons_of_mem _ mem', related⟩

/-! ## Arguments of the declared types -/

namespace Source.MethodEntry

variable {entry : MethodEntry} {ty : Source.Ty}

theorem fixedArity_of_variadicTy?_eq_none (h : entry.variadicTy? = none) :
    entry.fixedArity = entry.params.length := by
  rw [variadicTy?] at h
  rw [fixedArity]
  split at h
  · rw [if_pos ‹_›]
    rw [Option.map_eq_none_iff, List.getLast?_eq_none_iff] at h
    rw [h]
    rfl
  · rw [if_neg ‹_›]

/-- The variadic parameter comes last. -/
theorem params_of_variadicTy?_eq_some (h : entry.variadicTy? = some ty) :
    ∃ last, last.ty = ty ∧ entry.params = entry.params.take entry.fixedArity ++ [last] := by
  rw [variadicTy?] at h
  split at h
  · obtain ⟨last, found, rfl⟩ := Option.map_eq_some_iff.mp h
    refine ⟨last, rfl, ?_⟩
    rw [fixedArity, if_pos ‹_›, ← List.dropLast_eq_take]
    exact (List.dropLast_append_getLast? last found).symm
  · cases h

end Source.MethodEntry

/-- The arguments of a call have the types that a method declares.  What a
variadic method has packed for it does not show in a descriptor. -/
structure Fits (scope : Scope) (entry : MethodEntry) (args : List Expr) : Prop where
  /-- The annotations are those that the parts determine. -/
  honest : ∀ arg ∈ args.take entry.fixedArity, typeOf scope arg = .ofSource arg.ty
  direct : (args.take entry.fixedArity).map Expr.ty =
    (entry.params.take entry.fixedArity).map Var.ty
  exact : entry.variadicTy? = none → args.drop entry.fixedArity = []
  array : ∀ ty, entry.variadicTy? = some ty → ty.isArray = true
  /-- What is annotated as the array of a variadic method is such an array. -/
  passedOn : ∀ arg, args.drop entry.fixedArity = [arg] → entry.variadicTy? = some arg.ty →
    typeOf scope arg = .ofSource arg.ty

namespace Fits

variable {scope : Scope} {entry : MethodEntry} {args : List Expr}

theorem tys_direct (fits : Fits scope entry args) :
    (args.take entry.fixedArity).map (typeOf scope) =
      (entry.params.take entry.fixedArity).map fun param => .ofSource param.ty := by
  have declared := congrArg (List.map Ty.ofSource) fits.direct
  rw [List.map_map, List.map_map] at declared
  exact (List.map_congr_left fits.honest).trans declared

theorem length_le (fits : Fits scope entry args) : entry.fixedArity ≤ args.length := by
  have same := congrArg List.length fits.direct
  have le : entry.fixedArity ≤ entry.params.length := by
    rw [MethodEntry.fixedArity]
    split <;> omega
  simp only [List.length_map, List.length_take] at same
  omega

/-- What is left over for a variadic method and not collected is one array. -/
theorem tys_passedOn (fits : Fits scope entry args) {ty : Source.Ty}
    (variadic : entry.variadicTy? = some ty)
    (alone : (args.map Expr.ty).drop entry.fixedArity = [ty]) :
    (args.drop entry.fixedArity).map (typeOf scope) = [.ofSource ty] := by
  rw [← List.map_drop] at alone
  obtain ⟨arg, single, rfl⟩ := List.map_eq_singleton_iff.mp alone
  rw [single, List.map_singleton, fits.passedOn arg single variadic]

/-- An array is passed on as it is, anything else is packed into an array; the
types are the same. -/
theorem passedTys_eq (fits : Fits scope entry args) :
    passedTys scope (some entry) args = entry.params.map fun param => .ofSource param.ty := by
  rw [passedTys, Option.bind_some, collected?_eq]
  cases variadic : entry.variadicTy? with
  | none =>
      have all : args.take entry.fixedArity = args := by
        simpa [fits.exact variadic] using List.take_append_drop entry.fixedArity args
      have direct := fits.tys_direct
      rw [all, MethodEntry.fixedArity_of_variadicTy?_eq_none variadic, List.take_length] at direct
      exact direct
  | some ty =>
      obtain ⟨last, rfl, params⟩ := MethodEntry.params_of_variadicTy?_eq_some variadic
      have array : Ty.ofSource last.ty = .array (.ofSource last.ty.element) := by
        rw [Ty.ofSource, if_pos (fits.array _ variadic)]
        rfl
      rw [params, List.map_append, ← fits.tys_direct, List.map_singleton, Option.bind_some,
        List.length_map]
      by_cases alone : (args.map Expr.ty).drop entry.fixedArity = [last.ty]
      · rw [if_neg fun packs => packs.2 alone, ← fits.tys_passedOn variadic alone,
          ← List.map_append, List.take_append_drop]
      · rw [if_pos ⟨fits.length_le, alone⟩, array]

end Fits

/-! ## Calls of machine code -/

namespace Jasmin

/-- What a call of machine code refers to. -/
structure Invocation where
  kind : CallKind
  owner : String
  method : String
  descriptor : MethodDescriptor
deriving DecidableEq, Repr

/-- Whether a call runs a constructor. -/
def Invocation.isConstructor (invocation : Invocation) : Bool :=
  invocation.kind = .special && invocation.method = "<init>"

def Instr.invocation? : Instr → Option Invocation
  | .invoke kind owner method descriptor => some ⟨kind, owner, method, descriptor⟩
  | _ => none

/-- The calls of machine code, in order and without those of constructors. -/
def invocations (code : List Instr) : List Invocation :=
  (code.filterMap Instr.invocation?).filter fun invocation => !invocation.isConstructor

@[simp]
theorem invocations_append (first second : List Instr) :
    invocations (first ++ second) = invocations first ++ invocations second := by
  simp [invocations]

theorem invocations_cons_of_none {instr : Instr} (h : instr.invocation? = none)
    (rest : List Instr) : invocations (instr :: rest) = invocations rest := by
  simp [invocations, h]

namespace Frame

/-- What the assembled call refers to. -/
def invocationOf (frame : Frame) (call : Call) : Invocation :=
  ⟨call.kind, frame.calleeOwner call, call.method,
    .ofTys frame.imports (call.args.map Element.ty) call.ret⟩

variable {frame : Frame} {before after : Height} {code : List Instr}

theorem ElementCode.invocation? {elem : Element} {instr : Instr}
    (h : ElementCode frame elem instr) : instr.invocation? = none := by
  cases h with
  | load found => rfl
  | literal constant =>
      obtain ⟨-, value, -, rfl⟩ | ⟨-, -, rfl⟩ := constant_eq_ok constant
      · rw [Instr.ofInt]
        repeat' split
        all_goals rfl
      · rfl

theorem invocations_of_elements {elems : List Element}
    (h : List.Forall₂ (ElementCode frame) elems code) : invocations code = [] := by
  induction h with
  | nil => rfl
  | cons first _ rest => rw [invocations_cons_of_none first.invocation?, rest]

theorem invocations_of_call {call : Call} (h : CallCode frame call before code after) :
    invocations code =
      ((some call).filter fun call => !call.isConstructor).toList.map frame.invocationOf := by
  obtain ⟨operands, pushed, rfl⟩ := h.code_eq
  rw [invocations_append, invocations_of_elements pushed, List.nil_append]
  have same : (frame.invocationOf call).isConstructor = call.isConstructor := rfl
  show [frame.invocationOf call].filter (fun invocation => !invocation.isConstructor) = _
  cases other : call.isConstructor <;> simp [Option.filter, same, other]

/-- An expression is assembled with the one call that it makes. -/
theorem invocations_of_rhs {rhs : Rhs} (h : RhsCode frame rhs before code after) :
    invocations code =
      (rhs.call?.filter fun call => !call.isConstructor).toList.map frame.invocationOf := by
  cases h with
  | call made => exact invocations_of_call made
  | new => rfl
  | element first | newArray _ first | length first | getField first | not first _ =>
      rw [invocations_cons_of_none first.invocation?]
      rfl
  | arith first second _ | index first second _ =>
      rw [invocations_cons_of_none first.invocation?, invocations_cons_of_none second.invocation?]
      rfl

theorem invocations_of_compare {isLess : Bool} {left right : Element} {target : Label}
    (h : CompareCode frame isLess left right target before code after) : invocations code = [] := by
  cases h with
  | rightLiteral _ first second _ _ | leftLiteral _ _ first second _ _
  | noLiteral _ _ first second _ _ =>
      rw [invocations_cons_of_none first.invocation?, invocations_cons_of_none second.invocation?]
      rfl

/-- An instruction is assembled with the one call that it makes. -/
theorem invocations_of_instr {instr : Tac.Instr} (h : InstrCode frame instr before code after) :
    invocations code = (calls [instr]).map frame.invocationOf := by
  rw [calls_cons, calls_nil, List.append_nil]
  cases h with
  | increment small found =>
      obtain ⟨op, lit, -, -, rfl | rfl⟩ := (increment_of_eq_some small).sum
      · rfl
      · rfl
  | set _ _ value _ _ | branch value _ =>
      rw [invocations_append, invocations_of_rhs value, invocations_cons_of_none rfl]
      exact List.append_nil _
  | setCell first second value _ =>
      rw [invocations_cons_of_none first.invocation?, invocations_cons_of_none second.invocation?,
        invocations_append, invocations_of_rhs value, invocations_cons_of_none rfl]
      exact List.append_nil _
  | putField first second _ =>
      rw [invocations_cons_of_none first.invocation?, invocations_cons_of_none second.invocation?]
      rfl
  | callVoid _ made => exact invocations_of_call made
  | callPop _ made _ =>
      rw [invocations_append, invocations_of_call made, invocations_cons_of_none rfl]
      exact List.append_nil _
  | goto | label | ret => rfl
  | branchLess made | branchAtLeast made => exact invocations_of_compare made
  | retValue first _ =>
      rw [invocations_cons_of_none first.invocation?]
      rfl

/-- Assembled code makes the calls of the code that is assembled. -/
theorem invocations_of_instrs : ∀ {body : List Tac.Instr} {height after : Height}
    {code : List Instr}, (frame.instrs body height).value = .ok (code, after) →
    invocations code = (calls body).map frame.invocationOf
  | [], _, _, _, assembled => by
      cases assembled
      rfl
  | first :: rest, _, _, _, assembled => by
      obtain ⟨⟨_, block, between⟩, others, accepted, remaining, rfl⟩ := instrs_cons_eq_ok assembled
      have made : InstrCode frame first _ block between := emits_instr accepted
      rw [invocations_append, invocations_of_instr made, invocations_of_instrs remaining,
        ← List.map_append, ← calls_append, List.singleton_append]

end Frame

/-! ## What compilation is made of -/

/-- The header of an assembled method, and the calls in its code. -/
structure AssembledMethod (options : Options) (unit : Tac.Class) (method : Tac.Method)
    (assembled : Method) : Prop where
  name : assembled.name = method.name
  isStatic : assembled.isStatic = method.isStatic
  descriptor : assembled.descriptor =
    .ofTys unit.imports (method.params.map Operand.ty) method.ret
  invocations : invocations assembled.code =
    (calls method.body).map (Frame.of options unit method).invocationOf

theorem assembledMethod_of_ok {options : Options} {unit : Tac.Class} {method : Tac.Method}
    {assembled : Method} (ok : (assembleMethod options unit method).value = .ok assembled) :
    AssembledMethod options unit method assembled := by
  rw [assembleMethod] at ok
  simp only [Noted.value_bind, Noted.value_pure] at ok
  cases body : ((Frame.of options unit method).instrs method.body {}).value with
  | error error => rw [body] at ok; cases ok
  | ok result =>
      rw [body] at ok
      cases ok
      exact ⟨rfl, rfl, rfl, Frame.invocations_of_instrs body⟩

theorem forall₂_of_assembleMethods {options : Options} {unit : Tac.Class} :
    ∀ {methods : List Tac.Method} {assembled : List Method},
      (assembleMethods options unit methods).value = .ok assembled →
      List.Forall₂ (AssembledMethod options unit) methods assembled
  | [], _, ok => by
      cases ok
      exact .nil
  | method :: rest, _, ok => by
      rw [assembleMethods] at ok
      simp only [Noted.value_bind] at ok
      cases first : (assembleMethod options unit method).value with
      | error error => rw [first] at ok; cases ok
      | ok head =>
          rw [first] at ok
          simp only [Noted.value_bind, Noted.value_pure] at ok
          cases others : (assembleMethods options unit rest).value with
          | error error => rw [others] at ok; cases ok
          | ok tail =>
              rw [others] at ok
              cases ok
              exact .cons (assembledMethod_of_ok first) (forall₂_of_assembleMethods others)

end Jasmin

/-- What a compiled method is made of: a header from the declaration, and code
with the calls of the body. -/
structure CompiledMethod (symbols : SymbolTable) (imports : List String) (decl : MethodDecl)
    (entry : MethodEntry) (header : Jasmin.Method) : Prop where
  found : symbols.method? decl.name = some entry
  name : header.name = decl.name
  isStatic : header.isStatic = decl.isStatic
  descriptor : header.descriptor = .ofTys imports
    (decl.params.map fun param => .ofSource param.ty) (.ofSource entry.ret)
  calls : ∃ frame : Jasmin.Frame, frame.imports = imports ∧
    List.Forall₂ (fun site invocation =>
        ∃ call, Realizes ⟨symbols, entry⟩ site call ∧ invocation = frame.invocationOf call)
      (callReading.stmts ⟨symbols, entry⟩ decl.body) (Jasmin.invocations header.code)

theorem Lowering.LoweredMethod.compiled {symbols : SymbolTable} {decl : MethodDecl}
    {entry : MethodEntry} {names after : Names} {code : List Instr} {method : Tac.Method}
    (lowered : LoweredMethod symbols decl entry names code after method) {options : Options}
    {unit : Tac.Class} {header : Jasmin.Method}
    (assembled : Jasmin.AssembledMethod options unit method header) :
    CompiledMethod symbols unit.imports decl entry header where
  found := lowered.found
  name := assembled.name.trans lowered.name
  isStatic := assembled.isStatic.trans lowered.isStatic
  descriptor := by
    rw [assembled.descriptor, lowered.params, lowered.ret, List.map_map]
    rfl
  calls := by
    refine ⟨.of options unit method, rfl, ?_⟩
    have closed : MiniJava.calls (closing ⟨symbols, entry⟩ decl.body) = [] := by
      rw [closing]
      split <;> rfl
    rw [assembled.invocations, lowered.body, calls_append, closed, List.append_nil,
      List.forall₂_map_right_iff]
    have made := (callSurvey ⟨symbols, entry⟩).yields_lowerStmts decl.body lowered.gives
    exact made.imp fun site call realizes => ⟨call, realizes, rfl⟩

/-- A compiled program has one compiled method for each that it declares. -/
theorem forall₂_of_compile {options : Options} {symbols : SymbolTable} {program : Program}
    {output : Output} (ok : (compile options symbols program).value = .ok output) :
    ∃ unit : Jasmin.Class, output.assembly = unit.text options.indent ∧
      List.Forall₂ (fun decl header =>
          ∃ entry, CompiledMethod symbols program.imports decl entry header)
        program.decl.methods unit.methods := by
  rw [compile, lower] at ok
  simp only [Noted.value_bind] at ok
  cases lowered : ((lowerProgram symbols program).run .fresh).value with
  | error error => rw [lowered] at ok; cases ok
  | ok lowered' =>
      rw [lowered] at ok
      simp only [Noted.value_bind] at ok
      cases assembled : (Jasmin.assembleClass options lowered').value with
      | error error => rw [assembled] at ok; cases ok
      | ok unit =>
          rw [assembled] at ok
          cases ok
          refine ⟨unit, rfl, ?_⟩
          obtain ⟨methods, _, _, _, gives, finished, _⟩ := Gives.bind ⟨lowered, rfl, rfl⟩
          obtain rfl := Except.ok.inj finished.value_eq
          rw [Jasmin.assembleClass] at assembled
          simp only [Noted.value_bind, Noted.value_pure] at assembled
          cases each : (Jasmin.assembleMethods options _ methods).value with
          | error error => rw [each] at assembled; cases assembled
          | ok headers =>
              rw [each] at assembled
              cases assembled
              refine (forall₂_comp (forall₂_of_lowerMethods gives)
                (Jasmin.forall₂_of_assembleMethods each)).imp ?_
              rintro decl header ⟨method, ⟨entry, _, _, _, lowered⟩, assembled⟩
              exact ⟨entry, lowered.compiled assembled⟩

/-! ## Links -/

namespace CallSite

variable {scope : Scope} {site : CallSite} {entry : MethodEntry}

theorem method?_of_callee? (callee : site.callee? scope = some entry) :
    scope.symbols.method? site.method = some entry := by
  rw [callee?, ownMethod?] at callee
  split at callee
  · exact callee
  · cases callee

/-- A method of the class is called on a value or on the name of the class. -/
theorem kind_of_callee? (callee : site.callee? scope = some entry) :
    site.kind scope = .static ↔
      Dispatch.ofReceiver scope site.receiver = .onClass scope.symbols.className := by
  rw [callee?, ownMethod?, isOwn] at callee
  rw [kind]
  cases dispatch : Dispatch.ofReceiver scope site.receiver with
  | onValue => simp
  | onClass name =>
      rw [dispatch] at callee
      have same : name = scope.symbols.className := by
        by_contra other
        simp [other] at callee
      simp [same]
  | assumed name =>
      rw [dispatch] at callee
      simp at callee

end CallSite

/-- What a call of compiled code and the header of the method that it calls have
in common. -/
structure LinksTo (scope : Scope) (site : CallSite) (entry : MethodEntry)
    (invocation : Jasmin.Invocation) (header : Jasmin.Method) : Prop where
  name : invocation.method = header.name
  descriptor : Fits scope entry site.args → invocation.descriptor = header.descriptor
  kind : invocation.kind = .static ↔
    Dispatch.ofReceiver scope site.receiver = .onClass scope.symbols.className
  isStatic : header.isStatic = entry.isStatic

/-- A call that is made the way its source determines links to the header that
its declaration determines. -/
theorem Realizes.linksTo {scope : Scope} {site : CallSite} {call : Call} {frame : Jasmin.Frame}
    {decl : MethodDecl} {header : Jasmin.Method} (realizes : Realizes scope site call)
    (callee : site.callee? scope = some (.ofDecl decl)) (called : decl.name = site.method)
    (name : header.name = decl.name) (isStatic : header.isStatic = decl.isStatic)
    (descriptor : header.descriptor = .ofTys frame.imports
      (decl.params.map fun param => .ofSource param.ty) (.ofSource decl.ret)) :
    LinksTo scope site (.ofDecl decl) (frame.invocationOf call) header where
  name := by
    rw [name, called]
    exact realizes.method
  descriptor := by
    intro fits
    have args : call.args.map Element.ty = decl.params.map fun param => .ofSource param.ty := by
      rw [realizes.args, callee, fits.passedTys_eq]
      exact List.map_map
    rw [descriptor, Jasmin.Frame.invocationOf, args, realizes.ret _ callee]
    rfl
  kind := by
    rw [← CallSite.kind_of_callee? callee, ← realizes.kind]
    rfl
  isStatic := isStatic

/-- The calls of a program and those of a class stand against each other in
order, method by method.  Where a method of the class is called, the call links
to the header of that method. -/
structure Links (program : Program) (unit : Jasmin.Class) : Prop where
  names : unit.methods.map Jasmin.Method.name = program.decl.methods.map MethodDecl.name
  calls : List.Forall₂ (fun caller assembled =>
      let scope : Scope := ⟨.collect program, .ofDecl caller⟩
      List.Forall₂ (fun site invocation => ∀ entry, site.callee? scope = some entry →
          ∃ header ∈ unit.methods, LinksTo scope site entry invocation header)
        (callReading.stmts scope caller.body) (Jasmin.invocations assembled.code))
    program.decl.methods unit.methods

/-- Calls between the methods of a compiled class link.  The code names the
method as its header does, and with the same descriptor if the arguments fit.
The call is static if it is made on the name of the class, and the header if
the method is declared so. -/
theorem links_of_compile {options : Options} {program : Program} {output : Output}
    (distinct : (program.decl.methods.map MethodDecl.name).Nodup)
    (compiled : (compile options (.collect program) program).value = .ok output) :
    ∃ unit : Jasmin.Class, output.assembly = unit.text options.indent ∧ Links program unit := by
  obtain ⟨unit, text, each⟩ := forall₂_of_compile compiled
  have entry_eq : ∀ decl ∈ program.decl.methods, ∀ entry header,
      CompiledMethod (.collect program) program.imports decl entry header →
      entry = .ofDecl decl := fun decl declared entry header made =>
    Option.some.inj (made.found.symm.trans (method?_collect distinct declared))
  refine ⟨unit, text, ?_, ?_⟩
  · have names := each.imp fun decl header ⟨_, made⟩ => made.name.symm
    rw [← List.forall₂_map_right_iff, ← List.forall₂_map_left_iff, List.forall₂_eq_eq_eq] at names
    exact names.symm
  · refine ((List.forall₂_and_left _ _).mpr ⟨fun _ declared => declared, each⟩).imp ?_
    rintro caller assembled ⟨declared, entry, made⟩
    obtain rfl := entry_eq caller declared entry assembled made
    obtain ⟨frame, imports, calls⟩ := made.calls
    refine calls.imp ?_
    rintro site invocation ⟨call, realizes, rfl⟩ entry callee
    obtain ⟨decl, declared', called, rfl⟩ :=
      exists_of_method?_collect (CallSite.method?_of_callee? callee)
    obtain ⟨header, mem, entry', made'⟩ := exists_of_forall₂ each declared'
    obtain rfl := entry_eq decl declared' entry' header made'
    refine ⟨header, mem, realizes.linksTo callee called made'.name made'.isStatic ?_⟩
    rw [imports]
    exact made'.descriptor

theorem exists_of_isOk {ε α : Type} : ∀ {result : Except ε α}, result.isOk = true →
    ∃ value, result = .ok value
  | .ok value, _ => ⟨value, rfl⟩

/-- `int pick(int first, int... rest)`. -/
def pickDecl : MethodDecl where
  name := "pick"
  isPublic := true
  isStatic := false
  params := [.plain "first" .int, .variadic "rest" .int]
  ret := .int
  locals := []
  body := [.ret (some (.var "first" .int))]

/-- `int run()` returns `this.pick(7, 8, 9)`. -/
def pickCaller : MethodDecl where
  name := "run"
  isPublic := true
  isStatic := false
  params := []
  ret := .int
  locals := []
  body := [.ret (some (.call (.thisOf "Foo") "pick" [.intOf 7, .intOf 8, .intOf 9] .int))]

def pickProgram : Program := ⟨[], ⟨"Foo", none, [], [pickDecl, pickCaller]⟩⟩

theorem links_of_compile_pick :
    let scope : Scope := ⟨.collect pickProgram, .ofDecl pickCaller⟩
    let site : CallSite := ⟨.thisOf "Foo", "pick", [.intOf 7, .intOf 8, .intOf 9]⟩
    (pickProgram.decl.methods.map MethodDecl.name).Nodup ∧
    callReading.stmts scope pickCaller.body = [site] ∧
    site.callee? scope = some (.ofDecl pickDecl) ∧ Fits scope (.ofDecl pickDecl) site.args ∧
    ∃ output, (compile {} (.collect pickProgram) pickProgram).value = .ok output ∧
      ∃ unit : Jasmin.Class, output.assembly = unit.text (Options.indent {}) ∧
        Links pickProgram unit := by
  intro scope site
  have distinct : (pickProgram.decl.methods.map MethodDecl.name).Nodup := by decide
  have fits : Fits scope (.ofDecl pickDecl) site.args :=
    { honest := by decide
      direct := by decide
      exact := by decide
      array := by rintro ty ⟨⟩; rfl
      passedOn := by rintro arg ⟨⟩ }
  have ok : (compile {} (.collect pickProgram) pickProgram).value.isOk = true := by
    decide +kernel
  refine ⟨distinct, rfl, by decide, fits, ?_⟩
  obtain ⟨output, compiled⟩ := exists_of_isOk ok
  exact ⟨output, compiled, links_of_compile distinct compiled⟩

/-- In a class that extends `Bar`: `void take(Bar bar)`, `static int zero()`, and
a method that calls them by `this.take(this)` and `this.zero()`. -/
def looseProgram : Program where
  imports := []
  decl :=
    { name := "Foo", superName := some "Bar", fields := []
      methods :=
        [{ name := "take", isPublic := true, isStatic := false
           params := [.plain "bar" (.object "Bar")], ret := .void, locals := [], body := [] },
         { name := "zero", isPublic := true, isStatic := true, params := []
           ret := .int, locals := [], body := [.ret (some (.intOf 0))] },
         { name := "run", isPublic := true, isStatic := false, params := []
           ret := .void, locals := []
           body := [.expr (.call (.thisOf "Foo") "take" [.thisOf "Foo"] .void),
             .expr (.call (.thisOf "Foo") "zero" [] .int)] }] }

/-- An argument of the class where its superclass is declared gives the call
another descriptor than the header, and a static method that is called on a
value is not called as one. -/
theorem not_links_of_compile_loose :
    let unit := do
      let unit ← (lower (.collect looseProgram) looseProgram).value
      (Jasmin.assembleClass {} unit).value
    (looseProgram.decl.methods.map MethodDecl.name).Nodup ∧
    (compile {} (.collect looseProgram) looseProgram).value.isOk = true ∧
    (unit.map fun unit => unit.methods.map fun method =>
        (method.name, method.isStatic, method.descriptor.text)) =
      .ok [("take", false, "(LBar;)V"), ("zero", true, "()I"), ("run", false, "()V")] ∧
    (unit.map fun unit => unit.methods.map fun method =>
        (Jasmin.invocations method.code).map fun invocation =>
          (invocation.method, invocation.kind, invocation.descriptor.text)) =
      .ok [[], [], [("take", .virtual, "(LFoo;)V"), ("zero", .virtual, "()I")]] := by
  decide +kernel

end MiniJava
