import MiniJava.Proofs.Lowering.Survey

/-!
# The calls of lowered code

The calls of an expression are taken in the order in which they are made: those
of the receiver, those of the arguments from left to right, then the call
itself (`callsOf`).  Lowering leaves out the calls in a receiver that falls
under no dispatch rule, because such a receiver is taken for the name of a
class and is not evaluated (`callsMade`).  All other calls are made, once and
in order.

What is proved of code says more than which methods are called: every call of
the source stands against one call of the code, and that call is made the way
the source determines (`Realizes`).
-/

namespace MiniJava

open Source (Expr Stmt Scope SymbolTable MethodEntry)
open Tac Semantics Lowering

/-! ## Calls of the source -/

mutual

/-- The calls in an expression in the order of evaluation. -/
def callsOf : Expr → List CallSite
  | .int _ _ | .bool _ _ | .this _ | .var _ _ | .newObject _ _ => []
  | .binary _ lhs rhs _ => callsOf lhs ++ callsOf rhs
  | .not operand _ => callsOf operand
  | .paren inner _ => callsOf inner
  | .newArray _ size _ => callsOf size
  | .arrayInit items _ => callsOfAll items
  | .index array position _ => callsOf array ++ callsOf position
  | .length array _ => callsOf array
  | .call receiver method args _ =>
      callsOf receiver ++ callsOfAll args ++ [⟨receiver, method, args⟩]

def callsOfAll : List Expr → List CallSite
  | [] => []
  | expr :: rest => callsOf expr ++ callsOfAll rest

end

section
variable (scope : Scope)

mutual

/-- The calls in an expression without those in receivers that fall under no
dispatch rule. -/
def callsMade : Expr → List CallSite
  | .int _ _ | .bool _ _ | .this _ | .var _ _ | .newObject _ _ => []
  | .binary _ lhs rhs _ => callsMade lhs ++ callsMade rhs
  | .not operand _ => callsMade operand
  | .paren inner _ => callsMade inner
  | .newArray _ size _ => callsMade size
  | .arrayInit items _ => callsMadeAll items
  | .index array position _ => callsMade array ++ callsMade position
  | .length array _ => callsMade array
  | .call receiver method args _ =>
      (match Dispatch.ofReceiver scope receiver with
        | .assumed _ => []
        | _ => callsMade receiver)
        ++ callsMadeAll args ++ [⟨receiver, method, args⟩]

def callsMadeAll : List Expr → List CallSite
  | [] => []
  | expr :: rest => callsMade expr ++ callsMadeAll rest

end

mutual

/-- No call is made that the source does not have, nor out of order. -/
theorem callsMade_sublist : ∀ expr, (callsMade scope expr).Sublist (callsOf expr)
  | .int _ _ | .bool _ _ | .this _ | .var _ _ | .newObject _ _ => .slnil
  | .binary _ lhs rhs _ => (callsMade_sublist lhs).append (callsMade_sublist rhs)
  | .not operand _ => callsMade_sublist operand
  | .paren inner _ => callsMade_sublist inner
  | .newArray _ size _ => callsMade_sublist size
  | .arrayInit items _ => callsMadeAll_sublist items
  | .index array position _ => (callsMade_sublist array).append (callsMade_sublist position)
  | .length array _ => callsMade_sublist array
  | .call receiver method args _ => by
      rw [callsMade, callsOf]
      refine (List.Sublist.append ?_ (callsMadeAll_sublist args)).append (.refl _)
      split
      · exact List.nil_sublist _
      · exact callsMade_sublist receiver

theorem callsMadeAll_sublist : ∀ exprs, (callsMadeAll scope exprs).Sublist (callsOfAll exprs)
  | [] => .slnil
  | expr :: rest => (callsMade_sublist expr).append (callsMadeAll_sublist rest)

end

end

/-- Parts that could only lose items together lose none if the whole does not. -/
theorem append_eq_append_iff_of_sublist {α : Type} {first first' second second' : List α}
    (h : first.Sublist first') (h' : second.Sublist second') :
    first ++ second = first' ++ second' ↔ first = first' ∧ second = second' := by
  constructor
  · intro same
    have total := congrArg List.length same
    rw [List.length_append, List.length_append] at total
    have le := h.length_le
    have le' := h'.length_le
    exact ⟨h.eq_of_length (by omega), h'.eq_of_length (by omega)⟩
  · rintro ⟨rfl, rfl⟩
    rfl

section
variable (scope : Scope)

mutual

/-- All calls are made exactly if no receiver that falls under no dispatch rule
contains one. -/
theorem callsMade_eq_callsOf_iff : ∀ expr, callsMade scope expr = callsOf expr ↔
    ∀ receiver ∈ assumedReceivers scope expr, callsOf receiver = []
  | .int _ _ | .bool _ _ | .this _ | .var _ _ | .newObject _ _ => by
      simp [callsMade, callsOf, assumedReceivers]
  | .binary _ lhs rhs _ => by
      rw [callsMade, callsOf, assumedReceivers, List.forall_mem_append,
        append_eq_append_iff_of_sublist (callsMade_sublist scope lhs) (callsMade_sublist scope rhs),
        callsMade_eq_callsOf_iff lhs, callsMade_eq_callsOf_iff rhs]
  | .not operand _ => callsMade_eq_callsOf_iff operand
  | .paren inner _ => callsMade_eq_callsOf_iff inner
  | .newArray _ size _ => callsMade_eq_callsOf_iff size
  | .arrayInit items _ => callsMadeAll_eq_callsOfAll_iff items
  | .index array position _ => by
      rw [callsMade, callsOf, assumedReceivers, List.forall_mem_append,
        append_eq_append_iff_of_sublist (callsMade_sublist scope array)
          (callsMade_sublist scope position),
        callsMade_eq_callsOf_iff array, callsMade_eq_callsOf_iff position]
  | .length array _ => callsMade_eq_callsOf_iff array
  | .call receiver method args _ => by
      have onReceiver := callsMade_eq_callsOf_iff receiver
      have onArgs := callsMadeAll_eq_callsOfAll_iff args
      rw [callsMade, callsOf, List.append_cancel_right_eq, assumedReceivers,
        List.forall_mem_append, List.forall_mem_append, ← onArgs, ← onReceiver]
      cases dispatch : Dispatch.ofReceiver scope receiver with
      | assumed name =>
          -- A receiver without calls has none to lose.
          have complete : callsOf receiver = [] → callsMade scope receiver = callsOf receiver := by
            intro none
            exact none ▸ List.sublist_nil.mp (none ▸ callsMade_sublist scope receiver)
          rw [append_eq_append_iff_of_sublist (List.nil_sublist _)
            (callsMadeAll_sublist scope args)]
          simp only [List.mem_singleton, forall_eq]
          constructor
          · rintro ⟨none, same⟩
            exact ⟨⟨none.symm, complete none.symm⟩, same⟩
          · rintro ⟨⟨none, -⟩, same⟩
            exact ⟨none.symm, same⟩
      | onValue | onClass name =>
          rw [append_eq_append_iff_of_sublist (callsMade_sublist scope receiver)
            (callsMadeAll_sublist scope args)]
          simp

theorem callsMadeAll_eq_callsOfAll_iff : ∀ exprs, callsMadeAll scope exprs = callsOfAll exprs ↔
    ∀ receiver ∈ assumedReceiversOfAll scope exprs, callsOf receiver = []
  | [] => by simp [callsMadeAll, callsOfAll, assumedReceiversOfAll]
  | expr :: rest => by
      rw [callsMadeAll, callsOfAll, assumedReceiversOfAll, List.forall_mem_append,
        append_eq_append_iff_of_sublist (callsMade_sublist scope expr)
          (callsMadeAll_sublist scope rest),
        callsMade_eq_callsOf_iff expr, callsMadeAll_eq_callsOfAll_iff rest]

end

end

/-! ## Calls of the code -/

/-- The call that an instruction makes. -/
def Tac.Instr.call? : Instr → Option Call
  | .assign _ _ rhs => rhs.call?
  | .branch cond _ => cond.call?
  | .call invocation => some invocation
  | _ => none

/-- The calls that a list of instructions makes, in order and without those of
constructors. -/
def calls (code : List Instr) : List Call :=
  (code.filterMap Instr.call?).filter fun call => !call.isConstructor

@[simp]
theorem calls_nil : calls [] = [] := rfl

@[simp]
theorem calls_append (first second : List Instr) :
    calls (first ++ second) = calls first ++ calls second := by
  simp [calls]

@[simp]
theorem calls_cons (instr : Instr) (rest : List Instr) :
    calls (instr :: rest) =
      (instr.call?.filter fun call => !call.isConstructor).toList ++ calls rest := by
  cases made : instr.call? with
  | none => simp [calls, made]
  | some call =>
      cases other : call.isConstructor <;> simp [calls, made, other, Option.filter]

theorem calls_of_isPlain {instr : Instr} (h : instr.isPlain = true) : calls [instr] = [] := by
  cases instr with
  | assign dest ty rhs =>
      have none : rhs.call? = none := Option.isNone_iff_eq_none.mp h
      simp [Instr.call?, none]
  | call invocation =>
      have constructor : invocation.isConstructor = true := h
      simp [Instr.call?, constructor]
  | putField object field value | ret ty value => rfl
  | goto target | label mark | branch cond target => cases h

theorem calls_twoWay {cond : Rhs} (plain : cond.call? = none) (yes done : Label)
    (onFalse onTrue : List Instr) :
    calls (twoWay cond yes done onFalse onTrue) = calls onFalse ++ calls onTrue := by
  simp [twoWay, Instr.call?, plain]

theorem calls_loopCode {cond cond' : Rhs} (plain : cond.call? = none) (plain' : cond'.call? = none)
    (start done : Label) (body again : List Instr) :
    calls (loopCode cond start done body again cond') = calls body ++ calls again := by
  simp [loopCode, loopHead, Instr.call?, plain, plain']

/-- A call of the source runs no constructor. -/
theorem Realizes.calls_eq {scope : Scope} {site : CallSite} {call : Call} {instr : Instr}
    (h : Realizes scope site call) (made : instr.call? = some call) : calls [instr] = [call] := by
  have other : call.isConstructor = false := by
    rw [Call.isConstructor, h.kind, CallSite.kind]
    split <;> rfl
  simp [calls, made, other]

/-! ## The survey of calls -/

/-- Only a plain name denotes a class. -/
theorem Lowering.ofReceiver_eq_onClass {scope : Scope} {receiver : Expr} {name : String}
    (h : Dispatch.ofReceiver scope receiver = .onClass name) : ∃ ty, receiver = .var name ty := by
  have byType_ne : ∀ receiver, Dispatch.byType scope receiver ≠ .onClass name := by
    intro receiver
    rw [Dispatch.byType]
    split <;> nofun
  cases receiver with
  | this ty => cases h
  | var other ty =>
      rw [Dispatch.ofReceiver] at h
      split at h
      · cases h
      · split at h
        · cases h
          exact ⟨ty, rfl⟩
        · exact absurd h (byType_ne _)
  | _ => exact absurd h (byType_ne _)

/-- The calls of code as a reading of it. -/
def callReading : Reading (List CallSite) where
  nothing := []
  andThen := (· ++ ·)
  call site := [site]
  fork _ := (· ++ ·)
  cycle := id
  nothing_andThen := List.nil_append
  andThen_nothing := List.append_nil
  andThen_assoc := List.append_assoc

@[simp]
theorem callReading_nothing : callReading.nothing = [] := rfl

@[simp]
theorem callReading_andThen (first second : List CallSite) :
    callReading.andThen first second = first ++ second := rfl

@[simp]
theorem callReading_call (site : CallSite) : callReading.call site = [site] := rfl

@[simp]
theorem callReading_fork (pair : Pair) (onFalse onTrue : List CallSite) :
    callReading.fork pair onFalse onTrue = onFalse ++ onTrue := rfl

section
variable (scope : Scope)

mutual

/-- The calls that are read off an expression are those that are made. -/
theorem expr_callReading : ∀ value, callReading.expr scope value = callsMade scope value
  | .int _ _ | .bool _ _ | .this _ | .var _ _ | .newObject _ _ => rfl
  | .binary (.arith _) lhs rhs _ | .binary .and lhs rhs _ | .binary .lt lhs rhs _ => by
      simp [Reading.expr, callsMade, expr_callReading lhs, expr_callReading rhs]
  | .not operand _ => expr_callReading operand
  | .paren inner _ => expr_callReading inner
  | .newArray _ size _ => expr_callReading size
  | .arrayInit items _ => each_exprs_callReading items
  | .index array position _ => by
      rw [Reading.expr, callsMade, expr_callReading array, expr_callReading position]
      rfl
  | .length array _ => expr_callReading array
  | .call receiver method args _ => by
      rw [Reading.expr, callsMade, each_exprs_callReading args, expr_callReading receiver]
      cases dispatch : Dispatch.ofReceiver scope receiver with
      | onValue => rfl
      | assumed name => rfl
      | onClass name =>
          obtain ⟨ty, rfl⟩ := ofReceiver_eq_onClass dispatch
          rfl

theorem each_exprs_callReading : ∀ values,
    callReading.each (callReading.exprs scope values) = callsMadeAll scope values
  | [] => rfl
  | first :: rest => by
      rw [Reading.exprs, Reading.each, expr_callReading first, each_exprs_callReading rest]
      rfl

end

end

namespace Lowering

variable {α β : Type} {scope : Scope}

/-- From every supply, the calls that a generator writes are those of the
source. -/
def Makes (scope : Scope) (gen : Gen α) (sites : List CallSite) : Prop :=
  ∀ names, List.Forall₂ (Realizes scope) sites (calls (gen names).code)

namespace Makes

theorem silent {gen : Gen α} (h : ∀ names, calls (gen names).code = []) : Makes scope gen [] := by
  intro names
  rw [h names]
  exact .nil

theorem once {gen : Gen α} {site : CallSite} {call : Call} (realizes : Realizes scope site call)
    (h : ∀ names, calls (gen names).code = [call]) : Makes scope gen [site] := by
  intro names
  rw [h names]
  exact .cons realizes .nil

theorem bind {first : Gen α} {next : α → Gen β} {sites sites' : List CallSite}
    (h : Makes scope first sites) (h' : ∀ names, Makes scope (next (first names).value) sites') :
    Makes scope (first >>= next) (sites ++ sites') := by
  intro names
  rw [Gen.code_bind, calls_append]
  exact List.rel_append (h names) (h' names _)

theorem chosen {cond : Rhs} {onTrue : Gen Element} {sites : List CallSite}
    (plain : cond.call? = none) (h : Makes scope onTrue sites) :
    Makes scope (chosen cond onTrue) sites := by
  intro names
  have same : calls (Lowering.chosen cond onTrue names).code =
      calls (onTrue (chosenNames names)).code := by
    rw [code_chosen, calls_twoWay plain]
    simp [Instr.set, Instr.call?, Rhs.call?]
  rw [same]
  exact h _

end Makes

/-- If an attempt succeeds, the calls that it writes are those of the source. -/
def MakesIn (scope : Scope) (attempt : Attempt Unit) (sites : List CallSite) : Prop :=
  ∀ {names code after}, Gives attempt names () code after →
    List.Forall₂ (Realizes scope) sites (calls code)

namespace MakesIn

theorem conditional {cond : Gen Element} {thenBranch elseBranch : Attempt Unit}
    {sites whenTrue whenFalse : List CallSite} (h : Makes scope cond sites)
    (hthen : MakesIn scope thenBranch whenTrue) (helse : MakesIn scope elseBranch whenFalse) :
    MakesIn scope (conditional cond thenBranch elseBranch) (sites ++ (whenFalse ++ whenTrue)) := by
  intro names code after gives
  obtain ⟨elseCode, between, thenCode, givesElse, givesThen, rfl⟩ := gives_conditional gives
  rw [calls_append, calls_twoWay rfl]
  exact List.rel_append (h names) (List.rel_append (helse givesElse) (hthen givesThen))

theorem loop {cond : Gen Element} {body : Attempt Unit} {sites inner : List CallSite}
    (h : Makes scope cond sites) (hbody : MakesIn scope body inner) :
    MakesIn scope (loop cond body) (sites ++ (inner ++ sites)) := by
  intro names code after gives
  obtain ⟨bodyCode, between, gives', rfl, rfl⟩ := gives_loop gives
  rw [calls_append, calls_loopCode rfl rfl]
  exact List.rel_append (h names) (List.rel_append (hbody gives') (h between))

end MakesIn

/-- Lowered code makes the calls of what was lowered. -/
def callSurvey (scope : Scope) : Survey scope callReading where
  Finds := Makes scope
  pure _ := .silent fun _ => rfl
  bind := .bind
  note _ := .silent fun _ => rfl
  emit plain := .silent fun _ => calls_of_isPlain plain
  emitCall realizes := .once realizes fun _ => realizes.calls_eq rfl
  temp _ plain := .silent fun _ => calls_of_isPlain (Option.isNone_iff_eq_none.mpr plain)
  tempCall _ realizes := .once realizes fun _ => realizes.calls_eq rfl
  holder _ plain := .silent fun _ => calls_of_isPlain (Option.isNone_iff_eq_none.mpr plain)
  chosen := .chosen
  Yields := MakesIn scope
  lift h _ _ _ gives := by
    obtain ⟨-, rfl, -⟩ := gives.lift
    exact h _
  throw _ _ _ _ _ gives := by cases gives.value_eq
  lift_bind h h' names _ _ gives := by
    obtain ⟨rest, gives', rfl⟩ := gives.lift_bind
    rw [calls_append]
    exact List.rel_append (h names) (h' names gives')
  andThen h h' _ _ _ gives := by
    obtain ⟨_, _, _, _, gives₁, gives₂, rfl⟩ := gives.bind
    rw [calls_append]
    exact List.rel_append (h gives₁) (h' gives₂)
  conditional := .conditional
  loop := .loop

/-! ## Expressions in all positions -/

/-- The call that is left to make with a lowered expression. -/
def Lowered.call? : Lowered → Option Call
  | .bare rhs => rhs.call?
  | .value _ | .fieldStore _ _ => none

/-- The calls of a lowered expression: those of its instructions, then the one
that is left to make. -/
def callsIn (code : List Instr) (left : Lowered) : List Call :=
  calls code ++ left.call?.toList

theorem call?_ofRhs {rhs : Rhs} (plain : rhs.call? = none) : (Lowered.ofRhs rhs).call? = none := by
  cases rhs with
  | element elem => rfl
  | _ => exact plain

theorem call?_ofPlace (place : Place) : (Lowered.ofPlace place).call? = none := by
  cases place <;> rfl

/-- The calls of a lowered expression are those of the expression that are
made, in every position. -/
theorem realizes_generate (scope : Scope) (position : Position) (value : Expr) (names : Names) :
    let out := generate scope position value names
    List.Forall₂ (Realizes scope) (callsMade scope value) (callsIn out.code out.value) := by
  intro out
  have written := (callSurvey scope).finds_generate position value names
  rw [← expr_callReading, callsIn]
  -- Only a call that stands as a statement is left to make.
  have complete : out.value.call? = none →
      callReading.before scope position value = callReading.expr scope value →
      List.Forall₂ (Realizes scope) (callReading.expr scope value)
        (calls out.code ++ out.value.call?.toList) := by
    intro done same
    rw [done, Option.toList_none, List.append_nil, ← same]
    exact written
  cases position with
  | operand => exact complete rfl rfl
  | rhs => exact complete (call?_ofRhs (call?_compute scope value names)) rfl
  | target => exact complete (call?_ofPlace _) rfl
  | statement =>
      cases value with
      | call receiver method args ty =>
          have left := realizes_invoke scope receiver method args .void names
          rw [operandsOf_eq_map] at left
          exact List.rel_append written (.cons left .nil)
      | _ => exact complete rfl rfl

/-- Lowering an expression succeeds, and neither duplicates nor reorders its calls.
It loses none but those in receivers that fall under no dispatch rule.  So the
methods that are called are those of the source exactly if no such receiver
contains a call. -/
theorem methods_of_lowerExpr (scope : Scope) (position : Position) (expr : Expr) (names : Names) :
    let out := (lowerExpr scope position expr).run names
    ∃ left, out.value = .ok left ∧
      let called := (callsIn out.code left).map Call.method
      called = (callsMade scope expr).map CallSite.method ∧
      (callsMade scope expr).Sublist (callsOf expr) ∧
      (called = (callsOf expr).map CallSite.method ↔
        ∀ receiver ∈ assumedReceivers scope expr, callsOf receiver = []) := by
  intro out
  have total : out = _ := run_lowerExpr scope position expr names
  rw [total]
  refine ⟨_, rfl, ?_⟩
  intro called
  have sublist := callsMade_sublist scope expr
  have called_eq : called = (callsMade scope expr).map CallSite.method := by
    have each := (realizes_generate scope position expr names).imp fun _ _ h => h.method.symm
    rw [← List.forall₂_map_right_iff, ← List.forall₂_map_left_iff, List.forall₂_eq_eq_eq] at each
    exact each.symm
  refine ⟨called_eq, sublist, ?_⟩
  rw [← callsMade_eq_callsOf_iff, called_eq]
  constructor
  · intro same
    have length_eq := congrArg List.length same
    rw [List.length_map, List.length_map] at length_eq
    exact sublist.eq_of_length length_eq
  · intro same
    rw [same]

/-- The scope of a method that has a class to itself. -/
def loneScope : Scope where
  symbols := ⟨"Foo", none, [], .empty, .empty⟩
  method := ⟨"run", false, false, .void, [], []⟩

/-- In `this.a().b()`, where `a` returns an object of a class that is not
known, the call of `a` is lost. -/
theorem methods_of_lowerExpr_chain :
    let chain : Expr :=
      .call (.call (.thisOf "Foo") "a" [] (.object "Unknown")) "b" [] .int
    let out := (lowerExpr loneScope .operand chain).run .fresh
    ∃ left, out.value = .ok left ∧
      let called := (callsIn out.code left).map Call.method
      called ≠ (callsOf chain).map CallSite.method ∧
      called = ["b"] ∧ (callsOf chain).map CallSite.method = ["a", "b"] := by
  exact ⟨_, rfl, by decide⟩

end Lowering

end MiniJava
