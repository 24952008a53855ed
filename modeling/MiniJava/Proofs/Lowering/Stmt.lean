import MiniJava.Lowering.Class
import MiniJava.Proofs.Lowering.Expr

/-!
# Lowered methods do what methods do

A run of a statement that finishes is followed by the code of the statement: it
gets to the end of the code, or to a return with the value that the statement
returns, in the same world and with the same values of all source variables
(`Arrives`).

Labels are found by their text in the whole method.  Where the code of a
statement stands, every label marked before it was drawn earlier (`Placed`), so
a label that the statement draws is found where the statement marks it.

The induction is over statements, so that the body of a loop is known to do
what it should before the loop is looked at.  For the loop there is a second
induction, over the run: it starts at the test behind the body, where all
iterations but the first one begin.
-/

namespace MiniJava.Lowering

open Source (Expr Stmt Scope SymbolTable MethodDecl MethodEntry)
open Tac Semantics

variable {α β : Type}

/-! ## Attempts that succeed -/

/-- From this supply an attempt succeeds with a value, the code that it writes
and the supply that it leaves. -/
structure Gives (attempt : Attempt α) (names : Names) (value : α) (code : List Instr)
    (after : Names) : Prop where
  value_eq : (attempt.run names).value = .ok value
  code_eq : (attempt.run names).code = code
  names_eq : (attempt.run names).names = after

namespace Gives

variable {names after : Names} {code : List Instr}

theorem lift_bind {gen : Gen α} {next : α → Attempt β} {value : β}
    (h : Gives (liftM gen >>= next) names value code after) :
    ∃ rest, Gives (next (gen names).value) (gen names).names value rest after ∧
      code = (gen names).code ++ rest := by
  obtain ⟨hvalue, hcode, hnames⟩ := h
  rw [run_lift_bind] at hvalue hcode hnames
  exact ⟨_, ⟨hvalue, rfl, hnames⟩, hcode.symm⟩

theorem lift {gen : Gen α} {value : α} (h : Gives (liftM gen) names value code after) :
    value = (gen names).value ∧ code = (gen names).code ∧ after = (gen names).names := by
  obtain ⟨hvalue, hcode, hnames⟩ := h
  rw [run_lift, Gen.map_apply] at hvalue hcode hnames
  exact ⟨(Except.ok.inj hvalue).symm, hcode.symm, hnames.symm⟩

theorem bind {first : Attempt α} {next : α → Attempt β} {value : β}
    (h : Gives (first >>= next) names value code after) :
    ∃ middle code₁ between code₂, Gives first names middle code₁ between ∧
      Gives (next middle) between value code₂ after ∧ code = code₁ ++ code₂ := by
  obtain ⟨hvalue, hcode, hnames⟩ := h
  rw [ExceptT.run_bind] at hvalue hcode hnames
  cases middle : (first.run names).value with
  | error error => simp [middle] at hvalue
  | ok middle' =>
      simp only [Gen.value_bind, Gen.code_bind, Gen.names_bind, middle] at hvalue hcode hnames
      exact ⟨middle', _, _, _, ⟨middle, rfl, rfl⟩, ⟨hvalue, rfl, hnames⟩, hcode.symm⟩

theorem capture {attempt : Attempt Unit} {body : List Instr}
    (h : Gives (Attempt.capture attempt) names body code after) :
    Gives attempt names () body after := by
  obtain ⟨hvalue, -, hnames⟩ := h
  change (attempt.run names).value.map (fun _ => (attempt.run names).code) = .ok body at hvalue
  cases value : (attempt.run names).value with
  | error error => rw [value] at hvalue; cases hvalue
  | ok _ =>
      rw [value] at hvalue
      exact ⟨value, Except.ok.inj hvalue, hnames⟩

variable {attempt : Attempt α} {value : α}

theorem le (h : Gives attempt names value code after) (tidy : Tidy attempt.run) :
    names ≤ after := h.names_eq ▸ (tidy names).1

theorem within (h : Gives attempt names value code after) (tidy : Tidy attempt.run) :
    ∀ mark ∈ marks code, mark.Within names after := by
  rw [← h.code_eq, ← h.names_eq]
  exact (tidy names).2

end Gives

/-- The parts of the code of a conditional. -/
theorem gives_conditional {cond : Gen Element} {thenBranch elseBranch : Attempt Unit}
    {names after : Names} {code : List Instr}
    (h : Gives (conditional cond thenBranch elseBranch) names () code after) :
    let test := cond names
    let id := test.names.thenBranch
    ∃ elseCode between thenCode,
      Gives elseBranch (test.names.advance .thenBranch) () elseCode between ∧
      Gives thenBranch between () thenCode after ∧
      code = test.code ++ twoWay (.element test.value) (.numbered .thenBranch id) (.endIf id)
        elseCode thenCode := by
  intro test id
  obtain ⟨_, h₁, rfl⟩ := h.lift_bind
  obtain ⟨_, h₂, rfl⟩ := h₁.lift_bind
  obtain ⟨_, h₃, rfl⟩ := h₂.lift_bind
  obtain ⟨_, elseCode, between, _, whenFalse, h₄, rfl⟩ := h₃.bind
  obtain ⟨_, h₅, rfl⟩ := h₄.lift_bind
  obtain ⟨_, h₆, rfl⟩ := h₅.lift_bind
  obtain ⟨_, thenCode, _, _, whenTrue, h₇, rfl⟩ := h₆.bind
  obtain ⟨-, rfl, rfl⟩ := h₇.lift
  refine ⟨elseCode, between, thenCode, whenFalse, whenTrue, ?_⟩
  rw [twoWay, List.append_assoc]
  rfl

/-- The parts of the code of a loop. -/
theorem gives_loop {cond : Gen Element} {body : Attempt Unit} {names after : Names}
    {code : List Instr} (h : Gives (loop cond body) names () code after) :
    let entry := cond names
    ∃ bodyCode between,
      Gives body ((entry.names.advance .loopBody).advance .loopEnd) () bodyCode between ∧
      after = (cond between).names ∧
      code = entry.code ++ loopCode (.element entry.value)
        (.numbered .loopBody entry.names.loopBody) (.numbered .loopEnd entry.names.loopEnd)
        bodyCode (cond between).code (.element (cond between).value) := by
  intro entry
  obtain ⟨_, h₁, rfl⟩ := h.lift_bind
  obtain ⟨_, h₂, rfl⟩ := h₁.lift_bind
  obtain ⟨_, h₃, rfl⟩ := h₂.lift_bind
  obtain ⟨_, h₄, rfl⟩ := h₃.lift_bind
  obtain ⟨_, h₅, rfl⟩ := h₄.lift_bind
  obtain ⟨_, h₆, rfl⟩ := h₅.lift_bind
  obtain ⟨_, bodyCode, between, _, inside, h₇, rfl⟩ := h₆.bind
  obtain ⟨_, h₈, rfl⟩ := h₇.lift_bind
  obtain ⟨_, h₉, rfl⟩ := h₈.lift_bind
  obtain ⟨-, rfl, rfl⟩ := h₉.lift
  exact ⟨bodyCode, between, inside, rfl, rfl⟩

/-! ## The places of conditionals and loops -/

section
variable {cond : Gen Element} {program before : List Instr} {names between after : Names}

/-- The branches of a conditional, and the code of the second one, where the
whole code stands. -/
theorem twoWay_conditional {thenBranch elseBranch : Attempt Unit} {elseCode thenCode : List Instr}
    (tidy : Tidy cond) (tidyThen : Tidy thenBranch.run) (tidyElse : Tidy elseBranch.run)
    (givesElse : Gives elseBranch ((cond names).names.advance .thenBranch) () elseCode between)
    (givesThen : Gives thenBranch between () thenCode after) :
    let test := cond names
    let yes : Label := .numbered .thenBranch test.names.thenBranch
    let done : Label := .endIf test.names.thenBranch
    Placed program names before
      (test.code ++ twoWay (.element test.value) yes done elseCode thenCode) →
    TwoWay program test.names (before ++ test.code) (.element test.value) yes done
      elseCode thenCode ∧
    Placed program between
      (before ++ test.code ++ TwoWay.headTrue (.element test.value) yes done elseCode)
      thenCode := by
  intro test yes done placed
  have below : yes.Below (test.names.advance .thenBranch) := Label.below_advance _ _
  have le := givesElse.le tidyElse
  have branches : TwoWay program test.names (before ++ test.code) (.element test.value) yes done
      elseCode thenCode :=
    { placed := placed.right (tidy names).1 fun mark hmem => ((tidy names).2 mark hmem).2
      freshYes := Label.not_below_next _ _
      freshDone := Label.not_below_next _ .thenBranch
      distinct := by simp [yes, done]
      yesFalse := fun hmem => (givesElse.within tidyElse _ hmem).1 below
      doneFalse := fun hmem => (givesElse.within tidyElse _ hmem).1 below
      doneTrue := fun hmem => (givesThen.within tidyThen _ hmem).1 (below.mono le) }
  exact ⟨branches, branches.inTrue (Names.le_trans (Names.le_advance _ _) le) (below.mono le)
    fun mark hmem => (givesElse.within tidyElse mark hmem).2⟩

/-- A loop, its body and its second test, where the whole code stands. -/
theorem loop_placed {body : Attempt Unit} {bodyCode : List Instr} (tidy : Tidy cond)
    (tidyBody : Tidy body.run)
    (gives : Gives body (((cond names).names.advance .loopBody).advance .loopEnd) () bodyCode
      between) :
    let entry := cond names
    let again := cond between
    let start : Label := .numbered .loopBody entry.names.loopBody
    let done : Label := .numbered .loopEnd entry.names.loopEnd
    let head := before ++ entry.code ++ loopHead (.element entry.value) start done
    Placed program names before (entry.code ++ loopCode (.element entry.value) start done
      bodyCode again.code (.element again.value)) →
    Loop program entry.names (before ++ entry.code) (.element entry.value) start done bodyCode
      again.code (.element again.value) ∧
    Placed program ((entry.names.advance .loopBody).advance .loopEnd) head bodyCode ∧
    Placed program between (head ++ bodyCode) again.code := by
  intro entry again start done head placed
  let taken := (entry.names.advance .loopBody).advance .loopEnd
  have le : entry.names ≤ taken := Names.le_trans (Names.le_advance _ _) (Names.le_advance _ _)
  have le' : taken ≤ between := gives.le tidyBody
  have belowStart : start.Below taken :=
    (Label.below_advance entry.names .loopBody).mono (Names.le_advance _ _)
  have belowDone : done.Below taken := Label.below_advance (entry.names.advance .loopBody) .loopEnd
  have repeats : Loop program entry.names (before ++ entry.code) (.element entry.value) start done
      bodyCode again.code (.element again.value) :=
    { placed := placed.right (tidy names).1 fun mark hmem => ((tidy names).2 mark hmem).2
      freshStart := Label.not_below_next _ _
      freshDone := Label.not_below_next _ .loopEnd
      distinct := by simp [start, done]
      doneBody := fun hmem => (gives.within tidyBody _ hmem).1 belowDone
      doneAgain := fun hmem => ((tidy between).2 _ hmem).1 (belowDone.mono le') }
  exact ⟨repeats, repeats.inBody le belowStart,
    repeats.inAgain (Names.le_trans le le') (belowStart.mono le')
      fun mark hmem => (gives.within tidyBody mark hmem).2⟩

end

/-! ## Where runs get to -/

/-- The variables that source code may use. -/
def userVariables : Visible where
  shows name := ¬ Names.Reserved name ∧ name ≠ thisName
  apart _ h := h.1

theorem Agrees.set {env : Env} {store : Store} {name : String}
    (agrees : Agrees userVariables env store) (shown : userVariables.shows name)
    (value : Value) :
    Agrees userVariables (env.set name value) (Function.update store name value) where
  receiver := by rw [Function.update_of_ne shown.2.symm, agrees.receiver]; rfl
  locals other hother := by
    by_cases same : other = name
    · subst same
      simp [Env.set]
    · rw [Function.update_of_ne same, agrees.locals other hother]
      simp [Env.set, same]

/-- A run leads to a place, or to a return with a value, with these variables
and in this world. -/
def Arrives (platform : Platform Member String) (program : List Instr)
    (start : Config Member String) (pc : Nat) (flow : Flow) (env : Env)
    (world : World Member String) : Prop :=
  ∃ last, Steps platform program start last ∧ last.world = world ∧
    Agrees userVariables env last.store ∧
    match flow with
    | .normal => last.pc = pc
    | .returned value => step platform program last = .returned value

section
variable {platform : Platform Member String} {program : List Instr}
  {start : Config Member String} {pc pc' : Nat} {flow : Flow} {env env' : Env}
  {world world' : World Member String} {value : Option Value}

theorem Arrives.steps {config : Config Member String}
    (steps : Steps platform program start config)
    (h : Arrives platform program config pc flow env world) :
    Arrives platform program start pc flow env world := by
  obtain ⟨last, more, ends⟩ := h
  exact ⟨last, steps.trans more, ends⟩

theorem Arrives.done {store : Store} (steps : Steps platform program start ⟨pc, store, world⟩)
    (agrees : Agrees userVariables env store) :
    Arrives platform program start pc .normal env world :=
  ⟨_, steps, rfl, agrees, rfl⟩

theorem Arrives.leave {store : Store} (steps : Steps platform program start ⟨pc, store, world⟩)
    (agrees : Agrees userVariables env store)
    (returns : step platform program ⟨pc, store, world⟩ = .returned value) :
    Arrives platform program start pc' (.returned value) env world :=
  ⟨_, steps, rfl, agrees, returns⟩

theorem Arrives.bind (h : Arrives platform program start pc .normal env world)
    (next : ∀ store, Agrees userVariables env store →
      Arrives platform program ⟨pc, store, world⟩ pc' flow env' world') :
    Arrives platform program start pc' flow env' world' := by
  obtain ⟨⟨here, store, after⟩, steps, same, agrees, at'⟩ := h
  cases same
  cases at'
  exact (next store agrees).steps steps

/-- Going on from a place that is reached if nothing is returned. -/
theorem Arrives.andThen (h : Arrives platform program start pc flow env world)
    (steps : ∀ store, Steps platform program ⟨pc, store, world⟩ ⟨pc', store, world⟩) :
    Arrives platform program start pc' flow env world := by
  cases flow with
  | normal => exact h.bind fun store agrees => .done (steps store) agrees
  | returned value => exact h

theorem Lowers.arrives {names : Names} {store : Store} {gen : Gen Unit} {effect : Effect Unit}
    {before : List Instr} (h : Lowers platform readUnit names store gen effect)
    (placed : Placed program names before (gen names).code)
    (agrees : Agrees userVariables env store) (ok : effect world = (.ok (), world')) :
    Arrives platform program ⟨before.length, store, world⟩
      (before ++ (gen names).code).length .normal env world' := by
  obtain ⟨store', after, steps, frame, same⟩ := h.reaches placed ok
  cases same
  exact .done steps (agrees.frame frame)

end

/-! ## Single statements -/

/-- Where it succeeds, an attempt writes code that does what the statement
does. -/
def Performs (oracle : Oracle Member String) (constant : String → Value) (scope : Scope)
    (attempt : Attempt Unit) (stmt : Stmt) : Prop :=
  ∀ ⦃names code after⦄, Gives attempt names () code after →
    ∀ ⦃env world flow env' world'⦄, Run oracle scope stmt env world flow env' world' →
    ∀ ⦃program before store⦄, Placed program names before code →
      Agrees userVariables env store →
      Arrives (sourcePlatform oracle constant) program ⟨before.length, store, world⟩
        (before ++ code).length flow env' world'

/-- What is asked of an expression: its variables are visible, and receivers
that fall under no rule are plain names. -/
structure Plain (scope : Scope) (expr : Expr) : Prop where
  shown : ∀ name ∈ variablesOf scope expr, userVariables.shows name
  receivers : ∀ receiver ∈ assumedReceivers scope expr, receiver.varName?.isSome = true

theorem Plain.compute {scope : Scope} {expr : Expr} (h : Plain scope expr)
    (oracle : Oracle Member String) (constant : String → Value) (env : Env) :
    Simulates (sourcePlatform oracle constant) userVariables env
      (readRhs (sourcePlatform oracle constant)) (compute scope expr)
      (eval oracle scope env expr) :=
  simulates_compute scope expr h.shown h.receivers

theorem Plain.operand {scope : Scope} {expr : Expr} (h : Plain scope expr)
    (oracle : Oracle Member String) (constant : String → Value) (env : Env) :
    Simulates (sourcePlatform oracle constant) userVariables env
      (readElement (sourcePlatform oracle constant)) (operand scope expr)
      (eval oracle scope env expr) :=
  (h.compute oracle constant env).settle

section
variable {oracle : Oracle Member String} {constant : String → Value} {scope : Scope}

/-- A statement that does something to the world and leaves the variables. -/
theorem performs_lift {gen : Gen Unit} {attempt : Attempt Unit} {stmt : Stmt}
    (effect : Env → Effect Unit) (same : attempt = liftM gen)
    (simulates : ∀ env, Simulates (sourcePlatform oracle constant) userVariables env readUnit
      gen (effect env))
    (inversion : ∀ {env world flow env' world'}, Run oracle scope stmt env world flow env' world' →
      flow = .normal ∧ env' = env ∧ effect env world = (.ok (), world')) :
    Performs oracle constant scope attempt stmt := by
  intro names code after gives env world flow env' world' run program before store placed agrees
  obtain ⟨rfl, rfl, ok⟩ := inversion run
  have code_eq : code = (gen names).code := by
    rw [← gives.code_eq, same, run_lift, Gen.map_apply]
  subst code_eq
  exact ((simulates _).lowers names store agrees).arrives placed agrees ok

theorem performs_assignVar {name : String} {ty : Source.Ty} {value : Expr}
    (isVariable : scope.isField name = false) (shown : userVariables.shows name)
    (plain : Plain scope value) :
    Performs oracle constant scope (assignment scope (.var name ty) value)
      (.assign (.var name ty) value) := by
  intro names code after gives env world flow env' world' run program before store placed agrees
  have same : assignment scope (.var name ty) value = liftM (do
      let rhs ← compute scope value
      Gen.emit (.assign (.var ⟨name, .ofSource ty⟩) (.ofSource ty) rhs)) := by
    rw [assignment, target, isVariable]
    simp only [Bool.false_eq_true, if_false, liftM_pure, liftM_bind, pure_bind]
    rfl
  have code_eq : (compute scope value names).code ++
      [.assign (.var ⟨name, .ofSource ty⟩) (.ofSource ty) (compute scope value names).value] =
        code := by
    rw [← gives.code_eq, same, run_lift, Gen.map_apply]
    rfl
  subst code_eq
  cases run with
  | assignField field _ => rw [isVariable] at field; cases field
  | assignVar _ ok =>
      obtain ⟨store', between, steps, frame, result⟩ :=
        ((plain.compute oracle constant env).lowers names store agrees).reaches placed.left ok
      have here := placed.instrAt
      rw [← List.length_append] at here
      have assigned : step (sourcePlatform oracle constant) program ⟨_, store', between⟩ = _ :=
        step_assign here result
      rw [← List.append_assoc, List.length_append]
      exact .done (steps.tail assigned) ((agrees.frame frame).set shown _)

theorem performs_assignField {name : String} {ty : Source.Ty} {value : Expr}
    (isField : scope.isField name = true) (plain : Plain scope value) :
    Performs oracle constant scope (assignment scope (.var name ty) value)
      (.assign (.var name ty) value) := by
  have same : assignment scope (.var name ty) value = liftM (do
      let value ← compute scope value >>= fun rhs => Gen.settleAs (.ofSource ty) rhs
      Gen.emit (.putField (receiverOf scope) ⟨name, .ofSource ty⟩ value)) := by
    rw [assignment, target, isField]
    simp only [if_true, liftM_pure, liftM_bind, pure_bind, bind_assoc]
  refine performs_lift (fun env => do
    let result ← eval oracle scope env value
    Exec.putField env.receiver name result) same (fun env => ⟨?_, ?_⟩) fun run => ?_
  · exact ((tidy_compute scope value).bind fun _ => tidy_settleAs _ _).bind fun _ _ => .emit rfl
  · intro names store agrees
    have tidy := tidy_compute scope value
    have lowers := ((plain.compute oracle constant env).lowers names store agrees).settleAs
      (fun _ => .ofSource ty) tidy
    refine lowers.bind (tidy.bind fun _ => tidy_settleAs _ _) (fun _ => .emit rfl)
      fun store' frame => ?_
    rw [readElement_bind, ← (agrees.frame frame).receiver]
    exact lowers_emit rfl rfl
  · cases run with
    | assignVar isVariable _ => rw [isField] at isVariable; cases isVariable
    | assignField _ ok => exact ⟨rfl, rfl, ok⟩

/-- Assigning to a cell: the array and the position, which were evaluated before
the value, are read after it. -/
theorem simulates_assignCell {array position value : Expr} (ty : Ty)
    (plainArray : Plain scope array) (plainPosition : Plain scope position)
    (plain : Plain scope value) (env : Env) :
    Simulates (sourcePlatform oracle constant) userVariables env readUnit
      (do let cell ← id <$> cellOf (operand scope array) (operand scope position)
          let rhs ← compute scope value
          Gen.emit (.assign (.cell cell) ty rhs))
      (do let array ← eval oracle scope env array
          let position ← eval oracle scope env position
          let result ← eval oracle scope env value
          Exec.storeCell array position result) := by
  let platform := sourcePlatform oracle constant
  let readCell (cell : Cell) (store : Store) : Effect (Value × Value) :=
    pure (store cell.array.name, platform.element store cell.index)
  let both : Effect (Value × Value) := do
    let array ← eval oracle scope env array
    let position ← eval oracle scope env position
    return (array, position)
  have place : Simulates platform userVariables env readCell
      (id <$> cellOf (operand scope array) (operand scope position)) both :=
    simulates_cellOf (plainArray.operand oracle constant env)
      (plainPosition.operand oracle constant env) fun _ _ => rfl
  have regroup : (do
      let array ← eval oracle scope env array
      let position ← eval oracle scope env position
      let result ← eval oracle scope env value
      Exec.storeCell array position result) =
        both >>= fun place => eval oracle scope env value >>= Exec.storeCell place.1 place.2 := by
    simp [both]
  rw [regroup]
  refine place.bind (fun _ => (tidy_compute scope value).bind fun _ _ => .emit rfl) ?_
  intro cell names store agrees steady
  rw [pure_bind]
  refine ((plain.compute oracle constant env).lowers names store agrees).bind
    (tidy_compute scope value) (fun _ => .emit rfl) fun store' frame => ?_
  have kept := Exec.pure_inj (steady frame)
  rw [Prod.mk.injEq] at kept
  refine lowers_emit rfl ?_
  rw [← kept.1, ← kept.2]
  simp [Platform.perform, readRhs, platform]

theorem performs_assignCell {array position : Expr} {ty : Source.Ty} {value : Expr}
    (plainArray : Plain scope array) (plainPosition : Plain scope position)
    (plain : Plain scope value) :
    Performs oracle constant scope (assignment scope (.index array position ty) value)
      (.assign (.index array position ty) value) := by
  have same : assignment scope (.index array position ty) value = liftM (do
      let cell ← id <$> cellOf (operand scope array) (operand scope position)
      let rhs ← compute scope value
      Gen.emit (.assign (.cell cell) (.ofSource ty) rhs)) := by
    rw [assignment, target, id_map]
    simp only [liftM_map, liftM_bind, bind_map_left]
    rfl
  refine performs_lift _ same
    (simulates_assignCell (.ofSource ty) plainArray plainPosition plain) fun run => ?_
  cases run with
  | assignCell ok => exact ⟨rfl, rfl, ok⟩

theorem performs_perform {expr : Expr} (plain : Plain scope expr) :
    Performs oracle constant scope (perform scope expr) (.expr expr) := by
  refine performs_lift (fun env => do let _ ← eval oracle scope env expr)
    rfl (fun env => ?_) fun run => ?_
  · refine (simulates_effect scope plain.shown plain.receivers).bind (fun out => ?_) ?_
    · cases out with
      | inl elem => exact .pure ()
      | inr call => exact fun _ => .emit rfl
    · intro out names store agrees _
      cases out with
      | inl elem => exact .pure (fun _ _ _ _ => rfl) fun _ => rfl
      | inr call => exact lowers_emit rfl (by simp [Platform.perform, lowered]; rfl)
  · cases run with
    | expr ok => exact ⟨rfl, rfl, Exec.bind_of_ok ok _⟩

theorem performs_leave {value : Option Expr} (plain : ∀ expr, value = some expr → Plain scope expr)
    (returns : ∀ expr, value = some expr → (resultTy scope).isVoid = false) :
    Performs oracle constant scope (leave scope value) (.ret value) := by
  intro names code after gives env world flow env' world' run program before store placed agrees
  obtain ⟨-, rfl, -⟩ := gives.lift
  cases value with
  | none =>
      cases run
      have returned : step (sourcePlatform oracle constant) program ⟨_, store, world⟩ = _ :=
        step_ret placed.head
      exact .leave .refl agrees returned
  | some expr =>
      cases run with
      | retSome ok =>
          have code : (leave scope (some expr) names).code = (operand scope expr names).code ++
              [.ret (resultTy scope) (some (operand scope expr names).value)] := by
            rw [leave, if_neg (by simp [returns expr rfl])]
            rfl
          rw [code] at placed ⊢
          obtain ⟨store', between, steps, frame, result⟩ :=
            (((plain expr rfl).operand oracle constant env).lowers names store agrees).reaches
              placed.left ok
          have here := placed.instrAt
          rw [← List.length_append] at here
          cases result
          have returned : step (sourcePlatform oracle constant) program ⟨_, store', world'⟩ = _ :=
            step_ret here
          exact .leave steps (agrees.frame frame) returned

/-! ## Conditionals -/

variable (constant) in
/-- The code of a condition leads to a test with the same outcome. -/
theorem reaches_test {cond : Expr} (plain : Plain scope cond) {names : Names}
    {program before : List Instr} {env : Env} {store : Store}
    {world after : World Member String} {result : Bool}
    (placed : Placed program names before (operand scope cond names).code)
    (agrees : Agrees userVariables env store)
    (ok : holds oracle scope env cond world = (.ok result, after)) :
    ∃ store' world', Steps (sourcePlatform oracle constant) program
        ⟨before.length, store, world⟩
        ⟨(before ++ (operand scope cond names).code).length, store', world'⟩ ∧
      Agrees userVariables env store' ∧
      (sourcePlatform oracle constant).test store' (.element (operand scope cond names).value)
        world' = (.ok result, after) := by
  have lowers := (plain.operand oracle constant env).lowers names store agrees
  rcases value : eval oracle scope env cond world with ⟨fault | value, between⟩
  · rw [holds, Exec.bind_of_error value] at ok
    cases ok
  · rw [holds, Exec.bind_of_ok value] at ok
    obtain ⟨store', world', steps, frame, same⟩ := lowers.reaches placed value
    exact ⟨store', world', steps, agrees.frame frame, (Exec.bind_of_ok same _).trans ok⟩

theorem performs_conditional {cond : Expr} {thenBranch elseBranch : Stmt}
    {thenAttempt elseAttempt : Attempt Unit} (plain : Plain scope cond)
    (tidyThen : Tidy thenAttempt.run) (tidyElse : Tidy elseAttempt.run)
    (hthen : Performs oracle constant scope thenAttempt thenBranch)
    (helse : Performs oracle constant scope elseAttempt elseBranch) :
    Performs oracle constant scope
      (conditional (operand scope cond) thenAttempt elseAttempt)
      (.ifElse cond thenBranch elseBranch) := by
  intro names code after gives env world flow env' world' run program before store placed agrees
  obtain ⟨elseCode, between, thenCode, givesElse, givesThen, rfl⟩ := gives_conditional gives
  obtain ⟨branches, inside⟩ := twoWay_conditional (tidy_operand scope cond) tidyThen tidyElse
    givesElse givesThen placed
  rw [← List.append_assoc]
  cases run with
  | ifTrue test run =>
      obtain ⟨store', between', steps, agrees', taken⟩ :=
        reaches_test constant plain placed.left agrees test
      have arrives := hthen givesThen run inside agrees'
      exact (arrives.andThen fun _ => branches.leaveTrue).steps
        (steps.trans (branches.take taken))
  | ifFalse test run =>
      obtain ⟨store', between', steps, agrees', skipped⟩ :=
        reaches_test constant plain placed.left agrees test
      have inside := branches.inFalse (Names.le_advance _ .thenBranch)
      have arrives := helse givesElse run inside agrees'
      exact (arrives.andThen fun _ => branches.leaveFalse).steps
        (steps.trans (branches.skip skipped))

/-! ## Loops -/

/-- From the test behind the body, all further iterations. -/
theorem arrives_again {cond : Expr} {body : Stmt} {bodyAttempt : Attempt Unit}
    {program before bodyCode : List Instr} {names names' between : Names} {entry : Rhs}
    {start done : Label} (plain : Plain scope cond)
    (hbody : Performs oracle constant scope bodyAttempt body)
    (givesBody : Gives bodyAttempt names' () bodyCode between)
    (repeats : Loop program names before entry start done bodyCode
      (operand scope cond between).code (.element (operand scope cond between).value))
    (inBody : Placed program names' (before ++ loopHead entry start done) bodyCode)
    (inAgain : Placed program between (before ++ loopHead entry start done ++ bodyCode)
      (operand scope cond between).code)
    {env : Env} {world : World Member String} {flow : Flow} {env' : Env}
    {world' : World Member String}
    (run : Run oracle scope (.whileLoop cond body) env world flow env' world') :
    ∀ store, Agrees userVariables env store →
      Arrives (sourcePlatform oracle constant) program
        ⟨(before ++ loopHead entry start done ++ bodyCode).length, store, world⟩
        (before ++ loopCode entry start done bodyCode (operand scope cond between).code
          (.element (operand scope cond between).value)).length flow env' world' := by
  generalize same : Stmt.whileLoop cond body = stmt at run
  induction run with
  | whileFalse test =>
      cases same
      intro store agrees
      obtain ⟨store', after, steps, agrees', skipped⟩ :=
        reaches_test constant plain inAgain agrees test
      exact .done (steps.trans (repeats.exit skipped)) agrees'
  | whileTrue test runBody _ _ ih =>
      cases same
      intro store agrees
      obtain ⟨store', after, steps, agrees', taken⟩ :=
        reaches_test constant plain inAgain agrees test
      refine .steps (steps.trans (repeats.back taken)) ?_
      exact (hbody givesBody runBody inBody agrees').bind (ih rfl)
  | whileReturned test runBody _ =>
      cases same
      intro store agrees
      obtain ⟨store', after, steps, agrees', taken⟩ :=
        reaches_test constant plain inAgain agrees test
      refine .steps (steps.trans (repeats.back taken)) ?_
      exact hbody givesBody runBody inBody agrees'
  | _ => cases same

theorem performs_loop {cond : Expr} {body : Stmt} {bodyAttempt : Attempt Unit}
    (plain : Plain scope cond) (tidyBody : Tidy bodyAttempt.run)
    (hbody : Performs oracle constant scope bodyAttempt body) :
    Performs oracle constant scope (loop (operand scope cond) bodyAttempt)
      (.whileLoop cond body) := by
  intro names code after gives env world flow env' world' run program before store placed agrees
  obtain ⟨bodyCode, between, givesBody, rfl, rfl⟩ := gives_loop gives
  obtain ⟨repeats, inBody, inAgain⟩ := loop_placed (tidy_operand scope cond) tidyBody givesBody
    placed
  rw [← List.append_assoc]
  cases run with
  | whileFalse test =>
      obtain ⟨store', _, steps, agrees', skipped⟩ :=
        reaches_test constant plain placed.left agrees test
      exact .done (steps.trans (repeats.skip skipped)) agrees'
  | whileTrue test runBody rest =>
      obtain ⟨store', _, steps, agrees', entered⟩ :=
        reaches_test constant plain placed.left agrees test
      refine .steps (steps.trans (repeats.enter entered)) ?_
      exact (hbody givesBody runBody inBody agrees').bind
        (arrives_again plain hbody givesBody repeats inBody inAgain rest)
  | whileReturned test runBody =>
      obtain ⟨store', _, steps, agrees', entered⟩ :=
        reaches_test constant plain placed.left agrees test
      exact .steps (steps.trans (repeats.enter entered))
        (hbody givesBody runBody inBody agrees')

/-! ## All statements -/

theorem performs_nil : Performs oracle constant scope (pure ()) (.block []) := by
  intro names code after gives env world flow env' world' run program before store placed agrees
  have code_eq : code = [] := gives.code_eq.symm
  subst code_eq
  cases run
  rw [List.append_nil]
  exact .done .refl agrees

theorem performs_cons {first : Stmt} {rest : List Stmt} {attempt attempts : Attempt Unit}
    (tidy : Tidy attempt.run) (hfirst : Performs oracle constant scope attempt first)
    (hrest : Performs oracle constant scope attempts (.block rest)) :
    Performs oracle constant scope (do attempt; attempts) (.block (first :: rest)) := by
  intro names code after gives env world flow env' world' run program before store placed agrees
  obtain ⟨_, code₁, between, code₂, gives₁, gives₂, rfl⟩ := gives.bind
  have placed' := placed.right (gives₁.le tidy) fun mark hmem => (gives₁.within tidy mark hmem).2
  cases run with
  | blockCons run₁ run₂ =>
      rw [← List.append_assoc]
      exact (hfirst gives₁ run₁ placed.left agrees).bind fun _ agrees' =>
        hrest gives₂ run₂ placed' agrees'
  | blockReturned run₁ => exact hfirst gives₁ run₁ placed.left agrees

/-- What is asked of a statement: besides plain expressions, that it assigns to
a name or a cell and returns no value from a method without result. -/
structure Admissible (scope : Scope) (stmt : Stmt) : Prop where
  plain : ∀ expr ∈ exprsOf stmt, Plain scope expr
  place : ∀ target, targetOf? stmt = some target → isPlace target = true
  returns : ∀ expr, returnOf? stmt = some expr → (resultTy scope).isVoid = false

theorem performs_assignment {left right : Expr}
    (admissible : Admissible scope (.assign left right)) :
    Performs oracle constant scope (assignment scope left right) (.assign left right) := by
  have plainLeft := admissible.plain left (by simp [exprsOf])
  have plainRight := admissible.plain right (by simp [exprsOf])
  have place := admissible.place left rfl
  cases left with
  | var name ty =>
      cases field : scope.isField name with
      | true => exact performs_assignField field plainRight
      | false =>
          refine performs_assignVar field (plainLeft.shown name ?_) plainRight
          rw [variablesOf, field]
          exact List.mem_cons_self
  | index array position ty =>
      obtain ⟨shown, receivers⟩ := plainLeft
      rw [variablesOf, List.forall_mem_append] at shown
      rw [assumedReceivers, List.forall_mem_append] at receivers
      exact performs_assignCell ⟨shown.1, receivers.1⟩ ⟨shown.2, receivers.2⟩ plainRight
  | _ => cases place

mutual

/-- Lowering a statement gives code that does what the statement does. -/
theorem performs_lowerStmt : ∀ stmt, (∀ inner ∈ subStmts stmt, Admissible scope inner) →
    Performs oracle constant scope (lowerStmt scope stmt) stmt
  | .assign left right, h => by
      rw [lowerStmt_assign]
      exact performs_assignment (h _ (by simp [subStmts]))
  | .ifElse cond thenBranch elseBranch, h => by
      rw [subStmts, List.forall_mem_cons, List.forall_mem_append] at h
      rw [lowerStmt_ifElse]
      exact performs_conditional (h.1.plain cond (by simp [exprsOf]))
        (tidy_lowerStmt scope thenBranch) (tidy_lowerStmt scope elseBranch)
        (performs_lowerStmt thenBranch h.2.1) (performs_lowerStmt elseBranch h.2.2)
  | .whileLoop cond body, h => by
      rw [subStmts, List.forall_mem_cons] at h
      rw [lowerStmt_whileLoop]
      exact performs_loop (h.1.plain cond (by simp [exprsOf])) (tidy_lowerStmt scope body)
        (performs_lowerStmt body h.2)
  | .expr expr, h => by
      have admissible := h (.expr expr) (by simp [subStmts])
      rw [lowerStmt_expr]
      exact performs_perform (admissible.plain expr (by simp [exprsOf]))
  | .block stmts, h => by
      rw [subStmts, List.forall_mem_cons] at h
      rw [lowerStmt]
      exact performs_lowerStmts stmts h.2
  | .ret value, h => by
      have admissible := h (.ret value) (by simp [subStmts])
      rw [lowerStmt_ret]
      refine performs_leave (fun expr same => admissible.plain expr ?_) fun expr same =>
        admissible.returns expr same
      simp [exprsOf, same]

/-- Lowering statements in order gives code that runs them in order. -/
theorem performs_lowerStmts : ∀ stmts, (∀ inner ∈ subStmtsOfAll stmts, Admissible scope inner) →
    Performs oracle constant scope (lowerStmts scope stmts) (.block stmts)
  | [], _ => by
      rw [lowerStmts]
      exact performs_nil
  | stmt :: rest, h => by
      rw [subStmtsOfAll, List.forall_mem_append] at h
      rw [lowerStmts]
      exact performs_cons (tidy_lowerStmt scope stmt) (performs_lowerStmt stmt h.1)
        (performs_lowerStmts rest h.2)

end

end

/-! ## Methods -/

/-- Statements that end in a return do not come to their end. -/
theorem not_normal_of_return {oracle : Oracle Member String} {scope : Scope} :
    ∀ {body : List Stmt} {env : Env} {world : World Member String} {env' : Env}
      {world' : World Member String}, body.getLast?.any Stmt.isReturn = true →
      ¬ Run oracle scope (.block body) env world .normal env' world'
  | [], _, _, _, _, h, _ => by simp at h
  | [stmt], _, _, _, _, h, run => by
      cases run with
      | blockCons run₁ run₂ =>
        cases stmt with
        | ret value => cases run₁
        | _ => simp [Stmt.isReturn] at h
  | _ :: next :: rest, _, _, _, _, h, run => by
      cases run with
      | blockCons run₁ run₂ =>
        rw [List.getLast?_cons_cons] at h
        exact not_normal_of_return h run₂

/-- The body of a lowered method. -/
theorem body_of_lowerMethod {symbols : SymbolTable} {decl : MethodDecl} {entry : MethodEntry}
    {names : Names} {method : Method} (found : symbols.method? decl.name = some entry)
    (accepted : ((lowerMethod symbols decl).run names).value = .ok method) :
    ∃ code after, Gives (lowerStmts ⟨symbols, entry⟩ decl.body) names () code after ∧
      method.body = code ++ closing ⟨symbols, entry⟩ decl.body := by
  have gives : Gives (lowerMethod symbols decl) names method _ _ := ⟨accepted, rfl, rfl⟩
  simp only [lowerMethod, found] at gives
  obtain ⟨_, gives₁, _⟩ := gives.lift_bind
  obtain ⟨body, _, between, _, captured, finished, _⟩ := gives₁.bind
  refine ⟨body, between, captured.capture, ?_⟩
  rw [← Except.ok.inj finished.value_eq]
  rfl

/-- Lowering a method preserves its meaning.  A run of the body that finishes is
followed by the lowered instructions, from the first one to a return of the same
value, in the same world and with the same values of the source variables. -/
theorem run_of_lowerMethod (oracle : Oracle Member String) (constant : String → Value)
    (symbols : SymbolTable) (decl : MethodDecl) (names : Names) {entry : MethodEntry}
    {method : Method} (found : symbols.method? decl.name = some entry)
    (accepted : ((lowerMethod symbols decl).run names).value = .ok method)
    (admissible : ∀ stmt ∈ subStmtsOfAll decl.body, Admissible ⟨symbols, entry⟩ stmt)
    {env env' : Env} {world world' : World Member String} {flow : Flow}
    (run : Run oracle ⟨symbols, entry⟩ (.block decl.body) env world flow env' world')
    (finishes : flow = .normal → (resultTy ⟨symbols, entry⟩).isVoid = true)
    {store : Store} (agrees : Agrees userVariables env store) :
    let platform := sourcePlatform oracle constant
    ∃ last, Steps platform method.body ⟨0, store, world⟩ last ∧
      step platform method.body last = .returned flow.value? ∧ last.world = world' ∧
      Agrees userVariables env' last.store := by
  intro platform
  obtain ⟨code, after, gives, body_eq⟩ := body_of_lowerMethod found accepted
  rw [body_eq]
  have placed : Placed (code ++ closing ⟨symbols, entry⟩ decl.body) names [] code :=
    ⟨⟨_, rfl⟩, by simp⟩
  obtain ⟨last, steps, same, agrees', ends⟩ :=
    performs_lowerStmts decl.body admissible gives run placed agrees
  cases flow with
  | returned value => exact ⟨last, steps, ends, same, agrees'⟩
  | normal =>
      -- The end of the code is reached, so the return that closes it is there.
      have closing_eq : closing ⟨symbols, entry⟩ decl.body = [.ret .void none] := by
        have open' : decl.body.getLast?.any Stmt.isReturn = false := by
          rw [Bool.eq_false_iff]
          exact fun ended => not_normal_of_return ended run
        simp [closing, finishes rfl, open']
      rw [closing_eq] at steps ⊢
      have here : (code ++ [.ret .void none])[last.pc]? = some (.ret .void none) := by
        rw [ends]
        simp
      have returned : step platform (code ++ [.ret .void none]) last = _ := step_ret here
      exact ⟨last, steps, returned, same, agrees'⟩

/-- The method `int climb(int step) { while (step < 2) step = step + 1; return step; }`. -/
def climb : MethodDecl where
  name := "climb"
  isPublic := true
  isStatic := false
  params := [.plain "step" .int]
  ret := .int
  locals := []
  body :=
    [.whileLoop (.binaryOf .lt (.var "step" .int) (.intOf 2))
      (.assign (.var "step" .int) (.binaryOf (.arith .add) (.var "step" .int) (.intOf 1))),
     .ret (some (.var "step" .int))]

/-- The class that has only this method. -/
def climbSymbols : SymbolTable where
  className := "Climber"
  superName := none
  imports := []
  fields := .empty
  methods := .ofList MethodEntry.name [.ofDecl climb]

theorem admissible_climb :
    ∀ stmt ∈ subStmtsOfAll climb.body, Admissible ⟨climbSymbols, .ofDecl climb⟩ stmt := by
  have parts : ∀ stmt ∈ subStmtsOfAll climb.body, (targetOf? stmt).all isPlace = true ∧
      ∀ expr ∈ exprsOf stmt,
        (∀ name ∈ variablesOf ⟨climbSymbols, .ofDecl climb⟩ expr, name = "step") ∧
        (assumedReceivers ⟨climbSymbols, .ofDecl climb⟩ expr).isEmpty = true := by
    decide
  have shown : userVariables.shows "step" :=
    ⟨Names.not_reserved (by decide) (by decide), by decide⟩
  intro stmt hstmt
  obtain ⟨place, exprs⟩ := parts stmt hstmt
  refine ⟨fun expr hexpr => ⟨fun name hname => ?_, fun receiver hreceiver => ?_⟩, ?_, ?_⟩
  · rw [(exprs expr hexpr).1 name hname]
    exact shown
  · rw [List.isEmpty_iff.mp (exprs expr hexpr).2] at hreceiver
    cases hreceiver
  · intro target same
    rw [same] at place
    exact place
  · intro expr _
    rfl

theorem run_of_lowerMethod_climb :
    let platform := sourcePlatform (fun _ heap => (.ok .null, heap)) fun _ => .null
    let store : Store := fun name => if name = "step" then .int 1 else .ref 0
    ∃ method, ((lowerMethod climbSymbols climb).run .fresh).value = .ok method ∧
      ∃ last, Steps platform method.body ⟨0, store, default⟩ last ∧
        step platform method.body last = .returned (some (.int 2)) ∧ last.world = default := by
  intro platform store
  let env : Env := ⟨.ref 0, store⟩
  have run : Run platform.oracle ⟨climbSymbols, .ofDecl climb⟩ (.block climb.body) env default
      (.returned (some (.int 2))) (env.set "step" (.int 2)) default := by
    refine .blockCons (.whileTrue rfl (.assignVar rfl rfl) (.whileFalse rfl)) ?_
    exact .blockReturned (.retSome rfl)
  obtain ⟨last, steps, returned, same, _⟩ := run_of_lowerMethod platform.oracle _ climbSymbols
    climb .fresh rfl rfl admissible_climb run (by simp) ⟨rfl, fun _ _ => rfl⟩
  exact ⟨_, rfl, last, steps, returned, same⟩

end MiniJava.Lowering
