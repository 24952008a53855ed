import MiniJava.Proofs.Lowering.Outline

/-!
# The labels of a session

A session lowers one thing after another against one symbol table, and all
steps draw on one supply of names.  A step may be an expression, a statement, a
method or a whole program.  It returns lists of instructions, one for every
method if it is a program, or it fails and returns none; the names that a
failed step took stay taken.

The labels of everything that a session returns are told apart by their texts,
and no list jumps out of itself.  Moreover every list has the outline that its
source gives, where the two labels of a pair share their number.
-/

namespace MiniJava

open Source (Expr Stmt Scope SymbolTable MethodDecl MethodEntry Program)
open Tac

/-! ## Outlines in series -/

namespace Outline

open MiniJava.Numbering

/-- Outlines from left to right, the events of each kept apart. -/
def series : List Outline → Numbering → List (List Event) × Numbering
  | [], numbers => ([], numbers)
  | first :: rest, numbers =>
      let before := first numbers
      let after := series rest before.2
      (before.1 :: after.1, after.2)

/-- Lists of events whose labels are new and marked once in all of them
together, while each list leads only to labels of its own. -/
structure SoundSeries (before : Numbering) (lists : List (List Event)) (after : Numbering) :
    Prop where
  le : before ≤ after
  between : ∀ label ∈ lists.flatMap marked, Between before after label
  unique : (lists.flatMap marked).Nodup
  closed : ∀ events ∈ lists, ∀ target ∈ aimed events, target ∈ marked events

/-- Numbers may be taken for nothing. -/
theorem soundSeries_nil {before after : Numbering} (le : before ≤ after) :
    SoundSeries before [] after :=
  ⟨le, nofun, .nil, nofun⟩

theorem SoundSeries.append {before between after : Numbering} {first second : List (List Event)}
    (h : SoundSeries before first between) (h' : SoundSeries between second after) :
    SoundSeries before (first ++ second) after where
  le := le_trans h.le h'.le
  between := by
    rw [List.flatMap_append, List.forall_mem_append]
    exact ⟨fun label hmem => (h.between label hmem).mono (le_refl _) h'.le,
      fun label hmem => (h'.between label hmem).mono h.le (le_refl _)⟩
  unique := by
    rw [List.flatMap_append]
    refine List.Nodup.append h.unique h'.unique fun label hmem hmem' => ?_
    exact (h.between label hmem).not_between (h'.between label hmem')
  closed := List.forall_mem_append.mpr ⟨h.closed, h'.closed⟩

theorem SoundBetween.soundSeries {before after : Numbering} {events : List Event}
    (h : SoundBetween before events after) : SoundSeries before [events] after where
  le := h.le
  between := by simpa using h.between
  unique := by simpa using h.unique
  closed := by simpa using h.closed

theorem soundSeries_series : ∀ {outlines : List Outline}, (∀ outline ∈ outlines, outline.Sound) →
    ∀ numbers, SoundSeries numbers (series outlines numbers).1 (series outlines numbers).2
  | [], _, _ => soundSeries_nil (le_refl _)
  | _ :: _, h, numbers =>
      (h _ List.mem_cons_self numbers).soundSeries.append
        (soundSeries_series (fun outline hmem => h outline (List.mem_cons_of_mem _ hmem)) _)

end Outline

namespace Lowering

open Outline

/-! ## Methods and classes -/

/-- The outline of the body of a method. -/
def methodOutline (symbols : SymbolTable) (decl : MethodDecl) : Outline :=
  match symbols.method? decl.name with
  | some entry => reading.stmts ⟨symbols, entry⟩ decl.body
  | none => skip

theorem sound_methodOutline (symbols : SymbolTable) (decl : MethodDecl) :
    (methodOutline symbols decl).Sound := by
  rw [methodOutline]
  split
  · exact keeps_sound.stmts _ _
  · exact sound_skip

theorem outlined_lowerStmts (scope : Scope) (body : List Stmt) :
    Outlined (lowerStmts scope body) (reading.stmts scope body) :=
  (outlineSurvey scope).yields_lowerStmts body

theorem tidy_capture {attempt : Attempt Unit} (h : Tidy attempt.run) :
    Tidy (Attempt.capture attempt).run :=
  fun names => ⟨(h names).1, fun _ hmem => by cases hmem⟩

theorem tidy_lowerMethod (symbols : SymbolTable) (decl : MethodDecl) :
    Tidy (lowerMethod symbols decl).run := by
  intro names
  rw [lowerMethod]
  split
  · exact .pure _
  · exact .lift_bind (.note _)
      (.attempt_bind (tidy_capture (tidy_lowerStmts _ decl.body) names) fun _ => .pure _)

theorem tidy_lowerMethods (symbols : SymbolTable) :
    ∀ decls, Tidy (lowerMethods symbols decls).run
  | [] => .pure _
  | decl :: rest => fun names =>
      have le := (tidy_lowerMethod symbols decl names).1
      .attempt_bind (tidy_lowerMethod symbols decl names) fun _ =>
        .attempt_bind ((tidy_lowerMethods symbols rest).at le) fun _ => .pure _

theorem keepsStep_lowerMethod (symbols : SymbolTable) (decl : MethodDecl) :
    KeepsStep (lowerMethod symbols decl).run := by
  intro names inStep
  cases found : symbols.method? decl.name with
  | none =>
      simp only [lowerMethod, found]
      exact inStep
  | some entry =>
      have inStep' : StaysInStep names (Attempt.capture (lowerStmts ⟨symbols, entry⟩ decl.body)) :=
        (outlined_lowerStmts ⟨symbols, entry⟩ decl.body).keepsStep names inStep
      simp only [lowerMethod, found]
      exact .lift_bind (.attempt_bind inStep' fun _ => inStep')

theorem keepsStep_lowerMethods (symbols : SymbolTable) :
    ∀ decls, KeepsStep (lowerMethods symbols decls).run
  | [] => fun _ inStep => inStep
  | decl :: rest => fun names inStep =>
      have inStep₁ := keepsStep_lowerMethod symbols decl names inStep
      have inStep₂ := keepsStep_lowerMethods symbols rest _ inStep₁
      .attempt_bind inStep₁ fun _ => .attempt_bind inStep₂ fun _ => inStep₂

/-- The body of a lowered method has the outline of the declaration.  The
return that may close it does not show. -/
theorem outlined_lowerMethod {symbols : SymbolTable} {decl : MethodDecl} {names after : Names}
    {method : Method} {code : List Instr} (inStep : names.InStep)
    (gives : Gives (lowerMethod symbols decl) names method code after) :
    (events method.body, after.numbering) = methodOutline symbols decl names.numbering := by
  obtain ⟨entry, body, lowered⟩ := loweredMethod_of_gives gives
  have outline_eq : methodOutline symbols decl = reading.stmts ⟨symbols, entry⟩ decl.body := by
    rw [methodOutline, lowered.found]
  have closed : events (closing ⟨symbols, entry⟩ decl.body) = [] := by
    rw [closing]
    split <;> rfl
  rw [outline_eq, ← (outlined_lowerStmts _ _).same inStep lowered.gives, lowered.body,
    events_append, closed, List.append_nil]

theorem outlined_lowerMethods {symbols : SymbolTable} :
    ∀ {decls : List MethodDecl} {names after : Names} {methods : List Method} {code : List Instr},
      names.InStep → Gives (lowerMethods symbols decls) names methods code after →
      (methods.map (events ∘ Method.body), after.numbering) =
        series (decls.map (methodOutline symbols)) names.numbering
  | [], _, _, _, _, _, gives => by
      rw [← Except.ok.inj gives.value_eq, ← gives.names_eq]
      rfl
  | decl :: rest, _, _, _, _, inStep, gives => by
      obtain ⟨method, _, between, _, gives₁, gives₂, _⟩ := gives.bind
      obtain ⟨methods, _, _, _, gives₃, finished, _⟩ := gives₂.bind
      have inStep' : between.InStep := gives₁.names_eq ▸ keepsStep_lowerMethod symbols decl _ inStep
      rw [List.map_cons, series, ← outlined_lowerMethod inStep gives₁,
        ← outlined_lowerMethods inStep' gives₃, ← Except.ok.inj finished.value_eq,
        ← finished.names_eq]
      rfl

theorem tidy_lowerProgram (symbols : SymbolTable) (program : Program) :
    Tidy (lowerProgram symbols program).run := fun names =>
  .attempt_bind (tidy_lowerMethods symbols program.decl.methods names) fun _ => .pure _

theorem keepsStep_lowerProgram (symbols : SymbolTable) (program : Program) :
    KeepsStep (lowerProgram symbols program).run := fun names inStep =>
  have inStep' := keepsStep_lowerMethods symbols program.decl.methods names inStep
  .attempt_bind inStep' fun _ => inStep'

theorem outlined_lowerProgram {symbols : SymbolTable} {program : Program} {names after : Names}
    {unit : Tac.Class} {code : List Instr} (inStep : names.InStep)
    (gives : Gives (lowerProgram symbols program) names unit code after) :
    (unit.methods.map (events ∘ Method.body), after.numbering) =
      series (program.decl.methods.map (methodOutline symbols)) names.numbering := by
  obtain ⟨methods, _, _, _, gives₁, finished, _⟩ := gives.bind
  rw [← outlined_lowerMethods inStep gives₁, ← Except.ok.inj finished.value_eq,
    ← finished.names_eq]
  rfl

/-! ## Steps -/

theorem tidy_generate (scope : Scope) (position : Position) (expr : Expr) :
    Tidy (generate scope position expr) := by
  cases position with
  | operand => exact (tidy_operand scope expr).map _
  | rhs => exact (tidy_compute scope expr).map _
  | target => exact (tidy_target scope expr).map _
  | statement => exact (tidy_effect scope expr).map _

/-- One step of a session. -/
inductive Step where
  | expr (method : MethodEntry) (position : Position) (expr : Expr)
  | stmt (method : MethodEntry) (stmt : Stmt)
  | method (decl : MethodDecl)
  | program (program : Program)

namespace Step

/-- The lists of instructions that a step returns. -/
def lists (symbols : SymbolTable) : Step → Attempt (List (List Instr))
  | .expr entry position value => do
      let code ← Attempt.capture do
        let _ ← lowerExpr ⟨symbols, entry⟩ position value
      return [code]
  | .stmt entry body => do
      let code ← Attempt.capture (lowerStmt ⟨symbols, entry⟩ body)
      return [code]
  | .method decl => do
      let lowered ← lowerMethod symbols decl
      return [lowered.body]
  | .program source => do
      let unit ← lowerProgram symbols source
      return unit.methods.map Method.body

/-- The outlines of what a step lowers. -/
def outlines (symbols : SymbolTable) : Step → List Outline
  | .expr entry _ value => [reading.expr ⟨symbols, entry⟩ value]
  | .stmt entry body => [reading.stmt ⟨symbols, entry⟩ body]
  | .method decl => [methodOutline symbols decl]
  | .program source => source.decl.methods.map (methodOutline symbols)

theorem sound_outlines (symbols : SymbolTable) (step : Step) :
    ∀ outline ∈ step.outlines symbols, outline.Sound := by
  cases step with
  | expr entry position value => simpa [outlines] using keeps_sound.expr _ value
  | stmt entry body => simpa [outlines] using keeps_sound.stmt _ body
  | method decl => simpa [outlines] using sound_methodOutline symbols decl
  | program source => simpa [outlines] using fun decl _ => sound_methodOutline symbols decl

end Step

/-- From this supply, an attempt moves on and leaves the counters in step, also
if it fails.  If it succeeds, the lists that it returns have the outlines. -/
structure Serves (attempt : Attempt (List (List Instr))) (outlines : List Outline)
    (names : Names) : Prop where
  le : names ≤ (attempt.run names).names
  inStep : (attempt.run names).names.InStep
  outlined : ∀ codes, (attempt.run names).value = .ok codes →
    (codes.map events, (attempt.run names).names.numbering) = series outlines names.numbering

namespace Serves

variable {names : Names}

/-- Lists that are read off the result of an attempt. -/
theorem returning {first : Attempt α} {lists : α → List (List Instr)} {outlines : List Outline}
    (tidy : Tidy first.run) (keeps : KeepsStep first.run)
    (outlined : ∀ value code after, Gives first names value code after →
      ((lists value).map events, after.numbering) = series outlines names.numbering)
    (inStep : names.InStep) : Serves (do return lists (← first)) outlines names where
  le := (TidyAt.attempt_bind (tidy names) fun _ => .pure _).1
  inStep := StaysInStep.attempt_bind (keeps names inStep) fun _ => keeps names inStep
  outlined := by
    intro codes success
    obtain ⟨value, _, _, _, gives, finished, _⟩ := Gives.bind ⟨success, rfl, rfl⟩
    rw [← Except.ok.inj finished.value_eq, ← finished.names_eq]
    exact outlined value _ _ gives

theorem capture {attempt : Attempt Unit} {outline : Outline} (tidy : Tidy attempt.run)
    (outlined : Outlined attempt outline) (inStep : names.InStep) :
    Serves (do return [← Attempt.capture attempt]) [outline] names := by
  refine returning (tidy_capture tidy) outlined.keepsStep (fun code _ after gives => ?_) inStep
  rw [List.map_cons, List.map_nil, series, series, ← outlined.same inStep gives.capture]

end Serves

/-- What one step does to the supply and to the labels. -/
theorem serves_lists (symbols : SymbolTable) (step : Step) {names : Names}
    (inStep : names.InStep) : Serves (step.lists symbols) (step.outlines symbols) names := by
  cases step with
  | expr entry position value =>
      let scope : Scope := ⟨symbols, entry⟩
      have follows : Follows (generate scope position value) (reading.expr scope value) :=
        before_reading scope position value ▸ (outlineSurvey scope).finds_generate position value
      rw [Step.lists, lowerExpr_eq]
      refine .capture
        (fun names => .lift_bind (tidy_generate scope position value names) (.pure _)) ?_ inStep
      rw [← andThen_skip (reading.expr _ value)]
      exact .lift_bind follows fun _ => .lift (.pure ())
  | stmt entry body =>
      exact .capture (tidy_lowerStmt _ body) ((outlineSurvey _).yields_lowerStmt body) inStep
  | method decl =>
      refine .returning (tidy_lowerMethod symbols decl) (keepsStep_lowerMethod symbols decl)
        (fun method _ after gives => ?_) inStep
      rw [Step.outlines, series, series, ← outlined_lowerMethod inStep gives]
      rfl
  | program source =>
      refine .returning (tidy_lowerProgram symbols source) (keepsStep_lowerProgram symbols source)
        (fun unit _ after gives => ?_) inStep
      rw [List.map_map]
      exact outlined_lowerProgram inStep gives

/-! ## Sessions -/

/-- What the steps of a session return, in order.  All steps draw on one supply
of names. -/
def session (symbols : SymbolTable) : List Step → Names → List (Option (List (List Instr)))
  | [], _ => []
  | step :: rest, names =>
      let outcome := (step.lists symbols).run names
      outcome.value.toOption :: session symbols rest outcome.names

/-- All lists of instructions that a session returns, in order. -/
def returned (outputs : List (Option (List (List Instr)))) : List (List Instr) :=
  outputs.flatMap (·.getD [])

/-- The lists of a session follow one another without a label in common. -/
theorem soundSeries_session (symbols : SymbolTable) :
    ∀ (steps : List Step) {names : Names}, names.InStep →
      ∃ after, SoundSeries names.numbering ((returned (session symbols steps names)).map events)
        after
  | [], names, _ => ⟨names.numbering, soundSeries_nil (le_refl _)⟩
  | step :: rest, names, inStep => by
      have served := serves_lists symbols step inStep
      obtain ⟨after, sound⟩ := soundSeries_session symbols rest served.inStep
      refine ⟨after, ?_⟩
      rw [session, returned, List.flatMap_cons, List.map_append]
      refine SoundSeries.append ?_ sound
      cases outcome : ((step.lists symbols).run names).value with
      | error error => exact soundSeries_nil (Names.numbering_mono served.le)
      | ok codes =>
          have same := served.outlined codes outcome
          have sound := soundSeries_series (step.sound_outlines symbols) names.numbering
          rw [← same] at sound
          exact sound

/-- Every list of a session has its outline, for some numbers. -/
theorem outlined_session (symbols : SymbolTable) :
    ∀ (steps : List Step) {names : Names}, names.InStep →
      List.Forall₂ (fun step output => ∀ codes, output = some codes →
          ∃ numbers, codes.map events = (series (step.outlines symbols) numbers).1)
        steps (session symbols steps names)
  | [], _, _ => .nil
  | step :: rest, names, inStep => by
      have served := serves_lists symbols step inStep
      refine .cons (fun codes success => ⟨names.numbering, ?_⟩)
        (outlined_session symbols rest served.inStep)
      cases outcome : ((step.lists symbols).run names).value with
      | error error =>
          rw [outcome] at success
          cases success
      | ok codes' =>
          rw [outcome] at success
          obtain rfl := Option.some.inj success
          exact congrArg Prod.fst (served.outlined codes' outcome)

/-- Labels are unique, closed and paired.  In all that a session returns from a
fresh supply no label text is defined twice, whether in one list, in two
methods of a class or in two steps.  Every jump of a list goes to a text that
the list defines exactly once.  And what every step returns has the outlines of
what it lowers, so that the two labels of a pair share their number; steps may
fail in between. -/
theorem labels_of_session (symbols : SymbolTable) (steps : List Step) :
    let outputs := session symbols steps .fresh
    (((returned outputs).flatMap marks).map Label.text).Nodup ∧
    (∀ code ∈ returned outputs, ∀ target ∈ targets code,
      ((marks code).map Label.text).count target.text = 1) ∧
    List.Forall₂ (fun step output => ∀ codes, output = some codes →
        ∃ numbers, codes.map events = (series (step.outlines symbols) numbers).1)
      steps outputs := by
  intro outputs
  obtain ⟨after, sound⟩ := soundSeries_session symbols steps Names.inStep_fresh
  have text_injective : Function.Injective Label.text := fun _ _ => Label.text_inj
  have unique : (((returned outputs).flatMap marks).map Label.text).Nodup := by
    have nodup := sound.unique
    rw [List.flatMap_map] at nodup
    simp only [marked, ← marks_eq_filterMap_events] at nodup
    exact nodup.map text_injective
  refine ⟨unique, ?_, outlined_session symbols steps Names.inStep_fresh⟩
  intro code hcode target htarget
  have marked_target : target ∈ marks code := by
    rw [marks_eq_filterMap_events]
    rw [targets_eq_filterMap_events] at htarget
    exact sound.closed _ (List.mem_map_of_mem hcode) target htarget
  have own : ((marks code).map Label.text).Nodup :=
    List.Nodup.sublist ((List.sublist_flatten_of_mem (List.mem_map_of_mem hcode)).map _) unique
  exact List.count_eq_one_of_mem own (List.mem_map_of_mem marked_target)

end Lowering

end MiniJava
