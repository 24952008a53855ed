import MiniJava.Proofs.Lowering.Supply

/-!
# Simulation of effects by generated code

A generator writes code and hands back a value of three-address code: a
variable or literal, an expression, the parts of a call.  It *lowers* an effect
(`Lowers`) if running its code and then reading what it handed back does to the
world what the effect does, with the same result, and changes no variable but
those it was handed out.  If the effect fails, the run fails with the same
fault in the same world.

What was handed back may be read later, after other code has run.  It is
`Steady` if no variable handed out from then on has a part in its reading.

`Lowers` is closed under sequencing (`Lowers.bind`), so every rule of lowering
is treated once, over parts of which only this much is known.
-/

namespace MiniJava.Lowering

open Tac Semantics

variable {α β γ δ : Type}
variable {Callee Field : Type}

/-! ## Variables that code leaves alone -/

/-- Stores that differ at most in variables handed out between two supplies. -/
def Frame (before after : Names) (store store' : Store) : Prop :=
  ∀ name, ¬ Names.Generated before after name → store' name = store name

namespace Frame

variable {before after : Names} {store store' : Store}

theorem refl (before after : Names) (store : Store) : Frame before after store store :=
  fun _ _ => rfl

theorem mono {before' after' : Names} (h : Frame before after store store')
    (earlier : before' ≤ before) (later : after ≤ after') :
    Frame before' after' store store' :=
  fun name fresh => h name fun generated => fresh (generated.mono earlier later)

theorem trans {between : Names} {store'' : Store} (h : Frame before between store store')
    (h' : Frame between after store' store'') (le : before ≤ between)
    (le' : between ≤ after) : Frame before after store store'' := by
  intro name fresh
  rw [h'.mono le (Names.le_refl _) name fresh, h.mono (Names.le_refl _) le' name fresh]

/-- While the supply stands still no variable changes. -/
theorem eq_of_self (h : Frame before before store store') : store' = store :=
  funext fun name => h name (Names.not_generated_self before name)

theorem update {name : String} (h : Frame before after store store')
    (generated : Names.Generated before after name) (value : Value) :
    Frame before after store (Function.update store' name value) := by
  intro other fresh
  have ne : other ≠ name := by
    rintro rfl
    exact fresh generated
  rw [Function.update_of_ne ne, h other fresh]

end Frame

/-- A reading in which no variable handed out from now on has a part. -/
def Steady (read : α → Store → γ) (value : α) (names : Names) : Prop :=
  ∀ ⦃after store store'⦄, Frame names after store store' → read value store' = read value store

/-! ## Code inside a program -/

/-- A program holds the code right after `before`, where no label is marked
that the supply still has to hand out. -/
structure Placed (program : List Instr) (names : Names) (before code : List Instr) :
    Prop where
  split : ∃ after, program = before ++ code ++ after
  below : ∀ mark ∈ marks before, mark.Below names

namespace Placed

variable {program before code first second : List Instr} {names : Names}

theorem left (h : Placed program names before (first ++ second)) :
    Placed program names before first := by
  obtain ⟨after, rfl⟩ := h.split
  exact ⟨⟨second ++ after, by simp⟩, h.below⟩

theorem right {names' : Names} (h : Placed program names before (first ++ second))
    (le : names ≤ names') (below : ∀ mark ∈ marks first, mark.Below names') :
    Placed program names' (before ++ first) second := by
  obtain ⟨after, rfl⟩ := h.split
  refine ⟨⟨after, by simp⟩, fun mark hmem => ?_⟩
  rw [marks_append, List.mem_append] at hmem
  rcases hmem with hmem | hmem
  · exact (h.below mark hmem).mono le
  · exact below mark hmem

theorem head {instr : Instr} (h : Placed program names before (instr :: code)) :
    program[before.length]? = some instr := by
  obtain ⟨after, rfl⟩ := h.split
  simp

/-- The instruction after some more code. -/
theorem instrAt (first : List Instr) {instr : Instr}
    (h : Placed program names before (first ++ instr :: second)) :
    program[before.length + first.length]? = some instr := by
  obtain ⟨after, rfl⟩ := h.split
  rw [show before ++ (first ++ instr :: second) ++ after =
    (before ++ first) ++ (instr :: (second ++ after)) by simp, ← List.length_append]
  simp

/-- A new label is found where the code marks it. -/
theorem placeOf? (first : List Instr) {mark : Label}
    (h : Placed program names before (first ++ .label mark :: second))
    (fresh : ¬ mark.Below names) (absent : mark ∉ marks first) :
    placeOf? program mark = some (before.length + first.length) := by
  obtain ⟨after, rfl⟩ := h.split
  rw [show before ++ (first ++ .label mark :: second) ++ after =
    (before ++ first) ++ .label mark :: (second ++ after) by simp, ← List.length_append]
  refine placeOf?_append_label ?_ _
  rw [marks_append, List.mem_append]
  rintro (hmem | hmem)
  · exact fresh (h.below mark hmem)
  · exact absent hmem

end Placed

/-! ## Readings -/

section
variable (platform : Platform Callee Field)

/-- Read a variable or literal. -/
def readElement (elem : Element) (store : Store) : Exec Callee Field Value :=
  pure (platform.element store elem)

/-- Read a variable. -/
def readVariable (op : Operand) (store : Store) : Exec Callee Field Value :=
  pure (store op.name)

/-- Evaluate a right-hand side. -/
def readRhs (rhs : Rhs) (store : Store) : Exec Callee Field Value :=
  platform.rhs store rhs

/-- Read variables and literals. -/
def readElements (elems : List Element) (store : Store) : Exec Callee Field (List Value) :=
  pure (elems.map (platform.element store))

/-- Nothing is left to read. -/
def readUnit (_ : Unit) (_ : Store) : Exec Callee Field Unit := pure ()

/-- Reading a variable or literal does nothing to the world. -/
theorem readElement_bind (elem : Element) (store : Store) (cont : Value → Exec Callee Field β) :
    (readElement platform elem store >>= cont) = cont (platform.element store elem) := rfl

theorem readVariable_bind (op : Operand) (store : Store) (cont : Value → Exec Callee Field β) :
    (readVariable op store >>= cont) = cont (store op.name) := rfl

end

section
variable [DecidableEq Field] {platform : Platform Callee Field}

/-! ## Runs to a place or to a fault -/

/-- A run leads to a configuration that satisfies `ok`, or to a fault, from
variables and with a world afterwards that satisfy `bad`. -/
def Runs (platform : Platform Callee Field) (program : List Instr)
    (start : Config Callee Field) (ok : Config Callee Field → Prop)
    (bad : Store → Fault → World Callee Field → Prop) : Prop :=
  ∃ last, Steps platform program start last ∧
    (ok last ∨ ∃ fault world, step platform program last = .failed fault world ∧
      bad last.store fault world)

namespace Runs

variable {program : List Instr} {start : Config Callee Field}
  {ok ok' : Config Callee Field → Prop} {bad bad' : Store → Fault → World Callee Field → Prop}

theorem done (h : ok start) : Runs platform program start ok bad :=
  ⟨start, .refl, .inl h⟩

theorem fault {fault : Fault} {world : World Callee Field}
    (h : step platform program start = .failed fault world)
    (h' : bad start.store fault world) : Runs platform program start ok bad :=
  ⟨start, .refl, .inr ⟨fault, world, h, h'⟩⟩

theorem step {config : Config Callee Field}
    (h : Semantics.step platform program start = .next config)
    (h' : Runs platform program config ok bad) : Runs platform program start ok bad := by
  obtain ⟨last, steps, ends⟩ := h'
  exact ⟨last, .head h steps, ends⟩

theorem steps {config : Config Callee Field} (h : Steps platform program start config)
    (h' : Runs platform program config ok bad) : Runs platform program start ok bad := by
  obtain ⟨last, steps, ends⟩ := h'
  exact ⟨last, h.trans steps, ends⟩

theorem bind (h : Runs platform program start ok bad)
    (next : ∀ config, ok config → Runs platform program config ok' bad')
    (same : ∀ store fault world, bad store fault world → bad' store fault world) :
    Runs platform program start ok' bad' := by
  obtain ⟨last, steps, ends | ⟨fault, world, failed, ends⟩⟩ := h
  · obtain ⟨last', steps', ends'⟩ := next last ends
    exact ⟨last', steps.trans steps', ends'⟩
  · exact ⟨last, steps, .inr ⟨fault, world, failed, same _ _ _ ends⟩⟩

end Runs

/-! ## Two-way branches -/

/-- Code that tests a condition and jumps over the code for the false case to
the code for the true one. -/
def twoWay (cond : Rhs) (yes done : Label) (onFalse onTrue : List Instr) : List Instr :=
  (.branch cond yes :: onFalse) ++ (.goto done :: .label yes :: onTrue) ++ [.label done]

/-- Two-way code in a program, under labels that nothing else marks. -/
structure TwoWay (program : List Instr) (names : Names) (before : List Instr) (cond : Rhs)
    (yes done : Label) (onFalse onTrue : List Instr) : Prop where
  placed : Placed program names before (twoWay cond yes done onFalse onTrue)
  freshYes : ¬ yes.Below names
  freshDone : ¬ done.Below names
  distinct : done ≠ yes
  yesFalse : yes ∉ marks onFalse
  doneFalse : done ∉ marks onFalse
  doneTrue : done ∉ marks onTrue

namespace TwoWay

/-- The code in front of the false case. -/
def headFalse (cond : Rhs) (yes : Label) : List Instr := [.branch cond yes]

/-- The code in front of the true case. -/
def headTrue (cond : Rhs) (yes done : Label) (onFalse : List Instr) : List Instr :=
  .branch cond yes :: onFalse ++ [.goto done, .label yes]

variable {program before onFalse onTrue : List Instr} {names : Names} {cond : Rhs}
  {yes done : Label} {store : Store} {world after : World Callee Field}

theorem placedTrue (h : TwoWay program names before cond yes done onFalse onTrue) :
    Placed program names before ((Instr.branch cond yes :: (onFalse ++ [.goto done]))
      ++ .label yes :: (onTrue ++ [.label done])) := by
  simpa [twoWay] using h.placed

theorem placeOf?_yes (h : TwoWay program names before cond yes done onFalse onTrue) :
    placeOf? program yes = some (before.length + (onFalse.length + 2)) := by
  have found := h.placedTrue.placeOf? _ h.freshYes
    (by simpa [Instr.mark?] using h.yesFalse)
  simpa using found

theorem placeOf?_done (h : TwoWay program names before cond yes done onFalse onTrue) :
    placeOf? program done =
      some (before.length + (onFalse.length + onTrue.length + 3)) := by
  have found := h.placed.placeOf? _ h.freshDone
    (by simpa [Instr.mark?, h.distinct] using ⟨h.doneFalse, h.doneTrue⟩)
  rw [found]
  simp only [List.length_append, List.length_cons]
  congr 1
  omega

/-- The label at the end. -/
theorem instrAt_done (h : TwoWay program names before cond yes done onFalse onTrue) :
    program[before.length + (onFalse.length + onTrue.length + 3)]? = some (.label done) := by
  have found := h.placed.instrAt
  simp only [List.length_append, List.length_cons] at found
  rwa [show onFalse.length + 1 + (onTrue.length + 1 + 1) =
    onFalse.length + onTrue.length + 3 by omega] at found

theorem length_twoWay (cond : Rhs) (yes done : Label) (onFalse onTrue : List Instr) :
    (twoWay cond yes done onFalse onTrue).length = onFalse.length + onTrue.length + 4 := by
  simp only [twoWay, List.length_append, List.length_cons, List.length_nil]
  omega

/-- If the condition fails, the code for the false case comes next. -/
theorem skip (h : TwoWay program names before cond yes done onFalse onTrue)
    (test : platform.test store cond world = (.ok false, after)) :
    Steps platform program ⟨before.length, store, world⟩
      ⟨(before ++ headFalse cond yes).length, store, after⟩ := by
  rw [List.length_append]
  exact .single (step_branch_false h.placed.head test)

/-- If the condition holds, the code for the true case comes next. -/
theorem take (h : TwoWay program names before cond yes done onFalse onTrue)
    (test : platform.test store cond world = (.ok true, after)) :
    Steps platform program ⟨before.length, store, world⟩
      ⟨(before ++ headTrue cond yes done onFalse).length, store,
        after⟩ := by
  have mark : program[before.length + (onFalse.length + 2)]? = some (.label yes) := by
    simpa using h.placedTrue.instrAt
  have there : (before ++ headTrue cond yes done onFalse).length =
      before.length + (onFalse.length + 2) + 1 := by
    simp only [headTrue, List.length_append, List.length_cons, List.length_nil]
    omega
  rw [there]
  exact .head (step_branch_true h.placed.head test h.placeOf?_yes) (.single (step_label mark))

/-- After the code for the false case the code for the true one is left out. -/
theorem leaveFalse (h : TwoWay program names before cond yes done onFalse onTrue) :
    Steps platform program ⟨(before ++ headFalse cond yes ++ onFalse).length, store, world⟩
      ⟨(before ++ twoWay cond yes done onFalse onTrue).length, store, world⟩ := by
  have placed : Placed program names before ((Instr.branch cond yes :: onFalse)
      ++ .goto done :: (.label yes :: onTrue ++ [.label done])) := by
    simpa [twoWay] using h.placed
  have jump := placed.instrAt
  have here : (before ++ headFalse cond yes ++ onFalse).length =
      before.length + (Instr.branch cond yes :: onFalse).length := by
    simp only [headFalse, List.length_append, List.length_cons, List.length_nil]
    omega
  rw [here, List.length_append, length_twoWay]
  exact .head (step_goto jump h.placeOf?_done) (.single (step_label h.instrAt_done))

/-- After the code for the true case nothing is left but a label. -/
theorem leaveTrue (h : TwoWay program names before cond yes done onFalse onTrue) :
    Steps platform program
      ⟨(before ++ headTrue cond yes done onFalse ++ onTrue).length,
        store, world⟩
      ⟨(before ++ twoWay cond yes done onFalse onTrue).length, store, world⟩ := by
  have here : (before ++ headTrue cond yes done onFalse ++ onTrue).length =
      before.length + (onFalse.length + onTrue.length + 3) := by
    simp only [headTrue, List.length_append, List.length_cons, List.length_nil]
    omega
  rw [here, List.length_append, length_twoWay]
  exact .single (step_label h.instrAt_done)

/-- Where the code for the false case stands. -/
theorem inFalse (h : TwoWay program names before cond yes done onFalse onTrue)
    {names' : Names} (le : names ≤ names') :
    Placed program names' (before ++ headFalse cond yes) onFalse := by
  have placed : Placed program names before
      (headFalse cond yes ++
        (onFalse ++ (.goto done :: .label yes :: onTrue ++ [.label done]))) := by
    simpa [twoWay, headFalse] using h.placed
  exact (placed.right le (by simp [headFalse, Instr.mark?])).left

/-- Where the code for the true case stands. -/
theorem inTrue (h : TwoWay program names before cond yes done onFalse onTrue)
    {names' : Names} (le : names ≤ names') (belowYes : yes.Below names')
    (below : ∀ mark ∈ marks onFalse, mark.Below names') :
    Placed program names' (before ++ headTrue cond yes done onFalse) onTrue := by
  have placed : Placed program names before
      (headTrue cond yes done onFalse ++ (onTrue ++ [.label done])) := by
    simpa [twoWay, headTrue] using h.placed
  refine (placed.right le ?_).left
  intro mark hmem
  have cases : mark ∈ marks onFalse ∨ mark = yes := by
    simpa [headTrue, Instr.mark?] using hmem
  rcases cases with hmem | rfl
  · exact below mark hmem
  · exact belowYes

end TwoWay

/-! ## Loops -/

/-- The code in front of the body of a loop. -/
def loopHead (cond : Rhs) (start done : Label) : List Instr :=
  [.branch cond start, .goto done, .label start]

/-- Code that tests a condition to enter a body, and tests it again behind the
body to go back to its start. -/
def loopCode (cond : Rhs) (start done : Label) (body again : List Instr) (cond' : Rhs) :
    List Instr :=
  loopHead cond start done ++ (body ++ (again ++ [.branch cond' start, .label done]))

/-- A loop in a program, under labels that nothing else marks. -/
structure Loop (program : List Instr) (names : Names) (before : List Instr) (cond : Rhs)
    (start done : Label) (body again : List Instr) (cond' : Rhs) : Prop where
  placed : Placed program names before (loopCode cond start done body again cond')
  freshStart : ¬ start.Below names
  freshDone : ¬ done.Below names
  distinct : done ≠ start
  doneBody : done ∉ marks body
  doneAgain : done ∉ marks again

namespace Loop

variable {program before body again : List Instr} {names names' : Names} {cond cond' : Rhs}
  {start done : Label} {store : Store} {world after : World Callee Field}

theorem length_loopHead (cond : Rhs) (start done : Label) :
    (loopHead cond start done).length = 3 := rfl

theorem placedStart (h : Loop program names before cond start done body again cond') :
    Placed program names before ([.branch cond start, .goto done] ++
      .label start :: (body ++ (again ++ [.branch cond' start, .label done]))) := h.placed

theorem placeOf?_start (h : Loop program names before cond start done body again cond') :
    placeOf? program start = some (before.length + 2) :=
  h.placedStart.placeOf? _ h.freshStart (by simp [Instr.mark?])

theorem placedDone (h : Loop program names before cond start done body again cond') :
    Placed program names before ((loopHead cond start done ++ body ++ again ++
      [.branch cond' start]) ++ .label done :: []) := by
  simpa [loopCode] using h.placed

theorem placeOf?_done (h : Loop program names before cond start done body again cond') :
    placeOf? program done = some (before.length + (body.length + again.length + 4)) := by
  have found := h.placedDone.placeOf? _ h.freshDone
    (by simpa [loopHead, Instr.mark?, h.distinct] using ⟨h.doneBody, h.doneAgain⟩)
  rw [found]
  simp only [List.length_append, length_loopHead, List.length_cons, List.length_nil]
  congr 1
  omega

/-- From the label behind the loop to the end of the code. -/
theorem leave (h : Loop program names before cond start done body again cond') :
    Steps platform program ⟨before.length + (body.length + again.length + 4), store, world⟩
      ⟨(before ++ loopCode cond start done body again cond').length, store, world⟩ := by
  have mark := h.placedDone.instrAt
  have here : before.length + (loopHead cond start done ++ body ++ again ++
      [Instr.branch cond' start]).length = before.length + (body.length + again.length + 4) := by
    simp only [List.length_append, length_loopHead, List.length_cons, List.length_nil]
    omega
  have there : (before ++ loopCode cond start done body again cond').length =
      before.length + (body.length + again.length + 4) + 1 := by
    simp only [loopCode, List.length_append, length_loopHead, List.length_cons, List.length_nil]
    omega
  rw [here] at mark
  rw [there]
  exact .single (step_label mark)

/-- If the condition holds at the entry, the body comes next. -/
theorem enter (h : Loop program names before cond start done body again cond')
    (test : platform.test store cond world = (.ok true, after)) :
    Steps platform program ⟨before.length, store, world⟩
      ⟨(before ++ loopHead cond start done).length, store, after⟩ := by
  rw [List.length_append]
  exact .head (step_branch_true h.placed.head test h.placeOf?_start)
    (.single (step_label h.placedStart.instrAt))

/-- If the condition fails at the entry, the body is left out. -/
theorem skip (h : Loop program names before cond start done body again cond')
    (test : platform.test store cond world = (.ok false, after)) :
    Steps platform program ⟨before.length, store, world⟩
      ⟨(before ++ loopCode cond start done body again cond').length, store, after⟩ := by
  have placed : Placed program names before ([.branch cond start] ++
      .goto done :: (.label start :: (body ++ (again ++ [.branch cond' start, .label done])))) :=
    h.placed
  exact .head (step_branch_false h.placed.head test)
    (.head (step_goto placed.instrAt h.placeOf?_done) h.leave)

/-- Where the branch behind the body stands. -/
theorem instrAt_again (h : Loop program names before cond start done body again cond') :
    program[(before ++ loopHead cond start done ++ body ++ again).length]? =
      some (.branch cond' start) := by
  have placed : Placed program names before ((loopHead cond start done ++ body ++ again) ++
      .branch cond' start :: [.label done]) := by
    simpa [loopCode] using h.placed
  have found := placed.instrAt
  rwa [← List.length_append, ← List.append_assoc, ← List.append_assoc] at found

/-- If the condition holds behind the body, the body comes again. -/
theorem back (h : Loop program names before cond start done body again cond')
    (test : platform.test store cond' world = (.ok true, after)) :
    Steps platform program
      ⟨(before ++ loopHead cond start done ++ body ++ again).length, store, world⟩
      ⟨(before ++ loopHead cond start done).length, store, after⟩ := by
  refine .head (step_branch_true h.instrAt_again test h.placeOf?_start) ?_
  have there : (before ++ loopHead cond start done).length = before.length + 2 + 1 := by
    rw [List.length_append, length_loopHead]
  rw [there]
  exact .single (step_label h.placedStart.instrAt)

/-- If the condition fails behind the body, the loop is left. -/
theorem exit (h : Loop program names before cond start done body again cond')
    (test : platform.test store cond' world = (.ok false, after)) :
    Steps platform program
      ⟨(before ++ loopHead cond start done ++ body ++ again).length, store, world⟩
      ⟨(before ++ loopCode cond start done body again cond').length, store, after⟩ := by
  have there : (before ++ loopHead cond start done ++ body ++ again).length + 1 =
      before.length + (body.length + again.length + 4) := by
    simp only [List.length_append, length_loopHead]
    omega
  refine .head (step_branch_false h.instrAt_again test) ?_
  rw [there]
  exact h.leave

/-- Where the body stands. -/
theorem inBody (h : Loop program names before cond start done body again cond')
    (le : names ≤ names') (below : start.Below names') :
    Placed program names' (before ++ loopHead cond start done) body :=
  (h.placed.right le (by simpa [loopHead, Instr.mark?] using below)).left

/-- Where the code of the second test stands. -/
theorem inAgain (h : Loop program names before cond start done body again cond')
    (le : names ≤ names') (below : start.Below names')
    (belowBody : ∀ mark ∈ marks body, mark.Below names') :
    Placed program names' (before ++ loopHead cond start done ++ body) again := by
  have placed := h.placed.right le (by simpa [loopHead, Instr.mark?] using below)
  exact (placed.right (Names.le_refl _) belowBody).left

end Loop

/-! ## Lowering an effect -/

/-- Running the code of a generator and then reading its value does what the
effect does, and changes only the variables handed out. -/
structure Lowers (platform : Platform Callee Field) (read : α → Store → Exec Callee Field β)
    (names : Names) (store : Store) (gen : Gen α) (effect : Exec Callee Field β) : Prop where
  steady : Steady read (gen names).value (gen names).names
  runs : ∀ program before world, Placed program names before (gen names).code →
    Runs platform program ⟨before.length, store, world⟩
      (fun last => last.pc = (before ++ (gen names).code).length ∧
        Frame names (gen names).names store last.store ∧
        read (gen names).value last.store last.world = effect world)
      (fun store' fault after => Frame names (gen names).names store store' ∧
        effect world = (.error fault, after))

namespace Lowers

variable {names : Names} {store : Store} {read : α → Store → Exec Callee Field β}

theorem pure {value : α} {effect : Exec Callee Field β} (steady : Steady read value names)
    (same : ∀ world, read value store world = effect world) :
    Lowers platform read names store (Pure.pure value) effect :=
  ⟨steady, fun _ _ world _ =>
    Runs.done ⟨by simp, Frame.refl _ _ _, same world⟩⟩

/-- First the code of one generator, then that of the next one.  The second one
carries on with what is left to read of the first. -/
theorem bind {read' : γ → Store → Exec Callee Field δ} {gen : Gen α} {next : α → Gen γ}
    {effect : Exec Callee Field β} {cont : β → Exec Callee Field δ} (tidy : Tidy gen)
    (tidyNext : Tidy (next (gen names).value))
    (h : Lowers platform read names store gen effect)
    (h' : ∀ store', Frame names (gen names).names store store' →
      Lowers platform read' (gen names).names store' (next (gen names).value)
        (read (gen names).value store' >>= cont)) :
    Lowers platform read' names store (gen >>= next) (effect >>= cont) := by
  have le := (tidy names).1
  have le' := (tidyNext (gen names).names).1
  refine ⟨(h' store (Frame.refl _ _ _)).steady, fun program before world placed => ?_⟩
  rw [Gen.code_bind] at placed ⊢
  refine Runs.bind (h.runs program before world placed.left) ?_ ?_
  · rintro ⟨pc, between, after⟩ ⟨here, frame, result⟩
    subst here
    have placed' := placed.right le fun mark hmem => ((tidy names).2 mark hmem).2
    refine Runs.bind ((h' between frame).runs program _ after placed') ?_ ?_
    · rintro last ⟨there, frame', result'⟩
      refine Runs.done ⟨?_, frame.trans frame' le le', ?_⟩
      · rw [there, List.append_assoc]
      · exact result'.trans (Exec.bind_congr result cont)
    · rintro store' fault last ⟨frame', result'⟩
      exact ⟨frame.trans frame' le le', (Exec.bind_congr result cont).symm.trans result'⟩
  · rintro store' fault last ⟨frame, result⟩
    exact ⟨frame.mono (Names.le_refl _) le', Exec.bind_of_error result cont⟩

/-- Handing back a value in another form. -/
theorem map {read' : γ → Store → Exec Callee Field β} {gen : Gen α} {f : α → γ}
    {effect : Exec Callee Field β} (h : Lowers platform read names store gen effect)
    (same : ∀ store, read' (f (gen names).value) store = read (gen names).value store) :
    Lowers platform read' names store (f <$> gen) effect := by
  refine ⟨?_, fun program before world placed => ?_⟩
  · rw [Gen.map_apply]
    intro after store store' frame
    rw [same, same, h.steady frame]
  · rw [Gen.map_apply] at placed ⊢
    refine Runs.bind (h.runs program before world placed) ?_ (fun _ _ _ => id)
    rintro last ⟨here, frame, result⟩
    exact Runs.done ⟨here, frame, by rw [same, result]⟩

/-- If the effect succeeds, the code runs to its end, and what is left to read
succeeds with the same result. -/
theorem reaches {gen : Gen α} {effect : Exec Callee Field β} {program before : List Instr}
    {world after : World Callee Field} {value : β}
    (h : Lowers platform read names store gen effect)
    (placed : Placed program names before (gen names).code)
    (ok : effect world = (.ok value, after)) :
    ∃ store' world', Steps platform program ⟨before.length, store, world⟩
        ⟨(before ++ (gen names).code).length, store', world'⟩ ∧
      Frame names (gen names).names store store' ∧
      read (gen names).value store' world' = (.ok value, after) := by
  obtain ⟨⟨pc, store', world'⟩, steps, ⟨here, frame, same⟩ | ⟨fault, last, _, _, failed⟩⟩ :=
    h.runs program before world placed
  · subst here
    exact ⟨store', world', steps, frame, same.trans ok⟩
  · rw [ok] at failed
    cases failed

/-- Notes leave no trace in the code. -/
theorem note {gen : Gen α} {effect : Exec Callee Field β} (entry : Note)
    (h : Lowers platform read names store gen effect) :
    Lowers platform read names store (do Gen.note entry; gen) effect :=
  ⟨h.steady, h.runs⟩

end Lowers

/-! ## Variables that are assigned right after they are drawn -/

/-- A generator that only takes a variable from the supply. -/
structure Draws (names : Names) (draw : Gen Operand) : Prop where
  code : (draw names).code = []
  le : names ≤ (draw names).names
  generated : Names.Generated names (draw names).names (draw names).value.name
  taken : ∀ after, ¬ Names.Generated (draw names).names after (draw names).value.name

theorem draws_temp (names : Names) (ty : Ty) : Draws names (Gen.temp ty) where
  code := rfl
  le := names.le_advanceTemp
  generated := Names.generated_nextTemp (Names.le_refl _)
  taken _ := Names.not_generated_tempName (Nat.lt_succ_self _)

theorem draws_holder (names : Names) (ty : Ty) : Draws names (Gen.holder ty) where
  code := rfl
  le := names.le_advance .pack
  generated := Names.generated_nextPack (Names.le_refl _)
  taken _ := Names.not_generated_packName (Nat.lt_succ_self _)

variable {names : Names} {store : Store}

/-- A new variable that is set to an expression holds its value. -/
theorem lowers_setNew {draw : Gen Operand} (draws : Draws names draw) (rhs : Rhs)
    {read : α → Store → Exec Callee Field Value} {f : Operand → α}
    (same : ∀ op store, read (f op) store = pure (store op.name)) :
    Lowers platform read names store
      (do let result ← draw
          Gen.emit (.set result rhs)
          return f result) (platform.rhs store rhs) := by
  have code : ((do
      let result ← draw
      Gen.emit (.set result rhs)
      return f result : Gen α) names).code = [.set (draw names).value rhs] := by
    simp [draws.code, Gen.emit]
  refine ⟨?_, fun program before world placed => ?_⟩
  · intro after store store' frame
    exact (same _ _).trans ((congrArg _ (frame _ (draws.taken after))).trans (same _ _).symm)
  · rw [code] at placed ⊢
    rcases result : platform.rhs store rhs world with ⟨fault | value, after⟩
    · have failed : platform.perform store (.set (draw names).value rhs) world =
          (.error fault, after) := Exec.bind_of_error result _
      exact Runs.fault (step_of_error rfl placed.head failed) ⟨Frame.refl _ _ _, rfl⟩
    · have performed : platform.perform store (.set (draw names).value rhs) world =
          (.ok (Function.update store (draw names).value.name value), after) :=
        Exec.bind_of_ok result _
      refine Runs.step (step_of_ok rfl placed.head performed) (Runs.done ⟨?_, ?_, ?_⟩)
      · simp
      · exact (Frame.refl _ _ _).update draws.generated value
      · refine (congrFun (same _ _) after).trans ?_
        simp

theorem lowers_store (rhs : Rhs) (ty : Ty) :
    Lowers platform (readElement platform) names store (Gen.store rhs ty)
      (platform.rhs store rhs) :=
  lowers_setNew (draws_temp names ty) rhs fun _ _ => rfl

/-! ## Bringing expressions down to variables and literals -/

theorem Lowers.settleAs {gen : Gen Rhs} {effect : Exec Callee Field Value} (ty : Rhs → Ty)
    (tidy : Tidy gen) (h : Lowers platform (readRhs platform) names store gen effect) :
    Lowers platform (readElement platform) names store
      (gen >>= fun rhs => Gen.settleAs (ty rhs) rhs) effect := by
  rw [← bind_pure effect]
  refine h.bind tidy (tidy_settleAs _ _) fun store' _ => ?_
  rw [bind_pure]
  have steady := h.steady
  cases rhs : (gen names).value with
  | element elem =>
      rw [rhs] at steady
      exact Lowers.pure (fun _ _ _ frame => steady frame) fun _ => rfl
  | _ => exact lowers_store _ _

theorem Lowers.settle {gen : Gen Rhs} {effect : Exec Callee Field Value} (tidy : Tidy gen)
    (h : Lowers platform (readRhs platform) names store gen effect) :
    Lowers platform (readElement platform) names store (gen >>= Gen.settle) effect :=
  h.settleAs Rhs.ty tidy

theorem Lowers.toVariable {gen : Gen Element} {effect : Exec Callee Field Value}
    (tidy : Tidy gen) (h : Lowers platform (readElement platform) names store gen effect) :
    Lowers platform readVariable names store (gen >>= Gen.toVariable) effect := by
  rw [← bind_pure effect]
  refine h.bind tidy (tidy_toVariable _) fun store' _ => ?_
  rw [bind_pure]
  have steady := h.steady
  cases elem : (gen names).value with
  | operand op =>
      rw [elem] at steady
      exact Lowers.pure (fun _ _ _ frame => steady frame) fun _ => rfl
  | literal lit =>
      exact lowers_setNew (f := id) (draws_temp _ lit.ty) (.element (.literal lit)) fun _ _ => rfl

/-! ## Instructions that only act on the world -/

/-- An instruction that leaves all variables alone lowers what it does. -/
theorem lowers_emit {instr : Instr} {effect : Exec Callee Field Unit}
    (straight : isStraight instr = true)
    (same : platform.perform store instr = (do effect; return store)) :
    Lowers platform readUnit names store (Gen.emit instr) effect := by
  refine ⟨fun _ _ _ _ => rfl, fun program before world placed => ?_⟩
  have performed := congrFun same world
  rcases result : effect world with ⟨fault | value, after⟩
  · rw [Exec.bind_of_error result] at performed
    exact Runs.fault (step_of_error straight placed.head performed) ⟨Frame.refl _ _ _, rfl⟩
  · rw [Exec.bind_of_ok result] at performed
    refine Runs.step (step_of_ok straight placed.head performed) (Runs.done ⟨?_, ?_, rfl⟩)
    · simp [Gen.emit]
    · exact Frame.refl _ _ _

/-- An instruction that leaves all variables alone, and then more code.  Its
result, if it has one, is not used. -/
theorem Lowers.emitThen {read : α → Store → Exec Callee Field β} {instr : Instr}
    {effect : Exec Callee Field δ} {next : Gen α} {rest : Exec Callee Field β}
    (h : Lowers platform read names store next rest) (tidy : Tidy next)
    (straight : isStraight instr = true) (unmarked : instr.mark? = none)
    (same : platform.perform store instr = (do let _ ← effect; return store)) :
    Lowers platform read names store (do Gen.emit instr; next)
      (do let _ ← effect; rest) := by
  have discard : (do let _ ← effect; rest) =
      (effect >>= fun _ => Pure.pure ()) >>= fun _ => rest := by
    simp
  rw [discard]
  refine (lowers_emit straight ?_).bind (fun _ => .emit unmarked) tidy fun store' frame => ?_
  · simpa using same
  · rw [frame.eq_of_self]
    exact h

end

end MiniJava.Lowering
