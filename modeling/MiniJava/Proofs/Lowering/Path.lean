import Mathlib.Data.Set.Basic
import MiniJava.Proofs.Lowering.Supply
import MiniJava.Proofs.Lowering.Simulation

/-!
# Paths through lowered code

The control-flow graph of a method body leads from an instruction to those that
may come next: a branch goes either way, whatever its condition (`successors`).
Every run goes along a path through it.

A position is *safe* with some variables assigned if on paths from it a reserved
variable that an instruction reads is among them, or is assigned on the way
(`Safe`).  Safety counts steps.  A path may go around a loop any number of
times, and each time the branch behind the body spends a step, so the start of
the body may be taken to be safe for fewer steps than are asked for
(`Loop.safe_again`).
-/

namespace MiniJava

open Tac Semantics Lowering

/-! ## Paths through code -/

namespace Tac

/-- The variables that an instruction reads.  One that is assigned to is not
read. -/
def Instr.reads : Instr → List Operand
  | .assign (.var _) _ rhs => rhs.operands
  | instr => instr.operands

/-- The variable that an instruction assigns. -/
def Instr.written? : Instr → Option String
  | .assign (.var op) _ _ => some op.name
  | _ => none

end Tac

/-- The instructions that may come after the one at a position. -/
def successors (program : List Instr) (pc : Nat) : Instr → List Nat
  | .goto target => (placeOf? program target).toList
  | .branch _ target => (pc + 1) :: (placeOf? program target).toList
  | .ret _ _ => []
  | _ => [pc + 1]

/-- A path from the first instruction to a position, with the instructions that
it passes in order. -/
inductive Path (program : List Instr) : List Instr → Nat → Prop where
  | start : Path program [] 0
  | step : Path program passed pc → program[pc]? = some instr →
      next ∈ successors program pc instr → Path program (passed ++ [instr]) next

/-- Every step of a run goes along the graph. -/
theorem mem_successors_of_step {Callee Field : Type} [DecidableEq Field]
    {platform : Platform Callee Field} {program : List Instr}
    {config config' : Config Callee Field}
    (next : step platform program config = .next config') :
    ∃ instr, program[config.pc]? = some instr ∧
      config'.pc ∈ successors program config.pc instr := by
  rw [step] at next
  split at next
  · cases next
  · refine ⟨_, ‹_›, ?_⟩
    rw [jump] at next
    split at next
    · cases next
      simp [successors, *]
    · cases next
  · refine ⟨_, ‹_›, ?_⟩
    split at next
    · rw [jump] at next
      split at next
      · cases next
        simp [successors, *]
      · cases next
    · cases next
      simp [successors]
    · cases next
  · cases next
  · rename_i instr _ _ _ here
    refine ⟨instr, here, ?_⟩
    split at next
    · cases next
      cases instr <;> simp_all [successors]
    · cases next

/-- Every run goes along a path. -/
theorem path_of_steps {Callee Field : Type} [DecidableEq Field]
    {platform : Platform Callee Field} {program : List Instr} {start last : Config Callee Field}
    (steps : Steps platform program start last) (first : start.pc = 0) :
    ∃ passed, Path program passed last.pc := by
  induction steps with
  | refl => exact ⟨[], first ▸ .start⟩
  | tail _ next induction =>
      obtain ⟨passed, path⟩ := induction
      obtain ⟨instr, here, mem⟩ := mem_successors_of_step next
      exact ⟨passed ++ [instr], path.step here mem⟩

/-! ## Safe positions -/

/-- A variable that lowering invented is among those that are assigned. -/
def Assigned (known : Set String) (op : Operand) : Prop :=
  Names.Reserved op.name → op.name ∈ known

/-- The variable that an instruction assigns, as a set. -/
def assignedBy (instr : Instr) : Set String := {name | instr.written? = some name}

/-- On paths of so many steps from a position where some variables are assigned,
invented variables are assigned before they are read. -/
def Safe (program : List Instr) : Nat → Nat → Set String → Prop
  | 0, _, _ => True
  | steps + 1, pc, known => ∀ instr, program[pc]? = some instr →
      (∀ op ∈ instr.reads, Assigned known op) ∧
      ∀ next ∈ successors program pc instr, Safe program steps next (known ∪ assignedBy instr)

theorem Assigned.mono {known more : Set String} {op : Operand} (h : Assigned known op)
    (subset : known ⊆ more) : Assigned more op := fun reserved => subset (h reserved)

namespace Safe

variable {program : List Instr} {steps pc place : Nat} {known more : Set String} {instr : Instr}

theorem mono (h : Safe program steps pc known) (subset : known ⊆ more) :
    Safe program steps pc more := by
  induction steps generalizing pc known more with
  | zero => trivial
  | succ steps induction =>
      intro instr here
      obtain ⟨reads, next⟩ := h instr here
      refine ⟨fun op mem => (reads op mem).mono subset, fun place mem => ?_⟩
      exact induction (next place mem) (Set.union_subset_union_left _ subset)

theorem pred (h : Safe program (steps + 1) pc known) : Safe program steps pc known := by
  induction steps generalizing pc known with
  | zero => trivial
  | succ steps induction =>
      intro instr here
      obtain ⟨reads, next⟩ := h instr here
      exact ⟨reads, fun place mem => induction (next place mem)⟩

/-- A path keeps what is safe. -/
theorem path {passed : List Instr} (start : ∀ steps, Safe program steps 0 ∅)
    (path : Path program passed pc) (steps : Nat) :
    Safe program steps pc {name | ∃ instr ∈ passed, instr.written? = some name} := by
  induction path generalizing steps with
  | start => exact (start steps).mono (Set.empty_subset _)
  | @step passed pc instr next _ here mem induction =>
      refine ((induction (steps + 1) instr here).2 next mem).mono ?_
      rintro name (⟨earlier, inside, written⟩ | written)
      · exact ⟨earlier, List.mem_append_left _ inside, written⟩
      · exact ⟨instr, List.mem_append_right _ List.mem_cons_self, written⟩

/-! ### Single instructions -/

/-- An instruction is safe if its successors are, for one step less. -/
theorem later (here : program[pc]? = some instr) (reads : ∀ op ∈ instr.reads, Assigned known op)
    (next : ∀ place ∈ successors program pc instr,
      Safe program steps place (known ∪ assignedBy instr)) :
    Safe program (steps + 1) pc known := by
  intro other found
  obtain rfl : instr = other := Option.some.inj (here.symm.trans found)
  exact ⟨reads, next⟩

theorem of_successors (here : program[pc]? = some instr)
    (reads : ∀ op ∈ instr.reads, Assigned known op)
    (next : ∀ place ∈ successors program pc instr,
      Safe program steps place (known ∪ assignedBy instr)) :
    Safe program steps pc known := by
  cases steps with
  | zero => trivial
  | succ steps => exact later here reads fun place mem => (next place mem).pred

theorem straight (here : program[pc]? = some instr) (straight : isStraight instr = true)
    (reads : ∀ op ∈ instr.reads, Assigned known op)
    (next : Safe program steps (pc + 1) (known ∪ assignedBy instr)) :
    Safe program steps pc known := by
  refine of_successors here reads fun place mem => ?_
  have same : place = pc + 1 := by
    cases instr <;> simp_all [successors, isStraight]
  exact same ▸ next

theorem label {mark : Label} (here : program[pc]? = some (.label mark))
    (next : Safe program steps (pc + 1) known) : Safe program steps pc known :=
  straight here rfl nofun (next.mono Set.subset_union_left)

theorem goto {target : Label} (here : program[pc]? = some (.goto target))
    (found : placeOf? program target = some place) (next : Safe program steps place known) :
    Safe program steps pc known := by
  refine of_successors here (List.forall_mem_nil _) fun other mem => ?_
  obtain rfl : other = place := by simpa [successors, found] using mem
  exact next.mono Set.subset_union_left

/-- A branch spends a step, whichever way it goes. -/
theorem branch {cond : Rhs} {target : Label} (here : program[pc]? = some (.branch cond target))
    (found : placeOf? program target = some place)
    (reads : ∀ op ∈ cond.operands, Assigned known op)
    (skip : Safe program steps (pc + 1) known) (take : Safe program steps place known) :
    Safe program (steps + 1) pc known := by
  refine later here reads fun other mem => ?_
  have either : other = pc + 1 ∨ other = place := by simpa [successors, found] using mem
  rcases either with rfl | rfl
  · exact skip.mono Set.subset_union_left
  · exact take.mono Set.subset_union_left

end Safe

namespace Lowering

/-! ## Branches and loops -/

section
variable {program before : List Instr} {names : Names} {steps : Nat} {known : Set String}

namespace TwoWay

variable {onFalse onTrue : List Instr} {cond : Rhs} {yes done : Label}

theorem safe_entry (h : TwoWay program names before cond yes done onFalse onTrue)
    (reads : ∀ op ∈ cond.operands, Assigned known op)
    (skip : Safe program steps (before ++ headFalse cond yes).length known)
    (take : Safe program steps (before ++ headTrue cond yes done onFalse).length known) :
    Safe program steps before.length known := by
  have mark : program[before.length + (onFalse.length + 2)]? = some (.label yes) := by
    simpa using h.placedTrue.instrAt
  have there : (before ++ headTrue cond yes done onFalse).length =
      before.length + (onFalse.length + 2) + 1 := by
    simp only [headTrue, List.length_append, List.length_cons, List.length_nil]
    omega
  rw [there] at take
  rw [List.length_append] at skip
  exact (Safe.branch h.placed.head h.placeOf?_yes reads skip (.label mark take)).pred

theorem safe_leaveFalse (h : TwoWay program names before cond yes done onFalse onTrue)
    (next : Safe program steps (before ++ twoWay cond yes done onFalse onTrue).length known) :
    Safe program steps (before ++ headFalse cond yes ++ onFalse).length known := by
  have placed : Placed program names before ((Instr.branch cond yes :: onFalse)
      ++ .goto done :: (.label yes :: onTrue ++ [.label done])) := by
    simpa [twoWay] using h.placed
  have jump := placed.instrAt
  have here : (before ++ headFalse cond yes ++ onFalse).length =
      before.length + (Instr.branch cond yes :: onFalse).length := by
    simp only [headFalse, List.length_append, List.length_cons, List.length_nil]
    omega
  rw [List.length_append, length_twoWay] at next
  rw [here]
  exact .goto jump h.placeOf?_done (.label h.instrAt_done next)

theorem safe_leaveTrue (h : TwoWay program names before cond yes done onFalse onTrue)
    (next : Safe program steps (before ++ twoWay cond yes done onFalse onTrue).length known) :
    Safe program steps (before ++ headTrue cond yes done onFalse ++ onTrue).length known := by
  have here : (before ++ headTrue cond yes done onFalse ++ onTrue).length =
      before.length + (onFalse.length + onTrue.length + 3) := by
    simp only [headTrue, List.length_append, List.length_cons, List.length_nil]
    omega
  rw [List.length_append, length_twoWay] at next
  rw [here]
  exact .label h.instrAt_done next

end TwoWay

namespace Loop

variable {body again : List Instr} {cond cond' : Rhs} {start done : Label}

theorem safe_leave (h : Loop program names before cond start done body again cond')
    (next : Safe program steps
      (before ++ loopCode cond start done body again cond').length known) :
    Safe program steps (before.length + (body.length + again.length + 4)) known := by
  have mark := h.placedDone.instrAt
  have here : before.length + (loopHead cond start done ++ body ++ again ++
      [Instr.branch cond' start]).length = before.length + (body.length + again.length + 4) := by
    simp only [List.length_append, length_loopHead, List.length_cons, List.length_nil]
    omega
  have there : (before ++ loopCode cond start done body again cond').length =
      before.length + (body.length + again.length + 4) + 1 := by
    simp only [loopCode, List.length_append, length_loopHead, List.length_cons, List.length_nil]
    omega
  rw [here] at mark
  rw [there] at next
  exact .label mark next

theorem safe_entry (h : Loop program names before cond start done body again cond')
    (reads : ∀ op ∈ cond.operands, Assigned known op)
    (skip : Safe program steps
      (before ++ loopCode cond start done body again cond').length known)
    (enter : Safe program steps (before ++ loopHead cond start done).length known) :
    Safe program steps before.length known := by
  have placed : Placed program names before ([.branch cond start] ++
      .goto done :: (.label start :: (body ++ (again ++ [.branch cond' start, .label done])))) :=
    h.placed
  have leave := Safe.goto placed.instrAt h.placeOf?_done (h.safe_leave skip)
  rw [List.length_append] at enter
  exact (Safe.branch h.placed.head h.placeOf?_start reads leave
    (.label h.placedStart.instrAt enter)).pred

/-- The start of the body has to be safe for fewer steps only. -/
theorem safe_again (h : Loop program names before cond start done body again cond')
    (reads : ∀ op ∈ cond'.operands, Assigned known op)
    (exit : Safe program steps
      (before ++ loopCode cond start done body again cond').length known)
    (back : Safe program steps (before ++ loopHead cond start done).length known) :
    Safe program (steps + 1)
      (before ++ loopHead cond start done ++ body ++ again).length known := by
  have there : (before ++ loopHead cond start done ++ body ++ again).length + 1 =
      before.length + (body.length + again.length + 4) := by
    simp only [List.length_append, length_loopHead]
    omega
  refine .branch h.instrAt_again h.placeOf?_start reads ?_ ?_
  · rw [there]
    exact h.safe_leave exit
  · rw [List.length_append] at back
    exact .label h.placedStart.instrAt back

end Loop

end

end Lowering

end MiniJava
