import Mathlib.Data.List.Nodup
import Mathlib.Data.Nat.Basic
import Mathlib.Order.Basic
import MiniJava.Proofs.Lowering.Survey

/-!
# The outline of lowered code

What code does with control is its *outline*: its jumps and labels in order,
without the conditions and without the instructions in between.

Labels come in pairs.  A conjunction or a comparison marks `true_n` and
`end_n`, a loop `whilebody_n` and `endwhile_n`, a conditional `if_n` and
`endif_n`.  An outline is a function of the next number of every kind of pair.
It is put together by `andThen`, `fork` and `cycle`, and only the last two take
a number: one, for both labels of the pair.

Two things are proved apart.  Whatever these operations build is sound
(`Outline.Sound`): the numbers of its labels lie between the numbers before and
after it, no label is marked twice, and every jump goes to a label that is
marked.  And outlines are a reading of code (`Outline.reading`), so the code of
an expression or a statement has the outline that its syntax gives
(`outlineSurvey`).

The supply of names has a counter for each of the two labels of a conjunction
or a loop.  They are taken one after the other with nothing in between that
could fail or take another one, so they are in step (`Names.InStep`) whenever a
part of a program is lowered, also after an attempt that failed.
-/

namespace MiniJava

open Source (Expr Scope)
open Tac Lowering

/-! ## Events -/

/-- What an instruction does with control. -/
inductive Event where
  | branch (target : Label)
  | goto (target : Label)
  | mark (label : Label)
deriving DecidableEq, Repr

/-- The label that control may go to. -/
def Event.target? : Event → Option Label
  | branch target | goto target => some target
  | mark _ => none

/-- The label that is marked. -/
def Event.mark? : Event → Option Label
  | mark label => some label
  | branch _ | goto _ => none

namespace Tac.Instr

def event? : Instr → Option Event
  | .branch _ target => some (.branch target)
  | .goto target => some (.goto target)
  | .label mark => some (.mark mark)
  | _ => none

/-- The label that an instruction may jump to. -/
def target? : Instr → Option Label
  | .branch _ target | .goto target => some target
  | _ => none

end Tac.Instr

/-- The events of a list of instructions, in order. -/
def events (code : List Instr) : List Event := code.filterMap Instr.event?

/-- The labels that a list of instructions may jump to, in order. -/
def targets (code : List Instr) : List Label := code.filterMap Instr.target?

@[simp]
theorem events_nil : events [] = [] := rfl

@[simp]
theorem events_cons (instr : Instr) (rest : List Instr) :
    events (instr :: rest) = instr.event?.toList ++ events rest := by
  cases h : instr.event? <;> simp [events, h]

@[simp]
theorem events_append (first second : List Instr) :
    events (first ++ second) = events first ++ events second := by
  simp [events]

theorem marks_eq_filterMap_events (code : List Instr) :
    marks code = (events code).filterMap Event.mark? := by
  rw [marks, events, List.filterMap_filterMap]
  congr 1
  funext instr
  cases instr <;> rfl

theorem targets_eq_filterMap_events (code : List Instr) :
    targets code = (events code).filterMap Event.target? := by
  rw [targets, events, List.filterMap_filterMap]
  congr 1
  funext instr
  cases instr <;> rfl

/-! ## Pairs of labels -/

namespace Pair

/-- The label of the code that the first test leads to. -/
def start : Pair → Nat → Label
  | choice, id => .numbered .onTrue id
  | loop, id => .numbered .loopBody id
  | conditional, id => .numbered .thenBranch id

/-- The label behind the construct. -/
def finish : Pair → Nat → Label
  | choice, id => .numbered .join id
  | loop, id => .numbered .loopEnd id
  | conditional, id => .endIf id

/-- A label is one of the pair with the given number. -/
def Has (pair : Pair) (id : Nat) (label : Label) : Prop :=
  label = pair.start id ∨ label = pair.finish id

theorem start_ne_finish (pair : Pair) (id : Nat) : pair.start id ≠ pair.finish id := by
  cases pair <;> simp [start, finish]

/-- A label belongs to one pair only. -/
theorem Has.unique {pair pair' : Pair} {id id' : Nat} {label : Label}
    (h : pair.Has id label) (h' : pair'.Has id' label) : pair = pair' ∧ id = id' := by
  rcases h with rfl | rfl
  · cases pair <;> cases pair' <;> simp_all [Has, start, finish]
  · cases pair <;> cases pair' <;> simp_all [Has, start, finish]

end Pair

/-- The next number of every kind of pair. -/
abbrev Numbering : Type := Pair → Nat

namespace Numbering

/-- The numbers after one for the given kind of pair was taken. -/
def take (pair : Pair) (numbers : Numbering) : Numbering :=
  Function.update numbers pair (numbers pair + 1)

theorem le_take (pair : Pair) (numbers : Numbering) : numbers ≤ numbers.take pair := by
  intro other
  by_cases same : other = pair
  · subst same
    simp [take]
  · simp [take, same]

theorem lt_take_self (pair : Pair) (numbers : Numbering) :
    numbers pair < numbers.take pair pair := by
  simp [take]

/-- A label whose number was taken between two numberings. -/
def Between (before after : Numbering) (label : Label) : Prop :=
  ∃ pair id, pair.Has id label ∧ before pair ≤ id ∧ id < after pair

theorem Between.mono {before before' after after' : Numbering} {label : Label}
    (h : Between before after label) (earlier : before' ≤ before) (later : after ≤ after') :
    Between before' after' label := by
  obtain ⟨pair, id, has, ge, lt⟩ := h
  exact ⟨pair, id, has, le_trans (earlier pair) ge, lt_of_lt_of_le lt (later pair)⟩

/-- A number that was taken is not taken again. -/
theorem Between.not_between {before between after : Numbering} {label : Label}
    (h : Between before between label) : ¬ Between between after label := by
  rintro ⟨pair', id', has', ge', -⟩
  obtain ⟨pair, id, has, -, lt⟩ := h
  obtain ⟨rfl, rfl⟩ := has.unique has'
  exact Nat.not_lt_of_le ge' lt

/-- The labels of the pair that is taken next. -/
theorem between_take {pair : Pair} {numbers after : Numbering} {label : Label}
    (has : pair.Has (numbers pair) label) (later : numbers.take pair ≤ after) :
    Between numbers after label :=
  ⟨pair, numbers pair, has, le_refl _, lt_of_lt_of_le (numbers.lt_take_self pair) (later pair)⟩

end Numbering

/-! ## Outlines -/

/-- The events of a piece of code and the numbers after it, as a function of
the numbers before it. -/
def Outline : Type := Numbering → List Event × Numbering

namespace Outline

open MiniJava.Numbering

/-- Code without jumps and labels. -/
def skip : Outline := fun numbers => ([], numbers)

/-- One piece of code after another. -/
def andThen (first second : Outline) : Outline := fun numbers =>
  let before := first numbers
  let after := second before.2
  (before.1 ++ after.1, after.2)

/-- Two pieces of code of which one runs: a branch leads over the first one to
the second one. -/
def fork (pair : Pair) (onFalse onTrue : Outline) : Outline := fun numbers =>
  let id := numbers pair
  let first := onFalse (numbers.take pair)
  let second := onTrue first.2
  (.branch (pair.start id) :: first.1 ++ .goto (pair.finish id) :: .mark (pair.start id)
    :: second.1 ++ [.mark (pair.finish id)], second.2)

/-- A piece of code that runs again and again: a branch leads into it, and
another one at its end leads back. -/
def cycle (body : Outline) : Outline := fun numbers =>
  let id := numbers .loop
  let inner := body (numbers.take .loop)
  (.branch (Pair.loop.start id) :: .goto (Pair.loop.finish id) :: .mark (Pair.loop.start id)
    :: inner.1 ++ [.branch (Pair.loop.start id), .mark (Pair.loop.finish id)], inner.2)

theorem skip_andThen (outline : Outline) : skip.andThen outline = outline := rfl

theorem andThen_skip (outline : Outline) : outline.andThen skip = outline := by
  funext numbers
  simp [andThen, skip]

theorem andThen_assoc (first second third : Outline) :
    (first.andThen second).andThen third = first.andThen (second.andThen third) := by
  funext numbers
  simp [andThen]

/-- The outline of code as a reading of it.  Calls do not show. -/
def reading : Reading Outline where
  nothing := skip
  andThen := andThen
  call _ := skip
  fork := fork
  cycle := cycle
  nothing_andThen := skip_andThen
  andThen_nothing := andThen_skip
  andThen_assoc := andThen_assoc

theorem before_reading (scope : Scope) (position : Position) (value : Expr) :
    reading.before scope position value = reading.expr scope value := by
  cases position with
  | statement =>
      cases value with
      | call receiver method args ty => exact (andThen_skip _).symm
      | _ => rfl
  | _ => rfl

/-! ## Sound outlines -/

/-- The labels that events mark. -/
def marked (events : List Event) : List Label := events.filterMap Event.mark?

/-- The labels that events lead to. -/
def aimed (events : List Event) : List Label := events.filterMap Event.target?

@[simp]
theorem marked_append (first second : List Event) :
    marked (first ++ second) = marked first ++ marked second := by
  simp [marked]

@[simp]
theorem aimed_append (first second : List Event) :
    aimed (first ++ second) = aimed first ++ aimed second := by
  simp [aimed]

/-- Events whose labels are new, marked once, and the only ones they lead to. -/
structure SoundBetween (before : Numbering) (events : List Event) (after : Numbering) :
    Prop where
  le : before ≤ after
  between : ∀ label ∈ marked events, Between before after label
  unique : (marked events).Nodup
  closed : ∀ target ∈ aimed events, target ∈ marked events

/-- An outline is sound from every numbering. -/
def Sound (outline : Outline) : Prop :=
  ∀ numbers, SoundBetween numbers (outline numbers).1 (outline numbers).2

theorem SoundBetween.append {before between after : Numbering} {first second : List Event}
    (h : SoundBetween before first between) (h' : SoundBetween between second after) :
    SoundBetween before (first ++ second) after where
  le := le_trans h.le h'.le
  between := by
    rw [marked_append, List.forall_mem_append]
    exact ⟨fun label hmem => (h.between label hmem).mono (le_refl _) h'.le,
      fun label hmem => (h'.between label hmem).mono h.le (le_refl _)⟩
  unique := by
    rw [marked_append]
    refine List.Nodup.append h.unique h'.unique fun label hmem hmem' => ?_
    exact (h.between label hmem).not_between (h'.between label hmem')
  closed := by
    rw [aimed_append, marked_append, List.forall_mem_append]
    exact ⟨fun target hmem => List.mem_append_left _ (h.closed target hmem),
      fun target hmem => List.mem_append_right _ (h'.closed target hmem)⟩

theorem sound_skip : Sound skip := fun _ =>
  ⟨le_refl _, nofun, .nil, nofun⟩

theorem Sound.andThen {first second : Outline} (h : Sound first) (h' : Sound second) :
    Sound (first.andThen second) := fun numbers => (h numbers).append (h' _)

/-- Around sound events the labels of the next pair can be marked, once each. -/
theorem SoundBetween.bracket {pair : Pair} {numbers after : Numbering} {inner outer : List Event}
    (h : SoundBetween (numbers.take pair) inner after)
    (marks : (marked outer).Perm
      (pair.start (numbers pair) :: pair.finish (numbers pair) :: marked inner))
    (jumps : ∀ target ∈ aimed outer, pair.Has (numbers pair) target ∨ target ∈ aimed inner) :
    SoundBetween numbers outer after := by
  -- The labels of the pair have a number below those of the events inside.
  have apart : ∀ label, pair.Has (numbers pair) label → label ∉ marked inner :=
    fun label has hmem =>
      (between_take has (le_refl _)).not_between (h.between label hmem)
  have mem_iff : ∀ label, label ∈ marked outer ↔
      pair.Has (numbers pair) label ∨ label ∈ marked inner := by
    intro label
    rw [marks.mem_iff, List.mem_cons, List.mem_cons, ← or_assoc]
    rfl
  refine ⟨le_trans (numbers.le_take pair) h.le, fun label hmem => ?_, ?_, fun target hmem => ?_⟩
  · rcases (mem_iff label).mp hmem with has | inside
    · exact between_take has h.le
    · exact (h.between label inside).mono (numbers.le_take pair) (le_refl _)
  · rw [marks.nodup_iff, List.nodup_cons, List.nodup_cons, List.mem_cons, not_or]
    exact ⟨⟨pair.start_ne_finish _, apart _ (.inl rfl)⟩, apart _ (.inr rfl), h.unique⟩
  · rw [mem_iff]
    exact (jumps target hmem).imp_right (h.closed target)

theorem Sound.fork (pair : Pair) {onFalse onTrue : Outline} (h : Sound onFalse)
    (h' : Sound onTrue) : Sound (fork pair onFalse onTrue) := by
  intro numbers
  refine ((h (numbers.take pair)).append (h' _)).bracket ?_ ?_
  · simp only [Outline.fork, marked, List.filterMap_append, List.filterMap_cons, Event.mark?,
      List.filterMap_nil, List.cons_append]
    refine (List.perm_append_singleton _ _).trans (.trans (.cons _ List.perm_middle) ?_)
    exact .swap _ _ _
  · intro target hmem
    simp only [Outline.fork, aimed, List.filterMap_append, List.filterMap_cons, Event.target?,
      List.filterMap_nil, List.cons_append, List.append_nil, List.mem_cons, List.mem_append]
      at hmem ⊢
    rcases hmem with start | inside | finish | inside
    · exact .inl (.inl start)
    · exact .inr (.inl inside)
    · exact .inl (.inr finish)
    · exact .inr (.inr inside)

theorem Sound.cycle {body : Outline} (h : Sound body) : Sound (cycle body) := by
  intro numbers
  refine (h (numbers.take .loop)).bracket ?_ ?_
  · simp only [Outline.cycle, marked, List.filterMap_append, List.filterMap_cons, Event.mark?,
      List.filterMap_nil, List.cons_append]
    exact .cons _ (List.perm_append_singleton _ _)
  · intro target hmem
    simp only [Outline.cycle, aimed, List.filterMap_append, List.filterMap_cons, Event.target?,
      List.filterMap_nil, List.cons_append, List.mem_cons, List.mem_append, List.not_mem_nil,
      or_false] at hmem ⊢
    rcases hmem with start | finish | inside | start
    · exact .inl (.inl start)
    · exact .inl (.inr finish)
    · exact .inr inside
    · exact .inl (.inl start)

/-- The outline of any code is sound. -/
theorem keeps_sound : reading.Keeps Sound where
  nothing := sound_skip
  andThen := Sound.andThen
  call _ := sound_skip
  fork pair := Sound.fork pair
  cycle := Sound.cycle

end Outline

/-! ## Counters in step -/

namespace Names

/-- The numbers that pairs of labels take next. -/
def numbering (names : Names) : Numbering
  | .choice => names.onTrue
  | .loop => names.loopBody
  | .conditional => names.thenBranch

/-- The two counters of a pair agree. -/
structure InStep (names : Names) : Prop where
  choice : names.onTrue = names.join
  loop : names.loopBody = names.loopEnd

theorem inStep_fresh : fresh.InStep := ⟨rfl, rfl⟩

theorem numbering_mono {before after : Names} (le : before ≤ after) :
    before.numbering ≤ after.numbering
  | .choice => le.2 .onTrue
  | .loop => le.2 .loopBody
  | .conditional => le.2 .thenBranch

end Names

namespace Lowering

variable {α β : Type}

open Outline

/-! ## Generators that follow an outline -/

/-- Wherever the counters are in step, the generator writes code with the
outline, and they are in step again. -/
def Follows (gen : Gen α) (outline : Outline) : Prop :=
  ∀ names : Names, names.InStep → (gen names).names.InStep ∧
    (events (gen names).code, (gen names).names.numbering) = outline names.numbering

namespace Follows

theorem pure (value : α) : Follows (Pure.pure value : Gen α) skip :=
  fun _ inStep => ⟨inStep, rfl⟩

theorem bind {first : Gen α} {next : α → Gen β} {outline outline' : Outline}
    (h : Follows first outline) (h' : ∀ names, Follows (next (first names).value) outline') :
    Follows (first >>= next) (outline.andThen outline') := by
  intro names inStep
  obtain ⟨inStep₁, same⟩ := h names inStep
  obtain ⟨inStep₂, same'⟩ := h' names (first names).names inStep₁
  refine ⟨inStep₂, ?_⟩
  rw [andThen, ← same, ← same', Gen.code_bind, events_append, Gen.names_bind]

theorem emit {instr : Instr} (h : instr.event? = none) : Follows (Gen.emit instr) skip := by
  refine fun names inStep => ⟨inStep, ?_⟩
  show (events [instr], names.numbering) = skip names.numbering
  rw [events_cons, h]
  rfl

theorem note (entry : Note) : Follows (Gen.note entry) skip := fun _ inStep => ⟨inStep, rfl⟩

/-- Variables are not numbered with the labels. -/
theorem temp (ty : Ty) : Follows (Gen.temp ty) skip := by
  refine fun names inStep => ⟨⟨inStep.choice, inStep.loop⟩, ?_⟩
  have same : names.advanceTemp.numbering = names.numbering := by
    funext pair
    cases pair <;> rfl
  exact congrArg (Prod.mk []) same

theorem holder (ty : Ty) : Follows (Gen.holder ty) skip := by
  refine fun names inStep => ⟨⟨inStep.choice, inStep.loop⟩, ?_⟩
  have same : (names.advance .pack).numbering = names.numbering := by
    funext pair
    cases pair <;> rfl
  exact congrArg (Prod.mk []) same

theorem assigned {draw : Gen Operand} (h : Follows draw skip) (rhs : Rhs) :
    Follows (Gen.assigned draw rhs) skip := by
  rw [← skip_andThen skip]
  refine h.bind fun _ => ?_
  rw [← skip_andThen skip]
  exact (emit rfl).bind fun _ => .pure _

/-- A truth value takes one number for both of its labels. -/
theorem chosen (cond : Rhs) {onTrue : Gen Element} {outline : Outline}
    (h : Follows onTrue outline) : Follows (chosen cond onTrue) (fork .choice skip outline) := by
  intro names inStep
  have taken : (chosenNames names).numbering = names.numbering.take .choice := by
    funext pair
    cases pair <;> rfl
  have inStep' : (chosenNames names).InStep := ⟨congrArg (· + 1) inStep.choice, inStep.loop⟩
  obtain ⟨after, same⟩ := h (chosenNames names) inStep'
  refine ⟨after, ?_⟩
  rw [code_chosen, fork, skip, ← taken, ← same, ← inStep.choice]
  simp only [twoWay, events_append, events_cons, events_nil, Instr.event?, Instr.set,
    Option.toList, List.append_nil, List.nil_append, List.cons_append]
  rfl

end Follows

theorem event?_of_isPlain {instr : Instr} (h : instr.isPlain = true) : instr.event? = none := by
  cases instr with
  | goto target | label mark | branch cond target => cases h
  | _ => rfl

/-! ## Attempts that follow an outline -/

/-- From this supply a generator leaves the counters in step. -/
def StaysInStep (names : Names) (gen : Gen α) : Prop := (gen names).names.InStep

namespace StaysInStep

variable {names : Names}

theorem lift {gen : Gen α} (h : StaysInStep names gen) :
    StaysInStep names (liftM gen : Attempt α).run := by
  rw [StaysInStep, run_lift, Gen.map_apply]
  exact h

theorem lift_bind {gen : Gen α} {next : α → Attempt β}
    (h : StaysInStep (gen names).names (next (gen names).value).run) :
    StaysInStep names (liftM gen >>= next).run := by
  rw [StaysInStep, run_lift_bind]
  exact h

theorem attempt_bind {first : Attempt α} {next : α → Attempt β}
    (h : StaysInStep names first.run)
    (h' : ∀ value, StaysInStep (first.run names).names (next value).run) :
    StaysInStep names (first >>= next).run := by
  rw [StaysInStep, ExceptT.run_bind, Gen.names_bind]
  cases (first.run names).value with
  | ok value => exact h' value
  | error error => exact h

end StaysInStep

/-- From every supply with counters in step. -/
def KeepsStep (gen : Gen α) : Prop := ∀ names : Names, names.InStep → StaysInStep names gen

/-- An attempt leaves the counters in step whether it succeeds or not.  If it
succeeds its code has the outline. -/
structure Outlined (attempt : Attempt Unit) (outline : Outline) : Prop where
  keepsStep : KeepsStep attempt.run
  same : ∀ {names code after}, names.InStep → Gives attempt names () code after →
    (events code, after.numbering) = outline names.numbering

namespace Outlined

theorem lift {gen : Gen Unit} {outline : Outline} (h : Follows gen outline) :
    Outlined (liftM gen) outline where
  keepsStep names inStep := .lift (h names inStep).1
  same := by
    intro names code after inStep gives
    obtain ⟨-, rfl, rfl⟩ := gives.lift
    exact (h names inStep).2

theorem throw (error : CompileError) (outline : Outline) :
    Outlined (MonadExcept.throw error) outline where
  keepsStep _ inStep := inStep
  same := by
    intro names code after _ gives
    cases gives.value_eq

theorem lift_bind {gen : Gen α} {next : α → Attempt Unit} {outline outline' : Outline}
    (h : Follows gen outline) (h' : ∀ names, Outlined (next (gen names).value) outline') :
    Outlined (liftM gen >>= next) (outline.andThen outline') where
  keepsStep names inStep := .lift_bind ((h' names).keepsStep _ (h names inStep).1)
  same := by
    intro names code after inStep gives
    obtain ⟨rest, gives', rfl⟩ := gives.lift_bind
    obtain ⟨inStep', same⟩ := h names inStep
    rw [events_append, andThen, ← same, ← (h' names).same inStep' gives']

theorem andThen {first second : Attempt Unit} {outline outline' : Outline}
    (h : Outlined first outline) (h' : Outlined second outline') :
    Outlined (do first; second) (outline.andThen outline') where
  keepsStep names inStep :=
    .attempt_bind (h.keepsStep names inStep) fun _ => h'.keepsStep _ (h.keepsStep names inStep)
  same := by
    intro names code after inStep gives
    obtain ⟨_, _, between, _, gives₁, gives₂, rfl⟩ := gives.bind
    have inStep' : between.InStep := gives₁.names_eq ▸ h.keepsStep names inStep
    rw [events_append, Outline.andThen, ← h.same inStep gives₁, ← h'.same inStep' gives₂]

theorem conditional {cond : Gen Element} {thenBranch elseBranch : Attempt Unit}
    {test onTrue onFalse : Outline} (h : Follows cond test) (hthen : Outlined thenBranch onTrue)
    (helse : Outlined elseBranch onFalse) :
    Outlined (conditional cond thenBranch elseBranch)
      (test.andThen (fork .conditional onFalse onTrue)) where
  keepsStep := by
    intro names inStep
    have inStep₁ := (h names inStep).1
    have inStep₂ := helse.keepsStep ((cond names).names.advance .thenBranch)
      ⟨inStep₁.choice, inStep₁.loop⟩
    have inStep₃ := hthen.keepsStep _ inStep₂
    exact .lift_bind (.lift_bind (.lift_bind (.attempt_bind inStep₂ fun _ =>
      .lift_bind (.lift_bind (.attempt_bind inStep₃ fun _ => .lift inStep₃)))))
  same := by
    intro names code after inStep gives
    obtain ⟨elseCode, between, thenCode, givesElse, givesThen, rfl⟩ := gives_conditional gives
    obtain ⟨inStep₁, same⟩ := h names inStep
    have inStep₂ : ((cond names).names.advance .thenBranch).InStep :=
      ⟨inStep₁.choice, inStep₁.loop⟩
    have inStep₃ : between.InStep := givesElse.names_eq ▸ helse.keepsStep _ inStep₂
    have taken : ((cond names).names.advance .thenBranch).numbering =
        (cond names).names.numbering.take .conditional := by
      funext pair
      cases pair <;> rfl
    rw [Outline.andThen, ← same, fork, ← taken, ← helse.same inStep₂ givesElse,
      ← hthen.same inStep₃ givesThen]
    simp only [twoWay, events_append, events_cons, events_nil, Instr.event?, Option.toList,
      List.append_nil, List.cons_append, List.nil_append]
    rfl

/-- The two labels of a loop are taken together. -/
theorem loop {cond : Gen Element} {body : Attempt Unit} {test inner : Outline}
    (h : Follows cond test) (hbody : Outlined body inner) :
    Outlined (loop cond body) (test.andThen (cycle (inner.andThen test))) where
  keepsStep := by
    intro names inStep
    have inStep₁ := (h names inStep).1
    have inStep₂ := hbody.keepsStep (((cond names).names.advance .loopBody).advance .loopEnd)
      ⟨inStep₁.choice, congrArg (· + 1) inStep₁.loop⟩
    exact .lift_bind (.lift_bind (.lift_bind (.lift_bind (.lift_bind (.lift_bind
      (.attempt_bind inStep₂ fun _ => .lift_bind (.lift_bind (.lift (h _ inStep₂).1))))))))
  same := by
    intro names code after inStep gives
    obtain ⟨bodyCode, between, gives', rfl, rfl⟩ := gives_loop gives
    obtain ⟨inStep₁, same⟩ := h names inStep
    let taken := ((cond names).names.advance .loopBody).advance .loopEnd
    have inStep₂ : taken.InStep := ⟨inStep₁.choice, congrArg (· + 1) inStep₁.loop⟩
    have inStep₃ : between.InStep := gives'.names_eq ▸ hbody.keepsStep _ inStep₂
    have numbers : taken.numbering = (cond names).names.numbering.take .loop := by
      funext pair
      cases pair <;> rfl
    rw [Outline.andThen, ← same, cycle, ← numbers, Outline.andThen, ← hbody.same inStep₂ gives',
      ← (h between inStep₃).2, ← inStep₁.loop]
    simp only [loopCode, loopHead, events_append, events_cons, events_nil, Instr.event?,
      Option.toList, List.append_nil, List.cons_append, List.nil_append, List.append_assoc]
    rfl

end Outlined

/-- Lowered code has the outline of what was lowered. -/
def outlineSurvey (scope : Scope) : Survey scope Outline.reading where
  Finds := Follows
  pure := .pure
  bind := .bind
  note := .note
  emit plain := .emit (event?_of_isPlain plain)
  emitCall _ := .emit rfl
  temp ty _ := (Follows.temp ty).assigned _
  tempCall ty _ := (Follows.temp ty).assigned _
  holder ty _ := (Follows.holder ty).assigned _
  chosen _ h := h.chosen _
  Yields := Outlined
  lift := .lift
  throw := .throw
  lift_bind := .lift_bind
  andThen := .andThen
  conditional := .conditional
  loop := .loop

end Lowering

end MiniJava
