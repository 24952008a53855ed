import MiniJava.Proofs.Lowering.Session
import MiniJava.Proofs.Registers

/-!
# The variables of lowered code

Every variable that lowering hands out is used: it stands in the code, so it
has a slot of its own in the layout of the method.  No two names share a slot.
So a temporary or a holder shares a slot with a variable of the source exactly
if it has its name, and that happens only to variables that are called like
temporaries or holders.  Nothing keeps a program from calling them so.
-/

namespace MiniJava

open Source (Expr Scope SymbolTable MethodDecl Program Var)
open Tac Lowering

/-! ## Variables handed out one after another -/

namespace Names

/-- A variable is handed out before or after any point in between. -/
theorem Generated.split {before after : Names} {name : String} (h : Generated before after name)
    (between : Names) : Generated before between name ∨ Generated between after name := by
  rcases h with ⟨id, ge, lt, rfl⟩ | ⟨id, ge, lt, rfl⟩
  · rcases Nat.lt_or_ge id between.temp with earlier | later
    · exact .inl (.inl ⟨id, ge, earlier, rfl⟩)
    · exact .inr (.inl ⟨id, later, lt, rfl⟩)
  · rcases Nat.lt_or_ge id between.pack with earlier | later
    · exact .inl (.inr ⟨id, ge, earlier, rfl⟩)
    · exact .inr (.inr ⟨id, later, lt, rfl⟩)

theorem eq_nextTemp_of_generated {names : Names} {name : String}
    (h : Generated names names.advanceTemp name) : name = names.nextTemp := by
  rcases h with ⟨id, ge, lt, rfl⟩ | ⟨id, ge, lt, -⟩
  · have same : id = names.temp := Nat.le_antisymm (Nat.le_of_lt_succ lt) ge
    rw [same, nextTemp]
  · exact absurd lt (Nat.not_lt_of_le ge)

theorem eq_nextPack_of_generated {names : Names} {name : String}
    (h : Generated names (names.advance .pack) name) : name = names.nextPack := by
  rcases h with ⟨id, ge, lt, -⟩ | ⟨id, ge, lt, rfl⟩
  · exact absurd lt (Nat.not_lt_of_le ge)
  · have same : id = names.pack := Nat.le_antisymm (Nat.le_of_lt_succ lt) ge
    rw [same, nextPack]

end Names

/-! ## Variables in code -/

/-- The variables that a list of instructions mentions. -/
def varNames (code : List Instr) : List String :=
  (code.flatMap Instr.operands).map Operand.name

@[simp]
theorem varNames_append (first second : List Instr) :
    varNames (first ++ second) = varNames first ++ varNames second := by
  simp [varNames]

@[simp]
theorem varNames_cons (instr : Instr) (rest : List Instr) :
    varNames (instr :: rest) = instr.operands.map Operand.name ++ varNames rest := by
  simp [varNames]

theorem mem_varNames_set (dest : Operand) (rhs : Rhs) :
    dest.name ∈ varNames [.set dest rhs] := by
  simp [Instr.set, Instr.operands, Dest.operands]

/-! ## The survey of variables -/

/-- There is nothing to read in code but what it is asked for. -/
def noReading : Reading Unit where
  nothing := ()
  andThen _ _ := ()
  call _ := ()
  fork _ _ _ := ()
  cycle _ := ()
  nothing_andThen _ := rfl
  andThen_nothing _ := rfl
  andThen_assoc _ _ _ := rfl

namespace Lowering

variable {α β : Type}

/-- A generator mentions every variable that it takes from the supply. -/
def UsesAll (gen : Gen α) : Prop :=
  ∀ names name, names.Generated (gen names).names name → name ∈ varNames (gen names).code

namespace UsesAll

theorem idle {gen : Gen α} (h : ∀ names, (gen names).names = names) : UsesAll gen := by
  intro names name generated
  rw [h names] at generated
  exact absurd generated (Names.not_generated_self names name)

theorem bind {first : Gen α} {next : α → Gen β} (h : UsesAll first)
    (h' : ∀ names, UsesAll (next (first names).value)) : UsesAll (first >>= next) := by
  intro names name generated
  rw [Gen.code_bind, varNames_append, List.mem_append]
  exact (generated.split (first names).names).imp (h names name) (h' names _ name)

theorem temp (rhs : Rhs) (ty : Ty) : UsesAll (Gen.assigned (Gen.temp ty) rhs) := by
  intro names name generated
  rw [Names.eq_nextTemp_of_generated generated]
  exact mem_varNames_set ⟨names.nextTemp, ty⟩ rhs

theorem holder (rhs : Rhs) (ty : Ty) : UsesAll (Gen.assigned (Gen.holder ty) rhs) := by
  intro names name generated
  rw [Names.eq_nextPack_of_generated generated]
  exact mem_varNames_set ⟨names.nextPack, ty⟩ rhs

theorem chosen (cond : Rhs) {onTrue : Gen Element} (h : UsesAll onTrue) :
    UsesAll (chosen cond onTrue) := by
  intro names name generated
  rw [code_chosen, twoWay]
  rcases generated.split (chosenNames names) with own | inner
  · have taken : name ∈ varNames [.set ⟨names.nextTemp, .bool⟩ (.element (.bool false))] := by
      rw [Names.eq_nextTemp_of_generated own]
      exact mem_varNames_set _ _
    simp only [varNames_append, varNames_cons, List.mem_append] at taken ⊢
    exact .inl (.inl (.inr taken))
  · have used := h (chosenNames names) name inner
    simp only [varNames_append, varNames_cons, List.mem_append]
    exact .inl (.inr (.inr (.inr (.inl used))))

end UsesAll

/-- If an attempt succeeds, its code mentions every variable that it takes from
the supply. -/
def UsesAllIn (attempt : Attempt Unit) : Prop :=
  ∀ {names code after}, Gives attempt names () code after →
    ∀ name, names.Generated after name → name ∈ varNames code

namespace UsesAllIn

theorem conditional {cond : Gen Element} {thenBranch elseBranch : Attempt Unit}
    (h : UsesAll cond) (hthen : UsesAllIn thenBranch) (helse : UsesAllIn elseBranch) :
    UsesAllIn (conditional cond thenBranch elseBranch) := by
  intro names code after gives name generated
  obtain ⟨elseCode, between, thenCode, givesElse, givesThen, rfl⟩ := gives_conditional gives
  simp only [twoWay, varNames_append, varNames_cons, List.mem_append]
  rcases generated.split (cond names).names with test | later
  · exact .inl (h names name test)
  · rcases later.split between with first | second
    · exact .inr (.inl (.inl (.inr (helse givesElse name first))))
    · exact .inr (.inl (.inr (.inr (.inr (hthen givesThen name second)))))

theorem loop {cond : Gen Element} {body : Attempt Unit} (h : UsesAll cond)
    (hbody : UsesAllIn body) : UsesAllIn (loop cond body) := by
  intro names code after gives name generated
  obtain ⟨bodyCode, between, gives', rfl, rfl⟩ := gives_loop gives
  simp only [loopCode, varNames_append, List.mem_append]
  rcases generated.split (cond names).names with test | later
  · exact .inl (h names name test)
  · rcases later.split between with inside | again
    · exact .inr (.inr (.inl (hbody gives' name inside)))
    · exact .inr (.inr (.inr (.inl (h between name again))))

end UsesAllIn

/-- Lowered code mentions every variable that was handed out for it. -/
def variableSurvey (scope : Scope) : Survey scope noReading where
  Finds gen _ := UsesAll gen
  pure _ := .idle fun _ => rfl
  bind := .bind
  note _ := .idle fun _ => rfl
  emit _ := .idle fun _ => rfl
  emitCall _ := .idle fun _ => rfl
  temp ty _ := .temp _ ty
  tempCall ty _ := .temp _ ty
  holder ty _ := .holder _ ty
  chosen _ h := h.chosen _
  Yields attempt _ := UsesAllIn attempt
  lift h _ _ _ gives := by
    obtain ⟨-, rfl, rfl⟩ := gives.lift
    exact h _
  throw _ _ _ _ _ gives := by cases gives.value_eq
  lift_bind h h' names _ _ gives name generated := by
    obtain ⟨rest, gives', rfl⟩ := gives.lift_bind
    rw [varNames_append, List.mem_append]
    exact (generated.split _).imp (h names name) (h' names gives' name)
  andThen h h' _ _ _ gives name generated := by
    obtain ⟨_, _, between, _, gives₁, gives₂, rfl⟩ := gives.bind
    rw [varNames_append, List.mem_append]
    exact (generated.split between).imp (h gives₁ name) (h' gives₂ name)
  conditional := .conditional
  loop := .loop

/-! ## Slots -/

/-- Every variable that is handed out for a method has a slot. -/
theorem LoweredMethod.slot_of_generated {symbols : SymbolTable} {decl : MethodDecl}
    {entry : Source.MethodEntry} {names after : Names} {code : List Instr} {method : Method}
    (lowered : LoweredMethod symbols decl entry names code after method) {name : String}
    (generated : names.Generated after name) : ∃ slot, method.registers.find? name = some slot := by
  have mem : name ∈ varNames code :=
    (variableSurvey ⟨symbols, entry⟩).yields_lowerStmts decl.body lowered.gives name generated
  obtain ⟨operand, used, rfl⟩ := List.mem_map.mp mem
  have other : operand.isThis = false := by
    rw [Operand.isThis, decide_eq_false_iff_not]
    exact fun same => thisName_not_reserved (same ▸ generated.reserved)
  have mentioned : operand.name ∈ Registers.mentioned method.body := by
    rw [lowered.body, Registers.mentioned, List.flatMap_append, List.filter_append, List.map_append]
    exact List.mem_append_left _
      (List.mem_map_of_mem (List.mem_filter.mpr ⟨used, by rw [other]; rfl⟩))
  have slot := Registers.isSome_find?_sequential method.isStatic method.params mentioned
  rw [lowered.registers]
  exact Option.isSome_iff_exists.mp slot

/-- No two names share a slot of a lowered method. -/
theorem LoweredMethod.slots_injective {symbols : SymbolTable} {decl : MethodDecl}
    {entry : Source.MethodEntry} {names after : Names} {code : List Instr} {method : Method}
    (lowered : LoweredMethod symbols decl entry names code after method) {name other : String}
    {slot : Nat} (found : method.registers.find? name = some slot)
    (found' : method.registers.find? other = some slot) : name = other := by
  rw [lowered.registers] at found found'
  exact (Registers.sequential_inOrder _ _ _).injective found found'

/-- The parameters and locals that a method declares. -/
def declaredNames (decl : MethodDecl) : List String :=
  decl.params.map (fun param => param.name) ++ decl.locals.map Var.name

/-- If no parameter or local of a method is called like a temporary or a holder,
then no variable that is handed out for the method has the name of one.  In the
lowered method it has a slot, and none of them has that slot. -/
theorem generated_apart_of_not_reserved (symbols : SymbolTable) (decl : MethodDecl)
    (names : Names) (plain : ∀ user ∈ declaredNames decl, ¬ Names.Reserved user) :
    let outcome := (lowerMethod symbols decl).run names
    ∀ name, names.Generated outcome.names name →
      name ∉ declaredNames decl ∧
      ∀ method, outcome.value = .ok method →
        ∃ slot, method.registers.find? name = some slot ∧
          ∀ user ∈ declaredNames decl, method.registers.find? user ≠ some slot := by
  intro outcome name generated
  have apart : name ∉ declaredNames decl := fun mem => plain name mem generated.reserved
  refine ⟨apart, fun method accepted => ?_⟩
  obtain ⟨entry, code, lowered⟩ := loweredMethod_of_gives ⟨accepted, rfl, rfl⟩
  obtain ⟨slot, found⟩ := lowered.slot_of_generated generated
  refine ⟨slot, found, fun user mem shared => apart ?_⟩
  rwa [lowered.slots_injective found shared]

/-- The method `int scale(int first, int b) { return (first + b) * first; }`, for
a chosen name of the first parameter. -/
def scaleDecl (first : String) : MethodDecl where
  name := "scale"
  isPublic := true
  isStatic := false
  params := [.plain first .int, .plain "b" .int]
  ret := .int
  locals := []
  body := [.ret (some (.binaryOf (.arith .mul)
    (.parenOf (.binaryOf (.arith .add) (.var first .int) (.var "b" .int))) (.var first .int)))]

def scaleProgram (first : String) : Program := ⟨[], ⟨"Foo", none, [], [scaleDecl first]⟩⟩

theorem generated_apart_of_not_reserved_scale :
    let decl := scaleDecl "a"
    let outcome := (lowerMethod (.collect (scaleProgram "a")) decl).run .fresh
    Names.fresh.Generated outcome.names "tmp0" ∧ outcome.value.isOk = true ∧
    "tmp0" ∉ declaredNames decl ∧
    ∀ method, outcome.value = .ok method →
      ∃ slot, method.registers.find? "tmp0" = some slot ∧
        ∀ user ∈ declaredNames decl, method.registers.find? user ≠ some slot := by
  intro decl outcome
  have plain : ∀ user ∈ declaredNames decl, ¬ Names.Reserved user := by
    intro user mem
    refine Names.not_reserved ?_ ?_ <;> revert user <;> decide
  have generated : Names.fresh.Generated outcome.names "tmp0" :=
    .inl ⟨0, by decide, by decide, by decide⟩
  exact ⟨generated, by decide, generated_apart_of_not_reserved _ decl .fresh plain _ generated⟩

/-- A parameter that is called `tmp0` is overwritten by the temporary of that
name before it is read again. -/
theorem not_generated_apart_scale :
    let decl := scaleDecl "tmp0"
    let outcome := (lowerMethod (.collect (scaleProgram "tmp0")) decl).run .fresh
    Names.fresh.Generated outcome.names "tmp0" ∧ "tmp0" ∈ declaredNames decl ∧
    (outcome.value.map fun method => (method.body.map Instr.text, method.registers.slots.entries)) =
      .ok (["tmp0.i32 :=.i32 tmp0.i32 +.i32 b.i32;", "tmp1.i32 :=.i32 tmp0.i32 *.i32 tmp0.i32;",
          "ret.i32 tmp1.i32;"],
        [("this", 0), ("tmp0", 1), ("b", 2), ("tmp1", 3)]) := by
  exact ⟨.inl ⟨0, by decide, by decide, by decide⟩, by decide, by decide +kernel⟩

end Lowering

end MiniJava
