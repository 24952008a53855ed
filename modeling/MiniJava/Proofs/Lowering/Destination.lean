import MiniJava.Proofs.Lowering.Acceptance

/-!
# Where assignments store

An assignment whose left side is a name or an array access stores last into the
place that this denotes (`Addresses`): a variable, a field of the receiver, or a
cell of the lowered array.

Parentheses mean nothing in the source, but they are lowered as operands.  That
is harmless for a variable, which is its own operand.  The operand of a field or
of an array access is a temporary that holds the value, so in parentheses these
are read, the temporary is assigned to, and the update is lost.
-/

namespace MiniJava

open Source (Expr Scope SymbolTable MethodEntry)
open Tac Semantics Lowering

/-- An expression without the parentheses around it. -/
def bare : Expr → Expr
  | .paren inner _ => bare inner
  | expr => expr

/-- Whether the left side of an assignment is lowered to the place that it
denotes: it has no parentheses, or they enclose a variable. -/
def isDirect (scope : Scope) : Expr → Bool
  | .paren inner _ => (bare inner).varName?.any fun name => !scope.isField name
  | _ => true

/-- The place that an instruction stores into. -/
def Tac.Instr.place? : Instr → Option Place
  | .assign (.var op) _ _ => some (.var op)
  | .assign (.cell cell) _ _ => some (.cell cell)
  | .putField object field _ => some (.field object field)
  | _ => none

namespace Lowering

section
variable {scope : Scope} {names : Names}

/-- The place that a left side denotes, if it is lowered from the given supply.
Parentheses do not matter. -/
inductive Addresses (scope : Scope) (names : Names) : Expr → Place → Prop where
  | var : scope.isField name = false →
      Addresses scope names (.var name ty) (.var ⟨name, .ofSource ty⟩)
  | field : scope.isField name = true →
      Addresses scope names (.var name ty) (.field (receiverOf scope) ⟨name, .ofSource ty⟩)
  | cell : (operand scope array >>= Gen.toVariable) names = base →
      operand scope position base.names = index →
      Addresses scope names (.index array position ty) (.cell (.of base.value index.value))
  | paren {inner : Expr} : Addresses scope names inner place →
      Addresses scope names (.paren inner ty) place

theorem addresses_bare {place : Place} : ∀ left,
    Addresses scope names left place ↔ Addresses scope names (bare left) place
  | .paren inner _ =>
      ⟨fun (.paren h) => (addresses_bare inner).mp h,
        fun h => .paren ((addresses_bare inner).mpr h)⟩
  | .int _ _ | .bool _ _ | .this _ | .var _ _ | .binary _ _ _ _ | .not _ _ | .newObject _ _
  | .newArray _ _ _ | .arrayInit _ _ | .index _ _ _ | .length _ _ | .call _ _ _ _ => Iff.rfl

/-- Only a name denotes a variable, and it is the variable of that name. -/
theorem varName?_of_addresses {left : Expr} {op : Operand}
    (h : Addresses scope names left (.var op)) :
    (bare left).varName? = some op.name ∧ scope.isField op.name = false := by
  generalize same : Place.var op = place at h
  induction h with
  | var notField =>
      cases same
      exact ⟨rfl, notField⟩
  | field _ => cases same
  | cell _ _ => cases same
  | paren _ induction => exact induction same

/-! ## The places of left sides -/

/-- Parentheses make no difference to an operand. -/
theorem operand_bare : ∀ expr, operand scope (bare expr) = operand scope expr
  | .paren inner _ => by
      rw [bare, operand_bare inner, operand, operand, compute, map_eq_pure_bind, bind_assoc]
      simp only [pure_bind, Gen.settle, Gen.settleAs, bind_pure]
  | .int _ _ | .bool _ _ | .this _ | .var _ _ | .binary _ _ _ _ | .not _ _ | .newObject _ _
  | .newArray _ _ _ | .arrayInit _ _ | .index _ _ _ | .length _ _ | .call _ _ _ _ => rfl

/-- The operand of a field or of an array access is a temporary. -/
theorem generated_operand {expr : Expr} (place : isPlace expr = true)
    (field : ∀ name ∈ expr.varName?, scope.isField name = true) :
    ∃ op, (operand scope expr names).value = .operand op ∧
      names.Generated (operand scope expr names).names op.name := by
  cases expr with
  | var name ty =>
      have read : operand scope (.var name ty) =
          Gen.store (.getField (receiverOf scope) ⟨name, .ofSource ty⟩) (.ofSource ty) := by
        rw [operand, compute, readName, if_pos (field name rfl), map_eq_pure_bind, bind_assoc]
        simp only [pure_bind, Gen.settle, Gen.settleAs, bind_pure]
      rw [read]
      exact ⟨_, rfl, Names.generated_nextTemp (Names.le_refl _)⟩
  | index array position ty =>
      have le := (tidy_cellOf (tidy_operand scope array) (tidy_operand scope position) names).1
      exact ⟨_, rfl, (Names.generated_nextTemp (Names.le_refl _)).mono le (Names.le_refl _)⟩
  | _ => cases place

theorem target_paren (inner : Expr) (ty : Source.Ty) :
    target scope (.paren inner ty) = Place.ofElement <$> operand scope (bare inner) := by
  have same : operand scope (bare inner) = operand scope (.paren inner ty) :=
    operand_bare (.paren inner ty)
  rw [same]
  rfl

theorem isDirect_of_addresses {left : Expr} {op : Operand}
    (h : Addresses scope names left (.var op)) : isDirect scope left = true := by
  cases left with
  | paren inner ty =>
      obtain ⟨named, notField⟩ := varName?_of_addresses h
      rw [bare] at named
      rw [isDirect, named, Option.any_some, notField, Bool.not_false]
  | _ => rfl

/-- A left side that is lowered directly is lowered to the place that it denotes. -/
theorem addresses_target {left : Expr} (place : isPlace (bare left) = true)
    (direct : isDirect scope left = true) :
    Addresses scope names left (target scope left names).value := by
  cases left with
  | var name ty =>
      rw [target]
      split
      · exact .field ‹_›
      · exact .var (Bool.eq_false_iff.mpr ‹_›)
  | index array position ty => exact .cell rfl rfl
  | paren inner ty =>
      rw [addresses_bare, bare, target_paren, Gen.map_apply]
      rw [isDirect, Option.any_eq_true] at direct
      obtain ⟨name, named, notField⟩ := direct
      rw [Bool.not_eq_true'] at notField
      cases shape : bare inner with
      | var other ty =>
          obtain rfl : other = name := by simpa [shape, Expr.varName?] using named
          rw [operand, compute, readName, notField]
          exact .var notField
      | _ => simp [shape, Expr.varName?] at named
  | _ => cases place

/-- Any other left side is lowered to a temporary. -/
theorem generated_target {left : Expr} (place : isPlace (bare left) = true)
    (indirect : isDirect scope left = false) :
    ∃ op, (target scope left names).value = .var op ∧
      names.Generated (target scope left names).names op.name := by
  cases left with
  | paren inner ty =>
      have field : ∀ name ∈ (bare inner).varName?, scope.isField name = true := by
        intro name named
        rw [isDirect, Option.mem_def.mp named] at indirect
        simpa using indirect
      rw [bare] at place
      obtain ⟨op, value, generated⟩ : ∃ op, (operand scope (bare inner) names).value = .operand op ∧
          names.Generated (operand scope (bare inner) names).names op.name :=
        generated_operand place field
      rw [target_paren, Gen.map_apply]
      exact ⟨op, congrArg Place.ofElement value, generated⟩
  | _ => cases indirect

/-! ## The last instruction -/

/-- The last instruction of an assignment stores into what its left side was
lowered to. -/
theorem last_of_assignment {left right : Expr} {after : Names} {code : List Instr}
    (gives : Gives (assignment scope left right) names () code after) :
    ∃ before last, code = before ++ [last] ∧
      last.place? = some (target scope left names).value ∧
      (target scope left names).names ≤ after := by
  obtain ⟨_, gives₁, rfl⟩ := gives.lift_bind
  obtain ⟨_, gives₂, rfl⟩ := gives₁.lift_bind
  have le := (tidy_compute scope right (target scope left names).names).1
  rw [← List.append_assoc]
  cases place : (target scope left names).value with
  | var op =>
      rw [place] at gives₂
      obtain ⟨-, rfl, rfl⟩ := gives₂.lift
      exact ⟨_, _, rfl, rfl, le⟩
  | cell cell =>
      rw [place] at gives₂
      obtain ⟨-, rfl, rfl⟩ := gives₂.lift
      exact ⟨_, _, rfl, rfl, le⟩
  | field object field =>
      rw [place] at gives₂
      obtain ⟨_, gives₃, rfl⟩ := gives₂.lift_bind
      obtain ⟨-, rfl, rfl⟩ := gives₃.lift
      rw [← List.append_assoc]
      exact ⟨_, _, rfl, rfl, Names.le_trans le (tidy_settleAs _ _ _).1⟩
  | literal lit =>
      rw [place] at gives₂
      cases gives₂.value_eq

theorem constant?_of_isPlace : ∀ left : Expr, isPlace (bare left) = true → constant? left = none
  | .paren inner _, place => constant?_of_isPlace inner place
  | .var _ _, _ | .index _ _ _, _ => rfl

/-- An assignment whose left side is a name or an array access, perhaps in
parentheses, is accepted.  Its last instruction stores into the place that the
left side denotes exactly if that is lowered directly.  Then a variable is stored
into only under its own name.  Otherwise a temporary of this assignment is. -/
theorem store_of_assign (scope : Scope) (left right : Expr) (names : Names)
    (place : isPlace (bare left) = true) :
    ∃ before last after stored,
      Gives (lowerStmt scope (.assign left right)) names () (before ++ [last]) after ∧
      last.place? = some stored ∧
      (Addresses scope names left stored ↔ isDirect scope left = true) ∧
      (isDirect scope left = true → ∀ op, stored = .var op →
        (bare left).varName? = some op.name) ∧
      (isDirect scope left = false → ∃ op, stored = .var op ∧ names.Generated after op.name) := by
  rw [lowerStmt_assign]
  obtain ⟨_, accepted⟩ : ∃ value, ((assignment scope left right).run names).value = .ok value := by
    rw [← errorOf?_eq_none_iff, ends_assignment, refusal?, constant?_of_isPlace left place,
      Option.map_none]
  have gives : Gives (assignment scope left right) names () _ _ := ⟨accepted, rfl, rfl⟩
  obtain ⟨before, last, code, stores, le⟩ := last_of_assignment gives
  rw [code] at gives
  refine ⟨before, last, _, _, gives, stores, ?_⟩
  cases direct : isDirect scope left with
  | true =>
      have addresses : Addresses scope names left _ := addresses_target place direct
      refine ⟨iff_of_true addresses rfl, fun _ op same => ?_, by simp⟩
      exact (varName?_of_addresses (same ▸ addresses)).1
  | false =>
      obtain ⟨op, same, generated⟩ := generated_target place direct
      refine ⟨iff_of_false (fun addresses => ?_) (by simp), by simp, fun _ =>
        ⟨op, same, generated.mono (Names.le_refl _) le⟩⟩
      rw [same] at addresses
      rw [isDirect_of_addresses addresses] at direct
      cases direct

end

/-- The method `void run(int[] xs, int x)` of a class `Foo` with a field `int f`. -/
def fooScope : Scope where
  symbols :=
    { className := "Foo", superName := none, imports := []
      fields := .ofList Source.Var.name [⟨"f", .int⟩], methods := .empty }
  method :=
    { name := "run", isStatic := false, isVariadic := false, ret := .void
      params := [⟨"xs", .arrayOf "int"⟩, ⟨"x", .int⟩], locals := [] }

def fooField : Expr := .var "f" .int

def fooCell : Expr := .indexOf (.var "xs" (.arrayOf "int")) (.var "x" .int)

/-- `f = 5;`, `xs[x] = 5;` and `((x)) = 5;`. -/
theorem store_of_assign_foo :
    let stores (left : Expr) := isPlace (bare left) = true ∧ isDirect fooScope left = true ∧
      ∃ before last after stored,
        Gives (lowerStmt fooScope (.assign left (.intOf 5))) .fresh () (before ++ [last]) after ∧
        last.place? = some stored ∧ Addresses fooScope .fresh left stored
    stores fooField ∧ stores fooCell ∧ stores (.parenOf (.parenOf (.var "x" .int))) := by
  intro stores
  have direct (left : Expr) (place : isPlace (bare left) = true)
      (direct : isDirect fooScope left = true) : stores left := by
    obtain ⟨before, last, after, stored, gives, stored_eq, addresses, -⟩ :=
      store_of_assign fooScope left (.intOf 5) .fresh place
    exact ⟨place, direct, before, last, after, stored, gives, stored_eq, addresses.mpr direct⟩
  exact ⟨direct _ rfl (by decide), direct _ rfl (by decide), direct _ rfl (by decide)⟩

/-- In `(f) = 5;` and `(xs[x]) = 5;` the last instruction assigns to a temporary,
and neither the field nor the array is stored into. -/
theorem not_store_of_assign_paren :
    let outcome left := (lowerStmt fooScope (.assign (.parenOf left) (.intOf 5))).run .fresh
    (isPlace (bare (.parenOf fooField)) && isPlace (bare (.parenOf fooCell))) = true ∧
    (outcome fooField).code.map Instr.text =
      ["tmp0.i32 :=.i32 getfield(this, f.i32).i32;", "tmp0.i32 :=.i32 5.i32;"] ∧
    (outcome fooCell).code.map Instr.text =
      ["tmp0.i32 :=.i32 xs[x.i32].i32;", "tmp0.i32 :=.i32 5.i32;"] ∧
    ([fooField, fooCell].map fun left => (outcome left).code.filterMap Instr.place?) =
      [[.var ⟨"tmp0", .int⟩, .var ⟨"tmp0", .int⟩], [.var ⟨"tmp0", .int⟩, .var ⟨"tmp0", .int⟩]] ∧
    ([fooField, fooCell].map fun left => (outcome left).value.isOk) = [true, true] := by
  decide +kernel

end Lowering

end MiniJava
