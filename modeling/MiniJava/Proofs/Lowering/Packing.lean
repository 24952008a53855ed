import MiniJava.Proofs.Lowering.Footprint
import MiniJava.Proofs.Lowering.Survey

/-!
# Packed arguments

A call of a variadic method passes one argument for every parameter.  The
arguments in front of the variadic one are passed as they are.  The others are
packed: an array is allocated for them, and each is stored into the next cell
right after it was computed (`Packs`).  Only an array that the caller has already,
as the one argument left, is passed on.

Nothing else writes the array, also not the packs of calls inside the arguments,
because their holders are others (`args_of_variadic_call`).
-/

namespace MiniJava.Lowering

open Source (Expr Scope Var MethodEntry)
open Tac

/-! ## Expressions one after another -/

/-- What lowering expressions to operands leaves behind, from left to right
(`lowerOperand_eq`). -/
def lowerEach (scope : Scope) : List Expr → Names → List (Outcome Element)
  | [], _ => []
  | expr :: rest, names =>
      operand scope expr names :: lowerEach scope rest (operand scope expr names).names

/-- The supply that the last of some outcomes leaves. -/
def supplyAfter (names : Names) (outcomes : List (Outcome Element)) : Names :=
  outcomes.foldl (fun _ outcome => outcome.names) names

section
variable {scope : Scope}

@[simp]
theorem length_lowerEach : ∀ (exprs : List Expr) (names : Names),
    (lowerEach scope exprs names).length = exprs.length
  | [], _ => rfl
  | _ :: rest, _ => congrArg (· + 1) (length_lowerEach rest _)

theorem value_inOrder : ∀ (exprs : List Expr) (names : Names),
    (Gen.inOrder (exprs.map (operand scope)) names).value =
      (lowerEach scope exprs names).map Outcome.value
  | [], _ => rfl
  | _ :: rest, _ => congrArg (_ :: ·) (value_inOrder rest _)

theorem code_inOrder : ∀ (exprs : List Expr) (names : Names),
    (Gen.inOrder (exprs.map (operand scope)) names).code =
      (lowerEach scope exprs names).flatMap Outcome.code
  | [], _ => rfl
  | expr :: rest, names => by
      rw [lowerEach, List.flatMap_cons, ← code_inOrder rest, List.map_cons, Gen.inOrder,
        Gen.code_bind, Gen.code_bind, Gen.pure_apply, List.append_nil]

theorem names_inOrder : ∀ (exprs : List Expr) (names : Names),
    (Gen.inOrder (exprs.map (operand scope)) names).names =
      supplyAfter names (lowerEach scope exprs names)
  | [], _ => rfl
  | _ :: rest, _ => names_inOrder rest _

theorem contained_operands (exprs : List Expr) :
    ∀ gen ∈ exprs.map (operand scope), Contained gen :=
  operandsOf_eq_map scope exprs ▸ contained_operandsOf scope exprs

end

/-! ## Arrays of items -/

/-- The literal of a number. -/
def numeral (value : Nat) : Element := .literal ⟨Nat.repr value, .int⟩

/-- A number that fits in 32 bits is written as it is. -/
theorem int_ofNat {value : Nat} (small : value < 2147483648) :
    Element.int (.ofNat value) = numeral value := by
  have toInt : (Int32.ofNat value).toInt = value := Int32.toInt_ofNat_of_lt small
  rw [Element.int, Literal.int, Numeral.write, toInt, if_neg (Int.not_ofNat_neg _)]
  rfl

/-- The instruction that stores a value into a cell of an array. -/
def storeAt (array : Operand) (position : Nat) (value : Element) : Instr :=
  .assign (.cell (.of array (numeral position))) (Cell.of array (numeral position)).elemTy
    (.element value)

/-- The code that fills an array from a position on: that of each item, with the
store of its value right behind it. -/
def fillCode (array : Operand) (start : Nat) (items : List (Outcome Element)) : List Instr :=
  (items.mapIdx fun j item => item.code ++ [storeAt array (start + j) item.value]).flatten

section
variable {scope : Scope} {array : Operand}

theorem fillCode_cons (start : Nat) (item : Outcome Element) (rest : List (Outcome Element)) :
    fillCode array start (item :: rest) =
      item.code ++ [storeAt array start item.value] ++ fillCode array (start + 1) rest := by
  simp only [fillCode, List.mapIdx_cons, List.flatten_cons, Nat.add_zero]
  simp only [Nat.add_right_comm start _ 1, ← Nat.add_assoc]

theorem code_fill : ∀ (exprs : List Expr) (start : Nat) (names : Names),
    start + exprs.length ≤ 2147483648 →
    (fill array start (exprs.map (operand scope)) names).code =
      fillCode array start (lowerEach scope exprs names)
  | [], _, _, _ => rfl
  | expr :: rest, start, names, small => by
      rw [List.length_cons] at small
      rw [lowerEach, fillCode_cons, ← code_fill rest (start + 1) _ (by omega), storeAt,
        ← int_ofNat (by omega), List.append_assoc]
      rfl

/-- Filling an array writes its holder once for each item. -/
theorem writesTo_fillCode : ∀ (exprs : List Expr) (start : Nat) {base names : Names},
    base.Generated names array.name →
    writesTo array.name (fillCode array start (lowerEach scope exprs names)) =
      (lowerEach scope exprs names).mapIdx fun j item => storeAt array (start + j) item.value
  | [], _, _, _, _ => rfl
  | expr :: rest, start, base, names, held => by
      have first := contained_operand scope expr
      rw [lowerEach, fillCode_cons, writesTo_append, writesTo_append,
        first.writesTo_of_earlier held, List.nil_append, writesTo_cons_self rfl, writesTo_nil,
        writesTo_fillCode rest (start + 1) (held.mono (Names.le_refl _) (first names).1),
        List.mapIdx_cons]
      simp only [List.singleton_append, Nat.add_zero, Nat.add_right_comm start _ 1, ← Nat.add_assoc]

/-- Code that puts expressions into a new array, and in it the instruction that
initialises the variable of the array and what the expressions are lowered to. -/
inductive Packs (scope : Scope) (names : Names) (array : Operand) :
    List Expr → Instr → List (Outcome Element) → List Instr → Prop where
  /-- Without items the variable is initialised by the allocation. -/
  | empty : initial = .set array (.newArray (numeral 0) array.ty) →
      Packs scope names array [] initial [] [initial]
  | filled : items = lowerEach scope (expr :: rest) (names.advanceTemp.advance .pack) →
      initial = .set array (.element (.operand fresh)) →
      Packs scope names array (expr :: rest) initial items
        (.set fresh (.newArray (numeral (rest.length + 1)) array.ty) :: initial ::
          fillCode array 0 items)

theorem code_pack_cons (elemTy : Ty) (item : Gen Element) (rest : List (Gen Element))
    (names : Names) :
    let fresh : Operand := ⟨names.nextTemp, .array elemTy⟩
    let array : Operand := ⟨names.advanceTemp.nextPack, .array elemTy⟩
    (pack elemTy (item :: rest) names).code =
      .set fresh (.newArray (.int (.ofNat (rest.length + 1))) (.array elemTy)) ::
        .set array (.element (.operand fresh)) ::
        (fill array 0 (item :: rest) (names.advanceTemp.advance .pack)).code := by
  intro fresh array
  show [_] ++ ([] ++ ([_] ++ (_ ++ []))) = _
  rw [List.append_nil]
  rfl

/-- Packing yields the variable of a new array, which it initialises and then
writes once for each item. -/
theorem packs_pack (scope : Scope) (exprs : List Expr) (small : exprs.length < 2147483648)
    (elemTy : Ty) (names : Names) :
    let outcome := pack elemTy (exprs.map (operand scope)) names
    ∃ array initial items, outcome.value = .operand array ∧ array.ty = .array elemTy ∧
      names.Generated outcome.names array.name ∧ items.length = exprs.length ∧
      Packs scope names array exprs initial items outcome.code ∧
      writesTo array.name outcome.code =
        initial :: items.mapIdx fun j item => storeAt array j item.value := by
  intro outcome
  cases exprs with
  | nil =>
      refine ⟨⟨names.nextTemp, .array elemTy⟩, _, [], rfl, rfl,
        Names.generated_nextTemp (Names.le_refl _), rfl, .empty rfl, ?_⟩
      exact writesTo_cons_self rfl []
  | cons expr rest =>
      let fresh : Operand := ⟨names.nextTemp, .array elemTy⟩
      let array : Operand := ⟨names.advanceTemp.nextPack, .array elemTy⟩
      let between := names.advanceTemp.advance .pack
      let items := lowerEach scope (expr :: rest) between
      have held : names.advanceTemp.Generated between array.name :=
        Names.generated_nextPack (Names.le_refl _)
      have code : outcome.code = .set fresh (.newArray (numeral (rest.length + 1)) array.ty) ::
          .set array (.element (.operand fresh)) :: fillCode array 0 items := by
        rw [← code_fill (expr :: rest) 0 between (by omega)]
        rw [List.length_cons] at small
        have code := code_pack_cons elemTy (operand scope expr) (rest.map (operand scope)) names
        rw [List.length_map, int_ofNat small] at code
        exact code
      have le : between ≤ outcome.names :=
        (containedAt_fill 0 (Names.le_advance _ _) held (contained_operands (expr :: rest))).1
      refine ⟨array, .set array (.element (.operand fresh)), items, rfl, rfl,
        held.mono (Names.le_advanceTemp _) le, length_lowerEach _ _, ?_, ?_⟩
      · rw [code]
        exact .filled rfl rfl
      · have other (rhs : Rhs) : (Instr.set fresh rhs).touched? ≠ some array.name :=
          fun same => Names.tempName_ne_packName _ _ (Option.some.inj same)
        rw [code, writesTo_cons_of_ne (other _), writesTo_cons_self rfl,
          writesTo_fillCode _ 0 held]
        simp only [Nat.zero_add]
        rfl

end

/-! ## Calls -/

/-- The call that an expression is lowered to, behind the code of its parts.  Where
its value is not used it is left to be made, and otherwise the last instruction
stores its result. -/
def EndsInCall (position : Position) (call : Call) (computation : List Instr)
    (outcome : Outcome (Except CompileError Lowered)) : Prop :=
  match position with
  | .statement => outcome.value = .ok (.bare (.call call)) ∧ outcome.code = computation
  | .operand | .rhs | .target => ∃ result, outcome.value = .ok (.value (.operand result)) ∧
      outcome.code = computation ++ [.set result (.call call)]

section
variable {scope : Scope} {receiver : Expr} {method : String} {args : List Expr}

theorem operand_call (ty : Source.Ty) :
    operand scope (.call receiver method args ty) = (do
      let call ← invoke scope receiver (operand scope receiver) method (args.map Expr.ty)
        (args.map (operand scope)) (.ofSource ty)
      Gen.store (.call call) call.ret) := by
  rw [operand, compute, operandsOf_eq_map, bind_assoc]
  simp only [map_eq_pure_bind, bind_assoc, pure_bind, Gen.settle, Gen.settleAs, bind_pure]
  rfl

/-- A call whose value is used is lowered in the same way everywhere. -/
theorem generate_call {position : Position} (used : position ≠ .statement) (ty : Source.Ty) :
    generate scope position (.call receiver method args ty) =
      Lowered.value <$> operand scope (.call receiver method args ty) := by
  have computed : compute scope (.call receiver method args ty) =
      .element <$> operand scope (.call receiver method args ty) := by
    rw [operand_call, compute, operandsOf_eq_map, map_bind]
    rfl
  exact Ordinary.generate_of_element ⟨fun _ => rfl, fun unused => absurd unused used⟩ computed

/-- A call is lowered to one that is made, or waits to be made, behind the code of
its receiver and arguments.  Nothing else is written behind that. -/
theorem endsInCall_lowerExpr (scope : Scope) (position : Position) (receiver : Expr)
    (method : String) (args : List Expr) (ty : Source.Ty) (names : Names) :
    ∃ otherRet,
      let made := invoke scope receiver (operand scope receiver) method (args.map Expr.ty)
        (args.map (operand scope)) otherRet names
      let outcome := (lowerExpr scope position (.call receiver method args ty)).run names
      EndsInCall position made.value made.code outcome ∧ made.names ≤ outcome.names ∧
      ∀ name, Names.Generated names made.names name →
        writesTo name outcome.code = writesTo name made.code := by
  by_cases unused : position = .statement
  · subst unused
    refine ⟨.void, ?_⟩
    rw [run_lowerExpr, generate, effect, Gen.map_apply, Gen.map_apply]
    exact ⟨⟨rfl, rfl⟩, Names.le_refl _, fun _ _ => rfl⟩
  · refine ⟨.ofSource ty, ?_⟩
    intro made
    let result : Operand := ⟨made.names.nextTemp, made.value.ret⟩
    obtain ⟨notes, stored⟩ : ∃ notes,
        (lowerExpr scope position (.call receiver method args ty)).run names =
          ⟨.ok (.value (.operand result)), made.code ++ [.set result (.call made.value)], notes,
            made.names.advanceTemp⟩ := by
      rw [run_lowerExpr, generate_call unused, Gen.map_apply, operand_call]
      exact ⟨_, rfl⟩
    rw [stored]
    refine ⟨?_, Names.le_advanceTemp _, fun name held => ?_⟩
    · cases position with
      | statement => exact absurd rfl unused
      | operand | rhs | target => exact ⟨result, rfl, rfl⟩
    · have other (rhs : Rhs) : (Instr.set result rhs).touched? ≠ some name := by
        intro same
        obtain rfl : made.names.nextTemp = name := Option.some.inj same
        exact held.not_later (Names.generated_nextTemp (Names.le_refl _))
      rw [writesTo_append, writesTo_cons_of_ne (other _), writesTo_nil, List.append_nil]

/-- The arguments of a call are passed as its method asks. -/
theorem invoke_of_callee? {entry : MethodEntry}
    (callee : CallSite.callee? scope ⟨receiver, method, args⟩ = some entry) (otherRet : Ty)
    (names : Names) :
    let object := reach scope receiver (operand scope receiver) method names
    let passed := passArgs entry (args.map Expr.ty) (args.map (operand scope)) object.names
    let made := invoke scope receiver (operand scope receiver) method (args.map Expr.ty)
      (args.map (operand scope)) otherRet names
    made.value.method = method ∧ made.value.args = passed.value ∧
      made.code = object.code ++ passed.code ∧ made.names = passed.names := by
  intro object passed made
  have own : (if object.value.isOwn then scope.symbols.method? method else none) = some entry := by
    rw [isOwn_reach names scope receiver (operand scope receiver) method
      (ty_operand scope receiver names)]
    exact callee
  refine ⟨rfl, ?_, ?_, ?_⟩
  · show (passArgs (m := Gen) (if object.value.isOwn then _ else none) _ _ _).value = _
    rw [own]
  · show object.code ++
      ((passArgs (m := Gen) (if object.value.isOwn then _ else none) _ _ _).code ++ []) = _
    rw [own, List.append_nil]
  · show (passArgs (m := Gen) (if object.value.isOwn then _ else none) _ _ _).names = _
    rw [own]

end

/-! ## Arguments of variadic methods -/

section
variable {entry : MethodEntry} {fixed : List Var} {last : Var}

/-- What is left over is packed, unless it is one array of the declared type. -/
theorem packing?_eq {argTys : List Source.Ty} (variadic : entry.isVariadic = true)
    (params : entry.params = fixed ++ [last]) (enough : fixed.length ≤ argTys.length) :
    packing? entry argTys =
      if argTys.length = fixed.length + 1 ∧ argTys.getLast? = some last.ty then none
      else some (fixed.length, last.ty.element) := by
  have passes_iff : argTys.drop fixed.length = [last.ty] ↔
      argTys.length = fixed.length + 1 ∧ argTys.getLast? = some last.ty := by
    rw [drop_eq_singleton_iff, List.getLast?_eq_getElem?]
    exact and_congr_right fun count => by rw [count, Nat.add_sub_cancel]
  rw [packing?_eq_collected?, Semantics.collected?, variadic, params, List.getLast?_concat,
    List.dropLast_concat]
  simp only [enough, true_and, ne_eq, ite_not, passes_iff]

variable {args : List Expr}

/-- An array of the declared type is passed on like the other arguments. -/
theorem passArgs_of_passes (scope : Scope) (variadic : entry.isVariadic = true)
    (params : entry.params = fixed ++ [last]) (enough : fixed.length ≤ args.length)
    (passes : args.length = fixed.length + 1 ∧ args.getLast?.map Expr.ty = some last.ty)
    (names : Names) :
    let passed := passArgs entry (args.map Expr.ty) (args.map (operand scope)) names
    passed.value = (lowerEach scope args names).map Outcome.value ∧
      passed.code = (lowerEach scope args names).flatMap Outcome.code := by
  rw [passArgs, Option.bind_some, packing?_eq variadic params (by simpa using enough),
    List.length_map, List.getLast?_map, if_pos passes]
  exact ⟨value_inOrder args names, code_inOrder args names⟩

/-- Otherwise the arguments left over are packed behind the others. -/
theorem passArgs_of_not_passes (scope : Scope) (variadic : entry.isVariadic = true)
    (params : entry.params = fixed ++ [last]) (enough : fixed.length ≤ args.length)
    (small : args.length < 2147483648)
    (packs : ¬ (args.length = fixed.length + 1 ∧ args.getLast?.map Expr.ty = some last.ty))
    (names : Names) :
    let passed := passArgs entry (args.map Expr.ty) (args.map (operand scope)) names
    let direct := lowerEach scope (args.take fixed.length) names
    ∃ array initial items pack,
      passed.value = direct.map Outcome.value ++ [.operand array] ∧
      array.ty = .array (.ofSource last.ty.element) ∧
      names.Generated passed.names array.name ∧
      items.length = args.length - fixed.length ∧
      Packs scope (supplyAfter names direct) array (args.drop fixed.length) initial items pack ∧
      passed.code = direct.flatMap Outcome.code ++ pack ∧
      writesTo array.name passed.code =
        initial :: items.mapIdx fun j item => storeAt array j item.value := by
  intro passed direct
  let front := Gen.inOrder ((args.take fixed.length).map (operand scope)) names
  let rear := pack (.ofSource last.ty.element) ((args.drop fixed.length).map (operand scope))
    front.names
  obtain ⟨value, code, after⟩ : passed.value = front.value ++ [rear.value] ∧
      passed.code = front.code ++ rear.code ∧ passed.names = rear.names := by
    simp only [passed, passArgs, Option.bind_some]
    rw [packing?_eq variadic params (by simpa using enough), List.length_map, List.getLast?_map,
      if_neg packs]
    simp only [← List.map_take, ← List.map_drop]
    exact ⟨rfl, congrArg (front.code ++ ·) (List.append_nil _), rfl⟩
  have contained : Contained (Gen.inOrder ((args.take fixed.length).map (operand scope))) :=
    .inOrder (contained_operands _)
  have fewer : (args.drop fixed.length).length < 2147483648 := by
    rw [List.length_drop]
    omega
  obtain ⟨array, initial, items, isArray, arrayTy, held, count, packed, writes⟩ :=
    packs_pack scope (args.drop fixed.length) fewer (.ofSource last.ty.element) front.names
  refine ⟨array, initial, items, rear.code, ?_, arrayTy, ?_, ?_, ?_, ?_, ?_⟩
  · rw [value, isArray, value_inOrder]
  · rw [after]
    exact held.mono (contained names).1 (Names.le_refl _)
  · rw [count, List.length_drop]
  · rw [← names_inOrder]
    exact packed
  · rw [code, code_inOrder]
  · rw [code, writesTo_append, contained.writesTo_of_later held, List.nil_append, writes]

end

/-- The arguments of a call to a variadic method with so many fixed parameters, as
long as their number fits in 32 bits.

The call passes one argument more than there are fixed parameters.  If one
argument is left over and has the type of the variadic parameter, all arguments
are passed as they are lowered, from left to right.  Otherwise the last one passed
is a variable of the packed array, and the code of the pack comes behind that of
the fixed arguments.  In all the code of the call that variable is written by its
initialisation, and then once for each packed argument. -/
theorem args_of_variadic_call (scope : Scope) (position : Position) (receiver : Expr)
    (method : String) (args : List Expr) (ty : Source.Ty) (names : Names) {entry : MethodEntry}
    {fixed : List Var} {last : Var}
    (callee : CallSite.callee? scope ⟨receiver, method, args⟩ = some entry)
    (variadic : entry.isVariadic = true) (params : entry.params = fixed ++ [last])
    (enough : fixed.length ≤ args.length) (small : args.length < 2147483648) :
    let outcome := (lowerExpr scope position (.call receiver method args ty)).run names
    let object := reach scope receiver (operand scope receiver) method names
    let passes := args.length = fixed.length + 1 ∧ args.getLast?.map Expr.ty = some last.ty
    ∃ call computation, EndsInCall position call computation outcome ∧ call.method = method ∧
      call.args.length = fixed.length + 1 ∧
      (passes →
        let all := lowerEach scope args object.names
        call.args = all.map Outcome.value ∧
        computation = object.code ++ all.flatMap Outcome.code) ∧
      (¬ passes →
        let direct := lowerEach scope (args.take fixed.length) object.names
        ∃ array initial items pack,
          call.args = direct.map Outcome.value ++ [.operand array] ∧
          array.ty = .array (.ofSource last.ty.element) ∧
          names.Generated outcome.names array.name ∧
          items.length = args.length - fixed.length ∧
          Packs scope (supplyAfter object.names direct) array (args.drop fixed.length) initial items
            pack ∧
          computation = object.code ++ direct.flatMap Outcome.code ++ pack ∧
          writesTo array.name outcome.code =
            initial :: items.mapIdx fun j item => storeAt array j item.value) := by
  intro outcome object passes
  obtain ⟨otherRet, ends, le, writes⟩ :=
    endsInCall_lowerExpr scope position receiver method args ty names
  obtain ⟨named, passed, code, after⟩ := invoke_of_callee? callee otherRet names
  refine ⟨_, _, ends, named, ?_⟩
  by_cases way : passes
  · obtain ⟨value, all⟩ := passArgs_of_passes scope variadic params enough way object.names
    rw [passed, code, value, all]
    refine ⟨?_, fun _ => ⟨rfl, rfl⟩, fun packs => absurd way packs⟩
    rw [List.length_map, length_lowerEach, way.1]
  · obtain ⟨array, initial, items, pack, value, arrayTy, held, count, packed, all, written⟩ :=
      passArgs_of_not_passes scope variadic params enough small way object.names
    have reached : Contained (reach scope receiver (operand scope receiver) method) :=
      .reach scope receiver method (contained_operand scope receiver)
    rw [← after] at held
    have own := held.mono (reached names).1 (Names.le_refl _)
    refine ⟨?_, fun passes => absurd passes way, fun _ => ⟨array, initial, items, pack,
      passed.trans value, arrayTy, own.mono (Names.le_refl _) le, count, packed, ?_, ?_⟩⟩
    · rw [passed, value, List.length_append, List.length_map, length_lowerEach, List.length_take,
        Nat.min_eq_left enough, List.length_singleton]
    · rw [code, all, List.append_assoc]
    · rw [writes _ own, code, writesTo_append, reached.writesTo_of_later held, List.nil_append,
        written]

/-- The method `int sum(int first, int... rest)`. -/
def sumEntry : MethodEntry where
  name := "sum"
  isStatic := false
  isVariadic := true
  ret := .int
  params := [⟨"first", .int⟩, ⟨"rest", .arrayOf "int"⟩]
  locals := []

def sumScope : Scope where
  symbols :=
    { className := "Foo", superName := none, imports := [], fields := .empty
      methods := .ofList MethodEntry.name [sumEntry] }
  method := sumEntry

/-- The arguments of `this.sum(1, this.sum(2, 3), 4)`, where one of those that are
packed packs an argument itself. -/
def sumArgs : List Expr :=
  [.intOf 1, .call (.thisOf "Foo") "sum" [.intOf 2, .intOf 3] .int, .intOf 4]

theorem args_of_variadic_call_sum :
    let outcome :=
      (lowerExpr sumScope .operand (.call (.thisOf "Foo") "sum" sumArgs .int)).run .fresh
    CallSite.callee? sumScope ⟨.thisOf "Foo", "sum", sumArgs⟩ = some sumEntry ∧
    (writesTo "__varargs_array_0" outcome.code).map Instr.text =
      ["__varargs_array_0.array.i32 :=.array.i32 tmp0.array.i32;",
        "__varargs_array_0[0.i32].i32 :=.i32 tmp2.i32;",
        "__varargs_array_0[1.i32].i32 :=.i32 4.i32;"] ∧
    ∃ call computation, EndsInCall .operand call computation outcome ∧ call.args.length = 2 ∧
      ∃ (array : Operand) (initial : Instr) (items : List (Outcome Element)),
        call.args.getLast? = some (.operand array) ∧ items.length = 2 ∧
        writesTo array.name outcome.code =
          initial :: items.mapIdx fun j item => storeAt array j item.value := by
  intro outcome
  have callee : CallSite.callee? sumScope ⟨.thisOf "Foo", "sum", sumArgs⟩ = some sumEntry := by
    decide
  have params : sumEntry.params = [⟨"first", .int⟩] ++ [⟨"rest", .arrayOf "int"⟩] := rfl
  obtain ⟨call, computation, ends, -, count, -, packs⟩ :=
    args_of_variadic_call sumScope .operand (.thisOf "Foo") "sum" sumArgs .int .fresh callee rfl
      params (by decide) (by decide)
  obtain ⟨array, initial, items, pack, args, -, -, length, -, -, writes⟩ := packs (by decide)
  refine ⟨callee, by decide +kernel, call, computation, ends, count, array, initial, items, ?_,
    length, writes⟩
  rw [args, List.getLast?_concat]

end MiniJava.Lowering
