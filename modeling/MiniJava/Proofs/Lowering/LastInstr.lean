import MiniJava.Proofs.Lowering.Path
import MiniJava.Proofs.Lowering.Variables

/-!
# Where the code of a method ends

The code of a method without result ends with a return.  So does the code of a
method whose last statement is a return, perhaps as the last statement of a
block.  Then control does not run off the code: every label marks an
instruction, every jump goes to a label, and no run gets stuck (`Enclosed`).

A conditional ends with a label, also if both of its branches return.  If a
method with a result ends with a conditional, nothing comes behind that label,
and the jump behind the second branch goes to the end of the code.
-/

namespace MiniJava

open Source (Expr Stmt Scope SymbolTable MethodDecl MethodEntry Program)
open Tac Semantics Lowering

/-! ## The ends of statements -/

mutual

/-- Whether a statement returns on every path: it is a return, a block whose last
statement returns on every path, or a conditional both branches of which do. -/
def alwaysReturns : Stmt → Bool
  | .ret _ => true
  | .block stmts => lastAlwaysReturns stmts
  | .ifElse _ thenBranch elseBranch => alwaysReturns thenBranch && alwaysReturns elseBranch
  | .assign _ _ | .whileLoop _ _ | .expr _ => false

def lastAlwaysReturns : List Stmt → Bool
  | [] => false
  | [stmt] => alwaysReturns stmt
  | _ :: next :: rest => lastAlwaysReturns (next :: rest)

end

mutual

/-- The statement that comes last in a statement, which is inside if that is a
block. -/
def tail? : Stmt → Option Stmt
  | .block stmts => tailOfAll? stmts
  | stmt => some stmt

def tailOfAll? : List Stmt → Option Stmt
  | [] => none
  | [stmt] => tail? stmt
  | _ :: next :: rest => tailOfAll? (next :: rest)

end

theorem tailOfAll?_of_getLast? : ∀ (stmts : List Stmt) {stmt : Stmt},
    stmts.getLast? = some stmt → tailOfAll? stmts = tail? stmt
  | [_], _, same => Option.some.inj same ▸ rfl
  | _ :: next :: rest, _, same => by
      rw [List.getLast?_cons_cons] at same
      exact tailOfAll?_of_getLast? (next :: rest) same

mutual

/-- What returns on every path ends with a return or with a conditional. -/
theorem tail?_of_alwaysReturns : ∀ stmt : Stmt, alwaysReturns stmt = true →
    (∃ value, tail? stmt = some (.ret value)) ∨
      ∃ cond thenBranch elseBranch, tail? stmt = some (.ifElse cond thenBranch elseBranch)
  | .ret value, _ => .inl ⟨value, rfl⟩
  | .ifElse cond thenBranch elseBranch, _ => .inr ⟨cond, thenBranch, elseBranch, rfl⟩
  | .block stmts, returns => tailOfAll?_of_lastAlwaysReturns stmts returns

theorem tailOfAll?_of_lastAlwaysReturns : ∀ stmts : List Stmt, lastAlwaysReturns stmts = true →
    (∃ value, tailOfAll? stmts = some (.ret value)) ∨
      ∃ cond thenBranch elseBranch, tailOfAll? stmts = some (.ifElse cond thenBranch elseBranch)
  | [stmt], returns => tail?_of_alwaysReturns stmt returns
  | _ :: next :: rest, returns => tailOfAll?_of_lastAlwaysReturns (next :: rest) returns

end

namespace Lowering

section
variable {scope : Scope}

mutual

/-- The code of a statement ends with the code of what comes last in it. -/
theorem gives_tail : ∀ (stmt : Stmt) {tail : Stmt} {names after : Names} {code : List Instr},
    tail? stmt = some tail → Gives (lowerStmt scope stmt) names () code after →
    ∃ before names' rest, Gives (lowerStmt scope tail) names' () rest after ∧ code = before ++ rest
  | .block stmts, _, _, _, _, same, gives => gives_tailOfAll stmts same gives
  | .assign _ _, _, _, _, _, same, gives | .ifElse _ _ _, _, _, _, _, same, gives
  | .whileLoop _ _, _, _, _, _, same, gives | .expr _, _, _, _, _, same, gives
  | .ret _, _, _, _, _, same, gives => by
      obtain rfl := Option.some.inj same
      exact ⟨[], _, _, gives, rfl⟩

theorem gives_tailOfAll : ∀ (stmts : List Stmt) {tail : Stmt} {names after : Names}
    {code : List Instr}, tailOfAll? stmts = some tail →
    Gives (lowerStmts scope stmts) names () code after →
    ∃ before names' rest, Gives (lowerStmt scope tail) names' () rest after ∧ code = before ++ rest
  | [stmt], _, _, _, _, same, gives => by
      obtain ⟨_, code, between, _, gives₁, finished, rfl⟩ := gives.bind
      obtain rfl : between = _ := finished.names_eq
      obtain rfl : [] = _ := finished.code_eq
      obtain ⟨before, names', rest, gives', rfl⟩ := gives_tail stmt same gives₁
      exact ⟨before, names', rest, gives', List.append_nil _⟩
  | _ :: next :: others, _, _, _, _, same, gives => by
      obtain ⟨_, code, between, _, -, gives₂, rfl⟩ := gives.bind
      obtain ⟨before, names', rest, gives', rfl⟩ :=
        gives_tailOfAll (next :: others) same gives₂
      exact ⟨code ++ before, names', rest, gives', by simp⟩

end

/-- The code of a return ends with a return. -/
theorem gives_ret {value : Option Expr} {names after : Names} {code : List Instr}
    (gives : Gives (lowerStmt scope (.ret value)) names () code after) :
    ∃ before result, code = before ++ [.ret (resultTy scope) result] := by
  rw [lowerStmt_ret] at gives
  obtain ⟨-, rfl, -⟩ := gives.lift
  rw [leave.eq_def]
  split
  · exact ⟨[], none, rfl⟩
  · split
    · exact ⟨[], none, rfl⟩
    · exact ⟨_, _, rfl⟩

/-- The code of a conditional ends with a label that it jumps to. -/
theorem gives_ifElse {cond : Expr} {thenBranch elseBranch : Stmt} {names after : Names}
    {code : List Instr}
    (gives : Gives (lowerStmt scope (.ifElse cond thenBranch elseBranch)) names () code after) :
    ∃ before id, code = before ++ [.label (.endIf id)] ∧ .goto (.endIf id) ∈ before := by
  rw [lowerStmt_ifElse] at gives
  obtain ⟨elseCode, between, thenCode, -, -, rfl⟩ := gives_conditional gives
  rw [twoWay, ← List.append_assoc]
  exact ⟨_, _, rfl, by simp⟩

end

end Lowering

/-! ## Jumps inside code -/

@[simp]
theorem targets_append (first second : List Instr) :
    targets (first ++ second) = targets first ++ targets second := by
  simp [targets]

@[simp]
theorem targets_cons (instr : Instr) (rest : List Instr) :
    targets (instr :: rest) = instr.target?.toList ++ targets rest := by
  cases h : instr.target? <;> simp [targets, h]

@[simp]
theorem targets_nil : targets [] = [] := rfl

/-- Code that jumps only to labels that it marks. -/
def JumpsInside (code : List Instr) : Prop := targets code ⊆ marks code

namespace JumpsInside

theorem of_isPlain {instr : Instr} (plain : instr.isPlain = true) : JumpsInside [instr] := by
  cases instr <;> simp_all [JumpsInside, Instr.isPlain, Instr.target?]

theorem append {first second : List Instr} (h : JumpsInside first) (h' : JumpsInside second) :
    JumpsInside (first ++ second) := by
  rw [JumpsInside, targets_append, marks_append]
  exact List.append_subset.mpr
    ⟨List.subset_append_of_subset_left _ h, List.subset_append_of_subset_right _ h'⟩

theorem twoWay {onFalse onTrue : List Instr} (h : JumpsInside onFalse) (h' : JumpsInside onTrue)
    (cond : Rhs) (yes done : Label) : JumpsInside (twoWay cond yes done onFalse onTrue) := by
  intro target mem
  simp only [Lowering.twoWay, targets_append, targets_cons, targets_nil, Instr.target?,
    Option.toList, marks_append, marks_cons, marks_nil, Instr.mark?] at mem ⊢
  have := @h target
  have := @h' target
  grind

theorem loopCode {body again : List Instr} (h : JumpsInside body) (h' : JumpsInside again)
    (cond cond' : Rhs) (start done : Label) :
    JumpsInside (loopCode cond start done body again cond') := by
  intro target mem
  simp only [Lowering.loopCode, loopHead, targets_append, targets_cons, targets_nil, Instr.target?,
    Option.toList, marks_append, marks_cons, marks_nil, Instr.mark?] at mem ⊢
  have := @h target
  have := @h' target
  grind

end JumpsInside

/-- Lowered code jumps only to labels that it marks. -/
def jumpSurvey (scope : Scope) : Survey scope noReading where
  Finds gen _ := ∀ names, JumpsInside (gen names).code
  pure _ _ := List.Subset.refl _
  bind h h' names := (h names).append (h' names _)
  note _ _ := List.Subset.refl _
  emit plain _ := .of_isPlain plain
  emitCall _ _ := List.Subset.refl _
  temp _ _ _ := List.Subset.refl _
  tempCall _ _ _ := List.Subset.refl _
  holder _ _ _ := List.Subset.refl _
  chosen _ h names := by
    rw [code_chosen]
    exact .twoWay (List.Subset.refl _) ((h _).append (List.Subset.refl _)) _ _ _
  Yields attempt _ := ∀ names code after, Gives attempt names () code after → JumpsInside code
  lift h names _ _ gives := by
    obtain ⟨-, rfl, -⟩ := gives.lift
    exact h names
  throw _ _ _ _ _ gives := by cases gives.value_eq
  lift_bind h h' names _ _ gives := by
    obtain ⟨_, gives', rfl⟩ := gives.lift_bind
    exact (h names).append (h' names _ _ _ gives')
  andThen h h' _ _ _ gives := by
    obtain ⟨_, _, _, _, gives₁, gives₂, rfl⟩ := gives.bind
    exact (h _ _ _ gives₁).append (h' _ _ _ gives₂)
  conditional h hthen helse names _ _ gives := by
    obtain ⟨_, _, _, givesElse, givesThen, rfl⟩ := gives_conditional gives
    exact (h names).append (.twoWay (helse _ _ _ givesElse) (hthen _ _ _ givesThen) _ _ _)
  loop h hbody names _ _ gives := by
    obtain ⟨_, _, gives', -, rfl⟩ := gives_loop gives
    exact (h names).append (.loopCode (hbody _ _ _ gives') (h _) _ _ _ _)

/-! ## Code that control does not leave -/

/-- The instruction that a position stands for, which is the first one from there
that is not a label. -/
def instrFrom? (code : List Instr) (place : Nat) : Option Instr :=
  (code.drop place).find? fun instr => instr.mark?.isNone

/-- Code that ends with a return, so that control leaves it by returns and faults
alone. -/
structure Enclosed (code : List Instr) : Prop where
  last : ∃ before ty value, code = before ++ [.ret ty value]
  /-- Every label marks an instruction. -/
  labels : ∀ place mark, code[place]? = some (.label mark) → (instrFrom? code place).isSome
  /-- Every jump goes to an instruction. -/
  jumps : ∀ target ∈ targets code, ∃ place, placeOf? code target = some place ∧
    (instrFrom? code place).isSome
  /-- Every run from the first instruction can go on until it returns or fails. -/
  runs : ∀ {Callee Field : Type} [DecidableEq Field] (platform : Platform Callee Field)
    (start config : Config Callee Field), start.pc = 0 → Steps platform code start config →
    step platform code config ≠ .stuck

section
variable {code : List Instr} {place : Nat} {target : Label}

theorem exists_placeOf?_of_mem_marks (mem : target ∈ marks code) :
    ∃ place, placeOf? code target = some place := by
  obtain ⟨instr, inside, marked⟩ := List.mem_filterMap.mp mem
  rw [← Option.isSome_iff_exists, placeOf?, List.findIdx?_isSome, List.any_eq_true]
  refine ⟨instr, inside, ?_⟩
  cases instr <;> simp_all [Instr.mark?, marksText]

theorem lt_length_of_placeOf? (found : placeOf? code target = some place) :
    place < code.length :=
  (List.findIdx?_eq_some_iff_findIdx_eq.mp found).1

theorem mem_targets {instr : Instr} (here : code[place]? = some instr)
    (jumps : instr.target? = some target) : target ∈ targets code :=
  List.mem_filterMap.mpr ⟨instr, List.mem_of_getElem? here, jumps⟩

end

section
variable {before : List Instr} {ty : Ty} {value : Option Element} {place : Nat}

/-- Behind every position there is an instruction: the return, if no other. -/
theorem isSome_instrFrom? (inside : place < (before ++ [Instr.ret ty value]).length) :
    (instrFrom? (before ++ [.ret ty value]) place).isSome := by
  rw [instrFrom?, List.find?_isSome]
  have le : place ≤ before.length := by simpa [Nat.lt_succ_iff] using inside
  rw [List.drop_append_of_le_length le]
  exact ⟨.ret ty value, by simp, rfl⟩

/-- Control goes from one instruction to another. -/
theorem lt_length_of_mem_successors {instr : Instr} {next : Nat}
    (here : (before ++ [Instr.ret ty value])[place]? = some instr)
    (mem : next ∈ successors (before ++ [.ret ty value]) place instr) :
    next < (before ++ [Instr.ret ty value]).length := by
  have inside := (List.getElem?_eq_some_iff.mp here).1
  -- Only the return stands at the end, and it has no successor.
  have onward (other : instr ≠ .ret ty value) :
      place + 1 < (before ++ [Instr.ret ty value]).length := by
    rw [List.length_append, List.length_singleton] at inside ⊢
    rcases Nat.lt_or_eq_of_le (Nat.lt_succ_iff.mp inside) with lt | rfl
    · exact Nat.succ_lt_succ lt
    · rw [List.getElem?_concat_length] at here
      exact absurd (Option.some.inj here).symm other
  cases instr with
  | goto target => exact lt_length_of_placeOf? (Option.mem_toList.mp mem)
  | branch cond target =>
      rcases List.mem_cons.mp mem with rfl | mem
      · exact onward nofun
      · exact lt_length_of_placeOf? (Option.mem_toList.mp mem)
  | ret _ _ => cases mem
  | assign _ _ _ | putField _ _ _ | call _ | label _ =>
      obtain rfl := List.mem_singleton.mp mem
      exact onward nofun

theorem lt_length_of_path {passed : List Instr}
    (path : Path (before ++ [.ret ty value]) passed place) :
    place < (before ++ [Instr.ret ty value]).length := by
  cases path with
  | start => simp
  | step _ here mem => exact lt_length_of_mem_successors here mem

end

/-- A step is stuck only at the end of the code or at a jump to nowhere. -/
theorem step_ne_stuck {Callee Field : Type} [DecidableEq Field]
    {platform : Platform Callee Field} {code : List Instr} {config : Config Callee Field}
    (inside : config.pc < code.length)
    (jumps : ∀ target ∈ targets code, ∃ place, placeOf? code target = some place) :
    step platform code config ≠ .stuck := by
  have here := List.getElem?_eq_getElem inside
  have goes {target : Label} (aims : code[config.pc].target? = some target) (store world) :
      jump code target store world ≠ (.stuck : Semantics.Outcome Callee Field) := by
    obtain ⟨place, found⟩ := jumps target (mem_targets here aims)
    simp [jump, found]
  rw [step, here]
  cases same : code[config.pc] with
  | goto target => exact goes (by rw [same]; rfl) _ _
  | branch cond target =>
      have goes := @goes target (by rw [same]; rfl)
      simp only
      split
      · exact goes _ _
      · simp
      · simp
  | ret _ _ => simp
  | assign _ _ _ | putField _ _ _ | call _ | label _ =>
      simp only
      split <;> simp

/-- Code that jumps to its own labels is enclosed if it ends with a return. -/
theorem JumpsInside.enclosed {before : List Instr} {ty : Ty} {value : Option Element}
    (h : JumpsInside (before ++ [.ret ty value])) : Enclosed (before ++ [.ret ty value]) where
  last := ⟨before, ty, value, rfl⟩
  labels _ _ here := isSome_instrFrom? (List.getElem?_eq_some_iff.mp here).1
  jumps target mem := by
    obtain ⟨place, found⟩ := exists_placeOf?_of_mem_marks (h mem)
    exact ⟨place, found, isSome_instrFrom? (lt_length_of_placeOf? found)⟩
  runs platform start config first steps := by
    obtain ⟨passed, path⟩ := path_of_steps steps first
    exact step_ne_stuck (lt_length_of_path path) fun target mem =>
      exists_placeOf?_of_mem_marks (h mem)

namespace Lowering

theorem jumpsInside_closing (scope : Scope) (body : List Stmt) :
    JumpsInside (closing scope body) := by
  rw [closing]
  split
  · exact .of_isPlain rfl
  · exact List.Subset.refl _

section
variable {scope : Scope} {body : List Stmt} {names after : Names} {code : List Instr}

theorem gives_return {value : Option Expr} (tail : tailOfAll? body = some (.ret value))
    (gives : Gives (lowerStmts scope body) names () code after) :
    ∃ before result, code = before ++ [.ret (resultTy scope) result] := by
  obtain ⟨before, _, rest, gives', rfl⟩ := gives_tailOfAll body tail gives
  obtain ⟨before', result, rfl⟩ := gives_ret gives'
  exact ⟨before ++ before', result, (List.append_assoc ..).symm⟩

/-- A method without result ends with a return: its own, or else one more. -/
theorem return_of_isVoid (void : (resultTy scope).isVoid = true)
    (gives : Gives (lowerStmts scope body) names () code after) :
    ∃ before ty result, code ++ closing scope body = before ++ [.ret ty result] := by
  rw [closing, void, Bool.true_and]
  cases last : body.getLast? with
  | none => exact ⟨code, .void, none, rfl⟩
  | some stmt =>
      cases stmt with
      | ret value =>
          obtain ⟨before, result, rfl⟩ := gives_return (tailOfAll?_of_getLast? body last) gives
          exact ⟨before, _, result, List.append_nil _⟩
      | assign _ _ | ifElse _ _ _ | whileLoop _ _ | expr _ | block _ =>
          exact ⟨code, .void, none, rfl⟩

/-- A method that ends with a conditional ends with a label that it jumps to. -/
theorem endIf_of_tail {cond : Expr} {thenBranch elseBranch : Stmt}
    (tail : tailOfAll? body = some (.ifElse cond thenBranch elseBranch))
    (gives : Gives (lowerStmts scope body) names () code after) :
    ∃ id, code.getLast? = some (.label (.endIf id)) ∧ .endIf id ∈ targets code := by
  obtain ⟨before, _, rest, gives', rfl⟩ := gives_tailOfAll body tail gives
  obtain ⟨before', id, rfl, mem⟩ := gives_ifElse gives'
  refine ⟨id, by rw [← List.append_assoc, List.getLast?_concat], ?_⟩
  exact List.mem_filterMap.mpr ⟨.goto (.endIf id), by simp [mem], rfl⟩

end

/-- The code of a method that returns on every path, or has no result, is enclosed
exactly if it has no result or its last statement is a return, perhaps in a
block.  Otherwise its code ends with a label that a jump goes to. -/
theorem enclosed_iff_of_lowerMethod (symbols : SymbolTable) (decl : MethodDecl) (names : Names)
    {entry : MethodEntry} {method : Method} (found : symbols.method? decl.name = some entry)
    (accepted : ((lowerMethod symbols decl).run names).value = .ok method)
    (returns : (resultTy ⟨symbols, entry⟩).isVoid = true ∨ lastAlwaysReturns decl.body = true) :
    let atReturn := (resultTy ⟨symbols, entry⟩).isVoid || (tailOfAll? decl.body).any Stmt.isReturn
    (Enclosed method.body ↔ atReturn = true) ∧
    (atReturn = false → ∃ id, method.body.getLast? = some (.label (.endIf id)) ∧
      .endIf id ∈ targets method.body) := by
  obtain ⟨code, after, gives, body⟩ := body_of_lowerMethod found accepted
  have inside : JumpsInside method.body := by
    rw [body]
    exact ((jumpSurvey _).yields_lowerStmts decl.body names code after gives).append
      (jumpsInside_closing _ _)
  have enclosed : (∃ before ty result, method.body = before ++ [.ret ty result]) →
      Enclosed method.body := by
    rintro ⟨before, ty, result, same⟩
    rw [same] at inside ⊢
    exact inside.enclosed
  cases void : (resultTy ⟨symbols, entry⟩).isVoid with
  | true =>
      rw [body] at enclosed ⊢
      exact ⟨iff_of_true (enclosed (return_of_isVoid void gives)) rfl, by simp⟩
  | false =>
      rw [void, Bool.false_eq_true, false_or] at returns
      have body : method.body = code := by
        rw [body, closing, void, Bool.false_and, if_neg Bool.false_ne_true, List.append_nil]
      rw [Bool.false_or]
      rcases tailOfAll?_of_lastAlwaysReturns decl.body returns with
        ⟨value, tail⟩ | ⟨cond, thenBranch, elseBranch, tail⟩
      · obtain ⟨before, result, same⟩ := gives_return tail gives
        rw [tail]
        exact ⟨iff_of_true (enclosed ⟨before, _, result, body.trans same⟩) rfl,
          by simp [Stmt.isReturn]⟩
      · obtain ⟨id, last, mem⟩ := endIf_of_tail tail gives
        rw [tail, body]
        refine ⟨iff_of_false (fun h => ?_) (by simp [Stmt.isReturn]), fun _ => ⟨id, last, mem⟩⟩
        obtain ⟨before, ty, result, same⟩ := h.last
        rw [same, List.getLast?_concat] at last
        cases last

/-- The method `ret choose(boolean first) { if (first) return one; else return two; }`,
for a chosen result. -/
def chooseDecl (ret : Source.Ty) (one two : Option Expr) : MethodDecl where
  name := "choose"
  isPublic := true
  isStatic := false
  params := [.plain "first" .boolean]
  ret := ret
  locals := []
  body := [.ifElse (.var "first" .boolean) (.ret one) (.ret two)]

def chooseProgram (ret : Source.Ty) (one two : Option Expr) : Program :=
  ⟨[], ⟨"Foo", none, [], [chooseDecl ret one two]⟩⟩

/-- The label behind the loop of `climb` marks its return, and without a result
the return that is added comes behind the label of `choose`. -/
theorem enclosed_iff_of_lowerMethod_climb :
    let quiet := chooseDecl .void none none
    (∃ method, ((lowerMethod climbSymbols climb).run .fresh).value = .ok method ∧
      Enclosed method.body) ∧
    ∃ method, ((lowerMethod (.collect (chooseProgram .void none none)) quiet).run .fresh).value =
      .ok method ∧ Enclosed method.body := by
  have ok : ((lowerMethod climbSymbols climb).run .fresh).value.isOk = true := by decide +kernel
  have ok' : ((lowerMethod (.collect (chooseProgram .void none none))
      (chooseDecl .void none none)).run .fresh).value.isOk = true := by decide +kernel
  constructor
  · cases accepted : ((lowerMethod climbSymbols climb).run .fresh).value with
    | error error => rw [accepted] at ok; cases ok
    | ok method =>
        exact ⟨method, rfl,
          (enclosed_iff_of_lowerMethod _ _ _ rfl accepted (.inr rfl)).1.mpr (by decide)⟩
  · cases accepted : ((lowerMethod (.collect (chooseProgram .void none none))
        (chooseDecl .void none none)).run .fresh).value with
    | error error => rw [accepted] at ok'; cases ok'
    | ok method =>
        exact ⟨method, rfl,
          (enclosed_iff_of_lowerMethod _ _ _ rfl accepted (.inl rfl)).1.mpr (by decide)⟩

/-- With a result nothing comes behind the label of `choose`, although both
branches return, and the code jumps there. -/
theorem not_enclosed_of_lowerMethod_choose :
    let one := Expr.intOf 1
    let two := Expr.intOf 2
    let decl := chooseDecl .int one two
    let body := ((lowerMethod (.collect (chooseProgram .int one two)) decl).run .fresh).value.map
      Method.body
    lastAlwaysReturns decl.body = true ∧
    body.map (List.map Instr.text) =
      .ok ["if(first.bool) goto if_0;", "ret.i32 2.i32;", "goto endif_0;", "if_0:",
        "ret.i32 1.i32;", "endif_0:"] ∧
    body.map (fun code => (code.getLast?.map Instr.isReturn,
      (placeOf? code (.endIf 0)).map (instrFrom? code))) = .ok (some false, some none) := by
  decide +kernel

end Lowering

end MiniJava
