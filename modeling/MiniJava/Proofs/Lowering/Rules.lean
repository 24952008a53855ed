import Mathlib.Data.List.Forall2
import MiniJava.Proofs.Lowering.Simulation
import MiniJava.Proofs.Numeral
import MiniJava.Proofs.Semantics.Source

/-!
# Rules of lowering

Each rule of lowering works on generators for the parts of a construct.  It is
matched here with the rule of evaluation for the same construct, over any parts
that match (`Simulates`).

Operands are handed back as names and read later.  That they still hold their
values is `Steady`: source variables are not reserved names, and no temporary
is handed out twice.
-/

namespace MiniJava.Lowering

open Tac Semantics

/-! ## Agreement of variables -/

/-- Variables of source code, none of which lowering invents. -/
structure Visible where
  shows : String → Prop
  apart : ∀ name, shows name → ¬ Names.Reserved name

/-- The receiver, and the visible variables, are as in the source. -/
structure Agrees (visible : Visible) (env : Env) (store : Store) : Prop where
  receiver : store thisName = env.receiver
  locals : ∀ name, visible.shows name → store name = env.locals name

theorem thisName_not_reserved : ¬ Names.Reserved thisName :=
  Names.not_reserved (by decide) (by decide)

theorem Agrees.frame {visible : Visible} {env : Env} {before after : Names}
    {store store' : Store}
    (agrees : Agrees visible env store) (frame : Frame before after store store') :
    Agrees visible env store' where
  receiver := by
    rw [frame thisName fun generated => thisName_not_reserved generated.reserved,
      agrees.receiver]
  locals name hname := by
    rw [frame name fun generated => visible.apart name hname generated.reserved,
      agrees.locals name hname]

/-! ## Constants -/

section
variable {Callee Field : Type} (platform : Platform Callee Field) (store : Store)

@[simp]
theorem element_int (value : Int32) : platform.element store (.int value) = .int value := by
  have read : (Literal.int value).toInt? = some value := Numeral.read?_write value
  show Value.int ((Literal.int value).toInt?.getD 0) = .int value
  rw [read, Option.getD_some]

@[simp]
theorem element_bool (value : Bool) :
    platform.element store (.bool value) = .ofBool value := by
  cases value <;> rfl

end

/-! ## Truth values made by control flow -/

/-- Testing a comparison and making a truth value of the outcome. -/
theorem chosen_less {Callee Field : Type} (first second : Value) :
    (do if ← binary .lt first second >>= Exec.truth then return Value.ofBool true
        else return Value.ofBool false : Exec Callee Field Value) =
      (do return Value.ofBool (← Exec.less first second)) := by
  cases first with
  | int first =>
      cases second with
      | int second =>
          by_cases h : first < second
          · simp [binary, Exec.less, Exec.truth, Value.ofBool, h]
          · simp [binary, Exec.less, Exec.truth, Value.ofBool, h]
      | _ => rfl
  | _ => rfl

section
variable {Callee Field : Type} [DecidableEq Field] {platform : Platform Callee Field}
  {names : Names} {store : Store}

/-- The supply with which the true case of a truth value is lowered. -/
def chosenNames (names : Names) : Names := ((names.advance .onTrue).advanceTemp).advance .join

theorem le_chosenNames (names : Names) : names.advanceTemp ≤ chosenNames names :=
  ⟨Nat.le_refl _, fun family => by
    cases family <;> simp [chosenNames, Names.advance, Names.advanceTemp, Names.next]⟩

/-- The code of a truth value made by control flow. -/
theorem code_chosen (cond : Rhs) (onTrue : Gen Element) (names : Names) :
    (chosen cond onTrue names).code =
      let result : Operand := ⟨names.nextTemp, .bool⟩
      let taken := onTrue (chosenNames names)
      twoWay cond (.numbered .onTrue names.onTrue) (.numbered .join names.join)
        [.set result (.element (.bool false))]
        (taken.code ++ [.set result (.element taken.value)]) := by
  simp only [twoWay, List.cons_append, List.append_assoc]
  rfl

/-- The labels of a truth value are new. -/
theorem twoWay_chosen {cond : Rhs} {onTrue : Gen Element} (tidy : Tidy onTrue)
    {program before : List Instr}
    (placed : Placed program names before (chosen cond onTrue names).code) :
    let result : Operand := ⟨names.nextTemp, .bool⟩
    let taken := onTrue (chosenNames names)
    TwoWay program names before cond (.numbered .onTrue names.onTrue)
      (.numbered .join names.join) [.set result (.element (.bool false))]
      (taken.code ++ [.set result (.element taken.value)]) where
  placed := code_chosen cond onTrue names ▸ placed
  freshYes := Label.not_below_next names .onTrue
  freshDone := Label.not_below_next names .join
  distinct := by simp
  yesFalse := by simp [Instr.mark?, Instr.set]
  doneFalse := by simp [Instr.mark?, Instr.set]
  doneTrue := by
    have below : (Label.numbered .join names.join).Below (chosenNames names) :=
      Label.below_advance ((names.advance .onTrue).advanceTemp) .join
    have absent : Label.numbered .join names.join ∉ marks (onTrue (chosenNames names)).code :=
      fun hmem => ((tidy _).2 _ hmem).1 below
    simpa [Instr.mark?, Instr.set] using absent

/-- If the test holds the value is that of the code for the true case. -/
theorem lowers_chosen {cond : Rhs} {onTrue : Gen Element}
    {whenTrue : Exec Callee Field Value} (tidy : Tidy onTrue)
    (h : Lowers platform (readElement platform) (chosenNames names) store onTrue whenTrue) :
    Lowers platform (readElement platform) names store (chosen cond onTrue)
      (do if ← platform.test store cond then whenTrue else return .ofBool false) := by
  let result : Operand := ⟨names.nextTemp, .bool⟩
  let taken := onTrue (chosenNames names)
  have le : names ≤ chosenNames names :=
    Names.le_trans (Names.le_advanceTemp _) (le_chosenNames names)
  have later : names.advanceTemp ≤ taken.names :=
    Names.le_trans (le_chosenNames names) (tidy _).1
  have generated : Names.Generated names taken.names result.name :=
    Names.generated_nextTemp later
  refine ⟨?_, fun program before world placed => ?_⟩
  · intro after s s' frame
    refine congrArg Pure.pure (frame result.name ?_)
    exact Names.not_generated_tempName (Nat.lt_of_lt_of_le (Nat.lt_succ_self names.temp) later.1)
  have branches := twoWay_chosen tidy placed
  rw [code_chosen]
  rcases test : platform.test store cond world with ⟨fault | _ | _, after⟩
  · exact Runs.fault (step_branch_error branches.placed.head test)
      ⟨Frame.refl _ _ _, Exec.bind_of_error test _⟩
  · have here := (branches.inFalse (Names.le_refl _)).head
    let store' := Function.update store result.name (platform.element store (.bool false))
    have leave : Steps platform program ⟨_, store', after⟩ _ := branches.leaveFalse
    rw [List.length_append] at leave
    refine Runs.steps (branches.skip test) (Runs.step (step_assign here rfl)
      (Runs.steps leave (Runs.done ⟨rfl, (Frame.refl _ _ _).update generated _, ?_⟩)))
    have value : store' result.name = .ofBool false :=
      (Function.update_self ..).trans (element_bool platform store false)
    rw [Exec.bind_of_ok test]
    exact congrArg (fun value => (Except.ok value, after)) value
  · have placedTrue := branches.inTrue le
      ((Label.below_advance names .onTrue).mono
        (Names.le_trans (Names.le_advanceTemp _) (Names.le_advance _ _)))
      (by simp [Instr.mark?, Instr.set])
    have here := placedTrue.instrAt
    rw [← List.length_append] at here
    refine Runs.steps (branches.take test)
      (Runs.bind (h.runs program _ after placedTrue.left) ?_ ?_)
    · rintro ⟨pc, between, world'⟩ ⟨atEnd, frame, value⟩
      subst atEnd
      let store' := Function.update between result.name (platform.element between taken.value)
      have leave : Steps platform program ⟨_, store', world'⟩ _ := branches.leaveTrue
      rw [← List.append_assoc, List.length_append] at leave
      refine Runs.step (step_assign here rfl) (Runs.steps leave (Runs.done ⟨rfl, ?_, ?_⟩))
      · exact (frame.mono le (Names.le_refl _)).update generated _
      · rw [Exec.bind_of_ok test]
        refine .trans ?_ value
        exact congrArg (fun value => (Except.ok value, world')) (Function.update_self ..)
    · rintro store' fault last ⟨frame, failed⟩
      refine ⟨frame.mono le (Names.le_refl _), ?_⟩
      rw [Exec.bind_of_ok test]
      exact failed

/-! ## Generators that simulate an effect -/

/-- A tidy generator that lowers an effect wherever the visible variables are
as in the source. -/
structure Simulates {α β : Type} (platform : Platform Callee Field)
    (visible : Visible) (env : Env) (read : α → Store → Exec Callee Field β)
    (gen : Gen α) (effect : Exec Callee Field β) : Prop where
  tidy : Tidy gen
  lowers : ∀ names store, Agrees visible env store →
    Lowers platform read names store gen effect

namespace Simulates

variable {α β γ δ α' β' : Type} {visible : Visible} {env : Env}
  {read : α → Store → Exec Callee Field β} {effect : Exec Callee Field β}

theorem pure {value : α} (steady : ∀ names, Steady read value names)
    (same : ∀ store, Agrees visible env store → read value store = effect) :
    Simulates platform visible env read (Pure.pure value) effect where
  tidy := .pure value
  lowers names store agrees := .pure (steady names) fun world => by rw [same store agrees]

theorem map {read' : γ → Store → Exec Callee Field β} {gen : Gen α} {f : α → γ}
    (h : Simulates platform visible env read gen effect)
    (same : ∀ value store, read' (f value) store = read value store) :
    Simulates platform visible env read' (f <$> gen) effect where
  tidy := h.tidy.map f
  lowers names store agrees := (h.lowers names store agrees).map fun store => same _ store

theorem settle {gen : Gen Rhs} {effect : Exec Callee Field Value}
    (h : Simulates platform visible env (readRhs platform) gen effect) :
    Simulates platform visible env (readElement platform) (gen >>= Gen.settle) effect where
  tidy := h.tidy.bind tidy_settle
  lowers names store agrees := (h.lowers names store agrees).settle h.tidy

theorem toVariable {gen : Gen Element} {effect : Exec Callee Field Value}
    (h : Simulates platform visible env (readElement platform) gen effect) :
    Simulates platform visible env readVariable (gen >>= Gen.toVariable) effect where
  tidy := h.tidy.bind tidy_toVariable
  lowers names store agrees := (h.lowers names store agrees).toVariable h.tidy

/-- What comes next may use the value as long as it is steady. -/
theorem bind {read' : γ → Store → Exec Callee Field δ} {gen : Gen α} {next : α → Gen γ}
    {cont : β → Exec Callee Field δ}
    (h : Simulates platform visible env read gen effect) (tidy : ∀ value, Tidy (next value))
    (h' : ∀ value names store, Agrees visible env store → Steady read value names →
      Lowers platform read' names store (next value) (read value store >>= cont)) :
    Simulates platform visible env read' (gen >>= next) (effect >>= cont) where
  tidy := h.tidy.bind tidy
  lowers names store agrees := by
    have first := h.lowers names store agrees
    refine first.bind h.tidy (tidy _) fun store' frame => ?_
    exact h' _ _ _ (agrees.frame frame) first.steady

/-- What is handed back is made of a value without more code. -/
theorem andThen {get : α → Store → β} {gen : Gen α} {f : α → γ}
    {read' : γ → Store → Exec Callee Field δ} {cont : β → Exec Callee Field δ}
    (h : Simulates platform visible env (fun value store => Pure.pure (get value store))
      gen effect)
    (same : ∀ value store, read' (f value) store = cont (get value store)) :
    Simulates platform visible env read' (f <$> gen) (effect >>= cont) := by
  rw [map_eq_pure_bind]
  refine h.bind (fun _ => .pure _) ?_
  intro value names store _ steady
  refine .pure (fun _ _ _ frame => ?_) fun _ => ?_
  · rw [same, same, Exec.pure_inj (steady frame)]
  · rw [same, pure_bind]

/-- Two parts, each of which leaves a value that does not depend on the world
any more: the value of the first one outlasts the code of the second one. -/
theorem bind₂ {get : α → Store → β} {get' : α' → Store → β'}
    {read : γ → Store → Exec Callee Field δ} {gen : Gen α} {gen' : Gen α'}
    {next : α → α' → Gen γ} {effect' : Exec Callee Field β'}
    {cont : β → β' → Exec Callee Field δ}
    (h : Simulates platform visible env (fun value store => Pure.pure (get value store))
      gen effect)
    (h' : Simulates platform visible env (fun value store => Pure.pure (get' value store))
      gen' effect')
    (tidy : ∀ value value', Tidy (next value value'))
    (h'' : ∀ value value' names store, Agrees visible env store → Steady get value names →
      Steady get' value' names → Lowers platform read names store (next value value')
        (cont (get value store) (get' value' store))) :
    Simulates platform visible env read
      (do let value ← gen
          let value' ← gen'
          next value value')
      (do let result ← effect
          let result' ← effect'
          cont result result') := by
  refine h.bind (fun value => h'.tidy.bind (tidy value)) ?_
  intro value names store agrees steady
  rw [pure_bind]
  have second := h'.lowers names store agrees
  have le := (h'.tidy names).1
  refine second.bind h'.tidy (tidy value _) fun store' frame => ?_
  rw [pure_bind, ← Exec.pure_inj (steady frame)]
  exact h'' _ _ _ _ (agrees.frame frame)
    (fun _ _ _ frame => Exec.pure_inj (steady (frame.mono le (Names.le_refl _))))
    (fun _ _ _ frame => Exec.pure_inj (second.steady frame))

end Simulates

/-! ## Operations -/

section
variable {visible : Visible} {env : Env} {lhs rhs : Gen Element}
  {left right : Exec Callee Field Value}

theorem simulates_arith (op : Arith)
    (h : Simulates platform visible env (readElement platform) lhs left)
    (h' : Simulates platform visible env (readElement platform) rhs right) :
    Simulates platform visible env (readRhs platform)
      (do let first ← lhs
          let second ← rhs
          return .binary (.arith op) first second)
      (do let first ← left
          let second ← right
          Exec.arith op first second) := by
  refine h.bind₂ h' (fun _ _ => .pure _) ?_
  intro first second names store _ steady steady'
  refine .pure (fun _ _ _ frame => ?_) fun _ => rfl
  exact congrArg₂ (Exec.arith op) (steady frame) (steady' frame)

theorem simulates_conjunction
    (h : Simulates platform visible env (readElement platform) lhs left)
    (h' : Simulates platform visible env (readElement platform) rhs right) :
    Simulates platform visible env (readElement platform) (conjunction lhs rhs)
      (do let value ← left
          if ← Exec.truth value then right else return .ofBool false) :=
  h.bind (fun _ => tidy_chosen _ h'.tidy) fun _ _ store agrees _ =>
    lowers_chosen h'.tidy (h'.lowers _ store agrees)

theorem simulates_comparison
    (h : Simulates platform visible env (readElement platform) lhs left)
    (h' : Simulates platform visible env (readElement platform) rhs right) :
    Simulates platform visible env (readElement platform) (comparison lhs rhs)
      (do let first ← left
          let second ← right
          return .ofBool (← Exec.less first second)) := by
  refine h.bind₂ h' (fun _ _ => tidy_chosen _ (.pure _)) ?_
  intro first second names store agrees _ _
  rw [← chosen_less]
  refine lowers_chosen (.pure _) (.pure (fun _ _ _ _ => ?_) fun world => ?_)
  · simp [readElement]
  · simp [readElement]

/-! ## Lists of operands -/

/-- Generators that simulate the effects at the same positions. -/
abbrev SimulatesEach (platform : Platform Callee Field) (visible : Visible) (env : Env) :
    List (Gen Element) → List (Exec Callee Field Value) → Prop :=
  List.Forall₂ (Simulates platform visible env (readElement platform))

theorem SimulatesEach.tidy {items : List (Gen Element)}
    {effects : List (Exec Callee Field Value)}
    (h : SimulatesEach platform visible env items effects) : ∀ item ∈ items, Tidy item := by
  induction h with
  | nil => intro item hmem; cases hmem
  | cons first _ ih =>
      intro item hmem
      rcases List.mem_cons.mp hmem with rfl | hmem
      · exact first.tidy
      · exact ih item hmem

theorem simulates_inOrder
    {items : List (Gen Element)} {effects : List (Exec Callee Field Value)}
    (h : SimulatesEach platform visible env items effects) :
    Simulates platform visible env (readElements platform) (Gen.inOrder items)
      (Exec.inOrder effects) := by
  induction h with
  | nil => exact .pure (fun _ _ _ _ _ => rfl) fun _ _ => rfl
  | cons first _ ih =>
      refine first.bind₂ ih (fun _ _ => .pure _) ?_
      intro value values names store _ steady steadys
      refine .pure (fun _ _ _ frame => ?_) fun _ => rfl
      exact congrArg pure (congrArg₂ List.cons (steady frame) (steadys frame))

end

/-! ## Arrays -/

section
variable {platform : Platform Member String} {visible : Visible} {env : Env}

/-- Filling an array whose variable is not handed out again. -/
theorem lowers_fill {array : Operand}
    {items : List (Gen Element)} {effects : List (Effect Value)}
    (h : SimulatesEach platform visible env items effects) :
    ∀ (position : Nat) (names : Names) (store : Store), Agrees visible env store →
      (∀ after, ¬ Names.Generated names after array.name) →
      Lowers platform readUnit names store
        (fill array position items) (Semantics.fill (store array.name) position effects) := by
  induction h with
  | nil => intro position names store _ _; exact .pure (fun _ _ _ _ => rfl) fun _ => rfl
  | @cons item effect items effects first each ih =>
      intro position names store agrees taken
      have le := (first.tidy names).1
      refine (first.lowers names store agrees).bind first.tidy ?_ fun store' frame => ?_
      · exact .bind (fun _ => .emit rfl) fun _ => tidy_fill array items _ (SimulatesEach.tidy each)
      have kept : store' array.name = store array.name := frame _ (taken _)
      have later : ∀ after, ¬ Names.Generated (item names).names after array.name :=
        fun after generated => taken after (generated.mono le (Names.le_refl _))
      have rest := ih (position + 1) _ store' (agrees.frame frame) later
      rw [← kept]
      refine Lowers.emitThen rest (tidy_fill array items _ (SimulatesEach.tidy each)) rfl rfl ?_
      simp [Platform.perform, Platform.rhs, Cell.of]

/-- Filling a new array through a variable of its own. -/
theorem lowers_hold {names : Names} {store : Store}
    (agrees : Agrees visible env store) (ty : Ty) (fresh : Element)
    {items : List (Gen Element)} {effects : List (Effect Value)}
    (h : SimulatesEach platform visible env items effects) :
    Lowers platform (readElement platform)
      names store
      (do let array ← Gen.holder ty
          Gen.emit (.set array (.element fresh))
          fill array 0 items
          return .operand array)
      (do let array ← readElement platform fresh store
          Semantics.fill array 0 effects
          return array) := by
  let hold : Gen Operand := do
    let array ← Gen.holder ty
    Gen.emit (.set array (.element fresh))
    return id array
  have regroup : (do
      let array ← Gen.holder ty
      Gen.emit (.set array (.element fresh))
      fill array 0 items
      return Element.operand array) = hold >>= fun array => do
        fill array 0 items
        return .operand array := by
    simp [hold]
  have held : Lowers platform readVariable names store hold
      (readElement platform fresh store) :=
    lowers_setNew (draws_holder names ty) (.element fresh) fun _ _ => rfl
  have tidy := tidy_fill (hold names).value items 0 (SimulatesEach.tidy h)
  rw [regroup]
  refine held.bind ?_ (tidy.bind fun _ => .pure _) fun store' frame => ?_
  · exact .bind (fun _ => .holder _) fun _ => .bind (fun _ => .emit rfl) fun _ => .pure _
  have taken := (draws_holder names ty).taken
  have filled := lowers_fill h 0 _ store' (agrees.frame frame) taken
  rw [readVariable_bind]
  refine filled.bind tidy (.pure _) fun store'' frame' => ?_
  have le := (tidy (hold names).names).1
  refine .pure (fun after _ _ later => ?_) fun world => ?_
  · exact congrArg pure (later.mono le (Names.le_refl after) _ (taken after))
  · exact congrArg (fun value => (Except.ok value, world)) (frame' _ (taken _))

theorem simulates_pack (elemTy : Ty)
    {items : List (Gen Element)} {effects : List (Effect Value)}
    (h : SimulatesEach platform visible env items effects) :
    Simulates platform visible env
      (readElement platform) (pack elemTy items)
      (Semantics.pack elemTy effects) := by
  refine ⟨tidy_pack elemTy (SimulatesEach.tidy h), fun names store agrees => ?_⟩
  have same : platform.rhs store
      (.newArray (.int (.ofNat items.length)) (.array elemTy)) =
        Exec.newArray (.initial elemTy) (.int (.ofNat effects.length)) := by
    rw [Platform.rhs, element_int, h.length_eq]
    rfl
  have allocate : Lowers platform
      (readElement platform) names store
      (Gen.store (.newArray (.int (.ofNat items.length)) (.array elemTy)) (.array elemTy))
      (Exec.newArray (.initial elemTy) (.int (.ofNat effects.length))) :=
    same ▸ lowers_store _ _
  have tidy := tidy_hold (.array elemTy) (Element.operand ⟨names.nextTemp, .array elemTy⟩)
    (SimulatesEach.tidy h)
  refine allocate.bind (tidy_store _ _) ?_ fun store' frame => ?_
  · split
    · exact .pure _
    · exact tidy
  cases h with
  | nil => exact .pure allocate.steady fun _ => rfl
  | cons first each =>
      exact lowers_hold (agrees.frame frame) _ _ (.cons first each)

theorem simulates_cellOf {γ δ : Type}
    {base index : Gen Element} {array position : Effect Value}
    (h : Simulates platform visible env (readElement platform) base array)
    (h' : Simulates platform visible env (readElement platform) index position)
    {f : Cell → γ} {read : γ → Store → Effect δ} {cont : Value → Value → Effect δ}
    (same : ∀ cell store, read (f cell) store =
      cont (store cell.array.name) (platform.element store cell.index)) :
    Simulates platform visible env read (f <$> cellOf base index)
      (do let array ← array
          let position ← position
          cont array position) := by
  have regroup : f <$> cellOf base index = (do
      let base ← base >>= Gen.toVariable
      let position ← index
      return f (.of base position)) := by
    simp [cellOf]
  rw [regroup]
  refine h.toVariable.bind₂ h' (fun _ _ => .pure _) ?_
  intro op elem names store _ steady steady'
  refine .pure (fun _ _ _ frame => ?_) fun _ => ?_
  · rw [same, same]
    exact congrArg₂ cont (steady frame) (steady' frame)
  · rw [same]
    rfl

end

end

end MiniJava.Lowering
