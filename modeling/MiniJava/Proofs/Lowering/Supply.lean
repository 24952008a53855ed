import MiniJava.Proofs.Lowering.Total
import MiniJava.Proofs.Label
import MiniJava.Proofs.Semantics.Tac

/-!
# What lowering takes from the supply of names

A generator takes numbers from the supply it is given and leaves a later one.
The names it invents are those between the two supplies.  For variables this is
`Names.Generated`, for labels `Label.Within`.

A generator is *tidy* if it never turns the supply back and marks only labels
between the two supplies (`Tidy`).  All of lowering is tidy, whatever it is
given to lower, and also where it fails.  A label is drawn before the code in
front of it is generated and marked after it, so the proofs fix the supply from
which labels count as new and let the present one move on (`TidyAt`).
-/

namespace MiniJava

open Tac Lowering Semantics

/-! ## The order of supplies -/

namespace Names

/-- One supply is later than another if no counter is behind. -/
instance : LE Names where
  le before after := before.temp ≤ after.temp ∧
    ∀ family, before.next family ≤ after.next family

theorem le_refl (names : Names) : names ≤ names :=
  ⟨Nat.le_refl _, fun _ => Nat.le_refl _⟩

theorem le_trans {first second third : Names} (h : first ≤ second) (h' : second ≤ third) :
    first ≤ third :=
  ⟨Nat.le_trans h.1 h'.1, fun family => Nat.le_trans (h.2 family) (h'.2 family)⟩

theorem le_advanceTemp (names : Names) : names ≤ names.advanceTemp :=
  ⟨Nat.le_succ _, fun family => by cases family <;> exact Nat.le_refl _⟩

theorem le_advance (names : Names) (taken : Family) : names ≤ names.advance taken := by
  constructor
  · cases taken <;> exact Nat.le_refl _
  · intro family
    rw [next_advance]
    split
    · exact Nat.le_succ _
    · exact Nat.le_refl _

/-! ## Variables between two supplies -/

/-- The variables handed out between two supplies. -/
def Generated (before after : Names) (name : String) : Prop :=
  (∃ id, before.temp ≤ id ∧ id < after.temp ∧ name = tempName id) ∨
  (∃ id, before.pack ≤ id ∧ id < after.pack ∧ name = packName id)

/-- A name drawn in between is drawn in between supplies that are further apart. -/
theorem Generated.mono {before before' after after' : Names} {name : String}
    (h : Generated before after name) (earlier : before' ≤ before) (later : after ≤ after') :
    Generated before' after' name := by
  rcases h with ⟨id, h1, h2, rfl⟩ | ⟨id, h1, h2, rfl⟩
  · exact .inl ⟨id, Nat.le_trans earlier.1 h1, Nat.lt_of_lt_of_le h2 later.1, rfl⟩
  · exact .inr ⟨id, Nat.le_trans (earlier.2 .pack) h1,
      Nat.lt_of_lt_of_le h2 (later.2 .pack), rfl⟩

/-- Nothing is handed out while the supply stands still. -/
theorem not_generated_self (names : Names) (name : String) : ¬ Generated names names name := by
  rintro (⟨id, h, h', _⟩ | ⟨id, h, h', _⟩)
  · exact Nat.not_lt_of_le h h'
  · exact Nat.not_lt_of_le h h'

/-- The next temporary is handed out by taking it. -/
theorem generated_nextTemp {names after : Names} (h : names.advanceTemp ≤ after) :
    Generated names after names.nextTemp :=
  .inl ⟨names.temp, Nat.le_refl _, h.1, rfl⟩

/-- The next holder is handed out by taking it. -/
theorem generated_nextPack {names after : Names} (h : names.advance .pack ≤ after) :
    Generated names after names.nextPack :=
  .inr ⟨names.pack, Nat.le_refl _, h.2 .pack, rfl⟩

/-- A temporary taken before a supply is not handed out from it. -/
theorem not_generated_tempName {before after : Names} {id : Nat} (h : id < before.temp) :
    ¬ Generated before after (tempName id) := by
  rintro (⟨id', h1, _, same⟩ | ⟨id', _, _, same⟩)
  · rw [tempName_inj same] at h
    omega
  · exact tempName_ne_packName id id' same

/-- A holder taken before a supply is not handed out from it. -/
theorem not_generated_packName {before after : Names} {id : Nat} (h : id < before.pack) :
    ¬ Generated before after (packName id) := by
  rintro (⟨id', _, _, same⟩ | ⟨id', h1, _, same⟩)
  · exact tempName_ne_packName id' id same.symm
  · rw [packName_inj same] at h
    omega

/-- Names that some supply hands out: `tmp` or `__varargs_array_` and a number. -/
def Reserved (name : String) : Prop := ∃ id, name = tempName id ∨ name = packName id

/-- How a name starts tells that it is not one of those. -/
theorem not_reserved {name : String} (h : name.toList.take 2 ≠ ['t', 'm'])
    (h' : name.toList.take 2 ≠ ['_', '_']) : ¬ Reserved name := by
  rintro ⟨id, rfl | rfl⟩
  · exact h (by simp [tempName])
  · exact h' (by simp [packName, Label.text, Family.stem])

/-- Only reserved names are generated. -/
theorem Generated.reserved {before after : Names} {name : String}
    (h : Generated before after name) : Reserved name := by
  rcases h with ⟨id, _, _, same⟩ | ⟨id, _, _, same⟩
  · exact ⟨id, .inl same⟩
  · exact ⟨id, .inr same⟩

end Names

/-! ## Labels between two supplies -/

namespace Label

/-- Labels whose number was taken before the supply. -/
def Below (names : Names) : Label → Prop
  | .numbered family id => id < names.next family
  | .endIf id => id < names.next .thenBranch

/-- Labels whose number was taken between two supplies. -/
def Within (before after : Names) (label : Label) : Prop :=
  ¬ label.Below before ∧ label.Below after

theorem Below.mono {before after : Names} {label : Label} (h : label.Below before)
    (later : before ≤ after) : label.Below after := by
  cases label with
  | numbered family id => exact Nat.lt_of_lt_of_le h (later.2 family)
  | endIf id => exact Nat.lt_of_lt_of_le h (later.2 .thenBranch)

theorem not_below_next (names : Names) (family : Family) :
    ¬ (Label.numbered family (names.next family)).Below names := Nat.lt_irrefl _

theorem below_advance (names : Names) (family : Family) :
    (Label.numbered family (names.next family)).Below (names.advance family) := by
  rw [Below, Names.next_advance, if_pos rfl]
  exact Nat.lt_succ_self _

end Label

/-! ## The labels that code marks -/

/-- The label that an instruction marks. -/
def Tac.Instr.mark? : Instr → Option Label
  | .label mark => some mark
  | _ => none

/-- The labels that a list of instructions marks, in order. -/
def marks (code : List Instr) : List Label := code.filterMap Instr.mark?

@[simp]
theorem marks_nil : marks [] = [] := rfl

@[simp]
theorem marks_cons (instr : Instr) (rest : List Instr) :
    marks (instr :: rest) = instr.mark?.toList ++ marks rest := by
  cases h : instr.mark? <;> simp [marks, h]

@[simp]
theorem marks_append (first second : List Instr) :
    marks (first ++ second) = marks first ++ marks second := by
  simp [marks]

/-- A label that the code before does not mark is found where it is marked. -/
theorem placeOf?_append_label {before : List Instr} {mark : Label}
    (h : mark ∉ marks before) (after : List Instr) :
    placeOf? (before ++ .label mark :: after) mark = some before.length := by
  have absent : before.findIdx? (marksText mark.text) = none := by
    rw [List.findIdx?_eq_none_iff]
    intro instr hmem
    cases instr with
    | label other =>
        have ne : other.text ≠ mark.text := by
          intro same
          rw [Label.text_inj same] at hmem
          exact h (List.mem_filterMap.mpr ⟨_, hmem, rfl⟩)
        simpa [marksText] using ne
    | _ => rfl
  simp [placeOf?, absent, List.findIdx?_cons, marksText]

namespace Lowering

variable {α β : Type}

/-! ## Tidy generators -/

/-- From this supply on, a generator moves forward and marks only labels that
were not yet taken at `base`. -/
def TidyAt (base names : Names) (gen : Gen α) : Prop :=
  names ≤ (gen names).names ∧
    ∀ mark ∈ marks (gen names).code, mark.Within base (gen names).names

/-- A generator that never turns the supply back and marks only new labels. -/
def Tidy (gen : Gen α) : Prop := ∀ names, TidyAt names names gen

namespace TidyAt

variable {base names : Names}

theorem bind {first : Gen α} {next : α → Gen β} (h : TidyAt base names first)
    (h' : TidyAt base (first names).names (next (first names).value)) :
    TidyAt base names (first >>= next) := by
  refine ⟨Names.le_trans h.1 h'.1, ?_⟩
  intro mark hmem
  rw [Gen.code_bind, marks_append, List.mem_append] at hmem
  rcases hmem with hmem | hmem
  · exact ⟨(h.2 mark hmem).1, (h.2 mark hmem).2.mono h'.1⟩
  · exact h'.2 mark hmem

theorem pure (value : α) : TidyAt base names (Pure.pure value : Gen α) :=
  ⟨Names.le_refl _, fun _ hmem => by cases hmem⟩

theorem map {first : Gen α} (f : α → β) (h : TidyAt base names first) :
    TidyAt base names (f <$> first) := by
  rw [TidyAt, Gen.map_apply]
  exact h

theorem emit {instr : Instr} (h : instr.mark? = none) :
    TidyAt base names (Gen.emit instr) := by
  refine ⟨Names.le_refl _, fun mark hmem => ?_⟩
  simp [Gen.emit, marks, h] at hmem

/-- Marking a label that was taken between `base` and now. -/
theorem emitLabel {mark : Label} (h : mark.Within base names) :
    TidyAt base names (Gen.emit (.label mark)) := by
  refine ⟨Names.le_refl _, fun other hmem => ?_⟩
  have same : other = mark := by simpa [Gen.emit, marks, Instr.mark?] using hmem
  exact same ▸ h

theorem number (family : Family) : TidyAt base names (Gen.number family) :=
  ⟨Names.le_advance _ _, fun _ hmem => by cases hmem⟩

theorem label (family : Family) : TidyAt base names (Gen.label family) :=
  (number family).bind (pure _)

theorem temp (ty : Ty) : TidyAt base names (Gen.temp ty) :=
  ⟨Names.le_advanceTemp _, fun _ hmem => by cases hmem⟩

theorem holder (ty : Ty) : TidyAt base names (Gen.holder ty) :=
  ⟨Names.le_advance _ _, fun _ hmem => by cases hmem⟩

theorem note (entry : Note) : TidyAt base names (Gen.note entry) :=
  ⟨Names.le_refl _, fun _ hmem => by cases hmem⟩

end TidyAt

/-- A tidy generator is tidy for every earlier supply. -/
theorem Tidy.at {gen : Gen α} (h : Tidy gen) {base names : Names} (le : base ≤ names) :
    TidyAt base names gen :=
  ⟨(h names).1, fun mark hmem =>
    ⟨fun below => ((h names).2 mark hmem).1 (below.mono le), ((h names).2 mark hmem).2⟩⟩

theorem Tidy.bind {first : Gen α} {next : α → Gen β} (h : Tidy first)
    (h' : ∀ value, Tidy (next value)) : Tidy (first >>= next) :=
  fun names => (h names).bind ((h' _).at (h names).1)

theorem Tidy.pure (value : α) : Tidy (Pure.pure value : Gen α) := fun _ => .pure value

theorem Tidy.map {first : Gen α} (f : α → β) (h : Tidy first) : Tidy (f <$> first) :=
  fun names => (h names).map f

/-! ## Lowering expressions is tidy -/

theorem tidy_store (rhs : Rhs) (ty : Ty) : Tidy (Gen.store rhs ty) :=
  fun _ => (TidyAt.temp ty).bind ((TidyAt.emit rfl).bind (.pure _))

/-- A temporary is drawn only where there is something to store. -/
theorem tidy_settleAs (ty : Ty) (rhs : Rhs) : Tidy (Gen.settleAs ty rhs) := by
  cases rhs with
  | element elem => exact .pure elem
  | _ => exact tidy_store _ ty

theorem tidy_settle (rhs : Rhs) : Tidy (Gen.settle rhs) := tidy_settleAs rhs.ty rhs

theorem tidy_toVariable (elem : Element) : Tidy (Gen.toVariable elem) := by
  cases elem with
  | operand op => exact .pure op
  | literal lit => exact fun _ => (TidyAt.temp lit.ty).bind ((TidyAt.emit rfl).bind (.pure _))

theorem tidy_inOrder : ∀ gens : List (Gen α), (∀ gen ∈ gens, Tidy gen) →
    Tidy (Gen.inOrder gens)
  | [], _ => .pure []
  | _ :: rest, h =>
      (h _ List.mem_cons_self).bind fun _ =>
        (tidy_inOrder rest fun gen hmem => h gen (List.mem_cons_of_mem _ hmem)).bind
          fun _ => .pure _

theorem tidy_readName (scope : Source.Scope) (name : String) (ty : Ty) :
    Tidy (readName scope name ty) := by
  rw [readName]
  split
  · exact tidy_store _ ty
  · exact .pure _

theorem tidy_chosen (cond : Rhs) {onTrue : Gen Element} (h : Tidy onTrue) :
    Tidy (chosen cond onTrue) := by
  intro names
  -- The labels are drawn at these supplies and marked at the end.
  let taken := names.advance .onTrue
  let after := taken.advanceTemp.advance .join
  have h₁ : taken ≤ after :=
    Names.le_trans (Names.le_advanceTemp _) (Names.le_advance _ _)
  have h₂ : after ≤ (onTrue after).names := (h after).1
  have start : names ≤ after := Names.le_trans (Names.le_advance _ _) h₁
  have whenTrue : (Label.numbered .onTrue (names.next .onTrue)).Within names after :=
    ⟨Label.not_below_next names .onTrue, (Label.below_advance names .onTrue).mono h₁⟩
  have done : (Label.numbered .join (taken.advanceTemp.next .join)).Within names
      (onTrue after).names :=
    ⟨fun below => Label.not_below_next taken.advanceTemp .join
        (below.mono (Names.le_trans (Names.le_advance _ _) (Names.le_advanceTemp _))),
      (Label.below_advance _ _).mono h₂⟩
  refine (TidyAt.label .onTrue).bind (.bind (.emit rfl) (.bind (.temp .bool)
    (.bind (.emit rfl) (.bind (.label .join) (.bind (.emit rfl) (.bind ?_ ?_))))))
  · exact .emitLabel whenTrue
  · exact (h.at start).bind (.bind (.emit rfl) (.bind (.emitLabel done) (.pure _)))

theorem tidy_conjunction {lhs rhs : Gen Element} (h : Tidy lhs) (h' : Tidy rhs) :
    Tidy (conjunction lhs rhs) :=
  h.bind fun _ => tidy_chosen _ h'

theorem tidy_comparison {lhs rhs : Gen Element} (h : Tidy lhs) (h' : Tidy rhs) :
    Tidy (comparison lhs rhs) :=
  h.bind fun _ => h'.bind fun _ => tidy_chosen _ (.pure _)

theorem tidy_construct (className : String) : Tidy (construct className) :=
  fun _ => (TidyAt.temp _).bind (.bind (.emit rfl) (.bind (.emit rfl) (.pure _)))

theorem tidy_fill (array : Operand) : ∀ (items : List (Gen Element)) (position : Nat),
    (∀ item ∈ items, Tidy item) → Tidy (fill array position items)
  | [], _, _ => .pure ()
  | _ :: rest, position, h =>
      (h _ List.mem_cons_self).bind fun _ => .bind (fun _ => .emit rfl) fun _ =>
        tidy_fill array rest (position + 1) fun item hmem =>
          h item (List.mem_cons_of_mem _ hmem)

/-- Filling a new array through a variable of its own. -/
theorem tidy_hold (ty : Ty) (fresh : Element) {items : List (Gen Element)}
    (h : ∀ item ∈ items, Tidy item) :
    Tidy (do
      let array ← Gen.holder ty
      Gen.emit (.set array (.element fresh))
      fill array 0 items
      return Element.operand array) :=
  .bind (fun _ => .holder _) fun _ => .bind (fun _ => .emit rfl) fun _ =>
    (tidy_fill _ items 0 h).bind fun _ => .pure _

theorem tidy_pack (elemTy : Ty) {items : List (Gen Element)}
    (h : ∀ item ∈ items, Tidy item) : Tidy (pack elemTy items) := by
  refine (tidy_store _ _).bind fun fresh => ?_
  split
  · exact .pure fresh
  · exact tidy_hold _ fresh h

theorem tidy_cellOf {array index : Gen Element} (h : Tidy array) (h' : Tidy index) :
    Tidy (cellOf array index) :=
  (h.bind tidy_toVariable).bind fun _ => h'.bind fun _ => .pure _

theorem tidy_reach (scope : Source.Scope) (receiver : Source.Expr) {object : Gen Element}
    (method : String) (h : Tidy object) : Tidy (reach scope receiver object method) := by
  rw [reach]
  split
  · exact (h.bind tidy_toVariable).bind fun _ => .pure _
  · exact .pure _
  · exact .bind (fun _ => .note _) fun _ => .pure _

theorem tidy_passArgs (callee : Option Source.MethodEntry) (argTys : List Source.Ty)
    {args : List (Gen Element)} (h : ∀ arg ∈ args, Tidy arg) :
    Tidy (passArgs callee argTys args) := by
  rw [passArgs]
  split
  · exact tidy_inOrder args h
  · exact (tidy_inOrder _ fun gen hmem => h gen (List.mem_of_mem_take hmem)).bind fun _ =>
      (tidy_pack _ fun gen hmem => h gen (List.mem_of_mem_drop hmem)).bind fun _ => .pure _

theorem tidy_invoke (scope : Source.Scope) (receiver : Source.Expr) {object : Gen Element}
    (method : String) (argTys : List Source.Ty) {args : List (Gen Element)} (otherRet : Ty)
    (h : Tidy object) (h' : ∀ arg ∈ args, Tidy arg) :
    Tidy (invoke scope receiver object method argTys args otherRet) :=
  (tidy_reach scope receiver method h).bind fun _ =>
    (tidy_passArgs _ argTys h').bind fun _ => .pure _

mutual

/-- Lowering an expression marks only labels that it draws. -/
theorem tidy_compute (scope : Source.Scope) : ∀ expr, Tidy (compute scope expr)
  | .int _ _ => .pure _
  | .bool _ _ => .pure _
  | .this _ => .pure _
  | .var name _ => (tidy_readName scope name _).map _
  | .binary (.arith _) lhs rhs _ =>
      ((tidy_compute scope lhs).bind tidy_settle).bind fun _ =>
        ((tidy_compute scope rhs).bind tidy_settle).bind fun _ => .pure _
  | .binary .and lhs rhs _ =>
      (tidy_conjunction ((tidy_compute scope lhs).bind tidy_settle)
        ((tidy_compute scope rhs).bind tidy_settle)).map _
  | .binary .lt lhs rhs _ =>
      (tidy_comparison ((tidy_compute scope lhs).bind tidy_settle)
        ((tidy_compute scope rhs).bind tidy_settle)).map _
  | .not operand _ => ((tidy_compute scope operand).bind tidy_settle).map _
  | .paren inner _ => ((tidy_compute scope inner).bind tidy_settle).map _
  | .newObject className _ => (tidy_construct className).map _
  | .newArray _ size _ =>
      ((tidy_compute scope size).bind tidy_settle).bind fun _ => .pure _
  | .arrayInit items _ => (tidy_pack _ (tidy_operandsOf scope items)).map _
  | .index array position _ =>
      (tidy_cellOf ((tidy_compute scope array).bind tidy_settle)
        ((tidy_compute scope position).bind tidy_settle)).map _
  | .length array _ =>
      (((tidy_compute scope array).bind tidy_settle).bind tidy_toVariable).bind fun _ =>
        (tidy_store _ _).map _
  | .call receiver method args _ =>
      (tidy_invoke scope receiver method _ _ ((tidy_compute scope receiver).bind tidy_settle)
        (tidy_operandsOf scope args)).bind fun _ => (tidy_store _ _).map _

theorem tidy_operandsOf (scope : Source.Scope) :
    ∀ exprs, ∀ gen ∈ operandsOf scope exprs, Tidy gen
  | [], _, hmem => by cases hmem
  | expr :: rest, gen, hmem => by
      rcases List.mem_cons.mp hmem with rfl | hmem
      · exact (tidy_compute scope expr).bind tidy_settle
      · exact tidy_operandsOf scope rest gen hmem

end

theorem tidy_operand (scope : Source.Scope) (expr : Source.Expr) :
    Tidy (operand scope expr) :=
  (tidy_compute scope expr).bind tidy_settle

theorem tidy_target (scope : Source.Scope) (expr : Source.Expr) :
    Tidy (target scope expr) := by
  rw [target.eq_def]
  split
  · split
    · exact .pure _
    · exact .pure _
  · exact (tidy_cellOf (tidy_operand scope _) (tidy_operand scope _)).map _
  · exact (tidy_operand scope _).map _

theorem tidy_effect (scope : Source.Scope) (expr : Source.Expr) :
    Tidy (effect scope expr) := by
  rw [effect.eq_def]
  split
  · refine (tidy_invoke scope _ _ _ _ (tidy_operand scope _) ?_).map _
    rw [← operandsOf_eq_map]
    exact tidy_operandsOf scope _
  · exact (tidy_operand scope _).map _

/-! ## Lowering statements is tidy -/

namespace TidyAt

variable {base names : Names}

theorem lift {gen : Gen α} (h : TidyAt base names gen) :
    TidyAt base names (liftM gen : Attempt α).run :=
  h.map _

theorem lift_bind {gen : Gen α} {next : α → Attempt β} (h : TidyAt base names gen)
    (h' : TidyAt base (gen names).names (next (gen names).value).run) :
    TidyAt base names (liftM gen >>= next).run := by
  rw [run_lift_bind]
  exact h.bind h'

/-- What comes next is generated only if the first attempt succeeds. -/
theorem attempt_bind {first : Attempt α} {next : α → Attempt β}
    (h : TidyAt base names first.run)
    (h' : ∀ value, TidyAt base (first.run names).names (next value).run) :
    TidyAt base names (first >>= next).run := by
  rw [ExceptT.run_bind]
  refine h.bind ?_
  split
  · exact h' _
  · exact .pure _

end TidyAt

theorem tidy_assignment (scope : Source.Scope) (left right : Source.Expr) :
    Tidy (assignment scope left right).run := by
  intro names
  refine .lift_bind (tidy_target scope left names) ?_
  have le := (tidy_target scope left names).1
  refine .lift_bind ((tidy_compute scope right).at le) ?_
  have le' := Names.le_trans le (tidy_compute scope right (target scope left names).names).1
  split
  · exact .lift (.emit rfl)
  · exact .lift (.emit rfl)
  · exact .lift_bind ((tidy_settleAs _ _).at le') (.lift (.emit rfl))
  · exact .pure _

/-- A conditional marks the labels of its branches and two of its own. -/
theorem tidy_conditional {cond : Gen Element} {thenBranch elseBranch : Attempt Unit}
    (h : Tidy cond) (hthen : Tidy thenBranch.run) (helse : Tidy elseBranch.run) :
    Tidy (conditional cond thenBranch elseBranch).run := by
  intro names
  -- Both labels have the number that is drawn at `start`.
  let start := (cond names).names
  let taken := start.advance .thenBranch
  let between := (elseBranch.run taken).names
  have le : names ≤ start := (h names).1
  have le₁ : names ≤ taken := Names.le_trans le (Names.le_advance _ _)
  have le₂ : taken ≤ between := (helse taken).1
  have below := Label.below_advance start .thenBranch
  have fresh : ¬ start.thenBranch < names.thenBranch := Nat.not_lt_of_le (le.2 .thenBranch)
  refine .lift_bind (h names) (.lift_bind (.number .thenBranch) (.lift_bind (.emit rfl)
    (.attempt_bind (helse.at le₁) fun _ => .lift_bind (.emit rfl) (.lift_bind (.emitLabel ?_)
      (.attempt_bind (hthen.at (Names.le_trans le₁ le₂)) fun _ => .lift (.emitLabel ?_))))))
  · exact ⟨fresh, below.mono le₂⟩
  · exact ⟨fresh, below.mono (Names.le_trans le₂ (hthen between).1)⟩

/-- A loop marks the labels of its body and of both its tests, and two of its own. -/
theorem tidy_loop {cond : Gen Element} {body : Attempt Unit} (h : Tidy cond)
    (hbody : Tidy body.run) : Tidy (loop cond body).run := by
  intro names
  let start := (cond names).names
  let taken := (start.advance .loopBody).advance .loopEnd
  let between := (body.run taken).names
  have le : names ≤ start := (h names).1
  have le₁ : names ≤ taken :=
    Names.le_trans le (Names.le_trans (Names.le_advance _ _) (Names.le_advance _ _))
  have le₂ : taken ≤ between := (hbody taken).1
  have le₃ : between ≤ (cond between).names := (h between).1
  have belowStart : (Label.numbered .loopBody start.loopBody).Below taken :=
    (Label.below_advance start .loopBody).mono (Names.le_advance _ _)
  have belowDone := Label.below_advance (start.advance .loopBody) .loopEnd
  refine .lift_bind (h names) (.lift_bind (.label .loopBody) (.lift_bind (.label .loopEnd)
    (.lift_bind (.emit rfl) (.lift_bind (.emit rfl) (.lift_bind (.emitLabel ?_)
      (.attempt_bind (hbody.at le₁) fun _ => .lift_bind (h.at (Names.le_trans le₁ le₂))
        (.lift_bind (.emit rfl) (.lift (.emitLabel ?_)))))))))
  · exact ⟨Nat.not_lt_of_le (le.2 .loopBody), belowStart⟩
  · exact ⟨Nat.not_lt_of_le (le.2 .loopEnd), belowDone.mono (Names.le_trans le₂ le₃)⟩

theorem tidy_perform (scope : Source.Scope) (expr : Source.Expr) :
    Tidy (perform scope expr) := by
  refine (tidy_effect scope expr).bind fun out => ?_
  split
  · exact .pure _
  · exact fun _ => .emit rfl

theorem tidy_leave (scope : Source.Scope) (value : Option Source.Expr) :
    Tidy (leave scope value) := by
  rw [leave.eq_def]
  split
  · exact fun _ => .emit rfl
  · split
    · exact fun _ => .emit rfl
    · exact (tidy_operand scope _).bind fun _ _ => .emit rfl

mutual

theorem tidy_lowerStmt (scope : Source.Scope) : ∀ stmt, Tidy (lowerStmt scope stmt).run
  | .assign left right => by
      rw [lowerStmt_assign]
      exact tidy_assignment scope left right
  | .ifElse cond thenBranch elseBranch => by
      rw [lowerStmt_ifElse]
      exact tidy_conditional (tidy_operand scope cond) (tidy_lowerStmt scope thenBranch)
        (tidy_lowerStmt scope elseBranch)
  | .whileLoop cond body => by
      rw [lowerStmt_whileLoop]
      exact tidy_loop (tidy_operand scope cond) (tidy_lowerStmt scope body)
  | .expr expr => by
      rw [lowerStmt_expr]
      exact fun names => .lift (tidy_perform scope expr names)
  | .block stmts => tidy_lowerStmts scope stmts
  | .ret value => by
      rw [lowerStmt_ret]
      exact fun names => .lift (tidy_leave scope value names)

theorem tidy_lowerStmts (scope : Source.Scope) : ∀ stmts, Tidy (lowerStmts scope stmts).run
  | [] => .pure _
  | stmt :: rest => fun names =>
      .attempt_bind (tidy_lowerStmt scope stmt names) fun _ =>
        (tidy_lowerStmts scope rest).at (tidy_lowerStmt scope stmt names).1

end

end Lowering

end MiniJava
