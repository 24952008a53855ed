import MiniJava.Proofs.Lowering.Supply

/-!
# The variables that expressions write

An expression has no assignments.  What its code assigns, or stores through, are
variables that were handed out while it was lowered: temporaries that hold
intermediate values, and holders of arrays that are being filled.  A generator
that writes nothing else is *contained* (`Contained`).

A holder is taken before the items of the array are lowered and is stored through
after each of them.  So the proofs fix the supply from which variables count as
the generator's own and let the present one move on (`ContainedAt`).
-/

namespace MiniJava

open Source (Expr Scope)
open Tac Lowering

/-- The variable that an instruction assigns or stores through. -/
def Tac.Instr.touched? : Instr → Option String
  | .assign (.var op) _ _ => some op.name
  | .assign (.cell cell) _ _ => some cell.array.name
  | .putField object _ _ => some object.name
  | .call _ | .goto _ | .label _ | .branch _ _ | .ret _ _ => none

/-- The instructions that write a variable, in order. -/
def writesTo (name : String) (code : List Instr) : List Instr :=
  code.filter fun instr => instr.touched? = some name

@[simp]
theorem writesTo_nil (name : String) : writesTo name [] = [] := rfl

@[simp]
theorem writesTo_append (name : String) (first second : List Instr) :
    writesTo name (first ++ second) = writesTo name first ++ writesTo name second :=
  List.filter_append ..

theorem writesTo_cons_self {instr : Instr} {name : String} (touched : instr.touched? = some name)
    (rest : List Instr) : writesTo name (instr :: rest) = instr :: writesTo name rest :=
  List.filter_cons_of_pos (decide_eq_true touched)

theorem writesTo_cons_of_ne {instr : Instr} {name : String} (other : instr.touched? ≠ some name)
    (rest : List Instr) : writesTo name (instr :: rest) = writesTo name rest :=
  List.filter_cons_of_neg fun touched => other (of_decide_eq_true touched)

/-- A variable is not handed out twice. -/
theorem Names.Generated.not_later {before between after : Names} {name : String}
    (h : Generated before between name) : ¬ Generated between after name := by
  rcases h with ⟨id, _, taken, rfl⟩ | ⟨id, _, taken, rfl⟩
  · exact not_generated_tempName taken
  · exact not_generated_packName taken

namespace Lowering

variable {α β : Type}

/-- From this supply on, a generator moves forward and writes only variables that
were not yet handed out at `base`. -/
def ContainedAt (base names : Names) (gen : Gen α) : Prop :=
  names ≤ (gen names).names ∧
    ∀ instr ∈ (gen names).code, ∀ name ∈ instr.touched?, base.Generated (gen names).names name

/-- A generator that writes only variables that it takes from the supply. -/
def Contained (gen : Gen α) : Prop := ∀ names, ContainedAt names names gen

namespace ContainedAt

variable {base names : Names}

theorem bind {first : Gen α} {next : α → Gen β} (h : ContainedAt base names first)
    (h' : ContainedAt base (first names).names (next (first names).value)) :
    ContainedAt base names (first >>= next) := by
  refine ⟨Names.le_trans h.1 h'.1, fun instr mem name touched => ?_⟩
  rw [Gen.code_bind, List.mem_append] at mem
  rcases mem with mem | mem
  · exact (h.2 instr mem name touched).mono (Names.le_refl _) h'.1
  · exact h'.2 instr mem name touched

/-- Moving the supply forward writes nothing. -/
theorem silent {gen : Gen α} (le : names ≤ (gen names).names) (none : (gen names).code = []) :
    ContainedAt base names gen := by
  refine ⟨le, fun instr mem => ?_⟩
  rw [none] at mem
  cases mem

theorem pure (value : α) : ContainedAt base names (Pure.pure value : Gen α) :=
  silent (Names.le_refl _) rfl

theorem map {first : Gen α} (f : α → β) (h : ContainedAt base names first) :
    ContainedAt base names (f <$> first) := by
  rw [ContainedAt, Gen.map_apply]
  exact h

theorem emit {instr : Instr} (h : ∀ name ∈ instr.touched?, base.Generated names name) :
    ContainedAt base names (Gen.emit instr) := by
  refine ⟨Names.le_refl _, fun other mem => ?_⟩
  obtain rfl := List.mem_singleton.mp mem
  exact h

/-- Assigning a variable that was handed out between `base` and now. -/
theorem set {dest : Operand} {rhs : Rhs} (h : base.Generated names dest.name) :
    ContainedAt base names (Gen.emit (.set dest rhs)) :=
  emit fun _ touched => Option.some.inj touched ▸ h

theorem temp (ty : Ty) : ContainedAt base names (Gen.temp ty) :=
  silent (Names.le_advanceTemp _) rfl

theorem holder (ty : Ty) : ContainedAt base names (Gen.holder ty) :=
  silent (Names.le_advance _ _) rfl

theorem label (family : Family) : ContainedAt base names (Gen.label family) :=
  silent (Names.le_advance _ _) rfl

theorem note (entry : Note) : ContainedAt base names (Gen.note entry) :=
  silent (Names.le_refl _) rfl

end ContainedAt

/-- What is contained from now on is contained from every earlier supply. -/
theorem Contained.at {gen : Gen α} (h : Contained gen) {base names : Names} (le : base ≤ names) :
    ContainedAt base names gen :=
  ⟨(h names).1, fun instr mem name touched =>
    ((h names).2 instr mem name touched).mono le (Names.le_refl _)⟩

namespace Contained

theorem bind {first : Gen α} {next : α → Gen β} (h : Contained first)
    (h' : ∀ value, Contained (next value)) : Contained (first >>= next) :=
  fun names => (h names).bind ((h' _).at (h names).1)

theorem pure (value : α) : Contained (Pure.pure value : Gen α) := fun _ => .pure value

theorem map {first : Gen α} (f : α → β) (h : Contained first) : Contained (f <$> first) :=
  fun names => (h names).map f

theorem store (rhs : Rhs) (ty : Ty) : Contained (Gen.store rhs ty) :=
  fun _ => (ContainedAt.temp ty).bind
    (.bind (.set (Names.generated_nextTemp (Names.le_refl _))) (.pure _))

theorem settleAs (ty : Ty) (rhs : Rhs) : Contained (Gen.settleAs ty rhs) := by
  cases rhs with
  | element elem => exact pure elem
  | _ => exact store _ ty

theorem settle {gen : Gen Rhs} (h : Contained gen) : Contained (gen >>= Gen.settle) :=
  h.bind fun rhs => settleAs rhs.ty rhs

theorem toVariable (elem : Element) : Contained (Gen.toVariable elem) := by
  cases elem with
  | operand op => exact pure op
  | literal lit =>
      exact fun _ => (ContainedAt.temp lit.ty).bind
        (.bind (.set (Names.generated_nextTemp (Names.le_refl _))) (.pure _))

theorem inOrder : ∀ {gens : List (Gen α)}, (∀ gen ∈ gens, Contained gen) →
    Contained (Gen.inOrder gens)
  | [], _ => pure []
  | _ :: _, h =>
      (h _ List.mem_cons_self).bind fun _ =>
        (inOrder fun gen mem => h gen (List.mem_cons_of_mem _ mem)).bind fun _ => pure _

theorem readName (scope : Scope) (name : String) (ty : Ty) :
    Contained (readName scope name ty) := by
  rw [Lowering.readName]
  split
  · exact store _ ty
  · exact pure _

theorem chosen (cond : Rhs) {onTrue : Gen Element} (h : Contained onTrue) :
    Contained (chosen cond onTrue) := by
  intro names
  -- The result is drawn behind the first label and assigned in both branches.
  let taken := names.advance .onTrue
  let after := taken.advanceTemp.advance .join
  have start : names ≤ taken := Names.le_advance _ _
  have later : taken.advanceTemp ≤ after := Names.le_advance _ _
  have result : names.Generated taken.advanceTemp taken.nextTemp :=
    (Names.generated_nextTemp (Names.le_refl _)).mono start (Names.le_refl _)
  have onTrue := h.at (Names.le_trans start (Names.le_trans (Names.le_advanceTemp _) later))
  refine (ContainedAt.label .onTrue).bind (.bind (.emit nofun) (.bind (.temp .bool)
    (.bind (.set result) (.bind (.label .join) (.bind (.emit nofun) (.bind (.emit nofun)
      (onTrue.bind (.bind (.set ?_) (.bind (.emit nofun) (.pure _))))))))))
  exact result.mono (Names.le_refl _) (Names.le_trans later (h after).1)

theorem construct (className : String) : Contained (construct className) :=
  fun _ => (ContainedAt.temp _).bind
    (.bind (.set (Names.generated_nextTemp (Names.le_refl _))) (.bind (.emit nofun) (.pure _)))

end Contained

/-- Filling an array stores through its holder, which was taken before. -/
theorem containedAt_fill {base : Names} {array : Operand} : ∀ {items : List (Gen Element)}
    (position : Nat) {names : Names}, base ≤ names → base.Generated names array.name →
    (∀ item ∈ items, Contained item) → ContainedAt base names (fill array position items)
  | [], _, _, _, _, _ => .pure ()
  | item :: rest, position, names, le, holder, h => by
      have first := h item List.mem_cons_self
      have holder' := holder.mono (Names.le_refl _) (first names).1
      refine (first.at le).bind (.bind (.emit fun _ touched => ?_) ?_)
      · exact Option.some.inj touched ▸ holder'
      · exact containedAt_fill (position + 1) (Names.le_trans le (first names).1) holder'
          fun item mem => h item (List.mem_cons_of_mem _ mem)

namespace Contained

theorem pack (elemTy : Ty) {items : List (Gen Element)} (h : ∀ item ∈ items, Contained item) :
    Contained (pack elemTy items) := by
  refine (store _ _).bind fun fresh => ?_
  split
  · exact pure fresh
  · intro names
    have holder : names.Generated (names.advance .pack) names.nextPack :=
      Names.generated_nextPack (Names.le_refl _)
    exact (ContainedAt.holder _).bind (.bind (.set holder)
      (.bind (containedAt_fill 0 (Names.le_advance _ _) holder h) (.pure _)))

theorem cellOf {array index : Gen Element} (h : Contained array) (h' : Contained index) :
    Contained (cellOf array index) :=
  (h.bind toVariable).bind fun _ => h'.bind fun _ => pure _

theorem reach (scope : Scope) (receiver : Expr) {object : Gen Element} (method : String)
    (h : Contained object) : Contained (reach scope receiver object method) := by
  rw [Lowering.reach]
  split
  · exact (h.bind toVariable).bind fun _ => pure _
  · exact pure _
  · exact bind (fun _ => .note _) fun _ => pure _

theorem passArgs (callee : Option Source.MethodEntry) (argTys : List Source.Ty)
    {args : List (Gen Element)} (h : ∀ arg ∈ args, Contained arg) :
    Contained (passArgs callee argTys args) := by
  rw [Lowering.passArgs]
  split
  · exact inOrder h
  · exact (inOrder fun gen mem => h gen (List.mem_of_mem_take mem)).bind fun _ =>
      (pack _ fun gen mem => h gen (List.mem_of_mem_drop mem)).bind fun _ => pure _

theorem invoke (scope : Scope) (receiver : Expr) {object : Gen Element} (method : String)
    (argTys : List Source.Ty) {args : List (Gen Element)} (otherRet : Ty) (h : Contained object)
    (h' : ∀ arg ∈ args, Contained arg) :
    Contained (invoke scope receiver object method argTys args otherRet) :=
  (reach scope receiver method h).bind fun _ => (passArgs _ argTys h').bind fun _ => pure _

end Contained

mutual

/-- Lowering an expression writes only what it takes from the supply. -/
theorem contained_compute (scope : Scope) : ∀ expr, Contained (compute scope expr)
  | .int _ _ | .bool _ _ | .this _ => .pure _
  | .var name _ => (Contained.readName scope name _).map _
  | .binary (.arith _) lhs rhs _ =>
      (contained_compute scope lhs).settle.bind fun _ =>
        (contained_compute scope rhs).settle.bind fun _ => .pure _
  | .binary .and lhs rhs _ =>
      ((contained_compute scope lhs).settle.bind fun _ =>
        .chosen _ (contained_compute scope rhs).settle).map _
  | .binary .lt lhs rhs _ =>
      ((contained_compute scope lhs).settle.bind fun _ =>
        (contained_compute scope rhs).settle.bind fun _ => .chosen _ (.pure _)).map _
  | .not operand _ => (contained_compute scope operand).settle.map _
  | .paren inner _ => (contained_compute scope inner).settle.map _
  | .newObject className _ => (Contained.construct className).map _
  | .newArray _ size _ => (contained_compute scope size).settle.bind fun _ => .pure _
  | .arrayInit items _ => (Contained.pack _ (contained_operandsOf scope items)).map _
  | .index array position _ =>
      (Contained.cellOf (contained_compute scope array).settle
        (contained_compute scope position).settle).map _
  | .length array _ =>
      ((contained_compute scope array).settle.bind Contained.toVariable).bind fun _ =>
        (Contained.store _ _).map _
  | .call receiver method args _ =>
      (Contained.invoke scope receiver method _ _ (contained_compute scope receiver).settle
        (contained_operandsOf scope args)).bind fun _ => (Contained.store _ _).map _

theorem contained_operandsOf (scope : Scope) :
    ∀ exprs, ∀ gen ∈ operandsOf scope exprs, Contained gen
  | [], _, mem => by cases mem
  | expr :: rest, gen, mem => by
      rcases List.mem_cons.mp mem with rfl | mem
      · exact (contained_compute scope expr).settle
      · exact contained_operandsOf scope rest gen mem

end

theorem contained_operand (scope : Scope) (expr : Expr) : Contained (operand scope expr) :=
  (contained_compute scope expr).settle

/-! ## Variables of others -/

section
variable {gen : Gen α} {names : Names} {name : String}

/-- What was handed out before is not written. -/
theorem Contained.writesTo_of_earlier (h : Contained gen) {base : Names}
    (held : base.Generated names name) : writesTo name (gen names).code = [] := by
  refine List.filter_eq_nil_iff.mpr fun instr mem touched => ?_
  exact held.not_later ((h names).2 instr mem name (of_decide_eq_true touched))

/-- What is handed out afterwards is not written. -/
theorem Contained.writesTo_of_later (h : Contained gen) {after : Names}
    (held : (gen names).names.Generated after name) : writesTo name (gen names).code = [] := by
  refine List.filter_eq_nil_iff.mpr fun instr mem touched => ?_
  exact ((h names).2 instr mem name (of_decide_eq_true touched)).not_later held

end

end Lowering

end MiniJava
