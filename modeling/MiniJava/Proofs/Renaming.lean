import Mathlib.Logic.Function.Basic
import MiniJava.Error
import MiniJava.Jasmin.Class
import MiniJava.Proofs.Registers

/-!
# Renaming variables and labels

A renaming gives other names to the variables of three-address code and other
labels to its branch targets.  Names of fields, methods and classes are not
variables and stay.  Renaming twice is renaming by the composition.

A renaming that keeps variables apart keeps their slots: it commutes with the
sequential layout, and the number of slots to reserve stays the same.  So
assembly code has labels to rename and nothing else, and its text changes where
a label is spelled.
-/

namespace MiniJava

/-- New names for variables and for labels. -/
structure Renaming where
  name : String → String
  label : Label → Label

namespace Renaming

/-- The renaming that changes nothing. -/
protected def id : Renaming := ⟨id, id⟩

/-- One renaming after another. -/
def comp (second first : Renaming) : Renaming :=
  ⟨second.name ∘ first.name, second.label ∘ first.label⟩

@[simp]
theorem name_id : Renaming.id.name = id := rfl

@[simp]
theorem label_id : Renaming.id.label = id := rfl

@[simp]
theorem name_comp (second first : Renaming) :
    (second.comp first).name = second.name ∘ first.name := rfl

@[simp]
theorem label_comp (second first : Renaming) :
    (second.comp first).label = second.label ∘ first.label := rfl

/-- A renaming under which different variables stay different and the receiver
remains the receiver. -/
structure Faithful (naming : Renaming) : Prop where
  injective : Function.Injective naming.name
  this : naming.name Tac.thisName = Tac.thisName

theorem faithful_id : Renaming.id.Faithful := ⟨Function.injective_id, rfl⟩

/-- Only the receiver is renamed to the receiver. -/
theorem Faithful.name_eq_this_iff {naming : Renaming} (faithful : naming.Faithful)
    {name : String} : naming.name name = Tac.thisName ↔ name = Tac.thisName := by
  nth_rewrite 1 [← faithful.this]
  exact faithful.injective.eq_iff

end Renaming

/-! ## Three-address code -/

namespace Tac

def Operand.rename (naming : Renaming) (op : Operand) : Operand :=
  ⟨naming.name op.name, op.ty⟩

def Element.rename (naming : Renaming) : Element → Element
  | .operand op => .operand (op.rename naming)
  | .literal lit => .literal lit

def Cell.rename (naming : Renaming) (cell : Cell) : Cell :=
  ⟨cell.array.rename naming, cell.index.rename naming, cell.elemTy⟩

def Target.rename (naming : Renaming) : Target → Target
  | .className name => .className name
  | .object receiver => .object (receiver.rename naming)

def Call.rename (naming : Renaming) (call : Call) : Call :=
  { call with
    target := call.target.rename naming
    args := call.args.map (Element.rename naming) }

/-- Rename the variables of an expression. -/
def Rhs.rename (naming : Renaming) : Rhs → Rhs
  | .element elem => .element (elem.rename naming)
  | .binary op lhs rhs => .binary op (lhs.rename naming) (rhs.rename naming)
  | .not operand => .not (operand.rename naming)
  | .call invocation => .call (invocation.rename naming)
  | .new className => .new className
  | .newArray size ty => .newArray (size.rename naming) ty
  | .length array => .length (array.rename naming)
  | .getField object field => .getField (object.rename naming) field
  | .index place => .index (place.rename naming)

def Dest.rename (naming : Renaming) : Dest → Dest
  | .var op => .var (op.rename naming)
  | .cell place => .cell (place.rename naming)

/-- Rename the variables and labels of an instruction. -/
def Instr.rename (naming : Renaming) : Instr → Instr
  | .assign dest ty rhs => .assign (dest.rename naming) ty (rhs.rename naming)
  | .putField object field value =>
      .putField (object.rename naming) field (value.rename naming)
  | .call invocation => .call (invocation.rename naming)
  | .goto target => .goto (naming.label target)
  | .label mark => .label (naming.label mark)
  | .branch cond target => .branch (cond.rename naming) (naming.label target)
  | .ret ty value => .ret ty (value.map (Element.rename naming))

/-! ### Renaming once, twice and not at all -/

section
variable (second first : Renaming)

@[simp]
theorem Operand.rename_id (op : Operand) : op.rename .id = op := rfl

/-- Renaming an operand twice is renaming it by the composition. -/
@[simp]
theorem Operand.rename_rename (op : Operand) :
    (op.rename first).rename second = op.rename (second.comp first) := rfl

@[simp]
theorem Element.rename_id : Element.rename .id = id := by
  funext elem
  cases elem <;> rfl

@[simp]
theorem Element.rename_rename (elem : Element) :
    (elem.rename first).rename second = elem.rename (second.comp first) := by
  cases elem <;> rfl

/-- The law for renaming all elements of a list twice. -/
@[simp]
theorem Element.rename_comp_rename :
    Element.rename second ∘ Element.rename first = Element.rename (second.comp first) :=
  funext (rename_rename second first)

@[simp]
theorem Cell.rename_id (cell : Cell) : cell.rename .id = cell := by
  simp [rename]

@[simp]
theorem Cell.rename_rename (cell : Cell) :
    (cell.rename first).rename second = cell.rename (second.comp first) := by
  simp [rename]

@[simp]
theorem Target.rename_id (target : Target) : target.rename .id = target := by
  cases target <;> rfl

@[simp]
theorem Target.rename_rename (target : Target) :
    (target.rename first).rename second = target.rename (second.comp first) := by
  cases target <;> rfl

@[simp]
theorem Call.rename_id (call : Call) : call.rename .id = call := by
  simp [rename]

@[simp]
theorem Call.rename_rename (call : Call) :
    (call.rename first).rename second = call.rename (second.comp first) := by
  simp [rename]

@[simp]
theorem Rhs.rename_id (rhs : Rhs) : rhs.rename .id = rhs := by
  cases rhs <;> simp [rename]

@[simp]
theorem Rhs.rename_rename (rhs : Rhs) :
    (rhs.rename first).rename second = rhs.rename (second.comp first) := by
  cases rhs <;> simp [rename]

@[simp]
theorem Dest.rename_id (dest : Dest) : dest.rename .id = dest := by
  cases dest <;> simp [rename]

@[simp]
theorem Dest.rename_rename (dest : Dest) :
    (dest.rename first).rename second = dest.rename (second.comp first) := by
  cases dest <;> simp [rename]

/-- The renaming that changes nothing leaves instructions as they are. -/
@[simp]
theorem Instr.rename_id (instr : Instr) : instr.rename .id = instr := by
  cases instr <;> simp [rename]

/-- Renaming an instruction twice is renaming it by the composition. -/
@[simp]
theorem Instr.rename_rename (instr : Instr) :
    (instr.rename first).rename second = instr.rename (second.comp first) := by
  cases instr <;> simp [rename]

end

/-! ### What does not change -/

section
variable (naming : Renaming)

/-- Variables keep their types. -/
@[simp]
theorem Operand.ty_rename (op : Operand) : (op.rename naming).ty = op.ty := rfl

@[simp]
theorem Element.ty_rename (elem : Element) : (elem.rename naming).ty = elem.ty := by
  cases elem <;> rfl

/-- Expressions keep their types, since no type is read off a name. -/
@[simp]
theorem Rhs.ty_rename (rhs : Rhs) : (rhs.rename naming).ty = rhs.ty := by
  cases rhs <;> simp [rename, ty, Call.rename, Cell.rename]

/-- No other variable is taken for the receiver. -/
theorem Operand.isThis_rename {naming : Renaming} (faithful : naming.Faithful) (op : Operand) :
    (op.rename naming).isThis = op.isThis := by
  simp only [isThis, rename, faithful.name_eq_this_iff]

/-! ### The variables of an instruction -/

theorem Element.operands_rename (elem : Element) :
    (elem.rename naming).operands = elem.operands.map (Operand.rename naming) := by
  cases elem <;> rfl

theorem Cell.operands_rename (cell : Cell) :
    (cell.rename naming).operands = cell.operands.map (Operand.rename naming) := by
  simp [operands, rename, Element.operands_rename]

/-- A call mentions the renamed variables, in the same order. -/
theorem Call.operands_rename (call : Call) :
    (call.rename naming).operands = call.operands.map (Operand.rename naming) := by
  obtain ⟨kind, target, method, args, ret⟩ := call
  cases target <;>
    simp [operands, rename, Target.rename, List.flatMap_map, List.map_flatMap,
      Element.operands_rename]

theorem Rhs.operands_rename (rhs : Rhs) :
    (rhs.rename naming).operands = rhs.operands.map (Operand.rename naming) := by
  cases rhs <;>
    simp [operands, rename, Element.operands_rename, Call.operands_rename, Cell.operands_rename]

/-- An instruction mentions the renamed variables, in the same order. -/
theorem Instr.operands_rename (instr : Instr) :
    (instr.rename naming).operands = instr.operands.map (Operand.rename naming) := by
  cases instr with
  | assign dest ty rhs =>
      cases dest <;>
        simp [operands, rename, Dest.operands, Dest.rename, Rhs.operands_rename,
          Cell.operands_rename]
  | ret ty value => cases value <;> simp [operands, rename, Element.operands_rename]
  | _ => simp [operands, rename, Element.operands_rename, Call.operands_rename, Rhs.operands_rename]

end

end Tac

/-! ## Errors -/

def Unsupported.rename (naming : Renaming) : Unsupported → Unsupported
  | .callOn kind target => .callOn kind (target.rename naming)
  | .voidStore name => .voidStore (naming.name name)
  | .assignmentTo target => .assignmentTo (target.rename naming)
  | construct => construct

/-- Rename the variables that an error mentions. -/
def CompileError.rename (naming : Renaming) : CompileError → CompileError
  | .unsupported construct => .unsupported (construct.rename naming)
  | .unknownVariable method name => .unknownVariable method (naming.name name)
  | error => error

/-- The renaming that changes nothing leaves errors as they are. -/
@[simp]
theorem CompileError.rename_id (error : CompileError) : error.rename .id = error := by
  cases error with
  | unsupported construct => cases construct <;> simp [rename, Unsupported.rename]
  | _ => rfl

/-- Renaming an error twice is renaming it by the composition. -/
@[simp]
theorem CompileError.rename_rename (second first : Renaming) (error : CompileError) :
    (error.rename first).rename second = error.rename (second.comp first) := by
  cases error with
  | unsupported construct => cases construct <;> simp [rename, Unsupported.rename]
  | _ => rfl

/-- Rename what a step of compilation comes to. -/
def Renaming.outcome {α β : Type} (naming : Renaming) (f : α → β) :
    Except CompileError α → Except CompileError β
  | .error error => .error (error.rename naming)
  | .ok value => .ok (f value)

/-! ## Layouts -/

/-- Rename the entries of a table. -/
def Table.mapNames {α : Type} (f : String → String) (table : Table α) : Table α :=
  ⟨table.entries.map fun entry => (f entry.1, entry.2)⟩

/-- If names are kept apart, a look-up finds the same entry under the new name. -/
theorem Table.find?_mapNames {α : Type} {f : String → String} (injective : Function.Injective f)
    (table : Table α) (name : String) : (table.mapNames f).find? (f name) = table.find? name := by
  simp only [find?, mapNames, List.find?_map, Option.map_map, Function.comp_def,
    injective.eq_iff]

/-- Renaming the entries of a table leaves their values. -/
@[simp]
theorem Table.values_mapNames {α : Type} (f : String → String) (table : Table α) :
    (table.mapNames f).values = table.values := by
  simp [values, mapNames]

namespace Tac.Registers

variable {naming : Renaming}

/-- Rename the variables of a layout; they keep their slots. -/
def rename (naming : Renaming) (registers : Registers) : Registers :=
  ⟨registers.slots.mapNames naming.name⟩

theorem rename_rename (second first : Renaming) (registers : Registers) :
    (registers.rename first).rename second = registers.rename (second.comp first) := by
  simp [rename, Table.mapNames, Renaming.comp]

/-- The next free slot depends on the slots alone. -/
@[simp]
theorem nextFree_rename (registers : Registers) :
    (registers.rename naming).nextFree = registers.nextFree := by
  simp [nextFree, max?, rename]

/-- A variable keeps its slot under its new name. -/
theorem find?_rename (faithful : naming.Faithful) (registers : Registers) (name : String) :
    (registers.rename naming).find? (naming.name name) = registers.find? name :=
  Table.find?_mapNames faithful.injective registers.slots name

/-- A variable gets a slot of its own, or keeps the one it has, under either name. -/
theorem push_rename (faithful : naming.Faithful) (registers : Registers) (name : String) :
    (registers.rename naming).push (naming.name name) =
      (registers.push name).rename naming := by
  have renamed := find?_rename faithful registers name
  rw [push, push, renamed]
  cases found : registers.find? name with
  | some slot => rfl
  | none =>
      rw [found] at renamed
      have first := Table.entries_insert_of_find?_eq_none found registers.nextFree
      have second := Table.entries_insert_of_find?_eq_none renamed registers.nextFree
      have entries : ((registers.rename naming).slots.insert (naming.name name)
          registers.nextFree).entries =
          ((registers.slots.insert name registers.nextFree).mapNames naming.name).entries := by
        rw [second, Table.mapNames, first, List.map_append]
        rfl
      show insert _ _ (nextFree _) = _
      rw [nextFree_rename]
      exact congrArg (Registers.mk ∘ Table.mk) entries

theorem foldl_push_rename (faithful : naming.Faithful) (names : List String) :
    ∀ registers : Registers, (names.map naming.name).foldl push (registers.rename naming) =
      (names.foldl push registers).rename naming := by
  induction names with
  | nil => exact fun _ => rfl
  | cons name rest ih =>
      intro registers
      rw [List.map_cons, List.foldl_cons, push_rename faithful, ih, List.foldl_cons]

/-- Renamed code mentions the renamed variables, in the same order. -/
theorem mentioned_rename (faithful : naming.Faithful) (body : List Instr) :
    mentioned (body.map (Instr.rename naming)) = (mentioned body).map naming.name := by
  have operands : (body.map (Instr.rename naming)).flatMap Instr.operands =
      (body.flatMap Instr.operands).map (Operand.rename naming) := by
    simp only [List.flatMap_map, List.map_flatMap, Instr.operands_rename]
  rw [mentioned, operands, List.filter_map, List.map_map, mentioned, List.map_map]
  simp only [Function.comp_def, Operand.isThis_rename faithful]
  rfl

/-- Variables keep their slots if the parameters keep their names. -/
theorem sequential_rename (faithful : naming.Faithful) (isStatic : Bool) {params : List Operand}
    (fixed : ∀ param ∈ params, naming.name param.name = param.name) (body : List Instr) :
    sequential isStatic params (body.map (Instr.rename naming)) =
      (sequential isStatic params body).rename naming := by
  have start : (if isStatic then empty else empty.insert thisName 0) =
      (if isStatic then empty else empty.insert thisName 0).rename naming := by
    cases isStatic with
    | true => rfl
    | false =>
        simp [insert, empty, rename, Table.insert, Table.empty, Table.insertEntry, Table.mapNames,
          faithful.this]
  have names : params.map Operand.name = (params.map Operand.name).map naming.name := by
    rw [List.map_map, eq_comm]
    exact List.map_congr_left fixed
  rw [sequential, mentioned_rename faithful, names, ← List.map_append, start,
    foldl_push_rename faithful, sequential]

/-- As many slots are reserved as before. -/
theorem limit_rename (faithful : naming.Faithful) (registers : Registers) :
    (registers.rename naming).limit = registers.limit := by
  have names : (registers.rename naming).slots.names =
      registers.slots.names.map naming.name := by
    simp [rename, Table.names, Table.mapNames]
  simp only [limit, nextFree_rename, names, List.filter_map, List.length_map, Function.comp_def,
    ne_eq, faithful.name_eq_this_iff]

end Tac.Registers

/-! ## Methods -/

namespace Tac.Method

/-- Rename the variables and labels in the body of a method. -/
def rename (naming : Renaming) (method : Method) : Method :=
  { method with
    body := method.body.map (Instr.rename naming)
    registers := method.registers.rename naming }

theorem rename_rename (second first : Renaming) (method : Method) :
    (method.rename first).rename second = method.rename (second.comp first) := by
  simp [rename, Registers.rename_rename]

/-- The slots of a method go with its variables. -/
theorem layout_rename {naming : Renaming} (faithful : naming.Faithful) {method : Method}
    (fixed : ∀ param ∈ method.params, naming.name param.name = param.name) :
    (method.rename naming).layout = method.layout.rename naming := by
  have isEmpty : (method.rename naming).registers.isEmpty = method.registers.isEmpty := by
    simp [rename, Registers.rename, Registers.isEmpty, Table.isEmpty, Table.mapNames]
  rw [layout, layout, isEmpty]
  split
  · exact Registers.sequential_rename faithful method.isStatic fixed method.body
  · rfl

end Tac.Method

/-! ## Assembly -/

namespace Jasmin

/-- Rename the labels of an instruction. -/
def Instr.relabel (f : Label → Label) : Instr → Instr
  | goto target => goto (f target)
  | ifZero test target => ifZero test (f target)
  | ifPair test target => ifPair test (f target)
  | label mark => label (f mark)
  | instr => instr

@[simp]
theorem Instr.relabel_id : Instr.relabel id = id := by
  funext instr
  cases instr <;> rfl

/-- Relabelling an instruction twice is relabelling it by the composition. -/
@[simp]
theorem Instr.relabel_relabel (f g : Label → Label) (instr : Instr) :
    (instr.relabel g).relabel f = instr.relabel (f ∘ g) := by
  cases instr <;> rfl

/-- Constants have no labels. -/
@[simp]
theorem Instr.relabel_ofInt (f : Label → Label) (value : Int32) :
    (ofInt value).relabel f = ofInt value := by
  unfold ofInt
  split_ifs <;> rfl

/-- Rename the labels of a method. -/
def Method.relabel (f : Label → Label) (method : Method) : Method :=
  { method with code := method.code.map (Instr.relabel f) }

theorem Method.relabel_relabel (f g : Label → Label) (method : Method) :
    (method.relabel g).relabel f = method.relabel (f ∘ g) := by
  simp [relabel]

/-! ## Texts -/

/-- The line of an instruction for a chosen spelling of labels. -/
def Instr.lineWith (spell : Label → String) (indent : String) : Instr → String
  | goto target => indent ++ ("goto " ++ spell target) ++ "\n"
  | ifZero test target => indent ++ (test.mnemonic ++ " " ++ spell target) ++ "\n"
  | ifPair test target => indent ++ (test.mnemonic ++ " " ++ spell target) ++ "\n"
  | label mark => spell mark ++ ":" ++ "\n"
  | instr => instr.line indent

/-- With its own spelling of labels an instruction has its own line. -/
theorem Instr.lineWith_text (indent : String) (instr : Instr) :
    instr.lineWith Label.text indent = instr.line indent := by
  cases instr <;> rfl

/-- New labels in the old spelling are old labels in a new one. -/
theorem Instr.lineWith_relabel (spell : Label → String) (f : Label → Label) (indent : String)
    (instr : Instr) :
    (instr.relabel f).lineWith spell indent = instr.lineWith (spell ∘ f) indent := by
  cases instr <;> rfl

/-- The text of a method for a chosen spelling of labels. -/
def Method.textWith (spell : Label → String) (indent : String) (method : Method) : String :=
  ".method "
    ++ (if method.isPublic then "public " else "")
    ++ (if method.isStatic then "static " else "")
    ++ method.name ++ method.descriptor.text ++ "\n"
    ++ indent ++ ".limit stack " ++ Nat.repr method.stackLimit ++ "\n"
    ++ indent ++ ".limit locals " ++ Nat.repr method.localsLimit ++ "\n"
    ++ .join (method.code.map (Instr.lineWith spell indent))
    ++ ".end method\n"

/-- With its own spelling of labels a method has its own text. -/
theorem Method.textWith_text (indent : String) (method : Method) :
    method.textWith Label.text indent = method.text indent := by
  have lines : method.code.map (Instr.lineWith Label.text indent) =
      method.code.map (Instr.line indent) :=
    List.map_congr_left fun instr _ => instr.lineWith_text indent
  unfold textWith text
  rw [lines]

/-- The text of a method changes only where a label is spelled. -/
theorem Method.textWith_relabel (spell : Label → String) (f : Label → Label) (indent : String)
    (method : Method) :
    (method.relabel f).textWith spell indent = method.textWith (spell ∘ f) indent := by
  have lines : (method.relabel f).code.map (Instr.lineWith spell indent) =
      method.code.map (Instr.lineWith (spell ∘ f) indent) := by
    rw [relabel, List.map_map]
    exact List.map_congr_left fun instr _ => instr.lineWith_relabel spell f indent
  unfold textWith
  rw [lines]
  rfl

end Jasmin

end MiniJava
