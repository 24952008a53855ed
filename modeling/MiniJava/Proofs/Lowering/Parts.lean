import MiniJava.Proofs.Lowering.Survey

/-!
# What stands for the parts of a program

The parts of an expression are the expressions inside it that are evaluated: a
receiver that is not a value is none of them (`parts`).  In lowered code every
part is represented by something of three-address code.  This module says by
what, without saying which names were drawn for it: `Denotes` where a variable
or literal stands for the value of an expression, `Computes` where a right-hand
side yields it, `Places` where it is assigned to, and `Issued` for calls.  Names
of temporaries and holders are known only as reserved ones.

What lowering hands back for an expression is so related to it, whatever the
supply of names (`computes_compute`, `denotes_operand`, `places_target`,
`issued_invoke`).
-/

namespace MiniJava

open Source (Expr Stmt Scope MethodEntry)
open Tac Semantics Lowering

/-! ## The parts of expressions and statements -/

section
variable (scope : Scope)

mutual

/-- An expression and the expressions inside it that are evaluated. -/
def parts : Expr → List Expr
  | .int value ty => [.int value ty]
  | .bool value ty => [.bool value ty]
  | .this ty => [.this ty]
  | .var name ty => [.var name ty]
  | .newObject className ty => [.newObject className ty]
  | .binary op lhs rhs ty => .binary op lhs rhs ty :: (parts lhs ++ parts rhs)
  | .not operand ty => .not operand ty :: parts operand
  | .paren inner ty => .paren inner ty :: parts inner
  | .newArray elem size ty => .newArray elem size ty :: parts size
  | .arrayInit items ty => .arrayInit items ty :: partsOfAll items
  | .index array position ty => .index array position ty :: (parts array ++ parts position)
  | .length array ty => .length array ty :: parts array
  | .call receiver method args ty =>
      .call receiver method args ty ::
        ((if Dispatch.ofReceiver scope receiver = .onValue then parts receiver else [])
          ++ partsOfAll args)

/-- The parts of some expressions. -/
def partsOfAll : List Expr → List Expr
  | [] => []
  | expr :: rest => parts expr ++ partsOfAll rest

end

/-- What is evaluated before a call is made. -/
def callParts (receiver : Expr) (args : List Expr) : List Expr :=
  (if Dispatch.ofReceiver scope receiver = .onValue then parts scope receiver else [])
    ++ partsOfAll scope args

/-- The expressions that a statement itself evaluates.  What a method without
result returns is not evaluated. -/
def evaluated : Stmt → List Expr
  | .assign target value => [target, value]
  | .ifElse cond _ _ => [cond]
  | .whileLoop cond _ => [cond]
  | .expr expr => [expr]
  | .block _ => []
  | .ret none => []
  | .ret (some value) => if (resultTy scope).isVoid then [] else [value]

/-- The parts of the expressions of a statement. -/
def partsOf (stmt : Stmt) : List Expr := partsOfAll scope (evaluated scope stmt)

/-- The parts of a statement whose values are used.  A call that is a statement
is none of them. -/
def valuesOf : Stmt → List Expr
  | .expr (.call receiver _ args _) => callParts scope receiver args
  | stmt => partsOf scope stmt

end

section
variable {scope : Scope} {expr part : Expr} {exprs : List Expr}

theorem mem_parts_self (scope : Scope) (expr : Expr) : expr ∈ parts scope expr := by
  cases expr <;> simp [parts]

theorem mem_partsOfAll :
    part ∈ partsOfAll scope exprs ↔ ∃ expr ∈ exprs, part ∈ parts scope expr := by
  induction exprs with
  | nil => simp [partsOfAll]
  | cons expr rest induction => simp [partsOfAll, induction]

theorem mem_partsOfAll_of_mem (mem : expr ∈ exprs) (inside : part ∈ parts scope expr) :
    part ∈ partsOfAll scope exprs :=
  mem_partsOfAll.mpr ⟨expr, mem, inside⟩

mutual

/-- A part of a part is a part. -/
theorem parts_subset (scope : Scope) : ∀ {expr part : Expr}, part ∈ parts scope expr →
    parts scope part ⊆ parts scope expr
  | .int _ _, _, mem | .bool _ _, _, mem | .this _, _, mem | .var _ _, _, mem
  | .newObject _ _, _, mem => by
      rw [List.mem_singleton.mp mem]
      exact List.Subset.refl _
  | .binary _ first second _, part, mem | .index first second _, part, mem => by
      rcases List.mem_cons.mp mem with rfl | mem
      · exact List.Subset.refl _
      rcases List.mem_append.mp mem with mem | mem
      · exact List.Subset.trans (parts_subset scope mem)
          (List.subset_cons_of_subset _ (List.subset_append_left ..))
      · exact List.Subset.trans (parts_subset scope mem)
          (List.subset_cons_of_subset _ (List.subset_append_right ..))
  | .not operand _, part, mem | .paren operand _, part, mem | .newArray _ operand _, part, mem
  | .length operand _, part, mem => by
      rcases List.mem_cons.mp mem with rfl | mem
      · exact List.Subset.refl _
      · exact List.Subset.trans (parts_subset scope mem) (List.subset_cons_self ..)
  | .arrayInit items _, part, mem => by
      rcases List.mem_cons.mp mem with rfl | mem
      · exact List.Subset.refl _
      · exact List.Subset.trans (parts_subset_all scope mem) (List.subset_cons_self ..)
  | .call receiver method args ty, part, mem => by
      rcases List.mem_cons.mp mem with rfl | mem
      · exact List.Subset.refl _
      rcases List.mem_append.mp mem with mem | mem
      · split at mem
        · refine List.Subset.trans (parts_subset scope mem) (List.subset_cons_of_subset _ ?_)
          rw [if_pos ‹_›]
          exact List.subset_append_left ..
        · cases mem
      · exact List.Subset.trans (parts_subset_all scope mem)
          (List.subset_cons_of_subset _ (List.subset_append_right ..))

theorem parts_subset_all (scope : Scope) : ∀ {exprs : List Expr} {part : Expr},
    part ∈ partsOfAll scope exprs → parts scope part ⊆ partsOfAll scope exprs
  | [], _, mem => by cases mem
  | _ :: _, _, mem => by
      rcases List.mem_append.mp mem with mem | mem
      · exact List.Subset.trans (parts_subset scope mem) (List.subset_append_left ..)
      · exact List.Subset.trans (parts_subset_all scope mem) (List.subset_append_right ..)

end

theorem partsOfAll_drop (scope : Scope) (exprs : List Expr) (count : Nat) :
    partsOfAll scope (exprs.drop count) ⊆ partsOfAll scope exprs := by
  intro part mem
  obtain ⟨expr, inside, inside'⟩ := mem_partsOfAll.mp mem
  exact mem_partsOfAll_of_mem (List.mem_of_mem_drop inside) inside'

theorem parts_subset_partsOf {stmt : Stmt} (mem : expr ∈ evaluated scope stmt) :
    parts scope expr ⊆ partsOf scope stmt :=
  fun _ inside => mem_partsOfAll_of_mem mem inside

/-- The parts of a value are values. -/
theorem parts_subset_valuesOf {stmt : Stmt} (mem : part ∈ valuesOf scope stmt) :
    parts scope part ⊆ valuesOf scope stmt := by
  cases stmt with
  | expr value =>
      cases value with
      | call receiver method args ty =>
          rcases List.mem_append.mp mem with mem | mem
          · refine List.subset_append_of_subset_left _ ?_
            split at mem
            · rw [if_pos ‹_›]
              exact parts_subset scope mem
            · cases mem
          · exact List.subset_append_of_subset_right _ (parts_subset_all scope mem)
      | _ => exact parts_subset_all scope mem
  | _ => exact parts_subset_all scope mem

theorem valuesOf_subset (scope : Scope) (stmt : Stmt) :
    valuesOf scope stmt ⊆ partsOf scope stmt := by
  cases stmt with
  | expr value =>
      cases value with
      | call receiver method args ty =>
          exact List.subset_append_of_subset_left _ (List.subset_cons_self ..)
      | _ => exact List.Subset.refl _
  | _ => exact List.Subset.refl _

end

/-! ## What stands for a value -/

/-- Whether an expression uses the receiver of the method, by name or through a
field. -/
def usesThis (scope : Scope) : Expr → Bool
  | .this _ => true
  | .var name _ => name = thisName || scope.isField name
  | _ => false

/-- A literal that stands for an integer or a truth value. -/
def Tac.Literal.IsConstant (lit : Literal) : Prop :=
  (∃ value, lit = .int value) ∨ ∃ value, lit = .bool value

/-- A variable or literal of the code of some expressions: a constant, or a
variable.  It is the receiver only if the receiver is used in one of them, and it
holds nothing only if one of them has no value. -/
inductive Stems (scope : Scope) (exprs : List Expr) : Element → Prop where
  | literal {lit : Literal} : lit.IsConstant → Stems scope exprs (.literal lit)
  | operand {op : Operand} :
      (op.isThis = true → ∃ part ∈ exprs, usesThis scope part = true) →
      (op.ty = .void → ∃ part ∈ exprs, typeOf scope part = .void) →
      Stems scope exprs (.operand op)

/-- A variable or literal that stands for the value of an expression. -/
structure Denotes (scope : Scope) (expr : Expr) (elem : Element) : Prop where
  ty : elem.ty = typeOf scope expr
  stems : Stems scope (parts scope expr) elem

/-- A right-hand side that yields the value of an expression. -/
inductive Computes (scope : Scope) : Expr → Rhs → Prop where
  | element : Denotes scope expr elem → Computes scope expr (.element elem)
  | arith : Denotes scope lhs left → Denotes scope rhs right →
      Computes scope (.binary (.arith op) lhs rhs ty) (.binary (.arith op) left right)
  | not : Denotes scope expr value → Computes scope (.not expr ty) (.not value)
  | newArray : Denotes scope size value →
      Computes scope (.newArray elem size ty) (.newArray value (.array (.ofSource elem)))
  | index : Denotes scope array (.operand base) → Denotes scope position value →
      Computes scope (.index array position ty) (.index (.of base value))

/-- What a call is made on. -/
inductive Aims (scope : Scope) (receiver : Expr) : CallKind → Target → Prop where
  | value : Dispatch.ofReceiver scope receiver = .onValue →
      Denotes scope receiver (.operand object) → Aims scope receiver .virtual (.object object)
  | onClass : Dispatch.ofReceiver scope receiver = .onClass name →
      Aims scope receiver .static (.className name)
  | assumed : Dispatch.ofReceiver scope receiver = .assumed name →
      Aims scope receiver .static (.className name)

/-- How many arguments of a call are passed as they are, and the type of the
packed ones. -/
def CallSite.collected? (scope : Scope) (site : CallSite) : Option (Nat × Source.Ty) :=
  (site.callee? scope).bind fun entry => Semantics.collected? entry (site.args.map Expr.ty)

/-- What is passed in a call. -/
inductive Passes (scope : Scope) (site : CallSite) : Element → Prop where
  | direct : arg ∈ site.args → Denotes scope arg elem → Passes scope site elem
  | packed : site.collected? scope = some (fixed, elemTy) → Names.Reserved array →
      Passes scope site (.var array (.array (.ofSource elemTy)))

/-- A call of the code is made as the source asks; `otherRet` is the result type
of methods that are not declared here. -/
structure Issued (scope : Scope) (site : CallSite) (otherRet : Ty) (call : Call) : Prop where
  aims : Aims scope site.receiver call.kind call.target
  method : call.method = site.method
  passes : ∀ elem ∈ call.args, Passes scope site elem
  ret : call.ret = match site.callee? scope with
    | some entry => .ofSource entry.ret
    | none => otherRet

/-- The place that the left side of an assignment denotes. -/
inductive Places (scope : Scope) : Expr → Place → Prop where
  | var : Denotes scope left (.operand op) → Places scope left (.var op)
  | cell : Denotes scope array (.operand base) → Denotes scope position index →
      Places scope (.index array position ty) (.cell (.of base index))
  | field : scope.isField name = true →
      Places scope (.var name ty) (.field (receiverOf scope) ⟨name, .ofSource ty⟩)
  | literal : Denotes scope left (.literal lit) → Places scope left (.literal lit)

/-! ## The values that lowering hands back -/

namespace Names

theorem reserved_nextTemp (names : Names) : Reserved names.nextTemp := ⟨_, .inl rfl⟩

theorem reserved_nextPack (names : Names) : Reserved names.nextPack := ⟨_, .inr rfl⟩

end Names

theorem Tac.Operand.isThis_of_reserved {name : String} (reserved : Names.Reserved name) (ty : Ty) :
    Operand.isThis ⟨name, ty⟩ = false := by
  rw [Operand.isThis, decide_eq_false_iff_not]
  intro same
  exact thisName_not_reserved (same ▸ reserved)

section
variable {scope : Scope} {expr : Expr} {exprs : List Expr} {elem : Element} {rhs : Rhs}

namespace Stems

theorem mono {more : List Expr} (h : Stems scope exprs elem) (subset : exprs ⊆ more) :
    Stems scope more elem := by
  cases h with
  | literal constant => exact .literal constant
  | operand uses void =>
      refine .operand (fun isThis => ?_) fun isVoid => ?_
      · obtain ⟨part, inside, used⟩ := uses isThis
        exact ⟨part, subset inside, used⟩
      · obtain ⟨part, inside, valueless⟩ := void isVoid
        exact ⟨part, subset inside, valueless⟩

/-- Variables that lowering invents are not the receiver. -/
theorem reserved {name : String} {ty : Ty} (reserved : Names.Reserved name)
    (void : ty = .void → ∃ part ∈ exprs, typeOf scope part = .void) :
    Stems scope exprs (.var name ty) := by
  refine .operand (fun isThis => ?_) void
  rw [Operand.isThis_of_reserved reserved] at isThis
  cases isThis

/-- Variables that lowering invents for arrays. -/
theorem array {name : String} {elemTy : Ty} (reserved : Names.Reserved name) :
    Stems scope exprs (.var name (.array elemTy)) :=
  .reserved reserved nofun

theorem receiver {part : Expr} (inside : part ∈ exprs) (uses : usesThis scope part = true) :
    Stems scope exprs (.operand (receiverOf scope)) :=
  .operand (fun _ => ⟨part, inside, uses⟩) nofun

end Stems

namespace Denotes

theorem reserved {name : String} {ty : Ty} (reserved : Names.Reserved name)
    (same : ty = typeOf scope expr) : Denotes scope expr (.var name ty) :=
  ⟨same, .reserved reserved fun void => ⟨expr, mem_parts_self _ _, same ▸ void⟩⟩

/-- What stands for an expression stands for it in parentheses. -/
theorem paren (h : Denotes scope expr elem) (ty : Source.Ty) :
    Denotes scope (.paren expr ty) elem :=
  ⟨h.ty, h.stems.mono (List.subset_cons_self ..)⟩

theorem toVariable (h : Denotes scope expr elem) (names : Names) :
    Denotes scope expr (.operand (Gen.toVariable elem names).value) := by
  cases elem with
  | literal lit => exact .reserved names.reserved_nextTemp h.ty
  | operand op => exact h

end Denotes

namespace Computes

theorem ty (h : Computes scope expr rhs) : rhs.ty = typeOf scope expr := by
  cases h with
  | element denotes => exact denotes.ty
  | index base _ => exact congrArg (fun ty : Ty => ty.element?.getD .int) base.ty
  | _ => rfl

theorem settle (h : Computes scope expr rhs) (names : Names) :
    Denotes scope expr (Gen.settle rhs names).value := by
  have same := h.ty
  cases h with
  | element denotes => exact denotes
  | _ => exact .reserved names.reserved_nextTemp same

end Computes

end

namespace Lowering

theorem denotes_readName (scope : Scope) (name : String) (ty : Source.Ty) (names : Names) :
    Denotes scope (.var name ty) (readName scope name (.ofSource ty) names).value := by
  rw [readName]
  split
  · exact .reserved names.reserved_nextTemp rfl
  · refine ⟨rfl, .operand (fun isThis => ⟨_, mem_parts_self _ _, ?_⟩)
      fun void => ⟨_, mem_parts_self _ _, void⟩⟩
    rw [usesThis, Bool.or_eq_true]
    exact .inl isThis

theorem reserved_pack (elemTy : Ty) (items : List (Gen Element)) (names : Names) :
    ∃ name, Names.Reserved name ∧ (pack elemTy items names).value = .var name (.array elemTy) := by
  rw [pack, Gen.value_bind]
  split
  · exact ⟨_, names.reserved_nextTemp, rfl⟩
  · exact ⟨_, Names.reserved_nextPack _, rfl⟩

/-- A lowered expression yields the value of the expression. -/
theorem computes_compute (scope : Scope) : ∀ (expr : Expr) (names : Names),
    Computes scope expr (compute scope expr names).value
  | .int value _, _ => .element ⟨rfl, .literal (.inl ⟨value, rfl⟩)⟩
  | .bool value _, _ => .element ⟨rfl, .literal (.inr ⟨value, rfl⟩)⟩
  | .this _, _ => .element ⟨rfl, .receiver (mem_parts_self _ _) rfl⟩
  | .var name ty, names => .element (denotes_readName scope name ty names)
  | .binary (.arith _) lhs rhs _, _ =>
      .arith ((computes_compute scope lhs _).settle _) ((computes_compute scope rhs _).settle _)
  | .binary .and _ _ _, _ => .element (.reserved (Names.reserved_nextTemp _) rfl)
  | .binary .lt _ _ _, _ => .element (.reserved (Names.reserved_nextTemp _) rfl)
  | .not inner _, _ => .not ((computes_compute scope inner _).settle _)
  | .paren inner _, _ => .element (((computes_compute scope inner _).settle _).paren _)
  | .newObject _ _, _ => .element (.reserved (Names.reserved_nextTemp _) rfl)
  | .newArray _ size _, _ => .newArray ((computes_compute scope size _).settle _)
  | .arrayInit items ty, names => by
      obtain ⟨name, reserved, same⟩ :=
        reserved_pack (.ofSource ty.element) (operandsOf scope items) names
      show Computes scope _ (.element (pack (m := Gen) _ _ names).value)
      rw [same]
      exact .element (.reserved reserved rfl)
  | .index array position _, _ =>
      .index (((computes_compute scope array _).settle _).toVariable _)
        ((computes_compute scope position _).settle _)
  | .length _ _, _ => .element (.reserved (Names.reserved_nextTemp _) rfl)
  | .call receiver method args ty, names =>
      .element (.reserved (Names.reserved_nextTemp _)
        (ty_compute scope (.call receiver method args ty) names))

/-- A lowered operand stands for the value of the expression. -/
theorem denotes_operand (scope : Scope) (expr : Expr) (names : Names) :
    Denotes scope expr (operand scope expr names).value :=
  (computes_compute scope expr names).settle _

theorem denotes_inOrder (scope : Scope) : ∀ (exprs : List Expr) (names : Names),
    ∀ elem ∈ (Gen.inOrder (operandsOf scope exprs) names).value,
      ∃ expr ∈ exprs, Denotes scope expr elem
  | [], _, _, mem => by cases mem
  | expr :: rest, names, elem, mem => by
      rcases List.mem_cons.mp mem with rfl | mem
      · exact ⟨expr, List.mem_cons_self, denotes_operand scope expr names⟩
      · obtain ⟨other, inside, denotes⟩ := denotes_inOrder scope rest _ elem mem
        exact ⟨other, List.mem_cons_of_mem _ inside, denotes⟩

theorem aims_reach (scope : Scope) (receiver : Expr) (method : String) (names : Names) :
    Aims scope receiver (reach scope receiver (operand scope receiver) method names).value.kind
      (reach scope receiver (operand scope receiver) method names).value.target := by
  rw [reach]
  cases dispatch : Dispatch.ofReceiver scope receiver with
  | onValue => exact .value dispatch ((denotes_operand scope receiver names).toVariable _)
  | onClass name => exact .onClass dispatch
  | assumed name => exact .assumed dispatch

theorem passes_passArgs (scope : Scope) (site : CallSite) (names : Names) :
    ∀ elem ∈ (passArgs (site.callee? scope) (site.args.map Expr.ty) (operandsOf scope site.args)
      names).value, Passes scope site elem := by
  intro elem
  simp only [passArgs, packing?_eq_collected?]
  cases packing : (site.callee? scope).bind fun entry =>
      collected? entry (site.args.map Expr.ty) with
  | none =>
      intro mem
      obtain ⟨expr, inside, denotes⟩ := denotes_inOrder scope site.args names elem mem
      exact .direct inside denotes
  | some way =>
      obtain ⟨fixed, elemTy⟩ := way
      intro mem
      rcases List.mem_append.mp mem with mem | mem
      · rw [operandsOf_eq_map, ← List.map_take, ← operandsOf_eq_map] at mem
        obtain ⟨expr, inside, denotes⟩ :=
          denotes_inOrder scope (site.args.take fixed) names elem mem
        exact .direct (List.mem_of_mem_take inside) denotes
      · obtain ⟨name, reserved, same⟩ := reserved_pack (.ofSource elemTy) _ _
        rw [List.mem_singleton.mp mem, same]
        exact .packed packing reserved

/-- A lowered call is made as its source asks. -/
theorem issued_invoke (scope : Scope) (receiver : Expr) (method : String) (args : List Expr)
    (otherRet : Ty) (names : Names) :
    Issued scope ⟨receiver, method, args⟩ otherRet
      (invoke scope receiver (operand scope receiver) method (args.map Expr.ty)
        (operandsOf scope args) otherRet names).value where
  aims := aims_reach scope receiver method names
  method := rfl
  passes := by
    have own := isOwn_reach names scope receiver (operand scope receiver) method
      (ty_operand scope receiver names)
    have passed := passes_passArgs scope ⟨receiver, method, args⟩
      (reach scope receiver (operand scope receiver) method names).names
    rw [CallSite.callee?, ownMethod?, ← own] at passed
    exact passed
  ret := ret_invoke names scope receiver _ method _ _ otherRet (ty_operand scope receiver names)

theorem places_ofElement {scope : Scope} {expr : Expr} {elem : Element}
    (h : Denotes scope expr elem) :
    Places scope expr (.ofElement elem) := by
  cases elem with
  | operand op => exact .var h
  | literal lit => exact .literal h

theorem places_target (scope : Scope) (expr : Expr) (names : Names) :
    Places scope expr (target scope expr names).value := by
  cases expr with
  | var name ty =>
      rw [target]
      split
      · exact .field ‹_›
      · have denotes := denotes_readName scope name ty names
        rw [readName, if_neg ‹_›] at denotes
        exact .var denotes
  | index array position ty =>
      exact .cell ((denotes_operand scope array names).toVariable _)
        (denotes_operand scope position _)
  | _ => exact places_ofElement (denotes_operand scope _ names)

end Lowering

end MiniJava
