import MiniJava.Proofs.Lowering.Parts

/-!
# Honest annotations

Expressions carry the types that analysis gave them.  An annotation is honest if
it is the one that the declarations and the parts of the expression give
(`Annotated`).  Lowering does not read annotations everywhere: it takes the type
of an operand from how the operand came about (`typeOf`).  For honest
annotations the two agree, with two exceptions (`typeOf_cases`).  A class may be
called `int`, and then the annotation of its objects reads as that of integers,
where lowering knows them for objects.  And what is no array may be indexed, to
which the annotation gives its own type and lowering that of integers.
-/

namespace MiniJava

open Source (Expr Scope MethodEntry Var)
open Tac Semantics Lowering

/-! ## What declarations give -/

/-- The type that a name is declared with: that of a local, a parameter or else a
field. -/
def declaredTy? (scope : Scope) (name : String) : Option Source.Ty :=
  ((scope.method.lookup? name).orElse fun _ => scope.symbols.field? name).map Var.ty

/-- The declared method that a call refers to, going by the type annotation of
its receiver. -/
def declaredMethod? (scope : Scope) (receiver : Expr) (method : String) : Option MethodEntry :=
  match Dispatch.ofReceiver scope receiver with
  | .onValue =>
      if receiver.ty = .object scope.symbols.className then scope.symbols.method? method else none
  | .onClass name => if name = scope.symbols.className then scope.symbols.method? method else none
  | .assumed _ => none

/-- An expression is annotated with the type that its form, its parts and the
declarations give.  The result type of methods declared elsewhere is free. -/
def Annotated (scope : Scope) : Expr → Prop
  | .int _ ty => ty = .int
  | .bool _ ty => ty = .boolean
  | .this ty => ty = .object scope.symbols.className
  | .var name ty => declaredTy? scope name = some ty
  | .binary op _ _ ty => ty = op.resultTy
  | .not _ ty => ty = .boolean
  | .paren inner ty => ty = inner.ty
  | .newObject className ty => ty = .object className
  | .newArray elem _ ty => ty = .arrayOf elem.name
  | .arrayInit _ ty => ty.isArray = true
  | .index array _ ty => ty = array.ty.element
  | .length _ ty => ty = .int
  | .call receiver method _ ty => ∀ entry ∈ declaredMethod? scope receiver method, ty = entry.ret

instance (scope : Scope) : DecidablePred (Annotated scope)
  | .int _ ty | .length _ ty => inferInstanceAs (Decidable (ty = .int))
  | .bool _ ty | .not _ ty => inferInstanceAs (Decidable (ty = .boolean))
  | .this ty => inferInstanceAs (Decidable (ty = .object scope.symbols.className))
  | .var name ty => inferInstanceAs (Decidable (declaredTy? scope name = some ty))
  | .binary op _ _ ty => inferInstanceAs (Decidable (ty = op.resultTy))
  | .paren inner ty => inferInstanceAs (Decidable (ty = inner.ty))
  | .newObject className ty => inferInstanceAs (Decidable (ty = .object className))
  | .newArray elem _ ty => inferInstanceAs (Decidable (ty = .arrayOf elem.name))
  | .arrayInit _ ty => inferInstanceAs (Decidable (ty.isArray = true))
  | .index array _ ty => inferInstanceAs (Decidable (ty = array.ty.element))
  | .call receiver method _ ty =>
      inferInstanceAs (Decidable (∀ entry ∈ declaredMethod? scope receiver method, ty = entry.ret))

/-- Arrays that are made have one dimension. -/
def Flat : Expr → Prop
  | .newArray elem _ _ => elem.isArray = false
  | _ => True

/-- Whether an expression, apart from parentheses, indexes what is no array. -/
def misindexes : Expr → Bool
  | .paren inner _ => misindexes inner
  | .index array _ _ => !array.ty.isArray
  | _ => false

/-! ## The two notions of type -/

namespace Tac.Ty

theorem ofSource_of_isArray {ty : Source.Ty} (h : ty.isArray = true) :
    ofSource ty = .array (ofName ty.name) := if_pos h

theorem ofSource_of_not_isArray {ty : Source.Ty} (h : ty.isArray = false) :
    ofSource ty = ofName ty.name := by
  rw [ofSource, h]
  rfl

theorem element?_ofName (name : String) : (ofName name).element? = none := by
  rw [ofName]
  split_ifs <;> rfl

/-- Only names that are not predefined stand for classes. -/
theorem name_of_ofName_object {name className : String} (h : ofName name = .object className) :
    name = className := by
  rw [ofName] at h
  split at h
  · cases h
  split at h
  · cases h
  split at h
  · cases h
  split at h
  · cases h
  · exact Ty.object.inj h

theorem eq_object_of_ofSource {ty : Source.Ty} {className : String}
    (h : ofSource ty = .object className) : ty = .object className := by
  obtain ⟨name, isArray⟩ := ty
  cases isArray with
  | true => cases h
  | false =>
      have same : name = className := name_of_ofName_object h
      rw [same, Source.Ty.object]

end Tac.Ty

section
variable {scope : Scope}

/-- What is known of the two types of an expression. -/
def TypesAgree (scope : Scope) (expr : Expr) : Prop :=
  typeOf scope expr = .ofSource expr.ty ∨
    (∃ className, typeOf scope expr = .object className ∧ expr.ty = .object className ∧
      (className = scope.symbols.className ∨
        ∃ ty, .newObject className ty ∈ parts scope expr)) ∨
    misindexes expr = true ∧ typeOf scope expr = .int ∧ expr.ty.isArray = false

theorem TypesAgree.object {expr : Expr} {className : String} (h : TypesAgree scope expr)
    (object : typeOf scope expr = .object className) : expr.ty = .object className := by
  rcases h with same | ⟨other, isObject, annotated, _⟩ | ⟨_, isInt, _⟩
  · exact Ty.eq_object_of_ofSource (same ▸ object)
  · rw [annotated, Ty.object.inj (isObject.symm.trans object)]
  · cases isInt.symm.trans object

theorem TypesAgree.array {expr : Expr} (h : TypesAgree scope expr)
    (isArray : expr.ty.isArray = true) :
    typeOf scope expr = .array (.ofSource expr.ty.element) := by
  rcases h with same | ⟨className, _, annotated, _⟩ | ⟨_, _, noArray⟩
  · rw [same, Ty.ofSource_of_isArray isArray]
    rfl
  · rw [annotated] at isArray
    cases isArray
  · cases noArray.symm.trans isArray

theorem TypesAgree.no_array {expr : Expr} (h : TypesAgree scope expr)
    (noArray : expr.ty.isArray = false) : (typeOf scope expr).element? = none := by
  rcases h with same | ⟨className, object, _⟩ | ⟨_, isInt, _⟩
  · rw [same, Ty.ofSource_of_not_isArray noArray, Ty.element?_ofName]
  · rw [object]
    rfl
  · rw [isInt]
    rfl

/-- A call that lowering takes for one of a declared method is one by its
annotations. -/
theorem declaredMethod?_of_ownMethod? {receiver : Expr} {method : String} {entry : MethodEntry}
    (agree : Dispatch.ofReceiver scope receiver = .onValue → TypesAgree scope receiver)
    (own : ownMethod? scope receiver (typeOf scope receiver) method = some entry) :
    declaredMethod? scope receiver method = some entry := by
  rw [ownMethod?, isOwn] at own
  rw [declaredMethod?]
  cases dispatch : Dispatch.ofReceiver scope receiver with
  | onValue =>
      rw [dispatch] at own
      obtain ⟨isOwn, found⟩ := Option.ite_none_right_eq_some.mp own
      have object : typeOf scope receiver = .object scope.symbols.className := by
        cases ty : typeOf scope receiver with
        | object className =>
            rw [ty] at isOwn
            rw [Option.some.inj (of_decide_eq_true isOwn)]
        | _ => rw [ty] at isOwn; cases of_decide_eq_true isOwn
      exact (if_pos ((agree dispatch).object object)).trans found
  | onClass name =>
      rw [dispatch] at own
      obtain ⟨isOwn, found⟩ := Option.ite_none_right_eq_some.mp own
      exact (if_pos (of_decide_eq_true isOwn)).trans found
  | assumed name =>
      rw [dispatch] at own
      cases own

/-- Honest annotations agree with the types that lowering finds, except that
objects of a class may be annotated with a predefined name, and that what
indexes no array is an integer. -/
theorem typeOf_cases : ∀ {expr : Expr}, (∀ part ∈ parts scope expr, Annotated scope part) →
    (∀ part ∈ parts scope expr, Flat part) → TypesAgree scope expr
  | .int value ty, annotated, _ => by
      have same : ty = .int := annotated _ (mem_parts_self _ _)
      exact .inl (by rw [Expr.ty, same]; rfl)
  | .bool value ty, annotated, _ => by
      have same : ty = .boolean := annotated _ (mem_parts_self _ _)
      exact .inl (by rw [Expr.ty, same]; rfl)
  | .this ty, annotated, _ => .inr (.inl ⟨_, rfl, annotated _ (mem_parts_self _ _), .inl rfl⟩)
  | .var _ _, _, _ => .inl rfl
  | .binary op lhs rhs ty, annotated, _ => by
      have same : ty = op.resultTy := annotated _ (mem_parts_self _ _)
      refine .inl ?_
      rw [Expr.ty, same]
      cases op <;> rfl
  | .not inner ty, annotated, _ => by
      have same : ty = .boolean := annotated _ (mem_parts_self _ _)
      exact .inl (by rw [Expr.ty, same]; rfl)
  | .paren inner ty, annotated, flat => by
      have same : ty = inner.ty := annotated _ (mem_parts_self _ _)
      have agree : TypesAgree scope inner :=
        typeOf_cases (fun part mem => annotated part (List.mem_cons_of_mem _ mem))
          fun part mem => flat part (List.mem_cons_of_mem _ mem)
      rw [TypesAgree, Expr.ty, same]
      refine agree.imp_right (Or.imp_left ?_)
      rintro ⟨className, object, annotated, named⟩
      exact ⟨className, object, annotated,
        named.imp_right (Exists.imp fun _ => List.mem_cons_of_mem _)⟩
  | .newObject className ty, annotated, _ =>
      .inr (.inl ⟨className, rfl, annotated _ (mem_parts_self _ _),
        .inr ⟨ty, mem_parts_self _ _⟩⟩)
  | .newArray elem size ty, annotated, flat => by
      have same : ty = .arrayOf elem.name := annotated _ (mem_parts_self _ _)
      have oneDimension : elem.isArray = false := flat _ (mem_parts_self _ _)
      refine .inl ?_
      rw [typeOf, Ty.ofSource_of_not_isArray oneDimension, Expr.ty, same]
      rfl
  | .arrayInit items ty, annotated, _ => by
      have isArray : ty.isArray = true := annotated _ (mem_parts_self _ _)
      exact .inl (Ty.ofSource_of_isArray isArray).symm
  | .index array position ty, annotated, flat => by
      have same : ty = array.ty.element := annotated _ (mem_parts_self _ _)
      have agree : TypesAgree scope array :=
        typeOf_cases (fun part mem => annotated part (by simp [parts, mem]))
          fun part mem => flat part (by simp [parts, mem])
      cases isArray : array.ty.isArray with
      | true =>
          refine .inl ?_
          rw [typeOf, agree.array isArray, Expr.ty, same]
          rfl
      | false =>
          refine .inr (.inr ⟨by rw [misindexes, isArray]; rfl, ?_, by rw [Expr.ty, same]; rfl⟩)
          rw [typeOf, agree.no_array isArray]
          rfl
  | .length array ty, annotated, _ => by
      have same : ty = .int := annotated _ (mem_parts_self _ _)
      exact .inl (by rw [Expr.ty, same]; rfl)
  | .call receiver method args ty, annotated, flat => by
      have declared : ∀ entry ∈ declaredMethod? scope receiver method, ty = entry.ret :=
        annotated _ (mem_parts_self _ _)
      have agree : Dispatch.ofReceiver scope receiver = .onValue → TypesAgree scope receiver :=
        fun onValue =>
          typeOf_cases (fun part mem => annotated part (by simp [parts, onValue, mem]))
            fun part mem => flat part (by simp [parts, onValue, mem])
      refine .inl ?_
      rw [typeOf]
      cases own : ownMethod? scope receiver (typeOf scope receiver) method with
      | none => rfl
      | some entry => rw [Expr.ty, declared entry (declaredMethod?_of_ownMethod? agree own)]

end

end MiniJava
