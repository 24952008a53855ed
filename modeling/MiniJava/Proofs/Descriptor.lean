import MiniJava.Jasmin.Descriptor
import MiniJava.Proofs.Import
import MiniJava.Proofs.Readable

/-!
# Method descriptors can be read back

A method descriptor joins those of the parameters without anything between them.
They can be told apart all the same.  The first character of a descriptor tells
its form, an array goes on with the descriptor of its elements, and the name of a
class ends at the first semicolon, provided that it has none itself.  No
descriptor begins with the parenthesis that closes the parameters.
-/

namespace MiniJava.Jasmin

namespace Descriptor

/-- The name of the class in a descriptor has no semicolon, so that it ends where
one comes. -/
def Delimited : Descriptor → Prop
  | object internalName => ';' ∉ internalName.toList
  | array elem => elem.Delimited
  | int | boolean | void => True

/-- Descriptors are read back from their texts, whatever follows. -/
theorem readable : Readable (fun d => d.text.toList) Delimited fun _ => True := by
  intro d
  induction d with
  | object name =>
      intro d' rest rest' ok ok' _ _ same
      cases d' with
      | object name' =>
          have plain : ∀ {name : String}, ';' ∉ name.toList →
              ∀ c ∈ name.toList, decide (c ≠ ';') = true := by
            intro name noSemicolon c mem
            have other : c ≠ ';' := fun equal => noSemicolon (equal ▸ mem)
            exact decide_eq_true other
          have stop : ∀ rest, Breaks (· ≠ ';') (';' :: rest) := fun _ => breaks_cons.mpr rfl
          have spelt : name.toList ++ ';' :: rest = name'.toList ++ ';' :: rest' := by
            simpa [text] using same
          obtain ⟨names, rests⟩ :=
            readable_run (· ≠ ';') (plain ok) (plain ok') (stop rest) (stop rest') spelt
          rw [String.toList_inj.mp names]
          exact ⟨rfl, (List.cons.inj rests).2⟩
      | _ => simp [text] at same
  | array elem induction =>
      intro d' rest rest' ok ok' _ _ same
      cases d' with
      | array elem' =>
          have inner : elem.Delimited := ok
          have inner' : elem'.Delimited := ok'
          have elems : elem.text.toList ++ rest = elem'.text.toList ++ rest' := by
            simpa [text] using same
          obtain ⟨rfl, rests⟩ := induction inner inner' trivial trivial elems
          exact ⟨rfl, rests⟩
      | _ => simp [text] at same
  | int =>
      intro d' rest rest' _ _ _ _ same
      cases d' with
      | int => exact ⟨rfl, by simpa [text] using same⟩
      | _ => simp [text] at same
  | boolean =>
      intro d' rest rest' _ _ _ _ same
      cases d' with
      | boolean => exact ⟨rfl, by simpa [text] using same⟩
      | _ => simp [text] at same
  | void =>
      intro d' rest rest' _ _ _ _ same
      cases d' with
      | void => exact ⟨rfl, by simpa [text] using same⟩
      | _ => simp [text] at same

/-- No descriptor begins as the end of the parameters does. -/
theorem head?_text_ne (d : Descriptor) (rest : List Char) :
    (d.text.toList ++ rest).head? ≠ some ')' := by
  cases d <;> simp [text]

end Descriptor

namespace MethodDescriptor

/-- The descriptors of the parameters and of the result are delimited. -/
def Delimited (d : MethodDescriptor) : Prop :=
  (∀ param ∈ d.params, param.Delimited) ∧ d.ret.Delimited

/-- Method descriptors are read back from their texts, whatever follows. -/
theorem readable : Readable (fun d => d.text.toList) Delimited fun _ => True := by
  have params : Readable (List.flatMap fun d => Descriptor.text d |>.toList)
      (fun ds => ∀ d ∈ ds, Descriptor.Delimited d) fun rest => rest.head? = some ')' :=
    Descriptor.readable.list (fun _ _ _ => trivial) (fun _ _ => trivial)
      fun d rest _ => d.head?_text_ne rest
  have whole := (params.pair Descriptor.readable ")" fun _ => rfl).opened "("
  refine whole.of_map (fun d => (d.params, d.ret)) ?_ (fun d ok => ok) ?_
  · intro d
    simp [text, List.flatMap_map]
  · rintro ⟨params, ret⟩ ⟨params', ret'⟩ _ _ same
    cases same
    rfl

end MethodDescriptor

/-- Two signatures with the same descriptor have equally many parameters, whose
descriptors agree one by one, and so do those of the results. -/
theorem signatures_of_text_eq (imports : List String) {params params' : List Tac.Ty}
    {ret ret' : Tac.Ty}
    (delimited : ∀ ty ∈ ret :: params, (Descriptor.ofTy imports ty).Delimited)
    (delimited' : ∀ ty ∈ ret' :: params', (Descriptor.ofTy imports ty).Delimited)
    (same : (MethodDescriptor.ofTys imports params ret).text =
      (MethodDescriptor.ofTys imports params' ret').text) :
    params.length = params'.length ∧
    (∀ i (h : i < params.length) (h' : i < params'.length),
      (Descriptor.ofTy imports params[i]).text = (Descriptor.ofTy imports params'[i]).text) ∧
    (Descriptor.ofTy imports ret).text = (Descriptor.ofTy imports ret').text := by
  have whole : ∀ {params : List Tac.Ty} {ret : Tac.Ty},
      (∀ ty ∈ ret :: params, (Descriptor.ofTy imports ty).Delimited) →
      (MethodDescriptor.ofTys imports params ret).Delimited := by
    intro params ret delimited
    obtain ⟨ofRet, ofParams⟩ := List.forall_mem_cons.mp delimited
    exact ⟨List.forall_mem_map.mpr ofParams, ofRet⟩
  have equal := MethodDescriptor.readable.inj trivial (whole delimited) (whole delimited')
    (congrArg String.toList same)
  obtain ⟨lists, rets⟩ := MethodDescriptor.mk.inj equal
  refine ⟨?_, ?_, by rw [rets]⟩
  · simpa using congrArg List.length lists
  · intro i h h'
    have entry : (params.map (Descriptor.ofTy imports))[i]? =
        (params'.map (Descriptor.ofTy imports))[i]? := by rw [lists]
    simp only [List.getElem?_map, List.getElem?_eq_getElem h, List.getElem?_eq_getElem h',
      Option.map_some, Option.some.injEq] at entry
    rw [entry]

/-- Strings have one descriptor under both of their types. -/
theorem signatures_of_text_eq_string :
    let imports := ["java.lang.String"]
    let params : List Tac.Ty := [.array (.array .int), .string]
    let params' : List Tac.Ty := [.array (.array .int), .object "String"]
    (∀ ty ∈ Tac.Ty.bool :: params, (Descriptor.ofTy imports ty).Delimited) ∧
    (∀ ty ∈ Tac.Ty.bool :: params', (Descriptor.ofTy imports ty).Delimited) ∧
    (MethodDescriptor.ofTys imports params .bool).text =
      (MethodDescriptor.ofTys imports params' .bool).text ∧
    params.length = params'.length ∧
    (Descriptor.ofTy imports .string).text = (Descriptor.ofTy imports (.object "String")).text := by
  intro imports params params'
  have resolved : Import.qualify imports "String" = Descriptor.stringClass := by
    rw [Import.qualify_cons_of_qualifies (by decide), ← String.toList_inj,
      Import.toList_internalName]
    decide
  have delimited : ∀ ty ∈ Tac.Ty.bool :: params, (Descriptor.ofTy imports ty).Delimited := by
    simp [params, Descriptor.ofTy, Descriptor.Delimited, Descriptor.stringClass]
  have delimited' : ∀ ty ∈ Tac.Ty.bool :: params', (Descriptor.ofTy imports ty).Delimited := by
    simp [params', Descriptor.ofTy, Descriptor.Delimited, resolved, Descriptor.stringClass]
  have same : (MethodDescriptor.ofTys imports params .bool).text =
      (MethodDescriptor.ofTys imports params' .bool).text := by
    simp [params, params', MethodDescriptor.ofTys, Descriptor.ofTy, resolved]
  obtain ⟨lengths, agree, _⟩ := signatures_of_text_eq imports delimited delimited' same
  exact ⟨delimited, delimited', same, lengths, agree 1 (by decide) (by decide)⟩

end MiniJava.Jasmin
