import MiniJava.Label

/-!
# Generated names are told apart by their texts

Every generated name is a stem followed by a decimal number.  No stem ends in a
digit, so the text determines the stem and the number: labels of different
families, labels of one family with different numbers, temporaries and holders
of packed arrays never share a text.
-/

namespace MiniJava

/-! ## Stems and numbers -/

/-- Whether a text does not end in a decimal digit. -/
def EndsInNoDigit (stem : String) : Prop := stem.toList.getLast?.all (! ·.isDigit)

instance (stem : String) : Decidable (EndsInNoDigit stem) :=
  inferInstanceAs (Decidable (_ = true))

/-- The digits at the end of a numbered text, last one first. -/
theorem trailingDigits_append_repr {stem : String} (h : EndsInNoDigit stem) (id : Nat) :
    (stem ++ Nat.repr id).toList.reverse.takeWhile (·.isDigit) =
      (Nat.toDigits 10 id).reverse := by
  have digits : ∀ c ∈ (Nat.toDigits 10 id).reverse, c.isDigit = true := by
    intro c hc
    exact Nat.isDigit_of_mem_toDigits (by omega) (by omega) (List.mem_reverse.mp hc)
  have rest : stem.toList.reverse.takeWhile (·.isDigit) = [] := by
    rw [EndsInNoDigit, ← List.head?_reverse] at h
    cases reversed : stem.toList.reverse with
    | nil => rfl
    | cons last _ =>
        rw [reversed] at h
        have noDigit : last.isDigit = false := by simpa using h
        rw [List.takeWhile_cons_of_neg (by simp [noDigit])]
  rw [String.toList_append, Nat.toList_repr, List.reverse_append,
    List.takeWhile_append_of_pos digits, rest, List.append_nil]

/-- A stem that ends in no digit and the number after it can be read back. -/
theorem append_repr_inj {stem stem' : String} {id id' : Nat} (h : EndsInNoDigit stem)
    (h' : EndsInNoDigit stem') (same : stem ++ Nat.repr id = stem' ++ Nat.repr id') :
    stem = stem' ∧ id = id' := by
  have digits : Nat.toDigits 10 id = Nat.toDigits 10 id' := by
    rw [← List.reverse_inj, ← trailingDigits_append_repr h, same,
      trailingDigits_append_repr h']
  have ids : id = id' := by
    have values := congrArg (fun chars => Nat.ofDigitChars 10 chars 0) digits
    simpa [Nat.ofDigitChars_ten_toDigits] using values
  subst ids
  refine ⟨?_, rfl⟩
  rw [← String.toList_inj, String.toList_append, String.toList_append] at same
  exact String.toList_inj.mp (List.append_cancel_right same)

/-! ## Labels -/

theorem Family.endsInNoDigit_stem (family : Family) : EndsInNoDigit family.stem := by
  cases family <;> decide

theorem Family.stem_inj {family family' : Family} (h : family.stem = family'.stem) :
    family = family' := by
  revert h
  cases family <;> cases family' <;> decide

theorem Family.stem_ne_endIf (family : Family) : family.stem ≠ "endif_" := by
  cases family <;> decide

/-- Different labels have different texts. -/
theorem Label.text_inj {label label' : Label} (same : label.text = label'.text) :
    label = label' := by
  have endIf : EndsInNoDigit "endif_" := by decide
  cases label with
  | numbered family id =>
      cases label' with
      | numbered family' id' =>
          obtain ⟨stems, rfl⟩ := append_repr_inj family.endsInNoDigit_stem
            family'.endsInNoDigit_stem same
          rw [Family.stem_inj stems]
      | endIf id' =>
          obtain ⟨stems, _⟩ := append_repr_inj family.endsInNoDigit_stem endIf same
          exact absurd stems family.stem_ne_endIf
  | endIf id =>
      cases label' with
      | numbered family' id' =>
          obtain ⟨stems, _⟩ := append_repr_inj endIf family'.endsInNoDigit_stem same
          exact absurd stems.symm family'.stem_ne_endIf
      | endIf id' =>
          obtain ⟨_, rfl⟩ := append_repr_inj endIf endIf same
          rfl

/-! ## Variables -/

namespace Names

theorem tempName_inj {id id' : Nat} (same : tempName id = tempName id') : id = id' := by
  have stem : EndsInNoDigit "tmp" := by decide
  exact (append_repr_inj stem stem same).2

theorem packName_inj {id id' : Nat} (same : packName id = packName id') : id = id' := by
  have labels := Label.text_inj same
  simpa using labels

theorem tempName_ne_packName (id id' : Nat) : tempName id ≠ packName id' := by
  intro same
  have stem : EndsInNoDigit "tmp" := by decide
  have stems := (append_repr_inj stem (Family.endsInNoDigit_stem .pack) same).1
  revert stems
  decide

end Names

end MiniJava
