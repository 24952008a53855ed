import MiniJava.Proofs.Label
import MiniJava.Proofs.Lowering.Rules
import MiniJava.Proofs.Renaming

/-!
# Renumbering generated names

A renumbering gives other numbers to temporaries, holders and labels and keeps
all other names.  It can do so because a generated name determines its number.

Every supply of names is the fresh one moved on by what was taken from it, so
`shift names` renames what is generated from the fresh supply to what is
generated from `names`, and `between names names'` renames what is generated
from `names` to what is generated from `names'`.
-/

namespace MiniJava

/-! ## Numbers in names -/

/-- The number that follows a stem in a text of that form. -/
def numberAfter? (stem text : String) : Option Nat :=
  let id := Nat.ofDigitChars 10 (text.toList.drop stem.toList.length) 0
  if text = stem ++ Nat.repr id then some id else none

/-- A name is read as a generated one only if it is spelled like one. -/
theorem numberAfter?_eq_some_iff {stem text : String} {id : Nat} :
    numberAfter? stem text = some id ↔ text = stem ++ Nat.repr id := by
  constructor
  · intro found
    obtain ⟨same, number⟩ := Option.ite_none_right_eq_some.mp found
    rw [same, ← Option.some.inj number]
  · rintro rfl
    have digits : (stem ++ Nat.repr id).toList.drop stem.toList.length = Nat.toDigits 10 id := by
      rw [String.toList_append, List.drop_left, Nat.toList_repr]
    rw [numberAfter?, digits, Nat.ofDigitChars_ten_toDigits]
    exact if_pos rfl

/-! ## Renumberings -/

namespace Renaming

/-- Other numbers for temporaries, holders and labels. -/
def renumber (temp : Nat → Nat) (number : Family → Nat → Nat) : Renaming where
  name := fun name =>
    match numberAfter? "tmp" name, numberAfter? Family.pack.stem name with
    | some id, _ => Names.tempName (temp id)
    | none, some id => Names.packName (number .pack id)
    | none, none => name
  label
    | .numbered family id => .numbered family (number family id)
    | .endIf id => .endIf (number .thenBranch id)

section
variable (temp : Nat → Nat) (number : Family → Nat → Nat)

@[simp]
theorem renumber_tempName (id : Nat) :
    (renumber temp number).name (Names.tempName id) = Names.tempName (temp id) := by
  have found : numberAfter? "tmp" (Names.tempName id) = some id := numberAfter?_eq_some_iff.mpr rfl
  simp [renumber, found]

@[simp]
theorem renumber_packName (id : Nat) :
    (renumber temp number).name (Names.packName id) = Names.packName (number .pack id) := by
  have found : numberAfter? Family.pack.stem (Names.packName id) = some id :=
    numberAfter?_eq_some_iff.mpr rfl
  have other : numberAfter? "tmp" (Names.packName id) = none := by
    cases number : numberAfter? "tmp" (Names.packName id) with
    | none => rfl
    | some id' =>
        exact absurd (numberAfter?_eq_some_iff.mp number).symm (Names.tempName_ne_packName id' id)
  simp [renumber, found, other]

/-- Other names than generated ones stay. -/
theorem renumber_of_not_reserved {name : String} (plain : ¬ Names.Reserved name) :
    (renumber temp number).name name = name := by
  have noTemp : numberAfter? "tmp" name = none := by
    cases found : numberAfter? "tmp" name with
    | none => rfl
    | some id => exact absurd ⟨id, .inl (numberAfter?_eq_some_iff.mp found)⟩ plain
  have noPack : numberAfter? Family.pack.stem name = none := by
    cases found : numberAfter? Family.pack.stem name with
    | none => rfl
    | some id => exact absurd ⟨id, .inr (numberAfter?_eq_some_iff.mp found)⟩ plain
  simp [renumber, noTemp, noPack]

/-- Every name is that of a temporary, that of a holder or neither. -/
theorem name_cases {P : String → Prop} (onTemp : ∀ id, P (Names.tempName id))
    (onPack : ∀ id, P (Names.packName id)) (onOther : ∀ name, ¬ Names.Reserved name → P name)
    (name : String) : P name := by
  by_cases reserved : Names.Reserved name
  · obtain ⟨id, rfl | rfl⟩ := reserved
    · exact onTemp id
    · exact onPack id
  · exact onOther name reserved

theorem renumber_comp_renumber (temp' : Nat → Nat) (number' : Family → Nat → Nat) :
    (renumber temp' number').comp (renumber temp number) =
      renumber (temp' ∘ temp) fun family => number' family ∘ number family := by
  have names : (renumber temp' number').name ∘ (renumber temp number).name =
      (renumber (temp' ∘ temp) fun family => number' family ∘ number family).name := by
    funext name
    induction name using name_cases with
    | onTemp id => simp
    | onPack id => simp
    | onOther name plain => simp [renumber_of_not_reserved _ _ plain]
  have labels : (renumber temp' number').label ∘ (renumber temp number).label =
      (renumber (temp' ∘ temp) fun family => number' family ∘ number family).label := by
    funext label
    cases label <;> rfl
  rw [comp, names, labels]

/-- A renumbering keeps apart the names of which it keeps the numbers apart. -/
theorem faithful_renumber (temps : Function.Injective temp)
    (packs : Function.Injective (number .pack)) : (renumber temp number).Faithful := by
  have reserved : ∀ {name}, Names.Reserved name →
      Names.Reserved ((renumber temp number).name name) := by
    rintro name ⟨id, rfl | rfl⟩
    · exact ⟨temp id, .inl (renumber_tempName ..)⟩
    · exact ⟨number .pack id, .inr (renumber_packName ..)⟩
  refine ⟨fun name name' same => ?_, renumber_of_not_reserved _ _ Lowering.thisName_not_reserved⟩
  by_cases plain : Names.Reserved name <;> by_cases plain' : Names.Reserved name'
  · obtain ⟨id, rfl | rfl⟩ := plain <;> obtain ⟨id', rfl | rfl⟩ := plain' <;>
      simp only [renumber_tempName, renumber_packName] at same
    · rw [temps (Names.tempName_inj same)]
    · exact absurd same (Names.tempName_ne_packName _ _)
    · exact absurd same.symm (Names.tempName_ne_packName _ _)
    · rw [packs (Names.packName_inj same)]
  · rw [renumber_of_not_reserved _ _ plain'] at same
    exact absurd (same ▸ reserved plain) plain'
  · rw [renumber_of_not_reserved _ _ plain] at same
    exact absurd (same.symm ▸ reserved plain') plain
  · rwa [renumber_of_not_reserved _ _ plain, renumber_of_not_reserved _ _ plain'] at same

end

/-- From what is generated from the fresh supply to what is generated from the
given one. -/
def shift (names : Names) : Renaming :=
  renumber (· + names.temp) fun family id => id + names.next family

/-- From what is generated from one supply to what is generated from another. -/
def between (names names' : Names) : Renaming :=
  renumber (fun id => id + names'.temp - names.temp)
    fun family id => id + names'.next family - names.next family

/-- A shift keeps the names of different numbers apart. -/
theorem faithful_shift (names : Names) : (shift names).Faithful :=
  faithful_renumber _ _ (fun _ _ => Nat.add_right_cancel) (fun _ _ => Nat.add_right_cancel)

/-- Going on from one supply to another is going to the other at once. -/
theorem between_comp_shift (names names' : Names) :
    (between names names').comp (shift names) = shift names' := by
  rw [between, shift, renumber_comp_renumber, shift]
  congr 1
  · funext id
    simp only [Function.comp_apply]
    omega
  · funext family id
    simp only [Function.comp_apply]
    omega

end Renaming

/-! ## Supplies -/

namespace Names

/-- A supply from which as much more was taken as the offset says. -/
def plus (names offset : Names) : Names where
  temp := names.temp + offset.temp
  onTrue := names.onTrue + offset.onTrue
  join := names.join + offset.join
  loopBody := names.loopBody + offset.loopBody
  loopEnd := names.loopEnd + offset.loopEnd
  thenBranch := names.thenBranch + offset.thenBranch
  pack := names.pack + offset.pack

@[simp]
theorem fresh_plus (offset : Names) : fresh.plus offset = offset := by
  simp [plus, fresh]

/-- From a supply that is further on, the numbers are further on by the same. -/
@[simp]
theorem next_plus (names offset : Names) (family : Family) :
    (names.plus offset).next family = names.next family + offset.next family := by
  cases family <;> rfl

@[simp]
theorem advance_plus (names offset : Names) (family : Family) :
    (names.plus offset).advance family = (names.advance family).plus offset := by
  cases family <;> simp [plus, advance, Nat.add_right_comm]

@[simp]
theorem advanceTemp_plus (names offset : Names) :
    (names.plus offset).advanceTemp = names.advanceTemp.plus offset := by
  simp [plus, advanceTemp, Nat.add_right_comm]

end Names

end MiniJava
