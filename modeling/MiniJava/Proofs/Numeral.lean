import MiniJava.Numeral

/-!
# Numerals denote the integers they were written for

Reading a numeral sums its digits from the left, as core's `Nat.ofDigitChars`
does, so the digits that `Nat.repr` writes read back as the number.  A 32-bit
integer is determined by its value, and its numeral fits by construction.

Other texts are numerals too.  `Spells` says which: digits behind at most one
sign.  Reading succeeds on exactly those whose value fits (`read?_eq_some_iff`).
-/

namespace MiniJava.Numeral

theorem digit?_of_isDigit {c : Char} (h : c.isDigit = true) :
    digit? c = some (c.toNat - '0'.toNat) := by
  have bounds : 48 ≤ c.toNat ∧ c.toNat ≤ 57 := by
    simpa [Char.isDigit, UInt32.le_iff_toNat_le] using h
  exact if_pos bounds

/-- A list of digits reads as its positional value. -/
theorem extend?_of_digits : ∀ (chars : List Char) (value : Nat),
    (∀ c ∈ chars, c.isDigit = true) →
    extend? value chars = some (Nat.ofDigitChars 10 chars value)
  | [], value, _ => by simp [extend?]
  | c :: rest, value, h => by
      rw [extend?, digit?_of_isDigit (h c List.mem_cons_self), Option.bind_some,
        extend?_of_digits rest _ fun d hmem => h d (List.mem_cons_of_mem _ hmem),
        Nat.ofDigitChars_cons]

/-- The digits of a number read as the number. -/
theorem magnitude?_toDigits (value : Nat) :
    magnitude? (Nat.toDigits 10 value) = some value := by
  have digits : ∀ c ∈ Nat.toDigits 10 value, c.isDigit = true :=
    fun c hmem => Nat.isDigit_of_mem_toDigits (by omega) (by omega) hmem
  cases chars : Nat.toDigits 10 value with
  | nil => exact absurd chars Nat.toDigits_ne_nil
  | cons c rest =>
      rw [magnitude?, ← chars, extend?_of_digits _ 0 digits, Nat.ofDigitChars_ten_toDigits]

/-- Digits under no sign read as their magnitude. -/
theorem signed?_of_digits {chars : List Char} {value : Nat}
    (h : ∀ c ∈ chars, c.isDigit = true) (read : magnitude? chars = some value) :
    signed? chars = some (value : Int) := by
  have noSign : ∀ (sign : Char) (rest : List Char), sign.isDigit = false →
      chars ≠ sign :: rest := by
    rintro sign rest noDigit rfl
    rw [h sign List.mem_cons_self] at noDigit
    cases noDigit
  rw [signed?]
  · simp [read]
  · exact fun rest => noSign '-' rest rfl
  · exact fun rest => noSign '+' rest rfl

/-- The value of a written integer. -/
theorem signed?_write (value : Int32) : signed? (write value).toList = some value.toInt := by
  have read := magnitude?_toDigits value.toInt.natAbs
  rw [write]
  split
  · have minus : ("-" ++ Nat.repr value.toInt.natAbs).toList =
        '-' :: Nat.toDigits 10 value.toInt.natAbs := by
      rw [String.toList_append, Nat.toList_repr]
      rfl
    have negated : signed? ('-' :: Nat.toDigits 10 value.toInt.natAbs) =
        some (-(value.toInt.natAbs : Int)) := by
      simp [signed?, read]
    rw [minus, negated, Option.some.injEq]
    omega
  · rw [Nat.toList_repr, signed?_of_digits _ read, Option.some.injEq]
    · omega
    · exact fun c hmem => Nat.isDigit_of_mem_toDigits (by omega) (by omega) hmem

/-- Integers are written in digits and minus signs. -/
theorem mem_write {c : Char} {value : Int32} (mem : c ∈ (write value).toList) :
    c.isDigit = true ∨ c = '-' := by
  have digits : ∀ {number : Nat}, c ∈ (Nat.repr number).toList → c.isDigit = true := by
    intro number mem
    rw [Nat.toList_repr] at mem
    exact Nat.isDigit_of_mem_toDigits (by omega) (by omega) mem
  rw [write] at mem
  split at mem
  · rw [String.toList_append, List.mem_append] at mem
    rcases mem with sign | number
    · exact .inr (List.mem_singleton.mp sign)
    · exact .inl (digits number)
  · exact .inl (digits mem)

theorem fits_toInt (value : Int32) : Fits value.toInt :=
  ⟨value.le_toInt, Int.le_of_lt_add_one value.toInt_lt⟩

/-- A written integer reads back as itself. -/
theorem read?_write (value : Int32) : read? (write value) = some value := by
  rw [read?, signed?_write, Option.bind_some, if_pos (fits_toInt value), Int32.ofInt_toInt]

/-! ## What is a numeral -/

/-- A text of one or more decimal digits. -/
def IsDigits (chars : List Char) : Prop := chars ≠ [] ∧ ∀ c ∈ chars, c.isDigit = true

/-- The integer that a text spells: decimal digits behind one optional sign. -/
inductive Spells : List Char → Int → Prop where
  | plain {digits : List Char} : IsDigits digits →
      Spells digits (Nat.ofDigitChars 10 digits 0)
  | plus {digits : List Char} : IsDigits digits →
      Spells ('+' :: digits) (Nat.ofDigitChars 10 digits 0)
  | minus {digits : List Char} : IsDigits digits →
      Spells ('-' :: digits) (-(Nat.ofDigitChars 10 digits 0 : Int))

theorem isDigit_of_digit? {c : Char} {digit : Nat} (read : digit? c = some digit) :
    c.isDigit = true := by
  rw [digit?] at read
  obtain ⟨bounds, _⟩ := Option.ite_none_right_eq_some.mp read
  simpa [Char.isDigit, UInt32.le_iff_toNat_le] using bounds

/-- Only digits are read. -/
theorem digits_of_extend? : ∀ {chars : List Char} {start value : Nat},
    extend? start chars = some value → ∀ c ∈ chars, c.isDigit = true
  | [], _, _, _ => by simp
  | first :: rest, start, value, read => by
      rw [extend?, Option.bind_eq_some_iff] at read
      obtain ⟨digit, isDigit, others⟩ := read
      rw [List.forall_mem_cons]
      exact ⟨isDigit_of_digit? isDigit, digits_of_extend? others⟩

theorem magnitude?_eq_some_iff {chars : List Char} {value : Nat} :
    magnitude? chars = some value ↔ IsDigits chars ∧ value = Nat.ofDigitChars 10 chars 0 := by
  cases chars with
  | nil => simp [magnitude?, IsDigits]
  | cons first rest =>
      rw [magnitude?]
      constructor
      · intro read
        have digits := digits_of_extend? read
        rw [extend?_of_digits _ 0 digits] at read
        exact ⟨⟨by simp, digits⟩, (Option.some.inj read).symm⟩
      · rintro ⟨⟨_, digits⟩, rfl⟩
        exact extend?_of_digits _ 0 digits

/-- An integer is read from a text exactly if the text spells it. -/
theorem signed?_eq_some_iff {chars : List Char} {value : Int} :
    signed? chars = some value ↔ Spells chars value := by
  constructor
  · intro read
    rw [signed?.eq_def] at read
    split at read
    · next digits =>
        obtain ⟨number, isNumber, rfl⟩ : ∃ number, magnitude? digits = some number ∧
            -(number : Int) = value := by simpa [Option.bind_eq_some_iff] using read
        obtain ⟨isDigits, rfl⟩ := magnitude?_eq_some_iff.mp isNumber
        exact .minus isDigits
    · next digits =>
        obtain ⟨number, isNumber, rfl⟩ : ∃ number, magnitude? digits = some number ∧
            (number : Int) = value := by simpa [Option.bind_eq_some_iff] using read
        obtain ⟨isDigits, rfl⟩ := magnitude?_eq_some_iff.mp isNumber
        exact .plus isDigits
    · obtain ⟨number, isNumber, rfl⟩ : ∃ number, magnitude? chars = some number ∧
          (number : Int) = value := by simpa [Option.bind_eq_some_iff] using read
      obtain ⟨isDigits, rfl⟩ := magnitude?_eq_some_iff.mp isNumber
      exact .plain isDigits
  · intro spells
    cases spells with
    | plain digits =>
        exact signed?_of_digits digits.2 (magnitude?_eq_some_iff.mpr ⟨digits, rfl⟩)
    | plus digits => simp [signed?, magnitude?_eq_some_iff.mpr ⟨digits, rfl⟩]
    | minus digits => simp [signed?, magnitude?_eq_some_iff.mpr ⟨digits, rfl⟩]

/-- A 32-bit integer is read from a text exactly if the text spells its value. -/
theorem read?_eq_some_iff {text : String} {value : Int32} :
    read? text = some value ↔ Spells text.toList value.toInt := by
  rw [read?, Option.bind_eq_some_iff]
  constructor
  · rintro ⟨number, read, inRange⟩
    obtain ⟨⟨lower, upper⟩, same⟩ := Option.ite_none_right_eq_some.mp inRange
    rw [← Option.some.inj same, Int32.toInt_ofInt_of_le lower (Int.lt_add_one_of_le upper)]
    exact signed?_eq_some_iff.mp read
  · intro spells
    refine ⟨value.toInt, signed?_eq_some_iff.mpr spells, ?_⟩
    rw [if_pos (fits_toInt value), Int32.ofInt_toInt]

theorem isSome_read?_iff {text : String} :
    (read? text).isSome = true ↔ ∃ value, Spells text.toList value ∧ Fits value := by
  rw [Option.isSome_iff_exists]
  constructor
  · rintro ⟨value, read⟩
    exact ⟨value.toInt, read?_eq_some_iff.mp read, fits_toInt value⟩
  · rintro ⟨value, spells, fits⟩
    refine ⟨Int32.ofInt value, ?_⟩
    rw [read?, signed?_eq_some_iff.mpr spells, Option.bind_some, if_pos fits]

end MiniJava.Numeral
