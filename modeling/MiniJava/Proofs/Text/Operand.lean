import MiniJava.Proofs.Label
import MiniJava.Proofs.Numeral
import MiniJava.Proofs.Readable
import MiniJava.Tac.Text

/-!
# Reading back operands and calls

Texts of three-address code are made of words with punctuation between them.  A
type is written right behind a word, and nothing that follows a type could be
taken for its continuation.  So operands are `Readable`, and joined by separators
so are cells and calls.

What is `Printable` has identifiers for names, and no class has the name of a
predefined type.  Literals are written as integers and truth values are.  The
text of a cell leaves out the type of its base, which has to be that of an array
of such cells.  The text of a field access leaves out the type of `this`, which
has to be known.
-/

namespace MiniJava.Tac

/-! ## Names and words -/

/-- Characters of names: letters, digits, `_` and `$`.  Characters beyond ASCII
all count as letters. -/
def isNamePart (c : Char) : Bool := c.isAlphanum || c == '_' || c == '$' || 128 ≤ c.toNat

/-- Whether a text is a name that does not begin with a digit. -/
def IsIdentifier (name : String) : Prop :=
  name.toList.all isNamePart = true ∧ name.toList.head?.any (! ·.isDigit) = true

instance (name : String) : Decidable (IsIdentifier name) :=
  inferInstanceAs (Decidable (_ ∧ _))

/-- Whether a name can be that of a class: those of predefined types cannot. -/
def IsClassName (name : String) : Prop :=
  IsIdentifier name ∧ name ∉ ["i32", "bool", "V", "String"]

/-- The marks that separate words. -/
def punctuation : List Char := [' ', '.', ',', ';', ':', '(', ')', '[', ']', '"', '!']

def isWordPart (c : Char) : Bool := c ∉ punctuation

/-- Whether a text has no punctuation in it. -/
def IsWord (text : String) : Prop := text.toList.all isWordPart = true

instance (text : String) : Decidable (IsWord text) :=
  inferInstanceAs (Decidable (_ = true))

theorem isWordPart_of_isNamePart {c : Char} (h : isNamePart c = true) : isWordPart c = true := by
  have apart : punctuation.all (! isNamePart ·) = true := by decide
  refine decide_eq_true fun mem => ?_
  have outside := List.all_eq_true.mp apart c mem
  rw [h] at outside
  cases outside

theorem IsIdentifier.isWord {name : String} (h : IsIdentifier name) : IsWord name :=
  List.all_eq_true.mpr fun c mem =>
    isWordPart_of_isNamePart (List.all_eq_true.mp h.1 c mem)

/-- Words end where punctuation begins. -/
theorem readable_word : Readable String.toList IsWord (Breaks isWordPart) :=
  (readable_run isWordPart).of_map String.toList (fun _ => rfl)
    (fun _ word => List.all_eq_true.mp word) fun _ _ _ _ same => String.toList_inj.mp same

/-! ## Types -/

/-- Characters that may continue a type. -/
def isTyPart (c : Char) : Bool := isWordPart c || c == '.'

theorem Breaks.word {rest : List Char} (h : Breaks isTyPart rest) : Breaks isWordPart rest :=
  h.mono fun c part => by simp [isTyPart, part]

namespace Ty

/-- Types whose class names are identifiers and not the names of other types. -/
def Printable : Ty → Prop
  | object className => IsClassName className
  | array elem => elem.Printable
  | int | bool | void | string => True

/-- The first word of a type. -/
def stem : Ty → String
  | int => "i32"
  | bool => "bool"
  | void => "V"
  | string => "String"
  | object className => className
  | array _ => "array"

/-- What comes behind the first word of a type. -/
def tail : Ty → List Char
  | array elem => elem.text.toList
  | _ => []

theorem toList_text (ty : Ty) : ty.text.toList = '.' :: (ty.stem.toList ++ ty.tail) := by
  cases ty <;> simp [text, stem, tail]

theorem Printable.isWord_stem {ty : Ty} (h : ty.Printable) : IsWord ty.stem := by
  cases ty with
  | object className => exact h.1.isWord
  | array elem => exact (by decide : IsWord "array")
  | _ => decide

theorem breaks_tail (ty : Ty) {rest : List Char} (stop : Breaks isTyPart rest) :
    Breaks isWordPart (ty.tail ++ rest) := by
  cases ty with
  | array elem =>
      rw [tail, toList_text, List.cons_append, breaks_cons]
      decide
  | _ => exact Breaks.word stop

/-- Types other than arrays are told apart by their only word. -/
theorem eq_of_stem_eq {ty ty' : Ty} (h : ty.Printable) (h' : ty'.Printable)
    (flat : ty.isArray = false) (flat' : ty'.isArray = false) (same : ty.stem = ty'.stem) :
    ty = ty' := by
  have notPredefined : ∀ {name word : String}, IsClassName name →
      word ∈ ["i32", "bool", "V", "String"] → name ≠ word :=
    fun isClass mem equal => isClass.2 (equal ▸ mem)
  cases ty with
  | array elem => cases flat
  | object name =>
      cases ty' with
      | object name' => exact congrArg object same
      | array elem => cases flat'
      | _ => exact absurd same (notPredefined h (by decide))
  | _ =>
      cases ty' with
      | object name' => exact absurd same.symm (notPredefined h' (by decide))
      | array elem => cases flat'
      | _ =>
          revert same
          decide

/-- The first words of types are read back. -/
theorem stem_append_inj {ty ty' : Ty} {rest rest' : List Char} (h : ty.Printable)
    (h' : ty'.Printable) (stop : Breaks isTyPart rest) (stop' : Breaks isTyPart rest')
    (same : ty.text.toList ++ rest = ty'.text.toList ++ rest') :
    ty.stem = ty'.stem ∧ ty.tail ++ rest = ty'.tail ++ rest' := by
  rw [toList_text, toList_text] at same
  simp only [List.cons_append, List.append_assoc, List.cons.injEq, true_and] at same
  exact readable_word h.isWord_stem h'.isWord_stem (breaks_tail ty stop)
    (breaks_tail ty' stop') same

/-- What may follow a type does not begin with a type. -/
theorem text_append_ne {ty : Ty} {rest rest' : List Char} (stop : Breaks isTyPart rest') :
    ty.text.toList ++ rest ≠ rest' := by
  rintro rfl
  rw [toList_text, List.cons_append, breaks_cons] at stop
  cases stop

/-- Types are read back where nothing follows that could continue them. -/
theorem readable : Readable (fun ty => ty.text.toList) Printable (Breaks isTyPart) := by
  intro ty
  induction ty with
  | array elem induction =>
      intro ty' rest rest' ok ok' stop stop' same
      obtain ⟨stems, tails⟩ := stem_append_inj ok ok' stop stop' same
      cases ty' with
      | array elem' =>
          have inner : elem.Printable := ok
          have inner' : elem'.Printable := ok'
          obtain ⟨rfl, rests⟩ := induction inner inner' stop stop' tails
          exact ⟨rfl, rests⟩
      | _ => exact absurd tails (text_append_ne stop') -- a class may be called `array`
  | _ =>
      intro ty' rest rest' ok ok' stop stop' same
      obtain ⟨stems, tails⟩ := stem_append_inj ok ok' stop stop' same
      cases ty' with
      | array elem' => exact absurd tails.symm (text_append_ne stop)
      | _ => exact ⟨eq_of_stem_eq ok ok' rfl rfl stems, tails⟩

end Ty

/-! ## Operands -/

/-- The text of a word that may have a type behind it. -/
def taggedText (tagged : String × Option Ty) : List Char :=
  tagged.1.toList ++ tagged.2.elim [] fun ty => ty.text.toList

/-- A word is read back with its type, if it has one. -/
theorem readable_tagged :
    Readable taggedText (fun t => IsWord t.1 ∧ ∀ ty ∈ t.2, ty.Printable) (Breaks isTyPart) := by
  rintro ⟨word, ty?⟩ ⟨word', ty?'⟩ rest rest' ⟨ok, okTy⟩ ⟨ok', okTy'⟩ stop stop' same
  have breaks : ∀ (ty? : Option Ty) {rest : List Char}, Breaks isTyPart rest →
      Breaks isWordPart ((ty?.elim [] fun ty => ty.text.toList) ++ rest) := by
    intro ty? rest stop
    cases ty? with
    | none => exact Breaks.word stop
    | some ty =>
        rw [Option.elim_some, Ty.toList_text, List.cons_append, breaks_cons]
        decide
  simp only [taggedText, List.append_assoc] at same
  obtain ⟨rfl, tails⟩ := readable_word ok ok' (breaks ty? stop) (breaks ty?' stop') same
  cases ty? with
  | none =>
      cases ty?' with
      | none => exact ⟨rfl, tails⟩
      | some ty' => exact absurd tails.symm (Ty.text_append_ne stop)
  | some ty =>
      cases ty?' with
      | none => exact absurd tails (Ty.text_append_ne stop')
      | some ty' =>
          obtain ⟨rfl, rests⟩ := Ty.readable (okTy ty rfl) (okTy' ty' rfl) stop stop' tails
          exact ⟨rfl, rests⟩

namespace Operand

/-- Operands with an identifier for a name. -/
def Printable (op : Operand) : Prop := IsIdentifier op.name ∧ op.ty.Printable

theorem readable : Readable (fun op => op.text.toList) Printable (Breaks isTyPart) := by
  refine readable_tagged.of_map (fun op => (op.name, some op.ty)) ?_ ?_ ?_
  · intro op
    simp [text, taggedText]
  · rintro op ⟨name, ty⟩
    exact ⟨name.isWord, by simpa using ty⟩
  · rintro ⟨name, ty⟩ ⟨name', ty'⟩ _ _ same
    cases same
    rfl

/-- The object of a field access: `this` has one and the same type. -/
def PrintableHolder (self : Ty) (op : Operand) : Prop :=
  op.Printable ∧ (op.isThis = true → op.ty = self)

theorem readable_holder (self : Ty) :
    Readable (fun op => op.holderText.toList) (PrintableHolder self) (Breaks isTyPart) := by
  refine readable_tagged.of_map
    (fun op => (op.name, if op.isThis then none else some op.ty)) ?_ ?_ ?_
  · intro op
    cases this : op.isThis <;> simp [holderText, text, taggedText, this]
  · rintro op ⟨⟨name, ty⟩, _⟩
    refine ⟨name.isWord, fun ty' tag => ?_⟩
    have given := (Option.ite_none_left_eq_some.mp tag).2
    cases given
    exact ty
  · rintro ⟨name, ty⟩ ⟨name', ty'⟩ ⟨_, isSelf⟩ ⟨_, isSelf'⟩ same
    obtain ⟨rfl, tags⟩ := Prod.mk.inj same
    by_cases this : name = thisName
    · have both : ty = ty' :=
        (isSelf (decide_eq_true this)).trans (isSelf' (decide_eq_true this)).symm
      rw [both]
    · simp only [isThis, this, decide_false, Bool.false_eq_true, if_false,
        Option.some.injEq] at tags
      rw [tags]

end Operand

namespace Literal

/-- Literals of integers and truth values. -/
def Printable (lit : Literal) : Prop := (∃ value, lit = .int value) ∨ ∃ value, lit = .bool value

theorem Printable.mem_value {lit : Literal} (h : lit.Printable) :
    ∀ c ∈ lit.value.toList, c.isDigit = true ∨ c = '-' := by
  rcases h with ⟨value, rfl⟩ | ⟨value, rfl⟩
  · exact fun c mem => Numeral.mem_write mem
  · have digit : (Literal.bool value).value.toList.all Char.isDigit = true := by
      cases value <;> decide
    exact fun c mem => .inl (List.all_eq_true.mp digit c mem)

theorem Printable.isWord_value {lit : Literal} (h : lit.Printable) : IsWord lit.value := by
  refine List.all_eq_true.mpr fun c mem => ?_
  rcases h.mem_value c mem with digit | rfl
  · exact isWordPart_of_isNamePart (by simp [isNamePart, Char.isAlphanum, digit])
  · decide

theorem Printable.ty {lit : Literal} (h : lit.Printable) : lit.ty.Printable := by
  rcases h with ⟨value, rfl⟩ | ⟨value, rfl⟩
  · trivial
  · trivial

end Literal

namespace Element

def Printable : Element → Prop
  | operand op => op.Printable
  | literal lit => lit.Printable

/-- The word of an element, before its type. -/
def word : Element → String
  | operand op => op.name
  | literal lit => lit.value

theorem toList_text (elem : Element) :
    elem.text.toList = elem.word.toList ++ elem.ty.text.toList := by
  cases elem <;> simp [text, Operand.text, Literal.text, word, ty]

theorem Printable.isWord_word {elem : Element} (h : elem.Printable) : IsWord elem.word := by
  cases elem with
  | operand op => exact h.1.isWord
  | literal lit => exact h.isWord_value

theorem Printable.ty {elem : Element} (h : elem.Printable) : elem.ty.Printable := by
  cases elem with
  | operand op => exact h.2
  | literal lit => exact Literal.Printable.ty h

/-- Identifiers are not numerals. -/
theorem name_ne_value {name : String} {lit : Literal} (h : IsIdentifier name)
    (h' : lit.Printable) : name ≠ lit.value := by
  rintro rfl
  obtain ⟨parts, start⟩ := h
  obtain ⟨c, first, noDigit⟩ := (Option.any_eq_true _ _).mp start
  have mem : c ∈ lit.value.toList := List.mem_of_mem_head? first
  rcases h'.mem_value c mem with digit | rfl
  · rw [digit] at noDigit
    cases noDigit
  · exact absurd (List.all_eq_true.mp parts '-' mem) (by decide)

theorem readable : Readable (fun elem => elem.text.toList) Printable (Breaks isTyPart) := by
  refine readable_tagged.of_map (fun elem => (elem.word, some elem.ty)) toList_text ?_ ?_
  · intro elem ok
    exact ⟨ok.isWord_word, by simpa using ok.ty⟩
  · intro elem elem' ok ok' same
    obtain ⟨words, tags⟩ := Prod.mk.inj same
    have types := Option.some.inj tags
    cases elem with
    | operand op =>
        cases elem' with
        | operand op' =>
            have equal : op = op' := by
              cases op
              cases op'
              exact (Operand.mk.injEq ..).mpr ⟨words, types⟩
            rw [equal]
        | literal lit' => exact absurd words (name_ne_value ok.1 ok')
    | literal lit =>
        cases elem' with
        | operand op' => exact absurd words.symm (name_ne_value ok'.1 ok)
        | literal lit' =>
            have equal : lit = lit' := by
              cases lit
              cases lit'
              exact (Literal.mk.injEq ..).mpr ⟨words, types⟩
            rw [equal]

end Element

/-! ## Cells and calls -/

namespace Cell

/-- Cells of an array whose type the text of the cell gives away. -/
def Printable (cell : Cell) : Prop :=
  cell.array.Printable ∧ cell.index.Printable ∧ cell.array.ty = .array cell.elemTy

theorem readable : Readable (fun cell => cell.text.toList) Printable (Breaks isTyPart) := by
  have parts := readable_word.pair
    (Element.readable.pair Ty.readable "]" (breaks_append (by decide))) "["
    (breaks_append (by decide))
  refine parts.of_map (fun cell => (cell.array.name, cell.index, cell.elemTy)) ?_ ?_ ?_
  · intro cell
    simp [text]
  · rintro cell ⟨⟨name, ty⟩, index, isArray⟩
    rw [isArray] at ty
    exact ⟨name.isWord, index, ty⟩
  · rintro ⟨⟨name, ty⟩, index, elemTy⟩ ⟨⟨name', ty'⟩, index', elemTy'⟩ ⟨_, _, isArray⟩
      ⟨_, _, isArray'⟩ same
    cases same
    have types : ty = ty' := isArray.trans isArray'.symm
    rw [types]

end Cell

namespace Target

def Printable : Target → Prop
  | className name => IsClassName name
  | object receiver => receiver.Printable

theorem readable : Readable (fun target => target.text.toList) Printable (Breaks isTyPart) := by
  let parts : Target → String × Option Ty
    | className name => (name, none)
    | object receiver => (receiver.name, some receiver.ty)
  refine readable_tagged.of_map parts ?_ ?_ ?_
  · intro target
    cases target <;> simp [parts, text, taggedText, Operand.text]
  · intro target ok
    cases target with
    | className name => exact ⟨ok.1.isWord, by simp [parts]⟩
    | object receiver => exact ⟨ok.1.isWord, by simpa [parts] using ok.2⟩
  · intro target target' _ _ same
    cases target with
    | className name =>
        cases target' with
        | className name' => rw [(Prod.mk.inj same).1]
        | object receiver' => cases (Prod.mk.inj same).2
    | object receiver =>
        cases target' with
        | className name' => cases (Prod.mk.inj same).2
        | object receiver' =>
            obtain ⟨names, types⟩ := Prod.mk.inj same
            cases receiver
            cases receiver'
            cases names
            cases types
            rfl

end Target

namespace Call

/-- Calls of methods that are called by an identifier or are the constructor. -/
def Printable (call : Call) : Prop :=
  call.target.Printable ∧ (IsIdentifier call.method ∨ call.method = "<init>") ∧
    (∀ arg ∈ call.args, arg.Printable) ∧ call.ret.Printable

theorem isWord_method {method : String} (h : IsIdentifier method ∨ method = "<init>") :
    IsWord method := by
  rcases h with identifier | rfl
  · exact identifier.isWord
  · decide

theorem readable_kind :
    Readable (fun kind => (CallKind.mnemonic kind).toList) (fun _ => True) (Breaks isWordPart) := by
  refine readable_word.of_map CallKind.mnemonic (fun _ => rfl) ?_ ?_
  · intro kind _
    cases kind <;> decide
  · intro kind kind' _ _
    cases kind <;> cases kind' <;> decide

/-- Each argument stands behind a comma, and a parenthesis closes the list. -/
theorem readable_args :
    Readable (List.flatMap fun arg => ", ".toList ++ (Element.text arg).toList)
      (fun args => ∀ arg ∈ args, Element.Printable arg) fun rest => rest.head? = some ')' := by
  refine (Element.readable.opened ", ").list ?_ ?_ ?_
  · intro arg rest _
    rw [List.append_assoc]
    exact breaks_append (by decide) _
  · intro rest stop c first
    rw [stop] at first
    cases first
    decide
  · intro arg rest _ stop
    cases stop

theorem readable : Readable (fun call => call.text.toList) Printable (Breaks isTyPart) := by
  have fromArgs := readable_args.pair Ty.readable ")" fun _ => rfl
  have fromMethod := readable_word.pair fromArgs "\"" (breaks_append (by decide))
  have fromTarget := Target.readable.pair fromMethod ", \"" (breaks_append (by decide))
  have parts := readable_kind.pair fromTarget "(" (breaks_append (by decide))
  refine parts.of_map
    (fun call => (call.kind, call.target, call.method, call.args, call.ret)) ?_ ?_ ?_
  · intro call
    simp [text, List.flatMap_map]
  · rintro call ⟨target, method, args, ret⟩
    exact ⟨trivial, target, isWord_method method, args, ret⟩
  · rintro ⟨_, _, _, _, _⟩ ⟨_, _, _, _, _⟩ _ _ same
    cases same
    rfl

end Call

end MiniJava.Tac
