import MiniJava.Proofs.Text.Operand

/-!
# Reading back instructions

The text of a printable instruction determines the instruction
(`eq_of_text_eq`).  Which form it has shows in its first word and the mark behind
it (`Opens`), with three exceptions.  An element and a binary operation begin
alike, and a blank follows the first only.  The allocation of an array goes on
with a comma where that of an object closes the parenthesis.  A return begins as
an assignment to a variable called `ret`, but no colon comes behind its type.
-/

namespace MiniJava.Tac

/-! ## The first word of a text -/

/-- A text begins with a word and the mark behind it. -/
def Opens (chars : List Char) (word : String) (mark : Char) : Prop :=
  IsWord word ∧ isWordPart mark = false ∧ ∃ more, chars = word.toList ++ mark :: more

namespace Opens

variable {chars : List Char} {word word' : String} {mark mark' : Char}

theorem append (h : Opens chars word mark) (rest : List Char) :
    Opens (chars ++ rest) word mark := by
  obtain ⟨isWord, isMark, more, rfl⟩ := h
  exact ⟨isWord, isMark, more ++ rest, by simp⟩

theorem unique (h : Opens chars word mark) (h' : Opens chars word' mark') :
    word = word' ∧ mark = mark' := by
  obtain ⟨isWord, isMark, more, rfl⟩ := h
  obtain ⟨isWord', isMark', more', same⟩ := h'
  obtain ⟨words, rests⟩ := readable_word isWord isWord' (breaks_cons.mpr isMark)
    (breaks_cons.mpr isMark') same
  exact ⟨words, (List.cons.inj rests).1⟩

end Opens

/-- A fixed text opens what begins with it. -/
theorem opens_fixed {start word : String} {mark : Char} {more : List Char} (isWord : IsWord word)
    (isMark : isWordPart mark = false) (split : start.toList = word.toList ++ mark :: more)
    (rest : List Char) : Opens (start.toList ++ rest) word mark :=
  ⟨isWord, isMark, more ++ rest, by simp [split]⟩

theorem Element.Printable.opens {elem : Element} (h : elem.Printable) :
    Opens elem.text.toList elem.word '.' := by
  refine ⟨h.isWord_word, by decide, elem.ty.stem.toList ++ elem.ty.tail, ?_⟩
  rw [Element.toList_text, Ty.toList_text]

theorem Cell.Printable.opens {cell : Cell} (h : cell.Printable) :
    Opens cell.text.toList cell.array.name '[' := by
  refine ⟨h.1.1.isWord, by decide, cell.index.text.toList ++ ']' :: cell.elemTy.text.toList, ?_⟩
  simp [Cell.text]

/-- Calls have words of their own. -/
theorem CallKind.lead_ne (kind : CallKind) {word : String}
    (other : word ∈ ["new", "arraylength", "getfield", "putfield", "if"]) :
    (kind.mnemonic, '(') ≠ (word, '(') := by
  have words : ∀ word ∈ ["new", "arraylength", "getfield", "putfield", "if"],
      kind.mnemonic ≠ word := by
    cases kind <;> decide
  intro same
  exact words word other (Prod.mk.inj same).1

theorem Call.opens (call : Call) : Opens call.text.toList call.kind.mnemonic '(' := by
  refine ⟨by cases call.kind <;> decide, by decide, ?_⟩
  simp only [Call.text, String.toList_append, List.append_assoc, List.append_cancel_left_eq]
  exact ⟨_, rfl⟩

/-! ## Expressions -/

/-- An operator is read back with the type of its result. -/
theorem BinOp.readable :
    Readable (fun op => (BinOp.symbol op).toList ++ op.resultTy.text.toList) (fun _ => True)
      (Breaks isTyPart) := by
  refine readable_tagged.of_map (fun op => (op.symbol, some op.resultTy)) (fun _ => rfl) ?_ ?_
  · rintro ((_ | _ | _ | _) | _ | _ | _) _
    all_goals exact ⟨by decide, fun ty mem => by cases mem; trivial⟩
  · intro op op' _ _ same
    have symbols := (Prod.mk.inj same).1
    revert symbols
    rcases op with (_ | _ | _ | _) | _ | _ | _ <;>
      rcases op' with (_ | _ | _ | _) | _ | _ | _ <;> decide

/-- Characters that may continue an expression. -/
def isRhsPart (c : Char) : Bool := isTyPart c || c == ' '

theorem Breaks.ty {rest : List Char} (h : Breaks isRhsPart rest) : Breaks isTyPart rest :=
  h.mono fun c part => by simp [isRhsPart, part]

namespace Rhs

/-- Expressions over printable parts, where `self` is the type of `this` in field
accesses. -/
def Printable (self : Ty) : Rhs → Prop
  | element elem => elem.Printable
  | binary _ lhs rhs => lhs.Printable ∧ rhs.Printable
  | not operand => operand.Printable
  | call invocation => invocation.Printable
  | new className => IsClassName className
  | newArray size ty => size.Printable ∧ ty.Printable
  | length array => array.Printable
  | getField object field => object.PrintableHolder self ∧ field.Printable
  | index place => place.Printable

/-- The first word of an expression and the mark behind it. -/
def lead : Rhs → String × Char
  | element elem => (elem.word, '.')
  | binary _ lhs _ => (lhs.word, '.')
  | not _ => ("", '!')
  | call invocation => (invocation.kind.mnemonic, '(')
  | new _ | newArray _ _ => ("new", '(')
  | length _ => ("arraylength", '(')
  | getField _ _ => ("getfield", '(')
  | index place => (place.array.name, '[')

theorem Printable.opens {self : Ty} {rhs : Rhs} (h : rhs.Printable self) :
    Opens rhs.text.toList rhs.lead.1 rhs.lead.2 := by
  -- `text` is unfolded as a whole, since its equations by cases are slow to derive
  cases rhs with
  | element elem => exact Element.Printable.opens h
  | binary op lhs rhs =>
      simp only [text.eq_def, String.toList_append, List.append_assoc]
      exact (Element.Printable.opens h.1).append _
  | call invocation => exact invocation.opens
  | index place => exact Cell.Printable.opens h
  | not _ | new _ | newArray _ _ | length _ | getField _ _ =>
      simp only [text.eq_def, lead, String.toList_append, List.append_assoc]
      exact opens_fixed (by decide) (by decide) rfl _

/-- Expressions that begin the same text have the same lead. -/
theorem Printable.lead_eq {self : Ty} {a b : Rhs} {rest rest' : List Char}
    (ok : a.Printable self) (ok' : b.Printable self)
    (same : a.text.toList ++ rest = b.text.toList ++ rest') : a.lead = b.lead := by
  have opens := ok.opens.append rest
  rw [same] at opens
  obtain ⟨words, marks⟩ := opens.unique (ok'.opens.append rest')
  exact Prod.ext words marks

/-- A blank follows an element only inside of a binary operation. -/
theorem element_append_ne {elem lhs rhs : Element} {op : BinOp} {rest rest' : List Char}
    (h : elem.Printable) (h' : lhs.Printable) (stop : Breaks isRhsPart rest) :
    (element elem).text.toList ++ rest ≠ (binary op lhs rhs).text.toList ++ rest' := by
  intro same
  simp only [text.eq_def, String.toList_append, List.append_assoc] at same
  obtain ⟨_, rests⟩ := Element.readable h h' (Breaks.ty stop) (breaks_append (by decide) _) same
  rw [rests] at stop
  cases breaks_cons.mp stop

/-- The parenthesis of an allocation closes behind the name of a class. -/
theorem new_append_ne {className : String} {size : Element} {ty : Ty} {rest rest' : List Char}
    (h : IsClassName className) :
    (new className).text.toList ++ rest ≠ (newArray size ty).text.toList ++ rest' := by
  intro same
  have split : "new(array, ".toList = "new(".toList ++ ("array".toList ++ ", ".toList) := rfl
  simp only [text.eq_def, String.toList_append, split, List.append_assoc] at same
  obtain ⟨_, rests⟩ := readable_word h.1.isWord (by decide) (breaks_append (by decide) _)
    (breaks_append (by decide) _) (List.append_cancel_left same)
  simp at rests

/-! The forms with several parts are read back part by part. -/

theorem readable_binary :
    Readable (fun p : Element × BinOp × Element => (binary p.2.1 p.1 p.2.2).text.toList)
      (fun p => p.1.Printable ∧ True ∧ p.2.2.Printable) (Breaks isTyPart) := by
  have parts := Element.readable.pair
    (BinOp.readable.pair Element.readable " " (breaks_append (by decide))) " "
    (breaks_append (by decide))
  intro p p' rest rest' ok ok' stop stop' same
  exact parts ok ok' stop stop' (by simpa [text.eq_def] using same)

theorem readable_new :
    Readable (fun name => (new name).text.toList) IsClassName (Breaks isTyPart) := by
  have parts := (readable_word.pair Ty.readable ")" (breaks_append (by decide))).opened "new("
  refine parts.of_map (fun name => (name, .object name)) ?_ ?_ ?_
  · intro name
    simp [text.eq_def]
  · exact fun name ok => ⟨ok.1.isWord, ok⟩
  · exact fun name name' _ _ same => (Prod.mk.inj same).1

theorem readable_newArray :
    Readable (fun p : Element × Ty => (newArray p.1 p.2).text.toList)
      (fun p => p.1.Printable ∧ p.2.Printable) (Breaks isTyPart) := by
  have parts := Element.readable.pair Ty.readable ")" (breaks_append (by decide))
  intro p p' rest rest' ok ok' stop stop' same
  exact parts ok ok' stop stop' (by simpa [text.eq_def] using same)

theorem readable_getField (self : Ty) :
    Readable (fun p : Operand × Operand => (getField p.1 p.2).text.toList)
      (fun p => p.1.PrintableHolder self ∧ p.2.Printable) (Breaks isTyPart) := by
  have parts := ((Operand.readable_holder self).pair
    (Operand.readable.pair Ty.readable ")" (breaks_append (by decide))) ", "
    (breaks_append (by decide))).opened "getfield("
  refine parts.of_map (fun p => (p.1, p.2, p.2.ty)) ?_ ?_ ?_
  · intro p
    simp [text.eq_def]
  · exact fun p ok => ⟨ok.1, ok.2, ok.2.2⟩
  · rintro ⟨object, field⟩ ⟨object', field'⟩ _ _ same
    cases same
    rfl

theorem readable (self : Ty) :
    Readable (fun rhs => rhs.text.toList) (Printable self) (Breaks isRhsPart) := by
  intro a b rest rest' ok ok' stop stop' same
  have leads := ok.lead_eq ok' same
  have ends := Breaks.ty stop
  have ends' := Breaks.ty stop'
  cases a with
  | element elem =>
      cases b with
      | element elem' =>
          obtain ⟨rfl, rests⟩ := Element.readable ok ok' ends ends' same
          exact ⟨rfl, rests⟩
      | binary op lhs rhs => exact absurd same (element_append_ne ok ok'.1 stop)
      | _ => simp [lead] at leads
  | binary op lhs rhs =>
      cases b with
      | element elem => exact absurd same.symm (element_append_ne ok' ok.1 stop')
      | binary op' lhs' rhs' =>
          obtain ⟨equal, rests⟩ := readable_binary (a := (lhs, op, rhs)) (b := (lhs', op', rhs'))
            ⟨ok.1, trivial, ok.2⟩ ⟨ok'.1, trivial, ok'.2⟩ ends ends' same
          cases equal
          exact ⟨rfl, rests⟩
      | _ => simp [lead] at leads
  | not operand =>
      cases b with
      | not operand' =>
          obtain ⟨rfl, rests⟩ := Element.readable ok ok' ends ends'
            (by simpa [text.eq_def] using same)
          exact ⟨rfl, rests⟩
      | _ => simp [lead] at leads
  | call invocation =>
      cases b with
      | call invocation' =>
          obtain ⟨rfl, rests⟩ := Call.readable ok ok' ends ends' same
          exact ⟨rfl, rests⟩
      | new _ | newArray _ _ | length _ | getField _ _ =>
          exact absurd leads (invocation.kind.lead_ne (by decide))
      | _ => simp [lead] at leads
  | new className =>
      cases b with
      | new className' =>
          obtain ⟨rfl, rests⟩ := readable_new ok ok' ends ends' same
          exact ⟨rfl, rests⟩
      | newArray size ty => exact absurd same (new_append_ne ok)
      | call invocation => exact absurd leads.symm (invocation.kind.lead_ne (by decide))
      | _ => simp [lead] at leads
  | newArray size ty =>
      cases b with
      | newArray size' ty' =>
          obtain ⟨equal, rests⟩ := readable_newArray (a := (size, ty)) (b := (size', ty')) ok ok'
            ends ends' same
          cases equal
          exact ⟨rfl, rests⟩
      | new className => exact absurd same.symm (new_append_ne ok')
      | call invocation => exact absurd leads.symm (invocation.kind.lead_ne (by decide))
      | _ => simp [lead] at leads
  | length array =>
      cases b with
      | length array' =>
          have parts := Operand.readable.closed ").i32" (breaks_append (by decide))
          obtain ⟨rfl, rests⟩ := parts ok ok' trivial trivial
            (by simpa [text.eq_def, Ty.text] using same)
          exact ⟨rfl, rests⟩
      | call invocation => exact absurd leads.symm (invocation.kind.lead_ne (by decide))
      | _ => simp [lead] at leads
  | getField object field =>
      cases b with
      | getField object' field' =>
          obtain ⟨equal, rests⟩ := readable_getField self (a := (object, field))
            (b := (object', field')) ok ok' ends ends' same
          cases equal
          exact ⟨rfl, rests⟩
      | call invocation => exact absurd leads.symm (invocation.kind.lead_ne (by decide))
      | _ => simp [lead] at leads
  | index place =>
      cases b with
      | index place' =>
          obtain ⟨rfl, rests⟩ := Cell.readable ok ok' ends ends' same
          exact ⟨rfl, rests⟩
      | _ => simp [lead] at leads

end Rhs

/-! ## Instructions -/

theorem Operand.Printable.opens {op : Operand} (h : op.Printable) :
    Opens op.text.toList op.name '.' := by
  have opens : (Element.operand op).Printable := h
  exact opens.opens

theorem isWord_label (label : Label) : IsWord label.text := by
  have digits : ∀ id : Nat, IsWord (Nat.repr id) := by
    intro id
    refine List.all_eq_true.mpr fun c mem => ?_
    rw [Nat.toList_repr] at mem
    have digit := Nat.isDigit_of_mem_toDigits (by omega) (by omega) mem
    exact isWordPart_of_isNamePart (by simp [isNamePart, Char.isAlphanum, digit])
  have joined : ∀ {stem : String} (id : Nat), IsWord stem → IsWord (stem ++ Nat.repr id) := by
    intro stem id isWord
    rw [IsWord, String.toList_append, List.all_append, Bool.and_eq_true]
    exact ⟨isWord, digits id⟩
  cases label with
  | numbered family id => exact joined id (by cases family <;> decide)
  | endIf id => exact joined id (by decide)

theorem readable_label :
    Readable (fun label => (Label.text label).toList) (fun _ => True) (Breaks isWordPart) :=
  readable_word.of_map Label.text (fun _ => rfl) (fun label _ => isWord_label label)
    fun _ _ _ _ same => Label.text_inj same

namespace Dest

def Printable : Dest → Prop
  | var op => op.Printable
  | cell place => place.Printable

/-- The first word of a destination and the mark behind it. -/
def lead : Dest → String × Char
  | var op => (op.name, '.')
  | cell place => (place.array.name, '[')

theorem Printable.opens {dest : Dest} (h : dest.Printable) :
    Opens dest.text.toList dest.lead.1 dest.lead.2 := by
  cases dest with
  | var op => exact Operand.Printable.opens h
  | cell place => exact Cell.Printable.opens h

theorem readable : Readable (fun dest => dest.text.toList) Printable (Breaks isTyPart) := by
  intro a b rest rest' ok ok' stop stop' same
  have marks : a.lead.2 = b.lead.2 := by
    have opens := ok.opens.append rest
    rw [show a.text.toList ++ rest = b.text.toList ++ rest' from same] at opens
    exact (opens.unique (ok'.opens.append rest')).2
  cases a with
  | var op =>
      cases b with
      | var op' =>
          obtain ⟨rfl, rests⟩ := Operand.readable ok ok' stop stop' same
          exact ⟨rfl, rests⟩
      | cell place' => simp [lead] at marks
  | cell place =>
      cases b with
      | var op' => simp [lead] at marks
      | cell place' =>
          obtain ⟨rfl, rests⟩ := Cell.readable ok ok' stop stop' same
          exact ⟨rfl, rests⟩

end Dest

namespace Instr

/-- Instructions over printable parts, where `self` is the type of `this` in field
accesses.  Labels always are. -/
def Printable (self : Ty) : Instr → Prop
  | assign dest ty rhs => dest.Printable ∧ ty.Printable ∧ rhs.Printable self
  | putField object field value =>
      object.PrintableHolder self ∧ field.Printable ∧ value.Printable
  | call invocation => invocation.Printable
  | goto _ | label _ => True
  | branch cond _ => cond.Printable self
  | ret ty value => ty.Printable ∧ ∀ elem ∈ value, elem.Printable

/-- The first word of an instruction and the mark behind it. -/
def lead : Instr → String × Char
  | assign dest _ _ => dest.lead
  | putField _ _ _ => ("putfield", '(')
  | call invocation => (invocation.kind.mnemonic, '(')
  | goto _ => ("goto", ' ')
  | label mark => (mark.text, ':')
  | branch _ _ => ("if", '(')
  | ret _ _ => ("ret", '.')

/-- Only a dot or a bracket comes behind the first word of an assignment. -/
theorem assign_lead_ne {dest : Dest} {ty : Ty} {rhs : Rhs} {word : String} {mark : Char}
    (other : mark ∉ ['.', '[']) : (assign dest ty rhs).lead ≠ (word, mark) := by
  intro same
  have marks : dest.lead.2 = mark := congrArg Prod.snd same
  subst marks
  cases dest <;> simp [Dest.lead] at other

/-- What comes behind the type of a return. -/
def retTail (value : Option Element) : List Char :=
  value.elim [';'] fun elem => " ".toList ++ (elem.text.toList ++ ";".toList)

theorem toList_text_ret (ty : Ty) (value : Option Element) :
    (ret ty value).text.toList = "ret".toList ++ (ty.text.toList ++ retTail value) := by
  cases value <;> simp [text.eq_def, retTail]

theorem Printable.opens {self : Ty} {instr : Instr} (h : instr.Printable self) :
    Opens instr.text.toList instr.lead.1 instr.lead.2 := by
  cases instr with
  | assign dest ty rhs =>
      simp only [text.eq_def, String.toList_append, List.append_assoc]
      exact (Dest.Printable.opens h.1).append _
  | putField _ _ _ | goto _ | branch _ _ =>
      simp only [text.eq_def, lead, String.toList_append, List.append_assoc]
      exact opens_fixed (by decide) (by decide) rfl _
  | call invocation =>
      simp only [text.eq_def, String.toList_append]
      exact invocation.opens.append _
  | label mark =>
      have isMark : isWordPart ':' = false := by decide
      exact ⟨isWord_label mark, isMark, [], by simp [text.eq_def, lead]⟩
  | ret ty value =>
      have ret : Opens ("ret".toList ++ (ty.text.toList ++ retTail value)) "ret" '.' := by
        refine ⟨by decide, by decide, ty.stem.toList ++ (ty.tail ++ retTail value), ?_⟩
        simp [Ty.toList_text]
      rw [toList_text_ret]
      exact ret

theorem breaks_retTail (value : Option Element) : Breaks isTyPart (retTail value) := by
  cases value with
  | none => exact breaks_cons.mpr (by decide)
  | some elem => exact breaks_append (by decide) _

theorem retTail_inj {value value' : Option Element} (ok : ∀ elem ∈ value, elem.Printable)
    (ok' : ∀ elem ∈ value', elem.Printable) (same : retTail value = retTail value') :
    value = value' := by
  cases value with
  | none =>
      cases value' with
      | none => rfl
      | some elem' => simp [retTail] at same
  | some elem =>
      cases value' with
      | none => simp [retTail] at same
      | some elem' =>
          have parts := Element.readable.closed ";" (breaks_append (by decide))
          have equal : elem = elem' := parts.inj trivial (ok elem rfl) (ok' elem' rfl)
            (List.append_cancel_left same)
          rw [equal]

/-- No value begins with the sign of an assignment. -/
theorem retTail_ne {value : Option Element} (ok : ∀ elem ∈ value, elem.Printable)
    (more : List Char) : " :=".toList ++ more ≠ retTail value := by
  intro same
  cases value with
  | none => simp [retTail] at same
  | some elem =>
      have sign : ":=".toList ++ more = elem.text.toList ++ ";".toList := by
        simpa [retTail] using same
      have opens : Opens (":=".toList ++ more) "" ':' :=
        opens_fixed (by decide) (by decide) rfl more
      rw [sign] at opens
      have marks := (opens.unique ((ok elem rfl).opens.append _)).2
      cases marks

/-- An assignment is not a return, also if its variable is called `ret`. -/
theorem assign_text_ne {self : Ty} {dest : Dest} {ty ty' : Ty} {rhs : Rhs}
    {value : Option Element} (ok : (assign dest ty rhs).Printable self)
    (ok' : (ret ty' value).Printable self) :
    (assign dest ty rhs).text.toList ≠ (ret ty' value).text.toList := by
  intro same
  have isName : IsIdentifier "ret" := by decide
  have named : (Dest.var ⟨"ret", ty'⟩).Printable := ⟨isName, ok'.1⟩
  have split : dest.text.toList ++ (" :=".toList ++ (ty.text.toList ++ (" ".toList ++
      (rhs.text.toList ++ ";".toList)))) =
        (Dest.var ⟨"ret", ty'⟩).text.toList ++ retTail value := by
    rw [toList_text_ret] at same
    simpa [text.eq_def, Dest.text, Operand.text] using same
  obtain ⟨_, rests⟩ := Dest.readable ok.1 named (breaks_append (by decide) _)
    (breaks_retTail value) split
  exact retTail_ne ok'.2 _ rests

theorem Printable.lead_eq {self : Ty} {a b : Instr} (ok : a.Printable self)
    (ok' : b.Printable self) (same : a.text.toList = b.text.toList) : a.lead = b.lead := by
  have opens := ok.opens
  rw [same] at opens
  obtain ⟨words, marks⟩ := opens.unique ok'.opens
  exact Prod.ext words marks

theorem assign_text_inj {self : Ty} {dest dest' : Dest} {ty ty' : Ty} {rhs rhs' : Rhs}
    (ok : (assign dest ty rhs).Printable self) (ok' : (assign dest' ty' rhs').Printable self)
    (same : (assign dest ty rhs).text.toList = (assign dest' ty' rhs').text.toList) :
    assign dest ty rhs = assign dest' ty' rhs' := by
  have parts := (Dest.readable.pair
    (Ty.readable.pair (Rhs.readable self) " " (breaks_append (by decide))) " :="
    (breaks_append (by decide))).closed ";" (breaks_append (by decide))
  have equal := parts.inj trivial (a := (dest, ty, rhs)) (b := (dest', ty', rhs')) ok ok'
    (by simpa [text.eq_def] using same)
  cases equal
  rfl

theorem putField_text_inj {self : Ty} {object object' field field' : Operand}
    {value value' : Element} (ok : (putField object field value).Printable self)
    (ok' : (putField object' field' value').Printable self)
    (same : (putField object field value).text.toList =
      (putField object' field' value').text.toList) :
    putField object field value = putField object' field' value' := by
  have parts := ((Operand.readable_holder self).pair
    (Operand.readable.pair Element.readable ", " (breaks_append (by decide))) ", "
    (breaks_append (by decide))).closed ").V;" (breaks_append (by decide))
  have equal := parts.inj trivial (a := (object, field, value)) (b := (object', field', value'))
    ok ok' (by simpa [text.eq_def, Ty.text] using same)
  cases equal
  rfl

theorem branch_text_inj {self : Ty} {cond cond' : Rhs} {target target' : Label}
    (ok : (branch cond target).Printable self) (ok' : (branch cond' target').Printable self)
    (same : (branch cond target).text.toList = (branch cond' target').text.toList) :
    branch cond target = branch cond' target' := by
  have parts := ((Rhs.readable self).pair readable_label ") goto "
    (breaks_append (by decide))).closed ";" (breaks_append (by decide))
  have equal := parts.inj trivial (a := (cond, target)) (b := (cond', target'))
    ⟨ok, trivial⟩ ⟨ok', trivial⟩ (by simpa [text.eq_def] using same)
  cases equal
  rfl

theorem ret_text_inj {self : Ty} {ty ty' : Ty} {value value' : Option Element}
    (ok : (ret ty value).Printable self) (ok' : (ret ty' value').Printable self)
    (same : (ret ty value).text.toList = (ret ty' value').text.toList) :
    ret ty value = ret ty' value' := by
  rw [toList_text_ret, toList_text_ret] at same
  obtain ⟨rfl, tails⟩ := Ty.readable ok.1 ok'.1 (breaks_retTail value) (breaks_retTail value')
    (List.append_cancel_left same)
  rw [retTail_inj ok.2 ok'.2 tails]

/-- Instructions over printable parts that have the same text are the same. -/
theorem eq_of_text_eq {self : Ty} {a b : Instr} (ok : a.Printable self) (ok' : b.Printable self)
    (same : a.text = b.text) : a = b := by
  have chars : a.text.toList = b.text.toList := by rw [same]
  have leads := ok.lead_eq ok' chars
  cases a with
  | assign dest ty rhs =>
      cases b with
      | assign dest' ty' rhs' => exact assign_text_inj ok ok' chars
      | ret ty' value' => exact absurd chars (assign_text_ne ok ok')
      | _ => exact absurd leads (assign_lead_ne (by decide))
  | putField object field value =>
      cases b with
      | putField object' field' value' => exact putField_text_inj ok ok' chars
      | call invocation => exact absurd leads.symm (invocation.kind.lead_ne (by decide))
      | assign dest ty rhs => exact absurd leads.symm (assign_lead_ne (by decide))
      | _ => simp [lead] at leads
  | call invocation =>
      cases b with
      | call invocation' =>
          have parts := Call.readable.closed ";" (breaks_append (by decide))
          rw [parts.inj trivial ok ok' (by simpa [text.eq_def] using chars)]
      | putField _ _ _ | branch _ _ =>
          exact absurd leads (invocation.kind.lead_ne (by decide))
      | assign dest ty rhs => exact absurd leads.symm (assign_lead_ne (by decide))
      | _ => simp [lead] at leads
  | goto target =>
      cases b with
      | goto target' =>
          have parts := readable_label.closed ";" (breaks_append (by decide))
          have equal : target = target' :=
            parts.inj trivial trivial trivial (by simpa [text.eq_def] using chars)
          rw [equal]
      | assign dest ty rhs => exact absurd leads.symm (assign_lead_ne (by decide))
      | _ => simp [lead] at leads
  | label mark =>
      cases b with
      | label mark' =>
          have parts := readable_label.closed ":" (breaks_append (by decide))
          have equal : mark = mark' :=
            parts.inj trivial trivial trivial (by simpa [text.eq_def] using chars)
          rw [equal]
      | assign dest ty rhs => exact absurd leads.symm (assign_lead_ne (by decide))
      | _ => simp [lead] at leads
  | branch cond target =>
      cases b with
      | branch cond' target' => exact branch_text_inj ok ok' chars
      | call invocation => exact absurd leads.symm (invocation.kind.lead_ne (by decide))
      | assign dest ty rhs => exact absurd leads.symm (assign_lead_ne (by decide))
      | _ => simp [lead] at leads
  | ret ty value =>
      cases b with
      | ret ty' value' => exact ret_text_inj ok ok' chars
      | assign dest ty rhs => exact absurd chars.symm (assign_text_ne ok' ok)
      | _ => simp [lead] at leads

/-- A variable called `ret` is assigned an element of an array of objects. -/
theorem eq_of_text_eq_ret :
    let self : Ty := .object "Foo"
    let xs : Operand := ⟨"xs", .array self⟩
    let ret : Operand := ⟨"ret", self⟩
    let a : Instr := .assign (.var ret) self (.index ⟨xs, .literal (.int (-1)), self⟩)
    let b : Instr := .set ret (.index (.of xs (.literal (.int (-1)))))
    a.Printable self ∧ b.Printable self ∧ a.text = b.text ∧ a = b := by
  intro self xs ret a b
  have isClass : self.Printable := ⟨by decide, by decide⟩
  have isRet : ret.Printable := ⟨by decide, isClass⟩
  have isXs : xs.Printable := ⟨by decide, isClass⟩
  have isIndex : (Literal.int (-1)).Printable := .inl ⟨-1, rfl⟩
  have ok : a.Printable self := ⟨isRet, isClass, isXs, isIndex, rfl⟩
  have ok' : b.Printable self := ⟨isRet, isClass, isXs, isIndex, rfl⟩
  have same : a.text = b.text := rfl
  exact ⟨ok, ok', same, eq_of_text_eq ok ok' same⟩

end Instr

end MiniJava.Tac
