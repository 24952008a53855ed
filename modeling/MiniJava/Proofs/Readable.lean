import Mathlib.Data.List.TakeWhile

/-!
# Texts that can be read back

`Readable write valid follow` says that the texts of valid values can be told
from each other and from what comes behind them: if two of them begin the same
text, they are the same and so are the rests, as long as both rests are such as
may follow.  Nothing has to be searched for, so texts that are joined can be read
back from left to right.

The rules below build such texts from parts: runs of characters of one kind, a
part before another with a separator between them, and lists.
-/

namespace MiniJava

variable {α β : Type}

/-- Texts that determine the value they were written for and where they end. -/
def Readable (write : α → List Char) (valid : α → Prop) (follow : List Char → Prop) : Prop :=
  ∀ ⦃a b : α⦄ ⦃rest rest' : List Char⦄, valid a → valid b → follow rest → follow rest' →
    write a ++ rest = write b ++ rest' → a = b ∧ rest = rest'

/-- A text that does not begin with a character of the given kind. -/
def Breaks (kind : Char → Bool) (rest : List Char) : Prop := ∀ c ∈ rest.head?, kind c = false

theorem breaks_cons {kind : Char → Bool} {c : Char} {rest : List Char} :
    Breaks kind (c :: rest) ↔ kind c = false := by
  simp [Breaks]

theorem breaks_append {kind : Char → Bool} {text : String}
    (h : text.toList.head?.any (! kind ·) = true) (rest : List Char) :
    Breaks kind (text.toList ++ rest) := by
  cases chars : text.toList with
  | nil => simp [chars] at h
  | cons c more =>
      rw [List.cons_append, breaks_cons]
      simpa [chars] using h

theorem Breaks.mono {kind kind' : Char → Bool} {rest : List Char}
    (wider : ∀ c, kind c = true → kind' c = true) (h : Breaks kind' rest) : Breaks kind rest := by
  intro c first
  have outside := h c first
  cases inside : kind c with
  | false => rfl
  | true => rw [wider c inside] at outside; cases outside

/-- A run of characters of one kind ends where another kind begins. -/
theorem readable_run (kind : Char → Bool) :
    Readable (fun chars => chars) (fun chars => ∀ c ∈ chars, kind c = true) (Breaks kind) := by
  intro a b rest rest' run run' stop stop' same
  have taken : ∀ {chars rest : List Char}, (∀ c ∈ chars, kind c = true) → Breaks kind rest →
      (chars ++ rest).takeWhile kind = chars := by
    intro chars rest run stop
    rw [List.takeWhile_append_of_pos run]
    cases rest with
    | nil => simp
    | cons c more => simp [breaks_cons.mp stop]
  have runs : a = b := by rw [← taken run stop, same, taken run' stop']
  subst runs
  exact ⟨rfl, List.append_cancel_left same⟩

namespace Readable

variable {write : α → List Char} {valid : α → Prop} {follow : List Char → Prop}

/-- Values are told apart by their texts where nothing follows. -/
theorem inj (h : Readable write valid follow) (ends : follow []) {a b : α} (ok : valid a)
    (ok' : valid b) (same : write a = write b) : a = b := by
  have appended : write a ++ [] = write b ++ [] := by rw [same]
  exact (h ok ok' ends ends appended).1

/-- Values are read back from their texts if they are determined by values that
are. -/
theorem of_map (h : Readable write valid follow) {write' : β → List Char} {valid' : β → Prop}
    (f : β → α) (text : ∀ b, write' b = write (f b)) (maps : ∀ b, valid' b → valid (f b))
    (inj : ∀ b b', valid' b → valid' b' → f b = f b' → b = b') :
    Readable write' valid' follow := by
  intro b b' rest rest' ok ok' stop stop' same
  rw [text b, text b'] at same
  obtain ⟨values, rests⟩ := h (maps b ok) (maps b' ok') stop stop' same
  exact ⟨inj b b' ok ok' values, rests⟩

/-- One text before another, with a separator between them that may follow the
first. -/
theorem pair (h : Readable write valid follow) {write' : β → List Char} {valid' : β → Prop}
    {follow' : List Char → Prop} (h' : Readable write' valid' follow') (separator : String)
    (next : ∀ rest, follow (separator.toList ++ rest)) :
    Readable (fun p : α × β => write p.1 ++ (separator.toList ++ write' p.2))
      (fun p => valid p.1 ∧ valid' p.2) follow' := by
  rintro ⟨a, b⟩ ⟨a', b'⟩ rest rest' ⟨ok, more⟩ ⟨ok', more'⟩ stop stop' same
  simp only [List.append_assoc] at same
  obtain ⟨rfl, tails⟩ := h ok ok' (next _) (next _) same
  obtain ⟨rfl, rests⟩ := h' more more' stop stop' (List.append_cancel_left tails)
  exact ⟨rfl, rests⟩

/-- A text behind a fixed one. -/
theorem opened (h : Readable write valid follow) (start : String) :
    Readable (fun a => start.toList ++ write a) valid follow := by
  intro a b rest rest' ok ok' stop stop' same
  simp only [List.append_assoc] at same
  exact h ok ok' stop stop' (List.append_cancel_left same)

/-- A text before a fixed one that may follow it. -/
theorem closed (h : Readable write valid follow) (close : String)
    (next : ∀ rest, follow (close.toList ++ rest)) :
    Readable (fun a => write a ++ close.toList) valid fun _ => True := by
  intro a b rest rest' ok ok' _ _ same
  simp only [List.append_assoc] at same
  obtain ⟨rfl, tails⟩ := h ok ok' (next _) (next _) same
  exact ⟨rfl, List.append_cancel_left tails⟩

/-- Texts one after another, up to something that begins no further one. -/
theorem list (h : Readable write valid follow) {stop : List Char → Prop}
    (again : ∀ a rest, valid a → follow (write a ++ rest)) (ends : ∀ rest, stop rest → follow rest)
    (apart : ∀ a rest, valid a → ¬ stop (write a ++ rest)) :
    Readable (List.flatMap write) (fun as => ∀ a ∈ as, valid a) stop := by
  have next : ∀ (as : List α) {rest : List Char}, (∀ a ∈ as, valid a) → stop rest →
      follow (as.flatMap write ++ rest) := by
    intro as rest ok stops
    cases as with
    | nil => exact ends rest stops
    | cons a as =>
        rw [List.flatMap_cons, List.append_assoc]
        exact again a _ (ok a List.mem_cons_self)
  intro as
  induction as with
  | nil =>
      intro bs rest rest' _ ok' stops _ same
      cases bs with
      | nil => exact ⟨rfl, same⟩
      | cons b bs =>
          rw [List.flatMap_nil, List.nil_append, List.flatMap_cons, List.append_assoc] at same
          exact absurd (same ▸ stops) (apart b _ (ok' b List.mem_cons_self))
  | cons a as induction =>
      intro bs rest rest' ok ok' stops stops' same
      rw [List.flatMap_cons, List.append_assoc] at same
      cases bs with
      | nil =>
          rw [List.flatMap_nil, List.nil_append] at same
          exact absurd (same ▸ stops') (apart a _ (ok a List.mem_cons_self))
      | cons b bs =>
          rw [List.flatMap_cons, List.append_assoc] at same
          have oks := List.forall_mem_cons.mp ok
          have oks' := List.forall_mem_cons.mp ok'
          obtain ⟨rfl, tails⟩ := h oks.1 oks'.1 (next as oks.2 stops) (next bs oks'.2 stops') same
          obtain ⟨rfl, rests⟩ := induction oks.2 oks'.2 stops stops' tails
          exact ⟨rfl, rests⟩

end Readable

end MiniJava
