import MiniJava.Proofs.Assembly.Height

/-!
# Paths through assembled methods

The code of a method is a list of blocks, one for each three-address
instruction, and the stack is empty between them.  A path through the code
leaves a block at its end or by a jump, and enters it at its start, also where
it enters at a label.  Hence the height at a place is the same on all paths that
reach it: the height at which the code arrives there when it is walked through
in order.
-/

namespace MiniJava.Jasmin

open MiniJava.Jasmin.Height (follow? follow?_append)

/-! ## Heights in order -/

/-- The height in front of a place when code is walked through in order. -/
def heightAt (code : List Instr) (pos : Nat) : Nat := (code.take pos).foldl heightAfter 0

/-- All heights when code is walked through in order. -/
def heights (code : List Instr) : List Nat := code.scanl heightAfter 0

variable {code rest : List Instr} {instr : Instr} {pos : Nat}

theorem heightAt_succ (here : code[pos]? = some instr) :
    heightAt code (pos + 1) = heightAfter (heightAt code pos) instr := by
  rw [heightAt, List.take_add_one, here, List.foldl_append]
  rfl

theorem heightAt_mem (code : List Instr) (pos : Nat) : heightAt code pos ∈ heights code := by
  have inside : ∀ pos ≤ code.length, heightAt code pos ∈ heights code := by
    intro pos inside
    have found : (heights code)[pos]? = some (heightAt code pos) := by
      rw [heights, List.getElem?_scanl, if_pos inside, heightAt]
    exact List.mem_of_getElem? found
  by_cases within : pos ≤ code.length
  · exact inside pos within
  · have atEnd : heightAt code pos = heightAt code code.length := by
      rw [heightAt, heightAt, List.take_of_length_le (Nat.le_of_not_le within), List.take_length]
    rw [atEnd]
    exact inside code.length (Nat.le_refl _)

theorem heightAt_append_left (rest : List Instr) (inside : pos ≤ code.length) :
    heightAt (code ++ rest) pos = heightAt code pos := by
  rw [heightAt, List.take_append_of_le_length inside, heightAt]

/-- Code that starts on an empty stack leaves it empty. -/
def Balanced (code : List Instr) : Prop := code.foldl heightAfter 0 = 0

theorem Balanced.heightAt_append_right (balanced : Balanced code) (rest : List Instr)
    (pos : Nat) : heightAt (code ++ rest) (code.length + pos) = heightAt rest pos := by
  rw [heightAt, List.take_length_add_append, List.foldl_append, balanced, heightAt]

theorem balanced_flatten {blocks : List (List Instr)}
    (each : ∀ block ∈ blocks, Balanced block) : Balanced blocks.flatten := by
  induction blocks with
  | nil => rfl
  | cons block blocks ih =>
      obtain ⟨first, others⟩ := List.forall_mem_cons.mp each
      rw [Balanced, List.flatten_cons, List.foldl_append, first]
      exact ih others

/-- The stack is empty between balanced blocks. -/
theorem heightAt_boundary {blocks : List (List Instr)}
    (each : ∀ block ∈ blocks, Balanced block) (count : Nat) :
    heightAt blocks.flatten (blocks.take count).flatten.length = 0 := by
  have balanced : Balanced (blocks.take count).flatten :=
    balanced_flatten fun block mem => each block (List.mem_of_mem_take mem)
  have split : blocks.flatten = (blocks.take count).flatten ++ (blocks.drop count).flatten := by
    rw [← List.flatten_append, List.take_append_drop]
  rw [split, heightAt_append_left _ (Nat.le_refl _), heightAt, List.take_length, balanced]

/-! ## Following code and its heights -/

theorem current_of_follow? {height after : Height} (followed : follow? code height = some after) :
    after.current = code.foldl heightAfter height.current := by
  induction code generalizing height with
  | nil => cases followed; rfl
  | cons instr code ih =>
      obtain ⟨lower, popped, followed⟩ := Option.bind_eq_some_iff.mp followed
      obtain ⟨-, rfl⟩ := Height.pop?_eq_some_iff.mp popped
      exact ih followed

/-- Where code can be followed no instruction pops too much. -/
theorem enough_of_follow? {height after : Height} (empty : height.current = 0)
    (followed : follow? code height = some after) (here : code[pos]? = some instr) :
    instr.pops ≤ heightAt code pos := by
  obtain ⟨inside, rfl⟩ := List.getElem?_eq_some_iff.mp here
  rw [← List.take_append_drop pos code, List.drop_eq_getElem_cons inside,
    follow?_append] at followed
  obtain ⟨between, first, second⟩ := Option.bind_eq_some_iff.mp followed
  obtain ⟨lower, popped, -⟩ := Option.bind_eq_some_iff.mp second
  rw [heightAt, ← empty, ← current_of_follow? first]
  exact (Height.pop?_eq_some_iff.mp popped).1

/-- The greatest height that is accounted for bounds all heights, and it is one
of them unless it was there before. -/
theorem max_of_follow? {height after : Height} (proper : height.Proper)
    (followed : follow? code height = some after) :
    height.max ≤ after.max ∧ (∀ other ∈ code.scanl heightAfter height.current, other ≤ after.max) ∧
      (after.max = height.max ∨ after.max ∈ code.scanl heightAfter height.current) := by
  induction code generalizing height with
  | nil =>
      cases followed
      refine ⟨Nat.le_refl _, ?_, .inl rfl⟩
      rw [List.scanl_nil, List.forall_mem_singleton]
      exact proper
  | cons instr code ih =>
      obtain ⟨lower, popped, followed⟩ := Option.bind_eq_some_iff.mp followed
      obtain ⟨-, rfl⟩ := Height.pop?_eq_some_iff.mp popped
      obtain ⟨grows, bounds, attained⟩ := ih (Height.proper_push _ _) followed
      have start : heightAfter height.current instr ∈
          code.scanl heightAfter (heightAfter height.current instr) :=
        List.mem_of_head? List.head?_scanl
      have larger : height.max ≤ after.max := Nat.le_trans (Nat.le_max_left _ _) grows
      rw [List.scanl_cons]
      refine ⟨larger, List.forall_mem_cons.mpr ⟨Nat.le_trans proper larger, bounds⟩, ?_⟩
      rcases attained with same | attained
      · rcases Nat.le_total (heightAfter height.current instr) height.max with low | high
        · exact .inl (same.trans (Nat.max_eq_left low))
        · refine .inr (List.mem_cons_of_mem _ ?_)
          rw [same.trans (Nat.max_eq_right high)]
          exact start
      · exact .inr (List.mem_cons_of_mem _ attained)

/-- The greatest height that is accounted for is the greatest height. -/
theorem max?_heights {after : Height} (followed : follow? code {} = some after) :
    (heights code).max? = some after.max := by
  have proper : Height.Proper {} := Nat.le_refl 0
  obtain ⟨-, bounds, attained⟩ := max_of_follow? proper followed
  refine List.max?_eq_some_iff.mpr ⟨?_, bounds⟩
  rcases attained with same | attained
  · rw [same]
    exact List.mem_of_head? List.head?_scanl
  · exact attained

/-! ## Blocks -/

/-- At every place the stack is high enough; it is empty at labels and where
control jumps away. -/
def Disciplined (code : List Instr) : Prop :=
  ∀ pos instr, code[pos]? = some instr → instr.pops ≤ heightAt code pos ∧
    (∀ target, instr.target? = some target → heightAt code (pos + 1) = 0) ∧
    (∀ mark, instr = .label mark → heightAt code pos = 0)

theorem Disciplined.append (first : Disciplined code) (balanced : Balanced code)
    (second : Disciplined rest) : Disciplined (code ++ rest) := by
  intro pos instr here
  by_cases inside : pos < code.length
  · rw [List.getElem?_append_left inside] at here
    rw [heightAt_append_left rest inside, heightAt_append_left rest (Nat.le_of_lt inside)]
    exact first pos instr here
  · obtain ⟨offset, rfl⟩ := Nat.le.dest (Nat.le_of_not_lt inside)
    rw [List.getElem?_append_right (Nat.le_add_right _ _), Nat.add_sub_cancel_left] at here
    rw [Nat.add_assoc, balanced.heightAt_append_right, balanced.heightAt_append_right]
    exact second offset instr here

theorem disciplined_flatten {blocks : List (List Instr)}
    (each : ∀ block ∈ blocks, Balanced block ∧ Disciplined block) :
    Disciplined blocks.flatten := by
  induction blocks with
  | nil => intro pos instr here; cases here
  | cons block blocks ih =>
      obtain ⟨⟨balanced, first⟩, others⟩ := List.forall_mem_cons.mp each
      exact first.append balanced (ih others)

theorem balanced_of_follow? {height after : Height} (empty : height.current = 0)
    (followed : follow? code height = some after) (empty' : after.current = 0) :
    Balanced code := by
  rw [Balanced, ← empty, ← current_of_follow? followed, empty', empty]

/-- Balanced code is disciplined if its jumps and labels stand where they should. -/
theorem disciplined_of_arranged {height after : Height} (arranged : Frame.Arranged code)
    (empty : height.current = 0) (followed : follow? code height = some after)
    (balanced : Balanced code) : Disciplined code := by
  obtain ⟨init, last, rfl, plain, alone⟩ := arranged
  have length : (init ++ [last]).length = init.length + 1 := List.length_append
  have ends : heightAt (init ++ [last]) (init.length + 1) = 0 := by
    rw [← length, heightAt, List.take_length, balanced]
  intro pos instr here
  have isLast : instr.isPlain = false → pos = init.length ∧ instr = last := by
    intro notPlain
    rcases Nat.lt_trichotomy pos init.length with inside | rfl | outside
    · rw [List.getElem?_append_left inside] at here
      have isPlain := List.all_eq_true.mp plain instr (List.mem_of_getElem? here)
      rw [notPlain] at isPlain
      cases isPlain
    · rw [List.getElem?_concat_length] at here
      exact ⟨rfl, (Option.some.inj here).symm⟩
    · rw [List.getElem?_eq_none (by omega)] at here
      cases here
  refine ⟨enough_of_follow? empty followed here, ?_, ?_⟩
  · intro target jumps
    have notPlain : instr.isPlain = false := by
      cases instr <;> first | rfl | cases jumps
    obtain ⟨rfl, rfl⟩ := isLast notPlain
    exact ends
  · rintro mark rfl
    obtain ⟨rfl, rfl⟩ := isLast rfl
    rw [alone mark rfl]
    rfl

/-! ## Control flow -/

/-- A path from the start of code can arrive at a place with a height.  Control
goes on to the next instruction or to any label of the text that a jump names. -/
inductive Reaches (code : List Instr) : Nat → Nat → Prop where
  | start : Reaches code 0 0
  | next {pos height : Nat} {instr : Instr} (reached : Reaches code pos height)
      (here : code[pos]? = some instr) (falls : instr.fallsThrough = true) :
      Reaches code (pos + 1) (heightAfter height instr)
  | jump {pos height place : Nat} {instr : Instr} {target mark : Label}
      (reached : Reaches code pos height) (here : code[pos]? = some instr)
      (jumps : instr.target? = some target) (there : code[place]? = some (.label mark))
      (same : mark.text = target.text) :
      Reaches code place (heightAfter height instr)

/-- On all paths the height at a place is the one that is met in order. -/
theorem Reaches.height_eq {height : Nat} (disciplined : Disciplined code)
    (reached : Reaches code pos height) : height = heightAt code pos := by
  induction reached with
  | start => rfl
  | next _ here _ ih => rw [ih, heightAt_succ here]
  | jump _ here jumps there _ ih =>
      -- Both ends of a jump are met with an empty stack in order.
      have leaves := (disciplined _ _ here).2.1 _ jumps
      have enters := (disciplined _ _ there).2.2 _ rfl
      rw [ih, ← heightAt_succ here, leaves, enters]

/-! ## Methods -/

namespace Frame

/-- A block of code is what an instruction is assembled to, with an empty stack
before and after it. -/
def AssembledTo (frame : Frame) (instr : Tac.Instr) (block : List Instr) : Prop :=
  ∃ before emitted, frame.instr instr before = .ok emitted ∧ emitted.code = block ∧
    before.current = 0 ∧ emitted.height.current = 0

theorem instrs_cons_eq_ok {frame : Frame} {first : Tac.Instr} {rest : List Tac.Instr}
    {height after : Height} {code : List Instr}
    (h : (frame.instrs (first :: rest) height).value = .ok (code, after)) :
    ∃ emitted others, frame.instr first height = .ok emitted ∧
      (frame.instrs rest emitted.height).value = .ok (others, after) ∧
      code = emitted.code ++ others := by
  rw [instrs] at h
  cases made : frame.instr first height with
  | error error => rw [made] at h; cases h
  | ok emitted =>
      rw [made] at h
      simp only [Noted.value_bind, Noted.value_pure] at h
      cases others : (frame.instrs rest emitted.height).value with
      | error error => rw [others] at h; cases h
      | ok result =>
          obtain ⟨code', after'⟩ := result
          rw [others] at h
          cases h
          exact ⟨emitted, code', rfl, others, rfl⟩

/-- Code is assembled block by block. -/
theorem blocks_of_instrs {frame : Frame} {body : List Tac.Instr} {height after : Height}
    {code : List Instr} (assembled : (frame.instrs body height).value = .ok (code, after))
    (returns : ∀ instr ∈ body, ReturnsMatch instr) (proper : height.Proper)
    (empty : height.current = 0) :
    ∃ blocks, code = blocks.flatten ∧ List.Forall₂ (AssembledTo frame) body blocks ∧
      (∀ block ∈ blocks, Balanced block ∧ Disciplined block) ∧
      follow? code height = some after := by
  induction body generalizing height code with
  | nil =>
      cases assembled
      exact ⟨[], rfl, .nil, nofun, rfl⟩
  | cons first rest ih =>
      obtain ⟨⟨_, block, between⟩, others, accepted, remaining, rfl⟩ := instrs_cons_eq_ok assembled
      rw [List.forall_mem_cons] at returns
      have made : InstrCode frame first height block between := emits_instr accepted
      have followed : follow? block height = some between := follow?_instr made returns.1 proper
      have empty' : between.current = 0 := current_of_instr made empty
      have balanced : Balanced block := balanced_of_follow? empty followed empty'
      have disciplined : Disciplined block :=
        disciplined_of_arranged (arranged_of_instr made) empty followed balanced
      obtain ⟨blocks, rfl, assembledTo, each, followed'⟩ :=
        ih remaining returns.2 (proper.follow followed) empty'
      refine ⟨block :: blocks, rfl, .cons ⟨height, _, accepted, rfl, empty, empty'⟩ assembledTo,
        List.forall_mem_cons.mpr ⟨⟨balanced, disciplined⟩, each⟩, ?_⟩
      rw [follow?_append, followed]
      exact followed'

end Frame

/-- What an assembled method is made of. -/
theorem assembleMethod_eq_ok {options : Options} {unit : Tac.Class} {method : Tac.Method}
    {assembled : Method} (ok : (assembleMethod options unit method).value = .ok assembled) :
    ∃ after, ((Frame.of options unit method).instrs method.body {}).value =
      .ok (assembled.code, after) ∧ assembled.stackLimit = after.max := by
  rw [assembleMethod] at ok
  simp only [Noted.value_bind, Noted.value_pure] at ok
  cases body : ((Frame.of options unit method).instrs method.body {}).value with
  | error error => rw [body] at ok; cases ok
  | ok result =>
      obtain ⟨code, after⟩ := result
      rw [body] at ok
      cases ok
      exact ⟨after, rfl, rfl⟩

/-- What holds wherever a path through the blocks of a method arrives. -/
structure SafeAt (method : Method) (blocks : List (List Instr)) (pos height : Nat) : Prop where
  enough : ∀ instr, method.code[pos]? = some instr → instr.pops ≤ height
  bounded : height ≤ method.stackLimit
  /-- The stack is empty between blocks. -/
  boundary : ∀ count, pos = (blocks.take count).flatten.length → height = 0
  atLabel : ∀ mark, method.code[pos]? = some (.label mark) → height = 0
  atJump : ∀ instr target, method.code[pos]? = some instr → instr.target? = some target →
    heightAfter height instr = 0

/-- The code of a method is made of one block for each instruction.  The stack is
empty between blocks and on no path does an instruction find too few values.
The limit that the method declares is the greatest height met in order, and no
path goes higher. -/
theorem safe_of_assembleMethod (options : Options) (unit : Tac.Class) (method : Tac.Method)
    (returns : ∀ instr ∈ method.body, Frame.ReturnsMatch instr) {assembled : Method}
    (ok : (assembleMethod options unit method).value = .ok assembled) :
    ∃ blocks, assembled.code = blocks.flatten ∧
      List.Forall₂ (Frame.of options unit method).AssembledTo method.body blocks ∧
      (∀ count, heightAt assembled.code (blocks.take count).flatten.length = 0) ∧
      (∀ pos height, Reaches assembled.code pos height → SafeAt assembled blocks pos height) ∧
      (heights assembled.code).max? = some assembled.stackLimit := by
  obtain ⟨after, body, limit⟩ := assembleMethod_eq_ok ok
  obtain ⟨blocks, code, assembledTo, each, followed⟩ :=
    Frame.blocks_of_instrs body returns (Nat.le_refl 0) rfl
  have greatest : (heights assembled.code).max? = some assembled.stackLimit := by
    rw [limit]
    exact max?_heights followed
  have boundary : ∀ count, heightAt assembled.code (blocks.take count).flatten.length = 0 := by
    rw [code]
    exact heightAt_boundary fun block mem => (each block mem).1
  have disciplined : Disciplined assembled.code := by
    rw [code]
    exact disciplined_flatten each
  refine ⟨blocks, code, assembledTo, boundary, ?_, greatest⟩
  intro pos height reached
  have same := reached.height_eq disciplined
  subst same
  refine ⟨?_, ?_, ?_, ?_, ?_⟩
  · exact fun instr here => (disciplined pos instr here).1
  · exact (List.max?_eq_some_iff.mp greatest).2 _ (heightAt_mem _ _)
  · rintro count rfl
    exact boundary count
  · exact fun mark here => (disciplined pos _ here).2.2 mark rfl
  · intro instr target here jumps
    rw [← heightAt_succ here]
    exact (disciplined pos instr here).2.1 target jumps

/-- A loop that calls `Poller.step(n, 1)` for its effects while `n < 2`. -/
def poll : Tac.Method where
  name := "poll"
  isStatic := true
  params := [⟨"n", .int⟩]
  ret := .void
  body :=
    [.label (.numbered .loopBody 0),
     .call ⟨.static, .className "Poller", "step", [.var "n" .int, .int 1], .int⟩,
     .branch (.binary .lt (.var "n" .int) (.int 2)) (.numbered .loopBody 0),
     .ret .void none]

theorem safe_of_assembleMethod_poll :
    let code : List Instr :=
      [.label (.numbered .loopBody 0), .load .int 0, .iconst 1,
        .invoke .static "Poller" "step" ⟨[.int, .int], .int⟩, .pop, .load .int 0, .iconst 2,
        .arith .sub, .ifZero .lt (.numbered .loopBody 0), .ret none]
    (∀ pos height, Reaches code pos height → height ≤ 2) ∧ (heights code).max? = some 2 := by
  intro code
  let unit : Tac.Class := ⟨"Poller", none, [], [], [poll]⟩
  have returns : ∀ instr ∈ poll.body, Frame.ReturnsMatch instr := by
    simp [poll, Frame.ReturnsMatch, Tac.Ty.isVoid]
  have ok : (assembleMethod {} unit poll).value =
      .ok ⟨"poll", true, true, ⟨[.int], .void⟩, 2, 2, code⟩ := by
    decide +kernel
  obtain ⟨blocks, -, -, -, safe, greatest⟩ := safe_of_assembleMethod {} unit poll returns ok
  exact ⟨fun pos height reached => (safe pos height reached).bounded, greatest⟩

end MiniJava.Jasmin
