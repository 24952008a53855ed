import MiniJava.Tac.Instr

/-!
# Values, heaps and effects

What source programs, three-address code and machine code work on is the same:
32-bit integers, with the truth values among them as 0 and 1, and references to
objects and arrays.  The local variables of a method are not part of the world;
everything that outlives the method, or that a called method can see, is.

*World.*  A heap and the trace of what was done to it.  The trace lists calls,
allocations and accesses in order, so two runs that end in the same world did
the same things in the same order.

*Exec.*  An effect is a function of the world that yields a value or a fault,
and in either case the world it leaves behind.  A fault therefore says not only
what went wrong but also when.

*Calls.*  The methods that are called are not run.  An `Oracle` answers every
request: it may change the heap in any way and may fail, but it cannot reach
the variables of the caller.  How methods and fields are identified differs
between the levels, so both are parameters.
-/

namespace MiniJava.Semantics

open Tac (Ty)

/-! ## Values -/

/-- Integers, truth values among them, and references. -/
inductive Value where
  | int (value : Int32)
  | null
  | ref (address : Nat)
deriving DecidableEq, Repr

namespace Value

/-- Truth values are written 1 and 0. -/
def ofBool (value : Bool) : Value := .int (if value then 1 else 0)

/-- What the cells of a new array of the element type hold. -/
def initial (elemTy : Ty) : Value := if elemTy.isReference then .null else .int 0

end Value

/-- Reasons why a run cannot go on. -/
inductive Fault where
  | divisionByZero
  | nullReference
  | indexOutOfRange
  | negativeSize
  /-- An operation on values that it is not made for. -/
  | illTyped
  /-- A called method did not return. -/
  | thrown (exception : Value)
deriving DecidableEq, Repr

/-! ## The world -/

variable {Callee Field : Type}

/-- Objects and arrays by address.  The fields of an address not yet handed out
are what a new object there starts with. -/
structure Heap (Field : Type) where
  fields : Nat → Field → Value
  arrays : Nat → Option (List Value)
  /-- The next address to hand out. -/
  next : Nat

/-- A call, with the values it is made on. -/
structure Request (Callee : Type) where
  callee : Callee
  receiver : Option Value
  args : List Value
deriving DecidableEq, Repr

/-- What a run can do to the world. -/
inductive Event (Callee Field : Type) where
  | call (request : Request Callee)
  | newObject (className : String) (address : Nat)
  | newArray (size : Int32) (address : Nat)
  | getField (object : Nat) (field : Field)
  | putField (object : Nat) (field : Field) (value : Value)
  | loadCell (array : Nat) (index : Int32)
  | storeCell (array : Nat) (index : Int32) (value : Value)
deriving DecidableEq, Repr

/-- A heap and what was done to it so far. -/
structure World (Callee Field : Type) where
  heap : Heap Field
  trace : List (Event Callee Field)

instance : Inhabited (World Callee Field) := ⟨⟨⟨fun _ _ => .null, fun _ => none, 0⟩, []⟩⟩

/-- The answers to calls: a result or a fault, and the heap afterwards. -/
def Oracle (Callee Field : Type) : Type :=
  Request Callee → Heap Field → Except Fault Value × Heap Field

/-! ## Effects -/

/-- A function of the world that may fail. -/
def Exec (Callee Field α : Type) : Type :=
  World Callee Field → Except Fault α × World Callee Field

namespace Exec

variable {α β : Type}

instance : Monad (Exec Callee Field) where
  pure value := fun world => (.ok value, world)
  bind first next := fun world =>
    match first world with
    | (.ok value, after) => next value after
    | (.error fault, after) => (.error fault, after)

@[simp]
theorem pure_apply (value : α) (world : World Callee Field) :
    (pure value : Exec Callee Field α) world = (.ok value, world) := rfl

theorem pure_inj {value value' : α}
    (h : (pure value : Exec Callee Field α) = pure value') : value = value' := by
  simpa using congrArg Prod.fst (congrFun h default)

theorem bind_of_ok {first : Exec Callee Field α} {world after : World Callee Field}
    {value : α} (h : first world = (.ok value, after)) (next : α → Exec Callee Field β) :
    (first >>= next) world = next value after := by
  simp only [Bind.bind, h]

theorem bind_of_error {first : Exec Callee Field α} {world after : World Callee Field}
    {fault : Fault} (h : first world = (.error fault, after))
    (next : α → Exec Callee Field β) :
    (first >>= next) world = (.error fault, after) := by
  simp only [Bind.bind, h]

theorem bind_eq_ok {first : Exec Callee Field α} {next : α → Exec Callee Field β} {value : β}
    {world after : World Callee Field} (h : (first >>= next) world = (.ok value, after)) :
    ∃ middle between, first world = (.ok middle, between) ∧
      next middle between = (.ok value, after) := by
  simp only [Bind.bind] at h
  cases result : first world with
  | mk outcome between =>
      rw [result] at h
      cases outcome with
      | error fault => cases h
      | ok middle => exact ⟨middle, between, rfl, h⟩

/-- A continuation sees only the result of what comes before it. -/
theorem bind_congr {first first' : Exec Callee Field α} {world world' : World Callee Field}
    (h : first world = first' world') (next : α → Exec Callee Field β) :
    (first >>= next) world = (first' >>= next) world' := by
  simp only [Bind.bind, h]

instance : LawfulMonad (Exec Callee Field) := LawfulMonad.mk' (Exec Callee Field)
  (by
    intro α first
    funext world
    show (match first world with
      | (.ok value, after) => (.ok value, after)
      | (.error fault, after) => (.error fault, after)) = first world
    rcases first world with ⟨_ | _, _⟩ <;> rfl)
  (by intro α β value next; rfl)
  (by
    intro α β γ first next last
    funext world
    simp only [Bind.bind]
    rcases first world with ⟨_ | _, _⟩ <;> rfl)

/-- Stop with a fault. -/
def fail (fault : Fault) : Exec Callee Field α := fun world => (.error fault, world)

/-- Run effects from left to right and collect their values. -/
def inOrder : List (Exec Callee Field α) → Exec Callee Field (List α)
  | [] => pure []
  | first :: rest => do
      let value ← first
      let values ← inOrder rest
      return value :: values

/-! ### Integers -/

/-- Wrap-around arithmetic; division goes toward zero. -/
def arith (op : Arith) : Value → Value → Exec Callee Field Value
  | .int left, .int right =>
      match op with
      | .add => pure (.int (left + right))
      | .sub => pure (.int (left - right))
      | .mul => pure (.int (left * right))
      | .div => if right = 0 then fail .divisionByZero else pure (.int (left / right))
  | _, _ => fail .illTyped

/-- The truth of `left < right` on integers with sign. -/
def less : Value → Value → Exec Callee Field Bool
  | .int left, .int right => pure (decide (left < right))
  | _, _ => fail .illTyped

/-- Whether a value counts as true: every integer but zero does. -/
def truth : Value → Exec Callee Field Bool
  | .int value => pure (decide (value ≠ 0))
  | _ => fail .illTyped

/-- The other truth value. -/
def negate : Value → Exec Callee Field Value
  | .int value => pure (.int (value ^^^ 1))
  | _ => fail .illTyped

/-! ### Objects and arrays -/

/-- Enter an event into the trace. -/
def record (event : Event Callee Field) : Exec Callee Field Unit := fun world =>
  (.ok (), { world with trace := world.trace ++ [event] })

/-- Look at the heap. -/
def heap : Exec Callee Field (Heap Field) := fun world => (.ok world.heap, world)

/-- Put a heap in place of the present one. -/
def setHeap (heap : Heap Field) : Exec Callee Field Unit := fun world =>
  (.ok (), { world with heap := heap })

/-- The address that a reference holds. -/
def address : Value → Exec Callee Field Nat
  | .ref address => pure address
  | .null => fail .nullReference
  | .int _ => fail .illTyped

/-- The address and the cells of an array. -/
def cells (array : Value) : Exec Callee Field (Nat × List Value) := do
  let address ← address array
  match (← heap).arrays address with
  | some cells => pure (address, cells)
  | none => fail .illTyped

/-- The position that an index denotes in a list of cells. -/
def position (cells : List Value) : Value → Exec Callee Field (Int32 × Nat)
  | .int index =>
      if 0 ≤ index.toInt ∧ index.toInt < cells.length then
        pure (index, index.toInt.toNat)
      else fail .indexOutOfRange
  | _ => fail .illTyped

/-- Allocate an object; its constructor is not run. -/
def newObject (className : String) : Exec Callee Field Value := do
  let heap ← heap
  setHeap
    { heap with
      arrays := fun address =>
        if address = heap.next then none else heap.arrays address
      next := heap.next + 1 }
  record (.newObject className heap.next)
  return .ref heap.next

/-- Allocate an array of cells that all hold the same value. -/
def newArray (initial : Value) : Value → Exec Callee Field Value
  | .int size =>
      if size.toInt < 0 then fail .negativeSize
      else do
        let heap ← heap
        let cells := List.replicate size.toInt.toNat initial
        setHeap
          { heap with
            arrays := fun address =>
              if address = heap.next then some cells else heap.arrays address
            next := heap.next + 1 }
        record (.newArray size heap.next)
        return .ref heap.next
  | _ => fail .illTyped

/-- The number of cells of an array. -/
def length (array : Value) : Exec Callee Field Value := do
  let (_, cells) ← cells array
  return .int (.ofNat cells.length)

/-- Read a cell. -/
def loadCell (array index : Value) : Exec Callee Field Value := do
  let (address, cells) ← cells array
  let (index, place) ← position cells index
  record (.loadCell address index)
  return cells.getD place .null

/-- Write a cell. -/
def storeCell (array index value : Value) : Exec Callee Field Unit := do
  let (target, cells) ← cells array
  let (index, place) ← position cells index
  let heap ← heap
  setHeap
    { heap with
      arrays := fun address =>
        if address = target then some (cells.set place value)
        else heap.arrays address }
  record (.storeCell target index value)

/-- Read a field. -/
def getField (object : Value) (field : Field) : Exec Callee Field Value := do
  let address ← address object
  record (.getField address field)
  return (← heap).fields address field

/-- Write a field. -/
def putField [DecidableEq Field] (object : Value) (field : Field) (value : Value) :
    Exec Callee Field Unit := do
  let target ← address object
  let heap ← heap
  setHeap
    { heap with
      fields := fun address other =>
        if address = target ∧ other = field then value
        else heap.fields address other }
  record (.putField target field value)

/-! ### Calls -/

/-- Make a call.  Its receiver, if it has one, must be an object. -/
def invoke (oracle : Oracle Callee Field) (request : Request Callee) :
    Exec Callee Field Value := do
  if let some receiver := request.receiver then
    let _ ← address receiver
  record (.call request)
  fun world =>
    let (answer, heap) := oracle request world.heap
    (answer, { world with heap := heap })

end Exec

end MiniJava.Semantics
