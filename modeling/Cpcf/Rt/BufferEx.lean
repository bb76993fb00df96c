import Cpcf.Lib.Cells
import Cpcf.Lib.Run

/-!
`BufferEx` of `rt/buffer_type.h`, a growable array of plain data, with what it inherits from `Buffer`.

The array is a pointer to allocated cells, a length and the size for which there is room,
`_len_reserved`. The model keeps beside these how many elements the block behind the pointer really
has room for. An allocation may fail, and an allocation of `n` elements asks for `sizeof(t_Val) * n`
bytes, a product of `SIZE_T`: the block has room for what is left of it below `2^64`. Every operation is
given the answers of the allocator, with what the fresh memory holds.

The build is one without assertions: `VERIFY` goes on when its argument is false. An `ASSERT` on an
argument is a precondition; a call that breaks it is no step. Arguments are values, not references to
elements of the array itself.
-/

namespace Cpcf.Rt.BufferEx

open Cpcf.Lib.Cells Cpcf.Lib.Run

variable {α : Type}

/-! ### The array -/

/-- The array. -/
structure State (α : Type) where
  /-- The cells behind the pointer. -/
  cells : ℕ → α
  /-- How many elements there is memory for behind the pointer; zero for `nullptr`. -/
  alloc : ℕ
  len : ℕ
  reserved : ℕ

/-- The elements one can see. -/
def State.contents (s : State α) : List α := slice s.cells 0 s.len

/-- What the allocator answers to the first and the second request of an operation: `none`, or memory
with something in it. -/
structure Answers (α : Type) where
  first : Option (ℕ → α)
  second : Option (ℕ → α)

/-- A block of memory: how many elements there is room for, and what it holds. -/
structure Block (α : Type) where
  room : ℕ
  cells : ℕ → α

/-- The room in a block of `sizeof(t_Val) * n` bytes, for elements of `w` bytes. -/
def room (w n : ℕ) : ℕ := w * n % 2 ^ 64 / w

/-- `_Malloc32AL(t_Val, n)`. -/
def malloc (w n : ℕ) (answer : Option (ℕ → α)) : Option (Block α) := answer.map fun cells => ⟨room w n, cells⟩

/-- The elements are copied to a new block of `n` elements, and the old one is freed. -/
def State.moveTo (s : State α) (n : ℕ) (b : Block α) : State α :=
  { s with cells := fun i => if i < s.len then s.cells i else b.cells i, alloc := b.room, reserved := n }

/-! ### Growing and shrinking -/

section Size

variable (w : ℕ) (s : State α)

/-- `_add_entry(co)`. -/
def addEntry (co : ℕ) (answers : Answers α) : State α × Bool :=
  let sum := (s.len + co) % 2 ^ 64
  if sum ≤ s.reserved then ({ s with len := sum }, true)
  else
    let new_buf_resv := max (max 4 sum) (s.reserved * 2 % 2 ^ 64)
    match malloc w new_buf_resv answers.first with
    | some b => ({ s.moveTo new_buf_resv b with len := sum }, true)
    | none =>
      match malloc w sum answers.second with
      | some b => ({ s.moveTo sum b with len := sum }, true)
      | none => (s, false)

/-- `Buffer::SetSize(co)`. -/
def bufferSetSize (co : ℕ) (answer : Option (ℕ → α)) : State α × Bool :=
  if co = s.len then (if co = 0 then { s with alloc := 0 } else s, true)
  else if co = 0 then ({ s with alloc := 0, len := 0 }, true)
  else
    match malloc w co answer with
    | some b => ({ s with cells := b.cells, alloc := b.room, len := co }, true)
    | none => ({ s with alloc := 0, len := 0 }, false)

/-- `SetSize(co)`. -/
def setSize (co : ℕ) (answer : Option (ℕ → α)) : State α × Bool :=
  match bufferSetSize w s co answer with
  | (s, true) => ({ s with reserved := s.len }, true)
  | (s, false) => ({ s with reserved := 0 }, false)

/-- `Buffer::ShrinkSize(new_size)`. -/
def shrinkSize (new_size : ℕ) : State α := if new_size < s.len then { s with len := new_size } else s

/-- `ChangeSize(new_size, keep_old_data)`: `_len_reserved` is set before the memory is there. -/
def changeSize (new_size : ℕ) (keep_old_data : Bool) (answers : Answers α) : State α × Bool :=
  if new_size = s.len then (s, true)
  else if new_size < s.len then (shrinkSize s new_size, true)
  else if new_size ≤ s.reserved then ({ s with len := new_size }, true)
  else
    let moved := fun (n : ℕ) (b : Block α) =>
      if keep_old_data then { s.moveTo n b with len := new_size } else ⟨b.cells, b.room, new_size, n⟩
    let len_reserved := max new_size (s.reserved * 2 % 2 ^ 64)
    match malloc w len_reserved answers.first with
    | some b => (moved len_reserved b, true)
    | none =>
      match malloc w new_size answers.second with
      | some b => (moved new_size b, true)
      | none => ({ s with reserved := new_size }, false)

/-- `reserve(co)`. -/
def reserve (co : ℕ) (answer : Option (ℕ → α)) : State α × Bool :=
  if co > s.reserved then
    match malloc w co answer with
    | some b => (s.moveTo co b, true)
    | none => (s, false)
  else (s, true)

/-- `compact_memory()`. -/
def compactMemory (answer : Option (ℕ → α)) : State α :=
  if s.len < s.reserved then
    match malloc w s.len answer with
    | some b => s.moveTo s.len b
    | none => s
  else s

/-- `Buffer::Detach()`: the base class knows nothing of `_len_reserved`. -/
def detach : State α := { s with alloc := 0, len := 0 }

end Size

/-! ### Elements put in and taken out -/

section Elements

variable (w : ℕ) (s : State α)

/-- `_len - 1`. -/
def State.last (s : State α) : ℕ := if s.len = 0 then 2 ^ 64 - 1 else s.len - 1

/-- `push_front()`. -/
def pushFrontNew (answers : Answers α) : State α :=
  let s := (addEntry w s 1 answers).1
  { s with cells := move s.cells 1 0 s.last }

/-- `push_front(x)`. -/
def pushFront (x : α) (answers : Answers α) : State α :=
  let s := pushFrontNew w s answers
  { s with cells := put s.cells 0 [x] }

/-- `push_front(x, count)`, for an array and for a repeated element. -/
def pushFrontAll (xs : List α) (answers : Answers α) : State α :=
  if xs.length = 0 then s
  else
    let sz := s.len
    let s := (addEntry w s xs.length answers).1
    { s with cells := put (move s.cells xs.length 0 sz) 0 xs }

/-- `push_both(x, front_count, back_count)`. -/
def pushBoth (x : α) (front_count back_count : ℕ) (answers : Answers α) : State α :=
  if (front_count + back_count) % 2 ^ 64 = 0 then s
  else
    let sz := s.len
    let s := (changeSize w s ((sz + front_count + back_count) % 2 ^ 64) true answers).1
    let cells := put (move s.cells front_count 0 sz) 0 (List.replicate front_count x)
    let i := (sz + front_count) % 2 ^ 64
    { s with cells := put cells i (List.replicate (s.len - i) x) }

/-- `push_back()`. -/
def pushBackNew (answers : Answers α) : State α := (addEntry w s 1 answers).1

/-- `push_back(x)`. -/
def pushBack (x : α) (answers : Answers α) : State α :=
  let s := pushBackNew w s answers
  { s with cells := put s.cells s.last [x] }

/-- `push_back(x, count)`, for an array and for a repeated element. -/
def pushBackAll (xs : List α) (answers : Answers α) : State α :=
  let sz := s.len
  let s := (addEntry w s xs.length answers).1
  { s with cells := put s.cells sz (xs.take (s.len - sz)) }

/-- `push_back_n(count)`. -/
def pushBackN (count : ℕ) (answers : Answers α) : State α × Bool :=
  changeSize w s ((s.len + count) % 2 ^ 64) true answers

/-- `erase(index)`. -/
def erase (index : ℕ) : Option (State α) :=
  if index < s.len then
    some { s with cells := move s.cells index (index + 1) (s.len - 1 - index), len := s.len - 1 }
  else none

/-- `erase(index_begin, index_end)`: the last one is erased, too. -/
def eraseRange (index_begin index_end : ℕ) : Option (State α) :=
  if index_begin ≤ index_end ∧ index_end < s.len then
    some { s with
           cells := move s.cells index_begin (index_end + 1) (s.len - (index_end + 1))
           len := s.len - (index_end + 1 - index_begin) }
  else none

/-- `pop_back()`. -/
def popBack : Option (State α) := if 0 < s.len then some { s with len := s.len - 1 } else none

/-- `pop_front()`. -/
def popFront : Option (State α) :=
  if 0 < s.len then some { s with cells := move s.cells 0 1 (s.len - 1), len := s.len - 1 } else none

/-- `insert(index)`. -/
def insertNew (index : ℕ) (answers : Answers α) : State α :=
  let s := (addEntry w s 1 answers).1
  if index < s.last then { s with cells := move s.cells (index + 1) index (s.last - index) } else s

/-- `insert(index, count)` and `insert(index, count, x)`; `fill` is what is written for the new elements. For
an index behind the end the number of elements to move wraps: no step. -/
def insertCount (index count : ℕ) (fill : ℕ → List α) (answer : Option (ℕ → α)) : Option (State α × Bool) :=
  if index ≤ s.len then
    match reserve w s ((s.len + count) % 2 ^ 64) answer with
    | (s, true) =>
      let stop := (index + count) % 2 ^ 64
      some ({ s with
              cells := put (move s.cells stop index (s.len - index)) index (fill (stop - index))
              len := (s.len + count) % 2 ^ 64 }, true)
    | (s, false) => some (s, false)
  else none

/-- The loop of `SortedPush` from the index `j` down. It ends at the first element at the latest, which is not
greater than `x`. -/
def siftDown (lt : α → α → Bool) (x : α) : ℕ → (ℕ → α) → ℕ × (ℕ → α)
  | 0, f => if lt x (f 0) then (0, Function.update f 1 (f 0)) else (1, f)
  | j + 1, f => if lt x (f (j + 1)) then siftDown lt x j (Function.update f (j + 2) (f (j + 1))) else (j + 2, f)

/-- `SortedPush(x)`. -/
def sortedPush (lt : α → α → Bool) (x : α) (answers : Answers α) : State α × Bool :=
  if s.len = 0 ∨ lt x (s.cells 0) then (pushFront w s x answers, true)
  else
    match if s.reserved = s.len then reserve w s ((s.len * 2 + 1) % 2 ^ 64) answers.first else (s, true) with
    | (s, true) =>
      let (p, cells) := siftDown lt x (s.len - 1) s.cells
      ({ s with cells := Function.update cells p x, len := (s.len + 1) % 2 ^ 64 }, true)
    | (s, false) => (s, false)

/-- `Include(x)`. -/
def includeElement [DecidableEq α] (x : α) (answers : Answers α) : State α :=
  if x ∈ s.contents then s else pushBack w s x answers

/-- The loop of `Remove` from the index `i` on, with `n` elements to go. -/
def removeLoop [DecidableEq α] (v : α) : ℕ → ℕ → ℕ → (ℕ → α) → ℕ × (ℕ → α)
  | 0, _, opened, f => (opened, f)
  | n + 1, i, opened, f =>
    if f i = v then removeLoop v n (i + 1) opened f
    else removeLoop v n (i + 1) (opened + 1) (if i ≠ opened then Function.update f opened (f i) else f)

/-- `Buffer::Remove(v)`. The index is a `UINT`: a length of `2^32` or more is never reached. -/
def remove [DecidableEq α] (v : α) : Option (State α) :=
  if s.len < 2 ^ 32 then
    let (len, cells) := removeLoop v s.len 0 0 s.cells
    some { s with cells := cells, len := len }
  else none

/-- `operator = (x)` for another array with the elements `xs`; there is an `ASSERT` on the memory. -/
def assign (xs : List α) (answer : Option (ℕ → α)) : Option (State α) :=
  if xs.length ≤ s.reserved then some { s with cells := put s.cells 0 xs, len := xs.length }
  else
    (malloc w xs.length answer).map fun b => ⟨put b.cells 0 xs, b.room, xs.length, xs.length⟩

end Elements

/-! ### Steps -/

/-- The public operations. Sizes and indices are `SIZE_T`. -/
inductive Op (α : Type)
  | setSize (co : UInt64)
  | clear
  | changeSize (new_size : UInt64) (keep_old_data : Bool)
  | reserve (co : UInt64)
  | compactMemory
  | pushFrontNew
  | pushFront (x : α)
  | pushFrontArray (xs : List α)
  | pushFrontCount (x : α) (count : UInt64)
  | pushBoth (x : α) (front_count back_count : UInt64)
  | pushBackNew
  | pushBack (x : α)
  | pushBackArray (xs : List α)
  | pushBackCount (x : α) (count : UInt64)
  | pushBackN (count : UInt64)
  | erase (index : UInt64)
  | eraseRange (index_begin index_end : UInt64)
  | popBack
  | popFront
  | insertNew (index : UInt64)
  | insertNewCount (index count : UInt64)
  | insertCount (index count : UInt64) (x : α)
  | sortedPush (x : α)
  | includeElement (x : α)
  | assign (xs : List α)
  /-- `x = x`: the length is lost before it is read. -/
  | assignSelf
  | detach
  | shrinkSize (new_size : UInt64)
  | remove (v : α)
  /-- Elements are written through references, or by what is inherited from `Buffer_Ref`. -/
  | modify (f : ℕ → α)

section Step

variable [DecidableEq α] (w : ℕ) (lt : α → α → Bool)

/-- An operation with the answers of the allocator: the new state, and `false` if a failure is reported. -/
def apply (s : State α) (answers : Answers α) : Op α → Option (State α × Bool)
  | .setSize co => some (setSize w s co.toNat answers.first)
  | .clear => some (setSize w s 0 answers.first)
  | .changeSize new_size keep => some (changeSize w s new_size.toNat keep answers)
  | .reserve co => some (reserve w s co.toNat answers.first)
  | .compactMemory => some (compactMemory w s answers.first, true)
  | .pushFrontNew => some (pushFrontNew w s answers, true)
  | .pushFront x => some (pushFront w s x answers, true)
  | .pushFrontArray xs => some (pushFrontAll w s xs answers, true)
  | .pushFrontCount x count => some (pushFrontAll w s (List.replicate count.toNat x) answers, true)
  | .pushBoth x front back => some (pushBoth w s x front.toNat back.toNat answers, true)
  | .pushBackNew => some (pushBackNew w s answers, true)
  | .pushBack x => some (pushBack w s x answers, true)
  | .pushBackArray xs => some (pushBackAll w s xs answers, true)
  | .pushBackCount x count => some (pushBackAll w s (List.replicate count.toNat x) answers, true)
  | .pushBackN count => some (pushBackN w s count.toNat answers)
  | .erase index => (erase s index.toNat).map (·, true)
  | .eraseRange first last => (eraseRange s first.toNat last.toNat).map (·, true)
  | .popBack => (popBack s).map (·, true)
  | .popFront => (popFront s).map (·, true)
  | .insertNew index => some (insertNew w s index.toNat answers, true)
  | .insertNewCount index count => insertCount w s index.toNat count.toNat (fun _ => []) answers.first
  | .insertCount index count x =>
    insertCount w s index.toNat count.toNat (fun n => List.replicate n x) answers.first
  | .sortedPush x => some (sortedPush w s lt x answers)
  | .includeElement x => some (includeElement w s x answers, true)
  | .assign xs => (assign w s xs answers.first).map (·, true)
  | .assignSelf => some ({ s with len := 0 }, true)
  | .detach => some (detach s, true)
  | .shrinkSize new_size => some (shrinkSize s new_size.toNat, true)
  | .remove v => (remove s v).map (·, true)
  | .modify f => some ({ s with cells := f }, true)

/-- A step of a run. -/
def step (s : State α) (a : Op α × Answers α) : Option (State α) := (apply w lt s a.2 a.1).map Prod.fst

end Step

/-- An array that was just made. -/
def start (cells : ℕ → α) : State α := ⟨cells, 0, 0, 0⟩

end Cpcf.Rt.BufferEx
