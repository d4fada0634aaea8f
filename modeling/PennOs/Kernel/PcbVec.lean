import PennOs.Kernel.Definitions
import PennOs.Lib.DynArray

set_option autoImplicit false

/- `pcb_vec.c` -/
namespace PennOs.Kernel

open DynArray (Answer Stop sizeT pointerSize inside)

/-- `pcb_t*`; `NULL` is `none`. -/
abbrev PcbRef := Option PcbPtr

/-- `pcb_vec_t` -/
abbrev PcbVec := DynArray PcbRef

/-- A `size_t` stored in an `int`. -/
def intOfSize (n : Nat) : Int := (n : Int).bmod (2 ^ 32)

/-- An `int` compared with a `size_t`. -/
def sizeOfInt (n : Int) : Nat := (n % 2 ^ 64).toNat

namespace PcbVec

/-- `calloc`, which checks the product of its arguments. -/
def calloc (answer : Answer PcbRef) (count : Nat) : Option (List PcbRef) :=
  if count * pointerSize < 2 ^ 64 then answer.map fun _ => List.replicate count none else none

/-- `pcb_vec_new` -/
def new (answer : Answer PcbRef) (initialCapacity : Nat) (hasDtor : Bool) : Except Stop PcbVec :=
  if initialCapacity = 0 then .ok ⟨[], 0, 0, hasDtor, []⟩
  else
    match calloc answer initialCapacity with
    | none => .error .panic
    | some cells => .ok ⟨cells, 0, initialCapacity, hasDtor, []⟩

/-- `pcb_vec_clear`; the bound of its loop is an `int`. -/
def clear (self : PcbVec) : Except Stop PcbVec := self.clearFirst (sizeOfInt (intOfSize self.length))

/-- `pcb_vec_destroy` -/
def destroy (self : PcbVec) : Except Stop PcbVec := do
  let self ← clear self
  return self.release

/-- `pcb_vec_resize` -/
def resize (answer : Answer PcbRef) (newCapacity : Nat) (self : PcbVec) : Except Stop PcbVec :=
  DynArray.resize answer newCapacity self

/-- "Adjust vector capacity if necessary" -/
def adjustCapacity (answer : Answer PcbRef) (self : PcbVec) : Except Stop PcbVec :=
  if self.capacity = 0 then resize answer 1 self
  else if self.length = self.capacity then resize answer (sizeT (2 * self.capacity)) self
  else return self

/-- `pcb_vec_push_back` -/
def pushBack (answer : Answer PcbRef) (newEle : PcbRef) (self : PcbVec) : Except Stop PcbVec := do
  let self ← adjustCapacity answer self
  self.append newEle

/-- `pcb_vec_pop_back` -/
def popBack (self : PcbVec) : Except Stop (PcbRef × PcbVec) := do
  if self.length = 0 then return (none, self)
  let result ← inside self.cells[self.length - 1]?
  let self ← self.put (self.length - 1) none
  return (result, { self with length := self.length - 1 })

/-- `pcb_vec_get` -/
def get (index : Nat) (self : PcbVec) : Except Stop PcbRef :=
  if self.length ≤ index then .error .panic else inside self.cells[index]?

/-- `pcb_vec_set` -/
def set (index : Nat) (newEle : PcbRef) (self : PcbVec) : Except Stop PcbVec := do
  if self.length ≤ index then throw .panic
  let self ← self.destroyAt index
  self.put index newEle

/-- The sum of two `int`s, which wraps around. -/
def addInt (a b : Int) : Int := (a + b).bmod (2 ^ 32)

/-- `pcb_vec_insert`; its `i` is an `int`, and the loop ends where it is negative. The first turn writes to
`pcb_ptr_array[i + 1]`, which is in front of the block where the sum wraps around; the later turns have
smaller `i`. -/
def insert (answer : Answer PcbRef) (index : Nat) (newEle : PcbRef) (self : PcbVec) :
    Except Stop PcbVec := do
  if self.length < index then throw .panic
  let self ← adjustCapacity answer self
  let i := intOfSize (sizeT (self.length + 2 ^ 64 - 1))
  if 0 ≤ i ∧ index ≤ sizeOfInt i ∧ addInt i 1 < 0 then throw .outside
  self.insertAt (i + 1).toNat index newEle

/-- `pcb_vec_erase`; its `len_1` is an `int`. -/
def erase (index : Nat) (isDestroy : Bool) (self : PcbVec) : Except Stop PcbVec := do
  if self.length ≤ index then throw .panic
  let self ← if isDestroy then self.destroyAt index else pure self
  let len₁ := intOfSize (self.length - 1)
  self.eraseAt (sizeOfInt len₁ - index) index

/-- The turns of `for (int i = 0; i < len; i++)`: behind the last `int` no comparison holds. -/
def intTurns (length : Nat) : Nat := min length (2 ^ 31)

/-- `pcb_vec_seek_index_by_pcb` -/
def seekIndexByPcb (target : PcbRef) (self : PcbVec) : Except Stop Int := do
  if self.length = 0 then return -1
  match ← inside (Cells.seek (· == target) (intTurns self.length) 0 self.cells) with
  | some index => return index
  | none => return -2

/-- `pcb_vec_remove_by_pcb` -/
def removeByPcb (target : PcbRef) (self : PcbVec) : Except Stop (Int × PcbVec) := do
  let index ← seekIndexByPcb target self
  if index < 0 then return (-1, self)
  let self ← erase index.toNat false self
  return (0, self)

/-- The loop of the two searches that look into the PCBs. -/
def seekBy (passes : PcbRef → Bool) (self : PcbVec) : Except Stop PcbRef := do
  if self.length = 0 then return none
  match ← inside (Cells.seek passes (intTurns self.length) 0 self.cells) with
  | some index => inside self.cells[index]?
  | none => return none

/-- `pcb_vec_seek_pcb_by_pid`, where `thrdPid` is what the PCBs say. -/
def seekPcbByPid (thrdPid : PcbRef → Int) (targetPid : Int) (self : PcbVec) : Except Stop PcbRef :=
  seekBy (fun ref => thrdPid ref == targetPid) self

/-- `pcb_vec_seek_pcb_by_thrd` -/
def seekPcbByThrd (thrdHandle : PcbRef → Nat) (thrd : Nat) (self : PcbVec) : Except Stop PcbRef :=
  seekBy (fun ref => thrdHandle ref == thrd) self

end PcbVec

/-- The calls that change a vector. -/
inductive PcbVecCall where
  | pushBack (newEle : PcbRef)
  | popBack
  | set (index : Nat) (newEle : PcbRef)
  | insert (index : Nat) (newEle : PcbRef)
  | erase (index : Nat) (isDestroy : Bool)
  | removeByPcb (target : PcbRef)
  | resize (newCapacity : Nat)
  | clear
  | destroy

namespace PcbVecCall

/-- The call on the vector. -/
def run (answer : Answer PcbRef) (self : PcbVec) : PcbVecCall → Except Stop PcbVec
  | .pushBack newEle => PcbVec.pushBack answer newEle self
  | .popBack => (PcbVec.popBack self).map Prod.snd
  | .set index newEle => PcbVec.set index newEle self
  | .insert index newEle => PcbVec.insert answer index newEle self
  | .erase index isDestroy => PcbVec.erase index isDestroy self
  | .removeByPcb target => (PcbVec.removeByPcb target self).map Prod.snd
  | .resize newCapacity => PcbVec.resize answer newCapacity self
  | .clear => PcbVec.clear self
  | .destroy => PcbVec.destroy self

/-- The call on a list. -/
def onList (xs : List PcbRef) : PcbVecCall → List PcbRef
  | .pushBack newEle => xs ++ [newEle]
  | .popBack => xs.dropLast
  | .set index newEle => xs.set index newEle
  | .insert index newEle => xs.insertIdx index newEle
  | .erase index _ => xs.eraseIdx index
  | .removeByPcb target => xs.erase target
  | .resize _ => xs
  | .clear => []
  | .destroy => []

/-- The index is in range. -/
def InRange (xs : List PcbRef) : PcbVecCall → Prop
  | .set index _ => index < xs.length
  | .insert index _ => index ≤ xs.length
  | .erase index _ => index < xs.length
  | _ => True

/-- The array that the call asks for has fewer than 2^64 bytes, and the `int`s of its loop hold the length
that they stand for. -/
def Fits (self : PcbVec) : PcbVecCall → Prop
  | .pushBack _ => self.length = self.capacity → 2 * self.capacity * pointerSize < 2 ^ 64
  | .insert index _ =>
      (self.length = self.capacity → 2 * self.capacity * pointerSize < 2 ^ 64) ∧
        (index = self.length ∨ self.length < 2 ^ 31)
  | .erase _ _ => self.length ≤ 2 ^ 31
  | .removeByPcb _ => self.length ≤ 2 ^ 31
  | .resize newCapacity => self.length < newCapacity → newCapacity * pointerSize < 2 ^ 64
  | .clear => self.hasDtor = true → self.length < 2 ^ 31
  | .destroy => self.hasDtor = true → self.length < 2 ^ 31
  | _ => True

end PcbVecCall

/-- A vector of `pcb_vec_new` after calls with indices in range that meet `sound`, with what the calls
make of a list. -/
inductive PcbVecRun (sound : PcbVec → PcbVecCall → Prop) : PcbVec → List PcbRef → Prop
  | new (answer : Answer PcbRef) (initialCapacity : Nat) (hasDtor : Bool) {v : PcbVec}
      (made : PcbVec.new answer initialCapacity hasDtor = .ok v) : PcbVecRun sound v []
  | call (answer : Answer PcbRef) (call : PcbVecCall) {v v' : PcbVec} {xs : List PcbRef}
      (before : PcbVecRun sound v xs) (inRange : call.InRange xs) (meets : sound v call)
      (ran : call.run answer v = .ok v') : PcbVecRun sound v' (call.onList xs)

end PennOs.Kernel
