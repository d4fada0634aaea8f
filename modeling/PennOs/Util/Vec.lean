import PennOs.Lib.DynArray

set_option autoImplicit false

/- `Vec.c` -/
namespace PennOs.Util

open DynArray (Answer Stop sizeT pointerSize inside)

variable {α : Type}

/-- `Vec`, whose elements are `void*`; `NULL` is `none`. -/
abbrev Vec (α : Type) := DynArray (Option α)

namespace Vec

/-- `SIZE_T_MAX` -/
def sizeTMax : Nat := 2 ^ 64 - 1

/-- `malloc`, without a check of what its argument was computed from. -/
def malloc (answer : Answer (Option α)) (bytes : Nat) : Option (List (Option α)) :=
  answer.map fun fresh => (List.range (bytes / pointerSize)).map fresh

/-- `vec_new` -/
def new (answer : Answer (Option α)) (initialCapacity : Nat) (eleDtorFn : Bool) : Except Stop (Vec α) :=
  if 0 < initialCapacity then
    match malloc answer (sizeT (initialCapacity * pointerSize)) with
    | none => .error .panic
    | some data => .ok ⟨data, 0, initialCapacity, eleDtorFn, []⟩
  else .ok ⟨[], 0, initialCapacity, eleDtorFn, []⟩

/-- `vec_get` -/
def get (index : Nat) (self : Vec α) : Except Stop (Option α) :=
  if self.length ≤ index then .error .panic else inside self.cells[index]?

/-- `vec_resize` -/
def resize (answer : Answer (Option α)) (newCapacity : Nat) (self : Vec α) : Except Stop (Vec α) :=
  DynArray.resize answer newCapacity self

/-- `while (new_capacity < min_new_capacity && new_capacity <= SIZE_T_MAX / 2) new_capacity *= 2;`
From 1 on, 64 turns pass every `size_t`. -/
def doubleUntil (minNewCapacity : Nat) : Nat → Nat → Nat
  | 0, newCapacity => newCapacity
  | turns + 1, newCapacity =>
      if newCapacity < minNewCapacity ∧ newCapacity ≤ sizeTMax / 2 then
        doubleUntil minNewCapacity turns (newCapacity * 2)
      else newCapacity

/-- The capacity that `vec_ensure_or_double_capacity` asks for. -/
def grownCapacity (minCapacity : Nat) (self : Vec α) : Nat :=
  let oldCapacity := self.capacity
  let minNewCapacity := if minCapacity = 0 then sizeT (self.length + 1) else minCapacity
  let newCapacity := doubleUntil minNewCapacity 64 (if oldCapacity = 0 then 1 else oldCapacity)
  if newCapacity < minNewCapacity then minNewCapacity else newCapacity

/-- `vec_ensure_or_double_capacity` -/
def ensureOrDoubleCapacity (answer : Answer (Option α)) (minCapacity : Nat) (self : Vec α) :
    Except Stop (Vec α) :=
  resize answer (grownCapacity minCapacity self) self

/-- `n - 1` in `size_t`. -/
def pred (n : Nat) : Nat := sizeT (n + sizeTMax)

/-- `vec_initialize_unused_capacity`; where the last index is `SIZE_T_MAX` the loop has no end. -/
def initializeUnusedCapacity (upToIndex : Nat) (self : Vec α) : Except Stop (Vec α) := do
  let lastCleanupIdx :=
    if upToIndex < pred self.capacity then upToIndex else pred self.capacity
  let data ← inside (Cells.fill none (lastCleanupIdx + 1 - self.length) self.length self.cells)
  return { self with cells := data }

/-- `vec_set_helper` -/
def setHelper (answer : Answer (Option α)) (index : Nat) (newEle : Option α) (forceSet : Bool)
    (self : Vec α) : Except Stop (Vec α) := do
  if self.length ≤ index then
    if forceSet then
      let self ← ensureOrDoubleCapacity answer (sizeT (index + 1)) self
      let self ← initializeUnusedCapacity (pred index) self
      { self with length := sizeT (index + 1) }.put index newEle
    else throw .panic
  else
    let self ← self.destroyAt index
    self.put index newEle

/-- `vec_set` -/
def set (answer : Answer (Option α)) (index : Nat) (newEle : Option α) (self : Vec α) :
    Except Stop (Vec α) :=
  setHelper answer index newEle false self

/-- `vec_set_force` -/
def setForce (answer : Answer (Option α)) (index : Nat) (newEle : Option α) (self : Vec α) :
    Except Stop (Vec α) :=
  setHelper answer index newEle true self

/-- `vec_push_back` -/
def pushBack (answer : Answer (Option α)) (newEle : Option α) (self : Vec α) : Except Stop (Vec α) := do
  let self ← ensureOrDoubleCapacity answer 0 self
  self.append newEle

/-- `vec_pop_back` -/
def popBack (self : Vec α) : Bool × Vec α :=
  if self.length = 0 then (false, self) else (true, { self with length := self.length - 1 })

/-- `vec_insert` -/
def insert (answer : Answer (Option α)) (index : Nat) (newEle : Option α) (self : Vec α) :
    Except Stop (Vec α) := do
  let length := self.length
  if length < index then throw .panic
  if index = length then pushBack answer newEle self
  else
    let self ← ensureOrDoubleCapacity answer 0 self
    self.insertAt length index newEle

/-- `vec_erase` -/
def erase (index : Nat) (self : Vec α) : Except Stop (Vec α) := do
  let length := self.length
  if length ≤ index then throw .panic
  let self ← self.destroyAt index
  self.eraseAt (length - 1 - index) index

/-- `vec_resize_and_clean` -/
def resizeAndClean (answer : Answer (Option α)) (newCapacity : Nat) (self : Vec α) :
    Except Stop (Vec α) := do
  let self ← resize answer newCapacity self
  initializeUnusedCapacity (pred newCapacity) self

/-- `vec_clear` -/
def clear (self : Vec α) : Except Stop (Vec α) := self.clearFirst self.length

/-- `vec_destroy` -/
def destroy (self : Vec α) : Except Stop (Vec α) := do
  let self ← clear self
  return self.release

end Vec

/-- The calls that change a vector. -/
inductive VecCall (α : Type) where
  | pushBack (newEle : Option α)
  | popBack
  | insert (index : Nat) (newEle : Option α)
  | erase (index : Nat)
  | set (index : Nat) (newEle : Option α)
  | setForce (index : Nat) (newEle : Option α)
  | resize (newCapacity : Nat)
  | resizeAndClean (newCapacity : Nat)
  | clear
  | destroy

namespace VecCall

/-- The call on the vector. -/
def run (answer : Answer (Option α)) (self : Vec α) : VecCall α → Except Stop (Vec α)
  | .pushBack newEle => self.pushBack answer newEle
  | .popBack => .ok self.popBack.2
  | .insert index newEle => self.insert answer index newEle
  | .erase index => self.erase index
  | .set index newEle => self.set answer index newEle
  | .setForce index newEle => self.setForce answer index newEle
  | .resize newCapacity => self.resize answer newCapacity
  | .resizeAndClean newCapacity => self.resizeAndClean answer newCapacity
  | .clear => self.clear
  | .destroy => self.destroy

/-- The call on a list. -/
def onList (xs : List (Option α)) : VecCall α → List (Option α)
  | .pushBack newEle => xs ++ [newEle]
  | .popBack => xs.dropLast
  | .insert index newEle => xs.insertIdx index newEle
  | .erase index => xs.eraseIdx index
  | .set index newEle => xs.set index newEle
  | .setForce index newEle =>
      if index < xs.length then xs.set index newEle
      else xs ++ List.replicate (index - xs.length) none ++ [newEle]
  | .resize _ => xs
  | .resizeAndClean _ => xs
  | .clear => []
  | .destroy => []

/-- The elements that the call stores. -/
def stores (xs : List (Option α)) : VecCall α → List (Option α)
  | .pushBack newEle => [newEle]
  | .insert _ newEle => [newEle]
  | .set _ newEle => [newEle]
  | .setForce index newEle => List.replicate (index - xs.length) none ++ [newEle]
  | _ => []

/-- The elements that the call removes or overwrites. -/
def removes (xs : List (Option α)) : VecCall α → List (Option α)
  | .popBack => xs.getLast?.toList
  | .erase index => xs[index]?.toList
  | .set index _ => xs[index]?.toList
  | .setForce index _ => xs[index]?.toList
  | .clear => xs
  | .destroy => xs
  | _ => []

/-- Those of them that it destroys. -/
def destroys (xs : List (Option α)) : VecCall α → List (Option α)
  | .popBack => []
  | call => call.removes xs

/-- The index makes no panic. -/
def InRange (xs : List (Option α)) : VecCall α → Prop
  | .insert index _ => index ≤ xs.length
  | .erase index => index < xs.length
  | .set index _ => index < xs.length
  | _ => True

/-- The bytes of the array that the call asks for fit in `size_t`. -/
def Small (self : Vec α) : VecCall α → Prop
  | .pushBack _ => Vec.grownCapacity 0 self * pointerSize < 2 ^ 64
  | .insert _ _ => Vec.grownCapacity 0 self * pointerSize < 2 ^ 64
  | .setForce index _ =>
      self.length ≤ index → Vec.grownCapacity (index + 1) self * pointerSize < 2 ^ 64
  | .resize newCapacity => newCapacity * pointerSize < 2 ^ 64
  | .resizeAndClean newCapacity => newCapacity * pointerSize < 2 ^ 64
  | _ => True

/-- A request for no capacity is to be cleaned where there is no storage. -/
def CleansNothing (self : Vec α) : VecCall α → Prop
  | .resizeAndClean newCapacity => newCapacity = 0 ∧ self.capacity = 0
  | _ => False

/-- What a list becomes by calls. -/
def listAfter (calls : List (VecCall α)) : List (Option α) :=
  calls.foldl (fun xs call => call.onList xs) []

end VecCall

/-- A vector of `vec_new` after calls whose indices make no panic and whose sizes fit. -/
inductive VecRun : Vec α → List (VecCall α) → Prop
  | new (answer : Answer (Option α)) (initialCapacity : Nat) (eleDtorFn : Bool) {v : Vec α}
      (small : initialCapacity * pointerSize < 2 ^ 64)
      (made : Vec.new answer initialCapacity eleDtorFn = .ok v) : VecRun v []
  | call (answer : Answer (Option α)) (call : VecCall α) {v v' : Vec α} {calls : List (VecCall α)}
      (before : VecRun v calls) (inRange : call.InRange (VecCall.listAfter calls))
      (small : call.Small v) (ran : call.run answer v = .ok v') : VecRun v' (calls ++ [call])

end PennOs.Util
