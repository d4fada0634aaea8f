import Mathlib.Logic.Function.Basic
import Mathlib.Data.List.TakeDrop

set_option autoImplicit false

/- A file with several cursors: each reads and writes at its own position, and all of them see the
same contents. -/
namespace PennOs

structure SharedFile (ι α : Type) where
  data : List α
  cursor : ι → Nat

namespace SharedFile

variable {ι α : Type}

/-- `bytes` from position `start` on, over what was there and behind the end. -/
def splice (data bytes : List α) (start : Nat) : List α :=
  data.take start ++ bytes ++ data.drop (start + bytes.length)

/-- At most `n` members from the cursor on. -/
def slice (file : SharedFile ι α) (i : ι) (n : Nat) : List α := (file.data.drop (file.cursor i)).take n

/-- Inside the new part there are the new members, outside it the old ones. -/
theorem getElem?_splice (data bytes : List α) {start : Nat} (inside : start ≤ data.length) (p : Nat) :
    (splice data bytes start)[p]? =
      if start ≤ p ∧ p < start + bytes.length then bytes[p - start]? else data[p]? := by
  have front : (data.take start).length = start := by
    rw [List.length_take]
    omega
  rw [splice, List.append_assoc]
  by_cases before : p < start
  · rw [List.getElem?_append_left (by omega), List.getElem?_take_of_lt before, if_neg (by omega)]
  rw [List.getElem?_append_right (by omega), front]
  by_cases within : p < start + bytes.length
  · rw [List.getElem?_append_left (by omega), if_pos ⟨by omega, within⟩]
  · rw [List.getElem?_append_right (by omega), List.getElem?_drop, if_neg (by omega)]
    exact congrArg (data[·]?) (by omega)

/-- A splice read from its start gives its members back. -/
theorem drop_take_splice (data bytes : List α) {start : Nat} (inside : start ≤ data.length) :
    ((splice data bytes start).drop start).take bytes.length = bytes := by
  have front : (data.take start).length = start := by
    rw [List.length_take]
    omega
  have behind : (splice data bytes start).drop start = bytes ++ data.drop (start + bytes.length) := by
    rw [splice, List.append_assoc]
    nth_rewrite 1 [← front]
    exact List.drop_left
  rw [behind, List.take_left]

variable [DecidableEq ι]

/-- `lseek` -/
def seek (file : SharedFile ι α) (i : ι) (position : Nat) : SharedFile ι α :=
  { file with cursor := Function.update file.cursor i position }

/-- What is read, and the file behind it. -/
def read (file : SharedFile ι α) (i : ι) (n : Nat) : List α × SharedFile ι α :=
  (file.slice i n, file.seek i (file.cursor i + (file.slice i n).length))

def write (file : SharedFile ι α) (i : ι) (bytes : List α) : SharedFile ι α where
  data := splice file.data bytes (file.cursor i)
  cursor := Function.update file.cursor i (file.cursor i + bytes.length)

@[simp] theorem seek_cursor_self (file : SharedFile ι α) (i : ι) (position : Nat) :
    (file.seek i position).cursor i = position := Function.update_self ..

theorem seek_cursor_ne (file : SharedFile ι α) {i j : ι} (position : Nat) (apart : j ≠ i) :
    (file.seek i position).cursor j = file.cursor j := Function.update_of_ne apart ..

@[simp] theorem write_cursor_self (file : SharedFile ι α) (i : ι) (bytes : List α) :
    (file.write i bytes).cursor i = file.cursor i + bytes.length := Function.update_self ..

theorem write_cursor_ne (file : SharedFile ι α) {i j : ι} (bytes : List α) (apart : j ≠ i) :
    (file.write i bytes).cursor j = file.cursor j := Function.update_of_ne apart ..

/-- What one cursor wrote, another one reads. -/
theorem read_write (file : SharedFile ι α) (i j : ι) (bytes : List α)
    (inside : file.cursor i ≤ file.data.length) :
    (((file.write i bytes).seek j (file.cursor i)).read j bytes.length).1 = bytes := by
  rw [read, slice, seek_cursor_self]
  exact drop_take_splice file.data bytes inside

end SharedFile

end PennOs
