import Mathlib.Algebra.Group.Int.Defs
import Mathlib.Algebra.Group.Nat.Defs
import Mathlib.Data.List.Basic

set_option autoImplicit false

/- A block of cells that is read and written by index, and the loops that move its members. There is no
access beyond the block: `none` stands for one. A list is held by the block that begins with it. -/
namespace Cells

variable {α : Type} {cells cells' xs : List α} {a : α} {i index n count : Nat}

/-- `cells[i] = a` -/
def write (cells : List α) (i : Nat) (a : α) : Option (List α) :=
  if i < cells.length then some (cells.set i a) else none

/-- `for (; n > index; n--) cells[n] = cells[n - 1]` -/
def moveUp (index : Nat) : Nat → List α → Option (List α)
  | 0, cells => some cells
  | n + 1, cells =>
      if index < n + 1 then do
        let a ← cells[n]?
        let cells ← write cells (n + 1) a
        moveUp index n cells
      else some cells

/-- `for (; count > 0; i++, count--) cells[i] = cells[i + 1]` -/
def moveDown : Nat → Nat → List α → Option (List α)
  | 0, _, cells => some cells
  | count + 1, i, cells => do
      let a ← cells[i + 1]?
      let cells ← write cells i a
      moveDown count (i + 1) cells

/-- `for (; count > 0; i++, count--) cells[i] = a` -/
def fill (a : α) : Nat → Nat → List α → Option (List α)
  | 0, _, cells => some cells
  | count + 1, i, cells => do
      let cells ← write cells i a
      fill a count (i + 1) cells

/-- What a loop over `count` cells from `i` on reads. -/
def readFrom : Nat → Nat → List α → Option (List α)
  | 0, _, _ => some []
  | count + 1, i, cells => do
      let a ← cells[i]?
      let rest ← readFrom count (i + 1) cells
      return a :: rest

/-- The search among `count` cells from `i` on, up to the first that passes. -/
def seek (p : α → Bool) : Nat → Nat → List α → Option (Option Nat)
  | 0, _, _ => some none
  | count + 1, i, cells => do
      let a ← cells[i]?
      if p a then return some i else seek p count (i + 1) cells

section Accesses

theorem write_run (inside : i < cells.length) : write cells i a = some (cells.set i a) := if_pos inside

theorem write_inv (run : write cells i a = some cells') :
    i < cells.length ∧ cells' = cells.set i a := by
  unfold write at run
  split at run
  · next inside => exact ⟨inside, (Option.some.inj run).symm⟩
  · cases run

theorem getElem?_write (run : write cells i a = some cells') (j : Nat) :
    cells'[j]? = if j = i then some a else cells[j]? := by
  obtain ⟨inside, rfl⟩ := write_inv run
  by_cases here : j = i
  · subst here
    rw [if_pos rfl, List.getElem?_set_self inside]
  · rw [if_neg here, List.getElem?_set_ne (Ne.symm here)]

theorem length_write (run : write cells i a = some cells') : cells'.length = cells.length := by
  obtain ⟨_, rfl⟩ := write_inv run
  exact List.length_set

theorem exists_write (a : α) (inside : i < cells.length) : ∃ cells', write cells i a = some cells' :=
  ⟨_, write_run inside⟩

end Accesses

section Loops

theorem moveUp_run (index : Nat) (fits : n < cells.length) : ∃ cells', moveUp index n cells = some cells' ∧
    cells'.length = cells.length ∧
    ∀ j, cells'[j]? = if index < j ∧ j ≤ n then cells[j - 1]? else cells[j]? := by
  induction n generalizing cells with
  | zero =>
      refine ⟨cells, rfl, rfl, fun j => ?_⟩
      rw [if_neg (by omega)]
  | succ n ih =>
      by_cases more : index < n + 1
      swap
      · refine ⟨cells, if_neg more, rfl, fun j => ?_⟩
        rw [if_neg (by omega)]
      have below : n < cells.length := by omega
      obtain ⟨mid, written⟩ := exists_write cells[n] fits
      have length := length_write written
      obtain ⟨last, moved, length', cell⟩ := ih (show n < mid.length by omega)
      refine ⟨last, ?_, length'.trans length, fun j => ?_⟩
      · simp only [moveUp, more, ↓reduceIte, List.getElem?_eq_getElem below]
        exact (congrArg (Option.bind · _) written).trans moved
      rw [cell]
      by_cases top : j = n + 1
      · subst top
        rw [if_neg (by omega), if_pos (by omega), getElem?_write written, if_pos rfl,
          Nat.add_sub_cancel, List.getElem?_eq_getElem below]
      by_cases inside : index < j ∧ j ≤ n
      · rw [if_pos inside, if_pos (by omega), getElem?_write written, if_neg (by omega)]
      · rw [if_neg inside, if_neg (by omega), getElem?_write written, if_neg top]

theorem moveUp_of_le (stays : n ≤ index) : moveUp index n cells = some cells := by
  cases n with
  | zero => rfl
  | succ n => exact if_neg (Nat.not_lt.mpr stays)

theorem moveDown_run (fits : i + count < cells.length) :
    ∃ cells', moveDown count i cells = some cells' ∧ cells'.length = cells.length ∧
      ∀ j, cells'[j]? = if i ≤ j ∧ j < i + count then cells[j + 1]? else cells[j]? := by
  induction count generalizing i cells with
  | zero =>
      refine ⟨cells, rfl, rfl, fun j => ?_⟩
      rw [if_neg (by omega)]
  | succ count ih =>
      have above : i + 1 < cells.length := by omega
      have here : i < cells.length := by omega
      obtain ⟨mid, written⟩ := exists_write cells[i + 1] here
      have length := length_write written
      obtain ⟨last, moved, length', cell⟩ := ih (show i + 1 + count < mid.length by omega)
      refine ⟨last, ?_, length'.trans length, fun j => ?_⟩
      · simp only [moveDown, List.getElem?_eq_getElem above]
        exact (congrArg (Option.bind · _) written).trans moved
      rw [cell]
      by_cases first : j = i
      · subst first
        rw [if_neg (by omega), if_pos (by omega), getElem?_write written, if_pos rfl,
          List.getElem?_eq_getElem above]
      by_cases inside : i + 1 ≤ j ∧ j < i + 1 + count
      · rw [if_pos inside, if_pos (by omega), getElem?_write written, if_neg (by omega)]
      · rw [if_neg inside, if_neg (by omega), getElem?_write written, if_neg first]

theorem fill_run (fits : i + count ≤ cells.length) :
    ∃ cells', fill a count i cells = some cells' ∧ cells'.length = cells.length ∧
      ∀ j, cells'[j]? = if i ≤ j ∧ j < i + count then some a else cells[j]? := by
  induction count generalizing i cells with
  | zero =>
      refine ⟨cells, rfl, rfl, fun j => ?_⟩
      rw [if_neg (by omega)]
  | succ count ih =>
      have here : i < cells.length := by omega
      obtain ⟨mid, written⟩ := exists_write a here
      have length := length_write written
      obtain ⟨last, filled, length', cell⟩ := ih (show i + 1 + count ≤ mid.length by omega)
      refine ⟨last, ?_, length'.trans length, fun j => ?_⟩
      · exact (congrArg (Option.bind · _) written).trans filled
      rw [cell]
      by_cases first : j = i
      · subst first
        rw [if_neg (by omega), if_pos (by omega), getElem?_write written, if_pos rfl]
      by_cases inside : i + 1 ≤ j ∧ j < i + 1 + count
      · rw [if_pos inside, if_pos (by omega)]
      · rw [if_neg inside, if_neg (by omega), getElem?_write written, if_neg first]

theorem readFrom_run (fits : i + count ≤ cells.length) :
    readFrom count i cells = some ((cells.drop i).take count) := by
  induction count generalizing i with
  | zero => rfl
  | succ count ih =>
      have here : i < cells.length := by omega
      rw [List.drop_eq_getElem_cons here, List.take_succ_cons]
      simp only [readFrom, List.getElem?_eq_getElem here, ih (show i + 1 + count ≤ cells.length by omega)]
      rfl

theorem seek_run {p : α → Bool} (fits : i + count ≤ cells.length) :
    seek p count i cells = some ((((cells.drop i).take count).findIdx? p).map (· + i)) := by
  induction count generalizing i with
  | zero => rfl
  | succ count ih =>
      have here : i < cells.length := by omega
      rw [List.drop_eq_getElem_cons here, List.take_succ_cons, List.findIdx?_cons]
      simp only [seek, List.getElem?_eq_getElem here]
      by_cases passes : p cells[i] = true
      · simp [passes]
      · have later := ih (show i + 1 + count ≤ cells.length by omega)
        have shift : (fun x => x + (i + 1)) = (fun x => x + i) ∘ fun x => x + 1 := by
          funext x
          show x + (i + 1) = x + 1 + i
          omega
        simp only [passes, Bool.false_eq_true, ↓reduceIte, Option.bind_eq_bind, Option.bind_some, later,
          Option.map_map, shift]

end Loops

section Held

/-- Members of the list are found under their index. -/
theorem held_iff : xs <+: cells ↔ xs.length ≤ cells.length ∧ ∀ j < xs.length, cells[j]? = xs[j]? := by
  constructor
  · intro held
    refine ⟨held.length_le, fun j inside => ?_⟩
    rw [List.prefix_iff_eq_take.mp held, List.getElem?_take, if_pos inside]
  · intro both
    obtain ⟨shorter, same⟩ := both
    apply List.prefix_iff_eq_take.mpr
    apply List.ext_getElem?
    intro j
    rw [List.getElem?_take]
    by_cases inside : j < xs.length
    · rw [if_pos inside, same j inside]
    · rw [if_neg inside, List.getElem?_eq_none (by omega)]

theorem held_append (held : xs <+: cells) (room : xs.length < cells.length) :
    ∃ cells', write cells xs.length a = some cells' ∧ cells'.length = cells.length ∧
      xs ++ [a] <+: cells' := by
  obtain ⟨cells', written⟩ := exists_write a room
  have length := length_write written
  refine ⟨cells', written, length, held_iff.mpr ⟨?_, fun j inside => ?_⟩⟩
  · rw [List.length_append, List.length_singleton]
    omega
  rw [List.length_append, List.length_singleton] at inside
  rw [getElem?_write written]
  by_cases last : j = xs.length
  · rw [if_pos last, last, List.getElem?_concat_length]
  · rw [if_neg last, List.getElem?_append_left (by omega)]
    exact (held_iff.mp held).2 j (by omega)

theorem held_set (held : xs <+: cells) (inside : index < xs.length) :
    ∃ cells', write cells index a = some cells' ∧ cells'.length = cells.length ∧
      xs.set index a <+: cells' := by
  have shorter := held.length_le
  obtain ⟨cells', written⟩ := exists_write a (show index < cells.length by omega)
  have length := length_write written
  refine ⟨cells', written, length, held_iff.mpr ⟨?_, fun j inside' => ?_⟩⟩
  · rw [List.length_set]
    omega
  rw [List.length_set] at inside'
  rw [getElem?_write written]
  by_cases here : j = index
  · subst here
    rw [if_pos rfl, List.getElem?_set_self inside]
  · rw [if_neg here, List.getElem?_set_ne (Ne.symm here)]
    exact (held_iff.mp held).2 j inside'

theorem held_insertIdx (held : xs <+: cells) (room : xs.length < cells.length)
    (inside : index ≤ xs.length) :
    ∃ moved cells', moveUp index xs.length cells = some moved ∧ write moved index a = some cells' ∧
      cells'.length = cells.length ∧ xs.insertIdx index a <+: cells' := by
  obtain ⟨moved, run, length, cell⟩ := moveUp_run index room
  obtain ⟨cells', written⟩ := exists_write a (show index < moved.length by omega)
  have length' := (length_write written).trans length
  have same := (held_iff.mp held).2
  have longer := List.length_insertIdx_of_le_length inside a
  refine ⟨moved, cells', run, written, length', held_iff.mpr ⟨by omega, fun j inside' => ?_⟩⟩
  rw [longer] at inside'
  rw [getElem?_write written, cell, List.getElem?_insertIdx]
  by_cases before : j < index
  · rw [if_neg (by omega), if_neg (by omega), if_pos before]
    exact same j (by omega)
  by_cases here : j = index
  · rw [if_pos here, if_neg before, if_pos here, if_pos (by omega)]
  · rw [if_neg here, if_pos (by omega), if_neg before, if_neg here]
    exact same (j - 1) (by omega)

theorem held_eraseIdx (held : xs <+: cells) (inside : index < xs.length) :
    ∃ cells', moveDown (xs.length - 1 - index) index cells = some cells' ∧
      cells'.length = cells.length ∧ xs.eraseIdx index <+: cells' := by
  have shorter := held.length_le
  have same := (held_iff.mp held).2
  obtain ⟨cells', run, length, cell⟩ := moveDown_run
    (show index + (xs.length - 1 - index) < cells.length by omega)
  have less := List.length_eraseIdx_of_lt inside
  refine ⟨cells', run, length, held_iff.mpr ⟨by omega, fun j inside' => ?_⟩⟩
  rw [less] at inside'
  rw [cell, List.getElem?_eraseIdx]
  by_cases before : j < index
  · rw [if_neg (by omega), if_pos before]
    exact same j (by omega)
  · rw [if_pos (by omega), if_neg before]
    exact same (j + 1) (by omega)

/-- Cells behind the list are filled. -/
theorem held_fill (held : xs <+: cells) (fits : xs.length + count ≤ cells.length) :
    ∃ cells', fill a count xs.length cells = some cells' ∧ cells'.length = cells.length ∧
      xs ++ List.replicate count a <+: cells' := by
  obtain ⟨cells', run, length, cell⟩ := fill_run (a := a) fits
  have same := (held_iff.mp held).2
  have longer : (xs ++ List.replicate count a).length = xs.length + count := by
    rw [List.length_append, List.length_replicate]
  refine ⟨cells', run, length, held_iff.mpr ⟨by omega, fun j inside => ?_⟩⟩
  rw [longer] at inside
  rw [cell]
  by_cases before : j < xs.length
  · rw [if_neg (by omega), List.getElem?_append_left before]
    exact same j before
  · rw [if_pos (by omega), List.getElem?_append_right (by omega), List.getElem?_replicate,
      if_pos (by omega)]

theorem held_read (held : xs <+: cells) : readFrom xs.length 0 cells = some xs := by
  have shorter := held.length_le
  rw [readFrom_run (by omega), List.drop_zero, ← List.prefix_iff_eq_take.mp held]

theorem held_seek {p : α → Bool} (held : xs <+: cells) :
    seek p xs.length 0 cells = some (xs.findIdx? p) := by
  have shorter := held.length_le
  rw [seek_run (by omega), List.drop_zero, ← List.prefix_iff_eq_take.mp held]
  simp

end Held

end Cells
