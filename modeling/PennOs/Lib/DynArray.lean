import PennOs.Lib.Cells

set_option autoImplicit false

/-- A growable array of pointers on a 64-bit machine. `hasDtor` says whether there is an element
destructor, and `destroyed` what it has been called with. -/
structure DynArray (α : Type) where
  cells : List α
  length : Nat
  capacity : Nat
  hasDtor : Bool
  destroyed : List α

namespace DynArray

variable {α β γ : Type}

/-- How a call ends that does not return: it panics, or accesses a cell outside of the block. -/
inductive Stop where
  | panic
  | outside
  deriving DecidableEq, Repr

/-- A value of `size_t`. -/
def sizeT (n : Nat) : Nat := n % 2 ^ 64

/-- `sizeof` a pointer. -/
def pointerSize : Nat := 8

/-- What the allocator answers: `NULL`, or a block whose new cells hold what `fresh` says. -/
abbrev Answer (α : Type) := Option (Nat → α)

/-- An access to a cell. -/
def inside : Option β → Except Stop β
  | none => .error .outside
  | some b => .ok b

/-- `realloc(cells, bytes)`; for no bytes at all it returns `NULL`. -/
def realloc (answer : Answer α) (bytes : Nat) (cells : List α) : Option (List α) :=
  answer.bind fun fresh =>
    let size := bytes / pointerSize
    if size = 0 then none
    else some (cells.take size ++ (List.range (size - cells.length)).map fun i => fresh (cells.length + i))

/-- The array with a block for `newCapacity` elements, unless there are that many already. -/
def resize (answer : Answer α) (newCapacity : Nat) (v : DynArray α) : Except Stop (DynArray α) :=
  if newCapacity ≤ v.length then .ok v
  else
    match realloc answer (sizeT (newCapacity * pointerSize)) v.cells with
    | none => .error .panic
    | some cells => .ok { v with cells, capacity := newCapacity }

/-- `cells[i] = a` -/
def put (i : Nat) (a : α) (v : DynArray α) : Except Stop (DynArray α) := do
  let cells ← inside (Cells.write v.cells i a)
  return { v with cells }

/-- `dtor(cells[i])`, where there is a destructor. -/
def destroyAt (i : Nat) (v : DynArray α) : Except Stop (DynArray α) := do
  if v.hasDtor then
    let a ← inside v.cells[i]?
    return { v with destroyed := v.destroyed ++ [a] }
  else return v

/-- `cells[length] = a; length++` -/
def append (a : α) (v : DynArray α) : Except Stop (DynArray α) := do
  let v ← v.put v.length a
  return { v with length := sizeT (v.length + 1) }

/-- The cells from `top` down to `index` are moved up, `cells[index] = a; length++` -/
def insertAt (top index : Nat) (a : α) (v : DynArray α) : Except Stop (DynArray α) := do
  let cells ← inside (Cells.moveUp index top v.cells)
  let v ← { v with cells }.put index a
  return { v with length := sizeT (v.length + 1) }

/-- `count` cells behind `index` are moved down, `length--` -/
def eraseAt (count index : Nat) (v : DynArray α) : Except Stop (DynArray α) := do
  let cells ← inside (Cells.moveDown count index v.cells)
  return { v with cells, length := v.length - 1 }

/-- `dtor` on `count` cells, where there is a destructor; `length = 0` -/
def clearFirst (count : Nat) (v : DynArray α) : Except Stop (DynArray α) := do
  if v.hasDtor then
    let gone ← inside (Cells.readFrom count 0 v.cells)
    return { v with destroyed := v.destroyed ++ gone, length := 0 }
  else return { v with length := 0 }

/-- The block is freed. -/
def release (v : DynArray α) : DynArray α := { v with cells := [], capacity := 0 }

/-- The elements. -/
def contents (v : DynArray α) : List α := v.cells.take v.length

/-- The block has the capacity, whose bytes fit in `size_t`, and begins with the list. -/
structure Represents (v : DynArray α) (xs : List α) : Prop where
  length : v.length = xs.length
  held : xs <+: v.cells
  block : v.cells.length = v.capacity
  fits : v.capacity * pointerSize < 2 ^ 64

/-- The call returns with `post`, or panics for want of memory. -/
def Returns (answer : Answer α) (result : Except Stop β) (post : β → Prop) : Prop :=
  match result with
  | .ok b => post b
  | .error .panic => answer = none
  | .error .outside => False

/-- The call has made the array one of `xs`, and has destroyed the elements of `gone`. -/
structure Becomes (v : DynArray α) (xs gone : List α) (v' : DynArray α) : Prop where
  represents : v'.Represents xs
  hasDtor : v'.hasDtor = v.hasDtor
  destroyed : v'.destroyed = v.destroyed ++ if v.hasDtor then gone else []

variable {v v' : DynArray α} {xs : List α} {a : α} {answer : Answer α} {index count : Nat}

section Rules

theorem ok_bind (b : β) (f : β → Except Stop γ) : (Except.ok b >>= f) = f b := rfl

theorem Returns.bind {x : Except Stop β} {f : β → Except Stop γ} {mid : β → Prop} {post : γ → Prop}
    (first : Returns answer x mid) (rest : ∀ b, mid b → Returns answer (f b) post) :
    Returns answer (x >>= f) post := by
  cases x with
  | ok b => exact rest b first
  | error stop =>
      cases stop with
      | panic => exact first
      | outside => exact first

theorem Returns.mono {x : Except Stop β} {post post' : β → Prop} (returns : Returns answer x post)
    (weaker : ∀ b, post b → post' b) : Returns answer x post' := by
  cases x with
  | ok b => exact weaker b returns
  | error stop =>
      cases stop with
      | panic => exact returns
      | outside => exact returns

theorem Returns.of_inside {access : Option β} {b : β} {post : β → Prop} (run : access = some b)
    (holds : post b) : Returns answer (inside access) post := by
  rw [run]
  exact holds

theorem Returns.pure {b : β} {post : β → Prop} (holds : post b) :
    Returns answer (Pure.pure b : Except Stop β) post := holds

theorem Returns.map {x : Except Stop β} {f : β → γ} {mid : β → Prop} {post : γ → Prop}
    (returns : Returns answer x mid) (maps : ∀ b, mid b → post (f b)) : Returns answer (x.map f) post := by
  cases x with
  | ok b => exact maps b returns
  | error stop =>
      cases stop with
      | panic => exact returns
      | outside => exact returns

theorem Returns.of_ok {b : β} {x : Except Stop β} {post : β → Prop} (returns : Returns answer x post)
    (ran : x = .ok b) : post b := by
  rw [ran] at returns
  exact returns

end Rules

section Represented

theorem Represents.bound (represents : v.Represents xs) : xs.length ≤ v.capacity := by
  rw [← represents.block]
  exact represents.held.length_le

theorem Represents.contents (represents : v.Represents xs) : v.contents = xs := by
  rw [DynArray.contents, represents.length, ← List.prefix_iff_eq_take.mp represents.held]

/-- An access below the length. -/
theorem Represents.get (represents : v.Represents xs) (inside_ : index < xs.length) :
    inside v.cells[index]? = .ok xs[index] := by
  rw [(Cells.held_iff.mp represents.held).2 index inside_, List.getElem?_eq_getElem inside_]
  rfl

theorem Becomes.of_represents (represents : v'.Represents xs) (hasDtor : v'.hasDtor = v.hasDtor)
    (destroyed : v'.destroyed = v.destroyed) : v.Becomes xs [] v' := by
  refine ⟨represents, hasDtor, ?_⟩
  rw [destroyed, ite_self, List.append_nil]

theorem Returns.represents {x : Except Stop (DynArray α)} {gone : List α}
    (returns : Returns answer x (v.Becomes xs gone)) : Returns answer x fun v' => v'.Represents xs :=
  returns.mono fun _ becomes => becomes.represents

theorem Becomes.trans {v'' : DynArray α} {ys gone gone' : List α} (first : v.Becomes xs gone v')
    (second : v'.Becomes ys gone' v'') : v.Becomes ys (gone ++ gone') v'' := by
  refine ⟨second.represents, second.hasDtor.trans first.hasDtor, ?_⟩
  rw [second.destroyed, first.destroyed, first.hasDtor, List.append_assoc]
  cases v.hasDtor <;> rfl

/-- A resize keeps the elements. -/
theorem resize_returns {c : Nat} (represents : v.Represents xs)
    (small : v.length < c → c * pointerSize < 2 ^ 64) :
    Returns answer (v.resize answer c) fun v' => v.Becomes xs [] v' ∧
      v'.capacity = if c ≤ v.length then v.capacity else c := by
  unfold resize
  by_cases noop : c ≤ v.length
  · rw [if_pos noop]
    refine ⟨.of_represents represents rfl rfl, ?_⟩
    rw [if_pos noop]
  rw [if_neg noop]
  have more : v.length < c := by omega
  have bytes : sizeT (c * pointerSize) / pointerSize = c := by
    rw [sizeT, Nat.mod_eq_of_lt (small more)]
    exact Nat.mul_div_cancel c (by decide)
  cases answer with
  | none => rfl
  | some fresh =>
      have some_ : c ≠ 0 := by omega
      have shorter := represents.held.length_le
      have length := represents.length
      simp only [realloc, Option.bind_some, bytes, some_, ↓reduceIte]
      refine ⟨.of_represents ⟨length, ?_, ?_, small more⟩ rfl rfl, (if_neg noop).symm⟩
      · apply List.IsPrefix.trans _ (List.prefix_append _ _)
        apply List.prefix_take_iff.mpr
        exact ⟨represents.held, by omega⟩
      · rw [List.length_append, List.length_take, List.length_map, List.length_range]
        show min c v.cells.length + (c - v.cells.length) = c
        omega

theorem destroyAt_returns (represents : v.Represents xs) (inside_ : index < xs.length) :
    Returns answer (v.destroyAt index) (v.Becomes xs [xs[index]]) := by
  unfold destroyAt
  by_cases dtor : v.hasDtor = true
  · have cell : v.cells[index]? = some xs[index] := by
      rw [(Cells.held_iff.mp represents.held).2 index inside_, List.getElem?_eq_getElem inside_]
    rw [if_pos dtor]
    apply Returns.bind (Returns.of_inside cell rfl)
    rintro _ rfl
    refine Returns.pure ⟨⟨represents.length, represents.held, represents.block, represents.fits⟩, rfl, ?_⟩
    rw [if_pos dtor]
  · rw [if_neg dtor]
    refine Returns.pure ⟨represents, rfl, ?_⟩
    rw [if_neg dtor, List.append_nil]

theorem put_returns (represents : v.Represents xs) (inside_ : index < xs.length) :
    Returns answer (v.put index a) (v.Becomes (xs.set index a) []) := by
  obtain ⟨cells, written, length, held⟩ := Cells.held_set (a := a) represents.held inside_
  apply Returns.bind (Returns.of_inside written rfl)
  rintro _ rfl
  refine Returns.pure (.of_represents ⟨?_, held, length.trans represents.block, represents.fits⟩ rfl rfl)
  rw [List.length_set]
  exact represents.length

/-- The length never comes to the end of `size_t`. -/
theorem Represents.length_succ (represents : v.Represents xs) (room : xs.length < v.capacity) :
    sizeT (v.length + 1) = xs.length + 1 := by
  have fits := represents.fits
  have length := represents.length
  rw [sizeT, length, Nat.mod_eq_of_lt]
  unfold pointerSize at fits
  omega

theorem append_returns (represents : v.Represents xs) (room : xs.length < v.capacity) :
    Returns answer (v.append a) (v.Becomes (xs ++ [a]) []) := by
  have fits : xs.length < v.cells.length := represents.block ▸ room
  obtain ⟨cells, written, length, held⟩ := Cells.held_append (a := a) represents.held fits
  rw [← represents.length] at written
  have stored : Returns answer (v.put v.length a) fun v' => v' = { v with cells } :=
    Returns.bind (Returns.of_inside written rfl) fun _ same => same ▸ rfl
  apply Returns.bind stored
  rintro _ rfl
  refine Returns.pure (.of_represents ⟨?_, held, length.trans represents.block, represents.fits⟩ rfl rfl)
  rw [List.length_append, List.length_singleton]
  exact represents.length_succ room

/-- The length may be set before the element. -/
theorem put_eq_append (v : DynArray α) (n : Nat) (a : α) :
    put n a { v with length := sizeT (n + 1) } = append a { v with length := n } := by
  unfold append put
  cases Cells.write v.cells n a <;> rfl

theorem insertAt_returns (represents : v.Represents xs) (room : xs.length < v.capacity)
    (inside_ : index ≤ xs.length) :
    Returns answer (v.insertAt xs.length index a) (v.Becomes (xs.insertIdx index a) []) := by
  have fits : xs.length < v.cells.length := represents.block ▸ room
  obtain ⟨moved, cells, run, written, length, held⟩ :=
    Cells.held_insertIdx (a := a) represents.held fits inside_
  apply Returns.bind (Returns.of_inside run rfl)
  rintro _ rfl
  have stored : Returns answer ({ v with cells := moved }.put index a) fun v' => v' = { v with cells } :=
    Returns.bind (Returns.of_inside written rfl) fun _ same => same ▸ rfl
  apply Returns.bind stored
  rintro _ rfl
  refine Returns.pure (.of_represents ⟨?_, held, length.trans represents.block, represents.fits⟩ rfl rfl)
  rw [List.length_insertIdx_of_le_length inside_]
  exact represents.length_succ room

/-- At the end nothing is moved. -/
theorem insertAt_end {top : Nat} (represents : v.Represents xs) (room : xs.length < v.capacity)
    (stays : top ≤ xs.length) :
    Returns answer (v.insertAt top xs.length a) (v.Becomes (xs ++ [a]) []) := by
  have appended : Returns answer (v.append a) (v.Becomes (xs ++ [a]) []) := append_returns represents room
  unfold append at appended
  rw [represents.length] at appended
  apply Returns.bind (Returns.of_inside (Cells.moveUp_of_le stays) rfl)
  rintro _ rfl
  have length : v.length = xs.length := represents.length
  rw [← length] at appended ⊢
  exact appended

theorem eraseAt_returns (represents : v.Represents xs) (inside_ : index < xs.length) :
    Returns answer (v.eraseAt (xs.length - 1 - index) index) (v.Becomes (xs.eraseIdx index) []) := by
  obtain ⟨cells, run, length, held⟩ := Cells.held_eraseIdx represents.held inside_
  apply Returns.bind (Returns.of_inside run rfl)
  rintro _ rfl
  refine Returns.pure (.of_represents ⟨?_, held, length.trans represents.block, represents.fits⟩ rfl rfl)
  rw [List.length_eraseIdx_of_lt inside_]
  exact congrArg (· - 1) represents.length

theorem clearFirst_returns (represents : v.Represents xs) (all : v.hasDtor = true → count = xs.length) :
    Returns answer (v.clearFirst count) (v.Becomes [] xs) := by
  have empty : ∀ destroyed, Represents { v with destroyed := destroyed, length := 0 } [] := fun _ =>
    ⟨rfl, List.nil_prefix, represents.block, represents.fits⟩
  unfold clearFirst
  by_cases dtor : v.hasDtor = true
  · have read : Cells.readFrom count 0 v.cells = some xs := by
      rw [all dtor]
      exact Cells.held_read represents.held
    rw [if_pos dtor]
    apply Returns.bind (Returns.of_inside read rfl)
    rintro _ rfl
    refine Returns.pure ⟨empty _, rfl, ?_⟩
    rw [if_pos dtor]
  · rw [if_neg dtor]
    refine Returns.pure ⟨empty _, rfl, ?_⟩
    rw [if_neg dtor, List.append_nil]

/-- The last element is dropped. -/
theorem Represents.dropLast (represents : v.Represents xs) :
    Represents { v with length := v.length - 1 } xs.dropLast := by
  refine ⟨?_, (List.dropLast_prefix xs).trans represents.held, represents.block, represents.fits⟩
  rw [List.length_dropLast]
  exact congrArg (· - 1) represents.length

theorem Represents.release (represents : v.Represents xs) (empty : xs = []) :
    Represents v.release [] := by
  subst empty
  exact ⟨represents.length, List.nil_prefix, rfl, by simp [DynArray.release]⟩

end Represented

end DynArray
