import Mathlib.Data.List.Perm.Subperm
import PennOs.Lib.LinkedChain
import PennOs.Lib.Search
import PennOs.Fat.BlockRuns

set_option autoImplicit false

/- The FAT loops on chains that end. -/
namespace PennOs.Fat

open LinkedChain (Links)
open Fs

/-- The block a FAT entry links to. -/
def linkOf (value : Nat) : Option Nat := if value = fatEoc then none else some value

/-- The block after `b` in its chain. -/
def nextBlock (fat : Nat → Nat) (b : Nat) : Option Nat := linkOf (fat b)

/-- The chain from `first` visits `nodes`, all of them in use, and ends with `fatEoc`. -/
structure Fs.Chain (s : Fs) (first : Nat) (nodes : List Nat) : Prop where
  links : Links (nextBlock s.fat) (some first) nodes
  inside : ∀ b ∈ nodes, 1 ≤ b ∧ b < s.fatEntries ∧ s.fat b ≠ fatFree

/-- The block `allocate_free_block` takes. -/
def Fs.firstFree (s : Fs) : Option Nat :=
  Search.firstFrom (fun b => s.fat b == fatFree) (totalEntries s - s.gSuperblock.dataStartBlock)
    s.gSuperblock.dataStartBlock

/-- The block `allocate_free_block` takes when one block holds the FAT. -/
def Fs.freeBlock (s : Fs) : Option Nat :=
  Search.firstFrom (fun b => s.fat b == fatFree) (s.fatEntries - 2) 2

/-- Every listed FAT entry is set free. -/
def Fs.freeAll (s : Fs) (nodes : List Nat) : Fs := nodes.foldl (fun t b => t.setFat b fatFree) s

variable {s : Fs} {nodes : List Nat} {first current : Nat}

/-- The chain from `first` visits `nodes` and ends with `fatEoc`; the FAT is mapped over them, and the
image holds their blocks. -/
structure Fs.Linked (s : Fs) (first : Nat) (nodes : List Nat) : Prop where
  links : Links (nextBlock s.fat) (linkOf first) nodes
  used : ∀ b ∈ nodes, b ≠ fatFree
  mapped : ∀ b ∈ nodes, s.fatMapped b = true
  stored : ∀ b ∈ nodes, s.blockOffset b + s.gBlockSize ≤ s.fileSize

theorem linkOf_eoc : linkOf fatEoc = none := rfl

theorem linkOf_of_ne {value : Nat} (other : value ≠ fatEoc) : linkOf value = some value := by
  simp only [linkOf, other, ↓reduceIte]

theorem linkOf_eq_none {value : Nat} : linkOf value = none ↔ value = fatEoc := by
  simp [linkOf]

theorem linkOf_eq_some {value b : Nat} (link : linkOf value = some b) : value = b := by
  simp only [linkOf] at link
  split at link
  · cases link
  · exact Option.some.inj link

theorem linkOf_ne {value b : Nat} (link : linkOf value = some b) : value ≠ fatEoc := by
  rintro rfl
  cases link

theorem nextBlock_setFat (s : Fs) {i v : Nat} (bound : v < 65536) :
    nextBlock (s.setFat i v).fat = Function.update (nextBlock s.fat) i (linkOf v) := by
  funext j
  simp only [nextBlock, fat_setFat s bound, Function.update_apply]
  split <;> rfl

namespace Fs.Ready

variable (ready : s.Ready)

include ready

theorem ne_eoc {b : Nat} (inside : b < s.fatEntries) : b ≠ fatEoc := by
  have bounds := ready.fatEntries_bounds
  simp only [fatEoc]
  omega

theorem mapped {b : Nat} (inside : b < s.fatEntries) : s.fatMapped b = true :=
  ready.fatMapped (ready.fatEntries_bounds.2.2 ▸ inside)

end Fs.Ready

theorem Fs.Chain.length_le (chain : s.Chain first nodes) : nodes.length ≤ s.fatEntries := by
  have below : nodes ⊆ List.range s.fatEntries :=
    fun b member => List.mem_range.mpr (chain.inside b member).2.1
  simpa using (List.subperm_of_subset chain.links.nodup below).length_le

theorem Fs.Chain.ne_nil (chain : s.Chain first nodes) : nodes ≠ [] := by
  rintro rfl
  exact absurd chain.links (by simp)

theorem Fs.Chain.first_mem (chain : s.Chain first nodes) : first ∈ nodes := by
  have links := chain.links
  cases nodes with
  | nil => exact absurd rfl chain.ne_nil
  | cons node rest =>
      obtain ⟨head, _⟩ := links
      cases head
      exact List.mem_cons_self

section Runs

theorem fatGet_mapped {b : Nat} (mapped : s.fatMapped b = true) : fatGet b s = some (s.fat b, s) := by
  simp only [fatGet, mapped, ↓reduceIte]

theorem fatSet_mapped {b : Nat} (v : Nat) (mapped : s.fatMapped b = true) :
    fatSet b v s = some ((), s.setFat b v) := by
  simp only [fatSet, mapped, ↓reduceIte]

/-- Following `count` links; the end of the chain counts as one more block. -/
theorem locateLoop_run (links : Links (nextBlock s.fat) (linkOf current) nodes)
    (mapped : ∀ b ∈ nodes, s.fatMapped b = true) {count : Nat} (within : count ≤ nodes.length) :
    locateLoop count current s = some (some (nodes[count]?.getD fatEoc), s) := by
  induction count generalizing current nodes with
  | zero =>
      cases nodes with
      | nil =>
          obtain rfl := (linkOf_eq_none).mp links
          rfl
      | cons node rest =>
          obtain rfl := linkOf_eq_some links.1
          rfl
  | succ count ih =>
      cases nodes with
      | nil => simp at within
      | cons node rest =>
          obtain ⟨head, tail⟩ := links
          have more := linkOf_ne head
          obtain rfl := linkOf_eq_some head
          simp only [locateLoop, more, ↓reduceIte]
          rw [Prog.bind_of_run (fatGet_mapped (mapped current List.mem_cons_self))]
          simpa using ih tail (fun b member => mapped b (List.mem_cons_of_mem _ member))
            (by simpa using within)

theorem locateLoop_beyond (links : Links (nextBlock s.fat) (linkOf current) nodes)
    (mapped : ∀ b ∈ nodes, s.fatMapped b = true) {count : Nat} (beyond : nodes.length < count) :
    locateLoop count current s = some (none, s) := by
  induction count generalizing current nodes with
  | zero => simp at beyond
  | succ count ih =>
      cases nodes with
      | nil =>
          obtain rfl := (linkOf_eq_none).mp links
          simp [locateLoop]
      | cons node rest =>
          obtain ⟨head, tail⟩ := links
          have more := linkOf_ne head
          obtain rfl := linkOf_eq_some head
          simp only [locateLoop, more, ↓reduceIte]
          rw [Prog.bind_of_run (fatGet_mapped (mapped current List.mem_cons_self))]
          exact ih tail (fun b member => mapped b (List.mem_cons_of_mem _ member))
            (by simpa using beyond)

theorem Fs.Chain.linkOf_links (ready : s.Ready) (chain : s.Chain first nodes) :
    Links (nextBlock s.fat) (linkOf first) nodes := by
  have small := (chain.inside first chain.first_mem).2.1
  rw [linkOf_of_ne (ready.ne_eoc small)]
  exact chain.links

theorem Fs.Chain.linked (ready : s.Ready) (chain : s.Chain first nodes) : s.Linked first nodes where
  links := chain.linkOf_links ready
  used b member := by
    have low := (chain.inside b member).1
    simp only [fatFree]
    omega
  mapped b member := ready.mapped (chain.inside b member).2.1
  stored b member := ready.block_end (chain.inside b member).2.1

/-- The first block of a chain that is not empty. -/
theorem Fs.Linked.first_used (linked : s.Linked first nodes) (more : nodes ≠ []) :
    ¬ (first = fatFree ∨ first = fatEoc) := by
  cases nodes with
  | nil => exact absurd rfl more
  | cons node rest =>
      have head := linked.links.1
      have ends := linkOf_ne head
      obtain rfl := linkOf_eq_some head
      exact not_or.mpr ⟨linked.used first List.mem_cons_self, ends⟩

theorem Fs.Linked.tail {rest : List Nat} (linked : s.Linked first (first :: rest)) :
    s.Linked (s.fat first) rest where
  links := linked.links.2
  used b member := linked.used b (List.mem_cons_of_mem _ member)
  mapped b member := linked.mapped b (List.mem_cons_of_mem _ member)
  stored b member := linked.stored b (List.mem_cons_of_mem _ member)

/-- An offset inside the chain, or at its very end, is located. -/
theorem locateBlockInChain_run (linked : s.Linked first nodes) (more : nodes ≠ []) {offset : Nat}
    (within : offset / s.gBlockSize ≤ nodes.length) :
    locateBlockInChain first offset s =
      some (some (nodes[offset / s.gBlockSize]?.getD fatEoc, offset % s.gBlockSize), s) := by
  simp only [locateBlockInChain, linked.first_used more, ↓reduceIte, Prog.get_bind]
  rw [Prog.bind_of_run (locateLoop_run linked.links linked.mapped within)]
  rfl

theorem locateBlockInChain_beyond (linked : s.Linked first nodes) (more : nodes ≠ []) {offset : Nat}
    (beyond : nodes.length < offset / s.gBlockSize) :
    locateBlockInChain first offset s = some (none, s) := by
  simp only [locateBlockInChain, linked.first_used more, ↓reduceIte, Prog.get_bind]
  rw [Prog.bind_of_run (locateLoop_beyond linked.links linked.mapped beyond)]
  rfl

/-- The last block of a chain is found. -/
theorem lastInChain_run {front : List Nat} {last : Nat}
    (links : Links (nextBlock s.fat) (some current) (front ++ [last]))
    (mapped : ∀ b ∈ front ++ [last], s.fatMapped b = true) {fuel : Nat}
    (enough : front.length < fuel) : lastInChain fuel current s = some (last, s) := by
  induction fuel generalizing current front with
  | zero => omega
  | succ fuel ih =>
      cases front with
      | nil =>
          obtain ⟨head, ends⟩ := links
          obtain rfl := Option.some.inj head
          have eoc : s.fat current = fatEoc := (linkOf_eq_none).mp ends
          have small := mapped current List.mem_cons_self
          simp only [lastInChain]
          rw [Prog.bind_of_run (fatGet_mapped small)]
          simp only [eoc, ↓reduceIte, Prog.pure_run]
      | cons node rest =>
          obtain ⟨head, tail⟩ := links
          obtain rfl := Option.some.inj head
          have small := mapped current List.mem_cons_self
          have linked : s.fat current ≠ fatEoc := by
            intro eoc
            rw [nextBlock, eoc, linkOf_eoc] at tail
            cases rest <;> cases tail.1
          simp only [lastInChain]
          rw [Prog.bind_of_run (fatGet_mapped small)]
          simp only [linked, ↓reduceIte]
          rw [nextBlock, linkOf_of_ne linked] at tail
          exact ih tail (fun b member => mapped b (List.mem_cons_of_mem _ member))
            (by simpa using enough)

theorem allocateScan_run {count index : Nat}
    (mapped : ∀ b, index ≤ b → b < index + count → s.fatMapped b = true) :
    allocateScan count index s =
      match Search.firstFrom (fun b => s.fat b == fatFree) count index with
      | none => some (none, s)
      | some b => some (some b, s.setFat b fatEoc) := by
  induction count generalizing index with
  | zero => rfl
  | succ count ih =>
      have here := mapped index (Nat.le_refl _) (by omega)
      simp only [allocateScan, Search.firstFrom]
      rw [Prog.bind_of_run (fatGet_mapped here)]
      by_cases free : s.fat index = fatFree
      · simp only [free, ↓reduceIte, beq_self_eq_true]
        rw [Prog.bind_of_run (fatSet_mapped _ here)]
        rfl
      · simp only [free, ↓reduceIte, beq_iff_eq]
        exact ih fun b low high => mapped b (by omega) (by omega)

theorem totalEntries_mounted {fatBlocks : Nat} (mounted : s.Mounted fatBlocks) :
    totalEntries s = fatBlocks * s.gBlockSize / 2 := by
  obtain ⟨_, upper, _⟩ := mounted.blockSize_bounds
  have product : fatBlocks * s.gBlockSize ≤ 32 * 4096 := Nat.mul_le_mul mounted.count.2 upper
  simp only [totalEntries, mounted.superblock]
  rw [Nat.mod_eq_of_lt (by omega)]

/-- `allocate_free_block` takes the first free entry behind the reserved ones. -/
theorem allocateFreeBlock_mounted {fatBlocks : Nat} (mounted : s.Mounted fatBlocks) :
    allocateFreeBlock s =
      match s.firstFree with
      | none => some (none, s)
      | some b => some (some b, s.setFat b fatEoc) := by
  have total := totalEntries_mounted mounted
  have reserved : s.gSuperblock.dataStartBlock = 2 := by rw [mounted.superblock]
  refine allocateScan_run fun b _ high => mounted.fatMapped ?_
  have some_ := mounted.count.1
  have bounds := mounted.blockSize_bounds
  have room : 256 ≤ fatBlocks * s.gBlockSize := le_trans bounds.1 (Nat.le_mul_of_pos_left _ some_)
  omega

theorem firstFree_ready (ready : s.Ready) : s.firstFree = s.freeBlock := by
  rw [firstFree, freeBlock, totalEntries_mounted ready.toMounted, ready.superblock,
    ready.fatEntries_bounds.2.2]

theorem allocateFreeBlock_run (ready : s.Ready) :
    allocateFreeBlock s =
      match s.freeBlock with
      | none => some (none, s)
      | some b => some (some b, s.setFat b fatEoc) :=
  firstFree_ready ready ▸ allocateFreeBlock_mounted ready.toMounted

theorem freeBlock_some {b : Nat} (found : s.freeBlock = some b) :
    2 ≤ b ∧ b < s.fatEntries ∧ s.fat b = fatFree := by
  obtain ⟨low, high, test, _⟩ := Search.firstFrom_some found
  exact ⟨low, by omega, by simpa using test⟩

theorem freeBlock_none (nothing : s.freeBlock = none) {b : Nat} (low : 2 ≤ b)
    (high : b < s.fatEntries) : s.fat b ≠ fatFree := by
  have test := Search.firstFrom_none.mp nothing b low (by omega)
  simpa using test

/-- A chain is freed block by block. -/
theorem freeLoop_run (ready : s.Ready) (links : Links (nextBlock s.fat) (linkOf current) nodes)
    (inside : ∀ b ∈ nodes, 1 ≤ b ∧ b < s.fatEntries) {fuel : Nat}
    (enough : nodes.length < fuel) : freeLoop fuel current s = some ((), s.freeAll nodes) := by
  induction nodes generalizing current fuel s with
  | nil =>
      obtain rfl := (linkOf_eq_none).mp links
      cases fuel with
      | zero => omega
      | succ fuel => simp [freeLoop, freeAll]
  | cons node rest ih =>
      have distinct := links.nodup
      obtain ⟨head, tail⟩ := links
      obtain rfl := linkOf_eq_some head
      cases fuel with
      | zero => omega
      | succ fuel =>
          obtain ⟨positive, small⟩ := inside current List.mem_cons_self
          have used : ¬ (current = fatEoc ∨ current = fatFree) := by
            have apart := ready.ne_eoc small
            simp only [fatFree]
            omega
          simp only [freeLoop, used, ↓reduceIte]
          rw [Prog.bind_of_run (fatGet_ready ready small),
            Prog.bind_of_run (fatSet_ready ready _ small)]
          have rest' : Links (nextBlock (s.setFat current fatFree).fat)
              (linkOf (s.fat current)) rest := by
            rw [nextBlock_setFat s (by decide)]
            exact Links.frame tail (List.nodup_cons.mp distinct).1
          exact ih (ready.setFat _ _) rest'
            (fun b member => inside b (List.mem_cons_of_mem _ member)) (by simpa using enough)

theorem freeBlockChain_run (ready : s.Ready) (chain : s.Chain first nodes) :
    freeBlockChain first s = some ((), s.freeAll nodes) := by
  have bounds := ready.fatEntries_bounds
  have short := chain.length_le
  exact freeLoop_run ready (chain.linkOf_links ready)
    (fun b member => ⟨(chain.inside b member).1, (chain.inside b member).2.1⟩)
    (by simp only [chainFuel]; omega)

end Runs

end PennOs.Fat
