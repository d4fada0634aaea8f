import PennOs.Lib.Hierarchy
import PennOs.Lib.LinkedForest
import PennOs.Fat.ChainRuns
import PennOs.Fat.Paths

set_option autoImplicit false

/- A volume seen as block chains, some of which are directories of 64-byte slots. -/
namespace PennOs.Fat

open LinkedChain (Links Forest)

/-- The FAT and the directory slots, and the way they are used: `chain h` are the blocks of
the file or directory whose first block is `h`, `dirs` are the first blocks of directories,
and `loose` are the first blocks that are allocated but that no entry names yet. -/
structure Image where
  blocks : Nat
  slots : Nat
  fat : Nat → Nat
  slot : Nat → Nat → DirEntry
  dirs : Nat → Prop
  chain : Nat → List Nat
  loose : Nat → Prop

/-- The slots of '.' and '..' in directories other than the root. -/
def DotSlot (d : Nat) (p : Nat × Nat) : Prop := d ≠ 1 ∧ p.1 = d ∧ p.2 < 2

/-- The first two slots of a directory are '.', which points to itself, and '..'. -/
structure DotPair (row : Nat → DirEntry) (d : Nat) : Prop where
  self : (row 0).cName = dot
  selfType : (row 0).type = DirEntry.typeDirectory
  selfBlock : (row 0).firstBlock.toNat = d
  up : (row 1).cName = dotDot
  upType : (row 1).type = DirEntry.typeDirectory

namespace Image

/-- Where '..' leads. -/
def parent (I : Image) (d : Nat) : Nat := (I.slot d 1).firstBlock.toNat

/-- A slot of a directory. -/
structure At (I : Image) (d : Nat) (p : Nat × Nat) : Prop where
  dir : I.dirs d
  block : p.1 ∈ I.chain d
  index : p.2 < I.slots

/-- The slot `p` of the directory `d` is a live entry for the file or directory `c`. -/
structure Holds (I : Image) (d : Nat) (p : Nat × Nat) (c : Nat) : Prop extends I.At d p where
  live : (I.slot p.1 p.2).live = true
  named : ¬ DotSlot d p
  first : (I.slot p.1 p.2).firstBlock.toNat = c

/-- Chains end and share no block, directories form a tree, and every entry names a chain of
its own kind. -/
structure Wf (I : Image) : Prop where
  slotsMin : 4 ≤ I.slots
  blocksMax : I.blocks ≤ 2048
  chains : Forest (nextBlock I.fat) (List.head? ∘ I.chain) I.chain
  headed : ∀ h b, (I.chain h).head? = some b → b = h
  inside : ∀ h, ∀ b ∈ I.chain h, 1 ≤ b ∧ b < I.blocks ∧ I.fat b ≠ fatFree
  dirHead : ∀ d, I.dirs d → I.chain d ≠ []
  dots : ∀ d, I.dirs d → d ≠ 1 → DotPair (I.slot d) d
  target : ∀ d p c, I.Holds d p c →
    I.chain c ≠ [] ∧ ((I.slot p.1 p.2).type = DirEntry.typeDirectory ↔ I.dirs c)
  looseHead : ∀ c, I.loose c → I.chain c ≠ []
  tree : Hierarchy 1 I.dirs I.parent I.loose I.Holds

end Image

section Names

theorem DirEntry.cName_eq (e : DirEntry) :
    e.cName = if e.name0 = 0 then [] else e.name0 :: cNameFrom e.name 1 31 := by
  have inside : (0 : Nat) < 32 := by decide
  rw [cName, cNameFrom, dif_pos inside]
  rfl

theorem DirEntry.name0_of_cName {e : DirEntry} {c : UInt8} {rest : List UInt8}
    (name : e.cName = c :: rest) : e.name0 = c := by
  rw [cName_eq] at name
  split at name
  · cases name
  · exact (List.cons.inj name).1

theorem DirEntry.live_of_cName {e : DirEntry} {c : UInt8} {rest : List UInt8}
    (name : e.cName = c :: rest) (visible : c ≠ 0 ∧ c ≠ 1 ∧ c ≠ 2) : e.live = true := by
  rw [DirEntry.live_iff, DirEntry.name0_of_cName name]
  exact visible

theorem DotPair.live {row : Nat → DirEntry} {d i : Nat} (pair : DotPair row d) (low : i < 2) :
    (row i).live = true := by
  have cases : i = 0 ∨ i = 1 := by omega
  rcases cases with rfl | rfl
  · exact DirEntry.live_of_cName pair.self (by decide)
  · exact DirEntry.live_of_cName pair.up (by decide)

end Names

namespace Image

section Facts

variable {I : Image} {d d' b c h : Nat} {p p' : Nat × Nat}

theorem Wf.head_mem (wf : I.Wf) (used : I.chain h ≠ []) : h ∈ I.chain h := by
  cases list : I.chain h with
  | nil => exact absurd list used
  | cons first rest =>
      have same := wf.headed h first (by rw [list]; rfl)
      subst same
      exact List.mem_cons_self

theorem Wf.apart (wf : I.Wf) (first : b ∈ I.chain h) (second : b ∈ I.chain c) : h = c :=
  wf.chains.apart h c b first second

theorem Wf.dir_mem (wf : I.Wf) (here : I.dirs d) : d ∈ I.chain d := wf.head_mem (wf.dirHead d here)

theorem Wf.links (wf : I.Wf) (used : I.chain h ≠ []) :
    Links (nextBlock I.fat) (some h) (I.chain h) := by
  have links := wf.chains.links h
  cases list : I.chain h with
  | nil => exact absurd list used
  | cons first rest =>
      have same := wf.headed h first (by rw [list]; rfl)
      subst same
      rw [Function.comp, list] at links
      exact links

theorem Wf.chain_nil_of_free (wf : I.Wf) (free : I.fat b = fatFree) : I.chain b = [] := by
  by_contra used
  exact (wf.inside b b (wf.head_mem used)).2.2 free

theorem Wf.not_mem_of_free (wf : I.Wf) (free : I.fat b = fatFree) : b ∉ I.chain h :=
  fun member => (wf.inside h b member).2.2 free

theorem Wf.dir_parent (wf : I.Wf) (here : I.dirs d) (proper : d ≠ 1) : I.dirs (I.parent d) :=
  wf.tree.parentDir d here proper

theorem Wf.root (wf : I.Wf) : I.dirs 1 := wf.tree.rootDir

theorem Wf.dir_inside (wf : I.Wf) (here : I.dirs d) : 1 ≤ d ∧ d < I.blocks :=
  ⟨(wf.inside d d (wf.dir_mem here)).1, (wf.inside d d (wf.dir_mem here)).2.1⟩

/-- A slot belongs to one directory. -/
theorem Wf.at_unique (wf : I.Wf) (first : I.At d p) (second : I.At d' p) : d = d' :=
  wf.apart first.block second.block

theorem Wf.dotSlot_live (wf : I.Wf) (here : I.dirs d) (isDot : DotSlot d p) :
    (I.slot p.1 p.2).live = true := by
  obtain ⟨proper, block, low⟩ := isDot
  rw [block]
  exact (wf.dots d here proper).live low

theorem Wf.not_dotSlot (wf : I.Wf) (here : I.dirs d) (dead : (I.slot p.1 p.2).live = false) :
    ¬ DotSlot d p := by
  intro isDot
  rw [wf.dotSlot_live here isDot] at dead
  cases dead

/-- A block that is in no directory. -/
def Outside (I : Image) (b : Nat) : Prop := ∀ d, I.dirs d → b ∉ I.chain d

theorem Wf.outside_of_file (wf : I.Wf) (file : ¬ I.dirs c) (member : b ∈ I.chain c) :
    I.Outside b := by
  intro d here inside
  obtain rfl := wf.apart inside member
  exact file here

end Facts

end Image

end PennOs.Fat
