import PennOs.Fat.DirectoryMaps
import PennOs.Fat.PathRuns
import PennOs.Fat.Trees

set_option autoImplicit false

/- Directories that form a tree, on a volume of any number of FAT blocks, and how they are searched. -/
namespace PennOs.Fat

open LinkedChain (Links)
open Fs

/-- A mounted volume whose directories form a tree: their chains end, share no block and are not those
of their own ancestors. -/
structure DirTree (s : Fs) (fatBlocks : Nat) : Prop where
  mounted : s.Mounted fatBlocks
  ends : ∀ d, s.Dir d → ∃ nodes, nodes ≠ [] ∧ s.Linked d nodes
  apart : ∀ d d' b, s.Dir d → s.Dir d' → s.OnChain d b → s.OnChain d' b → d = d'
  root : ∀ d p, s.Entry d p → s.firstOf p ≠ 1
  shaped : s.TreeShaped

/-- The ways from a directory lead to directories. -/
structure Image.Closed (I : Image) : Prop where
  root : I.dirs 1
  up : ∀ d, I.dirs d → d ≠ 1 → I.dirs (I.parent d)
  sub : ∀ d p name, I.dirs d → I.find name (I.chain d) = some p →
    (I.slot p.1 p.2).type = DirEntry.typeDirectory → I.dirs (I.slot p.1 p.2).firstBlock.toNat

/-- `find_entry_in_dir` searches the directories of the image along their chains. -/
structure Searches (s : Fs) (I : Image) : Prop extends I.Closed where
  small : ∀ d, I.dirs d → d < 65536
  search : ∀ d, I.dirs d → ∀ name, findEntryInDir d name s = some (.ok (match I.find name (I.chain d) with
    | none => { ResolvedPath.zero with parentDirBlock := d }
    | some p => I.foundAt d p), s)
  above : ∀ d, I.dirs d → d ≠ 1 → ∃ up, findEntryInDir d dotDot s = some (.ok up, s) ∧
    up.found = true ∧ up.entry.firstBlock.toNat = I.parent d

open Classical in
/-- The directories of a volume, with their chains as far as these end. -/
noncomputable def Fs.dirImage (s : Fs) : Image :=
  { s.view with
    dirs := s.Dir
    chain := fun d => if held : ∃ nodes, nodes ≠ [] ∧ s.Linked d nodes then held.choose else [] }

variable {s : Fs} {I : Image} {fatBlocks d : Nat} {p : Nat × Nat} {name : List UInt8} {nodes : List Nat}

section Chains

theorem Fs.Linked.onChain (linked : s.Linked d nodes) : ∀ b ∈ nodes, s.OnChain d b := by
  have reach : ∀ (nodes : List Nat) (first : Nat), s.Linked first nodes → s.OnChain d first →
      ∀ b ∈ nodes, s.OnChain d b := by
    intro nodes
    induction nodes with
    | nil => exact fun _ _ _ b member => absurd member List.not_mem_nil
    | cons node rest ih =>
        intro first linked on b member
        obtain rfl := linkOf_eq_some linked.links.1
        rcases List.mem_cons.mp member with rfl | later
        · exact on
        have more : rest ≠ [] := List.ne_nil_of_mem later
        have used := linked.tail.first_used more
        exact ih (s.fat first) linked.tail (on.next (fun ends => used (.inr ends)) fun free =>
          used (.inl free))
          b later
  exact reach nodes d linked .start

theorem Fs.Linked.first_mem (linked : s.Linked d nodes) (more : nodes ≠ []) : d ∈ nodes := by
  cases nodes with
  | nil => exact absurd rfl more
  | cons node rest =>
      obtain rfl := linkOf_eq_some linked.links.1
      exact List.mem_cons_self

/-- A directory has one chain. -/
theorem Fs.Linked.unique {other : List Nat} (linked : s.Linked d nodes) (linked' : s.Linked d other) :
    nodes = other :=
  linked.links.unique linked'.links

theorem Fs.Linked.dirImage (linked : s.Linked d nodes) (more : nodes ≠ []) : s.dirImage.chain d = nodes := by
  have held : ∃ nodes, nodes ≠ [] ∧ s.Linked d nodes := ⟨nodes, more, linked⟩
  have chosen : s.dirImage.chain d = held.choose := dif_pos held
  rw [chosen]
  exact held.choose_spec.2.unique linked

end Chains

section Trees

variable (tree : DirTree s fatBlocks)

include tree

/-- The names in the first two slots. -/
theorem DirTree.dotSlot_name (here : s.Dir d) (isDot : DotSlot d p) :
    (s.dirent p).cName = dot ∨ (s.dirent p).cName = dotDot := by
  obtain ⟨notRoot, block, low⟩ := isDot
  have cases : p = (d, 0) ∨ p = (d, 1) := by
    rcases Nat.lt_or_ge p.2 1 with zero | one
    · exact .inl (Prod.ext block (by simp only; omega))
    · exact .inr (Prod.ext block (by simp only; omega))
  rcases cases with rfl | rfl
  · exact .inl (tree.shaped.self d here notRoot).1
  · obtain ⟨_, _, _, _, _, up, _⟩ := tree.shaped.parent d here notRoot
    exact .inr up

theorem DirTree.search (here : s.Dir d) : ∃ nodes, nodes ≠ [] ∧ s.Linked d nodes ∧
    ∀ name, findEntryInDir d name s = some (.ok (match s.view.find name nodes with
      | none => { ResolvedPath.zero with parentDirBlock := d }
      | some p => s.view.foundAt d p), s) := by
  obtain ⟨nodes, more, linked⟩ := tree.ends d here
  exact ⟨nodes, more, linked,
    findEntryInDir_linked tree.mounted linked more (linked.length_le tree.mounted)⟩

/-- '..' is found in the second slot. -/
theorem DirTree.search_up (here : s.Dir d) (notRoot : d ≠ 1) :
    findEntryInDir d dotDot s = some (.ok (s.view.foundAt d (d, 1)), s) := by
  obtain ⟨nodes, more, linked, search⟩ := tree.search here
  obtain ⟨self, _⟩ := tree.shaped.self d here notRoot
  obtain ⟨_, _, _, _, _, up, _⟩ := tree.shaped.parent d here notRoot
  obtain ⟨low, _, whole⟩ := tree.mounted.blockSize_bounds
  obtain ⟨count, slots⟩ : ∃ count, s.view.slots = count + 2 := by
    refine ⟨s.gBlockSize / 64 - 2, ?_⟩
    show s.gBlockSize / 64 = _
    omega
  have first : (s.view.slot d 0).cName = dot := self
  have second : (s.view.slot d 1).cName = dotDot := up
  have alive := DirEntry.live_iff.mp (DirEntry.live_of_cName first (by decide))
  have alive' := DirEntry.live_iff.mp (DirEntry.live_of_cName second (by decide))
  have other : ¬ dot = dotDot := by decide
  have scan : scanRow (s.view.slot d) dotDot s.view.slots 0 = some 1 := by
    simp only [slots, scanRow, alive.1, alive.2.1, alive.2.2, alive'.1, alive'.2.1, alive'.2.2, first, second,
      other, or_self, ↓reduceIte, Nat.zero_add]
  cases nodes with
  | nil => exact absurd rfl more
  | cons node rest =>
      obtain rfl := linkOf_eq_some linked.links.1
      rw [search dotDot, Image.find, scan]

/-- The blocks of a directory are those its chain comes through. -/
theorem DirTree.chain_iff (here : s.Dir d) {b : Nat} : b ∈ s.dirImage.chain d ↔ s.OnChain d b := by
  obtain ⟨nodes, more, linked⟩ := tree.ends d here
  rw [linked.dirImage more]
  refine ⟨linked.onChain b, fun on => ?_⟩
  induction on with
  | start => exact linked.first_mem more
  | next on proper _ ih => exact linked.links.closed ih (linkOf_of_ne proper)

/-- A slot of the image is one of the directory. -/
theorem DirTree.slot_iff : s.dirImage.At d p ↔ s.Slot d p :=
  ⟨fun place => ⟨place.dir, (tree.chain_iff place.dir).mp place.block, place.index⟩,
    fun slot => ⟨slot.dir, (tree.chain_iff slot.dir).mpr slot.block, slot.index⟩⟩

theorem DirTree.searches : Searches s s.dirImage where
  root := .root
  up d here notRoot := by
    obtain ⟨o, p, entry, _, _, _, up⟩ := tree.shaped.parent d here notRoot
    have dir : s.Dir (s.up d) := up ▸ entry.dir
    exact dir
  sub d p name here found isDir := by
    obtain ⟨member, inside, live, _⟩ := find_some found
    have on := (tree.chain_iff here).mp member
    by_cases isDot : DotSlot d p
    · obtain ⟨notRoot, block, low⟩ := isDot
      have cases : p = (d, 0) ∨ p = (d, 1) := by
        rcases Nat.lt_or_ge p.2 1 with zero | one
        · exact .inl (Prod.ext block (by simp only; omega))
        · exact .inr (Prod.ext block (by simp only; omega))
      rcases cases with rfl | rfl
      · have self : s.firstOf (d, 0) = d := (tree.shaped.self d here notRoot).2
        have dir : s.Dir (s.firstOf (d, 0)) := self.symm ▸ here
        exact dir
      · obtain ⟨o, p, entry, _, _, _, up⟩ := tree.shaped.parent d here notRoot
        have dir : s.Dir (s.up d) := up ▸ entry.dir
        exact dir
    · have dir : s.Dir (s.firstOf p) := .sub here on inside live isDot isDir
      exact dir
  small d here := by
    obtain ⟨nodes, more, linked⟩ := tree.ends d here
    exact (tree.mounted.mapped_lt (linked.mapped d (linked.first_mem more))).2
  search d here name := by
    obtain ⟨nodes, more, linked, search⟩ := tree.search here
    have same : s.dirImage.find name nodes = s.view.find name nodes := find_congr rfl fun _ _ _ _ => rfl
    rw [search name, linked.dirImage more, same]
    rfl
  above d here notRoot := ⟨_, tree.search_up here notRoot, rfl, rfl⟩

end Trees

theorem Image.Wf.closed (wf : I.Wf) : I.Closed where
  root := wf.root
  up _ here notRoot := wf.dir_parent here notRoot
  sub d p name here found isDir := by
    obtain ⟨member, inside, live, same, _⟩ := find_some found
    by_cases named : DotSlot d p
    · obtain ⟨proper, block, low⟩ := named
      have cases : p.2 = 0 ∨ p.2 = 1 := by omega
      rw [block]
      rcases cases with zero | one
      · rw [zero, (wf.dots d here proper).selfBlock]
        exact here
      · rw [one]
        exact wf.dir_parent here proper
    · have link : I.Holds d p (I.slot p.1 p.2).firstBlock.toNat := ⟨⟨here, member, inside⟩, live, named, rfl⟩
      exact (wf.target d p _ link).2.mp isDir

theorem Tracks.searches (tracks : Tracks s I) (wf : I.Wf) : Searches s I where
  toClosed := wf.closed
  small d here := by
    have inside := wf.dir_inside here
    have bounds := tracks.blocks_bounds
    omega
  search _ here name := findEntryInDir_eq tracks wf here name
  above d here notRoot := by
    obtain ⟨up, run, found, entry⟩ := findDotDot_run tracks wf here notRoot
    exact ⟨up, run, found, congrArg (fun e => e.firstBlock.toNat) entry⟩

/-- A volume on which the calls keep the image well formed has a tree of directories. -/
theorem Resting.dirTree {promised : Image.Promises} {I : Image} (resting : Resting promised s I) :
    DirTree s 1 := by
  have wf := resting.good.wf
  have tracks := resting.tracks
  have shows := tracks.shows
  constructor
  · exact tracks.ready.toMounted
  · intro d here
    have used := wf.dirHead d (shows.dirs wf here)
    exact ⟨I.chain d, used, (tracks.chain wf used).linked tracks.ready⟩
  · intro d d' b here here' on on'
    exact wf.apart ((shows.onChain_iff wf (wf.dirHead d (shows.dirs wf here))).mp on)
      ((shows.onChain_iff wf (wf.dirHead d' (shows.dirs wf here'))).mp on')
  · exact fun d p entry => wf.tree.notRoot d p _ (shows.holds wf entry)
  · exact shows.treeShaped resting.good

end PennOs.Fat
