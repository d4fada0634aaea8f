import PennOs.Fat.Lookups

set_option autoImplicit false

/- Directories as maps from names to entries, on any chain of blocks that ends. -/
namespace PennOs.Fat

open LinkedChain (Links)
open Fs

/-- The blocks of a directory. The chain ends, it and the blocks to allocate are behind the FAT, and
no block has a live slot behind a slot without a name. -/
structure DirChain (s : Fs) (fatBlocks d : Nat) (nodes : List Nat) : Prop where
  mounted : s.Mounted fatBlocks
  data : fatBlocks ≤ s.gSuperblock.dataStartBlock
  linked : s.Linked d nodes
  more : nodes ≠ []
  behind : ∀ b ∈ nodes, fatBlocks ≤ b
  ordered : ∀ b ∈ nodes, ∀ i j, i < j → j < s.view.slots → (s.view.slot b i).name0 = 0 →
    (s.view.slot b j).live = false

/-- The slot `p` is the first free one of a block of the directory. -/
structure FirstFree (s : Fs) (nodes : List Nat) (p : Nat × Nat) : Prop where
  block : p.1 ∈ nodes
  index : p.2 < s.view.slots
  free : (s.view.slot p.1 p.2).reusable = true
  first : ∀ i < p.2, (s.view.slot p.1 i).reusable = false

/-- A new, empty last block behind `last`. -/
def Fs.grown (s : Fs) (last b : Nat) : Fs :=
  ((s.setFat b fatEoc).setFat last b).putBlock b zeroBuffer

variable {s : Fs} {fatBlocks b c d i last : Nat} {nodes front : List Nat} {p : Nat × Nat}
  {e : DirEntry} {name : List UInt8}

section Bounds

variable (mounted : s.Mounted fatBlocks)

include mounted

theorem Fs.Mounted.mapped_lt (mapped : s.fatMapped b = true) :
    b < fatBlocks * s.gBlockSize / 2 ∧ b < 65536 := by
  obtain ⟨_, upper, _⟩ := mounted.blockSize_bounds
  obtain ⟨mapping, pointer, _, bytes⟩ := mounted.mapping
  have product : fatBlocks * s.gBlockSize ≤ 32 * 4096 := Nat.mul_le_mul mounted.count.2 upper
  simp only [Fs.fatMapped, pointer, Bool.and_eq_true, decide_eq_true_eq] at mapped
  omega

theorem Fs.Linked.length_le (linked : s.Linked d nodes) : nodes.length ≤ chainFuel := by
  have below : nodes ⊆ List.range chainFuel :=
    fun b member => List.mem_range.mpr (mounted.mapped_lt (linked.mapped b member)).2
  simpa using (List.subperm_of_subset linked.links.nodup below).length_le

theorem view_setFat {v : Nat} (behind : fatBlocks ≤ b) (bound : b < 65536)
    (mapped : s.fatMapped i = true) : (s.setFat i v).view.slot b = s.view.slot b := by
  funext j
  have same : (s.setFat i v).block b = s.block b :=
    mounted.block_setFat v behind bound (mounted.mapped_lt mapped).1
  simp only [view, same]

theorem view_putBlock_ne (buf : Buffer) (apart : c ≠ b) (bound : b < 65536) (bound' : c < 65536) :
    (s.putBlock b buf).view.slot c = s.view.slot c := by
  funext j
  have same : (s.putBlock b buf).block c = s.block c := mounted.block_putBlock_ne buf apart bound bound'
  simp only [view, same]

/-- Writing one entry changes one slot. -/
theorem view_putDirent (bound : p.1 < 65536) (bound' : b < 65536) (inside : i < s.view.slots) :
    (s.putDirent p e).view.slot b i = (s.view.setSlot p e).slot b i := by
  by_cases here : b = p.1
  · subst here
    have row := putBlock_rows s p.1 (setDirentAt (s.block p.1) p.2 e) (mounted.slot_inside inside)
    rw [direntAt_setDirentAt] at row
    simp only [Image.setSlot, Image.setRow_self, Function.update_apply]
    exact row
  · rw [Image.setSlot, Image.setRow_ne _ _ here, Fs.putDirent, view_putBlock_ne mounted _ here bound bound']

end Bounds

section Adding

variable (dir : DirChain s fatBlocks d nodes)

include dir

theorem DirChain.bound (member : b ∈ nodes) : b < 65536 :=
  (dir.mounted.mapped_lt (dir.linked.mapped b member)).2

theorem DirChain.findEntryInDir (name : List UInt8) :
    findEntryInDir d name s =
      some (.ok (match s.view.find name nodes with
        | none => { ResolvedPath.zero with parentDirBlock := d }
        | some p => s.view.foundAt d p), s) :=
  findEntryInDir_linked dir.mounted dir.linked dir.more (dir.linked.length_le dir.mounted) name

/-- An entry in a free slot, with only taken slots in front of it in its block. -/
theorem DirChain.putDirent (spot : FirstFree s nodes p) (live : e.live = true) :
    DirChain (s.putDirent p e) fatBlocks d nodes where
  mounted := dir.mounted.of_eq rfl rfl rfl rfl rfl rfl rfl rfl
  data := dir.data
  linked :=
    { links := dir.linked.links.congr fun b member => by
        have same : (s.putDirent p e).fat b = s.fat b :=
          dir.mounted.fat_putBlock _ (dir.behind p.1 spot.block) (dir.bound spot.block)
            (dir.mounted.mapped_lt (dir.linked.mapped b member)).1
        simp only [nextBlock, same]
      used := dir.linked.used
      mapped := dir.linked.mapped
      stored := fun b member => le_trans (dir.linked.stored b member) (Nat.le_max_left _ _) }
  more := dir.more
  behind := dir.behind
  ordered b member i j less inside ends := by
    rw [view_putDirent dir.mounted (dir.bound spot.block) (dir.bound member) inside]
    rw [view_putDirent dir.mounted (dir.bound spot.block) (dir.bound member) (lt_trans less inside)] at ends
    have old : (b, i) ≠ p := by
      rintro rfl
      rw [s.view.setSlot_self (b, i) e] at ends
      exact (DirEntry.live_iff.mp live).1 ends
    rw [s.view.setSlot_ne (q := (b, i)) e old] at ends
    by_cases here : (b, j) = p
    · subst here
      exact absurd ends (DirEntry.name0_of_not_reusable (spot.first i less))
    · rw [s.view.setSlot_ne (q := (b, j)) e here]
      exact dir.ordered b member i j less inside ends

end Adding

section Growing

theorem firstFree_some (mounted : s.Mounted fatBlocks) (found : s.firstFree = some b) :
    2 ≤ b ∧ b < fatBlocks * s.gBlockSize / 2 ∧ s.fat b = fatFree := by
  have reserved : s.gSuperblock.dataStartBlock = 2 := by rw [mounted.superblock]
  have total := totalEntries_mounted mounted
  obtain ⟨low, high, test, _⟩ := Search.firstFrom_some found
  exact ⟨by omega, by omega, by simpa using test⟩

/-- No block behind the reserved ones is free. -/
def Fs.FatFull (s : Fs) : Prop :=
  ∀ b, s.gSuperblock.dataStartBlock ≤ b → b < totalEntries s → s.fat b ≠ fatFree

theorem firstFree_none (mounted : s.Mounted fatBlocks) : s.firstFree = none ↔ s.FatFull := by
  have reserved : s.gSuperblock.dataStartBlock = 2 := by rw [mounted.superblock]
  have total := totalEntries_mounted mounted
  have some_ := mounted.count.1
  have bounds := mounted.blockSize_bounds
  have room : 256 ≤ fatBlocks * s.gBlockSize := le_trans bounds.1 (Nat.le_mul_of_pos_left _ some_)
  rw [firstFree, Search.firstFrom_none]
  constructor
  · intro all b low high free
    have test := all b low (by omega)
    simp [free] at test
  · intro all b low high
    simpa using all b low (by omega)

theorem Fs.grown_fat (bound : b < 65536) (mounted : s.Mounted fatBlocks) (behind : fatBlocks ≤ b)
    (mapped : s.fatMapped c = true) :
    (s.grown last b).fat c = if c = last then b else if c = b then fatEoc else s.fat c := by
  have mounted' : ((s.setFat b fatEoc).setFat last b).Mounted fatBlocks :=
    mounted.of_eq rfl rfl rfl rfl rfl rfl rfl rfl
  have kept : (s.grown last b).fat c = ((s.setFat b fatEoc).setFat last b).fat c :=
    mounted'.fat_putBlock zeroBuffer behind bound (mounted.mapped_lt mapped).1
  rw [kept, fat_setFat _ bound, fat_setFat s (by decide)]

variable (dir : DirChain s fatBlocks d nodes)

include dir

theorem DirChain.not_mem (free : s.fat b = fatFree) : b ∉ nodes := by
  intro member
  have link : nextBlock s.fat b = some fatFree := by
    rw [nextBlock, free]
    rfl
  exact dir.linked.used fatFree (dir.linked.links.closed member link) rfl

/-- The free block is one behind the FAT that the FAT can link to. -/
theorem DirChain.newBlock (found : s.firstFree = some b) :
    fatBlocks ≤ b ∧ b < fatEoc ∧ s.fatMapped b = true ∧ b ∉ nodes := by
  obtain ⟨low, high, free⟩ := firstFree_some dir.mounted found
  have reserved : s.gSuperblock.dataStartBlock = 2 := by rw [dir.mounted.superblock]
  have data := dir.data
  obtain ⟨_, upper, _⟩ := dir.mounted.blockSize_bounds
  have product : fatBlocks * s.gBlockSize ≤ 2 * 4096 := Nat.mul_le_mul (by omega) upper
  exact ⟨by omega, by simp only [fatEoc]; omega, dir.mounted.fatMapped high, dir.not_mem free⟩

/-- The chain with a new last block. -/
theorem DirChain.grown_links (shape : nodes = front ++ [last]) (found : s.firstFree = some b) :
    Links (nextBlock (s.grown last b).fat) (linkOf d) (nodes ++ [b]) := by
  obtain ⟨behind, small, mapped, fresh⟩ := dir.newBlock found
  have bound : b < 65536 := by
    simp only [fatEoc] at small
    omega
  have framed : Links (Function.update (nextBlock s.fat) b none) (linkOf d) (front ++ [last]) :=
    shape ▸ dir.linked.links.frame fresh
  have pushed := framed.push (shape ▸ fresh) (Function.update_self _ _ _)
  rw [shape, List.append_assoc]
  refine pushed.congr fun c member => ?_
  have mapped' : s.fatMapped c = true := by
    rcases List.mem_append.mp member with old | old
    · exact dir.linked.mapped c (shape ▸ List.mem_append_left _ old)
    · rcases List.mem_cons.mp old with rfl | new
      · exact dir.linked.mapped c (shape ▸ by simp)
      · exact List.mem_singleton.mp new ▸ mapped
  simp only [nextBlock, s.grown_fat bound dir.mounted behind mapped', Function.update_apply]
  split
  · exact linkOf_of_ne (Nat.ne_of_lt small)
  · split <;> rfl

theorem DirChain.grown_row (found : s.firstFree = some b) (inLast : last ∈ nodes) (member : c ∈ nodes) :
    (s.grown last b).view.slot c = s.view.slot c := by
  obtain ⟨_, small, mapped, fresh⟩ := dir.newBlock found
  have bound : b < 65536 := by
    simp only [fatEoc] at small
    omega
  have apart : c ≠ b := by
    rintro rfl
    exact fresh member
  have behind := dir.behind c member
  have bound' := dir.bound member
  have mounted' : (s.setFat b fatEoc).Mounted fatBlocks :=
    dir.mounted.of_eq rfl rfl rfl rfl rfl rfl rfl rfl
  have mounted'' : ((s.setFat b fatEoc).setFat last b).Mounted fatBlocks :=
    dir.mounted.of_eq rfl rfl rfl rfl rfl rfl rfl rfl
  calc (s.grown last b).view.slot c
      = ((s.setFat b fatEoc).setFat last b).view.slot c :=
        view_putBlock_ne mounted'' zeroBuffer apart bound bound'
    _ = (s.setFat b fatEoc).view.slot c :=
        view_setFat mounted' behind bound' (dir.linked.mapped last inLast)
    _ = s.view.slot c := view_setFat dir.mounted behind bound' mapped

omit dir in
theorem Fs.grown_new (mounted : s.Mounted fatBlocks) (inside : i < s.view.slots) :
    (s.grown last b).view.slot b i = .zero := by
  have cleared := putBlock_rows ((s.setFat b fatEoc).setFat last b) b zeroBuffer
    (mounted.slot_inside inside)
  rw [direntAt_zeroBuffer] at cleared
  exact cleared

theorem DirChain.grown (shape : nodes = front ++ [last]) (found : s.firstFree = some b) :
    DirChain (s.grown last b) fatBlocks d (nodes ++ [b]) where
  mounted := dir.mounted.of_eq rfl rfl rfl rfl rfl rfl rfl rfl
  data := dir.data
  linked :=
    { links := dir.grown_links shape found
      used := by
        obtain ⟨low, _, _⟩ := firstFree_some dir.mounted found
        intro c member
        rcases List.mem_append.mp member with old | new
        · exact dir.linked.used c old
        · rw [List.mem_singleton.mp new, fatFree]
          omega
      mapped := by
        intro c member
        rcases List.mem_append.mp member with old | new
        · exact dir.linked.mapped c old
        · rw [List.mem_singleton.mp new]
          exact (dir.newBlock found).2.2.1
      stored := by
        intro c member
        rcases List.mem_append.mp member with old | new
        · exact le_trans (dir.linked.stored c old) (Nat.le_max_left _ _)
        · rw [List.mem_singleton.mp new]
          exact Nat.le_max_right _ _ }
  more := by simp
  behind := by
    intro c member
    rcases List.mem_append.mp member with old | new
    · exact dir.behind c old
    · rw [List.mem_singleton.mp new]
      exact (dir.newBlock found).1
  ordered := by
    intro c member i j less inside ends
    rcases List.mem_append.mp member with old | new
    · rw [dir.grown_row found (shape ▸ by simp) old] at ends ⊢
      exact dir.ordered c old i j less inside ends
    · rw [List.mem_singleton.mp new, s.grown_new dir.mounted inside]
      rfl

/-- An empty block changes no search. -/
theorem DirChain.find_grown (shape : nodes = front ++ [last]) (found : s.firstFree = some b) :
    (s.grown last b).view.find name (nodes ++ [b]) = s.view.find name nodes := by
  have old : (s.grown last b).view.find name nodes = s.view.find name nodes :=
    find_congr rfl fun c member i _ => congrFun (dir.grown_row found (shape ▸ by simp) member) i
  have new : (s.grown last b).view.find name [b] = none := by
    have dead : scanRow ((s.grown last b).view.slot b) name (s.grown last b).view.slots 0 = none :=
      scanRow_dead fun i _ inside => by
        have less : i < s.view.slots := by
          rw [Nat.zero_add] at inside
          exact inside
        rw [s.grown_new dir.mounted less]
        rfl
    simp only [Image.find, dead]
  rw [find_append, old, new, Option.or_none]

theorem DirChain.growDir (shape : nodes = front ++ [last]) :
    growDir d s =
      match s.firstFree with
      | none => some (.error .nospace, s)
      | some b => some (.ok b, s.grown last b) := by
  have taken := allocateFreeBlock_mounted dir.mounted
  rw [PennOs.Fat.growDir]
  cases found : s.firstFree with
  | none =>
      rw [found] at taken
      rw [Prog.bind_of_run taken]
      rfl
  | some b =>
      rw [found] at taken
      obtain ⟨behind, small, mapped, fresh⟩ := dir.newBlock found
      have start : linkOf d = some d := linkOf_of_ne fun eoc => dir.linked.first_used dir.more (.inr eoc)
      have links : Links (nextBlock (s.setFat b fatEoc).fat) (some d) (front ++ [last]) := by
        rw [nextBlock_setFat s (by decide), ← shape, ← start]
        exact dir.linked.links.frame fresh
      have short := dir.linked.length_le dir.mounted
      rw [shape, List.length_append, List.length_singleton] at short
      have lastRun := @lastInChain_run _ _ _ _ links
        (fun c member => dir.linked.mapped c (shape ▸ member)) (chainFuel + 1) (by omega)
      have mounted' : ((s.setFat b fatEoc).setFat last b).Mounted fatBlocks :=
        dir.mounted.of_eq rfl rfl rfl rfl rfl rfl rfl rfl
      have inLast : (s.setFat b fatEoc).fatMapped last = true :=
        dir.linked.mapped last (shape ▸ by simp)
      rw [Prog.bind_of_run taken]
      simp only
      rw [Prog.bind_of_run lastRun, Prog.bind_of_run (fatSet_mapped _ inLast),
        Prog.bind_of_run (writeBlock_run mounted' _ _)]
      rfl

end Growing

section Inserting

/-- A search for the name gives the entry `e`. -/
def Finds (s : Fs) (d : Nat) (name : List UInt8) (e : DirEntry) : Prop :=
  ∃ r, findEntryInDir d name s = some (.ok r, s) ∧ r.found = true ∧ r.entry = e

/-- A search for the name gives the same in both states. -/
def FindsSame (s t : Fs) (d : Nat) (name : List UInt8) : Prop :=
  ∃ r, findEntryInDir d name s = some (.ok r, s) ∧ findEntryInDir d name t = some (.ok r, t)

variable (dir : DirChain s fatBlocks d nodes)

include dir

theorem DirChain.putEntry (member : p.1 ∈ nodes) (e : DirEntry) :
    putEntry p.1 p.2 e s = some (.ok, s.putDirent p e) := by
  rw [PennOs.Fat.putEntry, Prog.bind_of_run (readBlock_stored dir.mounted (dir.linked.stored p.1 member))]
  simp only
  rw [Prog.bind_of_run (writeBlock_run dir.mounted _ _)]
  rfl

/-- The searches after the directory grew. -/
theorem DirChain.finds_grown (shape : nodes = front ++ [last]) (found : s.firstFree = some b)
    (name : List UInt8) : FindsSame s (s.grown last b) d name := by
  have after := (dir.grown shape found).findEntryInDir name
  rw [dir.find_grown shape found] at after
  refine ⟨_, dir.findEntryInDir name, ?_⟩
  rw [after]
  cases hit : s.view.find name nodes with
  | none => rfl
  | some q =>
      obtain ⟨member, _⟩ := find_some hit
      have slot := congrFun (dir.grown_row found (shape ▸ by simp : last ∈ nodes) member) q.2
      simp only [Image.foundAt, slot]

end Inserting

section Witness

end Witness

end PennOs.Fat
