import PennOs.Fat.ChainContents
import PennOs.Fat.Volumes
import PennOs.Fat.ImageRules

set_option autoImplicit false

/- The image a mounted volume shows, and what the block and chain helpers do to it. -/
namespace PennOs.Fat

open LinkedChain (Links)
open Fs

/-- A volume of one FAT block as `k_mkfs` sizes it is mounted. The root directory copy is
still the zeroes `k_mount` read. -/
structure Fs.Volume (s : Fs) : Prop extends s.Ready where
  fits : s.fileSize ≤ s.fatEntries * s.gBlockSize
  super : ∃ config < 5, s.gBlockSize = blockSizes config ∧ s.fat 0 = 256 + config
  rootCopy : ∃ root, s.gRootDir = some root ∧ ∀ j < s.gBlockSize, root.contents j = 0

/-- The volume holds the FAT and the slots of the image. -/
structure Shows (s : Fs) (I : Image) : Prop where
  blocks : I.blocks = s.fatEntries
  slots : I.slots = s.entriesPerBlock
  fat : ∀ b < I.blocks, s.fat b = I.fat b
  slot : ∀ b, 1 ≤ b → b < I.blocks → ∀ i < I.slots, direntAt (s.block b) i = I.slot b i

structure Tracks (s : Fs) (I : Image) : Prop where
  volume : s.Volume
  shows : Shows s I

/-- The state after an entry of a block is written. -/
def Fs.putDirent (s : Fs) (p : Nat × Nat) (e : DirEntry) : Fs :=
  s.putBlock p.1 (setDirentAt (s.block p.1) p.2 e)

variable {s t : Fs} {I J : Image} {b c d h v : Nat} {p : Nat × Nat} {e : DirEntry} {buf : Buffer}

theorem putBlock_rows (s : Fs) (b : Nat) (buf : Buffer) {i : Nat} (inside : 64 * i + 64 ≤ s.gBlockSize) :
    direntAt ((s.putBlock b buf).block b) i = direntAt buf i :=
  direntAt_congr fun _ _ _ => block_putBlock_self s buf (by omega)

/-- Blocks of equal entries have equal bytes. -/
theorem block_eq_of_rows {b b' : Nat} (size : t.gBlockSize = s.gBlockSize) (whole : s.gBlockSize % 64 = 0)
    (rows : ∀ i < s.entriesPerBlock, direntAt (t.block b') i = direntAt (s.block b) i) :
    t.block b' = s.block b := by
  funext j
  by_cases inside : j < s.gBlockSize
  · have slot : j / 64 < s.entriesPerBlock := by
      simp only [entriesPerBlock]
      omega
    have bytes := DirEntry.decode_injective (rows (j / 64) slot) (j % 64) (by omega)
    simpa only [Nat.div_add_mod] using bytes
  · simp only [block, size, inside, ↓reduceIte]

namespace Tracks

variable (tracks : Tracks s I)

include tracks

theorem ready : s.Ready := tracks.volume.toReady

/-- Only the ghost parts of the image change. -/
theorem ghost (blocks : J.blocks = I.blocks) (slots : J.slots = I.slots)
    (fat : ∀ b < I.blocks, J.fat b = I.fat b)
    (slot : ∀ b, 1 ≤ b → b < I.blocks → ∀ i < I.slots, J.slot b i = I.slot b i) : Tracks s J where
  volume := tracks.volume
  shows :=
    { blocks := blocks.trans tracks.shows.blocks
      slots := slots.trans tracks.shows.slots
      fat := fun b inside => by
        rw [fat b (blocks ▸ inside)]
        exact tracks.shows.fat b (blocks ▸ inside)
      slot := fun b low high i inside => by
        rw [slot b low (blocks ▸ high) i (slots ▸ inside)]
        exact tracks.shows.slot b low (blocks ▸ high) i (slots ▸ inside) }

theorem blocks_bounds : 128 ≤ I.blocks ∧ I.blocks ≤ 2048 := by
  rw [tracks.shows.blocks]
  exact ⟨tracks.ready.fatEntries_bounds.1, tracks.ready.fatEntries_bounds.2.1⟩

theorem inside (bound : b < I.blocks) : b < s.fatEntries := tracks.shows.blocks ▸ bound

theorem setFat (low : 1 ≤ b) (high : b < I.blocks) (bound : v < 65536) :
    Tracks (s.setFat b v) { I with fat := Function.update I.fat b v } where
  volume :=
    { toReady := tracks.ready.setFat b v
      fits := tracks.volume.fits
      super := by
        obtain ⟨config, small, size, entry⟩ := tracks.volume.super
        refine ⟨config, small, size, ?_⟩
        rw [fat_setFat s bound, if_neg (by omega)]
        exact entry
      rootCopy := tracks.volume.rootCopy }
  shows :=
    { blocks := tracks.shows.blocks
      slots := tracks.shows.slots
      fat := fun x inside => by
        simp only [fat_setFat s bound, Function.update_apply]
        split
        · rfl
        · exact tracks.shows.fat x inside
      slot := fun x low' high' i inside => by
        have entries := tracks.ready.fatEntries_bounds
        have small := tracks.inside high'
        rw [tracks.ready.block_setFat v low' (by omega) (entries.2.2 ▸ tracks.inside high)]
        exact tracks.shows.slot x low' high' i inside }

theorem slot_inside {i : Nat} (inside : i < I.slots) : 64 * i + 64 ≤ s.gBlockSize :=
  tracks.ready.slot_inside (tracks.shows.slots ▸ inside)

theorem putBlock (low : 1 ≤ b) (high : b < I.blocks) {row : Nat → DirEntry}
    (rows : ∀ i < I.slots, direntAt buf i = row i) :
    Tracks (s.putBlock b buf) (I.setRow b row) where
  volume :=
    { toReady := tracks.ready.putBlock b buf
      fits := by
        have size := tracks.ready.block_end (tracks.inside high)
        have whole : (s.putBlock b buf).fileSize = s.fileSize := Nat.max_eq_left size
        rw [whole]
        exact tracks.volume.fits
      super := by
        obtain ⟨config, small, size, entry⟩ := tracks.volume.super
        refine ⟨config, small, size, ?_⟩
        have entries := tracks.ready.fatEntries_bounds
        have small' := tracks.inside high
        rw [tracks.ready.fat_putBlock buf low (by omega) (by omega)]
        exact entry
      rootCopy := tracks.volume.rootCopy }
  shows :=
    { blocks := tracks.shows.blocks
      slots := tracks.shows.slots
      fat := fun x inside => by
        have entries := tracks.ready.fatEntries_bounds
        have small := tracks.inside high
        have small' := tracks.inside inside
        rw [tracks.ready.fat_putBlock buf low (by omega) (by omega)]
        exact tracks.shows.fat x inside
      slot := fun x low' high' i inside => by
        have entries := tracks.ready.fatEntries_bounds
        have small := tracks.inside high
        have small' := tracks.inside high'
        by_cases same : x = b
        · subst same
          rw [putBlock_rows s x buf (tracks.slot_inside inside), rows i inside, I.setRow_self]
        · rw [tracks.ready.block_putBlock_ne buf same (by omega) (by omega), I.setRow_ne row same]
          exact tracks.shows.slot x low' high' i inside }

theorem putDirent (low : 1 ≤ p.1) (high : p.1 < I.blocks) (e : DirEntry) :
    Tracks (s.putDirent p e) (I.setSlot p e) := by
  apply tracks.putBlock low high
  intro i inside
  rw [direntAt_setDirentAt, Function.update_apply]
  split
  · rfl
  · exact tracks.shows.slot p.1 low high i inside

/-- The image is the bytes of the file. -/
theorem transfer (mounted : t.Mounted 1) (file : t.file = s.file) (fileSize : t.fileSize = s.fileSize)
    (size : t.gBlockSize = s.gBlockSize)
    (root : ∃ root, t.gRootDir = some root ∧ ∀ j < s.gBlockSize, root.contents j = 0) : Tracks t I := by
  have fat : t.fat = s.fat := by
    funext i
    simp only [Fs.fat, file]
  have block : t.block = s.block := by
    funext i j
    simp only [Fs.block, Fs.blockOffset, file, size]
  have entries : t.fatEntries = s.fatEntries := by simp only [fatEntries, size]
  have perBlock : t.entriesPerBlock = s.entriesPerBlock := by simp only [entriesPerBlock, size]
  exact
    { volume :=
        { toMounted := mounted
          size := by
            rw [entries, size, fileSize]
            exact tracks.ready.size
          fits := by
            rw [entries, size, fileSize]
            exact tracks.volume.fits
          super := by
            rw [size, fat]
            exact tracks.volume.super
          rootCopy := by
            rw [size]
            exact root }
      shows :=
        { blocks := entries ▸ tracks.shows.blocks
          slots := perBlock ▸ tracks.shows.slots
          fat := fat ▸ tracks.shows.fat
          slot := block ▸ tracks.shows.slot } }

/-- The tables and the current directory are not on the image. -/
theorem of_image (file : t.file = s.file) (fileSize : t.fileSize = s.fileSize)
    (flag : t.gMounted = s.gMounted) (size : t.gBlockSize = s.gBlockSize)
    (fd : t.gFsFd = s.gFsFd) (fds : t.openFds = s.openFds)
    (superblock : t.gSuperblock = s.gSuperblock) (pointer : t.gFat = s.gFat)
    (mappings : t.mappings = s.mappings) (host : t.host = s.host)
    (root : t.gRootDir = s.gRootDir) : Tracks t I :=
  tracks.transfer
    (tracks.ready.toMounted.of_eq flag size fd fds superblock pointer mappings host) file fileSize size
    (root ▸ tracks.volume.rootCopy)

theorem setFd (fd : Nat) (entry : FdEntry) : Tracks (s.setFd fd entry) I :=
  tracks.of_image rfl rfl rfl rfl rfl rfl rfl rfl rfl rfl rfl

theorem setSysfile (index : Nat) (sf : SystemFile) : Tracks (s.setSysfile index sf) I :=
  tracks.of_image rfl rfl rfl rfl rfl rfl rfl rfl rfl rfl rfl

theorem setCwd (block : Nat) : Tracks { s with gCwdBlock := block } I :=
  tracks.of_image rfl rfl rfl rfl rfl rfl rfl rfl rfl rfl rfl

/-- The chains of the image are chains of the volume. -/
theorem chain (wf : I.Wf) (used : I.chain h ≠ []) : s.Chain h (I.chain h) where
  links := (wf.links used).congr fun x member => by
    simp only [nextBlock, tracks.shows.fat x (wf.inside h x member).2.1]
  inside x member := by
    obtain ⟨low, high, inUse⟩ := wf.inside h x member
    exact ⟨low, tracks.inside high, tracks.shows.fat x high ▸ inUse⟩

end Tracks

section Allocation

/-- `allocate_free_block` finds the volume full or takes a free block. -/
theorem allocate_tracks (tracks : Tracks s I) :
    allocateFreeBlock s = some (none, s) ∨
      ∃ b, 2 ≤ b ∧ b < I.blocks ∧ I.fat b = fatFree ∧
        allocateFreeBlock s = some (some b, s.setFat b fatEoc) ∧
        Tracks (s.setFat b fatEoc) (I.alloc b) := by
  have run := allocateFreeBlock_run tracks.ready
  cases found : s.freeBlock with
  | none =>
      rw [found] at run
      exact .inl run
  | some b =>
      rw [found] at run
      obtain ⟨low, high, free⟩ := freeBlock_some found
      have high' : b < I.blocks := tracks.shows.blocks ▸ high
      have set := tracks.setFat (b := b) (v := fatEoc) (by omega) high' (by decide)
      exact .inr ⟨b, low, high', tracks.shows.fat b high' ▸ free, run,
        set.ghost rfl rfl (fun _ _ => rfl) fun _ _ _ _ _ => rfl⟩

/-- A free block is found whenever there is one. -/
theorem allocate_some (tracks : Tracks s I) (low : 2 ≤ b) (high : b < I.blocks)
    (free : I.fat b = fatFree) :
    ∃ b, 2 ≤ b ∧ b < I.blocks ∧ I.fat b = fatFree ∧
      allocateFreeBlock s = some (some b, s.setFat b fatEoc) ∧
      Tracks (s.setFat b fatEoc) (I.alloc b) := by
  rcases allocate_tracks tracks with full | taken
  · exfalso
    have run := allocateFreeBlock_run tracks.ready
    cases found : s.freeBlock with
    | none =>
        exact freeBlock_none found low (tracks.inside high) (tracks.shows.fat b high ▸ free)
    | some x =>
        rw [full, found] at run
        cases run
  · exact taken

theorem freeAll_tracks (tracks : Tracks s I) (nodes : List Nat)
    (inside : ∀ b ∈ nodes, 1 ≤ b ∧ b < I.blocks) :
    Tracks (s.freeAll nodes)
      { I with fat := fun b => if b ∈ nodes then fatFree else I.fat b } := by
  induction nodes generalizing s I with
  | nil => exact tracks.ghost rfl rfl (fun _ _ => by simp) fun _ _ _ _ _ => rfl
  | cons node rest ih =>
      obtain ⟨low, high⟩ := inside node List.mem_cons_self
      have set := tracks.setFat (v := fatFree) low high (by decide)
      have freed := ih set fun b member => inside b (List.mem_cons_of_mem _ member)
      refine freed.ghost rfl rfl (fun b _ => ?_) fun _ _ _ _ _ => rfl
      simp only [List.mem_cons, Function.update_apply]
      by_cases here : b = node
      · simp [here]
      · simp [here]

theorem freeBlockChain_tracks (tracks : Tracks s I) (wf : I.Wf) (used : I.chain h ≠ []) :
    freeBlockChain h s = some ((), s.freeAll (I.chain h)) ∧
      Tracks (s.freeAll (I.chain h)) (I.free h) := by
  refine ⟨freeBlockChain_run tracks.ready (tracks.chain wf used), ?_⟩
  have freed := freeAll_tracks tracks (I.chain h) fun b member =>
    ⟨(wf.inside h b member).1, (wf.inside h b member).2.1⟩
  exact freed.ghost rfl rfl (fun _ _ => rfl) fun _ _ _ _ _ => rfl

end Allocation

section Entries

theorem notEoc (tracks : Tracks s I) (low : 1 ≤ b) (high : b < I.blocks) :
    ¬ (b = fatFree ∨ b = fatEoc) := by
  have bounds := tracks.blocks_bounds
  simp only [fatFree, fatEoc]
  omega

theorem readDirent_run (tracks : Tracks s I) (low : 1 ≤ b) (high : b < I.blocks) {i : Nat}
    (inside : i < I.slots) : readDirent b i s = some (.ok (I.slot b i), s) := by
  have used := notEoc tracks low high
  have shown := tracks.shows.slots ▸ inside
  have index : ¬ ((i : Int) < 0 ∨ (s.entriesPerBlock : Int) ≤ i) := by omega
  simp only [readDirent, used, ↓reduceIte]
  rw [Prog.bind_of_run (malloc_run tracks.ready.host)]
  simp only [Bool.not_true, Bool.false_eq_true, ↓reduceIte]
  rw [Prog.bind_of_run (readBlock_run tracks.ready (tracks.inside high))]
  simp only [Prog.get_bind, index, ↓reduceIte, Prog.pure_run, Int.toNat_natCast]
  rw [tracks.shows.slot b low high i inside]

/-- Whatever block and index are asked for, reading an entry changes nothing. -/
theorem readDirent_result (tracks : Tracks s I) (b i : Nat) (bound : b < 65536) :
    (∃ err, readDirent b i s = some (.error err, s)) ∨
      (1 ≤ b ∧ b < I.blocks ∧ i < I.slots ∧ readDirent b i s = some (.ok (I.slot b i), s)) := by
  by_cases used : b = fatFree ∨ b = fatEoc
  · exact .inl ⟨.invad, by simp only [readDirent, used, ↓reduceIte, Prog.pure_run]⟩
  have low : 1 ≤ b := by
    simp only [fatFree] at used
    omega
  by_cases high : b < I.blocks
  · by_cases inside : i < I.slots
    · exact .inr ⟨low, high, inside, readDirent_run tracks low high inside⟩
    · left
      refine ⟨.invad, ?_⟩
      have shown : s.entriesPerBlock ≤ i := by
        rw [← tracks.shows.slots]
        omega
      have index : (i : Int) < 0 ∨ (s.entriesPerBlock : Int) ≤ i := by omega
      simp only [readDirent, used, ↓reduceIte]
      rw [Prog.bind_of_run (malloc_run tracks.ready.host)]
      simp only [Bool.not_true, Bool.false_eq_true, ↓reduceIte]
      rw [Prog.bind_of_run (readBlock_run tracks.ready (tracks.inside high))]
      simp only [Prog.get_bind, index, ↓reduceIte, Prog.pure_run]
  · left
    refine ⟨.io, ?_⟩
    have past : s.fatEntries ≤ b := by
      rw [← tracks.shows.blocks]
      omega
    simp only [readDirent, used, ↓reduceIte]
    rw [Prog.bind_of_run (malloc_run tracks.ready.host), Bool.not_true]
    simp only [Bool.false_eq_true, ↓reduceIte]
    rw [Prog.bind_of_run (readBlock_past tracks.ready tracks.volume.fits past bound)]
    rfl

theorem writeDirent_run (tracks : Tracks s I) (low : 1 ≤ p.1) (high : p.1 < I.blocks)
    (inside : p.2 < I.slots) (e : DirEntry) :
    writeDirent p.1 p.2 e s = some (.ok, s.putDirent p e) := by
  have used := notEoc tracks low high
  have shown := tracks.shows.slots ▸ inside
  have index : ¬ ((p.2 : Int) < 0 ∨ (s.entriesPerBlock : Int) ≤ p.2) := by omega
  simp only [writeDirent, used, ↓reduceIte]
  rw [Prog.bind_of_run (malloc_run tracks.ready.host)]
  simp only [Bool.not_true, Bool.false_eq_true, ↓reduceIte]
  rw [Prog.bind_of_run (readBlock_run tracks.ready (tracks.inside high))]
  simp only [Prog.get_bind, index, ↓reduceIte, Int.toNat_natCast]
  rw [Prog.bind_of_run (writeBlock_run tracks.ready.toMounted _ _)]
  rfl

/-- The index -1 of directories that were not looked up is refused. -/
theorem writeDirent_negative (tracks : Tracks s I) (low : 1 ≤ b) (high : b < I.blocks)
    (e : DirEntry) : writeDirent b (-1) e s = some (.invad, s) := by
  have used := notEoc tracks low high
  simp only [writeDirent, used, ↓reduceIte]
  rw [Prog.bind_of_run (malloc_run tracks.ready.host)]
  simp only [Bool.not_true, Bool.false_eq_true, ↓reduceIte]
  rw [Prog.bind_of_run (readBlock_run tracks.ready (tracks.inside high))]
  simp

end Entries

end PennOs.Fat
