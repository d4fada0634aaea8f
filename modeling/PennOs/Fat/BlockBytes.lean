import PennOs.Fat.DirentBytes

set_option autoImplicit false

/- Where FAT entries and blocks lie in the image, and which writes reach them. -/
namespace PennOs.Fat

namespace Fs

/-- A volume with `fatBlocks` FAT blocks is mounted and the host carries out every call. -/
structure Mounted (s : Fs) (fatBlocks : Nat) : Prop where
  flag : s.gMounted = true
  blockSize : ∃ config < 5, s.gBlockSize = blockSizes config
  descriptor : s.fdOpen = true
  superblock : s.gSuperblock = ⟨fatBlocks, 2⟩
  mapping : ∃ mapping, s.gFat = some mapping ∧ mapping ∈ s.mappings ∧
    mapping.bytes = fatBlocks * s.gBlockSize
  count : 1 ≤ fatBlocks ∧ fatBlocks ≤ 32
  host : s.host = []

@[simp] theorem putBytes_gBlockSize (s : Fs) (start len : Nat) (buf : Buffer) :
    (s.putBytes start len buf).gBlockSize = s.gBlockSize := rfl

@[simp] theorem putBlock_gBlockSize (s : Fs) (b : Nat) (buf : Buffer) :
    (s.putBlock b buf).gBlockSize = s.gBlockSize := rfl

@[simp] theorem setFat_gBlockSize (s : Fs) (i v : Nat) :
    (s.setFat i v).gBlockSize = s.gBlockSize := rfl

theorem fat_congr {s t : Fs} {i : Nat} (low : s.file (2 * i) = t.file (2 * i))
    (high : s.file (2 * i + 1) = t.file (2 * i + 1)) : s.fat i = t.fat i := by
  apply LittleEndian.value_congr
  intro j bound
  have cases : j = 0 ∨ j = 1 := by omega
  rcases cases with rfl | rfl
  · exact low
  · exact high

theorem fat_lt (s : Fs) (i : Nat) : s.fat i < 65536 := LittleEndian.value_lt _ 2

theorem fat_setFat (s : Fs) {i v : Nat} (bound : v < 65536) (j : Nat) :
    (s.setFat i v).fat j = if j = i then v else s.fat j := by
  split
  · next same =>
      subst same
      calc (s.setFat j v).fat j
          = LittleEndian.value (LittleEndian.byte v) 2 := by
            apply LittleEndian.value_congr
            intro k small
            simp only [setFat]
            rw [overlay_inside (by omega) (by omega), Nat.add_sub_cancel_left]
        _ = v := LittleEndian.value_byte_of_lt bound
  · next apart =>
      apply fat_congr
      · exact overlay_outside (by omega)
      · exact overlay_outside (by omega)

theorem fat_putBytes (s : Fs) {start len i : Nat} (buf : Buffer)
    (outside : 2 * i + 2 ≤ start ∨ start + len ≤ 2 * i) :
    (s.putBytes start len buf).fat i = s.fat i := by
  apply fat_congr
  · exact overlay_outside (by omega)
  · exact overlay_outside (by omega)

/-- Two blocks share no byte. -/
theorem block_apart (s : Fs) {b c j : Nat} (apart : b ≠ c)
    (inside : j < s.gBlockSize) :
    c * s.gBlockSize + j < b * s.gBlockSize ∨
      b * s.gBlockSize + s.gBlockSize ≤ c * s.gBlockSize + j := by
  rcases Nat.lt_or_gt_of_ne apart with less | more
  · right
    have step : (b + 1) * s.gBlockSize ≤ c * s.gBlockSize := Nat.mul_le_mul_right _ less
    rw [Nat.succ_mul] at step
    omega
  · left
    have step : (c + 1) * s.gBlockSize ≤ b * s.gBlockSize := Nat.mul_le_mul_right _ more
    rw [Nat.succ_mul] at step
    omega

theorem block_putBlock_self (s : Fs) {b : Nat} (buf : Buffer)
    {j : Nat} (inside : j < s.gBlockSize) : (s.putBlock b buf).block b j = buf j := by
  simp only [block, putBlock_gBlockSize, inside, ↓reduceIte]
  simp only [putBlock, putBytes, blockOffset]
  rw [overlay_inside (by omega) (by omega), Nat.add_sub_cancel_left]

namespace Mounted

variable {s : Fs} {fatBlocks : Nat}

theorem blockSize_bounds (mounted : s.Mounted fatBlocks) :
    256 ≤ s.gBlockSize ∧ s.gBlockSize ≤ 4096 ∧ s.gBlockSize % 256 = 0 := by
  obtain ⟨config, small, size⟩ := mounted.blockSize
  have cases : config = 0 ∨ config = 1 ∨ config = 2 ∨ config = 3 ∨ config = 4 := by omega
  rcases cases with rfl | rfl | rfl | rfl | rfl <;> simp [size, blockSizes]

/-- Block offsets do not wrap. -/
theorem blockOffset_eq (mounted : s.Mounted fatBlocks) {b : Nat} (bound : b < 65536) :
    s.blockOffset b = b * s.gBlockSize := by
  obtain ⟨_, upper, _⟩ := mounted.blockSize_bounds
  have product : b * s.gBlockSize ≤ 65535 * 4096 := Nat.mul_le_mul (by omega) upper
  exact Nat.mod_eq_of_lt (by omega)

theorem fatMapped (mounted : s.Mounted fatBlocks) {i : Nat}
    (inside : i < fatBlocks * s.gBlockSize / 2) : s.fatMapped i = true := by
  obtain ⟨mapping, pointer, live, bytes⟩ := mounted.mapping
  have covers : 2 * i + 2 ≤ mapping.bytes := by omega
  simp [Fs.fatMapped, pointer, live, covers]

theorem entriesPerBlock_pos (mounted : s.Mounted fatBlocks) : 4 ≤ s.entriesPerBlock := by
  have bounds := mounted.blockSize_bounds
  simp only [entriesPerBlock]
  omega

/-- Slots lie inside the block. -/
theorem slot_inside (mounted : s.Mounted fatBlocks) {i : Nat} (inside : i < s.entriesPerBlock) :
    64 * i + 64 ≤ s.gBlockSize := by
  have bounds := mounted.blockSize_bounds
  simp only [entriesPerBlock] at inside
  omega

/-- Writes past the FAT region leave every FAT entry alone. -/
theorem fat_putBlock (mounted : s.Mounted fatBlocks) {b i : Nat} (buf : Buffer)
    (past : fatBlocks ≤ b) (bound : b < 65536) (inside : i < fatBlocks * s.gBlockSize / 2) :
    (s.putBlock b buf).fat i = s.fat i := by
  have start : fatBlocks * s.gBlockSize ≤ b * s.gBlockSize := Nat.mul_le_mul_right _ past
  apply fat_putBytes
  rw [mounted.blockOffset_eq bound]
  omega

theorem block_putBlock_ne (mounted : s.Mounted fatBlocks) {b c : Nat} (buf : Buffer)
    (apart : c ≠ b) (bound : b < 65536) (bound' : c < 65536) :
    (s.putBlock b buf).block c = s.block c := by
  funext j
  by_cases inside : j < s.gBlockSize
  · simp only [block, putBlock_gBlockSize, inside, ↓reduceIte]
    have away := s.block_apart apart.symm inside
    simp only [putBlock, putBytes]
    have offset : (s.putBlock b buf).blockOffset c = c * s.gBlockSize := mounted.blockOffset_eq bound'
    simp only [putBlock, putBytes] at offset
    rw [offset, mounted.blockOffset_eq bound, mounted.blockOffset_eq bound']
    exact overlay_outside away
  · simp only [block, putBlock_gBlockSize, inside, ↓reduceIte]

theorem block_setFat (mounted : s.Mounted fatBlocks) {b i : Nat} (v : Nat)
    (past : fatBlocks ≤ b) (bound : b < 65536) (inside : i < fatBlocks * s.gBlockSize / 2) :
    (s.setFat i v).block b = s.block b := by
  have start : fatBlocks * s.gBlockSize ≤ b * s.gBlockSize := Nat.mul_le_mul_right _ past
  have offset : (s.setFat i v).blockOffset b = b * s.gBlockSize := mounted.blockOffset_eq bound
  funext j
  simp only [block, setFat_gBlockSize, offset, mounted.blockOffset_eq bound]
  split
  · exact overlay_outside (by omega)
  · rfl

end Mounted

/-- The number of FAT entries when one block holds the FAT. -/
def fatEntries (s : Fs) : Nat := s.gBlockSize / 2

/-- A volume with one FAT block is mounted and the image holds all its blocks. -/
structure Ready (s : Fs) : Prop extends s.Mounted 1 where
  size : s.fatEntries * s.gBlockSize ≤ s.fileSize

@[simp] theorem putBlock_fatEntries (s : Fs) (b : Nat) (buf : Buffer) :
    (s.putBlock b buf).fatEntries = s.fatEntries := rfl

@[simp] theorem setFat_fatEntries (s : Fs) (i v : Nat) :
    (s.setFat i v).fatEntries = s.fatEntries := rfl

@[simp] theorem putBlock_entriesPerBlock (s : Fs) (b : Nat) (buf : Buffer) :
    (s.putBlock b buf).entriesPerBlock = s.entriesPerBlock := rfl

@[simp] theorem setFat_entriesPerBlock (s : Fs) (i v : Nat) :
    (s.setFat i v).entriesPerBlock = s.entriesPerBlock := rfl

theorem Mounted.of_eq {s t : Fs} {fatBlocks : Nat} (mounted : s.Mounted fatBlocks)
    (flag : t.gMounted = s.gMounted) (size : t.gBlockSize = s.gBlockSize)
    (fd : t.gFsFd = s.gFsFd) (fds : t.openFds = s.openFds)
    (superblock : t.gSuperblock = s.gSuperblock) (pointer : t.gFat = s.gFat)
    (mappings : t.mappings = s.mappings) (host : t.host = s.host) : t.Mounted fatBlocks where
  flag := flag ▸ mounted.flag
  blockSize := size ▸ mounted.blockSize
  descriptor := by
    have opened := mounted.descriptor
    simp only [fdOpen, fd, fds] at opened ⊢
    exact opened
  superblock := superblock ▸ mounted.superblock
  mapping := by
    rw [pointer, mappings, size]
    exact mounted.mapping
  count := mounted.count
  host := host ▸ mounted.host

namespace Ready

variable {s : Fs}

theorem fatEntries_bounds (ready : s.Ready) :
    128 ≤ s.fatEntries ∧ s.fatEntries ≤ 2048 ∧ s.fatEntries = 1 * s.gBlockSize / 2 := by
  have bounds := ready.blockSize_bounds
  simp only [fatEntries]
  omega

theorem setFat (ready : s.Ready) (i v : Nat) : (s.setFat i v).Ready where
  toMounted := ready.toMounted.of_eq rfl rfl rfl rfl rfl rfl rfl rfl
  size := ready.size

theorem putBlock (ready : s.Ready) (b : Nat) (buf : Buffer) : (s.putBlock b buf).Ready where
  toMounted := ready.toMounted.of_eq rfl rfl rfl rfl rfl rfl rfl rfl
  size := le_trans ready.size (Nat.le_max_left _ _)

theorem block_end (ready : s.Ready) {b : Nat} (bound : b < s.fatEntries) :
    s.blockOffset b + s.gBlockSize ≤ s.fileSize := by
  have entries := ready.fatEntries_bounds
  rw [ready.blockOffset_eq (by omega)]
  calc b * s.gBlockSize + s.gBlockSize
      = (b + 1) * s.gBlockSize := (Nat.succ_mul _ _).symm
    _ ≤ s.fatEntries * s.gBlockSize := Nat.mul_le_mul_right _ bound
    _ ≤ s.fileSize := ready.size

end Ready

end Fs

end PennOs.Fat
