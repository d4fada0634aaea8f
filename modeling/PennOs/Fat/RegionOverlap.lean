import PennOs.Fat.MountRuns

set_option autoImplicit false

/- Block writes against the FAT region, for every geometry `k_mount` accepts. -/
namespace PennOs.Fat

open Fs

variable {s t : Fs} {fatBlocks : Nat}

theorem allocateScan_bounds {count index b : Nat}
    (run : allocateScan count index s = some (some b, t)) : index ≤ b ∧ b < index + count := by
  induction count generalizing index s with
  | zero => simp [allocateScan] at run
  | succ count ih =>
      obtain ⟨entry, s', _, rest⟩ := Prog.bind_inv run
      by_cases free : entry = fatFree
      · simp only [free, ↓reduceIte] at rest
        obtain ⟨_, s'', _, last⟩ := Prog.bind_inv rest
        simp only [Prog.pure_run, Option.some.injEq, Prod.mk.injEq] at last
        omega
      · simp only [free, ↓reduceIte] at rest
        have bounds := ih rest
        omega

theorem allocateFreeBlock_bounds {b : Nat} (mounted : s.Mounted fatBlocks)
    (run : allocateFreeBlock s = some (some b, t)) :
    2 ≤ b ∧ b < fatBlocks * s.gBlockSize / 2 := by
  simp only [allocateFreeBlock, Prog.get_bind, mounted.superblock] at run
  have bounds := allocateScan_bounds run
  have total : totalEntries s ≤ fatBlocks * s.gBlockSize / 2 := by
    simp only [totalEntries, mounted.superblock]
    exact Nat.div_le_div_right (Nat.mod_le _ _)
  omega

/-- A block write changes no FAT entry exactly when the block lies past the FAT region or
already holds these bytes. -/
theorem putBlock_fat_iff (mounted : s.Mounted fatBlocks) {b : Nat} (bound : b < 65536)
    (buf : Buffer) :
    (∀ i < fatBlocks * s.gBlockSize / 2, (s.putBlock b buf).fat i = s.fat i) ↔
      fatBlocks ≤ b ∨ ∀ j < s.gBlockSize, buf j = s.file (b * s.gBlockSize + j) := by
  have offset := mounted.blockOffset_eq bound
  have sizes := mounted.blockSize_bounds
  constructor
  · intro same
    rcases Nat.lt_or_ge b fatBlocks with inside | past
    · right
      intro j small
      have row : (b + 1) * s.gBlockSize ≤ fatBlocks * s.gBlockSize :=
        Nat.mul_le_mul_right _ inside
      rw [Nat.succ_mul] at row
      have parity : (b * s.gBlockSize) % 2 = 0 := by
        rw [Nat.mul_mod, show s.gBlockSize % 2 = 0 by omega]
        simp
      have entry := same ((b * s.gBlockSize + j) / 2) (by omega)
      have byte := LittleEndian.value_injective entry ((b * s.gBlockSize + j) % 2)
        (Nat.mod_lt _ (by decide))
      simp only [Nat.div_add_mod, putBlock, putBytes, offset] at byte
      rw [overlay_inside (by omega) (by omega), Nat.add_sub_cancel_left] at byte
      exact byte
    · exact .inl past
  · rintro (past | held) i inside
    · exact mounted.fat_putBlock buf past bound inside
    · apply LittleEndian.value_congr
      intro k _
      simp only [putBlock, putBytes, offset]
      by_cases reached : b * s.gBlockSize ≤ 2 * i + k ∧
          2 * i + k < b * s.gBlockSize + s.gBlockSize
      · rw [overlay_inside reached.1 reached.2, held _ (by omega)]
        congr 1
        omega
      · exact overlay_outside (by omega)

/-- The block `b` is written and every FAT entry keeps its value. -/
def KeepsFat (s : Fs) (b : Nat) (buf : Buffer) : Prop :=
  Prog.Ensures (writeBlock buf b) s fun ok t => ok = true ∧
    ∀ i < s.gSuperblock.fatBlockCount * s.gBlockSize / 2, t.fat i = s.fat i

/-- Any contents the mounted image `t` may come to hold. -/
def withContents (t : Fs) (contents : Nat → UInt8) : Fs := { t with file := contents }

/-- The blocks the kernel keeps directories and files in. -/
def UsedBlock (s : Fs) (b : Nat) : Prop := b = 1 ∨ ∃ t, allocateFreeBlock s = some (some b, t)

theorem withContents_mounted (mounted : t.Mounted fatBlocks) (contents : Nat → UInt8) :
    (withContents t contents).Mounted fatBlocks :=
  mounted.of_eq rfl rfl rfl rfl rfl rfl rfl rfl

theorem UsedBlock.bound {b : Nat} (used : UsedBlock s b) (mounted : s.Mounted fatBlocks) :
    1 ≤ b ∧ b < 65536 := by
  rcases used with rfl | ⟨t, run⟩
  · omega
  · have bounds := allocateFreeBlock_bounds mounted run
    obtain ⟨_, upper, _⟩ := mounted.blockSize_bounds
    have region := Nat.mul_le_mul mounted.count.2 upper
    omega

/-- On a mounted volume a block write keeps the FAT exactly when the block number is at
least the number of FAT blocks or the bytes written are already in place. -/
theorem keepsFat_iff (s t : Fs) (fsName : List UInt8) (contents : Nat → UInt8) (b : Nat) (buf : Buffer)
    (host : s.host = []) (mount : kMount fsName s = some (.ok, t))
    (used : UsedBlock (withContents t contents) b) :
    KeepsFat (withContents t contents) b buf ↔
      t.gSuperblock.fatBlockCount ≤ b ∨
        ∀ j < t.gBlockSize, buf j = contents (b * t.gBlockSize + j) := by
  obtain ⟨_, config, fatBlocks, formatted, rfl⟩ := kMount_inv host mount
  have mounted := withContents_mounted (mountAs_mounted (s := s.useImage fsName) host formatted) contents
  have bound := used.bound mounted
  rw [KeepsFat, Prog.ensures_iff_of_run (writeBlock_run mounted buf b)]
  simp only [true_and]
  exact putBlock_fat_iff mounted bound.2 buf

/-- The image "A" that `k_mkfs` makes with two FAT blocks of 256 bytes. -/
def twoFatBlocks : Fs := ((kMkfs [65] 2 0 Fs.initial).map Prod.snd).getD Fs.initial

theorem twoFatBlocks_formatted : (twoFatBlocks.useImage [65]).Formatted 0 2 where
  config_eq := by decide +kernel
  config_lt := by decide
  fatBlocks_eq := by decide +kernel
  fatBlocks_bounds := by decide
  rootInside := by decide +kernel

theorem twoFatBlocks_mount :
    kMount [65] twoFatBlocks = some (.ok, (twoFatBlocks.useImage [65]).mountAs 0 2) :=
  kMount_run (by decide +kernel) (by decide +kernel) (by decide +kernel) twoFatBlocks_formatted

/-- The root directory of an image with two FAT blocks lies in the FAT region. -/
theorem rootWrite_changes_fat :
    ¬ ∀ (s t : Fs) (fsName : List UInt8) (contents : Nat → UInt8) (b : Nat) (buf : Buffer),
      s.host = [] → kMount fsName s = some (.ok, t) → UsedBlock (withContents t contents) b →
      KeepsFat (withContents t contents) b buf := by
  intro safe
  have keeps := safe twoFatBlocks _ [65] twoFatBlocks.file 1 (fun _ => 1) (by decide +kernel)
    twoFatBlocks_mount (.inl rfl)
  have mounted : ((twoFatBlocks.useImage [65]).mountAs 0 2).Mounted 2 :=
    mountAs_mounted (by decide +kernel) twoFatBlocks_formatted
  have same := (Prog.Ensures.of_eq keeps
    (writeBlock_run (withContents_mounted mounted _) _ _)).2 128 (by decide +kernel)
  exact absurd same (by decide +kernel)

theorem keepsFat_iff_root_block :
    KeepsFat (withContents ((twoFatBlocks.useImage [65]).mountAs 0 2) twoFatBlocks.file) 1 (fun _ => 1) ↔
      2 ≤ 1 ∨ ∀ j < 256, (1 : UInt8) = twoFatBlocks.file (1 * 256 + j) :=
  keepsFat_iff twoFatBlocks _ [65] twoFatBlocks.file 1 (fun _ => 1) (by decide +kernel)
    twoFatBlocks_mount (.inl rfl)

end PennOs.Fat
