import PennOs.Fat.Volumes
import PennOs.Fat.BlockRuns

set_option autoImplicit false

/- What mounting leaves behind when the host carries out every call. -/
namespace PennOs.Fat

namespace Fs

/-- The root directory copy `k_mount` reads. -/
def rootCopy (s : Fs) (config fatBlocks : Nat) : Buffer :=
  fun j => if j < blockSizes config then s.file (fatBlocks * blockSizes config + j) else 0

/-- The mapping of the FAT that `k_mount` makes. -/
def fatMapping (s : Fs) (config fatBlocks : Nat) : Mapping :=
  ⟨s.nextHandle + 1, fatBlocks * blockSizes config⟩

/-- The state of `k_mount` once the FAT is mapped. -/
def mapAs (s : Fs) (config fatBlocks : Nat) : Fs :=
  { s with
    openFds := s.nextHandle :: s.openFds
    mappings := s.fatMapping config fatBlocks :: s.mappings
    nextHandle := s.nextHandle + 2
    gFsFd := some s.nextHandle
    gBlockSize := blockSizes config
    gFat := some (s.fatMapping config fatBlocks) }

/-- The state after a successful `k_mount`. -/
def mountAs (s : Fs) (config fatBlocks : Nat) : Fs :=
  { s.mapAs config fatBlocks with
    buffers := (s.nextHandle + 2) :: s.buffers
    nextHandle := s.nextHandle + 3
    gMounted := true
    gRootDir := some ⟨s.nextHandle + 2, s.rootCopy config fatBlocks⟩
    gSuperblock := ⟨fatBlocks, 2⟩
    gSysfileTable := fun _ => .zero
    gFdTable := fun _ => .zero }

/-- The image holds a FAT and a root directory of these sizes. -/
structure Formatted (s : Fs) (config fatBlocks : Nat) : Prop where
  config_eq : (s.file 0).toNat = config
  config_lt : config < 5
  fatBlocks_eq : (s.file 1).toNat = fatBlocks
  fatBlocks_bounds : 1 ≤ fatBlocks ∧ fatBlocks ≤ 32
  rootInside : fatBlocks * blockSizes config + blockSizes config ≤ s.fileSize

theorem blockSizes_ge (config : Nat) : 256 ≤ blockSizes config := by
  have power := Nat.one_le_two_pow (n := config)
  simp only [blockSizes]
  omega

end Fs

open Fs

variable {s t : Fs} {config fatBlocks : Nat} {create : Bool} {fsName : List UInt8}

theorem hostOpen_run (host : s.host = []) (opens : s.opens create fsName = true) :
    hostOpen create fsName s = some (some s.nextHandle, (s.useImage fsName).openImage.1) := by
  rw [hostOpen, Prog.bind_of_run (hostOk_run host)]
  simp only [↓reduceIte, Prog.get_bind, opens]
  rfl

theorem hostOpen_missing (host : s.host = []) (opens : s.opens create fsName = false) :
    hostOpen create fsName s = some (none, s) := by
  rw [hostOpen, Prog.bind_of_run (hostOk_run host)]
  simp only [↓reduceIte, Prog.get_bind, opens, Bool.false_eq_true, Prog.pure_run]

theorem hostMmap_run (host : s.host = []) (bytes : Nat) :
    hostMmap bytes s = some (some ⟨s.nextHandle, bytes⟩,
      { s with mappings := ⟨s.nextHandle, bytes⟩ :: s.mappings, nextHandle := s.nextHandle + 1 }) := by
  rw [hostMmap, Prog.bind_of_run (hostOk_run host)]
  rfl

theorem mallocRoot_run (host : s.host = []) :
    mallocRoot s = some (some s.nextHandle,
      { s with buffers := s.nextHandle :: s.buffers, nextHandle := s.nextHandle + 1 }) := by
  rw [mallocRoot, Prog.bind_of_run (malloc_run host)]
  rfl

theorem hostRead_run (host : s.host = []) {start len : Nat} (inside : start + len ≤ s.fileSize) :
    hostRead start len s =
      some (some fun j => if j < len then s.file (start + j) else 0, s) := by
  rw [hostRead, Prog.bind_of_run (hostOk_run host)]
  simp only [↓reduceIte, Prog.get_bind, inside, Prog.pure_run]

theorem hostRead_short (host : s.host = []) {start len : Nat}
    (short : ¬ start + len ≤ s.fileSize) : hostRead start len s = some (none, s) := by
  rw [hostRead, Prog.bind_of_run (hostOk_run host)]
  simp only [↓reduceIte, Prog.get_bind, short, Prog.pure_run]

theorem hostWrite_run (host : s.host = []) (start len : Nat) (buf : Buffer) :
    hostWrite start len buf s = some (true, s.putBytes start len buf) := by
  rw [hostWrite, Prog.bind_of_run (hostCall_run host)]
  rfl

theorem hostMunmap_run (host : s.host = []) (mapping : Mapping) :
    hostMunmap (some mapping) s =
      some (true, { s with mappings := s.mappings.erase mapping }) := by
  rw [hostMunmap, Prog.bind_of_run (hostOk_run host)]
  rfl

theorem hostClose_run (host : s.host = []) (fd : Nat) :
    hostClose fd s = some (true, s.closeFd fd) := by
  simp only [hostClose, Prog.modify_bind]
  exact hostOk_run host

theorem loadRoot_run (host : s.host = []) (mapped : s.fatMapped 0 = true)
    (inside : fatBlocks * s.gBlockSize + s.gBlockSize ≤ s.fileSize) (fd : Nat)
    (mapping : Mapping) :
    loadRoot fd (s.fat 0) fatBlocks mapping s = some (.ok,
      { s with
        buffers := s.nextHandle :: s.buffers
        nextHandle := s.nextHandle + 1
        gMounted := true
        gRootDir := some ⟨s.nextHandle, fun j =>
          if j < s.gBlockSize then s.file (fatBlocks * s.gBlockSize + j) else 0⟩
        gSuperblock := ⟨fatBlocks, 2⟩
        gSysfileTable := fun _ => .zero
        gFdTable := fun _ => .zero }) := by
  have get : fatGet 0 s = some (s.fat 0, s) := by simp only [fatGet, mapped, ↓reduceIte]
  simp only [loadRoot, Prog.get_bind]
  rw [Prog.bind_of_run get]
  simp only [ne_eq, not_true_eq_false, ↓reduceIte, Prog.modify_bind]
  rw [Prog.bind_of_run (mallocRoot_run (by exact host))]
  simp only [Prog.modify_bind]
  rw [Prog.bind_of_run (hostOk_run (by exact host))]
  simp only [↓reduceIte]
  rw [Prog.bind_of_run (hostRead_run (by exact host) (by exact inside))]
  rfl

/-- The two bytes `k_mount` reads are FAT[0]. -/
theorem superblock_word (s : Fs) :
    LittleEndian.value (fun j => if j < 2 then s.file j else 0) 2 = s.fat 0 := by
  apply LittleEndian.value_congr
  intro j bound
  simp only [bound, ↓reduceIte, Nat.mul_zero, Nat.zero_add]

/-- FAT[0] is made of the first two bytes of the image. -/
theorem fat_zero (s : Fs) : s.fat 0 = (s.file 1).toNat * 256 + (s.file 0).toNat := by
  simp only [fat, LittleEndian.value, Nat.mul_zero, Nat.zero_add]
  omega

theorem mapAs_fatMapped (s : Fs) (some : 1 ≤ fatBlocks) :
    (s.mapAs config fatBlocks).fatMapped 0 = true := by
  have product := Nat.mul_le_mul some (blockSizes_ge config)
  simp only [fatMapped, mapAs, fatMapping, List.contains_cons, beq_self_eq_true, Bool.true_or,
    Bool.true_and, decide_eq_true_eq]
  omega

/-- `k_mount` succeeds on a formatted image. -/
theorem kMount_run (host : s.host = []) (unmounted : s.gMounted = false)
    (opens : s.opens false fsName = true) (formatted : (s.useImage fsName).Formatted config fatBlocks) :
    kMount fsName s = some (.ok, (s.useImage fsName).mountAs config fatBlocks) := by
  obtain ⟨rfl, small, rfl, bounds, inside⟩ := formatted
  have large := blockSizes_ge ((s.useImage fsName).file 0).toNat
  have super : 0 + 2 ≤ (s.useImage fsName).fileSize := by omega
  have size : ¬ 5 ≤ ((s.useImage fsName).file 0).toNat := by omega
  have count : ¬ (((s.useImage fsName).file 1).toNat < 1 ∨ 32 < ((s.useImage fsName).file 1).toNat) := by
    omega
  simp only [kMount, Prog.get_bind, unmounted, Bool.false_eq_true, ↓reduceIte]
  rw [Prog.bind_of_run (hostOpen_run host opens)]
  simp only [Prog.modify_bind]
  rw [Prog.bind_of_run (hostRead_run (by exact host) (by exact super))]
  simp only [openImage, Nat.zero_add, Nat.zero_lt_two, Nat.one_lt_two, ↓reduceIte, size, count]
  rw [Prog.modify_bind, Prog.bind_of_run (hostMmap_run (by exact host) _)]
  simp only [Prog.modify_bind]
  rw [superblock_word]
  exact loadRoot_run (s := (s.useImage fsName).mapAs ((s.useImage fsName).file 0).toNat
      ((s.useImage fsName).file 1).toNat) host
    (mapAs_fatMapped (s.useImage fsName) bounds.1) inside s.nextHandle
    ((s.useImage fsName).fatMapping ((s.useImage fsName).file 0).toNat ((s.useImage fsName).file 1).toNat)

/-- `k_mount` of a missing file changes nothing. -/
theorem kMount_missing (host : s.host = []) (unmounted : s.gMounted = false)
    (opens : s.opens false fsName = false) : kMount fsName s = some (.internal, s) := by
  simp only [kMount, Prog.get_bind, unmounted, Bool.false_eq_true, ↓reduceIte]
  rw [Prog.bind_of_run (hostOpen_missing host opens)]
  rfl

theorem loadRoot_short (host : s.host = []) (mapped : s.fatMapped 0 = true)
    (short : ¬ fatBlocks * s.gBlockSize + s.gBlockSize ≤ s.fileSize) (fd : Nat)
    (mapping : Mapping) : ∃ t, loadRoot fd (s.fat 0) fatBlocks mapping s = some (.internal, t) := by
  have get : fatGet 0 s = some (s.fat 0, s) := by simp only [fatGet, mapped, ↓reduceIte]
  simp only [loadRoot, Prog.get_bind]
  rw [Prog.bind_of_run get]
  simp only [ne_eq, not_true_eq_false, ↓reduceIte, Prog.modify_bind]
  rw [Prog.bind_of_run (mallocRoot_run (by exact host))]
  simp only [Prog.modify_bind]
  rw [Prog.bind_of_run (hostOk_run (by exact host))]
  simp only [↓reduceIte]
  rw [Prog.bind_of_run (hostRead_short (by exact host) (by exact short))]
  simp only [freeBuffer, Prog.modify_bind]
  rw [Prog.bind_of_run (hostMunmap_run (by exact host) _),
    Prog.bind_of_run (hostClose_run (by exact host) _)]
  exact ⟨_, rfl⟩

/-- `k_mount` succeeds only on an image whose first two bytes describe it. -/
theorem kMount_inv (host : s.host = []) (run : kMount fsName s = some (.ok, t)) :
    s.gMounted = false ∧ ∃ config fatBlocks, (s.useImage fsName).Formatted config fatBlocks ∧
      t = (s.useImage fsName).mountAs config fatBlocks := by
  have unmounted : s.gMounted = false := by
    by_contra mounted
    simp only [Bool.not_eq_false] at mounted
    simp [kMount, mounted] at run
  have opens : s.opens false fsName = true := by
    by_contra missing
    rw [kMount_missing host unmounted (by simpa using missing)] at run
    cases run
  refine ⟨unmounted, ((s.useImage fsName).file 0).toNat, ((s.useImage fsName).file 1).toNat, ?_⟩
  have formatted : (s.useImage fsName).Formatted ((s.useImage fsName).file 0).toNat
      ((s.useImage fsName).file 1).toNat := by
    simp only [kMount, Prog.get_bind, unmounted, Bool.false_eq_true, ↓reduceIte] at run
    rw [Prog.bind_of_run (hostOpen_run host opens)] at run
    simp only [Prog.modify_bind] at run
    have host' : (s.useImage fsName).host = [] := host
    rw [show s.nextHandle = (s.useImage fsName).nextHandle from rfl] at run
    generalize s.useImage fsName = u at host' run
    by_cases super : 0 + 2 ≤ u.fileSize
    · rw [Prog.bind_of_run (hostRead_run (by exact host') (by exact super))] at run
      simp only [openImage, Nat.zero_add, Nat.zero_lt_two, Nat.one_lt_two, ↓reduceIte] at run
      by_cases size : 5 ≤ (u.file 0).toNat
      · simp only [size, ↓reduceIte] at run
        rw [Prog.bind_of_run (hostClose_run (by exact host') _)] at run
        simp at run
      · by_cases count : (u.file 1).toNat < 1 ∨ 32 < (u.file 1).toNat
        · simp only [size, count, ↓reduceIte] at run
          rw [Prog.bind_of_run (hostClose_run (by exact host') _)] at run
          simp at run
        · by_cases inside : (u.file 1).toNat * blockSizes (u.file 0).toNat
            + blockSizes (u.file 0).toNat ≤ u.fileSize
          · exact ⟨rfl, by omega, rfl, by omega, inside⟩
          · simp only [size, count, ↓reduceIte] at run
            rw [Prog.modify_bind, Prog.bind_of_run (hostMmap_run (by exact host') _)] at run
            simp only [Prog.modify_bind] at run
            have word : LittleEndian.value (fun j => if j < 2 then u.file j else 0) 2
                = u.fat 0 := superblock_word u
            rw [word] at run
            have mapped : (u.mapAs (u.file 0).toNat (u.file 1).toNat).fatMapped 0 = true :=
              mapAs_fatMapped u (by omega)
            obtain ⟨v, failed⟩ := loadRoot_short (s := u.mapAs (u.file 0).toNat (u.file 1).toNat)
              host' mapped inside u.nextHandle (u.fatMapping (u.file 0).toNat (u.file 1).toNat)
            have same := failed.symm.trans run
            simp at same
    · rw [Prog.bind_of_run (hostRead_short (by exact host') (by exact super))] at run
      simp only at run
      rw [Prog.bind_of_run (hostClose_run (by exact host') _)] at run
      simp at run
  have success := kMount_run host unmounted opens formatted
  rw [run] at success
  exact ⟨formatted, by simpa using success⟩

theorem mountAs_mounted (host : s.host = []) (formatted : s.Formatted config fatBlocks) :
    (s.mountAs config fatBlocks).Mounted fatBlocks where
  flag := rfl
  blockSize := ⟨config, formatted.config_lt, rfl⟩
  descriptor := by simp [fdOpen, mountAs, mapAs]
  superblock := rfl
  mapping := ⟨s.fatMapping config fatBlocks, rfl, List.mem_cons_self, rfl⟩
  count := formatted.fatBlocks_bounds
  host := host

end PennOs.Fat
