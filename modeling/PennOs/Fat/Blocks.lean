import PennOs.Fat.Definitions

set_option autoImplicit false

/- Block transfers through `g_fs_fd`, the mapped FAT, and the chain helpers built on it. -/
namespace PennOs.Fat

/-- Overwrite `len` bytes from `start`. -/
def overlay (bytes : Nat → UInt8) (start len : Nat) (buf : Buffer) (a : Nat) : UInt8 :=
  if start ≤ a ∧ a < start + len then buf (a - start) else bytes a

namespace Fs

/-- `block_index * g_block_size`, in 32-bit arithmetic. -/
def blockOffset (s : Fs) (blockIndex : Nat) : Nat := blockIndex * s.gBlockSize % 2 ^ 32

/-- `g_block_size / sizeof(dir_entry_t)` -/
def entriesPerBlock (s : Fs) : Nat := s.gBlockSize / 64

/-- The `g_block_size` bytes of a block. -/
def block (s : Fs) (blockIndex : Nat) : Buffer :=
  fun j => if j < s.gBlockSize then s.file (s.blockOffset blockIndex + j) else 0

def putBytes (s : Fs) (start len : Nat) (buf : Buffer) : Fs :=
  { s with file := overlay s.file start len buf, fileSize := max s.fileSize (start + len) }

def putBlock (s : Fs) (blockIndex : Nat) (buf : Buffer) : Fs :=
  s.putBytes (s.blockOffset blockIndex) s.gBlockSize buf

/-- The 16-bit FAT entry at an index of the mapping. -/
def fat (s : Fs) (index : Nat) : Nat := LittleEndian.value (fun j => s.file (2 * index + j)) 2

def setFat (s : Fs) (index value : Nat) : Fs :=
  { s with file := overlay s.file (2 * index) 2 (LittleEndian.byte value) }

def fdOpen (s : Fs) : Bool :=
  match s.gFsFd with
  | none => false
  | some fd => s.openFds.contains fd

/-- `g_fat` points to a live mapping that covers the entry. -/
def fatMapped (s : Fs) (index : Nat) : Bool :=
  match s.gFat with
  | none => false
  | some mapping => s.mappings.contains mapping && decide (2 * index + 2 ≤ mapping.bytes)

end Fs

/-- What the host does with this call. -/
def hostCall : FsM HostOutcome := fun s =>
  match s.host with
  | [] => some (.done, s)
  | outcome :: rest => some (outcome, { s with host := rest })

/-- A host call that only succeeds or fails. -/
def hostOk : FsM Bool := do
  match ← hostCall with
  | .done => return true
  | _ => return false

def malloc : FsM Bool := hostOk

/-- `g_fat[index]`. Indices past the mapping have no meaning. -/
def fatGet (index : Nat) : FsM Nat := fun s =>
  if s.fatMapped index then some (s.fat index, s) else none

/-- `g_fat[index] = value` -/
def fatSet (index value : Nat) : FsM Unit := fun s =>
  if s.fatMapped index then some ((), s.setFat index value) else none

/-- `read_block`: `none` is the return value -1. -/
def readBlock (blockIndex : Nat) : FsM (Option Buffer) := do
  let s ← Prog.get
  if s.gFsFd = none then return none
  if !(← hostOk) then return none
  if !(← hostOk) then return none
  if s.fdOpen ∧ s.blockOffset blockIndex + s.gBlockSize ≤ s.fileSize then
    return some (s.block blockIndex)
  else return none

/-- `write_block`: `false` is the return value -1. A short `write` leaves its first
bytes on the image, and a failing `fdatasync` leaves all of them. -/
def writeBlock (buf : Buffer) (blockIndex : Nat) : FsM Bool := do
  let s ← Prog.get
  if s.gFsFd = none then return false
  if !(← hostOk) then return false
  match ← hostCall with
  | .failed => return false
  | .short count =>
      if s.fdOpen then
        Prog.modify fun t => t.putBytes (t.blockOffset blockIndex) (min count (t.gBlockSize - 1)) buf
      return false
  | .done =>
      if !s.fdOpen then return false
      Prog.modify fun t => t.putBlock blockIndex buf
      hostOk

/-- The loop of `locate_block_in_chain`: `count` links are left to follow. -/
def locateLoop : Nat → Nat → FsM (Option Nat)
  | 0, current => return some current
  | count + 1, current => do
      if current = fatEoc then return none
      locateLoop count (← fatGet current)

/-- `locate_block_in_chain`: the block and the offset in it, or -1. -/
def locateBlockInChain (startBlock fileOffset : Nat) : FsM (Option (Nat × Nat)) := do
  if startBlock = fatFree ∨ startBlock = fatEoc then return none
  let s ← Prog.get
  match ← locateLoop (fileOffset / s.gBlockSize) startBlock with
  | none => return none
  | some block => return some (block, fileOffset % s.gBlockSize)

/-- The scan of `allocate_free_block` over `count` entries from `index`. -/
def allocateScan : Nat → Nat → FsM (Option Nat)
  | 0, _ => return none
  | count + 1, index => do
      if (← fatGet index) = fatFree then
        fatSet index fatEoc
        return some index
      else allocateScan count (index + 1)

def totalEntries (s : Fs) : Nat := s.gSuperblock.fatBlockCount * s.gBlockSize % 2 ^ 32 / 2

/-- `allocate_free_block`: `none` is the return value -1. -/
def allocateFreeBlock : FsM (Option Nat) := do
  let s ← Prog.get
  allocateScan (totalEntries s - s.gSuperblock.dataStartBlock) s.gSuperblock.dataStartBlock

/-- More links than there are 16-bit block numbers: the walk has come back to a block
it visited, and a loop that only reads the FAT never ends. -/
def chainFuel : Nat := 65536

/-- The loop of `free_block_chain`. -/
def freeLoop : Nat → Nat → FsM Unit
  | 0, _ => Prog.fault
  | fuel + 1, current => do
      if current = fatEoc ∨ current = fatFree then return ()
      let next ← fatGet current
      fatSet current fatFree
      freeLoop fuel next

/-- `free_block_chain` always returns `PennFatErr_OK`. -/
def freeBlockChain (startBlock : Nat) : FsM Unit := freeLoop (chainFuel + 1) startBlock

/-- `while (g_fat[last] != FAT_EOC) last = g_fat[last];` -/
def lastInChain : Nat → Nat → FsM Nat
  | 0, _ => Prog.fault
  | fuel + 1, last => do
      let next ← fatGet last
      if next = fatEoc then return last
      lastInChain fuel next

end PennOs.Fat
