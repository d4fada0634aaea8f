import PennOs.Fat.Names

set_option autoImplicit false

/- Creating, mounting and unmounting a volume. -/
namespace PennOs.Fat

namespace Fs

/-- What the host has under a name. -/
def hostFile (s : Fs) (name : List UInt8) : Option HostFile :=
  if s.imageName = some name then some ⟨s.file, s.fileSize⟩ else s.hostFiles name

/-- The file that is named comes to hand as the image; a new one is empty. -/
def useImage (s : Fs) (name : List UInt8) : Fs :=
  { s with
    file := ((s.hostFile name).getD .empty).bytes
    fileSize := ((s.hostFile name).getD .empty).size
    imageName := some name
    hostFiles := s.hostFile }

/-- `open` finds the file, or may make it. No file has the empty name. -/
def opens (s : Fs) (create : Bool) (name : List UInt8) : Bool :=
  name != [] && (create || (s.hostFile name).isSome)

/-- A successful `open`: a descriptor the process did not hold. -/
def openImage (s : Fs) : Fs × Nat :=
  ({ s with openFds := s.nextHandle :: s.openFds, nextHandle := s.nextHandle + 1 }, s.nextHandle)

def closeFd (s : Fs) (fd : Nat) : Fs := { s with openFds := s.openFds.erase fd }

/-- `open` with `O_TRUNC`, then `ftruncate` to `size`: every byte reads zero. -/
def clearImage (s : Fs) : Fs := { s with file := fun _ => 0, fileSize := 0 }

end Fs

/-- `open` of an image file, with `O_CREAT` or without: `none` is a negative descriptor. -/
def hostOpen (create : Bool) (fsName : List UInt8) : FsM (Option Nat) := do
  if ← hostOk then
    let s ← Prog.get
    if s.opens create fsName then
      let (t, fd) := (s.useImage fsName).openImage
      Prog.modify fun _ => t
      return some fd
    else return none
  else return none

/-- `close`. The descriptor is gone whatever the call returns. -/
def hostClose (fd : Nat) : FsM Bool := do
  Prog.modify fun t => t.closeFd fd
  hostOk

/-- `mmap` of the first bytes of the image. -/
def hostMmap (bytes : Nat) : FsM (Option Mapping) := do
  if ← hostOk then
    let s ← Prog.get
    let mapping : Mapping := ⟨s.nextHandle, bytes⟩
    Prog.modify fun t =>
      { t with mappings := mapping :: t.mappings, nextHandle := t.nextHandle + 1 }
    return some mapping
  else return none

/-- `munmap` of a whole mapping. -/
def hostMunmap (mapping : Option Mapping) : FsM Bool := do
  if ← hostOk then
    Prog.modify fun t =>
      match mapping with
      | none => t
      | some mapping => { t with mappings := t.mappings.erase mapping }
    return true
  else return false

/-- `malloc(g_block_size)` for the root directory copy. -/
def mallocRoot : FsM (Option Nat) := do
  if ← malloc then
    let s ← Prog.get
    Prog.modify fun t =>
      { t with buffers := t.nextHandle :: t.buffers, nextHandle := t.nextHandle + 1 }
    return some s.nextHandle
  else return none

def freeBuffer (handle : Nat) : FsM Unit :=
  Prog.modify fun t => { t with buffers := t.buffers.erase handle }

/-- `read(fd, buf, len)` at `start`: `none` when fewer than `len` bytes come back. -/
def hostRead (start len : Nat) : FsM (Option Buffer) := do
  if ← hostOk then
    let s ← Prog.get
    if start + len ≤ s.fileSize then
      return some fun j => if j < len then s.file (start + j) else 0
    else return none
  else return none

/-- `write(fd, buf, len)` at `start`: `false` when not all bytes are written. -/
def hostWrite (start len : Nat) (buf : Buffer) : FsM Bool := do
  match ← hostCall with
  | .failed => return false
  | .short count =>
      Prog.modify fun t => t.putBytes start (min count (len - 1)) buf
      return false
  | .done =>
      Prog.modify fun t => t.putBytes start len buf
      return true

/-- `k_mkfs` past the `open`, up to and including the write of the root directory. -/
def formatImage (blocksInFat config : Nat) : FsM PennFatErr := do
  let blockSize := blockSizes config
  let fatRegionSize := blocksInFat * blockSize
  let fatEntries := fatRegionSize / 2
  let dataBlocks := fatEntries - 1 - (if fatEntries - 1 = 0xFFFF then 1 else 0)
  let totalFsSize := (fatRegionSize + dataBlocks * blockSize) % 2 ^ 32
  if !(← hostOk) then return .internal
  Prog.modify fun t => { t with fileSize := totalFsSize }
  if !(← malloc) then return .outofmem
  let fatArray : Buffer := fun j =>
    if j < 2 then LittleEndian.byte (blocksInFat * 256 + config) j
    else if j < 4 then LittleEndian.byte fatEoc (j - 2)
    else 0
  if !(← hostOk) then return .internal
  if !(← hostWrite 0 fatRegionSize fatArray) then return .internal
  if !(← malloc) then return .internal
  if !(← hostOk) then return .internal
  if !(← hostWrite fatRegionSize blockSize zeroBuffer) then return .internal
  return .ok

/-- `k_mkfs` -/
def kMkfs (fsName : List UInt8) (blocksInFat config : Int) : FsM PennFatErr := do
  let s ← Prog.get
  if s.gMounted then return .unexpcmd
  if blocksInFat < 1 ∨ 32 < blocksInFat then return .invad
  if config < 0 ∨ 4 < config then return .invad
  match ← hostOpen true fsName with
  | none => return .internal
  | some fd =>
      Prog.modify Fs.clearImage
      let err ← formatImage blocksInFat.toNat config.toNat
      let _ ← hostClose fd
      return err

/-- `k_mount` past the checks of the superblock and the `mmap`. -/
def loadRoot (fd super fatBlocks : Nat) (mapping : Mapping) : FsM PennFatErr := do
  let s ← Prog.get
  let fatRegionSize := fatBlocks * s.gBlockSize
  if (← fatGet 0) ≠ super then
    let _ ← hostMunmap (some mapping)
    let _ ← hostClose fd
    return .internal
  Prog.modify fun t => { t with gSuperblock := ⟨fatBlocks, 2⟩ }
  match ← mallocRoot with
  | none =>
      Prog.modify fun t => { t with gRootDir := none }
      let _ ← hostMunmap (some mapping)
      let _ ← hostClose fd
      return .outofmem
  | some handle =>
      Prog.modify fun t => { t with gRootDir := some ⟨handle, zeroBuffer⟩ }
      let root ← if ← hostOk then hostRead fatRegionSize s.gBlockSize else pure none
      match root with
      | none =>
          freeBuffer handle
          let _ ← hostMunmap (some mapping)
          let _ ← hostClose fd
          return .internal
      | some contents =>
          Prog.modify fun t =>
            { t with
              gRootDir := some ⟨handle, contents⟩
              gSysfileTable := fun _ => .zero
              gFdTable := fun _ => .zero
              gMounted := true }
          return .ok

/-- `k_mount` -/
def kMount (fsName : List UInt8) : FsM PennFatErr := do
  let s ← Prog.get
  if s.gMounted then return .unexpcmd
  match ← hostOpen false fsName with
  | none => return .internal
  | some fd =>
      Prog.modify fun t => { t with gFsFd := some fd }
      match ← hostRead 0 2 with
      | none =>
          let _ ← hostClose fd
          return .internal
      | some super =>
          let config := (super 0).toNat
          let fatBlocks := (super 1).toNat
          if 5 ≤ config then
            let _ ← hostClose fd
            return .invad
          if fatBlocks < 1 ∨ 32 < fatBlocks then
            let _ ← hostClose fd
            return .invad
          Prog.modify fun t => { t with gBlockSize := blockSizes config }
          match ← hostMmap (fatBlocks * blockSizes config) with
          | none =>
              Prog.modify fun t => { t with gFat := none }
              let _ ← hostClose fd
              return .internal
          | some mapping =>
              Prog.modify fun t => { t with gFat := some mapping }
              loadRoot fd (LittleEndian.value super 2) fatBlocks mapping

/-- The descriptor loop of `k_unmount`, over `count` descriptors from `fd`. -/
def closeAll : Nat → Nat → FsM Unit
  | 0, _ => return ()
  | count + 1, fd => do
      let s ← Prog.get
      if (s.gFdTable fd).inUse then
        let _ ← kClose fd
      closeAll count (fd + 1)

/-- `k_unmount` past the descriptor loop. -/
def storeRoot (fatRegionSize : Nat) : FsM PennFatErr := do
  let s ← Prog.get
  if !(← hostOk) then return .internal
  match s.gRootDir with
  | none => Prog.fault
  | some root =>
      if !(← hostWrite fatRegionSize s.gBlockSize root.contents) then return .internal
      if !(← hostOk) then return .internal
      if !(← hostMunmap s.gFat) then return .internal
      Prog.modify fun t => { t with gFat := none }
      freeBuffer root.handle
      Prog.modify fun t => { t with gRootDir := none }
      match s.gFsFd with
      | none => Prog.fault
      | some fd =>
          if !(← hostOk) then
            let _ ← hostClose fd
            Prog.modify fun t => { t with gFsFd := none }
            return .internal
          if !(← hostClose fd) then return .internal
          Prog.modify fun t => { t with gFsFd := none, gMounted := false }
          return .ok

/-- `k_unmount` -/
def kUnmount : FsM PennFatErr := do
  let s ← Prog.get
  if !s.gMounted then return .notMounted
  let fatBlocks := (← fatGet 0) / 256 % 256
  closeAll maxFd 0
  storeRoot (fatBlocks * s.gBlockSize)

end PennOs.Fat
