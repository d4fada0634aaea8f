import PennOs.Fat.Paths

set_option autoImplicit false

/- Open files: the system-wide table, the descriptor table and the calls on descriptors. -/
namespace PennOs.Fat

/-- `(dir_entry_block << 16) | dir_entry_index`; an index of -1 sets every bit. -/
def pseudoInode (block : Nat) (index : Int) : Nat :=
  if index < 0 then 0xFFFFFFFF else block * 65536 + index.toNat

namespace Fs

def setSysfile (s : Fs) (index : Nat) (sf : SystemFile) : Fs :=
  { s with gSysfileTable := Function.update s.gSysfileTable index sf }

def setFd (s : Fs) (fd : Nat) (entry : FdEntry) : Fs :=
  { s with gFdTable := Function.update s.gFdTable fd entry }

@[simp] theorem setFd_self (s : Fs) (fd : Nat) (entry : FdEntry) :
    (s.setFd fd entry).gFdTable fd = entry := Function.update_self _ _ _

theorem setFd_ne (s : Fs) {fd other : Nat} (entry : FdEntry) (apart : other ≠ fd) :
    (s.setFd fd entry).gFdTable other = s.gFdTable other := Function.update_of_ne apart _ _

@[simp] theorem setSysfile_self (s : Fs) (index : Nat) (sf : SystemFile) :
    (s.setSysfile index sf).gSysfileTable index = sf := Function.update_self _ _ _

theorem setSysfile_ne (s : Fs) {index other : Nat} (sf : SystemFile) (apart : other ≠ index) :
    (s.setSysfile index sf).gSysfileTable other = s.gSysfileTable other :=
  Function.update_of_ne apart _ _

/-- The table entry `find_and_increment_sysfile` stops at. -/
def findSysfile (s : Fs) (inode : Nat) : Option Nat :=
  Search.firstFrom
    (fun i => (s.gSysfileTable i).inUse && (s.gSysfileTable i).dirIndex == inode) maxSystemFiles 0

def freeSysfile (s : Fs) : Option Nat :=
  Search.firstFrom (fun i => !(s.gSysfileTable i).inUse) maxSystemFiles 0

def freeFd (s : Fs) : Option Nat :=
  Search.firstFrom (fun fd => !(s.gFdTable fd).inUse) maxFd 0

/-- `fd < 0 || fd >= MAX_FD || !g_fd_table[fd].in_use` is false. -/
def validFd (s : Fs) (fd : Int) : Bool :=
  decide (0 ≤ fd) && decide (fd < maxFd) && (s.gFdTable fd.toNat).inUse

end Fs

/-- `find_and_increment_sysfile`: `none` is the return value -1. -/
def findAndIncrementSysfile (inode : Nat) : FsM (Option Nat) := do
  let s ← Prog.get
  match s.findSysfile inode with
  | none => return none
  | some i =>
      let sf := s.gSysfileTable i
      Prog.modify fun t => t.setSysfile i { sf with refCount := sf.refCount + 1 }
      return some i

/-- `create_sysfile_entry_from_resolved`: `none` is the return value -1. -/
def createSysfileEntryFromResolved (resolved : ResolvedPath) (inode : Nat) :
    FsM (Option Nat) := do
  let s ← Prog.get
  match s.freeSysfile with
  | none => return none
  | some i =>
      Prog.modify fun t => t.setSysfile i
        { refCount := 1
          inUse := true
          firstBlock := resolved.entry.firstBlock
          size := resolved.entry.size
          mtime := resolved.entry.mtime
          dirIndex := inode }
      return some i

/-- The directory update of `release_sysfile_entry` when the last reference goes away. -/
def flushSysfile (sf : SystemFile) : FsM Unit := do
  let entryBlock := sf.dirIndex / 65536 % 65536
  let entryIndex := sf.dirIndex % 65536
  match ← readDirent entryBlock entryIndex with
  | .error _ => return ()
  | .ok current =>
      if current.live ∧ current.firstBlock = sf.firstBlock then
        let _ ← writeDirent entryBlock entryIndex { current with size := sf.size, mtime := sf.mtime }
        return ()
      else return ()

/-- `release_sysfile_entry` -/
def releaseSysfileEntry (index : Nat) : FsM Unit := do
  let s ← Prog.get
  let sf := s.gSysfileTable index
  if maxSystemFiles ≤ index ∨ !sf.inUse then return ()
  Prog.modify fun t => t.setSysfile index { sf with refCount := sf.refCount - 1 }
  if sf.refCount - 1 ≤ 0 then
    flushSysfile sf
    Prog.modify fun t => t.setSysfile index .zero

/-- The last loop of `k_open`: a descriptor for an entry of the system-wide table. -/
def assignFd (index : Nat) (mode : UInt32) (size : UInt32) : FsM (Except PennFatErr Nat) := do
  let s ← Prog.get
  match s.freeFd with
  | some fd =>
      Prog.modify fun t => t.setFd fd
        { inUse := true
          sysfileIndex := index
          mode := mode
          offset := if hasAppend mode then size else 0 }
      return .ok fd
  | none =>
      releaseSysfileEntry index
      return .error .outofmem

/-- The truncation step of `k_open`: the entry's chain is freed and one new block taken. -/
def truncateFile (now : UInt64) (resolved : ResolvedPath) :
    FsM (Except PennFatErr ResolvedPath) := do
  freeBlockChain resolved.entry.firstBlock.toNat
  match ← allocateFreeBlock with
  | none => return .error .nospace
  | some firstBlock =>
      let entry := { resolved.entry with
        firstBlock := UInt16.ofNat firstBlock, size := 0, mtime := now }
      match ← writeDirent resolved.entryBlock resolved.entryIndexInBlock entry with
      | .ok => return .ok { resolved with entry := entry }
      | err =>
          fatSet firstBlock fatFree
          return .error err

/-- `k_open` on a path that resolves. -/
def openExisting (now : UInt64) (mode : UInt32) (resolved : ResolvedPath) :
    FsM (Except PennFatErr Nat) := do
  if resolved.entry.type = DirEntry.typeDirectory then return .error .isdir
  if !permits mode resolved.entry.perm then return .error .perm
  let current ←
    if hasWrite mode ∧ !hasAppend mode then truncateFile now resolved
    else pure (.ok resolved)
  match current with
  | .error err => return .error err
  | .ok resolved =>
      let inode := pseudoInode resolved.entryBlock resolved.entryIndexInBlock
      match ← findAndIncrementSysfile inode with
      | some index => assignFd index mode resolved.entry.size
      | none =>
          match ← createSysfileEntryFromResolved resolved inode with
          | none => return .error .outofmem
          | some index => assignFd index mode resolved.entry.size

/-- The entry `k_open` and `k_touch` write for a new regular file. -/
def newFileEntry (now : UInt64) (filename : List UInt8) (firstBlock : Nat) : DirEntry :=
  { DirEntry.zero with
    name := DirEntry.packName filename
    type := DirEntry.typeRegular
    perm := defPerm
    firstBlock := UInt16.ofNat firstBlock
    mtime := now }

/-- `k_open` on a path that does not resolve. -/
def openCreate (now : UInt64) (path : List UInt8) (mode : UInt32) (resolved : ResolvedPath) :
    FsM (Except PennFatErr Nat) := do
  if !hasCreate mode then return .error .exist
  if resolved.parentDirBlock = fatFree ∨ resolved.parentDirBlock = fatEoc then
    return .error .exist
  let filename := getFilenameFromPath path
  if 32 ≤ filename.length then return .error .invad
  match ← allocateFreeBlock with
  | none => return .error .nospace
  | some firstBlock =>
      match ← addDirentToDir resolved.parentDirBlock (newFileEntry now filename firstBlock) with
      | .ok =>
          let (err, created) ← resolvePath now path
          if err = .ok ∧ created.found then
            let inode := pseudoInode created.entryBlock created.entryIndexInBlock
            match ← createSysfileEntryFromResolved created inode with
            | some index => assignFd index mode created.entry.size
            | none =>
                let _ ← writeDirent created.entryBlock created.entryIndexInBlock .deleted
                freeBlockChain firstBlock
                return .error .outofmem
          else if err = .ok then return .error .io
          else return .error err
      | err =>
          fatSet firstBlock fatFree
          return .error err

/-- `k_open` -/
def kOpen (now : UInt64) (path : List UInt8) (mode : UInt32) : FsM (Except PennFatErr Nat) := do
  let s ← Prog.get
  if !s.gMounted then return .error .notMounted
  if path = [] ∧ s.gCwdBlock = 1 then return .error .invad
  if !isValidMode mode then return .error .invad
  let (err, resolved) ← resolvePath now path
  if err ≠ .ok ∧ err ≠ .notdir then return .error err
  if resolved.found then openExisting now mode resolved
  else openCreate now path mode resolved

/-- The copy loop of `k_read`, with at most `fuel` bytes left; every turn copies one or more. -/
def readLoop (fd : Nat) : Nat → Nat → List UInt8 → FsM (List UInt8)
  | 0, _, acc => return acc
  | fuel + 1, remain, acc => do
      if remain = 0 then return acc
      let s ← Prog.get
      let fdesc := s.gFdTable fd
      let sf := s.gSysfileTable fdesc.sysfileIndex
      match ← locateBlockInChain sf.firstBlock.toNat fdesc.offset.toNat with
      | none => return acc
      | some (blockNum, offsetInBlock) =>
          match ← readBlock blockNum with
          | none => return acc
          | some buf =>
              let chunk := min (s.gBlockSize - offsetInBlock) remain
              Prog.modify fun t =>
                t.setFd fd { fdesc with offset := fdesc.offset + UInt32.ofNat chunk }
              readLoop fd fuel (remain - chunk)
                (acc ++ (List.range chunk).map fun j => buf (offsetInBlock + j))

/-- `(n < (int)size_left) ? n : (int)size_left` -/
def toRead (n : Int) (sizeLeft : Nat) : Int :=
  let left : Int := if sizeLeft < 2 ^ 31 then sizeLeft else (sizeLeft : Int) - 2 ^ 32
  if n < left then n else left

/-- `k_read`: the bytes copied to the caller's buffer. -/
def kRead (fd : Int) (n : Int) : FsM (Except PennFatErr (List UInt8)) := do
  let s ← Prog.get
  if !s.gMounted then return .error .notMounted
  if !s.validFd fd then return .error .internal
  let fdesc := s.gFdTable fd.toNat
  let sf := s.gSysfileTable fdesc.sysfileIndex
  if hasWrite fdesc.mode then return .error .perm
  let sizeLeft := sf.size.toNat - fdesc.offset.toNat
  if sizeLeft = 0 then return .ok []
  if !(← malloc) then return .error .internal
  let count := (toRead n sizeLeft).toNat
  return .ok (← readLoop fd.toNat count count [])

/-- The extension step of `k_write`: a new block behind the last one. -/
def extendChain (firstBlock : Nat) : FsM (Option Nat) := do
  let last ← lastInChain (chainFuel + 1) firstBlock
  match ← allocateFreeBlock with
  | none => return none
  | some newBlock =>
      fatSet last newBlock
      return some newBlock

/-- The block a turn of `k_write` writes to, and the offset in it. -/
def blockForWrite (firstBlock offset : Nat) : FsM (Option (Nat × Nat)) := do
  match ← locateBlockInChain firstBlock offset with
  | some target => return some target
  | none =>
      match ← extendChain firstBlock with
      | none => return none
      | some newBlock => return some (newBlock, 0)

/-- The file-table updates at the end of a turn of `k_write`. -/
def Fs.advance (s : Fs) (now : UInt64) (fd chunk : Nat) : Fs :=
  let fdesc := s.gFdTable fd
  let sf := s.gSysfileTable fdesc.sysfileIndex
  let offset := fdesc.offset + UInt32.ofNat chunk
  let t := s.setFd fd { fdesc with offset := offset }
  if offset > sf.size then t.setSysfile fdesc.sysfileIndex { sf with size := offset, mtime := now }
  else t

/-- The loop of `k_write`, with at most `fuel` bytes left; every turn writes one or more. -/
def writeLoop (now : UInt64) (fd : Nat) (buf : Buffer) : Nat → Nat → Nat → FsM Nat
  | 0, total, _ => return total
  | fuel + 1, total, remain => do
      if remain = 0 then return total
      let s ← Prog.get
      let fdesc := s.gFdTable fd
      let sf := s.gSysfileTable fdesc.sysfileIndex
      match ← blockForWrite sf.firstBlock.toNat fdesc.offset.toNat with
      | none => return total
      | some (blockNum, offsetInBlock) =>
          match ← readBlock blockNum with
          | none => return total
          | some blockBuf =>
              let chunk := min (s.gBlockSize - offsetInBlock) remain
              let merged := overlay blockBuf offsetInBlock chunk fun j => buf (total + j)
              if ← writeBlock merged blockNum then
                Prog.modify fun t => t.advance now fd chunk
                writeLoop now fd buf fuel (total + chunk) (remain - chunk)
              else return total

/-- `k_write`: the number of bytes written. -/
def kWrite (now : UInt64) (fd : Int) (buf : Buffer) (n : Int) : FsM (Except PennFatErr Nat) := do
  let s ← Prog.get
  if !s.gMounted then return .error .notMounted
  if !s.validFd fd then return .error .internal
  if hasRead (s.gFdTable fd.toNat).mode then return .error .perm
  if !(← malloc) then return .error .internal
  return .ok (← writeLoop now fd.toNat buf n.toNat 0 n.toNat)

/-- `k_close` -/
def kClose (fd : Int) : FsM PennFatErr := do
  let s ← Prog.get
  if !s.gMounted then return .notMounted
  if !s.validFd fd then return .internal
  let fdesc := s.gFdTable fd.toNat
  Prog.modify fun t => t.setFd fd.toNat { fdesc with inUse := false }
  releaseSysfileEntry fdesc.sysfileIndex
  return .ok

/-- A value of C `int` from an exact integer. -/
def wrapInt (n : Int) : Int := n.bmod (2 ^ 32)

/-- `k_lseek` -/
def kLseek (fd : Int) (offset whence : Int) : FsM (Except PennFatErr Nat) := do
  let s ← Prog.get
  if !s.gMounted then return .error .notMounted
  if !s.validFd fd then return .error .internal
  let fdesc := s.gFdTable fd.toNat
  let sf := s.gSysfileTable fdesc.sysfileIndex
  let base : Option Int :=
    if whence = 0 then some 0
    else if whence = 1 then some (wrapInt fdesc.offset.toNat)
    else if whence = 2 then some (wrapInt sf.size.toNat)
    else none
  match base with
  | none => return .error .invad
  | some base =>
      let newOffset := wrapInt (base + offset)
      if newOffset < 0 then return .error .invad
      Prog.modify fun t =>
        t.setFd fd.toNat { fdesc with offset := UInt32.ofNat newOffset.toNat }
      return .ok newOffset.toNat

end PennOs.Fat
