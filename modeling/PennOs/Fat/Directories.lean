import PennOs.Lib.Search
import PennOs.Fat.Blocks

set_option autoImplicit false

/- Directory blocks: reading, writing, adding and finding 64-byte entries. -/
namespace PennOs.Fat

/-- `dir_entries[index]` of a block buffer. -/
def direntAt (buf : Buffer) (index : Nat) : DirEntry :=
  DirEntry.decode fun j => buf (64 * index + j)

/-- `memcpy(&dir_entries[index], entry, sizeof(dir_entry_t))` -/
def setDirentAt (buf : Buffer) (index : Nat) (entry : DirEntry) : Buffer :=
  overlay buf (64 * index) 64 entry.encode

def zeroBuffer : Buffer := fun _ => 0

/-- `read_dirent` -/
def readDirent (blockNum : Nat) (index : Int) : FsM (Except PennFatErr DirEntry) := do
  if blockNum = fatFree ∨ blockNum = fatEoc then return .error .invad
  if !(← malloc) then return .error .outofmem
  match ← readBlock blockNum with
  | none => return .error .io
  | some buf =>
      let s ← Prog.get
      if index < 0 ∨ (s.entriesPerBlock : Int) ≤ index then return .error .invad
      else return .ok (direntAt buf index.toNat)

/-- `write_dirent` -/
def writeDirent (blockNum : Nat) (index : Int) (entry : DirEntry) : FsM PennFatErr := do
  if blockNum = fatFree ∨ blockNum = fatEoc then return .invad
  if !(← malloc) then return .outofmem
  match ← readBlock blockNum with
  | none => return .io
  | some buf =>
      let s ← Prog.get
      if index < 0 ∨ (s.entriesPerBlock : Int) ≤ index then return .invad
      else if ← writeBlock (setDirentAt buf index.toNat entry) blockNum then return .ok
      else return .io

/-- The first free slot of a block with `entries` slots. -/
def freeSlot (buf : Buffer) (entries : Nat) : Option Nat :=
  Search.firstFrom (fun index => (direntAt buf index).reusable) entries 0

/-- The first loop of `add_dirent_to_dir`: a free slot somewhere in the chain. -/
def findSlotLoop : Nat → Nat → FsM (Except PennFatErr (Option (Nat × Nat)))
  | 0, _ => Prog.fault
  | fuel + 1, currentBlock => do
      if currentBlock = fatEoc ∨ currentBlock = fatFree then return .ok none
      match ← readBlock currentBlock with
      | none => return .error .io
      | some buf =>
          let s ← Prog.get
          match freeSlot buf s.entriesPerBlock with
          | some index => return .ok (some (currentBlock, index))
          | none => findSlotLoop fuel (← fatGet currentBlock)

/-- The tail of `add_dirent_to_dir`: the entry goes into the chosen slot. -/
def putEntry (slotBlock slotIndex : Nat) (entry : DirEntry) : FsM PennFatErr := do
  match ← readBlock slotBlock with
  | none => return .io
  | some buf =>
      if ← writeBlock (setDirentAt buf slotIndex entry) slotBlock then return .ok
      else return .io

/-- The growth step of `add_dirent_to_dir`: link and clear a new last block. -/
def growDir (dirBlock : Nat) : FsM (Except PennFatErr Nat) := do
  match ← allocateFreeBlock with
  | none => return .error .nospace
  | some newBlock =>
      let last ← lastInChain (chainFuel + 1) dirBlock
      fatSet last newBlock
      if ← writeBlock zeroBuffer newBlock then return .ok newBlock
      else
        fatSet last fatEoc
        fatSet newBlock fatFree
        return .error .io

/-- `add_dirent_to_dir` -/
def addDirentToDir (dirBlock : Nat) (entry : DirEntry) : FsM PennFatErr := do
  if dirBlock = fatFree ∨ dirBlock = fatEoc then return .invad
  if !(← malloc) then return .outofmem
  match ← findSlotLoop (chainFuel + 1) dirBlock with
  | .error err => return err
  | .ok (some (slotBlock, slotIndex)) => putEntry slotBlock slotIndex entry
  | .ok none =>
      match ← growDir dirBlock with
      | .error err => return err
      | .ok newBlock => putEntry newBlock 0 entry

/-- The inner loop of `find_entry_in_dir`: an empty name ends the block. -/
def scanBlock (buf : Buffer) (name : List UInt8) : Nat → Nat → Option Nat
  | 0, _ => none
  | count + 1, index =>
      let entry := direntAt buf index
      if entry.name0 = 0 then none
      else if entry.name0 = 1 ∨ entry.name0 = 2 then scanBlock buf name count (index + 1)
      else if entry.cName = name then some index
      else scanBlock buf name count (index + 1)

/-- The outer loop of `find_entry_in_dir`, over the directory's chain. -/
def findLoop (name : List UInt8) : Nat → Nat → FsM (Except PennFatErr (Option (Nat × Nat × DirEntry)))
  | 0, _ => Prog.fault
  | fuel + 1, currentBlock => do
      if currentBlock = fatEoc ∨ currentBlock = fatFree then return .ok none
      match ← readBlock currentBlock with
      | none => return .error .io
      | some buf =>
          let s ← Prog.get
          match scanBlock buf name s.entriesPerBlock 0 with
          | some index => return .ok (some (currentBlock, index, direntAt buf index))
          | none => findLoop name fuel (← fatGet currentBlock)

/-- `find_entry_in_dir`. The result is what the call leaves in `resolved` when it
returns `PennFatErr_OK`. -/
def findEntryInDir (dirBlock : Nat) (name : List UInt8) :
    FsM (Except PennFatErr ResolvedPath) := do
  if dirBlock = fatFree ∨ dirBlock = fatEoc then return .error .invad
  if !(← malloc) then return .error .outofmem
  match ← findLoop name (chainFuel + 1) dirBlock with
  | .error err => return .error err
  | .ok none => return .ok { ResolvedPath.zero with parentDirBlock := dirBlock }
  | .ok (some (block, index, entry)) =>
      return .ok
        { found := true
          isRoot := false
          entry := entry
          entryBlock := block
          entryIndexInBlock := index
          parentDirBlock := dirBlock }

end PennOs.Fat
