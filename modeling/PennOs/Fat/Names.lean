import PennOs.Fat.Files

set_option autoImplicit false

/- Calls that add, change and remove directory entries by path. -/
namespace PennOs.Fat

/-- `k_unlink` -/
def kUnlink (now : UInt64) (path : List UInt8) : FsM PennFatErr := do
  let s ← Prog.get
  if !s.gMounted then return .notMounted
  if path = [] ∨ path = [slash] ∨ path = dot ∨ path = dotDot then return .invad
  let (err, resolved) ← resolvePath now path
  if err ≠ .ok then return err
  if !resolved.found ∨ resolved.isRoot then return .exist
  if resolved.entry.type = DirEntry.typeDirectory then return .isdir
  match ← findAndIncrementSysfile (pseudoInode resolved.entryBlock resolved.entryIndexInBlock) with
  | some index =>
      let s ← Prog.get
      let sf := s.gSysfileTable index
      Prog.modify fun t => t.setSysfile index { sf with refCount := sf.refCount - 1 }
      if sf.refCount > 1 then return .busy
  | none => pure ()
  if resolved.entry.firstBlock.toNat ≠ fatEoc ∧ resolved.entry.firstBlock.toNat ≠ fatFree then
    freeBlockChain resolved.entry.firstBlock.toNat
  writeDirent resolved.entryBlock resolved.entryIndexInBlock .deleted

/-- `k_touch` -/
def kTouch (now : UInt64) (path : List UInt8) : FsM PennFatErr := do
  let s ← Prog.get
  if !s.gMounted then return .notMounted
  if path = [] then return .invad
  let (err, resolved) ← resolvePath now path
  if err ≠ .ok ∧ err ≠ .notdir then return err
  if resolved.found then
    if resolved.isRoot then return .isdir
    writeDirent resolved.entryBlock resolved.entryIndexInBlock { resolved.entry with mtime := now }
  else
    if resolved.parentDirBlock = fatFree ∨ resolved.parentDirBlock = fatEoc then return .exist
    let filename := getFilenameFromPath path
    if 32 ≤ filename.length then return .invad
    if filename = dot ∨ filename = dotDot then return .invad
    match ← allocateFreeBlock with
    | none => return .nospace
    | some firstBlock =>
        match ← addDirentToDir resolved.parentDirBlock (newFileEntry now filename firstBlock) with
        | .ok => return .ok
        | err =>
            fatSet firstBlock fatFree
            return err

/-- `k_chmod` -/
def kChmod (now : UInt64) (path : List UInt8) (newPerm : UInt8) : FsM PennFatErr := do
  let s ← Prog.get
  if !s.gMounted then return .notMounted
  if path = [] then return .invad
  if !validPerm newPerm then return .invad
  let (err, resolved) ← resolvePath now path
  if err ≠ .ok then return err
  if !resolved.found ∨ resolved.isRoot then return .exist
  writeDirent resolved.entryBlock resolved.entryIndexInBlock
    { resolved.entry with perm := newPerm, mtime := now }

/-- `k_chdir` -/
def kChdir (now : UInt64) (path : List UInt8) : FsM PennFatErr := do
  let s ← Prog.get
  if !s.gMounted then return .notMounted
  let (err, resolved) ← resolvePath now path
  if err ≠ .ok then return err
  if !resolved.found then return .exist
  if resolved.isRoot then
    Prog.modify fun t => { t with gCwdBlock := 1 }
    return .ok
  if resolved.entry.type ≠ DirEntry.typeDirectory then return .notdir
  Prog.modify fun t => { t with gCwdBlock := resolved.entry.firstBlock.toNat }
  return .ok

/-- The tests `k_mkdir`, `k_symlink` and `k_rename` make on the last component of a path. -/
def badName (name : List UInt8) : Bool :=
  name.length == 0 || decide (32 ≤ name.length) || name == dot || name == dotDot

/-- The block `k_symlink` writes: `strncpy` of the target over zeroes. -/
def targetBuffer (target : List UInt8) : Buffer := fun j => target[j]?.getD 0

/-- The entry `k_symlink` writes. -/
def symlinkEntry (now : UInt64) (name target : List UInt8) (targetBlock : Nat) : DirEntry :=
  { DirEntry.zero with
    name := DirEntry.packName name
    type := DirEntry.typeSymlink
    perm := defPerm ||| 0x1
    firstBlock := UInt16.ofNat targetBlock
    size := UInt32.ofNat target.length
    mtime := now }

/-- `k_symlink` -/
def kSymlink (now : UInt64) (target linkpath : List UInt8) : FsM PennFatErr := do
  let s ← Prog.get
  if !s.gMounted then return .notMounted
  if target = [] ∨ linkpath = [] then return .invad
  let (err, resolved) ← resolvePathNoFollow now linkpath
  if err ≠ .ok ∧ err ≠ .notdir then return err
  if resolved.found then return .exist
  if resolved.parentDirBlock = fatFree ∨ resolved.parentDirBlock = fatEoc then return .exist
  let name := getFilenameFromPath linkpath
  if badName name then return .invad
  if s.gBlockSize ≤ target.length then return .range
  match ← allocateFreeBlock with
  | none => return .nospace
  | some targetBlock =>
      if !(← malloc) then
        fatSet targetBlock fatFree
        return .outofmem
      if !(← writeBlock (targetBuffer target) targetBlock) then
        fatSet targetBlock fatFree
        return .io
      let _ ← hostOk
      match ← addDirentToDir resolved.parentDirBlock (symlinkEntry now name target targetBlock) with
      | .ok => return .ok
      | err =>
          freeBlockChain targetBlock
          return err

/-- The entry `k_mkdir` writes in the parent directory. -/
def newDirEntry (now : UInt64) (name : List UInt8) (dirBlock : Nat) : DirEntry :=
  { DirEntry.zero with
    name := DirEntry.packName name
    type := DirEntry.typeDirectory
    perm := defPerm
    firstBlock := UInt16.ofNat dirBlock
    mtime := now }

/-- The first block of a new directory: '.', '..' and zeroes. -/
def newDirBuffer (now : UInt64) (dirBlock parentDirBlock : Nat) : Buffer :=
  setDirentAt (setDirentAt zeroBuffer 0 (newDirEntry now dot dirBlock)) 1
    (newDirEntry now dotDot parentDirBlock)

/-- `k_mkdir` -/
def kMkdir (now : UInt64) (path : List UInt8) : FsM PennFatErr := do
  let s ← Prog.get
  if !s.gMounted then return .notMounted
  if path = [] then return .invad
  let (err, resolved) ← resolvePath now path
  if err ≠ .ok ∧ err ≠ .notdir then return err
  if resolved.found then return .exist
  if resolved.parentDirBlock = fatFree ∨ resolved.parentDirBlock = fatEoc then return .exist
  let dirname := getFilenameFromPath path
  if badName dirname then return .invad
  match ← allocateFreeBlock with
  | none => return .nospace
  | some dirBlock =>
      match ← addDirentToDir resolved.parentDirBlock (newDirEntry now dirname dirBlock) with
      | .ok =>
          if !(← malloc) then
            fatSet dirBlock fatFree
            return .outofmem
          if ← writeBlock (newDirBuffer now dirBlock resolved.parentDirBlock) dirBlock then
            return .ok
          else
            fatSet dirBlock fatFree
            return .io
      | err =>
          fatSet dirBlock fatFree
          return err

/-- The loop of `k_rmdir` over the directory's first block. -/
def onlyDots (buf : Buffer) : Nat → Nat → Bool
  | 0, _ => true
  | count + 1, index =>
      let entry := direntAt buf index
      if entry.name0 = 0 then true
      else if entry.name0 = 1 ∨ entry.name0 = 2 then onlyDots buf count (index + 1)
      else if entry.cName ≠ dot ∧ entry.cName ≠ dotDot then false
      else onlyDots buf count (index + 1)

/-- `k_rmdir` -/
def kRmdir (now : UInt64) (path : List UInt8) : FsM PennFatErr := do
  let s ← Prog.get
  if !s.gMounted then return .notMounted
  if path = [] ∨ path = [slash] then return .invad
  let (err, resolved) ← resolvePath now path
  if err ≠ .ok then return err
  if !resolved.found then return .exist
  if resolved.entry.type ≠ DirEntry.typeDirectory then return .notdir
  let dirBlock := resolved.entry.firstBlock.toNat
  if !(← malloc) then return .outofmem
  match ← readBlock dirBlock with
  | none => return .io
  | some buf =>
      if !onlyDots buf s.entriesPerBlock 0 then return .notempty
      match ← writeDirent resolved.entryBlock resolved.entryIndexInBlock .deleted with
      | .ok =>
          fatSet dirBlock fatFree
          return .ok
      | err => return err

/-- The removal of an existing destination in `k_rename`. -/
def removeDestination (now : UInt64) (newpath : List UInt8) (source target : ResolvedPath) :
    FsM PennFatErr := do
  if !target.found then return .ok
  if source.entry.type ≠ target.entry.type then
    if source.entry.type = DirEntry.typeDirectory then return .notdir else return .isdir
  if target.entry.type = DirEntry.typeDirectory then kRmdir now newpath
  else kUnlink now newpath

/-- The copy of the source entry that `k_rename` adds under the new name. `strncpy`
pads the field with zeroes. -/
def movedEntry (now : UInt64) (entry : DirEntry) (name : List UInt8) : DirEntry :=
  { entry with name := DirEntry.packName name, mtime := now }

/-- `k_rename` -/
def kRename (now : UInt64) (oldpath newpath : List UInt8) : FsM PennFatErr := do
  let s ← Prog.get
  if !s.gMounted then return .notMounted
  if oldpath = [] ∨ newpath = [] then return .invad
  if oldpath = newpath then return .ok
  let (err, source) ← resolvePath now oldpath
  if err ≠ .ok then return err
  if !source.found ∨ source.isRoot then return .exist
  if source.entry.cName = dot ∨ source.entry.cName = dotDot then return .invad
  let (err, target) ← resolvePath now newpath
  if err ≠ .ok ∧ err ≠ .notdir then return err
  if target.parentDirBlock = fatFree ∨ target.parentDirBlock = fatEoc then return .exist
  let name := getFilenameFromPath newpath
  if badName name then return .invad
  match ← removeDestination now newpath source target with
  | .ok =>
      match ← addDirentToDir target.parentDirBlock (movedEntry now source.entry name) with
      | .ok => writeDirent source.entryBlock source.entryIndexInBlock .deleted
      | err => return err
  | err => return err

end PennOs.Fat
