import Mathlib.Data.List.TakeWhile
import Mathlib.Logic.Function.Basic
import PennOs.Lib.Prog
import PennOs.Lib.LittleEndian

set_option autoImplicit false

/- Data of the PennFAT kernel module: error codes, on-disk entries, the open-file
tables and the module's static variables, together with the host file they live on. -/
namespace PennOs.Fat

inductive PennFatErr where
  | ok | internal | notMounted | invad | exist | perm | nospace | outofmem | unexpcmd
  | notempty | notdir | isdir | io | busy | range
  deriving DecidableEq, Repr

/-- A heap or stack buffer, as a function of the byte offset. -/
abbrev Buffer := Nat → UInt8

/-- A C string: its bytes up to the terminating NUL. -/
structure CStr where
  bytes : List UInt8
  noNul : 0 ∉ bytes

/-- The C string of a literal. -/
def CStr.literal (bytes : List UInt8) : CStr where
  bytes := bytes.takeWhile (· != 0)
  noNul := fun member => by simpa using List.mem_takeWhile_imp member

def fatFree : Nat := 0x0000

def fatEoc : Nat := 0xFFFF

def maxSystemFiles : Nat := 64

def maxFd : Nat := 32

def pathMax : Nat := 256

/-- `block_sizes`, indexed by the configuration byte of FAT[0]. -/
def blockSizes (config : Nat) : Nat := 256 * 2 ^ config

section Modes

def hasCreate (mode : UInt32) : Bool := mode &&& 0x1 != 0
def hasRead (mode : UInt32) : Bool := mode &&& 0x2 != 0
def hasWrite (mode : UInt32) : Bool := mode &&& 0x4 != 0
def hasAppend (mode : UInt32) : Bool := mode &&& 0x8 != 0

def isValidMode (mode : UInt32) : Bool :=
  mode &&& ~~~0xF == 0 && !(hasWrite mode && hasAppend mode)

def canRead (perm : UInt8) : Bool := perm &&& 0x4 != 0
def canWrite (perm : UInt8) : Bool := perm &&& 0x2 != 0

def defPerm : UInt8 := 0x6

/-- `VALID_PERM`: read-only 4 is not among the accepted values. -/
def validPerm (perm : UInt8) : Bool :=
  perm == 0 || perm == 1 || perm == 2 || perm == 5 || perm == 6 || perm == 7

/-- The permission test of `k_open`. -/
def permits (mode : UInt32) (perm : UInt8) : Bool :=
  !((hasRead mode && !canRead perm) || ((hasWrite mode || hasAppend mode) && !canWrite perm))

end Modes

/-- `dir_entry_t`: the packed 64-byte directory entry. -/
structure DirEntry where
  name : Fin 32 → UInt8
  size : UInt32
  firstBlock : UInt16
  type : UInt8
  perm : UInt8
  mtime : UInt64
  reserved : Fin 16 → UInt8

namespace DirEntry

def typeRegular : UInt8 := 1
def typeDirectory : UInt8 := 2
def typeSymlink : UInt8 := 4

/-- `memset(&entry, 0, sizeof(dir_entry_t))`. -/
def zero : DirEntry := ⟨fun _ => 0, 0, 0, 0, 0, 0, fun _ => 0⟩

/-- Byte `offset` of the packed structure. -/
def encode (e : DirEntry) (offset : Nat) : UInt8 :=
  if h : offset < 32 then e.name ⟨offset, h⟩
  else if offset < 36 then LittleEndian.byte e.size.toNat (offset - 32)
  else if offset < 38 then LittleEndian.byte e.firstBlock.toNat (offset - 36)
  else if offset = 38 then e.type
  else if offset = 39 then e.perm
  else if offset < 48 then LittleEndian.byte e.mtime.toNat (offset - 40)
  else if h : offset - 48 < 16 then e.reserved ⟨offset - 48, h⟩
  else 0

/-- The structure whose packed bytes start at `bytes 0`. -/
def decode (bytes : Buffer) : DirEntry where
  name i := bytes i
  size := UInt32.ofNat (LittleEndian.value (fun i => bytes (32 + i)) 4)
  firstBlock := UInt16.ofNat (LittleEndian.value (fun i => bytes (36 + i)) 2)
  type := bytes 38
  perm := bytes 39
  mtime := UInt64.ofNat (LittleEndian.value (fun i => bytes (40 + i)) 8)
  reserved i := bytes (48 + i)

/-- `name[0]`: 0 ends a directory block, 1 and 2 mark deleted entries. -/
def name0 (e : DirEntry) : UInt8 := e.name 0

def live (e : DirEntry) : Bool := e.name0 != 0 && e.name0 != 1 && e.name0 != 2

/-- The free slots of `add_dirent_to_dir`. -/
def reusable (e : DirEntry) : Bool := e.name0 == 0 || e.name0 == 1

def cNameFrom (name : Fin 32 → UInt8) (index : Nat) : Nat → List UInt8
  | 0 => []
  | fuel + 1 =>
      if h : index < 32 then
        if name ⟨index, h⟩ = 0 then [] else name ⟨index, h⟩ :: cNameFrom name (index + 1) fuel
      else []

/-- The entry's name as a C string, at most the 32 bytes of the field. -/
def cName (e : DirEntry) : List UInt8 := cNameFrom e.name 0 32

/-- `strncpy(entry.name, filename, 31)` into a field whose last byte is 0. -/
def packName (filename : List UInt8) (i : Fin 32) : UInt8 :=
  if i.val < 31 then filename[i.val]?.getD 0 else 0

/-- The marker written over a removed entry. -/
def deleted : DirEntry := { zero with name := fun i => if i = 0 then 1 else 0 }

end DirEntry

/-- `fd_entry_t` -/
structure FdEntry where
  inUse : Bool
  sysfileIndex : Nat
  mode : UInt32
  offset : UInt32

/-- `system_file_t`. `dirIndex` is the pseudo-inode: block in the high half, index in the low. -/
structure SystemFile where
  refCount : Int
  inUse : Bool
  firstBlock : UInt16
  size : UInt32
  mtime : UInt64
  dirIndex : Nat

def FdEntry.zero : FdEntry := ⟨false, 0, 0, 0⟩

def SystemFile.zero : SystemFile := ⟨0, false, 0, 0, 0, 0⟩

/-- `resolved_path_t` -/
structure ResolvedPath where
  found : Bool
  isRoot : Bool
  entry : DirEntry
  entryBlock : Nat
  entryIndexInBlock : Int
  parentDirBlock : Nat

def ResolvedPath.zero : ResolvedPath := ⟨false, false, .zero, 0, 0, 0⟩

/-- `superblock_t` -/
structure Superblock where
  fatBlockCount : Nat
  dataStartBlock : Nat
  deriving DecidableEq

/-- What the host does with the next call: carry it out, refuse it, or, for a
`write`, stop after some bytes. -/
inductive HostOutcome where
  | done
  | failed
  | short (count : Nat)
  deriving DecidableEq

/-- A live `mmap` of the first `bytes` bytes of the image. -/
structure Mapping where
  handle : Nat
  bytes : Nat
  deriving DecidableEq

/-- The buffer `g_root_dir` points to. -/
structure RootBuffer where
  handle : Nat
  contents : Buffer

/-- A file of the host. -/
structure HostFile where
  bytes : Nat → UInt8
  size : Nat

def HostFile.empty : HostFile := ⟨fun _ => 0, 0⟩

/-- The module's static variables and the host state behind them. `file` is the image file that was
opened last, `imageName`; what `hostFiles` says of that name is out of date. The FAT is mapped
`MAP_SHARED`, so FAT entries are bytes of the image file. `host` lists what the host
will do with the coming calls; once it is empty every call is carried out. -/
structure Fs where
  file : Nat → UInt8
  fileSize : Nat
  imageName : Option (List UInt8)
  hostFiles : List UInt8 → Option HostFile
  host : List HostOutcome
  openFds : List Nat
  mappings : List Mapping
  buffers : List Nat
  nextHandle : Nat
  gMounted : Bool
  gFsFd : Option Nat
  gBlockSize : Nat
  gFat : Option Mapping
  gRootDir : Option RootBuffer
  gSuperblock : Superblock
  gSysfileTable : Nat → SystemFile
  gFdTable : Nat → FdEntry
  gCwdBlock : Nat

/-- The module as loaded, on a host without files. -/
def Fs.initial : Fs where
  file _ := 0
  fileSize := 0
  imageName := none
  hostFiles _ := none
  host := []
  openFds := []
  mappings := []
  buffers := []
  nextHandle := 0
  gMounted := false
  gFsFd := none
  gBlockSize := 512
  gFat := none
  gRootDir := none
  gSuperblock := ⟨0, 0⟩
  gSysfileTable _ := .zero
  gFdTable _ := .zero
  gCwdBlock := 1

abbrev FsM := Prog Fs

end PennOs.Fat
