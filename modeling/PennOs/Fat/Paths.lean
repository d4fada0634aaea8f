import PennOs.Fat.Directories

set_option autoImplicit false

/- Path resolution. -/
namespace PennOs.Fat

def slash : UInt8 := 47

def dot : List UInt8 := [46]

def dotDot : List UInt8 := [46, 46]

/-- The `strtok(path, "/")` tokens; `acc` holds the token being read, last byte first. -/
def tokensFrom : List UInt8 → List UInt8 → List (List UInt8)
  | acc, [] => if acc = [] then [] else [acc.reverse]
  | acc, c :: rest =>
      if c = slash then
        if acc = [] then tokensFrom [] rest else acc.reverse :: tokensFrom [] rest
      else tokensFrom (c :: acc) rest

/-- The components of the copy of the path kept in `path_copy[PATH_MAX]`. -/
def components (path : List UInt8) : List (List UInt8) := tokensFrom [] (path.take (pathMax - 1))

/-- `get_filename_from_path`: what follows the last slash. -/
def getFilenameFromPath : List UInt8 → List UInt8
  | [] => []
  | c :: rest => if slash ∈ rest then getFilenameFromPath rest else if c = slash then rest else c :: rest

/-- The C string in the first `len` bytes of a buffer. -/
def cStringIn (buf : Buffer) (len : Nat) : List UInt8 :=
  ((List.range len).map buf).takeWhile (· ≠ 0)

/-- `read_symlink_target` into a `PATH_MAX` buffer. -/
def readSymlinkTarget (link : DirEntry) : FsM (Except PennFatErr (List UInt8)) := do
  if link.type ≠ DirEntry.typeSymlink then return .error .invad
  if !(← malloc) then return .error .outofmem
  match ← readBlock link.firstBlock.toNat with
  | none => return .error .io
  | some buf => return .ok (cStringIn buf (min link.size.toNat (pathMax - 1)))

/-- The directory entries `resolve_path_internal` makes up for directories it did not
look up by name. -/
def dirEntryFor (name : List UInt8) (block : Nat) (mtime : UInt64) : DirEntry :=
  { DirEntry.zero with
    name := DirEntry.packName name
    type := DirEntry.typeDirectory
    perm := defPerm
    firstBlock := UInt16.ofNat block
    mtime := mtime }

/-- The result for a directory reached without a lookup of its own. -/
def resolvedDir (name : List UInt8) (block parent : Nat) (mtime : UInt64) : ResolvedPath where
  found := true
  isRoot := decide (block = 1)
  entry := dirEntryFor name block mtime
  entryBlock := block
  entryIndexInBlock := -1
  parentDirBlock := parent

/-- The result for a component that is missing, or that is not a directory. -/
def unresolvedIn (parent : Nat) : ResolvedPath := { ResolvedPath.zero with parentDirBlock := parent }

/-- The component loop of `resolve_path_internal`. `recurse` resolves the target of a
symbolic link found in last position. -/
def walk (now : UInt64) (follow : Bool) (recurse : List UInt8 → FsM (PennFatErr × ResolvedPath)) :
    List (List UInt8) → Nat → Nat → FsM (PennFatErr × ResolvedPath)
  | [], currentDir, parentDir => return (.ok, resolvedDir dot currentDir parentDir now)
  | component :: rest, currentDir, parentDir => do
      if component = dot then walk now follow recurse rest currentDir parentDir
      else if component = dotDot then
        if currentDir = 1 then walk now follow recurse rest currentDir parentDir
        else match ← findEntryInDir currentDir dotDot with
          | .error err => return (err, .zero)
          | .ok up =>
              if !up.found then return (.ok, .zero)
              else walk now follow recurse rest up.entry.firstBlock.toNat currentDir
      else match ← findEntryInDir currentDir component with
        | .error err => return (err, .zero)
        | .ok hit =>
            if !hit.found then return (.ok, unresolvedIn currentDir)
            else match rest with
              | [] =>
                  if follow ∧ hit.entry.type = DirEntry.typeSymlink then
                    match ← readSymlinkTarget hit.entry with
                    | .error err => return (err, .zero)
                    | .ok target => recurse target
                  else return (.ok, { hit with parentDirBlock := currentDir })
              | _ :: _ =>
                  if hit.entry.type ≠ DirEntry.typeDirectory then
                    return (.notdir, unresolvedIn currentDir)
                  else walk now follow recurse rest hit.entry.firstBlock.toNat currentDir

/-- `resolve_path_internal`, with `9 - symlink_depth` levels left. -/
def resolvePathInternal (now : UInt64) (follow : Bool) :
    Nat → List UInt8 → FsM (PennFatErr × ResolvedPath)
  | 0, _ => return (.range, .zero)
  | levels + 1, path => do
      let s ← Prog.get
      match path with
      | [] =>
          if s.gCwdBlock = 1 then return (.ok, resolvedDir [slash] 1 1 now)
          else return (.ok, resolvedDir dot s.gCwdBlock s.gCwdBlock 0)
      | c :: rest =>
          let recurse := resolvePathInternal now follow levels
          if c = slash then
            if rest = [] then
              return (.ok, resolvedDir [slash] 1 1 now)
            else
              walk now follow recurse (components rest) 1 1
          else
            walk now follow recurse (components path) s.gCwdBlock s.gCwdBlock

def symlinkLevels : Nat := 9

/-- `resolve_path`. For the path "/" the entry and the parent stay zero. -/
def resolvePath (now : UInt64) (path : List UInt8) : FsM (PennFatErr × ResolvedPath) :=
  if path = [slash] then
    return (.ok, { ResolvedPath.zero with found := true, isRoot := true, entryBlock := 1 })
  else resolvePathInternal now true symlinkLevels path

/-- `resolve_path_no_follow` -/
def resolvePathNoFollow (now : UInt64) (path : List UInt8) : FsM (PennFatErr × ResolvedPath) :=
  resolvePathInternal now false symlinkLevels path

end PennOs.Fat
