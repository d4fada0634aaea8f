import PennOs.Fat.LiveDirectories
import PennOs.Fat.PathWalks
import PennOs.Fat.RemovedDirectories

set_option autoImplicit false

/- `k_getcwd`: the path of the current directory, rebuilt from '..' entries and the names found in the
directories above. -/
namespace PennOs.Fat

open LinkedChain (Links)
open Fs

section Model

/-- The entries `find_dir_name_in_parent` takes the name of. -/
def namesDir (target : Nat) (entry : DirEntry) : Bool :=
  entry.live && entry.type == DirEntry.typeDirectory && entry.firstBlock.toNat == target &&
    entry.cName != dot && entry.cName != dotDot

/-- The inner loop of `find_dir_name_in_parent`: an empty name ends the block. -/
def scanForDir (row : Nat → DirEntry) (target : Nat) : Nat → Nat → Option Nat
  | 0, _ => none
  | count + 1, index =>
      if namesDir target (row index) then some index
      else if (row index).name0 = 0 then none
      else scanForDir row target count (index + 1)

/-- The outer loop of `find_dir_name_in_parent`. The name is copied to a buffer of `bufSize` bytes. -/
def dirNameLoop (target bufSize : Nat) : Nat → Nat → FsM (Except PennFatErr (List UInt8))
  | 0, _ => Prog.fault
  | fuel + 1, currentBlock => do
      if currentBlock = fatEoc ∨ currentBlock = fatFree then return .error .exist
      match ← readBlock currentBlock with
      | none => return .error .io
      | some buf =>
          let s ← Prog.get
          match scanForDir (direntAt buf) target s.entriesPerBlock 0 with
          | some index => return .ok ((direntAt buf index).cName.take (bufSize - 1))
          | none => dirNameLoop target bufSize fuel (← fatGet currentBlock)

/-- `find_dir_name_in_parent` -/
def findDirNameInParent (target parent bufSize : Nat) : FsM (Except PennFatErr (List UInt8)) := do
  let s ← Prog.get
  if !s.gMounted ∨ bufSize = 0 then return .error .invad
  if parent = fatFree ∨ parent = fatEoc ∨ target = fatFree ∨ target = fatEoc then return .error .invad
  if target = 1 then return .ok []
  if !(← malloc) then return .error .outofmem
  dirNameLoop target bufSize (chainFuel + 1) parent

/-- `snprintf(temp_path, PATH_MAX, "/%s%s", component, current_path)` -/
def prepend (component path : List UInt8) : List UInt8 := (slash :: component ++ path).take (pathMax - 1)

/-- `sizeof(component) - 1` -/
def componentSize : Nat := 32

/-- The loop of `k_getcwd`, with `max_depth - safety_count` turns left. -/
def climb : Nat → Nat → List UInt8 → FsM (Except PennFatErr (List UInt8))
  | 0, _, _ => return .error .range
  | left + 1, currentDir, path => do
      if currentDir = 1 then return .ok path
      match ← findEntryInDir currentDir dotDot with
      | .error _ => return .error .io
      | .ok up =>
          if !up.found then return .error .io
          let parentDir := up.entry.firstBlock.toNat
          match ← findDirNameInParent currentDir parentDir componentSize with
          | .error _ => return .error .io
          | .ok component => climb left parentDir (prepend component path)

end Model

/-- A name that a path can go through. -/
structure DirName (name : List UInt8) : Prop where
  more : name ≠ []
  noSlash : slash ∉ name
  notDot : name ≠ dot
  notUp : name ≠ dotDot
  fits : name.length < componentSize

/-- A search of the directory for the name stops at the slot `p`. -/
def Fs.Finds (s : Fs) (d : Nat) (name : List UInt8) (p : Nat × Nat) : Prop :=
  ∃ nodes, s.Linked d nodes ∧ s.view.find name nodes = some p

/-- The names, with a slash before each. -/
def slashed (names : List (List UInt8)) : List UInt8 := names.flatMap fun name => slash :: name

variable {s : Fs} {fatBlocks d d' b : Nat} {p q : Nat × Nat} {name : List UInt8}
  {names names' : List (List UInt8)} {nodes : List Nat} {now : UInt64} {follow : Bool}
  {recurse : List UInt8 → FsM (PennFatErr × ResolvedPath)}

section Chains

theorem cNameFrom_noNul (name : Fin 32 → UInt8) (index fuel : Nat) :
    0 ∉ DirEntry.cNameFrom name index fuel := by
  induction fuel generalizing index with
  | zero => exact List.not_mem_nil
  | succ fuel ih =>
      rw [DirEntry.cNameFrom]
      split
      · split
        · exact List.not_mem_nil
        · next visible => exact fun member =>
            (List.mem_cons.mp member).elim (fun zero => visible zero.symm) (ih _)
      · exact List.not_mem_nil

/-- A name in a directory has no NUL. -/
theorem Fs.Finds.noNul (found : s.Finds d name p) : 0 ∉ name := by
  obtain ⟨nodes, _, found⟩ := found
  obtain ⟨_, _, _, same, _⟩ := find_some found
  rw [← same]
  exact cNameFrom_noNul _ 0 32

end Chains

section Trees

variable (tree : DirTree s fatBlocks)

include tree

/-- '.' and '..' are not found under another name. -/
theorem DirTree.entry (here : s.Dir d) (proper : DirName name) (found : s.Finds d name p) :
    s.Entry d p ∧ (s.dirent p).cName = name := by
  obtain ⟨nodes, linked, found⟩ := found
  obtain ⟨member, inside, live, same, _⟩ := find_some found
  have same' : (s.dirent p).cName = name := same
  refine ⟨⟨⟨here, linked.onChain p.1 member, inside⟩, live, fun isDot => ?_⟩, same⟩
  rcases tree.dotSlot_name here isDot with isDot | isUp
  · exact proper.notDot (same'.symm.trans isDot)
  · exact proper.notUp (same'.symm.trans isUp)

/-- An entry of a directory is the only one for what it names, and '..' leads back from there. -/
theorem DirTree.only (entry : s.Entry d p) (isDir : (s.dirent p).type = DirEntry.typeDirectory) :
    s.firstOf p ≠ 1 ∧ s.up (s.firstOf p) = d ∧ ∀ d' q, s.Entry d' q → s.firstOf q = s.firstOf p → q = p := by
  have proper := tree.root d p entry
  have sub : s.Dir (s.firstOf p) := .sub entry.dir entry.block entry.index entry.live entry.named isDir
  obtain ⟨o, q, entry', first, unique, _, up⟩ := tree.shaped.parent _ sub proper
  obtain rfl := unique d p entry rfl
  refine ⟨proper, ?_, unique⟩
  rw [up]
  exact tree.apart o d p.1 entry'.dir entry.dir entry'.block entry.block

end Trees

section Climbing

variable {row row' : Nat → DirEntry} {target count index found : Nat}

variable (tree : DirTree s fatBlocks)

include tree

end Climbing

section Texts

end Texts

section Resolving

variable (tree : DirTree s fatBlocks)

include tree

end Resolving

section Telling

variable (tree : DirTree s fatBlocks)

include tree

end Telling

section Answers

end Answers

section Examples

end Examples

end PennOs.Fat
