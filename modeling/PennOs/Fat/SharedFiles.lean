import PennOs.Lib.SharedFile
import PennOs.Fat.BoundCalls
import PennOs.Fat.SeekWrites

set_option autoImplicit false

/- A file that several descriptors are open on: `k_read`, `k_write` and `k_lseek` through them against
one array of bytes with a cursor for each descriptor. -/
namespace PennOs.Fat

open Fs

/-- The calls on an open file. -/
inductive FileCall where
  | read (fd n : Nat)
  | write (now : UInt64) (fd : Nat) (buf : Buffer) (n : Nat)
  | lseek (fd : Nat) (offset whence : Int)

inductive FileAnswer where
  | bytes (bytes : List UInt8)
  | count (n : Nat)
  | position (offset : Nat)
  | error (err : PennFatErr)
  deriving DecidableEq, Repr

/-- The answer that a call returns. -/
def answerOf {α : Type} (answer : α → FileAnswer) : Except PennFatErr α → FileAnswer
  | .ok a => answer a
  | .error err => .error err

namespace FileCall

def exec : FileCall → FsM FileAnswer
  | .read fd n => do return answerOf .bytes (← kRead fd n)
  | .write now fd buf n => do return answerOf .count (← kWrite now fd buf n)
  | .lseek fd offset whence => do return answerOf .position (← kLseek fd offset whence)

def fd : FileCall → Nat
  | .read fd _ => fd
  | .write _ fd _ _ => fd
  | .lseek fd _ _ => fd

end FileCall

/-- The calls one after the other, with their answers. -/
def execCalls : List FileCall → FsM (List FileAnswer)
  | [] => return []
  | call :: calls => do
      let answer ← call.exec
      return answer :: (← execCalls calls)

/-- An array of bytes with a cursor for each descriptor. -/
abbrev ByteFile := SharedFile Nat UInt8

/-- Where `k_lseek` counts from. -/
def seekBase (file : ByteFile) (fd : Nat) (whence : Int) : Option Nat :=
  if whence = 0 then some 0
  else if whence = 1 then some (file.cursor fd)
  else if whence = 2 then some file.data.length
  else none

namespace FileCall

/-- What a call does with the array of bytes, for descriptors of these modes. -/
def onFile (mode : Nat → UInt32) (file : ByteFile) : FileCall → FileAnswer × ByteFile
  | .read fd n =>
      if hasWrite (mode fd) then (.error .perm, file)
      else (.bytes (file.read fd n).1, (file.read fd n).2)
  | .write _ fd buf n =>
      if hasRead (mode fd) then (.error .perm, file)
      else (.count n, file.write fd ((List.range n).map buf))
  | .lseek fd offset whence =>
      match seekBase file fd whence with
      | none => (.error .invad, file)
      | some base =>
          if base + offset < 0 then (.error .invad, file)
          else (.position (base + offset).toNat, file.seek fd (base + offset).toNat)

/-- A write starts in the file or at its end and stays in the blocks that the file has; a position is a
C integer. -/
def Fits (mode : Nat → UInt32) (capacity : Nat) (file : ByteFile) : FileCall → Prop
  | .read _ _ => True
  | .write _ fd _ n => hasRead (mode fd) = false →
      file.cursor fd ≤ file.data.length ∧ file.cursor fd + n ≤ capacity
  | .lseek fd offset whence => -2 ^ 31 ≤ offset ∧
      ∀ base ∈ seekBase file fd whence, (base : Int) + offset < 2 ^ 31

instance decidableFits (mode : Nat → UInt32) (capacity : Nat) (file : ByteFile) :
    (call : FileCall) → Decidable (call.Fits mode capacity file)
  | .read _ _ => inferInstanceAs (Decidable True)
  | .write _ fd _ n => inferInstanceAs (Decidable (hasRead (mode fd) = false →
      file.cursor fd ≤ file.data.length ∧ file.cursor fd + n ≤ capacity))
  | .lseek fd offset whence => inferInstanceAs (Decidable (-2 ^ 31 ≤ offset ∧
      ∀ base ∈ seekBase file fd whence, (base : Int) + offset < 2 ^ 31))

end FileCall

/-- The answers of the calls and the array of bytes behind them. -/
def onFileCalls (mode : Nat → UInt32) : ByteFile → List FileCall → List FileAnswer × ByteFile
  | file, [] => ([], file)
  | file, call :: calls =>
      let (answer, next) := call.onFile mode file
      let (answers, last) := onFileCalls mode next calls
      (answer :: answers, last)

/-- Every call is through one of the descriptors `fds` and fits. -/
def FitCalls (fds : Finset Nat) (mode : Nat → UInt32) (capacity : Nat) : ByteFile → List FileCall → Prop
  | _, [] => True
  | file, call :: calls => call.fd ∈ fds ∧ call.Fits mode capacity file ∧
      FitCalls fds mode capacity (call.onFile mode file).2 calls

instance decidableFitCalls (fds : Finset Nat) (mode : Nat → UInt32) (capacity : Nat) :
    (file : ByteFile) → (calls : List FileCall) → Decidable (FitCalls fds mode capacity file calls)
  | _, [] => inferInstanceAs (Decidable True)
  | file, call :: calls =>
      have := decidableFitCalls fds mode capacity (call.onFile mode file).2 calls
      inferInstanceAs (Decidable (call.fd ∈ fds ∧ call.Fits mode capacity file ∧
        FitCalls fds mode capacity (call.onFile mode file).2 calls))

namespace Fs

def modeOf (s : Fs) (fd : Nat) : UInt32 := (s.gFdTable fd).mode

/-- The entry `index` of the system-wide table is for a file with the blocks `nodes`, which hold its
size; the array has its bytes, and the offsets of its descriptors for cursors. -/
structure Holds (s : Fs) (index : Nat) (nodes : List Nat) (file : ByteFile) : Prop where
  ready : s.Ready
  fits : s.fileSize ≤ s.fatEntries * s.gBlockSize
  chain : s.Chain (s.gSysfileTable index).firstBlock.toNat nodes
  size : (s.gSysfileTable index).size.toNat ≤ s.capacity nodes
  data : file.data = s.bytesFrom nodes 0 (s.gSysfileTable index).size.toNat
  cursor : ∀ fd ∈ s.holders index, file.cursor fd = s.offsetOf fd ∧ s.offsetOf fd < 2 ^ 31

/-- The descriptors name the same entries in the same modes, and the blocks have the same size. -/
structure SameFds (s t : Fs) : Prop where
  descriptors : ∀ fd, (t.gFdTable fd).inUse = (s.gFdTable fd).inUse ∧
    (t.gFdTable fd).sysfileIndex = (s.gFdTable fd).sysfileIndex ∧ t.modeOf fd = s.modeOf fd
  blockSize : t.gBlockSize = s.gBlockSize

end Fs

variable {s t : Fs} {index fd n : Nat} {nodes : List Nat} {file : ByteFile} {call : FileCall}
  {calls : List FileCall}

section Steps

theorem Fs.SameFds.refl (s : Fs) : SameFds s s := ⟨fun _ => ⟨rfl, rfl, rfl⟩, rfl⟩

theorem Fs.SameFds.trans {u : Fs} (first : SameFds s t) (second : SameFds t u) : SameFds s u where
  descriptors fd := by
    obtain ⟨used, names, mode⟩ := first.descriptors fd
    obtain ⟨used', names', mode'⟩ := second.descriptors fd
    exact ⟨used'.trans used, names'.trans names, mode'.trans mode⟩
  blockSize := second.blockSize.trans first.blockSize

theorem Fs.SameFds.holders (same : SameFds s t) (index : Nat) : t.holders index = s.holders index := by
  ext fd
  obtain ⟨used, names, _⟩ := same.descriptors fd
  rw [mem_holders, mem_holders, used, names]

theorem Fs.SameFds.mode (same : SameFds s t) : t.modeOf = s.modeOf :=
  funext fun fd => (same.descriptors fd).2.2

theorem Fs.SameFds.capacity (same : SameFds s t) (nodes : List Nat) :
    t.capacity nodes = s.capacity nodes := by
  rw [Fs.capacity, Fs.capacity, same.blockSize]

theorem validFd_of_holder (holder : fd ∈ s.holders index) : s.validFd fd = true := by
  obtain ⟨low, used, _⟩ := mem_holders.mp holder
  simp [validFd, used, low]

theorem fileOf_of_holder (holder : fd ∈ s.holders index) : s.fileOf fd = s.gSysfileTable index := by
  rw [fileOf, (mem_holders.mp holder).2.2]

/-- Another offset for one descriptor. -/
theorem setOffset_sameFds (s : Fs) (fd : Nat) (offset : UInt32) :
    SameFds s (s.setFd fd { s.gFdTable fd with offset := offset }) where
  descriptors x := by
    by_cases here : x = fd
    · rw [here, modeOf, setFd_self]
      exact ⟨rfl, rfl, rfl⟩
    · rw [modeOf, setFd_ne s _ here]
      exact ⟨rfl, rfl, rfl⟩
  blockSize := rfl

/-- Where a cursor is moved, the descriptor's offset moves with it. -/
theorem Fs.Holds.moved (holds : s.Holds index nodes file) (fd : Nat) {position : Nat}
    (small : position < 2 ^ 31) :
    (s.seekTo fd position).Holds index nodes (file.seek fd position) where
  ready := { holds.ready with }
  fits := holds.fits
  chain := holds.chain.congr rfl fun _ _ => rfl
  size := holds.size
  data := holds.data
  cursor x holder := by
    rw [seekTo, (setOffset_sameFds s fd _).holders] at holder
    obtain ⟨here, short⟩ := holds.cursor x holder
    by_cases same : x = fd
    · subst same
      have offset : (s.seekTo x position).offsetOf x = position := by
        rw [offsetOf, seekTo, setFd_self, UInt32.toNat_ofNat']
        exact Nat.mod_eq_of_lt (by omega)
      rw [offset]
      exact ⟨SharedFile.seek_cursor_self .., small⟩
    · rw [offsetOf, seekTo, setFd_ne s _ same]
      exact ⟨(SharedFile.seek_cursor_ne file position same).trans here, short⟩

theorem seekBy_eq (s : Fs) (fd count : Nat) : s.seekBy fd count = s.seekTo fd (s.offsetOf fd + count) := by
  rw [seekBy, seekTo, offsetOf, UInt32.ofNat_add, UInt32.ofNat_toNat]

theorem getElem?_bytesFrom (s : Fs) (nodes : List Nat) (from_ count j : Nat) :
    (s.bytesFrom nodes from_ count)[j]? = if j < count then some (s.byteAt nodes (from_ + j)) else none := by
  rw [bytesFrom, List.getElem?_map]
  split
  · rename_i inside
    rw [List.getElem?_range inside, Option.map_some]
  · rename_i outside
    rw [List.getElem?_eq_none (by rw [List.length_range]; omega), Option.map_none]

theorem Fs.Holds.length (holds : s.Holds index nodes file) :
    file.data.length = (s.gSysfileTable index).size.toNat := by
  rw [holds.data, bytesFrom, List.length_map, List.length_range]

theorem Fs.Holds.byte (holds : s.Holds index nodes file) (p : Nat) :
    file.data[p]? = if p < file.data.length then some (s.byteAt nodes p) else none := by
  rw [holds.length, holds.data, getElem?_bytesFrom, Nat.zero_add]

/-- The part of the chain that `k_read` goes over is the part of the array in front of the cursor. -/
theorem Fs.Holds.slice (holds : s.Holds index nodes file) (holder : fd ∈ s.holders index) (n : Nat) :
    s.bytesFrom nodes (s.offsetOf fd) (min n (s.lengthOf fd - s.offsetOf fd)) = file.slice fd n := by
  obtain ⟨here, _⟩ := holds.cursor fd holder
  have length : s.lengthOf fd = (s.gSysfileTable index).size.toNat := by
    rw [lengthOf, fileOf_of_holder holder]
  rw [SharedFile.slice, here, length, ← holds.length]
  apply List.ext_getElem?
  intro j
  rw [List.getElem?_take, List.getElem?_drop, getElem?_bytesFrom, holds.byte]
  by_cases asked : j < n
  · by_cases inside : s.offsetOf fd + j < file.data.length
    · rw [if_pos (by omega), if_pos asked, if_pos inside]
    · rw [if_neg (by omega), if_pos asked, if_neg inside]
  · rw [if_neg (by omega), if_neg asked]

theorem Fs.Holds.read (holds : s.Holds index nodes file) (holder : fd ∈ s.holders index)
    (readable : hasWrite (s.modeOf fd) = false) (n : Nat) :
    ∃ t, kRead fd n s = some (.ok (file.read fd n).1, t) ∧ SameFds s t ∧
      t.Holds index nodes (file.read fd n).2 := by
  obtain ⟨here, short⟩ := holds.cursor fd holder
  have capacity := holds.ready.capacity_lt holds.chain
  have length : s.lengthOf fd = (s.gSysfileTable index).size.toNat := by
    rw [lengthOf, fileOf_of_holder holder]
  have size := holds.size
  have linked := holds.chain.linked holds.ready
  rw [← fileOf_of_holder holder] at linked
  have run := kRead_run holds.ready.toMounted (validFd_of_holder holder) readable linked
    (length ▸ size) (by omega) n
  have count : (file.slice fd n).length = min n (s.lengthOf fd - s.offsetOf fd) := by
    rw [← holds.slice holder, bytesFrom, List.length_map, List.length_range]
  have moves : file.cursor fd + (file.slice fd n).length < 2 ^ 31 := by
    rw [count, here]
    omega
  rw [holds.slice holder, seekBy_eq, ← count, ← here] at run
  exact ⟨_, run, setOffset_sameFds s fd _, holds.moved fd moves⟩

/-- A descriptor of the file as `k_write` finds it. -/
theorem Fs.Holds.openFile (holds : s.Holds index nodes file) (holder : fd ∈ s.holders index)
    (inside : file.cursor fd ≤ file.data.length) : OpenFile s fd nodes := by
  have entry := fileOf_of_holder holder
  obtain ⟨here, _⟩ := holds.cursor fd holder
  refine ⟨holds.ready, holds.fits, validFd_of_holder holder, entry ▸ holds.chain, ?_, ?_⟩
  · rw [lengthOf, entry]
    exact holds.size
  · rw [lengthOf, entry, ← holds.length, ← here]
    exact inside

theorem Written.sameFds {buf : Buffer} (written : Written s t fd nodes buf n) : SameFds s t where
  descriptors x := by
    rw [modeOf, written.descriptor]
    by_cases same : x = fd
    · rw [same, Function.update_self]
      exact ⟨rfl, rfl, rfl⟩
    · rw [Function.update_of_ne same]
      exact ⟨rfl, rfl, rfl⟩
  blockSize := written.blockSize

/-- A write inside the blocks of the file is the splice. -/
theorem Fs.Holds.written {buf : Buffer} (holds : s.Holds index nodes file) (holder : fd ∈ s.holders index)
    (inside : file.cursor fd ≤ file.data.length) (room : file.cursor fd + n ≤ s.capacity nodes)
    (written : Written s t fd nodes buf n) :
    t.Holds index nodes (file.write fd ((List.range n).map buf)) := by
  have opened := holds.openFile holder inside
  have entry := fileOf_of_holder holder
  obtain ⟨here, _⟩ := holds.cursor fd holder
  have capacity := holds.ready.capacity_lt holds.chain
  have length : s.lengthOf fd = file.data.length := by rw [lengthOf, entry, holds.length]
  have fits := opened.holds
  have bytes : ((List.range n).map buf).length = n := by rw [List.length_map, List.length_range]
  have holder' : fd ∈ t.holders index := by
    rw [written.sameFds.holders]
    exact holder
  have entry' := fileOf_of_holder holder'
  have size := written.size_eq (by omega)
  rw [lengthOf, entry', here.symm, length] at size
  constructor
  · exact written.ready
  · rw [written.fileSize, written.fatEntries_eq, written.blockSize]
    exact holds.fits
  · rw [← entry']
    exact written.chain opened
  · rw [size, written.capacity_eq]
    omega
  · rw [size]
    apply List.ext_getElem?
    intro p
    rw [SharedFile.write, SharedFile.getElem?_splice _ _ inside, getElem?_bytesFrom, Nat.zero_add, bytes]
    by_cases new : file.cursor fd ≤ p ∧ p < file.cursor fd + n
    · have byte := written.bytes p (by omega)
      rw [spliced, ← here, if_pos new] at byte
      rw [if_pos new, if_pos (by omega), byte, List.getElem?_map, List.getElem?_range (by omega),
        Option.map_some]
    · rw [if_neg new, holds.byte]
      by_cases old : p < file.data.length
      · have byte := written.bytes p (by omega)
        rw [spliced, ← here, if_neg new] at byte
        rw [if_pos old, if_pos (by omega), byte]
      · rw [if_neg old, if_neg (by omega)]
  · intro x other
    rw [written.sameFds.holders] at other
    obtain ⟨there, small⟩ := holds.cursor x other
    by_cases same : x = fd
    · subst same
      have offset := written.offset_eq (by omega)
      rw [SharedFile.write_cursor_self, bytes, offset, ← here]
      omega
    · have offset : t.offsetOf x = s.offsetOf x := by
        rw [offsetOf, written.descriptor, Function.update_of_ne same, offsetOf]
      rw [SharedFile.write_cursor_ne file _ same, offset]
      exact ⟨there, small⟩

theorem Fs.Holds.write (holds : s.Holds index nodes file) (holder : fd ∈ s.holders index)
    (writable : hasRead (s.modeOf fd) = false) (inside : file.cursor fd ≤ file.data.length)
    (room : file.cursor fd + n ≤ s.capacity nodes) (now : UInt64) (buf : Buffer) :
    ∃ t, kWrite now fd buf n s = some (.ok n, t) ∧ SameFds s t ∧
      t.Holds index nodes (file.write fd ((List.range n).map buf)) := by
  obtain ⟨here, _⟩ := holds.cursor fd holder
  obtain ⟨t, run, written⟩ := kWrite_run (holds.openFile holder inside) writable now buf n
  rw [Nat.min_eq_left (by omega)] at run written
  exact ⟨t, run, written.sameFds, holds.written holder inside room written⟩

theorem wrapInt_inside {k : Int} (low : -2 ^ 31 ≤ k) (high : k < 2 ^ 31) : wrapInt k = k := by
  rw [wrapInt, Int.bmod_eq_of_le_mul_two]
  · omega
  · omega

theorem Fs.Holds.seek (holds : s.Holds index nodes file) (holder : fd ∈ s.holders index) {offset whence : Int}
    (low : -2 ^ 31 ≤ offset)
    (high : ∀ base ∈ seekBase file fd whence, (base : Int) + offset < 2 ^ 31) :
    ∃ t, (FileCall.lseek fd offset whence).exec s =
        some (((FileCall.lseek fd offset whence).onFile s.modeOf file).1, t) ∧
      SameFds s t ∧ t.Holds index nodes ((FileCall.lseek fd offset whence).onFile s.modeOf file).2 := by
  obtain ⟨here, short⟩ := holds.cursor fd holder
  have flag : s.gMounted = true := holds.ready.flag
  have valid := validFd_of_holder holder
  have capacity := holds.ready.capacity_lt holds.chain
  have size := holds.size
  have length := holds.length
  have base : (if whence = 0 then some (0 : Int)
      else if whence = 1 then some (wrapInt (s.offsetOf fd))
      else if whence = 2 then some (wrapInt (s.lengthOf fd))
      else none) = (seekBase file fd whence).map Nat.cast := by
    rw [seekBase, lengthOf, fileOf_of_holder holder, wrapInt_inside (by omega) (by omega),
      wrapInt_inside (by omega) (by omega), here, length]
    split_ifs
    · rfl
    · rfl
    · rfl
    · rfl
  simp only [fileOf, lengthOf, offsetOf] at base
  cases found : seekBase file fd whence with
  | none =>
      have run : kLseek fd offset whence s = some (.error .invad, s) := by
        simp only [kLseek, Prog.get_bind, flag, valid, Int.toNat_natCast, Bool.not_true, Bool.false_eq_true,
          ↓reduceIte, base, found, Option.map_none, Prog.pure_run]
      rw [FileCall.exec, FileCall.onFile, found]
      exact ⟨s, Prog.bind_of_run run _, .refl s, holds⟩
  | some base' =>
      have small := high base' found
      have target := wrapInt_inside (show -2 ^ 31 ≤ (base' : Int) + offset by omega) small
      rw [FileCall.exec, FileCall.onFile, found]
      by_cases negative : (base' : Int) + offset < 0
      · have run : kLseek fd offset whence s = some (.error .invad, s) := by
          simp only [kLseek, Prog.get_bind, flag, valid, Int.toNat_natCast, Bool.not_true, Bool.false_eq_true,
            ↓reduceIte, base, found, Option.map_some, target, negative, Prog.pure_run]
        simp only [negative, ↓reduceIte]
        exact ⟨s, Prog.bind_of_run run _, .refl s, holds⟩
      · have run : kLseek fd offset whence s =
            some (.ok ((base' : Int) + offset).toNat, s.seekTo fd ((base' : Int) + offset).toNat) := by
          simp only [kLseek, Prog.get_bind, flag, valid, Int.toNat_natCast, Bool.not_true, Bool.false_eq_true,
            ↓reduceIte, base, found, Option.map_some, target, negative, Prog.modify_bind, Prog.pure_run]
          rfl
        simp only [negative, ↓reduceIte]
        exact ⟨_, Prog.bind_of_run run _, setOffset_sameFds s fd _, holds.moved fd (by omega)⟩

/-- A call through a descriptor of the file does with the chain what it does with the array. -/
theorem Fs.Holds.step (holds : s.Holds index nodes file) (holder : call.fd ∈ s.holders index)
    (fits : call.Fits s.modeOf (s.capacity nodes) file) :
    ∃ t, call.exec s = some ((call.onFile s.modeOf file).1, t) ∧ SameFds s t ∧
      t.Holds index nodes (call.onFile s.modeOf file).2 := by
  have flag : s.gMounted = true := holds.ready.flag
  cases call with
  | read fd n =>
      have valid := validFd_of_holder holder
      by_cases mode : hasWrite (s.modeOf fd) = true
      · have run : kRead fd n s = some (.error .perm, s) := by
          simp only [modeOf] at mode
          simp only [FileCall.fd] at valid
          simp only [kRead, Prog.get_bind, flag, valid, mode, Int.toNat_natCast, Bool.not_true,
            Bool.false_eq_true, ↓reduceIte, Prog.pure_run]
        rw [FileCall.exec, FileCall.onFile, if_pos mode]
        exact ⟨s, Prog.bind_of_run run _, .refl s, holds⟩
      · have readable : hasWrite (s.modeOf fd) = false := by simpa using mode
        obtain ⟨t, run, same, holds'⟩ := holds.read holder readable n
        rw [FileCall.exec, FileCall.onFile, if_neg mode]
        exact ⟨t, Prog.bind_of_run run _, same, holds'⟩
  | write now fd buf n =>
      have valid := validFd_of_holder holder
      by_cases mode : hasRead (s.modeOf fd) = true
      · have run : kWrite now fd buf n s = some (.error .perm, s) := by
          simp only [modeOf] at mode
          simp only [FileCall.fd] at valid
          simp only [kWrite, Prog.get_bind, flag, valid, mode, Int.toNat_natCast, Bool.not_true,
            Bool.false_eq_true, ↓reduceIte, Prog.pure_run]
        rw [FileCall.exec, FileCall.onFile, if_pos mode]
        exact ⟨s, Prog.bind_of_run run _, .refl s, holds⟩
      · have writable : hasRead (s.modeOf fd) = false := by simpa using mode
        obtain ⟨inside, room⟩ := fits writable
        obtain ⟨t, run, same, holds'⟩ := holds.write holder writable inside room now buf
        rw [FileCall.exec, FileCall.onFile, if_neg mode]
        exact ⟨t, Prog.bind_of_run run _, same, holds'⟩
  | lseek fd offset whence => exact holds.seek holder fits.1 fits.2

theorem Fs.Holds.run (holds : s.Holds index nodes file)
    (fits : FitCalls (s.holders index) s.modeOf (s.capacity nodes) file calls) :
    ∃ t, execCalls calls s = some ((onFileCalls s.modeOf file calls).1, t) ∧ SameFds s t ∧
      t.Holds index nodes (onFileCalls s.modeOf file calls).2 := by
  induction calls generalizing s file with
  | nil => exact ⟨s, rfl, .refl s, holds⟩
  | cons call calls ih =>
      obtain ⟨holder, here, later⟩ := fits
      obtain ⟨t, run, same, holds'⟩ := holds.step holder here
      rw [← same.holders, ← same.mode, ← same.capacity] at later
      rw [← same.mode] at run holds' ⊢
      obtain ⟨u, rest, same', holds''⟩ := ih holds' later
      exact ⟨u, by rw [execCalls, Prog.bind_of_run run, Prog.bind_of_run rest]; rfl, same.trans same', holds''⟩

end Steps

section Files

/-- The bytes of an open file and the offsets of the descriptors. -/
def Fs.byteFile (s : Fs) (index : Nat) (nodes : List Nat) : ByteFile where
  data := s.bytesFrom nodes 0 (s.gSysfileTable index).size.toNat
  cursor := s.offsetOf

/-- An open file whose blocks hold its size. -/
theorem Binding.holds (binding : Binding s) (low : index < maxSystemFiles)
    (used : (s.gSysfileTable index).inUse = true)
    (chain : s.Chain (s.gSysfileTable index).firstBlock.toNat nodes)
    (size : (s.gSysfileTable index).size.toNat ≤ s.capacity nodes)
    (short : ∀ fd ∈ s.holders index, s.offsetOf fd < 2 ^ 31) :
    s.Holds index nodes (s.byteFile index nodes) := by
  cases binding with
  | stored stored unused =>
      rw [unused index low] at used
      cases used
  | mounted resting bound =>
      exact ⟨resting.tracks.ready, resting.tracks.volume.fits, chain, size, rfl,
        fun fd holder => ⟨rfl, short fd holder⟩⟩

/-- What is written through one descriptor is read through another one. -/
theorem Fs.Holds.written_read {fd' : Nat} (holds : s.Holds index nodes file) (holder : fd ∈ s.holders index)
    (holder' : fd' ∈ s.holders index) (writable : hasRead (s.modeOf fd) = false)
    (readable : hasWrite (s.modeOf fd') = false) (inside : file.cursor fd ≤ file.data.length)
    (room : file.cursor fd + n ≤ s.capacity nodes) (now : UInt64) (buf : Buffer) :
    ∃ t, execCalls [.write now fd buf n, .lseek fd' (file.cursor fd) 0, .read fd' n] s =
      some ([.count n, .position (file.cursor fd), .bytes ((List.range n).map buf)], t) := by
  have small := (holds.cursor fd holder).2
  rw [← (holds.cursor fd holder).1] at small
  have target : ∀ base : Nat, base = 0 → (base : Int) + file.cursor fd < 2 ^ 31 := by omega
  have fits : FitCalls (s.holders index) s.modeOf (s.capacity nodes) file
      [.write now fd buf n, .lseek fd' (file.cursor fd) 0, .read fd' n] :=
    ⟨holder, fun _ => ⟨inside, room⟩, holder',
      ⟨by omega, fun base found => target base (Option.some.inj found).symm⟩, holder', trivial, trivial⟩
  obtain ⟨t, run, _, _⟩ := holds.run fits
  have bytes : ((List.range n).map buf).length = n := by rw [List.length_map, List.length_range]
  have back := file.read_write fd fd' ((List.range n).map buf) inside
  rw [bytes] at back
  have positive : ¬ ((0 : Nat) : Int) + (file.cursor fd : Int) < 0 := by omega
  have position : (((0 : Nat) : Int) + (file.cursor fd : Int)).toNat = file.cursor fd := by omega
  simp only [onFileCalls, FileCall.onFile, writable, readable, Bool.false_eq_true, ↓reduceIte,
    seekBase, positive,
    position, back] at run
  exact ⟨t, run⟩

/-- In runs of calls that take no slot of an open file, `k_read`, `k_write` and `k_lseek` through the
descriptors of an open file that stay in its blocks do with it what they do with an array of bytes. -/
theorem open_file_refines (hostFiles : List UInt8 → Option HostFile) (fsName : List UInt8)
    (config : Int) (s : Fs)
    (host : HostSound .keepOpen hostFiles fsName) (low : 0 ≤ config) (high : config ≤ 4)
    (run : Run BindSound (freshVolume hostFiles fsName config) s) (index : Nat)
    (nodes : List Nat) (calls : List FileCall) (inside : index < maxSystemFiles)
    (used : (s.gSysfileTable index).inUse = true)
    (chain : s.Chain (s.gSysfileTable index).firstBlock.toNat nodes)
    (size : (s.gSysfileTable index).size.toNat ≤ s.capacity nodes)
    (short : ∀ fd ∈ s.holders index, s.offsetOf fd < 2 ^ 31)
    (fits : FitCalls (s.holders index) s.modeOf (s.capacity nodes) (s.byteFile index nodes) calls) :
    ∃ t, execCalls calls s = some ((onFileCalls s.modeOf (s.byteFile index nodes) calls).1, t) ∧
      t.Holds index nodes (onFileCalls s.modeOf (s.byteFile index nodes) calls).2 := by
  obtain ⟨binding, _⟩ := binding_run host low high run
  obtain ⟨t, done, _, holds⟩ := (binding.holds inside used chain size short).run fits
  exact ⟨t, done, holds⟩

/-- Two more writes and reads through the two descriptors of `openedFiles`. -/
def openedCalls : List FileCall :=
  [.write 4 0 (fun _ => 8) 3, .lseek 1 (-3) 2, .read 1 9, .lseek 1 0 0, .read 1 6, .write 5 1 (fun _ => 9) 1]

theorem openedFiles_chain : ((runCalls openedFiles).after blankVolume).Chain
    (((runCalls openedFiles).after blankVolume).gSysfileTable 0).firstBlock.toNat [2] where
  links := ⟨by decide +kernel,
    (by decide +kernel : nextBlock ((runCalls openedFiles).after blankVolume).fat 2 = none)⟩
  inside := by decide +kernel

theorem open_file_refines_openedFiles : ∃ t,
    execCalls openedCalls ((runCalls openedFiles).after blankVolume) =
      some ([.count 3, .position 5, .bytes [8, 8, 8], .position 0, .bytes [7, 7, 7, 7, 7, 8],
        .error .perm], t) := by
  have answers : (onFileCalls ((runCalls openedFiles).after blankVolume).modeOf
      (((runCalls openedFiles).after blankVolume).byteFile 0 [2]) openedCalls).1 =
      [.count 3, .position 5, .bytes [8, 8, 8], .position 0, .bytes [7, 7, 7, 7, 7, 8], .error .perm] := by
    decide +kernel
  obtain ⟨t, run, _⟩ := open_file_refines _ imageA.bytes 0 _ (.empty (by decide)) (by decide) (by decide)
    openedFiles_run 0 [2] openedCalls (by decide) (by decide +kernel) openedFiles_chain
      (by decide +kernel) (by decide +kernel)
    (by decide +kernel)
  exact ⟨t, answers ▸ run⟩

end Files

end PennOs.Fat
