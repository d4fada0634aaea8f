import PennOs.Fat.ChainContents

set_option autoImplicit false

/- `k_read` against the slice of a byte array. -/
namespace PennOs.Fat

open LinkedChain (Links)
open Fs

/-- A descriptor that may read is open on a file. Its chain ends, has blocks for the whole file,
and the sizes fit a C `int`. -/
structure ReadRequest (s : Fs) (fatBlocks fd : Nat) (nodes : List Nat) : Prop where
  mounted : s.Mounted fatBlocks
  valid : s.validFd fd = true
  readable : hasWrite (s.gFdTable fd).mode = false
  linked : s.Linked (s.fileOf fd).firstBlock.toNat nodes
  holds : s.lengthOf fd ≤ s.capacity nodes
  short : s.lengthOf fd < 2 ^ 31

/-- How many of `n` bytes the file has left at the offset. -/
def Fs.leftOf (s : Fs) (fd n : Nat) : Nat := min n (s.lengthOf fd - s.offsetOf fd)

/-- The caller has the bytes from the offset on, and the offset is behind them. Nothing else moved. -/
structure SliceRead (s : Fs) (fd : Nat) (nodes : List Nat) (n : Nat)
    (result : Except PennFatErr (List UInt8)) (t : Fs) : Prop where
  bytes : ∃ bytes, result = .ok bytes ∧ bytes.length = s.leftOf fd n ∧
    ∀ j < s.leftOf fd n, bytes[j]? = some (s.byteAt nodes (s.offsetOf fd + j))
  offset : t.offsetOf fd = s.offsetOf fd + s.leftOf fd n
  rest : t = s.setFd fd { s.gFdTable fd with offset := (t.gFdTable fd).offset }

theorem kRead_slice {s : Fs} {fatBlocks fd : Nat} {nodes : List Nat}
    (request : ReadRequest s fatBlocks fd nodes) (n : Nat) :
    Prog.Ensures (kRead fd n) s (SliceRead s fd nodes n) := by
  obtain ⟨mounted, valid, readable, linked, holds, short⟩ := request
  have inside : s.offsetOf fd < 2 ^ 32 := (s.gFdTable fd).offset.toNat_lt
  refine .of_run (kRead_run mounted valid readable linked holds short n) ⟨?_, ?_, ?_⟩
  · refine ⟨_, rfl, ?_, fun j small => ?_⟩
    · simp only [bytesFrom, List.length_map, List.length_range, leftOf]
    · simp only [leftOf] at small
      simp only [bytesFrom, List.getElem?_map, List.getElem?_range small, Option.map_some]
  · exact seekBy_offsetOf (by omega)
  · simp only [seekBy, setFd_self]

section Witness

/-- A file of 300 bytes in the blocks 2 and 3, open for reading at offset 250. -/
def twoBlocks : Fs :=
  { Fs.initial with
    file := fun a =>
      if a = 4 then 3 else if a = 6 ∨ a = 7 then 0xFF else if a < 512 then 0 else UInt8.ofNat a
    fileSize := 128 * 256
    openFds := [0]
    mappings := [⟨1, 256⟩]
    gMounted := true
    gFsFd := some 0
    gBlockSize := 256
    gFat := some ⟨1, 256⟩
    gSuperblock := ⟨1, 2⟩
    gSysfileTable := fun _ => ⟨1, true, 2, 300, 0, 65536⟩
    gFdTable := fun _ => ⟨true, 0, 2, 250⟩ }

theorem twoBlocks_request : ReadRequest twoBlocks 1 0 [2, 3] where
  mounted :=
    { flag := rfl
      blockSize := ⟨0, by decide, rfl⟩
      descriptor := rfl
      superblock := rfl
      mapping := ⟨⟨1, 256⟩, rfl, by decide, rfl⟩
      count := by decide
      host := rfl }
  valid := by decide
  readable := by decide
  linked :=
    { links := ⟨by decide, by decide, (by decide : nextBlock twoBlocks.fat 3 = none)⟩
      used := by decide
      mapped := by decide
      stored := by decide }
  holds := by decide
  short := by decide

theorem kRead_slice_twoBlocks : Prog.Ensures (kRead 0 100) twoBlocks (SliceRead twoBlocks 0 [2, 3] 100) ∧
    twoBlocks.leftOf 0 100 = 50 :=
  ⟨kRead_slice twoBlocks_request 100, by decide⟩

end Witness

end PennOs.Fat
