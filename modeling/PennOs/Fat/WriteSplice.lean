import PennOs.Fat.ChainContents
import PennOs.Fat.MountRuns

set_option autoImplicit false

/- `k_write` against the splice of a byte array. -/
namespace PennOs.Fat

open LinkedChain (Links)
open Fs

/-- A descriptor is open on a file whose chain holds its size and whose offset is not past it.
The image has the length `k_mkfs` gives it. -/
structure OpenFile (s : Fs) (fd : Nat) (nodes : List Nat) : Prop where
  ready : s.Ready
  fits : s.fileSize ≤ s.fatEntries * s.gBlockSize
  valid : s.validFd fd = true
  chain : s.Chain (s.fileOf fd).firstBlock.toNat nodes
  holds : s.lengthOf fd ≤ s.capacity nodes
  offset : s.offsetOf fd ≤ s.lengthOf fd

/-- What the chain at `nodes` holds after `count` bytes of `buf` went to position `start`. -/
def spliced (s : Fs) (nodes : List Nat) (start count : Nat) (buf : Buffer) (p : Nat) : UInt8 :=
  if start ≤ p ∧ p < start + count then buf (p - start) else s.byteAt nodes p

/-- `t` is `s` after `total` bytes were written through `fd` at its offset. -/
structure Written (s t : Fs) (fd : Nat) (nodes : List Nat) (buf : Buffer) (total : Nat) :
    Prop where
  ready : t.Ready
  fileSize : t.fileSize = s.fileSize
  blockSize : t.gBlockSize = s.gBlockSize
  fat : ∀ b < s.fatEntries, t.fat b = s.fat b
  descriptor : t.gFdTable = Function.update s.gFdTable fd
    { s.gFdTable fd with offset := UInt32.ofNat (s.offsetOf fd + total) }
  file : ∃ mtime, t.gSysfileTable = Function.update s.gSysfileTable
    (s.gFdTable fd).sysfileIndex
    { s.fileOf fd with
      size := UInt32.ofNat (max (s.lengthOf fd) (s.offsetOf fd + total)), mtime := mtime }
  bytes : ∀ p < s.capacity nodes, t.byteAt nodes p = spliced s nodes (s.offsetOf fd) total buf p

variable {s t : Fs} {fd : Nat} {nodes : List Nat} {buf : Buffer} {total : Nat} {now : UInt64}

theorem OpenFile.written_zero (opened : OpenFile s fd nodes) : Written s s fd nodes buf 0 where
  ready := opened.ready
  fileSize := rfl
  blockSize := rfl
  fat _ _ := rfl
  descriptor := by simp [offsetOf]
  file := by
    refine ⟨(s.fileOf fd).mtime, ?_⟩
    have size : max (s.lengthOf fd) (s.offsetOf fd + 0) = (s.fileOf fd).size.toNat :=
      Nat.max_eq_left opened.offset
    rw [size, UInt32.ofNat_toNat]
    exact (Function.update_eq_self _ _).symm
  bytes p _ := by
    rw [spliced, if_neg (by omega)]

namespace Written

variable (written : Written s t fd nodes buf total)

include written

theorem offset_eq (bound : s.offsetOf fd + total < 2 ^ 32) :
    t.offsetOf fd = s.offsetOf fd + total := by
  simp only [offsetOf, written.descriptor, Function.update_self, UInt32.toNat_ofNat']
  exact Nat.mod_eq_of_lt bound

theorem sysfileIndex_eq : (t.gFdTable fd).sysfileIndex = (s.gFdTable fd).sysfileIndex := by
  simp only [written.descriptor, Function.update_self]

theorem firstBlock_eq : (t.fileOf fd).firstBlock = (s.fileOf fd).firstBlock := by
  obtain ⟨mtime, file⟩ := written.file
  rw [fileOf, written.sysfileIndex_eq, file, Function.update_self]

theorem size_eq (bound : max (s.lengthOf fd) (s.offsetOf fd + total) < 2 ^ 32) :
    t.lengthOf fd = max (s.lengthOf fd) (s.offsetOf fd + total) := by
  obtain ⟨mtime, file⟩ := written.file
  simp only [lengthOf, fileOf, written.sysfileIndex_eq, file, Function.update_self]
  rw [UInt32.toNat_ofNat']
  exact Nat.mod_eq_of_lt bound

theorem fatEntries_eq : t.fatEntries = s.fatEntries := by
  simp only [fatEntries, written.blockSize]

theorem capacity_eq : t.capacity nodes = s.capacity nodes := by
  simp only [capacity, written.blockSize]

theorem chain (opened : OpenFile s fd nodes) : t.Chain (t.fileOf fd).firstBlock.toNat nodes := by
  rw [written.firstBlock_eq]
  exact opened.chain.congr written.fatEntries_eq written.fat

end Written

section Turn

theorem advance_gFdTable (t : Fs) (now : UInt64) (fd chunk : Nat) :
    (t.advance now fd chunk).gFdTable = Function.update t.gFdTable fd
      { t.gFdTable fd with offset := (t.gFdTable fd).offset + UInt32.ofNat chunk } := by
  simp only [advance]
  split <;> rfl

theorem advance_gSysfileTable (t : Fs) (now : UInt64) (fd chunk : Nat) :
    (t.advance now fd chunk).gSysfileTable =
      if (t.gFdTable fd).offset + UInt32.ofNat chunk > (t.fileOf fd).size then
        Function.update t.gSysfileTable (t.gFdTable fd).sysfileIndex
          { t.fileOf fd with
            size := (t.gFdTable fd).offset + UInt32.ofNat chunk, mtime := now }
      else t.gSysfileTable := by
  by_cases larger : (t.gFdTable fd).offset + UInt32.ofNat chunk > (t.fileOf fd).size
  · rw [if_pos larger]
    simp only [fileOf] at larger
    simp only [advance, larger, ↓reduceIte]
    rfl
  · rw [if_neg larger]
    simp only [fileOf] at larger
    simp only [advance, larger, ↓reduceIte]
    rfl

/-- The tables are not on the image. -/
theorem advance_image (t : Fs) (now : UInt64) (fd chunk : Nat) :
    (t.advance now fd chunk).file = t.file ∧ (t.advance now fd chunk).fileSize = t.fileSize ∧
      (t.advance now fd chunk).gBlockSize = t.gBlockSize := by
  simp only [advance]
  split <;> exact ⟨rfl, rfl, rfl⟩

theorem advance_byteAt (t : Fs) (now : UInt64) (fd chunk : Nat) (nodes : List Nat) (p : Nat) :
    (t.advance now fd chunk).byteAt nodes p = t.byteAt nodes p := by
  simp only [advance]
  split <;> rfl

theorem advance_fat (t : Fs) (now : UInt64) (fd chunk b : Nat) :
    (t.advance now fd chunk).fat b = t.fat b := by
  simp only [advance]
  split <;> rfl

theorem advance_ready {chunk : Nat} (ready : t.Ready) : (t.advance now fd chunk).Ready := by
  simp only [advance]
  split
  · exact ⟨ready.toMounted.of_eq rfl rfl rfl rfl rfl rfl rfl rfl, ready.size⟩
  · exact ⟨ready.toMounted.of_eq rfl rfl rfl rfl rfl rfl rfl rfl, ready.size⟩

theorem putBlock_fileSize {b : Nat} (ready : t.Ready) (inside : b < t.fatEntries) (bytes : Buffer) :
    (t.putBlock b bytes).fileSize = t.fileSize :=
  Nat.max_eq_left (ready.block_end inside)

/-- The bytes one turn of the loop writes to its block. -/
def turnBuffer (t : Fs) (b q chunk : Nat) (buf : Buffer) (total : Nat) : Buffer :=
  overlay (t.block b) (q % t.gBlockSize) chunk fun j => buf (total + j)

theorem Written.turn_file (opened : OpenFile s fd nodes) (written : Written s t fd nodes buf total)
    {b chunk : Nat} {bytes : Buffer} (inside : s.offsetOf fd + total + chunk ≤ s.capacity nodes) :
    ∃ mtime, ((t.putBlock b bytes).advance now fd chunk).gSysfileTable =
      Function.update s.gSysfileTable (s.gFdTable fd).sysfileIndex
        { s.fileOf fd with
          size := UInt32.ofNat (max (s.lengthOf fd) (s.offsetOf fd + (total + chunk)))
          mtime := mtime } := by
  have capacity := opened.ready.capacity_lt opened.chain
  have holds := opened.holds
  have size := written.size_eq (by omega)
  have added : (t.gFdTable fd).offset + UInt32.ofNat chunk
      = UInt32.ofNat (s.offsetOf fd + (total + chunk)) := by
    rw [written.descriptor, Function.update_self, ← UInt32.ofNat_add, Nat.add_assoc]
  have table := advance_gSysfileTable (t.putBlock b bytes) now fd chunk
  change _ = (if (t.gFdTable fd).offset + UInt32.ofNat chunk > (t.fileOf fd).size then
    Function.update t.gSysfileTable (t.gFdTable fd).sysfileIndex
      { t.fileOf fd with size := (t.gFdTable fd).offset + UInt32.ofNat chunk, mtime := now }
    else t.gSysfileTable) at table
  have larger : UInt32.ofNat (s.offsetOf fd + (total + chunk)) > (t.fileOf fd).size ↔
      t.lengthOf fd < s.offsetOf fd + (total + chunk) := by
    rw [gt_iff_lt, UInt32.lt_iff_toNat_lt, UInt32.toNat_ofNat', Nat.mod_eq_of_lt (by omega)]
    rfl
  rw [added] at table
  obtain ⟨mtime, file⟩ := written.file
  by_cases grows : t.lengthOf fd < s.offsetOf fd + (total + chunk)
  · rw [if_pos (larger.mpr grows), written.sysfileIndex_eq] at table
    refine ⟨now, ?_⟩
    have record : t.fileOf fd = { s.fileOf fd with
        size := UInt32.ofNat (max (s.lengthOf fd) (s.offsetOf fd + total)), mtime := mtime } := by
      rw [fileOf, written.sysfileIndex_eq, file, Function.update_self]
    have total_ : max (s.lengthOf fd) (s.offsetOf fd + (total + chunk))
        = s.offsetOf fd + (total + chunk) := by
      rw [size] at grows
      omega
    rw [table, file, Function.update_idem, record, total_]
  · rw [if_neg (fun more => grows (larger.mp more)), file] at table
    refine ⟨mtime, ?_⟩
    have total_ : max (s.lengthOf fd) (s.offsetOf fd + (total + chunk))
        = max (s.lengthOf fd) (s.offsetOf fd + total) := by
      rw [size] at grows
      omega
    rw [table, total_]

theorem Written.turn (now : UInt64) (opened : OpenFile s fd nodes)
    (written : Written s t fd nodes buf total) {b chunk : Nat}
    (here : nodes[(s.offsetOf fd + total) / s.gBlockSize]? = some b)
    (within : (s.offsetOf fd + total) % s.gBlockSize + chunk ≤ s.gBlockSize)
    (inside : s.offsetOf fd + total + chunk ≤ s.capacity nodes) :
    Written s ((t.putBlock b (turnBuffer t b (s.offsetOf fd + total) chunk buf total)).advance
      now fd chunk) fd nodes buf (total + chunk) := by
  have capacity := opened.ready.capacity_lt opened.chain
  have holds := opened.holds
  have small : b < t.fatEntries := by
    rw [written.fatEntries_eq]
    exact (opened.chain.inside b (List.mem_of_getElem? here)).2.1
  have positive := (opened.chain.inside b (List.mem_of_getElem? here)).1
  have entries := written.ready.fatEntries_bounds
  have offset := written.offset_eq (by omega)
  have size := written.size_eq (by omega)
  have added : (t.gFdTable fd).offset + UInt32.ofNat chunk
      = UInt32.ofNat (s.offsetOf fd + (total + chunk)) := by
    rw [written.descriptor, Function.update_self, ← UInt32.ofNat_add, Nat.add_assoc]
  refine ⟨advance_ready (written.ready.putBlock _ _), ?_, ?_, fun i bound => ?_, ?_, ?_,
    fun p bound => ?_⟩
  · rw [(advance_image _ _ _ _).2.1, putBlock_fileSize written.ready small, written.fileSize]
  · rw [(advance_image _ _ _ _).2.2, putBlock_gBlockSize, written.blockSize]
  · have bound' : i < 1 * t.gBlockSize / 2 := by
      rw [← entries.2.2, written.fatEntries_eq]
      exact bound
    rw [advance_fat, written.ready.fat_putBlock _ positive (by omega) bound', written.fat i bound]
  · rw [advance_gFdTable]
    simp only [putBlock, putBytes]
    rw [added, written.descriptor, Function.update_self, Function.update_idem]
  · exact written.turn_file opened inside
  · have ready := written.ready
    rw [advance_byteAt]
    have there : nodes[(s.offsetOf fd + total) / t.gBlockSize]? = some b := by
      rw [written.blockSize]
      exact here
    have fits : (s.offsetOf fd + total) % t.gBlockSize + chunk ≤ t.gBlockSize := by
      rw [written.blockSize]
      exact within
    rw [turnBuffer, byteAt_putBlock ready (written.chain opened) there fits
      (by rw [written.capacity_eq]; exact bound), written.bytes p bound, spliced, spliced]
    by_cases covered : s.offsetOf fd + total ≤ p ∧ p < s.offsetOf fd + total + chunk
    · rw [if_pos covered, if_pos (by omega)]
      congr 1
      omega
    · rw [if_neg covered]
      by_cases before : s.offsetOf fd ≤ p ∧ p < s.offsetOf fd + total
      · rw [if_pos before, if_pos (by omega)]
      · rw [if_neg before, if_neg (by omega)]

theorem blockForWrite_run {first q : Nat} (ready : t.Ready) (chain : t.Chain first nodes)
    (within : q / t.gBlockSize ≤ nodes.length) :
    blockForWrite first q t =
      some (some (nodes[q / t.gBlockSize]?.getD fatEoc, q % t.gBlockSize), t) := by
  rw [blockForWrite, Prog.bind_of_run (locateBlockInChain_run (chain.linked ready) chain.ne_nil within)]
  rfl

end Turn

/-- The loop writes up to the end of the chain and stops there: the located block is then
`fatEoc`, which cannot be read. -/
theorem writeLoop_run (now : UInt64) {fuel remain : Nat} (opened : OpenFile s fd nodes)
    (written : Written s t fd nodes buf total) (enough : remain ≤ fuel)
    (reached : s.offsetOf fd + total ≤ s.capacity nodes) :
    ∃ u, writeLoop now fd buf fuel total remain t =
        some (total + min remain (s.capacity nodes - (s.offsetOf fd + total)), u) ∧
      Written s u fd nodes buf
        (total + min remain (s.capacity nodes - (s.offsetOf fd + total))) := by
  induction fuel generalizing t total remain with
  | zero =>
      obtain rfl : remain = 0 := by omega
      exact ⟨t, by simp [writeLoop], by simpa using written⟩
  | succ fuel ih =>
      by_cases nothing : remain = 0
      · subst nothing
        exact ⟨t, by simp [writeLoop], by simpa using written⟩
      have capacity := opened.ready.capacity_lt opened.chain
      have positive := opened.ready.blockSize_pos
      have offset := written.offset_eq (by omega)
      have chain := written.chain opened
      have within : (s.offsetOf fd + total) / s.gBlockSize ≤ nodes.length := by
        rw [Nat.div_le_iff_le_mul positive]
        simp only [Fs.capacity] at reached
        omega
      have located := blockForWrite_run (q := t.offsetOf fd) written.ready chain
        (by rw [offset, written.blockSize]; exact within)
      simp only [writeLoop, nothing, ↓reduceIte, Prog.get_bind]
      simp only [fileOf, offsetOf] at located
      rw [Prog.bind_of_run located]
      simp only
      by_cases full : s.offsetOf fd + total = s.capacity nodes
      · have past : nodes[t.offsetOf fd / t.gBlockSize]? = none := by
          rw [offset, written.blockSize, full, Fs.capacity, Nat.mul_div_cancel _ positive]
          simp
        have fits : t.fileSize ≤ t.fatEntries * t.gBlockSize := by
          rw [written.fileSize, written.fatEntries_eq, written.blockSize]
          exact opened.fits
        simp only [offsetOf] at past
        rw [past, Option.getD_none, Prog.bind_of_run (readBlock_eoc written.ready fits)]
        refine ⟨t, ?_, ?_⟩
        · simp [full]
        · simpa [full] using written
      · have before : s.offsetOf fd + total < s.capacity nodes := by omega
        have row := position_inside opened.ready before
        obtain ⟨b, here⟩ : ∃ b, nodes[(s.offsetOf fd + total) / s.gBlockSize]? = some b :=
          ⟨_, List.getElem?_eq_getElem row⟩
        have small : b < t.fatEntries := by
          rw [written.fatEntries_eq]
          exact (opened.chain.inside b (List.mem_of_getElem? here)).2.1
        have here' : nodes[(t.gFdTable fd).offset.toNat / t.gBlockSize]? = some b := by
          have same : (t.gFdTable fd).offset.toNat = s.offsetOf fd + total := offset
          rw [same, written.blockSize]
          exact here
        have column : (t.gFdTable fd).offset.toNat % t.gBlockSize
            = (s.offsetOf fd + total) % s.gBlockSize := by
          have same : (t.gFdTable fd).offset.toNat = s.offsetOf fd + total := offset
          rw [same, written.blockSize]
        rw [here', Option.getD_some, Prog.bind_of_run (readBlock_run written.ready small)]
        simp only
        rw [Prog.bind_of_run (writeBlock_run written.ready.toMounted _ _)]
        simp only [↓reduceIte, Prog.modify_bind]
        rw [written.blockSize] at column ⊢
        rw [column]
        have remainder := Nat.mod_lt (s.offsetOf fd + total) positive
        generalize chunkIs : min (s.gBlockSize - (s.offsetOf fd + total) % s.gBlockSize) remain
          = chunk
        have inside : s.offsetOf fd + total + chunk ≤ s.capacity nodes := by
          have part := Nat.div_add_mod (s.offsetOf fd + total) s.gBlockSize
          have rows : ((s.offsetOf fd + total) / s.gBlockSize + 1) * s.gBlockSize
              ≤ nodes.length * s.gBlockSize := Nat.mul_le_mul_right _ row
          rw [Nat.add_one_mul, Nat.mul_comm] at rows
          simp only [Fs.capacity]
          omega
        have turned := written.turn now opened here (by omega) inside
        simp only [turnBuffer, written.blockSize] at turned
        have less : remain - chunk ≤ fuel := by omega
        obtain ⟨u, run, final⟩ := ih turned less (by omega)
        have count : total + chunk + min (remain - chunk)
            (s.capacity nodes - (s.offsetOf fd + (total + chunk)))
            = total + min remain (s.capacity nodes - (s.offsetOf fd + total)) := by omega
        rw [count] at run final
        exact ⟨u, run, final⟩

/-- `k_write` through a descriptor without `K_O_RDONLY`. -/
theorem kWrite_run (opened : OpenFile s fd nodes) (writable : hasRead (s.gFdTable fd).mode = false)
    (now : UInt64) (buf : Buffer) (n : Nat) :
    ∃ u, kWrite now fd buf n s =
        some (.ok (min n (s.capacity nodes - s.offsetOf fd)), u) ∧
      Written s u fd nodes buf (min n (s.capacity nodes - s.offsetOf fd)) := by
  have valid := opened.valid
  have reached : s.offsetOf fd + 0 ≤ s.capacity nodes := le_trans opened.offset opened.holds
  have start : Written s s fd nodes buf 0 := opened.written_zero
  obtain ⟨u, run, written⟩ := writeLoop_run now opened start (Nat.le_refl n) reached
  simp only [Nat.zero_add, Nat.add_zero] at run written
  refine ⟨u, ?_, written⟩
  simp only [kWrite, Prog.get_bind, opened.ready.flag, valid, Int.toNat_natCast, writable,
    Bool.not_true, Bool.false_eq_true, ↓reduceIte]
  rw [Prog.bind_of_run (malloc_run opened.ready.host)]
  simp only [Bool.not_true, Bool.false_eq_true, ↓reduceIte]
  rw [Prog.bind_of_run run]
  rfl

/-- The blocks a write needs beyond those of the chain. -/
def Fs.blocksNeeded (s : Fs) (fd : Nat) (nodes : List Nat) (n : Nat) : Nat :=
  (s.offsetOf fd + n + s.gBlockSize - 1) / s.gBlockSize - nodes.length

def Fs.freeCount (s : Fs) : Nat :=
  ((List.range s.fatEntries).filter fun b => 2 ≤ b ∧ s.fat b = fatFree).length

/-- A write of `n` bytes through a descriptor opened for writing or appending, with enough free
blocks for it. -/
structure WriteRequest (s : Fs) (fd : Nat) (nodes : List Nat) (n : Nat) : Prop
    extends OpenFile s fd nodes where
  mode : hasWrite (s.gFdTable fd).mode = true ∨ hasAppend (s.gFdTable fd).mode = true
  room : s.blocksNeeded fd nodes n ≤ s.freeCount

/-- All `n` bytes went in at the offset: descriptor, file table, chain and contents, and what a
`k_read` of the whole file returns. -/
structure SpliceDone (s : Fs) (fd : Nat) (nodes : List Nat) (buf : Buffer) (n : Nat)
    (result : Except PennFatErr Nat) (t : Fs) : Prop where
  returned : result = .ok n
  offset : t.offsetOf fd = s.offsetOf fd + n
  size : t.lengthOf fd = max (s.lengthOf fd) (s.offsetOf fd + n)
  contents : ∃ nodes', t.Chain (t.fileOf fd).firstBlock.toNat nodes' ∧
    t.lengthOf fd ≤ t.capacity nodes' ∧
    ∀ p < t.lengthOf fd, t.byteAt nodes' p = spliced s nodes (s.offsetOf fd) n buf p
  readBack : ∀ other : Nat, t.validFd other = true → t.fileOf other = t.fileOf fd →
    hasWrite (t.gFdTable other).mode = false → t.offsetOf other = 0 →
    ∃ u, kRead other (t.lengthOf fd) t = some (.ok ((List.range (t.lengthOf fd)).map
      (spliced s nodes (s.offsetOf fd) n buf)), u)

/-- A write that ends inside the chain does what the splice says. -/
theorem Written.spliceDone {n : Nat} (opened : OpenFile s fd nodes)
    (written : Written s t fd nodes buf n) (within : s.offsetOf fd + n ≤ s.capacity nodes) :
    SpliceDone s fd nodes buf n (.ok n) t := by
  have capacity := opened.ready.capacity_lt opened.chain
  have holds := opened.holds
  have size := written.size_eq (by omega)
  have chain := written.chain opened
  have fit : t.lengthOf fd ≤ t.capacity nodes := by
    rw [size, written.capacity_eq]
    omega
  have bytes : ∀ p < t.lengthOf fd, t.byteAt nodes p = spliced s nodes (s.offsetOf fd) n buf p := by
    intro p inside
    exact written.bytes p (by rw [← written.capacity_eq]; omega)
  refine ⟨rfl, written.offset_eq (by omega), size, ⟨nodes, chain, fit, bytes⟩,
    fun other valid same readable start => ?_⟩
  have length : t.lengthOf other = t.lengthOf fd := by
    simp only [lengthOf, same]
  have linked := (same ▸ chain : t.Chain (t.fileOf other).firstBlock.toNat nodes).linked written.ready
  have run := kRead_run written.ready.toMounted valid readable linked (length ▸ fit)
    (by omega) (t.lengthOf other)
  rw [start, Nat.sub_zero, Nat.min_self, length] at run
  refine ⟨t.seekBy other (t.lengthOf fd), ?_⟩
  rw [run]
  have all : t.bytesFrom nodes 0 (t.lengthOf fd)
      = (List.range (t.lengthOf fd)).map (spliced s nodes (s.offsetOf fd) n buf) := by
    apply List.map_congr_left
    intro p member
    rw [Nat.zero_add]
    exact bytes p (List.mem_range.mp member)
  rw [all]

/-- `k_write` is the splice exactly when the descriptor lacks `K_O_RDONLY` and the write ends
inside the blocks the file has. -/
theorem kWrite_splice_iff (s : Fs) (fd : Nat) (nodes : List Nat) (now : UInt64) (buf : Buffer)
    (n : Nat) (request : WriteRequest s fd nodes n) :
    Prog.Ensures (kWrite now fd buf n) s (SpliceDone s fd nodes buf n) ↔
      hasRead (s.gFdTable fd).mode = false ∧ s.offsetOf fd + n ≤ s.capacity nodes := by
  have opened := request.toOpenFile
  have reached := le_trans opened.offset opened.holds
  cases readable : hasRead (s.gFdTable fd).mode with
  | true =>
      have refused : kWrite now fd buf n s = some (.error .perm, s) := by
        simp only [kWrite, Prog.get_bind, opened.ready.flag, opened.valid, Int.toNat_natCast,
          readable, Bool.not_true, Bool.false_eq_true, ↓reduceIte, Prog.pure_run]
      rw [Prog.ensures_iff_of_run refused]
      constructor
      · intro done
        cases done.returned
      · rintro ⟨impossible, _⟩
        cases impossible
  | false =>
      obtain ⟨u, run, written⟩ := kWrite_run opened readable now buf n
      rw [Prog.ensures_iff_of_run run]
      constructor
      · intro done
        have count : min n (s.capacity nodes - s.offsetOf fd) = n := by
          simpa using done.returned
        exact ⟨rfl, by omega⟩
      · rintro ⟨_, within⟩
        have count : min n (s.capacity nodes - s.offsetOf fd) = n := by omega
        rw [count] at written ⊢
        exact written.spliceDone opened within

section Example

/-- A file "a" just created, with one block of 256 bytes. -/
def freshFile : Fs := (do
  let _ ← kMkfs [65] 1 0
  let _ ← kMount [65]
  let _ ← kOpen 0 [97] 0x5 : FsM Unit).after Fs.initial

theorem freshFile_open : OpenFile freshFile 0 [2] where
  ready :=
    { flag := by decide +kernel
      blockSize := ⟨0, by decide, by decide +kernel⟩
      descriptor := by decide +kernel
      superblock := by decide +kernel
      mapping := ⟨⟨2, 256⟩, by decide +kernel, by decide +kernel, by decide +kernel⟩
      count := by decide
      host := by decide +kernel
      size := by decide +kernel }
  fits := by decide +kernel
  valid := by decide +kernel
  chain :=
    { links := ⟨by decide +kernel, (by decide +kernel : nextBlock freshFile.fat 2 = none)⟩
      inside := by decide +kernel }
  holds := by decide +kernel
  offset := by decide +kernel

theorem freshFile_room : freshFile.offsetOf 0 = 0 ∧ freshFile.gBlockSize = 256 ∧
    1 ≤ freshFile.freeCount := by decide +kernel

theorem freshFile_request {n : Nat} (small : n ≤ 512) : WriteRequest freshFile 0 [2] n where
  toOpenFile := freshFile_open
  mode := .inl (by decide +kernel)
  room := by
    obtain ⟨offset, size, free⟩ := freshFile_room
    simp only [blocksNeeded, offset, size, List.length_singleton]
    omega

theorem kWrite_splice_iff_freshFile :
    Prog.Ensures (kWrite 7 0 (fun _ => 65) (5 : Nat)) freshFile
        (SpliceDone freshFile 0 [2] (fun _ => 65) 5) ↔
      hasRead (freshFile.gFdTable 0).mode = false ∧
        freshFile.offsetOf 0 + 5 ≤ freshFile.capacity [2] :=
  kWrite_splice_iff freshFile 0 [2] 7 (fun _ => 65) 5 (freshFile_request (by decide))

/-- A write of 257 bytes to a file of one block of 256 stops at the end of the block. -/
theorem write_past_chain_short :
    ¬ ∀ (s : Fs) (fd : Nat) (nodes : List Nat) (now : UInt64) (buf : Buffer) (n : Nat),
      WriteRequest s fd nodes n →
      Prog.Ensures (kWrite now fd buf n) s (SpliceDone s fd nodes buf n) := by
  intro splices
  have done := splices freshFile 0 [2] 7 (fun _ => 65) 257 (freshFile_request (by decide))
  obtain ⟨u, run, _⟩ := kWrite_run freshFile_open (by decide +kernel) 7 (fun _ => 65) 257
  have returned := (Prog.Ensures.of_eq done run).returned
  have space : freshFile.capacity [2] - freshFile.offsetOf 0 = 256 := by decide +kernel
  rw [space] at returned
  cases returned

end Example

end PennOs.Fat
