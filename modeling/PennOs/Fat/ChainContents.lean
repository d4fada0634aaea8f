import PennOs.Fat.ChainRuns
import PennOs.Fat.Files

set_option autoImplicit false

/- File contents as the bytes of a chain, and what reading and writing through a descriptor
does to them. -/
namespace PennOs.Fat

open LinkedChain (Links)
open Fs

/-- Byte `p` of the contents of the chain `nodes`. -/
def Fs.byteAt (s : Fs) (nodes : List Nat) (p : Nat) : UInt8 :=
  match nodes[p / s.gBlockSize]? with
  | none => 0
  | some b => s.block b (p % s.gBlockSize)

/-- The bytes the blocks of a chain hold. -/
def Fs.capacity (s : Fs) (nodes : List Nat) : Nat := nodes.length * s.gBlockSize

def Fs.fileOf (s : Fs) (fd : Nat) : SystemFile := s.gSysfileTable (s.gFdTable fd).sysfileIndex

def Fs.offsetOf (s : Fs) (fd : Nat) : Nat := (s.gFdTable fd).offset.toNat

def Fs.lengthOf (s : Fs) (fd : Nat) : Nat := (s.fileOf fd).size.toNat

variable {s t : Fs} {nodes : List Nat} {first : Nat}

theorem Fs.Mounted.blockSize_pos {fatBlocks : Nat} (mounted : s.Mounted fatBlocks) :
    0 < s.gBlockSize := by
  have bounds := mounted.blockSize_bounds
  omega

theorem Fs.Ready.capacity_lt (ready : s.Ready) (chain : s.Chain first nodes) :
    s.capacity nodes ≤ 2048 * 4096 := by
  have bounds := ready.blockSize_bounds
  have entries := ready.fatEntries_bounds
  have short := chain.length_le
  exact Nat.mul_le_mul (by omega) (by omega)

/-- A position inside the contents lies in one of the chain's blocks. -/
theorem position_inside (ready : s.Ready) {p : Nat} (inside : p < s.capacity nodes) :
    p / s.gBlockSize < nodes.length := by
  rw [Nat.div_lt_iff_lt_mul ready.blockSize_pos]
  exact inside

theorem byteAt_of_getElem? {p b : Nat} (here : nodes[p / s.gBlockSize]? = some b) :
    s.byteAt nodes p = s.block b (p % s.gBlockSize) := by
  simp only [byteAt, here]

theorem Fs.Chain.congr (chain : s.Chain first nodes) (entries : t.fatEntries = s.fatEntries)
    (same : ∀ b < s.fatEntries, t.fat b = s.fat b) : t.Chain first nodes where
  links := chain.links.congr fun b member => by
    simp only [nextBlock, same b (chain.inside b member).2.1]
  inside b member := by
    obtain ⟨positive, small, used⟩ := chain.inside b member
    exact ⟨positive, entries ▸ small, same b small ▸ used⟩

/-- Blocks past the end of the image cannot be read. -/
theorem readBlock_past (ready : s.Ready) (fits : s.fileSize ≤ s.fatEntries * s.gBlockSize) {b : Nat}
    (past : s.fatEntries ≤ b) (bound : b < 65536) : readBlock b s = some (none, s) := by
  have bounds := ready.blockSize_bounds
  have outside : ¬ s.blockOffset b + s.gBlockSize ≤ s.fileSize := by
    rw [ready.blockOffset_eq bound]
    have offset : s.fatEntries * s.gBlockSize ≤ b * s.gBlockSize := Nat.mul_le_mul_right _ past
    omega
  simp only [readBlock, Prog.get_bind, ready.gFsFd_ne, ↓reduceIte]
  rw [Prog.bind_of_run (hostOk_run ready.host)]
  simp only [Bool.not_true, Bool.false_eq_true, ↓reduceIte]
  rw [Prog.bind_of_run (hostOk_run ready.host)]
  simp only [Bool.not_true, Bool.false_eq_true, ↓reduceIte, outside, and_false, Prog.pure_run]

theorem readBlock_eoc (ready : s.Ready) (fits : s.fileSize ≤ s.fatEntries * s.gBlockSize) :
    readBlock fatEoc s = some (none, s) := by
  have entries := ready.fatEntries_bounds
  exact readBlock_past ready fits (by simp only [fatEoc]; omega) (by decide)

/-- Overwriting part of one block of the chain. -/
theorem byteAt_putBlock (ready : s.Ready) (chain : s.Chain first nodes) {q b chunk : Nat}
    {buf : Buffer} (here : nodes[q / s.gBlockSize]? = some b)
    (within : q % s.gBlockSize + chunk ≤ s.gBlockSize) {p : Nat} (inside : p < s.capacity nodes) :
    (s.putBlock b (overlay (s.block b) (q % s.gBlockSize) chunk buf)).byteAt nodes p =
      if q ≤ p ∧ p < q + chunk then buf (p - q) else s.byteAt nodes p := by
  have positive := ready.blockSize_pos
  have entries := ready.fatEntries_bounds
  have partP := Nat.div_add_mod p s.gBlockSize
  have partQ := Nat.div_add_mod q s.gBlockSize
  have small := Nat.mod_lt p positive
  have member : b ∈ nodes := List.mem_of_getElem? here
  obtain ⟨c, there⟩ : ∃ c, nodes[p / s.gBlockSize]? = some c :=
    ⟨_, List.getElem?_eq_getElem (position_inside ready inside)⟩
  rw [byteAt_of_getElem? (s := s.putBlock b _) there, byteAt_of_getElem? there]
  simp only [putBlock_gBlockSize]
  by_cases same : p / s.gBlockSize = q / s.gBlockSize
  · rw [same, here] at there
    obtain rfl := Option.some.inj there
    rw [same] at partP
    rw [block_putBlock_self _ _ small]
    by_cases covered : q ≤ p ∧ p < q + chunk
    · rw [if_pos covered, overlay_inside (by omega) (by omega)]
      congr 1
      omega
    · rw [if_neg covered, overlay_outside (by omega)]
  · have apart : c ≠ b := by
      rintro rfl
      obtain ⟨boundP, atP⟩ := List.getElem?_eq_some_iff.mp there
      obtain ⟨boundQ, atQ⟩ := List.getElem?_eq_some_iff.mp here
      exact same ((chain.links.nodup.getElem_inj_iff).mp (atP.trans atQ.symm))
    have uncovered : ¬ (q ≤ p ∧ p < q + chunk) := by
      rintro ⟨low, high⟩
      apply same
      rw [Nat.div_eq_iff positive]
      have product : q / s.gBlockSize * s.gBlockSize = s.gBlockSize * (q / s.gBlockSize) :=
        Nat.mul_comm _ _
      omega
    rw [if_neg uncovered, ready.block_putBlock_ne _ apart]
    · have inB := (chain.inside b member).2.1
      omega
    · have inC := (chain.inside c (List.mem_of_getElem? there)).2.1
      omega

section Reading

/-- The bytes `k_read` copies, from position `from_` on. -/
def Fs.bytesFrom (s : Fs) (nodes : List Nat) (from_ count : Nat) : List UInt8 :=
  (List.range count).map fun j => s.byteAt nodes (from_ + j)

/-- `fdesc->offset += count` -/
def Fs.seekBy (s : Fs) (fd count : Nat) : Fs :=
  s.setFd fd { s.gFdTable fd with offset := (s.gFdTable fd).offset + UInt32.ofNat count }

theorem bytesFrom_add (s : Fs) (nodes : List Nat) (from_ count count' : Nat) :
    s.bytesFrom nodes from_ (count + count') =
      s.bytesFrom nodes from_ count ++ s.bytesFrom nodes (from_ + count) count' := by
  simp only [bytesFrom, List.range_add, List.map_append, List.map_map, List.append_cancel_left_eq]
  apply List.map_congr_left
  intro j _
  simp [Nat.add_assoc]

@[simp] theorem seekBy_zero (s : Fs) (fd : Nat) : s.seekBy fd 0 = s := by
  simp [seekBy, setFd]

theorem seekBy_add (s : Fs) (fd count count' : Nat) :
    (s.seekBy fd count).seekBy fd count' = s.seekBy fd (count + count') := by
  simp only [seekBy, setFd, Function.update_self, Function.update_idem, UInt32.ofNat_add,
    UInt32.add_assoc]

theorem seekBy_offsetOf {fd count : Nat} (small : s.offsetOf fd + count < 2 ^ 32) :
    (s.seekBy fd count).offsetOf fd = s.offsetOf fd + count := by
  simp only [offsetOf] at small
  simp only [seekBy, offsetOf, setFd_self, UInt32.toNat_add, UInt32.toNat_ofNat']
  omega

theorem seekBy_fileOf (s : Fs) (fd count : Nat) : (s.seekBy fd count).fileOf fd = s.fileOf fd := by
  simp only [seekBy, fileOf, setFd_self]
  rfl

theorem Fs.Mounted.seekBy {fatBlocks : Nat} (mounted : s.Mounted fatBlocks) (fd count : Nat) :
    (s.seekBy fd count).Mounted fatBlocks :=
  mounted.of_eq rfl rfl rfl rfl rfl rfl rfl rfl

theorem Fs.Linked.seekBy (linked : s.Linked first nodes) (fd count : Nat) :
    (s.seekBy fd count).Linked first nodes where
  links := linked.links
  used := linked.used
  mapped := linked.mapped
  stored := linked.stored

theorem chunk_bytes {q b : Nat} (chunk : Nat) (positive : 0 < s.gBlockSize)
    (here : nodes[q / s.gBlockSize]? = some b) (within : q % s.gBlockSize + chunk ≤ s.gBlockSize) :
    ((List.range chunk).map fun j => s.block b (q % s.gBlockSize + j)) =
      s.bytesFrom nodes q chunk := by
  apply List.map_congr_left
  intro j member
  have small := List.mem_range.mp member
  have partQ := Nat.div_add_mod q s.gBlockSize
  have row : (q + j) / s.gBlockSize = q / s.gBlockSize := by
    rw [Nat.div_eq_iff positive]
    have product : q / s.gBlockSize * s.gBlockSize = s.gBlockSize * (q / s.gBlockSize) :=
      Nat.mul_comm _ _
    omega
  have column : (q + j) % s.gBlockSize = q % s.gBlockSize + j := by
    have part := Nat.div_add_mod (q + j) s.gBlockSize
    rw [row] at part
    omega
  rw [byteAt_of_getElem? (row ▸ here), column]

/-- The copy loop inside the chain: it stops once it has everything, and only the offset has moved. -/
theorem readLoop_run {fatBlocks fd fuel remain : Nat} (acc : List UInt8)
    (mounted : s.Mounted fatBlocks) (linked : s.Linked (s.fileOf fd).firstBlock.toNat nodes)
    (enough : remain ≤ fuel) (within : s.offsetOf fd + remain ≤ s.capacity nodes)
    (small : s.offsetOf fd + remain < 2 ^ 32) :
    readLoop fd fuel remain acc s =
      some (acc ++ s.bytesFrom nodes (s.offsetOf fd) remain, s.seekBy fd remain) := by
  induction fuel generalizing s remain acc with
  | zero =>
      obtain rfl : remain = 0 := by omega
      simp [readLoop, bytesFrom]
  | succ fuel ih =>
      by_cases nothing : remain = 0
      · subst nothing
        simp [readLoop, bytesFrom]
      have positive := mounted.blockSize_pos
      have row : s.offsetOf fd / s.gBlockSize < nodes.length := by
        rw [Nat.div_lt_iff_lt_mul positive]
        simp only [capacity] at within
        omega
      obtain ⟨b, here⟩ : ∃ b, nodes[s.offsetOf fd / s.gBlockSize]? = some b :=
        ⟨_, List.getElem?_eq_getElem row⟩
      have member := List.mem_of_getElem? here
      have remainder := Nat.mod_lt (s.offsetOf fd) positive
      have located := locateBlockInChain_run linked (List.ne_nil_of_mem member) (Nat.le_of_lt row)
      rw [here] at located
      simp only [fileOf, offsetOf, Option.getD_some] at located
      simp only [readLoop, nothing, ↓reduceIte, Prog.get_bind]
      rw [Prog.bind_of_run located]
      simp only
      rw [Prog.bind_of_run (readBlock_stored mounted (linked.stored b member))]
      simp only [Prog.modify_bind]
      obtain ⟨chunk, chunkIs⟩ : ∃ chunk,
          chunk = min (s.gBlockSize - s.offsetOf fd % s.gBlockSize) remain := ⟨_, rfl⟩
      have some_ : 0 < chunk := by omega
      have copied := chunk_bytes chunk positive here (by omega)
      have offset := @seekBy_offsetOf s fd chunk (by omega)
      simp only [offsetOf] at chunkIs copied
      rw [← chunkIs, copied]
      have rest := @ih (s.seekBy fd chunk) (remain - chunk)
        (acc ++ s.bytesFrom nodes (s.offsetOf fd) chunk) (mounted.seekBy fd chunk)
        (seekBy_fileOf s fd chunk ▸ linked.seekBy fd chunk) (by omega)
        (by rw [offset]; exact le_trans (by omega) within) (by rw [offset]; omega)
      have total : chunk + (remain - chunk) = remain := by omega
      have whole := bytesFrom_add s nodes (s.offsetOf fd) chunk (remain - chunk)
      rw [offset, seekBy_add, total, List.append_assoc] at rest
      rw [total] at whole
      rw [whole]
      exact rest

/-- `k_read` copies what is asked for and left of the file, and moves the offset behind it. -/
theorem kRead_run {fatBlocks fd : Nat} (mounted : s.Mounted fatBlocks)
    (valid : s.validFd fd = true) (readable : hasWrite (s.gFdTable fd).mode = false)
    (linked : s.Linked (s.fileOf fd).firstBlock.toNat nodes)
    (holds : s.lengthOf fd ≤ s.capacity nodes) (short : s.lengthOf fd < 2 ^ 31) (n : Nat) :
    kRead fd n s =
      some (.ok (s.bytesFrom nodes (s.offsetOf fd) (min n (s.lengthOf fd - s.offsetOf fd))),
        s.seekBy fd (min n (s.lengthOf fd - s.offsetOf fd))) := by
  have left : (s.gSysfileTable (s.gFdTable fd).sysfileIndex).size.toNat
      - (s.gFdTable fd).offset.toNat = s.lengthOf fd - s.offsetOf fd := rfl
  simp only [kRead, Prog.get_bind, mounted.flag, valid, Int.toNat_natCast, readable, left,
    Bool.not_true, Bool.false_eq_true, ↓reduceIte]
  by_cases empty : s.lengthOf fd - s.offsetOf fd = 0
  · simp [empty, bytesFrom]
  · simp only [empty, ↓reduceIte]
    rw [Prog.bind_of_run (malloc_run mounted.host)]
    have count : (toRead n (s.lengthOf fd - s.offsetOf fd)).toNat
        = min n (s.lengthOf fd - s.offsetOf fd) := by
      have small : s.lengthOf fd - s.offsetOf fd < 2 ^ 31 := by omega
      simp only [toRead, small, ↓reduceIte]
      split <;> omega
    simp only [Bool.not_true, Bool.false_eq_true, ↓reduceIte, count]
    rw [Prog.bind_of_run (readLoop_run [] mounted linked (Nat.le_refl _) (by omega) (by omega))]
    rfl

end Reading

end PennOs.Fat
