import PennOs.Fat.WriteSplice

set_option autoImplicit false

/- Writing behind the end of a file. -/
namespace PennOs.Fat

open LinkedChain (Links)
open Fs

/-- `k_lseek` from the start of the file, and a `k_write` there. -/
def seekWrite (now : UInt64) (fd o : Nat) (buf : Buffer) (n : Nat) : FsM (Except PennFatErr Nat) := do
  let _ ← kLseek fd o 0
  kWrite now fd buf n

/-- A descriptor is open for writing or appending on a file that ends before the offset `o`, and there
are free blocks for `o + n` bytes. The numbers are C integers. -/
structure SeekRequest (s : Fs) (fd : Nat) (nodes : List Nat) (o n : Nat) : Prop where
  ready : s.Ready
  fits : s.fileSize ≤ s.fatEntries * s.gBlockSize
  valid : s.validFd fd = true
  chain : s.Chain (s.fileOf fd).firstBlock.toNat nodes
  holds : s.lengthOf fd ≤ s.capacity nodes
  mode : hasWrite (s.gFdTable fd).mode = true ∨ hasAppend (s.gFdTable fd).mode = true
  past : s.lengthOf fd < o
  more : 0 < n
  offset : o < 2 ^ 31
  count : n < 2 ^ 31
  room : (o + n + s.gBlockSize - 1) / s.gBlockSize - nodes.length ≤ s.freeCount

/-- The file's bytes, then zeros up to `o`, then `buf`. -/
def gapFilled (s : Fs) (fd : Nat) (nodes : List Nat) (o : Nat) (buf : Buffer) (p : Nat) : UInt8 :=
  if p < s.lengthOf fd then s.byteAt nodes p else if p < o then 0 else buf (p - o)

/-- All `n` bytes went in at `o`, and zeros before them: what the file holds, and what a `k_read` of the
whole file returns. -/
structure GapDone (s : Fs) (fd : Nat) (nodes : List Nat) (o n : Nat) (buf : Buffer)
    (result : Except PennFatErr Nat) (t : Fs) : Prop where
  returned : result = .ok n
  size : t.lengthOf fd = o + n
  contents : ∃ nodes', t.Chain (t.fileOf fd).firstBlock.toNat nodes' ∧ o + n ≤ t.capacity nodes' ∧
    ∀ p < o + n, t.byteAt nodes' p = gapFilled s fd nodes o buf p
  readBack : ∀ other : Nat, t.validFd other = true → t.fileOf other = t.fileOf fd →
    hasWrite (t.gFdTable other).mode = false → t.offsetOf other = 0 →
    ∃ u, kRead other (o + n : Nat) t =
      some (.ok ((List.range (o + n)).map (gapFilled s fd nodes o buf)), u)

/-- `fdesc->offset = offset` -/
def Fs.seekTo (s : Fs) (fd offset : Nat) : Fs :=
  s.setFd fd { s.gFdTable fd with offset := UInt32.ofNat offset }

variable {s t : Fs} {fd o n b first : Nat} {nodes front : List Nat} {last : Nat} {buf : Buffer} {now : UInt64}

section Seeking

theorem wrapInt_small {k : Nat} (small : k < 2 ^ 31) : wrapInt k = k := by
  rw [wrapInt, Int.bmod_eq_of_le_mul_two] <;> omega

theorem kLseek_run (mounted : s.gMounted = true) (valid : s.validFd fd = true) (small : o < 2 ^ 31) :
    kLseek fd o 0 s = some (.ok o, s.seekTo fd o) := by
  have start : wrapInt (0 + (o : Int)) = o := by
    rw [Int.zero_add]
    exact wrapInt_small small
  have positive : ¬ (o : Int) < 0 := by omega
  simp only [kLseek, Prog.get_bind, mounted, valid, Bool.not_true, Bool.false_eq_true, ↓reduceIte, start,
    positive, Prog.modify_bind, Int.toNat_natCast, Prog.pure_run, seekTo]

end Seeking

section Turns

/-- One turn of the loop inside the chain. -/
theorem writeLoop_turn {fuel total remain : Nat} (ready : t.Ready)
    (chain : t.Chain (t.fileOf fd).firstBlock.toNat nodes)
    (here : nodes[t.offsetOf fd / t.gBlockSize]? = some b) (more : 0 < remain) :
    writeLoop now fd buf (fuel + 1) total remain t =
      writeLoop now fd buf fuel (total + min (t.gBlockSize - t.offsetOf fd % t.gBlockSize) remain)
        (remain - min (t.gBlockSize - t.offsetOf fd % t.gBlockSize) remain)
        ((t.putBlock b (turnBuffer t b (t.offsetOf fd)
          (min (t.gBlockSize - t.offsetOf fd % t.gBlockSize) remain) buf total)).advance now fd
          (min (t.gBlockSize - t.offsetOf fd % t.gBlockSize) remain)) := by
  have some : ¬ remain = 0 := by omega
  obtain ⟨row, _⟩ := List.getElem?_eq_some_iff.mp here
  have small := (chain.inside b (List.mem_of_getElem? here)).2.1
  have located := blockForWrite_run (q := t.offsetOf fd) ready chain (Nat.le_of_lt row)
  rw [here, Option.getD_some] at located
  simp only [fileOf, offsetOf] at located
  simp only [writeLoop, some, ↓reduceIte, Prog.get_bind]
  rw [Prog.bind_of_run located]
  simp only
  rw [Prog.bind_of_run (readBlock_run ready small)]
  simp only
  rw [Prog.bind_of_run (writeBlock_run ready.toMounted _ _)]
  rfl

/-- At the very end of the chain the loop stops. -/
theorem writeLoop_end {fuel total remain : Nat} (ready : t.Ready)
    (fits : t.fileSize ≤ t.fatEntries * t.gBlockSize)
    (chain : t.Chain (t.fileOf fd).firstBlock.toNat nodes)
    (ends : t.offsetOf fd / t.gBlockSize = nodes.length) (more : 0 < remain) :
    writeLoop now fd buf (fuel + 1) total remain t = some (total, t) := by
  have some : ¬ remain = 0 := by omega
  have located := blockForWrite_run (q := t.offsetOf fd) ready chain (Nat.le_of_eq ends)
  have past : nodes[t.offsetOf fd / t.gBlockSize]? = none := List.getElem?_eq_none (Nat.le_of_eq ends.symm)
  rw [past, Option.getD_none] at located
  simp only [fileOf, offsetOf] at located
  simp only [writeLoop, some, ↓reduceIte, Prog.get_bind]
  rw [Prog.bind_of_run located]
  simp only
  rw [Prog.bind_of_run (readBlock_eoc ready fits)]
  rfl

end Turns

section Beyond

/-- The chain after `extend_chain`. -/
theorem Fs.Chain.extended (chain : t.Chain first (front ++ [last])) (free : t.fat b = fatFree) (low : 2 ≤ b)
    (high : b < t.fatEntries) (bound : b < fatEoc) :
    ((t.setFat b fatEoc).setFat last b).Chain first (front ++ [last, b]) := by
  have fresh : b ∉ front ++ [last] := fun member => (chain.inside b member).2.2 free
  have eoc : nextBlock (t.setFat b fatEoc).fat = Function.update (nextBlock t.fat) b none :=
    nextBlock_setFat t (by decide)
  have ends : nextBlock (t.setFat b fatEoc).fat b = none := by rw [eoc, Function.update_self]
  have old : Links (nextBlock (t.setFat b fatEoc).fat) (some first) (front ++ [last]) := by
    rw [eoc]
    exact chain.links.frame fresh
  constructor
  · rw [nextBlock_setFat _ (Nat.lt_of_lt_of_le bound (by decide)), linkOf_of_ne (Nat.ne_of_lt bound)]
    exact old.push fresh ends
  · intro x member
    have apart : last ≠ b := by
      rintro rfl
      exact fresh (List.mem_append_right _ (List.mem_singleton_self last))
    have used : ∀ y, ((t.setFat b fatEoc).setFat last b).fat y =
        if y = last then b else if y = b then fatEoc else t.fat y := by
      intro y
      rw [fat_setFat _ (Nat.lt_of_lt_of_le bound (by decide)), fat_setFat _ (by decide)]
    show 1 ≤ x ∧ x < t.fatEntries ∧ _
    rw [used]
    rcases List.mem_append.mp member with inFront | inBack
    · obtain ⟨positive, small, inUse⟩ := chain.inside x (List.mem_append_left _ inFront)
      refine ⟨positive, small, ?_⟩
      split
      · simp only [fatFree]
        omega
      · split
        · decide
        · exact inUse
    · rcases List.mem_cons.mp inBack with rfl | inBack
      · obtain ⟨positive, small, _⟩ := chain.inside x (List.mem_append_right _ (List.mem_singleton_self x))
        rw [if_pos rfl]
        refine ⟨positive, small, ?_⟩
        simp only [fatFree]
        omega
      · obtain rfl := List.mem_singleton.mp inBack
        rw [if_neg (Ne.symm apart), if_pos rfl]
        exact ⟨by omega, high, by decide⟩

theorem advance_firstBlock (t : Fs) (now : UInt64) (fd chunk : Nat) :
    ((t.advance now fd chunk).fileOf fd).firstBlock = (t.fileOf fd).firstBlock := by
  have index : ((t.advance now fd chunk).gFdTable fd).sysfileIndex = (t.gFdTable fd).sysfileIndex := by
    rw [advance_gFdTable, Function.update_self]
  rw [fileOf, index, advance_gSysfileTable]
  split
  · rw [Function.update_self]
  · rfl

theorem advance_offset {chunk : Nat} (small : t.offsetOf fd + chunk < 2 ^ 32) :
    (t.advance now fd chunk).offsetOf fd = t.offsetOf fd + chunk := by
  rw [offsetOf] at small
  rw [offsetOf, advance_gFdTable, Function.update_self, UInt32.toNat_add, UInt32.toNat_ofNat', offsetOf]
  omega

theorem writeLoop_zero (fuel total : Nat) : writeLoop now fd buf fuel total 0 t = some (total, t) := by
  cases fuel <;> rfl

/-- Far behind the end of the chain a new block is linked, and the write goes to its start. -/
theorem blockForWrite_beyond {q : Nat} (ready : t.Ready) (chain : t.Chain first (front ++ [last]))
    (beyond : (front ++ [last]).length < q / t.gBlockSize) :
    blockForWrite first q t =
      match t.freeBlock with
      | none => some (none, t)
      | some b => some (some (b, 0), (t.setFat b fatEoc).setFat last b) := by
  have entries := ready.fatEntries_bounds
  have located := locateBlockInChain_beyond (chain.linked ready) chain.ne_nil beyond
  have short := chain.length_le
  have enough : front.length < chainFuel + 1 := by
    simp only [List.length_append, List.length_singleton] at short
    simp only [chainFuel]
    omega
  have finding :=
    lastInChain_run chain.links (fun y member => ready.mapped (chain.inside y member).2.1) enough
  have inLast := (chain.inside last (List.mem_append_right _ (List.mem_singleton_self last))).2.1
  have taking := allocateFreeBlock_run ready
  rw [blockForWrite, Prog.bind_of_run located]
  cases free : t.freeBlock with
  | none =>
      rw [free] at taking
      have full : extendChain first t = some (none, t) := by
        rw [extendChain, Prog.bind_of_run finding, Prog.bind_of_run taking]
        rfl
      simp only
      rw [Prog.bind_of_run full]
      rfl
  | some b =>
      rw [free] at taking
      have grown : extendChain first t = some (some b, (t.setFat b fatEoc).setFat last b) := by
        rw [extendChain, Prog.bind_of_run finding, Prog.bind_of_run taking]
        simp only
        rw [Prog.bind_of_run (fatSet_ready (ready.setFat b fatEoc) _ inLast)]
        rfl
      simp only
      rw [Prog.bind_of_run grown]
      rfl

/-- Behind the end of the chain the loop stays behind it: where it writes everything, the chain still ends
before the last byte's position. -/
theorem writeLoop_beyond {fuel total remain : Nat} (ready : t.Ready)
    (chain : t.Chain (t.fileOf fd).firstBlock.toNat nodes)
    (beyond : (nodes.length + 1) * t.gBlockSize ≤ t.offsetOf fd) (small : t.offsetOf fd + remain < 2 ^ 32)
    (more : 0 < remain) (enough : remain ≤ fuel) :
    ∃ r u nodes', writeLoop now fd buf fuel total remain t = some (r, u) ∧
      u.Chain (u.fileOf fd).firstBlock.toNat nodes' ∧
      (r = total + remain → u.capacity nodes' < t.offsetOf fd + remain) := by
  induction fuel generalizing t total remain nodes with
  | zero => omega
  | succ fuel ih =>
      have positive := ready.blockSize_pos
      have entries := ready.fatEntries_bounds
      have row : nodes.length < t.offsetOf fd / t.gBlockSize := (Nat.le_div_iff_mul_le positive).mpr beyond
      obtain ⟨front, last, rfl⟩ : ∃ front last, nodes = front ++ [last] :=
        ⟨_, _, (List.dropLast_append_getLast chain.ne_nil).symm⟩
      have target := blockForWrite_beyond ready chain row
      have left : ¬ remain = 0 := by omega
      simp only [fileOf, offsetOf] at target
      simp only [writeLoop, left, ↓reduceIte, Prog.get_bind]
      cases free : t.freeBlock with
      | none =>
          rw [free] at target
          refine ⟨total, t, _, ?_, chain, fun all => by omega⟩
          rw [Prog.bind_of_run target]
          rfl
      | some b =>
          rw [free] at target
          obtain ⟨low, high, unused⟩ := freeBlock_some free
          have bound : b < fatEoc := by
            simp only [fatEoc]
            omega
          have ready₁ := (ready.setFat b fatEoc).setFat last b
          have chain₁ := chain.extended unused low high bound
          rw [Prog.bind_of_run target]
          simp only
          rw [Prog.bind_of_run (readBlock_run ready₁ high)]
          simp only
          rw [Prog.bind_of_run (writeBlock_run ready₁.toMounted _ _)]
          simp only [↓reduceIte, Prog.modify_bind, Nat.sub_zero]
          generalize chunkIs : min t.gBlockSize remain = chunk
          generalize wrote : ((t.setFat b fatEoc).setFat last b).putBlock b _ = v
          have ready₂ : v.Ready := wrote ▸ ready₁.putBlock b _
          have size₂ : v.gBlockSize = t.gBlockSize := by rw [← wrote]; rfl
          have tables : v.gFdTable = t.gFdTable ∧ v.gSysfileTable = t.gSysfileTable := by
            rw [← wrote]
            exact ⟨rfl, rfl⟩
          have file₂ : v.fileOf fd = t.fileOf fd := by rw [fileOf, tables.1, tables.2]; rfl
          have offset₂ : v.offsetOf fd = t.offsetOf fd := by rw [offsetOf, tables.1]; rfl
          have chain₂ : v.Chain (v.fileOf fd).firstBlock.toNat (front ++ [last, b]) := by
            rw [file₂]
            refine chain₁.congr (by rw [← wrote]; rfl) fun y inside => ?_
            rw [← wrote]
            exact ready₁.fat_putBlock _ (by omega) (by omega) (entries.2.2 ▸ inside)
          have chain₃ : (v.advance now fd chunk).Chain ((v.advance now fd chunk).fileOf fd).firstBlock.toNat
              (front ++ [last, b]) := by
            rw [advance_firstBlock]
            refine chain₂.congr ?_ fun y _ => advance_fat v now fd chunk y
            rw [fatEntries, (advance_image v now fd chunk).2.2]
            rfl
          have size₃ : (v.advance now fd chunk).gBlockSize = t.gBlockSize :=
            (advance_image v now fd chunk).2.2.trans size₂
          have offset₃ : (v.advance now fd chunk).offsetOf fd = t.offsetOf fd + chunk := by
            rw [advance_offset (by omega), offset₂]
          have longer : (front ++ [last, b]).length = (front ++ [last]).length + 1 := by
            simp only [List.length_append, List.length_cons, List.length_nil]
          rcases Nat.lt_or_ge t.gBlockSize remain with goesOn | ends
          · obtain rfl : chunk = t.gBlockSize := by omega
            have beyond' : ((front ++ [last, b]).length + 1) * (v.advance now fd t.gBlockSize).gBlockSize ≤
                (v.advance now fd t.gBlockSize).offsetOf fd := by
              rw [size₃, offset₃, longer, Nat.add_mul _ 1, Nat.one_mul]
              omega
            obtain ⟨r, u, nodes', run, chain', less⟩ := @ih _ _ (total + t.gBlockSize)
              (remain - t.gBlockSize) (advance_ready ready₂) chain₃ beyond' (by omega) (by omega)
              (by omega)
            refine ⟨r, u, nodes', run, chain', fun all => ?_⟩
            have short := less (by omega)
            omega
          · obtain rfl : chunk = remain := by omega
            rw [Nat.sub_self, writeLoop_zero]
            refine ⟨_, _, _, rfl, chain₃, fun _ => ?_⟩
            rw [capacity, size₃, longer]
            omega

end Beyond

section Inside

/-- The descriptor at `o` in a file whose table entry has the size `o`. -/
def Fs.sizedTo (s : Fs) (fd o : Nat) : Fs :=
  (s.seekTo fd o).setSysfile ((s.seekTo fd o).gFdTable fd).sysfileIndex
    { (s.seekTo fd o).fileOf fd with size := UInt32.ofNat o }

theorem seekTo_fileOf (s : Fs) (fd o : Nat) : (s.seekTo fd o).fileOf fd = s.fileOf fd := by
  simp only [seekTo, fileOf, setFd_self]
  rfl

theorem seekTo_offset (small : o < 2 ^ 31) : (s.seekTo fd o).offsetOf fd = o := by
  simp only [seekTo, offsetOf, setFd_self, UInt32.toNat_ofNat']
  omega

theorem sizedTo_fileOf (s : Fs) (fd o : Nat) :
    (s.sizedTo fd o).fileOf fd = { s.fileOf fd with size := UInt32.ofNat o } := by
  simp only [sizedTo, seekTo, fileOf, setSysfile, setFd, Function.update_self]

/-- A turn that goes past both sizes does not look at them. -/
theorem advance_sized {size : UInt32} {chunk : Nat}
    (larger : (t.gFdTable fd).offset + UInt32.ofNat chunk > (t.fileOf fd).size)
    (larger' : (t.gFdTable fd).offset + UInt32.ofNat chunk > size) :
    (t.setSysfile (t.gFdTable fd).sysfileIndex { t.fileOf fd with size := size }).advance now fd chunk =
      t.advance now fd chunk := by
  simp only [fileOf] at larger
  simp only [advance, setSysfile, setFd, fileOf, Function.update_self, Function.update_idem, larger, larger',
    ↓reduceIte]

variable (request : SeekRequest s fd nodes o n)

include request

theorem SeekRequest.seekTo_ready : (s.seekTo fd o).Ready :=
  ⟨request.ready.toMounted.of_eq rfl rfl rfl rfl rfl rfl rfl rfl, request.ready.size⟩

theorem SeekRequest.seekTo_valid : (s.seekTo fd o).validFd fd = true := by
  have valid := request.valid
  simp only [validFd, seekTo, setFd_self, Int.toNat_natCast] at valid ⊢
  exact valid

theorem SeekRequest.seekTo_chain :
    (s.seekTo fd o).Chain ((s.seekTo fd o).fileOf fd).firstBlock.toNat nodes := by
  rw [seekTo_fileOf]
  exact request.chain.congr rfl fun _ _ => rfl

theorem SeekRequest.sized (inside : o < s.capacity nodes) : OpenFile (s.sizedTo fd o) fd nodes := by
  have at_ := request.offset
  have file := sizedTo_fileOf s fd o
  have length : (s.sizedTo fd o).lengthOf fd = o := by
    rw [lengthOf, file, UInt32.toNat_ofNat']
    omega
  constructor
  · exact ⟨request.ready.toMounted.of_eq rfl rfl rfl rfl rfl rfl rfl rfl, request.ready.size⟩
  · exact request.fits
  · have valid := request.valid
    simp only [validFd, sizedTo, seekTo, setFd_self, setSysfile, Int.toNat_natCast] at valid ⊢
    exact valid
  · rw [file]
    exact request.chain.congr rfl fun _ _ => rfl
  · rw [length]
    exact Nat.le_of_lt inside
  · rw [length]
    exact Nat.le_of_eq (seekTo_offset at_)

/-- A turn of a write inside the chain makes up for the size. -/
theorem SeekRequest.same_loop (inside : o < s.capacity nodes) :
    writeLoop now fd buf n 0 n (s.seekTo fd o) = writeLoop now fd buf n 0 n (s.sizedTo fd o) := by
  have ready := request.seekTo_ready
  have chain := request.seekTo_chain
  have positive := request.ready.blockSize_pos
  have offset := @seekTo_offset s fd _ request.offset
  have count := request.count
  have at_ := request.offset
  have past := request.past
  have more := request.more
  obtain ⟨b, here⟩ : ∃ b, nodes[o / s.gBlockSize]? = some b :=
    ⟨_, List.getElem?_eq_getElem (position_inside request.ready inside)⟩
  have opened := request.sized inside
  have offset' : (s.sizedTo fd o).offsetOf fd = o := offset
  have turn := @writeLoop_turn _ _ _ _ buf now (n - 1) 0 n ready chain
    (by rw [offset]; exact here) more
  have turn' := @writeLoop_turn _ _ _ _ buf now (n - 1) 0 n
    opened.ready opened.chain (by rw [offset']; exact here) more
  rw [Nat.sub_add_cancel more] at turn turn'
  rw [turn, turn', offset, offset']
  have inBlock := Nat.mod_lt o positive
  have size : (s.seekTo fd o).gBlockSize = s.gBlockSize := rfl
  have size' : (s.sizedTo fd o).gBlockSize = s.gBlockSize := rfl
  rw [size, size']
  generalize chunkIs : min (s.gBlockSize - o % s.gBlockSize) n = chunk
  have moved : (s.seekTo fd o).offsetOf fd + chunk < 2 ^ 32 := by omega
  have larger : ∀ size : UInt32, size.toNat ≤ o →
      ((s.seekTo fd o).gFdTable fd).offset + UInt32.ofNat chunk > size := by
    intro size small
    rw [gt_iff_lt, UInt32.lt_iff_toNat_lt, UInt32.toNat_add, UInt32.toNat_ofNat']
    rw [offsetOf] at offset
    omega
  have length : (s.seekTo fd o).lengthOf fd = s.lengthOf fd := by rw [lengthOf, seekTo_fileOf, lengthOf]
  have first : (s.seekTo fd o).lengthOf fd ≤ o := by
    rw [length]
    exact Nat.le_of_lt past
  have second : (UInt32.ofNat o).toNat ≤ o := by
    rw [UInt32.toNat_ofNat']
    exact Nat.mod_le _ _
  have same := @advance_sized
    ((s.seekTo fd o).putBlock b (turnBuffer (s.seekTo fd o) b o chunk buf 0)) _ now _ _
    (larger _ first) (larger _ second)
  exact congrArg (writeLoop now fd buf (n - 1) (0 + chunk) (n - chunk)) same.symm

end Inside

section Answers

variable (request : SeekRequest s fd nodes o n)

include request

theorem SeekRequest.run_refused (reads : hasRead (s.gFdTable fd).mode = true) (now : UInt64) (buf : Buffer) :
    seekWrite now fd o buf n s = some (.error .perm, s.seekTo fd o) := by
  have valid := request.seekTo_valid
  have mode : hasRead ((s.seekTo fd o).gFdTable fd).mode = true := by
    rw [seekTo, setFd_self]
    exact reads
  rw [seekWrite, Prog.bind_of_run (kLseek_run request.ready.flag request.valid request.offset)]
  simp only [kWrite, Prog.get_bind, request.seekTo_ready.flag, valid, mode, Int.toNat_natCast, Bool.not_true,
    Bool.false_eq_true, ↓reduceIte, Prog.pure_run]

theorem SeekRequest.run_loop (writes : hasRead (s.gFdTable fd).mode = false) {r : Nat}
    (run : writeLoop now fd buf n 0 n (s.seekTo fd o) = some (r, t)) :
    seekWrite now fd o buf n s = some (.ok r, t) := by
  have valid := request.seekTo_valid
  have mode : hasRead ((s.seekTo fd o).gFdTable fd).mode = false := by
    rw [seekTo, setFd_self]
    exact writes
  rw [seekWrite, Prog.bind_of_run (kLseek_run request.ready.flag request.valid request.offset)]
  simp only [kWrite, Prog.get_bind, request.seekTo_ready.flag, valid, mode, Int.toNat_natCast, Bool.not_true,
    Bool.false_eq_true, ↓reduceIte]
  rw [Prog.bind_of_run (malloc_run request.seekTo_ready.host)]
  simp only [Bool.not_true, Bool.false_eq_true, ↓reduceIte]
  rw [Prog.bind_of_run run]
  rfl

/-- What a write that starts in front of the end of the chain leaves. -/
theorem SeekRequest.run_inside (writes : hasRead (s.gFdTable fd).mode = false) (inside : o < s.capacity nodes)
    (now : UInt64) (buf : Buffer) :
    ∃ u, seekWrite now fd o buf n s = some (.ok (min n (s.capacity nodes - o)), u) ∧
      Written (s.sizedTo fd o) u fd nodes buf (min n (s.capacity nodes - o)) := by
  have opened := request.sized inside
  have start : Written (s.sizedTo fd o) (s.sizedTo fd o) fd nodes buf 0 := opened.written_zero
  have offset : (s.sizedTo fd o).offsetOf fd = o := seekTo_offset request.offset
  have capacity : (s.sizedTo fd o).capacity nodes = s.capacity nodes := rfl
  obtain ⟨u, run, written⟩ := writeLoop_run now opened start (Nat.le_refl n)
    (by rw [offset, capacity, Nat.add_zero]; exact Nat.le_of_lt inside)
  rw [offset, capacity, Nat.zero_add, Nat.add_zero] at run written
  exact ⟨u, request.run_loop writes (by rw [request.same_loop inside]; exact run), written⟩

/-- The bytes between the end of the file and `o` are what the blocks held. -/
theorem SeekRequest.bytes_inside (written : Written (s.sizedTo fd o) t fd nodes buf n)
    (within : o + n ≤ s.capacity nodes) {p : Nat} (low : p < o + n) :
    t.byteAt nodes p = if o ≤ p then buf (p - o) else s.byteAt nodes p := by
  have offset : (s.sizedTo fd o).offsetOf fd = o := seekTo_offset request.offset
  rw [written.bytes p (Nat.lt_of_lt_of_le low within), spliced, offset]
  by_cases after : o ≤ p
  · rw [if_pos ⟨after, low⟩, if_pos after]
  · rw [if_neg fun both => after both.1, if_neg after]
    rfl

theorem SeekRequest.size_inside (written : Written (s.sizedTo fd o) t fd nodes buf n) :
    t.lengthOf fd = o + n := by
  have at_ := request.offset
  have count := request.count
  have offset : (s.sizedTo fd o).offsetOf fd = o := seekTo_offset at_
  have length : (s.sizedTo fd o).lengthOf fd = o := by
    rw [lengthOf, sizedTo_fileOf, UInt32.toNat_ofNat']
    omega
  rw [written.size_eq (by rw [offset, length]; omega), offset, length]
  exact Nat.max_eq_right (Nat.le_add_right o n)

/-- A write inside the chain, over zeros. -/
theorem SeekRequest.gapDone (written : Written (s.sizedTo fd o) t fd nodes buf n)
    (within : o + n ≤ s.capacity nodes)
    (zeros : ∀ p, s.lengthOf fd ≤ p → p < o → s.byteAt nodes p = 0) :
    GapDone s fd nodes o n buf (.ok n) t := by
  have more := request.more
  have limit := request.ready.capacity_lt request.chain
  have opened := request.sized (by omega)
  have chain := written.chain opened
  have capacity : t.capacity nodes = s.capacity nodes := written.capacity_eq
  have size := request.size_inside written
  have bytes : ∀ p < o + n, t.byteAt nodes p = gapFilled s fd nodes o buf p := by
    intro p low
    have past := request.past
    rw [request.bytes_inside written within low, gapFilled]
    by_cases old : p < s.lengthOf fd
    · rw [if_pos old, if_neg (by omega)]
    · rw [if_neg old]
      by_cases gap : p < o
      · rw [if_pos gap, if_neg (by omega)]
        exact zeros p (by omega) gap
      · rw [if_neg gap, if_pos (by omega)]
  refine ⟨rfl, size, ⟨nodes, chain, by rw [capacity]; exact within, bytes⟩,
    fun other valid same readable start => ?_⟩
  have length : t.lengthOf other = o + n := by rw [lengthOf, same, ← lengthOf, size]
  have linked := (same ▸ chain : t.Chain (t.fileOf other).firstBlock.toNat nodes).linked written.ready
  have run := kRead_run written.ready.toMounted valid readable linked (by rw [length, capacity]; exact within)
    (by omega) (o + n)
  rw [start, Nat.sub_zero, length, Nat.min_self] at run
  refine ⟨t.seekBy other (o + n), ?_⟩
  rw [run]
  have all : t.bytesFrom nodes 0 (o + n) = (List.range (o + n)).map (gapFilled s fd nodes o buf) := by
    apply List.map_congr_left
    intro p member
    rw [Nat.zero_add]
    exact bytes p (List.mem_range.mp member)
  rw [all]

end Answers

/-- A write behind the end of a file fills the gap with zeros exactly if the descriptor lacks `K_O_RDONLY`,
the write ends inside the blocks the file has, and these hold zeros in the gap. -/
theorem seekWrite_gap_iff (s : Fs) (fd : Nat) (nodes : List Nat) (o n : Nat) (now : UInt64) (buf : Buffer)
    (request : SeekRequest s fd nodes o n) :
    Prog.Ensures (seekWrite now fd o buf n) s (GapDone s fd nodes o n buf) ↔
      hasRead (s.gFdTable fd).mode = false ∧ o + n ≤ s.capacity nodes ∧
        ∀ p, s.lengthOf fd ≤ p → p < o → s.byteAt nodes p = 0 := by
  cases reads : hasRead (s.gFdTable fd).mode with
  | true =>
      rw [Prog.ensures_iff_of_run (request.run_refused reads now buf)]
      constructor
      · intro done
        cases done.returned
      · rintro ⟨impossible, _⟩
        cases impossible
  | false =>
      have more := request.more
      have positive := request.ready.blockSize_pos
      have offset := @seekTo_offset s fd _ request.offset
      have size : (s.seekTo fd o).gBlockSize = s.gBlockSize := rfl
      rcases Nat.lt_trichotomy (o / s.gBlockSize) nodes.length with inside | ends | beyond
      · have before : o < s.capacity nodes := (Nat.div_lt_iff_lt_mul positive).mp inside
        obtain ⟨u, run, written⟩ := request.run_inside reads before now buf
        rw [Prog.ensures_iff_of_run run]
        constructor
        · intro done
          have count : min n (s.capacity nodes - o) = n := by simpa using done.returned
          rw [count] at written
          have within : o + n ≤ s.capacity nodes := by omega
          refine ⟨rfl, within, fun p low high => ?_⟩
          obtain ⟨nodes', chain', _, bytes⟩ := done.contents
          obtain rfl : nodes' = nodes :=
            chain'.links.unique (written.chain (request.sized before)).links
          have filled := bytes p (by omega)
          rw [request.bytes_inside written within (by omega), if_neg (by omega), gapFilled,
            if_neg (by omega), if_pos high] at filled
          exact filled
        · rintro ⟨_, within, zeros⟩
          have count : min n (s.capacity nodes - o) = n := by omega
          rw [count] at written ⊢
          exact request.gapDone written within zeros
      · have stop := @writeLoop_end _ _ _ buf now (n - 1) 0 n
          request.seekTo_ready request.fits request.seekTo_chain (by rw [offset, size]; exact ends) more
        rw [Nat.sub_add_cancel more] at stop
        rw [Prog.ensures_iff_of_run (request.run_loop reads stop)]
        constructor
        · intro done
          have none : 0 = n := by simpa using done.returned
          omega
        · rintro ⟨_, within, _⟩
          have past : ¬ o < s.capacity nodes := fun less =>
            Nat.ne_of_lt ((Nat.div_lt_iff_lt_mul positive).mpr less) ends
          omega
      · have far : (nodes.length + 1) * s.gBlockSize ≤ o := (Nat.le_div_iff_mul_le positive).mp beyond
        have at_ := request.offset
        have count := request.count
        obtain ⟨r, u, nodes', run, chain', short⟩ := @writeLoop_beyond _ _ _ buf now n
          0 n request.seekTo_ready request.seekTo_chain
          (by rw [offset, size]; exact far) (by rw [offset]; omega) more (Nat.le_refl n)
        rw [Prog.ensures_iff_of_run (request.run_loop reads run)]
        constructor
        · intro done
          have all : r = 0 + n := by simpa using done.returned
          have less := short all
          obtain ⟨nodes₂, chain₂, fits, _⟩ := done.contents
          obtain rfl : nodes₂ = nodes' := chain₂.links.unique chain'.links
          rw [offset] at less
          omega
        · rintro ⟨_, within, _⟩
          have past : ¬ o < s.capacity nodes := fun less =>
            Nat.lt_asymm ((Nat.div_lt_iff_lt_mul positive).mpr less) beyond
          omega

section Examples

theorem freshFile_seek {o n : Nat} (past : 0 < o) (more : 0 < n) (small : o + n ≤ 512) :
    SeekRequest freshFile 0 [2] o n where
  ready := (freshFile_open).ready
  fits := (freshFile_open).fits
  valid := (freshFile_open).valid
  chain := (freshFile_open).chain
  holds := (freshFile_open).holds
  mode := .inl (by decide +kernel)
  past := by
    have empty : freshFile.lengthOf 0 = 0 := by decide +kernel
    rw [empty]
    exact past
  more := more
  offset := by omega
  count := by omega
  room := by
    obtain ⟨_, size, free⟩ := freshFile_room
    rw [size, List.length_singleton]
    omega

theorem seekWrite_gap_freshFile :
    Prog.Ensures (seekWrite 7 0 100 (fun _ => 65) 5) freshFile
      (GapDone freshFile 0 [2] 100 5 fun _ => 65) := by
  have zeros : ∀ p < 100, freshFile.byteAt [2] p = 0 := by decide +kernel
  exact (seekWrite_gap_iff freshFile 0 [2] 100 5 7 (fun _ => 65)
    (freshFile_seek (by decide) (by decide) (by decide))).mpr
      ⟨by decide +kernel, by decide +kernel, fun p _ low => zeros p low⟩

/-- Nothing is written at position 300 of a file of one block of 256 bytes. -/
theorem write_behind_chain_lost :
    ¬ ∀ (s : Fs) (fd : Nat) (nodes : List Nat) (o n : Nat) (now : UInt64) (buf : Buffer),
      SeekRequest s fd nodes o n → Prog.Ensures (seekWrite now fd o buf n) s
        (GapDone s fd nodes o n buf) := by
  intro always
  have done := always freshFile 0 [2] 300 5 7 (fun _ => 65)
    (freshFile_seek (by decide) (by decide) (by decide))
  have run := Prog.run_ok (p := seekWrite 7 0 300 (fun _ => 65) 5) (s := freshFile) (a := 0)
    (by decide +kernel)
  cases (Prog.Ensures.of_eq done run).returned

end Examples

end PennOs.Fat
