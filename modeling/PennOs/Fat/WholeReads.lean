import PennOs.Fat.ChainContents
import PennOs.Fat.DescriptorUse
import PennOs.Fat.OpenBindings
import PennOs.Fat.Metadata

set_option autoImplicit false

/- A file is opened, read to its end and closed: what the reads give, and what is left of it. -/
namespace PennOs.Fat

open Image (Promises)
open Prog (Commutes)
open Fs

namespace Fs

/-- Another system-wide table and other descriptors. -/
def withTables (s : Fs) (files : Nat → SystemFile) (fds : Nat → FdEntry) : Fs :=
  { s with gSysfileTable := files, gFdTable := fds }

/-- How far `k_read` gets in a file of a size, over blocks of a capacity. It takes a size from 2^31
on for a negative number. -/
def readable (size capacity : Nat) : Nat := if size < 2 ^ 31 then min size capacity else 0

end Fs

variable {promised : Promises} {s : Fs} {I : Image} {nodes : List Nat} {files : Nat → SystemFile}
  {fds : Nat → FdEntry} {now : UInt64} {follow : Bool} {fd fatBlocks : Nat}
  {recurse : List UInt8 → FsM (PennFatErr × ResolvedPath)}

section Tables

theorem hostOk_apart : Commutes (fun s : Fs => s.withTables files fds) hostOk := by
  refine .bind (fun s => ?_) fun outcome => by cases outcome <;> exact .pure _
  cases host : s.host with
  | nil => simp only [hostCall, withTables, host, Option.map_some, Prod.map_apply, id_eq]
  | cons outcome rest => simp only [hostCall, withTables, host, Option.map_some, Prod.map_apply, id_eq]

theorem fatGet_apart (index : Nat) : Commutes (fun s : Fs => s.withTables files fds) (fatGet index) := by
  intro s
  have mapped : (s.withTables files fds).fatMapped index = s.fatMapped index := rfl
  rw [fatGet, fatGet, mapped]
  split
  · rfl
  · rfl

theorem readBlock_apart (b : Nat) : Commutes (fun s : Fs => s.withTables files fds) (readBlock b) := by
  unfold readBlock
  refine .get (fun _ => rfl) fun s => .ite (fun _ => .pure _) fun _ => ?_
  refine .bind hostOk_apart fun sought => .ite (fun _ => .pure _) fun _ => ?_
  refine .bind hostOk_apart fun got => .ite (fun _ => .pure _) fun _ => ?_
  exact .get (fun _ => rfl) fun t => .ite (fun _ => .pure _) fun _ => .pure _

theorem findLoop_apart (name : List UInt8) (fuel current : Nat) :
    Commutes (fun s : Fs => s.withTables files fds) (findLoop name fuel current) := by
  induction fuel generalizing current with
  | zero => exact .fault
  | succ fuel ih =>
      unfold findLoop
      refine .ite (fun _ => .pure _) fun _ => .bind (readBlock_apart current) fun read => ?_
      cases read with
      | none => exact .pure _
      | some buf =>
          refine .get (fun _ => rfl) fun s => ?_
          split
          · exact .pure _
          · exact .bind (fatGet_apart current) ih

theorem findEntryInDir_apart (d : Nat) (name : List UInt8) :
    Commutes (fun s : Fs => s.withTables files fds) (findEntryInDir d name) := by
  unfold findEntryInDir
  refine .ite (fun _ => .pure _) fun _ => ?_
  refine .bind hostOk_apart fun room => .ite (fun _ => .pure _) fun _ => ?_
  refine .bind (findLoop_apart name _ d) fun found => ?_
  rcases found with err | _ | hit <;> exact .pure _

theorem readSymlinkTarget_apart (link : DirEntry) :
    Commutes (fun s : Fs => s.withTables files fds) (readSymlinkTarget link) := by
  unfold readSymlinkTarget
  refine .ite (fun _ => .pure _) fun _ => ?_
  refine .bind hostOk_apart fun room => .ite (fun _ => .pure _) fun _ => ?_
  refine .bind (readBlock_apart _) fun read => ?_
  cases read <;> exact .pure _

theorem walk_apart (targets : ∀ target, Commutes (fun s : Fs => s.withTables files fds) (recurse target))
    (components : List (List UInt8)) (current parent : Nat) :
    Commutes (fun s : Fs => s.withTables files fds) (walk now follow recurse components current parent) := by
  induction components generalizing current parent with
  | nil => exact .pure _
  | cons component rest ih =>
      unfold walk
      refine .ite (fun _ => ih current parent) fun _ => .ite (fun _ => ?_) fun _ => ?_
      · refine .ite (fun _ => ih current parent) fun _ =>
          .bind (findEntryInDir_apart current dotDot) fun up => ?_
        cases up with
        | error err => exact .pure _
        | ok up => exact .ite (fun _ => .pure _) fun _ => ih _ current
      · refine .bind (findEntryInDir_apart current component) fun hit => ?_
        cases hit with
        | error err => exact .pure _
        | ok hit =>
            refine .ite (fun _ => .pure _) fun _ => ?_
            cases rest with
            | nil =>
                refine .ite (fun _ => ?_) fun _ => .pure _
                refine .bind (readSymlinkTarget_apart _) fun target => ?_
                cases target with
                | error err => exact .pure _
                | ok target => exact targets target
            | cons next rest => exact .ite (fun _ => .pure _) fun _ => ih _ current

/-- Path resolution does not look at the open files. -/
theorem resolvePath_apart (path : List UInt8) :
    Commutes (fun s : Fs => s.withTables files fds) (resolvePath now path) := by
  have internal : ∀ levels path,
      Commutes (fun s : Fs => s.withTables files fds) (resolvePathInternal now true levels path) := by
    intro levels
    induction levels with
    | zero => exact fun _ => .pure _
    | succ levels ih =>
        intro path
        unfold resolvePathInternal
        refine .get (fun _ => rfl) fun s => ?_
        cases path with
        | nil => exact .ite (fun _ => .pure _) fun _ => .pure _
        | cons c rest =>
            refine .ite (fun _ => ?_) fun _ => walk_apart ih _ _ _
            exact .ite (fun _ => .pure _) fun _ => walk_apart ih _ _ _
  unfold resolvePath
  exact .ite (fun _ => .pure _) fun _ => internal symlinkLevels path

/-- Path resolution is the same whatever files are open. -/
theorem resolvePath_withTables {path : List UInt8} {err : PennFatErr} {r : ResolvedPath}
    (run : resolvePath now path s = some ((err, r), s)) :
    resolvePath now path (s.withTables files fds) = some ((err, r), s.withTables files fds) := by
  have same : Commutes (fun s : Fs => s.withTables files fds) (resolvePath now path) := resolvePath_apart path
  have here := same s
  rw [run] at here
  exact here

theorem Resting.withHostFiles (resting : Resting promised s I) (hostFiles : List UInt8 → Option HostFile) :
    Resting promised { s with hostFiles := hostFiles } I :=
  ⟨resting.tracks.of_image rfl rfl rfl rfl rfl rfl rfl rfl rfl rfl rfl, resting.good, resting.idle,
    resting.cwd⟩

theorem Resting.withTables (resting : Resting promised s I) (files : Nat → SystemFile) (fds : Nat → FdEntry) :
    Resting promised (s.withTables files fds) I :=
  ⟨resting.tracks.of_image rfl rfl rfl rfl rfl rfl rfl rfl rfl rfl rfl, resting.good, resting.idle,
    resting.cwd⟩

end Tables

section Reading

/-- The copy loop past the chain: it stops with the last block. -/
theorem readLoop_past (ready : s.Ready) (fits : s.fileSize ≤ s.fatEntries * s.gBlockSize)
    (linked : s.Linked (s.fileOf fd).firstBlock.toNat nodes) (some_ : nodes ≠ [])
    (start : s.offsetOf fd ≤ s.capacity nodes) (short : s.capacity nodes < 2 ^ 31) {fuel r : Nat}
    (enough : r ≤ fuel) (past : s.capacity nodes - s.offsetOf fd < r) (acc : List UInt8) :
    readLoop fd fuel r acc s =
      some (acc ++ s.bytesFrom nodes (s.offsetOf fd) (s.capacity nodes - s.offsetOf fd),
        s.seekBy fd (s.capacity nodes - s.offsetOf fd)) := by
  induction fuel generalizing s r acc with
  | zero => omega
  | succ fuel ih =>
      have mounted := ready.toMounted
      have positive := mounted.blockSize_pos
      have within : s.offsetOf fd / s.gBlockSize ≤ nodes.length := by
        rw [Nat.div_le_iff_le_mul positive]
        simp only [capacity] at start
        omega
      have located := locateBlockInChain_run linked some_ within
      simp only [fileOf, offsetOf] at located
      have more : ¬ r = 0 := by omega
      simp only [readLoop, more, ↓reduceIte, Prog.get_bind]
      rw [Prog.bind_of_run located]
      simp only
      by_cases ends : s.capacity nodes - s.offsetOf fd = 0
      · have behind : s.offsetOf fd / s.gBlockSize = nodes.length := by
          have same : s.offsetOf fd = s.capacity nodes := by omega
          rw [same, capacity]
          exact Nat.mul_div_cancel _ positive
        have outside : nodes[(s.gFdTable fd).offset.toNat / s.gBlockSize]? = none :=
          List.getElem?_eq_none (by
            show nodes.length ≤ s.offsetOf fd / s.gBlockSize
            omega)
        rw [outside, Option.getD_none, Prog.bind_of_run (readBlock_eoc ready fits), ends]
        simp [bytesFrom]
      · have row : s.offsetOf fd / s.gBlockSize < nodes.length := by
          rw [Nat.div_lt_iff_lt_mul positive]
          simp only [capacity] at ends
          omega
        obtain ⟨b, here⟩ : ∃ b, nodes[s.offsetOf fd / s.gBlockSize]? = some b :=
          ⟨_, List.getElem?_eq_getElem row⟩
        have member := List.mem_of_getElem? here
        have remainder := Nat.mod_lt (s.offsetOf fd) positive
        have part := Nat.div_add_mod (s.offsetOf fd) s.gBlockSize
        have room : s.gBlockSize - s.offsetOf fd % s.gBlockSize ≤ s.capacity nodes - s.offsetOf fd := by
          have rows : s.gBlockSize * (s.offsetOf fd / s.gBlockSize) + s.gBlockSize ≤ s.capacity nodes := by
            rw [capacity, ← Nat.mul_succ, Nat.mul_comm]
            exact Nat.mul_le_mul_right _ row
          omega
        have here' : nodes[(s.gFdTable fd).offset.toNat / s.gBlockSize]? = some b := here
        rw [here', Option.getD_some, Prog.bind_of_run (readBlock_stored mounted (linked.stored b member))]
        simp only [Prog.modify_bind]
        obtain ⟨chunk, chunkIs⟩ : ∃ chunk,
            chunk = min (s.gBlockSize - s.offsetOf fd % s.gBlockSize) r := ⟨_, rfl⟩
        have low : chunk ≤ s.capacity nodes - s.offsetOf fd := by omega
        have moves : 0 < chunk := by omega
        have copied := chunk_bytes chunk positive here (by omega)
        have offset := @seekBy_offsetOf s fd chunk (by omega)
        simp only [offsetOf] at chunkIs copied
        rw [← chunkIs, copied]
        have shape : (s.seekBy fd chunk).capacity nodes = s.capacity nodes := rfl
        have rest := ih (s := s.seekBy fd chunk) { ready with } fits
          (seekBy_fileOf s fd chunk ▸ linked.seekBy fd chunk) (by rw [offset, shape]; omega)
          (by rw [shape]; exact short) (r := r - chunk) (by omega) (by rw [offset, shape]; omega)
          (acc ++ s.bytesFrom nodes (s.offsetOf fd) chunk)
        have total : chunk + (s.capacity nodes - (s.offsetOf fd + chunk)) =
          s.capacity nodes - s.offsetOf fd := by
          omega
        have whole := bytesFrom_add s nodes (s.offsetOf fd) chunk (s.capacity nodes - (s.offsetOf fd + chunk))
        rw [offset, shape, seekBy_add, total, List.append_assoc] at rest
        rw [total] at whole
        rw [whole]
        exact rest

/-- `k_read` goes as far as the size and the chain allow. -/
theorem kRead_readable (ready : s.Ready) (fits : s.fileSize ≤ s.fatEntries * s.gBlockSize)
    (valid : s.validFd fd = true) (mode : hasWrite (s.gFdTable fd).mode = false)
    (linked : s.Linked (s.fileOf fd).firstBlock.toNat nodes) (some_ : nodes ≠ [])
    (short : s.capacity nodes < 2 ^ 31)
    (start : s.offsetOf fd ≤ readable (s.lengthOf fd) (s.capacity nodes)) (n : Nat) :
    kRead fd n s =
      some (.ok (s.bytesFrom nodes (s.offsetOf fd)
          (min n (readable (s.lengthOf fd) (s.capacity nodes) - s.offsetOf fd))),
        s.seekBy fd (min n (readable (s.lengthOf fd) (s.capacity nodes) - s.offsetOf fd))) := by
  have mounted := ready.toMounted
  have left : (s.gSysfileTable (s.gFdTable fd).sysfileIndex).size.toNat
      - (s.gFdTable fd).offset.toNat = s.lengthOf fd - s.offsetOf fd := rfl
  have small : s.lengthOf fd < 2 ^ 32 := (s.fileOf fd).size.toNat_lt
  simp only [kRead, Prog.get_bind, mounted.flag, valid, Int.toNat_natCast, mode, left,
    Bool.not_true, Bool.false_eq_true, ↓reduceIte]
  unfold readable at start ⊢
  by_cases empty : s.lengthOf fd - s.offsetOf fd = 0
  · have nothing : min n ((if s.lengthOf fd < 2 ^ 31 then min (s.lengthOf fd) (s.capacity nodes) else 0)
        - s.offsetOf fd) = 0 := by
      split
      · omega
      · omega
    simp only [empty, ↓reduceIte]
    rw [nothing, seekBy_zero]
    rfl
  simp only [empty, ↓reduceIte]
  rw [Prog.bind_of_run (malloc_run mounted.host)]
  simp only [Bool.not_true, Bool.false_eq_true, ↓reduceIte]
  by_cases int : s.lengthOf fd < 2 ^ 31
  · rw [if_pos int] at start ⊢
    have count : (toRead n (s.lengthOf fd - s.offsetOf fd)).toNat =
      min n (s.lengthOf fd - s.offsetOf fd) := by
      have positive : s.lengthOf fd - s.offsetOf fd < 2 ^ 31 := by omega
      simp only [toRead, positive, ↓reduceIte]
      split <;> omega
    rw [count]
    by_cases within : s.offsetOf fd + min n (s.lengthOf fd - s.offsetOf fd) ≤ s.capacity nodes
    · have same : min n (min (s.lengthOf fd) (s.capacity nodes) - s.offsetOf fd) =
          min n (s.lengthOf fd - s.offsetOf fd) := by omega
      rw [Prog.bind_of_run (readLoop_run [] mounted linked (Nat.le_refl _) within (by omega)), same]
      rfl
    · have same : min n (min (s.lengthOf fd) (s.capacity nodes) - s.offsetOf fd) =
          s.capacity nodes - s.offsetOf fd := by omega
      rw [Prog.bind_of_run (readLoop_past ready fits linked some_ (by omega) short (Nat.le_refl _)
        (by omega) []), same]
      rfl
  · rw [if_neg int] at start ⊢
    have count : (toRead n (s.lengthOf fd - s.offsetOf fd)).toNat = 0 := by
      have negative : ¬ s.lengthOf fd - s.offsetOf fd < 2 ^ 31 := by omega
      simp only [toRead, negative, ↓reduceIte]
      split <;> omega
    rw [count]
    have nothing : min n (0 - s.offsetOf fd) = 0 := by omega
    rw [nothing, seekBy_zero]
    rfl

/-- `left` bytes can still be read through `fd`, whose file has the blocks `nodes`. -/
structure Reading (s : Fs) (fd : Nat) (nodes : List Nat) (left : Nat) : Prop where
  ready : s.Ready
  fits : s.fileSize ≤ s.fatEntries * s.gBlockSize
  valid : s.validFd fd = true
  mode : hasWrite (s.gFdTable fd).mode = false
  linked : s.Linked (s.fileOf fd).firstBlock.toNat nodes
  some_ : nodes ≠ []
  short : s.capacity nodes < 2 ^ 31
  isLeft : s.offsetOf fd + left = readable (s.lengthOf fd) (s.capacity nodes)

theorem Reading.withHostFiles {left : Nat} (reading : Reading s fd nodes left)
    (hostFiles : List UInt8 → Option HostFile) : Reading { s with hostFiles := hostFiles } fd nodes left where
  ready := { reading.ready with }
  fits := reading.fits
  valid := reading.valid
  mode := reading.mode
  linked := { reading.linked with }
  some_ := reading.some_
  short := reading.short
  isLeft := reading.isLeft

/-- A read takes the next bytes. -/
theorem Reading.turn {left n count : Nat} (reading : Reading s fd nodes left) (isCount : count = min n left) :
    kRead fd n s = some (.ok (s.bytesFrom nodes (s.offsetOf fd) count), s.seekBy fd count) ∧
      (s.seekBy fd count).offsetOf fd = s.offsetOf fd + count ∧
      Reading (s.seekBy fd count) fd nodes (left - count) := by
  obtain ⟨ready, fits, valid, mode, linked, some_, short, isLeft⟩ := reading
  have below : readable (s.lengthOf fd) (s.capacity nodes) ≤ s.capacity nodes := by
    unfold readable
    split <;> omega
  have reads := kRead_readable ready fits valid mode linked some_ short (by omega) n
  have rest : readable (s.lengthOf fd) (s.capacity nodes) - s.offsetOf fd = left := by omega
  rw [rest, ← isCount] at reads
  have offset := @seekBy_offsetOf s fd count (by omega)
  have file := seekBy_fileOf s fd count
  have length : (s.seekBy fd count).lengthOf fd = s.lengthOf fd := by rw [lengthOf, file, lengthOf]
  have shape : (s.seekBy fd count).capacity nodes = s.capacity nodes := rfl
  have valid' : (s.seekBy fd count).validFd fd = true := by
    simp only [validFd, Int.toNat_natCast, seekBy, setFd_self] at valid ⊢
    exact valid
  have mode' : hasWrite ((s.seekBy fd count).gFdTable fd).mode = false := by
    rw [seekBy, setFd_self]
    exact mode
  have left' : (s.seekBy fd count).offsetOf fd + (left - count) =
      readable ((s.seekBy fd count).lengthOf fd) ((s.seekBy fd count).capacity nodes) := by
    rw [offset, length, shape]
    omega
  exact ⟨reads, offset, { ready with }, fits, valid', mode', file ▸ linked.seekBy fd count, some_,
    short, left'⟩

end Reading

section Opening

variable {c d : Nat} {p : Nat × Nat} {path : List UInt8} {err : PennFatErr} {r : ResolvedPath}

/-- The mode of a file that is only read. -/
def readMode : UInt32 := 0x2

/-- The new entry of the system-wide table for the file that was found. -/
def readEntry (r : ResolvedPath) : SystemFile where
  refCount := 1
  inUse := true
  firstBlock := r.entry.firstBlock
  size := r.entry.size
  mtime := r.entry.mtime
  dirIndex := pseudoInode r.entryBlock r.entryIndexInBlock

/-- The file that was found is open as descriptor 0. -/
def Fs.openedAs (s : Fs) (r : ResolvedPath) (mode offset : UInt32) : Fs :=
  (s.setSysfile 0 (readEntry r)).setFd 0 ⟨true, 0, mode, offset⟩

/-- What `k_open` asks of a file to read. -/
def Opens (err : PennFatErr) (r : ResolvedPath) : Prop :=
  err = .ok ∧ r.found = true ∧ r.entry.type ≠ DirEntry.typeDirectory ∧ canRead r.entry.perm = true

theorem Fs.NoneOpen.free (idle : s.NoneOpen) : s.freeSysfile = some 0 ∧ s.freeFd = some 0 := by
  constructor
  · exact Search.firstFrom_eq_some (Nat.le_refl 0) (by decide) (by simp [idle.files 0 (by decide)])
      fun i _ low => absurd low (Nat.not_lt_zero i)
  · exact Search.firstFrom_eq_some (Nat.le_refl 0) (by decide) (by simp [idle.descriptors 0 (by decide)])
      fun i _ low => absurd low (Nat.not_lt_zero i)

theorem Fs.NoneOpen.findSysfile (idle : s.NoneOpen) (inode : Nat) : s.findSysfile inode = none := by
  apply Search.firstFrom_none.mpr
  intro i _ low
  rw [idle.files i (by omega), Bool.false_and]

theorem createSysfile_fresh (idle : s.NoneOpen) (r : ResolvedPath) :
    createSysfileEntryFromResolved r (pseudoInode r.entryBlock r.entryIndexInBlock) s =
      some (some 0, s.setSysfile 0 (readEntry r)) := by
  simp only [createSysfileEntryFromResolved, Prog.get_bind, idle.free.1, Prog.modify_bind, Prog.pure_run]
  rfl

theorem assignFd_fresh (idle : s.NoneOpen) (r : ResolvedPath) (mode size : UInt32) :
    assignFd 0 mode size (s.setSysfile 0 (readEntry r)) =
      some (.ok 0, s.openedAs r mode (if hasAppend mode then size else 0)) := by
  have free : (s.setSysfile 0 (readEntry r)).freeFd = some 0 := idle.free.2
  simp only [assignFd, Prog.get_bind, free, Prog.modify_bind, Prog.pure_run]
  rfl

/-- With no file open, the file becomes descriptor 0. -/
theorem openCurrent_fresh (idle : s.NoneOpen) (r : ResolvedPath) (mode : UInt32) :
    openCurrent mode (.ok r) s =
      some (.ok 0, s.openedAs r mode (if hasAppend mode then r.entry.size else 0)) := by
  have missing : findAndIncrementSysfile (pseudoInode r.entryBlock r.entryIndexInBlock) s =
    some (none, s) := by
    simp only [findAndIncrementSysfile, Prog.get_bind, idle.findSysfile, Prog.pure_run]
  refine (Prog.bind_of_run missing _).trans ((Prog.bind_of_run (createSysfile_fresh idle r) _).trans ?_)
  exact assignFd_fresh idle r mode r.entry.size

/-- With no file open, a readable file becomes descriptor 0. -/
theorem kOpen_reads (resting : Resting promised s I) (idle : s.NoneOpen)
    (run : resolvePath now path s = some ((err, r), s)) (opens : Opens err r) :
    kOpen now path readMode s = some (.ok 0, s.openedAs r readMode 0) := by
  obtain ⟨rfl, found, type, perm⟩ := opens
  have flag : s.gMounted = true := resting.tracks.ready.flag
  have named : ¬ (path = [] ∧ s.gCwdBlock = 1) := by
    rintro ⟨rfl, root⟩
    have here : resolvePath now [] s = some ((.ok, resolvedDir [slash] 1 1 now), s) := by
      have other : ([] : List UInt8) ≠ [slash] := by simp
      simp only [resolvePath, other, ↓reduceIte, resolvePathInternal, symlinkLevels, Prog.get_bind, root,
        Prog.pure_run]
    rw [here] at run
    cases run
    exact type rfl
  have mode : isValidMode readMode = true := by decide
  have permitted : permits readMode r.entry.perm = true := by
    simp [permits, perm, show hasWrite readMode = false by decide, show hasAppend readMode = false by decide]
  have plain : openedEntry now readMode r s = some (.ok r, s) := rfl
  simp only [kOpen, Prog.get_bind, flag, named, mode, Bool.not_true, Bool.false_eq_true, ↓reduceIte]
  rw [Prog.bind_of_run run]
  simp only [found, openExisting_eq, type, permitted, ne_eq, not_true_eq_false, false_and, Bool.not_true,
    Bool.false_eq_true, ↓reduceIte]
  rw [Prog.bind_of_run plain]
  exact openCurrent_fresh idle r readMode

/-- The file that was just opened is read from its start. -/
theorem reading_openedAs {u : Fs} (ready : u.Ready) (fits : u.fileSize ≤ u.fatEntries * u.gBlockSize)
    (chain : u.Chain r.entry.firstBlock.toNat nodes) :
    Reading (u.openedAs r readMode 0) 0 nodes (readable r.entry.size.toNat (u.capacity nodes)) where
  ready := { ready with }
  fits := fits
  valid := rfl
  mode := by
    rw [openedAs, setFd_self]
    decide
  linked := (show (u.openedAs r readMode 0).Chain r.entry.firstBlock.toNat nodes from
    ⟨chain.links, chain.inside⟩).linked { ready with }
  some_ := chain.ne_nil
  short := lt_of_le_of_lt (ready.capacity_lt chain) (by decide)
  isLeft := Nat.zero_add _

theorem seekBy_openedAs (u : Fs) (r : ResolvedPath) (count : Nat) :
    (u.openedAs r readMode 0).seekBy 0 count = u.openedAs r readMode (UInt32.ofNat count) := by
  simp only [seekBy, openedAs, setFd, Function.update_self, Function.update_idem, UInt32.zero_add]

theorem kOpen_refuses (resting : Resting promised s I)
    (run : resolvePath now path s = some ((err, r), s)) (refused : ¬ Opens err r) :
    ∃ err, kOpen now path readMode s = some (.error err, s) := by
  have flag : s.gMounted = true := resting.tracks.ready.flag
  have mode : isValidMode readMode = true := by decide
  simp only [kOpen, Prog.get_bind, flag, mode, Bool.not_true, Bool.false_eq_true, ↓reduceIte]
  by_cases named : path = [] ∧ s.gCwdBlock = 1
  · exact ⟨.invad, by simp only [named, and_self, ↓reduceIte, Prog.pure_run]⟩
  simp only [named, ↓reduceIte]
  rw [Prog.bind_of_run run]
  by_cases fails : err ≠ .ok ∧ err ≠ .notdir
  · exact ⟨err, by simp only [fails, ne_eq, not_false_eq_true, and_self, ↓reduceIte, Prog.pure_run]⟩
  simp only [fails, ↓reduceIte]
  cases found : r.found with
  | false =>
      have create : hasCreate readMode = false := by decide
      exact ⟨.exist, by simp only [openCreate, create, Bool.not_false, Bool.false_eq_true, ↓reduceIte, Prog.pure_run]⟩
  | true =>
      have success : err = .ok := by
        obtain ⟨err', r', run', resolved⟩ :=
          resolvePath_run resting.tracks resting.good.wf resting.cwd now path
        rw [run] at run'
        cases run'
        cases resolved with
        | slash => rfl
        | dir name d parent mtime here above at_ => rfl
        | entry d p place live named before => rfl
        | missing err d here kind => cases found
        | nothing err => cases found
      simp only [openExisting_eq, ↓reduceIte]
      by_cases type : r.entry.type = DirEntry.typeDirectory
      · exact ⟨.isdir, by simp only [type, ↓reduceIte, Prog.pure_run]⟩
      · have barred : canRead r.entry.perm = false := by
          by_contra reads
          exact refused ⟨success, found, type, by simpa using reads⟩
        have permitted : permits readMode r.entry.perm = false := by
          simp [permits, barred, show hasRead readMode = true by decide]
        exact ⟨.perm, by simp only [type, permitted, Bool.not_false, ↓reduceIte, Prog.pure_run]⟩

/-- A file that can be read is an entry of a directory, and its chain ends. -/
theorem Opens.entry (resting : Resting promised s I)
    (run : resolvePath now path s = some ((err, r), s)) (opens : Opens err r) :
    ∃ d p, r = I.foundAt d p ∧ I.Holds d p r.entry.firstBlock.toNat ∧ ¬ I.dirs r.entry.firstBlock.toNat ∧
      (I.slot p.1 p.2).live = true := by
  obtain ⟨rfl, found, type, perm⟩ := opens
  have wf := resting.good.wf
  obtain ⟨err', r', run', resolved⟩ := resolvePath_run resting.tracks wf resting.cwd now path
  rw [run] at run'
  cases run'
  cases resolved with
  | slash => exact absurd perm (by decide)
  | missing err d here kind => cases found
  | nothing err => cases found
  | dir name d parent mtime here above at_ => exact absurd rfl type
  | entry d p place live named before =>
      have link : I.Holds d p (I.foundAt d p).entry.firstBlock.toNat := ⟨place, live, named, rfl⟩
      refine ⟨d, p, rfl, link, fun here => type ?_, live⟩
      exact (wf.target d p _ link).2.mpr here

/-- An entry that is written where it was read changes nothing. -/
theorem putDirent_self (stored : s.blockOffset p.1 + s.gBlockSize ≤ s.fileSize) :
    s.putDirent p (s.dirent p) = s := by
  have packed : ∀ j < 64, (s.dirent p).encode j = s.block p.1 (64 * p.2 + j) :=
    DirEntry.decode_injective (DirEntry.decode_encode (s.dirent p))
  have buffer : ∀ j < s.gBlockSize,
      setDirentAt (s.block p.1) p.2 (s.dirent p) j = s.file (s.blockOffset p.1 + j) := by
    intro j inside
    have shown : s.block p.1 j = s.file (s.blockOffset p.1 + j) := by simp only [block, inside, ↓reduceIte]
    rw [← shown, setDirentAt]
    by_cases here : 64 * p.2 ≤ j ∧ j < 64 * p.2 + 64
    · rw [overlay_inside here.1 here.2, packed (j - 64 * p.2) (by omega), Nat.add_sub_cancel' here.1]
    · exact overlay_outside (by omega)
  have bytes : overlay s.file (s.blockOffset p.1) s.gBlockSize (setDirentAt (s.block p.1) p.2 (s.dirent p)) =
      s.file := by
    funext a
    by_cases here : s.blockOffset p.1 ≤ a ∧ a < s.blockOffset p.1 + s.gBlockSize
    · rw [overlay_inside here.1 here.2, buffer (a - s.blockOffset p.1) (by omega), Nat.add_sub_cancel' here.1]
    · exact overlay_outside (by omega)
  simp only [putDirent, putBlock, putBytes, bytes, Nat.max_eq_left stored]

/-- The last descriptor of a file is closed: the size and the time go to the entry of the file. -/
theorem kClose_last (resting : Resting promised s I) (link : I.Holds d p c)
    (inUse : (s.gFdTable 0).inUse = true) (index : (s.gFdTable 0).sysfileIndex = 0) {sf : SystemFile}
    (entry : s.gSysfileTable 0 = sf) (used : sf.inUse = true) (last : sf.refCount = 1)
    (key : sf.dirIndex = pseudoInode p.1 p.2) (first : (I.slot p.1 p.2).firstBlock = sf.firstBlock) :
    kClose 0 s = some (.ok,
      ((s.putDirent p { I.slot p.1 p.2 with size := sf.size, mtime := sf.mtime }).setSysfile 0 .zero).setFd 0
        { s.gFdTable 0 with inUse := false }) := by
  have flag : s.gMounted = true := resting.tracks.ready.flag
  obtain ⟨low, high, _⟩ := resting.good.wf.inside d p.1 link.block
  have blocks := resting.tracks.blocks_bounds
  have slots := resting.tracks.slots_lt
  obtain ⟨block, slot⟩ := pseudoInode_place (p := p) (lt_trans link.index slots) (by omega)
  obtain ⟨t, isT⟩ : ∃ t, t = (s.setFd 0 { s.gFdTable 0 with inUse := false }).setSysfile 0
      { sf with refCount := sf.refCount - 1 } := ⟨_, rfl⟩
  have rests : Resting promised t I := isT ▸ resting.withTables _ _
  have reads : readDirent p.1 p.2 t = some (.ok (I.slot p.1 p.2), t) :=
    readDirent_run rests.tracks low high link.index
  have writes := writeDirent_run rests.tracks low high link.index
    { I.slot p.1 p.2 with size := sf.size, mtime := sf.mtime }
  have same : (I.slot p.1 p.2).live = true ∧ (I.slot p.1 p.2).firstBlock = sf.firstBlock := ⟨link.live, first⟩
  have flushes : flushSysfile sf t =
      some ((), t.putDirent p { I.slot p.1 p.2 with size := sf.size, mtime := sf.mtime }) := by
    unfold flushSysfile
    rw [key, block, slot, Prog.bind_of_run reads]
    simp only
    rw [if_pos same]
    exact (Prog.bind_of_run writes _).trans rfl
  have valid : s.validFd 0 = true := by
    simp only [validFd, Int.toNat_zero, inUse, maxFd]
    decide
  have released : releaseSysfileEntry (s.gFdTable 0).sysfileIndex
    (s.setFd 0 { s.gFdTable 0 with inUse := false }) =
      some ((), (t.putDirent p
        { I.slot p.1 p.2 with size := sf.size, mtime := sf.mtime }).setSysfile 0 .zero) := by
    have entry' : (s.setFd 0 { s.gFdTable 0 with inUse := false }).gSysfileTable 0 = sf := entry
    have some_ : ¬ (maxSystemFiles ≤ 0 ∨ (!sf.inUse) = true) := by
      simp [used, maxSystemFiles]
    have none_ : sf.refCount - 1 ≤ 0 := by omega
    rw [index]
    simp only [releaseSysfileEntry, Prog.get_bind, entry', some_, none_, ↓reduceIte, Prog.modify_bind]
    rw [← isT]
    exact (Prog.bind_of_run flushes _).trans rfl
  simp only [kClose, Prog.get_bind, flag, valid, Bool.not_true, Bool.false_eq_true, ↓reduceIte,
    Prog.modify_bind, Int.toNat_zero]
  refine (Prog.bind_of_run released _).trans ?_
  rw [isT]
  simp only [Prog.pure_run, putDirent, putBlock, putBytes, setFd, setSysfile, Function.update_idem]
  rfl

/-- Closing a file that was only read writes back the entry as it is. -/
theorem kClose_stored {d c : Nat} {p : Nat × Nat} (resting : Resting promised s I) (link : I.Holds d p c)
    (offset : UInt32) : kClose 0 (s.openedAs (I.foundAt d p) readMode offset) =
      some (.ok, (s.setSysfile 0 .zero).setFd 0 ⟨false, 0, readMode, offset⟩) := by
  have wf := resting.good.wf
  obtain ⟨low, high, _⟩ := wf.inside d p.1 link.block
  have rests : Resting promised (s.openedAs (I.foundAt d p) readMode offset) I := resting.withTables _ _
  have entry : (s.openedAs (I.foundAt d p) readMode offset).gSysfileTable 0 = readEntry (I.foundAt d p) := rfl
  have closed := kClose_last rests link rfl rfl entry rfl rfl rfl rfl
  have row := rests.tracks.shows.dirent wf link.block link.index
  have same := putDirent_self (p := p) (rests.tracks.ready.block_end (rests.tracks.inside high))
  rw [row] at same
  refine closed.trans ?_
  show some (PennFatErr.ok,
    (((s.openedAs (I.foundAt d p) readMode offset).putDirent p (I.slot p.1 p.2)).setSysfile 0
    .zero).setFd 0 ⟨false, 0, readMode, offset⟩) = _
  rw [same]
  simp only [openedAs, setFd, setSysfile, Function.update_idem]

theorem kClose_reads (resting : Resting promised s I)
    (run : resolvePath now path s = some ((err, r), s)) (opens : Opens err r) (offset : UInt32) :
    kClose 0 (s.openedAs r readMode offset) =
      some (.ok, (s.setSysfile 0 .zero).setFd 0 ⟨false, 0, readMode, offset⟩) := by
  obtain ⟨d, p, rfl, link, _, _⟩ := opens.entry resting run
  exact kClose_stored resting link offset

end Opening

end PennOs.Fat
