import PennOs.Fat.BoundCalls
import PennOs.Fat.WholeReads
import PennOs.Pennfat.Descriptors

set_option autoImplicit false

/- The command `cat` with files and no output file. -/
namespace PennOs.Pennfat

open PennOs.Fat
open PennOs.Fat.Fs
open PennOs.Shell (ascii)
open Image (Promises)

/-- What `cat` shows of a path: the bytes of the file it leads to, or nothing. -/
inductive CatShows (s : Fs) (now : UInt64) (path : List UInt8) : Option (List UInt8) → Prop where
  | file {r : ResolvedPath} {nodes : List Nat} : resolvePath now path s = some ((.ok, r), s) → Opens .ok r →
      s.Chain r.entry.firstBlock.toNat nodes →
      CatShows s now path (some (s.bytesFrom nodes 0 (readable r.entry.size.toNat (s.capacity nodes))))
  | refused {err : PennFatErr} {r : ResolvedPath} : resolvePath now path s = some ((err, r), s) →
      ¬ Opens err r → CatShows s now path none

/-- The complaint of `cat` about a file it does not show. -/
def complaint (file : CStr) (text : Option (List UInt8)) : List UInt8 :=
  if text.isSome then [] else quoting "cat: error opening '" file

/-- The session with another file system, after some calls for the time and some output. -/
def Session.shows (s : Session) (fs : Fs) (ticks : Nat) (out err : List UInt8) : Session :=
  { s with
    fs := fs
    ticks := s.ticks + ticks
    stdout := s.stdout ++ out
    stderr := s.stderr ++ err }

variable {promised : Promises} {s : Session} {base u : Fs} {I : Image} {fd : Nat} {nodes : List Nat}
  {file : CStr}

@[simp] theorem shows_fs (s : Session) (fs : Fs) (ticks : Nat) (out err : List UInt8) :
    (s.shows fs ticks out err).fs = fs := rfl

@[simp] theorem shows_shows (s : Session) (fs fs' : Fs) (ticks ticks' : Nat)
    (out err out' err' : List UInt8) :
    (s.shows fs ticks out err).shows fs' ticks' out' err' =
      s.shows fs' (ticks + ticks') (out ++ out') (err ++ err') := by
  simp only [Session.shows, Nat.add_assoc, List.append_assoc]

section Loop

theorem call_run {α : Type} {p : FsM α} {a : α} {t : Fs} (run : p s.fs = some (a, t)) :
    call p s = some (a, s.shows t 0 [] []) := by
  have done : p.on fsPart s = some (a, fsPart.write t s) := Prog.on_run run
  simp only [Session.shows, Nat.add_zero, List.append_nil]
  exact done

theorem timed_run {α : Type} {p : UInt64 → FsM α} {a : α} {t : Fs}
    (run : p (s.clock s.ticks) s.fs = some (a, t)) :
    timed p s = some (a, s.shows t 1 [] []) := by
  simp only [timed, Prog.get_bind, Prog.modify_bind]
  refine (call_run (s := { s with ticks := s.ticks + 1 }) run).trans ?_
  simp only [Session.shows, Nat.add_zero, List.append_nil]

theorem printErr_run (text : List UInt8) : printErr text s = some ((), s.shows s.fs 0 [] text) := by
  simp only [printErr, Prog.modify_run, Session.shows, Nat.add_zero, List.append_nil]

theorem catLoop_turn {bytes : List UInt8} (read : kRead fd bufSize s.fs = some (.ok bytes, u))
    (more : bytes ≠ []) (fuel : Nat) :
    catLoop file fd none (fuel + 1) s = catLoop file fd none fuel (s.shows u 0 bytes []) := by
  rw [catLoop]
  refine (Prog.bind_of_run (call_run read) _).trans ?_
  simp only [more, ↓reduceIte, Session.shows, List.append_nil, Nat.add_zero]
  rfl

theorem catLoop_end (read : kRead fd bufSize s.fs = some (.ok [], u)) (fuel : Nat) :
    catLoop file fd none (fuel + 1) s = some ((), s.shows u 0 [] []) := by
  rw [catLoop]
  exact (Prog.bind_of_run (call_run read) _).trans rfl

/-- The loop over a file prints what is left of it. -/
theorem catLoop_run (file : CStr) {left fuel : Nat} (reading : Reading s.fs fd nodes left)
    (enough : left < fuel) :
    catLoop file fd none fuel s =
      some ((), s.shows (s.fs.seekBy fd left) 0 (s.fs.bytesFrom nodes (s.fs.offsetOf fd) left) []) := by
  induction fuel generalizing s left with
  | zero => omega
  | succ fuel ih =>
      obtain ⟨count, isCount⟩ : ∃ count, count = min bufSize left := ⟨_, rfl⟩
      obtain ⟨reads, offset, later⟩ := reading.turn isCount
      rw [bufSize] at isCount
      by_cases ends : left = 0
      · have none_ : count = 0 := by omega
        rw [none_] at reads
        rw [catLoop_end reads, ends]
        rfl
      · have more : s.fs.bytesFrom nodes (s.fs.offsetOf fd) count ≠ [] := by
          intro empty
          have length := congrArg List.length empty
          simp only [bytesFrom, List.length_map, List.length_range, List.length_nil] at length
          omega
        have whole := bytesFrom_add s.fs nodes (s.fs.offsetOf fd) count (left - count)
        have total : count + (left - count) = left := by omega
        have step := ih (s :=
          s.shows (s.fs.seekBy fd count) 0 (s.fs.bytesFrom nodes (s.fs.offsetOf fd) count) [])
          later (by omega)
        rw [total] at whole
        rw [catLoop_turn reads more, step, whole]
        simp only [shows_fs, offset, seekBy_add, total, shows_shows, Nat.add_zero, List.append_nil]
        rfl

end Loop

section Files

variable {table : Nat → SystemFile} {fds : Nat → FdEntry} {path : List UInt8} {now : UInt64}
  {err : PennFatErr} {r : ResolvedPath}

/-- The loop over the file that was just opened prints it. -/
theorem catLoop_reading (file : CStr) (ready : u.Ready) (fits : u.fileSize ≤ u.fatEntries * u.gBlockSize)
    (chain : u.Chain r.entry.firstBlock.toNat nodes) (opened : s.fs = u.openedAs r readMode 0) {left : Nat}
    (isLeft : left = readable r.entry.size.toNat (u.capacity nodes)) :
    catLoop file 0 none copyFuel s =
      some ((), s.shows (u.openedAs r readMode (UInt32.ofNat left)) 0 (u.bytesFrom nodes 0 left) []) := by
  have short := ready.capacity_lt chain
  have few : left < copyFuel := by
    rw [isLeft, readable, copyFuel]
    split <;> omega
  have reading : Reading s.fs 0 nodes left := opened ▸ isLeft ▸ reading_openedAs ready fits chain
  rw [catLoop_run file reading few, opened, seekBy_openedAs]
  rfl

theorem closed_noneOpen (idle : u.NoneOpen) (offset : UInt32) :
    ((u.setSysfile 0 .zero).setFd 0 ⟨false, 0, readMode, offset⟩).NoneOpen where
  descriptors fd low := by
    simp only [setFd, setSysfile, Function.update_apply]
    split
    · rfl
    · exact idle.descriptors fd low
  files i low := by
    simp only [setFd, setSysfile, Function.update_apply]
    split
    · rfl
    · exact idle.files i low

/-- A file that can be read is printed, and closed again. -/
theorem catFile_shows (resting : Resting promised s.fs I) (idle : s.fs.NoneOpen)
    (run : resolvePath (s.clock s.ticks) file.bytes s.fs = some ((err, r), s.fs)) (opens : Opens err r)
    (chain : s.fs.Chain r.entry.firstBlock.toNat nodes) {left : Nat}
    (isLeft : left = readable r.entry.size.toNat (s.fs.capacity nodes)) :
    catFile none file s = some ((), s.shows
      ((s.fs.setSysfile 0 .zero).setFd 0 ⟨false, 0, readMode, UInt32.ofNat left⟩) 1
      (s.fs.bytesFrom nodes 0 left) []) := by
  have opened := timed_run (p := fun now => kOpen now file.bytes oRdonly) (kOpen_reads resting idle run opens)
  have loop := catLoop_reading (s := s.shows (s.fs.openedAs r readMode 0) 1 [] []) file resting.tracks.ready
    resting.tracks.volume.fits chain rfl isLeft
  have closed := call_run (s := (s.shows (s.fs.openedAs r readMode 0) 1 [] []).shows
    (s.fs.openedAs r readMode (UInt32.ofNat left)) 0
    (s.fs.bytesFrom nodes 0 left) []) (kClose_reads resting run opens (UInt32.ofNat left))
  unfold catFile
  refine (Prog.bind_of_run opened _).trans ((Prog.bind_of_run loop _).trans ?_)
  refine (Prog.bind_of_run closed _).trans ?_
  simp only [shows_shows, Prog.pure_run, List.nil_append, List.append_nil, Nat.add_zero]

/-- About any other path `cat` complains. -/
theorem catFile_refuses (resting : Resting promised s.fs I)
    (run : resolvePath (s.clock s.ticks) file.bytes s.fs = some ((err, r), s.fs)) (refused : ¬ Opens err r) :
    catFile none file s = some ((), s.shows s.fs 1 [] (complaint file none)) := by
  obtain ⟨bad, fails⟩ := kOpen_refuses resting run refused
  have opened := timed_run (p := fun now => kOpen now file.bytes oRdonly) fails
  unfold catFile
  refine (Prog.bind_of_run opened _).trans ?_
  refine (printErr_run _).trans ?_
  simp only [shows_shows, shows_fs, List.nil_append, Nat.add_zero]
  rfl

/-- One file. `base` is the file system before the first of the files. -/
theorem catFile_run (resting : Resting promised base I) (same : s.fs = base.withTables table fds)
    (idle : s.fs.NoneOpen) (file : CStr) :
    ∃ text now table fds, CatShows base now file.bytes text ∧ (base.withTables table fds).NoneOpen ∧
      catFile none file s =
        some ((), s.shows (base.withTables table fds) 1 (text.getD []) (complaint file text)) := by
  obtain ⟨err, r, run, -⟩ :=
    resolvePath_run resting.tracks resting.good.wf resting.cwd (s.clock s.ticks) file.bytes
  have rests : Resting promised s.fs I := same ▸ resting.withTables table fds
  have run' : resolvePath (s.clock s.ticks) file.bytes s.fs = some ((err, r), s.fs) :=
    same ▸ resolvePath_withTables run
  by_cases opens : Opens err r
  · obtain ⟨d, p, rfl, link, -, -⟩ := opens.entry resting run
    have chain := resting.tracks.chain resting.good.wf (resting.good.wf.target d p _ link).1
    obtain ⟨left, isLeft⟩ : ∃ left, left = readable (I.foundAt d p).entry.size.toNat
        (base.capacity (I.chain (I.foundAt d p).entry.firstBlock.toNat)) := ⟨_, rfl⟩
    obtain rfl := opens.1
    have shown := CatShows.file run opens chain
    have chain' : s.fs.Chain (I.foundAt d p).entry.firstBlock.toNat
      (I.chain (I.foundAt d p).entry.firstBlock.toNat) :=
      same ▸ ⟨chain.links, chain.inside⟩
    have isLeft' : left = readable (I.foundAt d p).entry.size.toNat
        (s.fs.capacity (I.chain (I.foundAt d p).entry.firstBlock.toNat)) := by
      rw [isLeft, same]
      rfl
    have printed := catFile_shows rests idle run' opens chain' isLeft'
    have closed := closed_noneOpen idle (UInt32.ofNat left)
    rw [same] at printed closed
    refine ⟨_, _, _, _, shown, closed, ?_⟩
    rw [← isLeft]
    exact printed
  · refine ⟨none, _, table, fds, .refused run opens, same ▸ idle, ?_⟩
    rw [catFile_refuses rests run' opens, same]
    rfl

theorem catFiles_run (resting : Resting promised base I) (same : s.fs = base.withTables table fds)
    (idle : s.fs.NoneOpen) (files : List CStr) :
    ∃ texts table fds, List.Forall₂ (fun file text => ∃ now, CatShows base now file.bytes text) files texts ∧
      (base.withTables table fds).NoneOpen ∧
      catFiles none files s = some ((), s.shows (base.withTables table fds) files.length
        (texts.flatMap (·.getD [])) (List.zipWith complaint files texts).flatten) := by
  induction files generalizing s table fds with
  | nil =>
      refine ⟨[], table, fds, .nil, same ▸ idle, ?_⟩
      simp [catFiles, Session.shows, ← same]
  | cons file rest ih =>
      obtain ⟨text, now, table', fds', shown, idle', first⟩ := catFile_run resting same idle file
      obtain ⟨texts, table, fds, all, closed, others⟩ := ih (s := s.shows (base.withTables table' fds') 1
        (text.getD []) (complaint file text)) rfl idle'
      refine ⟨text :: texts, table, fds, .cons ⟨now, shown⟩ all, closed, ?_⟩
      rw [catFiles]
      refine (Prog.bind_of_run first _).trans ?_
      rw [others, shows_shows, Nat.add_comm]
      rfl

end Files

section Runs

theorem catArgs_plain (files : List CStr) (found : CatArgs)
    (plain : ∀ file ∈ files, file.bytes ≠ ascii "-w" ∧ file.bytes ≠ ascii "-a")
    (few : found.inputFiles.length + files.length ≤ 32) :
    catArgs files found = .ok { found with inputFiles := found.inputFiles ++ files } := by
  induction files generalizing found with
  | nil => simp [catArgs]
  | cons file rest ih =>
      obtain ⟨overwrite, append⟩ := plain file List.mem_cons_self
      have room : found.inputFiles.length < 32 := by
        rw [List.length_cons] at few
        omega
      rw [catArgs.eq_def]
      simp only [overwrite, append, room, ↓reduceIte]
      rw [ih]
      · simp
      · exact fun other member => plain other (List.mem_cons_of_mem _ member)
      · simp only [List.length_append, List.length_cons, List.length_nil] at few ⊢
        omega

/-- After a run of calls that take no slot of an open file and left none open, `cat FILE ...` prints
the files one after another, complains about each path that is no readable file, and changes nothing
on the volume. -/
theorem cat_prints (hostFiles : List UInt8 → Option HostFile) (fsName : List UInt8) (config : Int)
    (s : Session)
    (host : HostSound .keepOpen hostFiles fsName) (low : 0 ≤ config) (high : config ≤ 4)
    (run : Run BindSound (freshVolume hostFiles fsName config) s.fs)
    (mounted : s.fs.gMounted = true) (closed : ∀ fd < maxFd, (s.fs.gFdTable fd).inUse = false)
    (files : List CStr) (more : files ≠ []) (few : files.length ≤ 32)
    (plain : ∀ file ∈ files, file.bytes ≠ ascii "-w" ∧ file.bytes ≠ ascii "-a") :
    ∃ texts table fds, List.Forall₂ (fun file text => ∃ now, CatShows s.fs now file.bytes text) files texts ∧
      (s.fs.withTables table fds).NoneOpen ∧
      cat files s = some ((), s.shows (s.fs.withTables table fds) files.length (texts.flatMap (·.getD []))
        (List.zipWith complaint files texts).flatten) := by
  obtain ⟨binding, accounted⟩ := binding_run host low high run
  cases binding with
  | stored stored => exact absurd mounted (by rw [stored.unmounted]; decide)
  | @mounted I resting =>
      obtain ⟨texts, table, fds, shown, idle, printed⟩ :=
        catFiles_run resting rfl (accounted.noneOpen closed) files
      refine ⟨texts, table, fds, shown, idle, ?_⟩
      have args := catArgs_plain files ⟨false, false, none, []⟩ plain (by simpa using few)
      have inputs : catInputs ⟨false, false, none, files⟩ none s = catFiles none files s := by
        simp only [catInputs, more, ↓reduceIte]
      have noOutput : openOutput ⟨false, false, none, files⟩ s = some (some none, s) := rfl
      rw [cat, args, List.nil_append]
      exact (Prog.bind_of_run noOutput _).trans (inputs.trans printed)

/-- The file of `openedFiles` is closed through both descriptors. -/
def closedFiles : Fs := (runCalls [.close 0, .close 1]).after ((runCalls openedFiles).after blankVolume)

theorem closedFiles_run : Run BindSound (freshVolume (fun _ => none) imageA.bytes 0) closedFiles := by
  have ends : (runCalls [.close 0, .close 1] ((runCalls openedFiles).after blankVolume)).isSome = true := by
    decide +kernel
  have closes := runCalls_after ends
  obtain ⟨_, _, first, rest⟩ := Prog.bind_inv closes
  obtain ⟨_, _, second, done⟩ := Prog.bind_inv rest
  cases done
  have sound : ∀ t fd, BindSound t (.close fd) := fun _ _ => ⟨trivial, trivial⟩
  exact (openedFiles_run.step (sound _ 0) first).step (sound _ 1) second

/-- `cat a b` when there is no file "b". -/
theorem cat_prints_closedFiles : ∃ texts,
    List.Forall₂ (fun (file : CStr) text => ∃ now, CatShows closedFiles now file.bytes text)
      [.literal [97], .literal [98]] texts ∧ texts.flatMap (·.getD []) = [7, 7, 7, 7, 7] := by
  obtain ⟨s, isS⟩ : ∃ s, s = { started [] with fs := closedFiles } := ⟨_, rfl⟩
  have printed : (cat [.literal [97], .literal [98]] s).map (·.2.stdout) = some [7, 7, 7, 7, 7] :=
    isS ▸ (by decide +kernel)
  obtain ⟨texts, table, fds, shown, _, run⟩ := cat_prints _ imageA.bytes 0 s (.empty (by decide)) (by decide)
    (by decide) (isS ▸ closedFiles_run) (isS ▸ (by decide +kernel)) (isS ▸ (by decide +kernel))
    [.literal [97], .literal [98]] (List.cons_ne_nil _ _) (by decide) (by decide)
  rw [run, isS] at printed
  rw [isS] at shown
  exact ⟨texts, shown, Option.some.inj printed⟩

end Runs

end PennOs.Pennfat
