import PennOs.Fat.FailedCreations
import PennOs.Fat.OpenAccounting
import PennOs.Fat.ReadOnly

set_option autoImplicit false

/- Which descriptors the calls take and give back, whatever the image and the host. -/
namespace PennOs.Fat

open Prog (Keeps Hoare)
open Fs

namespace Fs

/-- The descriptors in use. -/
def usedFds (s : Fs) : Finset Nat := (Finset.range maxFd).filter fun fd => (s.gFdTable fd).inUse = true

/-- No file is open. -/
structure NoneOpen (s : Fs) : Prop where
  descriptors : ∀ fd < maxFd, (s.gFdTable fd).inUse = false
  files : ∀ i < maxSystemFiles, (s.gSysfileTable i).inUse = false

end Fs

/-- The volume stays mounted, or stays unmounted. -/
structure SameFlag (s t : Fs) : Prop where
  flag : t.gMounted = s.gMounted
  mounted : ∀ k, s.Mounted k → t.Mounted k

/-- The same descriptors are in use. -/
def SameUse (s t : Fs) : Prop := t.usedFds = s.usedFds

/-- What `k_open` makes of the descriptors in use. -/
def afterOpen (fds : Finset Nat) : Except PennFatErr Nat → Finset Nat
  | .ok fd => insert fd fds
  | .error _ => fds

variable {s t : Fs} {fds : Finset Nat} {fd index : Nat} {now : UInt64} {path : List UInt8}
  {mode : UInt32}

instance instReflSameFlag : Std.Refl SameFlag := ⟨fun _ => ⟨rfl, fun _ mounted => mounted⟩⟩

instance instIsTransSameFlag : IsTrans Fs SameFlag :=
  ⟨fun _ _ _ first second =>
    ⟨second.flag.trans first.flag, fun k mounted => second.mounted k (first.mounted k mounted)⟩⟩

instance instReflSameUse : Std.Refl SameUse := ⟨fun _ => rfl⟩

instance instIsTransSameUse : IsTrans Fs SameUse := ⟨fun _ _ _ first second => second.trans first⟩

section Flags

theorem OnlyHost.flag (only : OnlyHost s t) : SameFlag s t where
  flag := by rw [only.same]
  mounted k mounted := by
    rw [only.eq mounted.host]
    exact mounted

theorem OnlyOffsets.flag (only : OnlyOffsets s t) : SameFlag s t := by
  have idle := only.idle
  obtain ⟨_, _, rfl⟩ := only.image
  exact ⟨rfl, fun k mounted =>
    mounted.of_eq rfl rfl rfl rfl rfl rfl rfl ((idle mounted.host).trans mounted.host.symm)⟩

theorem SameFlag.putBytes (s : Fs) (start len : Nat) (buf : Buffer) : SameFlag s (s.putBytes start len buf) :=
  ⟨rfl, fun _ mounted => mounted.of_eq rfl rfl rfl rfl rfl rfl rfl rfl⟩

theorem SameFlag.tables (s : Fs) (files : Nat → SystemFile) (fds : Nat → FdEntry) :
    SameFlag s { s with gSysfileTable := files, gFdTable := fds } :=
  ⟨rfl, fun _ mounted => mounted.of_eq rfl rfl rfl rfl rfl rfl rfl rfl⟩

theorem flag_of_host {α : Type} {p : FsM α} (keeps : Keeps OnlyHost p) : Keeps SameFlag p :=
  fun s a t run => (keeps s a t run).flag

theorem flag_of_offsets {α : Type} {p : FsM α} (keeps : Keeps OnlyOffsets p) : Keeps SameFlag p :=
  fun s a t run => (keeps s a t run).flag

theorem hostCall_flag : Keeps SameFlag hostCall := by
  intro s a t run
  unfold hostCall at run
  split at run
  · cases run
    exact Std.Refl.refl s
  · next given =>
      cases run
      exact ⟨rfl, fun k mounted => absurd (given.symm.trans mounted.host) (by rintro ⟨⟩)⟩

theorem fatSet_flag (i v : Nat) : Keeps SameFlag (fatSet i v) := by
  intro s a t run
  unfold fatSet at run
  split at run
  · cases run
    exact ⟨rfl, fun k mounted => mounted.of_eq rfl rfl rfl rfl rfl rfl rfl rfl⟩
  · cases run

theorem writeBlock_flag (buf : Buffer) (b : Nat) : Keeps SameFlag (writeBlock buf b) := by
  have puts : ∀ start len : Fs → Nat,
    Keeps SameFlag (Prog.modify fun t => t.putBytes (start t) (len t) buf) :=
    fun _ _ => .modify fun t => SameFlag.putBytes t _ _ _
  unfold writeBlock
  refine .bind .get fun s => .ite (fun _ => .pure _) fun _ => ?_
  refine .bind (flag_of_host hostOk_host) fun sought => .ite (fun _ => .pure _) fun _ => ?_
  refine .bind hostCall_flag fun outcome => ?_
  cases outcome with
  | failed => exact .pure _
  | short count =>
      refine .bind .get fun t => .ite (fun _ => ?_) fun _ => .pure _
      exact .bind (puts _ _) fun _ => .pure _
  | done =>
      refine .bind .get fun t => .ite (fun _ => .pure _) fun _ => ?_
      exact .bind (puts _ _) fun _ => flag_of_host hostOk_host

theorem allocateScan_flag (count i : Nat) : Keeps SameFlag (allocateScan count i) := by
  induction count generalizing i with
  | zero => exact .pure _
  | succ count ih =>
      unfold allocateScan
      refine .bind (flag_of_host (fatGet_host i)) fun entry => .ite (fun _ => ?_) fun _ => ih (i + 1)
      exact .bind (fatSet_flag i fatEoc) fun _ => .pure _

theorem allocateFreeBlock_flag : Keeps SameFlag allocateFreeBlock :=
  .bind .get fun _ => allocateScan_flag _ _

theorem freeLoop_flag (fuel current : Nat) : Keeps SameFlag (freeLoop fuel current) := by
  induction fuel generalizing current with
  | zero => exact .fault
  | succ fuel ih =>
      unfold freeLoop
      refine .ite (fun _ => .pure _) fun _ => .bind (flag_of_host (fatGet_host current)) fun next => ?_
      exact .bind (fatSet_flag current fatFree) fun _ => ih next

theorem lastInChain_flag (fuel last : Nat) : Keeps SameFlag (lastInChain fuel last) := by
  induction fuel generalizing last with
  | zero => exact .fault
  | succ fuel ih =>
      unfold lastInChain
      exact .bind (flag_of_host (fatGet_host last)) fun next => .ite (fun _ => .pure _) fun _ => ih next

theorem readDirent_host (b : Nat) (i : Int) : Keeps OnlyHost (readDirent b i) := by
  unfold readDirent
  refine .ite (fun _ => .pure _) fun _ => ?_
  refine .bind hostOk_host fun room => .ite (fun _ => .pure _) fun _ => ?_
  refine .bind (readBlock_host b) fun read => ?_
  cases read with
  | none => exact .pure _
  | some buf => exact .bind .get fun s => .ite (fun _ => .pure _) fun _ => .pure _

theorem writeDirent_flag (b : Nat) (i : Int) (e : DirEntry) : Keeps SameFlag (writeDirent b i e) := by
  unfold writeDirent
  refine .ite (fun _ => .pure _) fun _ => ?_
  refine .bind (flag_of_host hostOk_host) fun room => .ite (fun _ => .pure _) fun _ => ?_
  refine .bind (flag_of_host (readBlock_host b)) fun read => ?_
  cases read with
  | none => exact .pure _
  | some buf =>
      refine .bind .get fun s => .ite (fun _ => .pure _) fun _ => ?_
      exact .bind (writeBlock_flag _ b) fun done => .ite (fun _ => .pure _) fun _ => .pure _

theorem putEntry_flag (b i : Nat) (e : DirEntry) : Keeps SameFlag (putEntry b i e) := by
  unfold putEntry
  refine .bind (flag_of_host (readBlock_host b)) fun read => ?_
  cases read with
  | none => exact .pure _
  | some buf => exact .bind (writeBlock_flag _ b) fun done => .ite (fun _ => .pure _) fun _ => .pure _

theorem addDirentToDir_flag (d : Nat) (e : DirEntry) : Keeps SameFlag (addDirentToDir d e) := by
  have grows : Keeps SameFlag (growDir d) := by
    unfold growDir
    refine .bind allocateFreeBlock_flag fun taken => ?_
    cases taken with
    | none => exact .pure _
    | some newBlock =>
        refine .bind (lastInChain_flag _ d) fun last => .bind (fatSet_flag last newBlock) fun _ => ?_
        refine .bind (writeBlock_flag _ newBlock) fun done => .ite (fun _ => .pure _) fun _ => ?_
        exact .bind (fatSet_flag last fatEoc) fun _ => .bind (fatSet_flag newBlock fatFree) fun _ => .pure _
  unfold addDirentToDir
  refine .ite (fun _ => .pure _) fun _ => ?_
  refine .bind (flag_of_host hostOk_host) fun room => .ite (fun _ => .pure _) fun _ => ?_
  refine .bind (flag_of_host (findSlotLoop_host _ d)) fun found => ?_
  rcases found with err | slot
  · exact .pure _
  cases slot with
  | none =>
      refine .bind grows fun grown => ?_
      cases grown with
      | error err => exact .pure _
      | ok newBlock => exact putEntry_flag newBlock 0 e
  | some place => exact putEntry_flag place.1 place.2 e

theorem openedEntry_flag (mode : UInt32) (resolved : ResolvedPath) :
    Keeps SameFlag (openedEntry now mode resolved) := by
  unfold openedEntry truncateFile
  refine .ite (fun _ => .bind (freeLoop_flag _ _) fun _ => ?_) fun _ => .pure _
  refine .bind allocateFreeBlock_flag fun taken => ?_
  cases taken with
  | none => exact .pure _
  | some first =>
      refine .bind (writeDirent_flag _ _ _) fun err => ?_
      split
      · exact .pure _
      · exact .bind (fatSet_flag first fatFree) fun _ => .pure _

theorem releaseSysfileEntry_flag (index : Nat) : Keeps SameFlag (releaseSysfileEntry index) := by
  have flushes : ∀ sf, Keeps SameFlag (flushSysfile sf) := by
    intro sf
    unfold flushSysfile
    refine .bind (flag_of_host (readDirent_host _ _)) fun read => ?_
    cases read with
    | error err => exact .pure _
    | ok current =>
        exact .ite (fun _ => .bind (writeDirent_flag _ _ _) fun _ => .pure _) fun _ => .pure _
  unfold releaseSysfileEntry
  refine .bind .get fun s => .ite (fun _ => .pure _) fun _ => ?_
  refine .bind (.modify fun t => SameFlag.tables t _ _) fun _ => .ite (fun _ => ?_) fun _ => .pure _
  exact .bind (flushes _) fun _ => .modify fun t => SameFlag.tables t _ _

theorem findAndIncrement_flag (inode : Nat) : Keeps SameFlag (findAndIncrementSysfile inode) := by
  unfold findAndIncrementSysfile
  refine .bind .get fun s => ?_
  split
  · exact .pure _
  · exact .bind (.modify fun t => SameFlag.tables t _ _) fun _ => .pure _

theorem createSysfileEntry_flag (resolved : ResolvedPath) (inode : Nat) :
    Keeps SameFlag (createSysfileEntryFromResolved resolved inode) := by
  unfold createSysfileEntryFromResolved
  refine .bind .get fun s => ?_
  split
  · exact .pure _
  · exact .bind (.modify fun t => SameFlag.tables t _ _) fun _ => .pure _

theorem assignFd_flag (index : Nat) (mode size : UInt32) : Keeps SameFlag (assignFd index mode size) := by
  unfold assignFd
  refine .bind .get fun s => ?_
  split
  · exact .bind (.modify fun t => SameFlag.tables t _ _) fun _ => .pure _
  · exact .bind (releaseSysfileEntry_flag index) fun _ => .pure _

theorem openCurrent_flag (mode : UInt32) (current : Except PennFatErr ResolvedPath) :
    Keeps SameFlag (openCurrent mode current) := by
  cases current with
  | error err => exact .pure _
  | ok resolved =>
      refine .bind (findAndIncrement_flag _) fun found => ?_
      cases found with
      | some index => exact assignFd_flag _ _ _
      | none =>
          refine .bind (createSysfileEntry_flag _ _) fun made => ?_
          cases made with
          | none => exact .pure _
          | some index => exact assignFd_flag _ _ _

theorem openCreate_flag (resolved : ResolvedPath) : Keeps SameFlag (openCreate now path mode resolved) := by
  unfold openCreate
  refine .ite (fun _ => .pure _) fun _ => .ite (fun _ => .pure _) fun _ => .ite (fun _ => .pure _) fun _ => ?_
  refine .bind allocateFreeBlock_flag fun taken => ?_
  cases taken with
  | none => exact .pure _
  | some first =>
      refine .bind (addDirentToDir_flag _ _) fun added => ?_
      split
      · refine .bind (flag_of_host (resolvePath_host _)) fun created => ?_
        refine .ite (fun _ => ?_) fun _ => .ite (fun _ => .pure _) fun _ => .pure _
        refine .bind (createSysfileEntry_flag _ _) fun made => ?_
        cases made with
        | some index => exact assignFd_flag _ _ _
        | none => exact .bind (writeDirent_flag _ _ _) fun _ => .bind (freeLoop_flag _ _) fun _ => .pure _
      · exact .bind (fatSet_flag _ _) fun _ => .pure _

theorem kOpen_flag : Keeps SameFlag (kOpen now path mode) := by
  unfold kOpen
  refine .bind .get fun s => .ite (fun _ => .pure _) fun _ => .ite (fun _ => .pure _) fun _ => ?_
  refine .ite (fun _ => .pure _) fun _ => .bind (flag_of_host (resolvePath_host _)) fun found => ?_
  refine .ite (fun _ => .pure _) fun _ => .ite (fun _ => ?_) fun _ => openCreate_flag _
  rw [openExisting_eq]
  refine .ite (fun _ => .pure _) fun _ => .ite (fun _ => .pure _) fun _ => ?_
  exact .bind (openedEntry_flag _ _) fun current => openCurrent_flag _ _

theorem kTouch_flag : Keeps SameFlag (kTouch now path) := by
  unfold kTouch
  refine .bind .get fun s => .ite (fun _ => .pure _) fun _ => .ite (fun _ => .pure _) fun _ => ?_
  refine .bind (flag_of_host (resolvePath_host _)) fun found => .ite (fun _ => .pure _) fun _ => ?_
  refine .ite (fun _ => .ite (fun _ => .pure _) fun _ => writeDirent_flag _ _ _) fun _ => ?_
  refine .ite (fun _ => .pure _) fun _ => .ite (fun _ => .pure _) fun _ => .ite (fun _ => .pure _) fun _ => ?_
  refine .bind allocateFreeBlock_flag fun taken => ?_
  cases taken with
  | none => exact .pure _
  | some first =>
      refine .bind (addDirentToDir_flag _ _) fun added => ?_
      split
      · exact .pure _
      · exact .bind (fatSet_flag _ _) fun _ => .pure _

theorem kMkdir_flag : Keeps SameFlag (kMkdir now path) := by
  unfold kMkdir
  refine .bind .get fun s => .ite (fun _ => .pure _) fun _ => .ite (fun _ => .pure _) fun _ => ?_
  refine .bind (flag_of_host (resolvePath_host _)) fun found => .ite (fun _ => .pure _) fun _ => ?_
  refine .ite (fun _ => .pure _) fun _ => .ite (fun _ => .pure _) fun _ => .ite (fun _ => .pure _) fun _ => ?_
  refine .bind allocateFreeBlock_flag fun taken => ?_
  cases taken with
  | none => exact .pure _
  | some b =>
      have giveBack : ∀ err : PennFatErr, Keeps SameFlag (fatSet b fatFree >>= fun _ => pure err) :=
        fun err => .bind (fatSet_flag _ _) fun _ => .pure err
      refine .bind (addDirentToDir_flag _ _) fun added => ?_
      split
      · refine .bind (flag_of_host hostOk_host) fun room => .ite (fun _ => giveBack _) fun _ => ?_
        exact .bind (writeBlock_flag _ _) fun done => .ite (fun _ => .pure _) fun _ => giveBack _
      · exact giveBack _

theorem kSymlink_flag (target : List UInt8) : Keeps SameFlag (kSymlink now target path) := by
  unfold kSymlink
  refine .bind .get fun s => .ite (fun _ => .pure _) fun _ => .ite (fun _ => .pure _) fun _ => ?_
  refine .bind (flag_of_host (resolvePathInternal_host _ _)) fun found => .ite (fun _ => .pure _) fun _ => ?_
  refine .ite (fun _ => .pure _) fun _ => .ite (fun _ => .pure _) fun _ => .ite (fun _ => .pure _) fun _ => ?_
  refine .ite (fun _ => .pure _) fun _ => .bind allocateFreeBlock_flag fun taken => ?_
  cases taken with
  | none => exact .pure _
  | some b =>
      have giveBack : ∀ err : PennFatErr, Keeps SameFlag (fatSet b fatFree >>= fun _ => pure err) :=
        fun err => .bind (fatSet_flag _ _) fun _ => .pure err
      refine .bind (flag_of_host hostOk_host) fun room => .ite (fun _ => giveBack _) fun _ => ?_
      refine .bind (writeBlock_flag _ _) fun done => .ite (fun _ => giveBack _) fun _ => ?_
      refine .bind (flag_of_host hostOk_host) fun _ => .bind (addDirentToDir_flag _ _) fun added => ?_
      split
      · exact .pure _
      · exact .bind (freeLoop_flag _ _) fun _ => .pure _

/-- A call that gives a descriptor is on a mounted volume. -/
theorem kOpen_mounted (run : kOpen now path mode s = some (.ok fd, t)) : t.gMounted = true := by
  have flag : s.gMounted = true := by
    by_contra unmounted
    rw [kOpen, Prog.get_bind] at run
    simp only [Bool.eq_false_of_not_eq_true unmounted, Bool.not_false, ↓reduceIte] at run
    cases run
  exact (kOpen_flag s _ t run).flag.trans flag

theorem kWrite_flag (buf : Buffer) (fd n : Int) : Keeps SameFlag (kWrite now fd buf n) := by
  have extends_ : ∀ first, Keeps SameFlag (extendChain first) := by
    intro first
    unfold extendChain
    refine .bind (lastInChain_flag _ first) fun last => .bind allocateFreeBlock_flag fun taken => ?_
    cases taken with
    | none => exact .pure _
    | some newBlock => exact .bind (fatSet_flag last newBlock) fun _ => .pure _
  have targets : ∀ first offset, Keeps SameFlag (blockForWrite first offset) := by
    intro first offset
    unfold blockForWrite
    refine .bind (flag_of_offsets (locateBlockInChain_only first offset)) fun found => ?_
    cases found with
    | some place => exact .pure _
    | none =>
        refine .bind (extends_ first) fun extended => ?_
        cases extended <;> exact .pure _
  have loops : ∀ fuel total remain, Keeps SameFlag (writeLoop now fd.toNat buf fuel total remain) := by
    intro fuel
    induction fuel with
    | zero => exact fun _ _ => .pure _
    | succ fuel ih =>
        intro total remain
        unfold writeLoop
        refine .ite (fun _ => .pure _) fun _ => .bind .get fun s => .bind (targets _ _) fun target => ?_
        cases target with
        | none => exact .pure _
        | some place =>
            refine .bind (flag_of_host (readBlock_host _)) fun read => ?_
            cases read with
            | none => exact .pure _
            | some blockBuf =>
                refine .bind (writeBlock_flag _ _) fun done => .ite (fun _ => ?_) fun _ => .pure _
                refine .bind (.modify fun t => ?_) fun _ => ih _ _
                simp only [advance]
                split
                · exact SameFlag.tables t _ _
                · exact SameFlag.tables t _ _
  unfold kWrite
  refine .bind .get fun s => .ite (fun _ => .pure _) fun _ => .ite (fun _ => .pure _) fun _ => ?_
  refine .ite (fun _ => .pure _) fun _ => ?_
  refine .bind (flag_of_host hostOk_host) fun room => .ite (fun _ => .pure _) fun _ => ?_
  exact .bind (loops _ _ _) fun _ => .pure _

theorem kClose_flag (fd : Int) : Keeps SameFlag (kClose fd) := by
  unfold kClose
  refine .bind .get fun s => .ite (fun _ => .pure _) fun _ => .ite (fun _ => .pure _) fun _ => ?_
  exact .bind (.modify fun t => SameFlag.tables t _ _) fun _ =>
    .bind (releaseSysfileEntry_flag _) fun _ => .pure _

end Flags

section Uses

theorem mem_usedFds : fd ∈ s.usedFds ↔ fd < maxFd ∧ (s.gFdTable fd).inUse = true := by
  simp only [usedFds, Finset.mem_filter, Finset.mem_range]

theorem usedFds_congr (same : ∀ x, (t.gFdTable x).inUse = (s.gFdTable x).inUse) : SameUse s t := by
  ext x
  rw [mem_usedFds, mem_usedFds, same]

theorem usedFds_none (none : ∀ fd < maxFd, (s.gFdTable fd).inUse = false) : s.usedFds = ∅ := by
  ext x
  rw [mem_usedFds]
  constructor
  · rintro ⟨low, inUse⟩
    rw [none x low] at inUse
    cases inUse
  · intro member
    cases member

/-- The last descriptor took the last entry of the system-wide table with it. -/
theorem Fs.Accounted.noneOpen (accounted : s.Accounted none)
    (closed : ∀ fd < maxFd, (s.gFdTable fd).inUse = false) :
    s.NoneOpen := by
  refine ⟨closed, fun i low => ?_⟩
  have alone : s.holders i = ∅ := by
    ext fd
    rw [mem_holders]
    constructor
    · rintro ⟨inside, inUse, _⟩
      rw [closed fd inside] at inUse
      cases inUse
    · intro member
      cases member
  have count := accounted.counted i low
  rw [alone] at count
  by_contra inUse
  have positive := (accounted.used i low).mp (by simpa using inUse)
  simp only [Finset.card_empty, reduceCtorEq, ↓reduceIte, Nat.add_zero] at count
  omega

theorem usedFds_taken (low : fd < maxFd) {entry : FdEntry} (inUse : entry.inUse = true) :
    (s.setFd fd entry).usedFds = insert fd s.usedFds := by
  ext x
  rw [Finset.mem_insert, mem_usedFds, mem_usedFds]
  by_cases same : x = fd
  · subst same
    rw [setFd_self]
    simp [low, inUse]
  · rw [setFd_ne s entry same]
    simp [same]

theorem usedFds_closed {entry : FdEntry} (closed : entry.inUse = false) :
    (s.setFd fd entry).usedFds = s.usedFds.erase fd := by
  ext x
  rw [Finset.mem_erase, mem_usedFds, mem_usedFds]
  by_cases same : x = fd
  · subst same
    rw [setFd_self]
    simp [closed]
  · rw [setFd_ne s entry same]
    simp [same]

theorem use_of_tables {α : Type} {p : FsM α} (keeps : Keeps SameTables p) : Keeps SameUse p :=
  fun s a t run => usedFds_congr fun x => by rw [(keeps s a t run).descriptors]

theorem use_of_refs {α : Type} {p : FsM α} (keeps : Keeps SameRefs p) : Keeps SameUse p :=
  fun s a t run => usedFds_congr fun x => (keeps s a t run).open_ x

theorem setSysfile_use (s : Fs) (i : Nat) (sf : SystemFile) : SameUse s (s.setSysfile i sf) :=
  usedFds_congr fun _ => rfl

theorem releaseSysfileEntry_use (index : Nat) : Keeps SameUse (releaseSysfileEntry index) := by
  unfold releaseSysfileEntry
  refine .bind .get fun s => .ite (fun _ => .pure _) fun _ => ?_
  refine .bind (.modify fun s => setSysfile_use s _ _) fun _ => .ite (fun _ => ?_) fun _ => .pure _
  exact .bind (use_of_tables (flushSysfile_tables _)) fun _ => .modify fun s => setSysfile_use s _ _

theorem findAndIncrement_use (inode : Nat) : Keeps SameUse (findAndIncrementSysfile inode) := by
  unfold findAndIncrementSysfile
  refine .bind .get fun s => ?_
  split
  · exact .pure _
  · exact .bind (.modify fun s => setSysfile_use s _ _) fun _ => .pure _

theorem createSysfileEntry_use (resolved : ResolvedPath) (inode : Nat) :
    Keeps SameUse (createSysfileEntryFromResolved resolved inode) := by
  unfold createSysfileEntryFromResolved
  refine .bind .get fun s => ?_
  split
  · exact .pure _
  · exact .bind (.modify fun s => setSysfile_use s _ _) fun _ => .pure _

/-- A program that keeps the descriptors in front of one that opens. -/
theorem opens_after {α : Type} {first : FsM α} {rest : α → FsM (Except PennFatErr Nat)}
    (keeps : Keeps SameUse first)
    (opens : ∀ a, Hoare (fun s => s.usedFds = fds) (rest a)
      fun r s => s.usedFds = afterOpen fds r ∧ ∀ fd, r = .ok fd → fd ∉ fds) :
    Hoare (fun s => s.usedFds = fds) (first >>= rest)
      fun r s => s.usedFds = afterOpen fds r ∧ ∀ fd, r = .ok fd → fd ∉ fds := by
  have before : Hoare (fun s => s.usedFds = fds) first fun _ s => s.usedFds = fds := by
    intro s a t start run
    exact (keeps s a t run).trans start
  exact before.bind opens

theorem opens_error (err : PennFatErr) : Hoare (fun s : Fs => s.usedFds = fds)
    (pure (.error err) : FsM (Except PennFatErr Nat))
    fun r s => s.usedFds = afterOpen fds r ∧ ∀ fd, r = .ok fd → fd ∉ fds := by
  refine .pure fun s start => ⟨start, ?_⟩
  rintro fd ⟨⟩

theorem assignFd_opens (index : Nat) (mode size : UInt32) :
    Hoare (fun s => s.usedFds = fds) (assignFd index mode size)
      fun r s => s.usedFds = afterOpen fds r ∧ ∀ fd, r = .ok fd → fd ∉ fds := by
  unfold assignFd
  refine .get fun s => ?_
  cases found : s.freeFd with
  | none =>
      exact (opens_after (releaseSysfileEntry_use index) fun _ => opens_error _).mono
        (fun _ start => start.2) fun _ _ post => post
  | some fd =>
      obtain ⟨_, high, unused, _⟩ := Search.firstFrom_some found
      simp only [Bool.not_eq_true'] at unused
      refine .seq (fun _ t => t.usedFds = insert fd fds ∧ fd ∉ fds) (.modify ?_) fun _ => .pure ?_
      · rintro t ⟨rfl, rfl⟩
        refine ⟨usedFds_taken (by omega) rfl, fun member => ?_⟩
        rw [mem_usedFds, unused] at member
        cases member.2
      · rintro t ⟨used, fresh⟩
        refine ⟨used, ?_⟩
        rintro x ⟨⟩
        exact fresh

theorem openCurrent_opens (mode : UInt32) (current : Except PennFatErr ResolvedPath) :
    Hoare (fun s => s.usedFds = fds) (openCurrent mode current)
      fun r s => s.usedFds = afterOpen fds r ∧ ∀ fd, r = .ok fd → fd ∉ fds := by
  cases current with
  | error err => exact opens_error err
  | ok resolved =>
      refine opens_after (findAndIncrement_use _) fun found => ?_
      cases found with
      | some index => exact assignFd_opens _ _ _
      | none =>
          refine opens_after (createSysfileEntry_use _ _) fun made => ?_
          cases made with
          | none => exact opens_error _
          | some index => exact assignFd_opens _ _ _

theorem openCreate_opens (resolved : ResolvedPath) :
    Hoare (fun s => s.usedFds = fds) (openCreate now path mode resolved)
      fun r s => s.usedFds = afterOpen fds r ∧ ∀ fd, r = .ok fd → fd ∉ fds := by
  unfold openCreate
  refine .ite (fun _ => opens_error _) fun _ => .ite (fun _ => opens_error _) fun _ => ?_
  refine .ite (fun _ => opens_error _) fun _ =>
    opens_after (use_of_tables allocateFreeBlock_tables) fun taken => ?_
  cases taken with
  | none => exact opens_error _
  | some first =>
      refine opens_after (use_of_tables (addDirentToDir_tables _ _)) fun added => ?_
      split
      · refine opens_after (use_of_tables (resolvePath_tables _)) fun created => ?_
        refine .ite (fun _ => ?_) fun _ => .ite (fun _ => opens_error _) fun _ => opens_error _
        refine opens_after (createSysfileEntry_use _ _) fun made => ?_
        cases made with
        | some index => exact assignFd_opens _ _ _
        | none =>
            exact opens_after (use_of_tables (writeDirent_tables _ _ _)) fun _ =>
              opens_after (use_of_tables (freeBlockChain_tables _)) fun _ => opens_error _
      · exact opens_after (use_of_tables (fatSet_tables _ _)) fun _ => opens_error _

/-- `k_open` takes the descriptor it returns, and none where it fails. -/
theorem kOpen_opens : Hoare (fun s => s.usedFds = fds) (kOpen now path mode)
    fun r s => s.usedFds = afterOpen fds r ∧ ∀ fd, r = .ok fd → fd ∉ fds := by
  unfold kOpen
  refine opens_after .get fun s => .ite (fun _ => opens_error _) fun _ =>
    .ite (fun _ => opens_error _) fun _ => ?_
  refine .ite (fun _ => opens_error _) fun _ =>
    opens_after (use_of_tables (resolvePath_tables _)) fun found => ?_
  refine .ite (fun _ => opens_error _) fun _ => .ite (fun _ => ?_) fun _ => openCreate_opens _
  rw [openExisting_eq]
  refine .ite (fun _ => opens_error _) fun _ => .ite (fun _ => opens_error _) fun _ => ?_
  exact opens_after (use_of_tables (openedEntry_tables _ _)) fun current => openCurrent_opens _ _

/-- On a mounted volume `k_close` gives the descriptor back. -/
theorem kClose_closes (fd : Nat) (inUse : fd ∈ fds) :
    Hoare (fun s => s.gMounted = true ∧ s.usedFds = fds) (kClose fd) fun _ s => s.usedFds = fds.erase fd := by
  unfold kClose
  refine .get fun s => ?_
  rintro t a u ⟨rfl, mounted, rfl⟩ run
  obtain ⟨low, used⟩ := mem_usedFds.mp inUse
  have valid : t.validFd fd = true := by
    simp only [validFd, Int.toNat_natCast, used, Bool.and_true, Bool.and_eq_true, decide_eq_true_eq]
    omega
  simp only [mounted, valid, Bool.not_true, Bool.false_eq_true, ↓reduceIte, Prog.modify_bind,
    Int.toNat_natCast] at run
  obtain ⟨_, v, released, run⟩ := Prog.bind_inv run
  cases run
  exact (releaseSysfileEntry_use _ _ _ _ released).trans (usedFds_closed rfl)

theorem none_of_use {α : Type} {p : FsM α} (keeps : Keeps SameUse p) :
    Hoare (fun s => s.usedFds = ∅) p fun _ s => s.usedFds = ∅ :=
  fun s a t start run => (keeps s a t run).trans start

theorem kClose_none (fd : Int) : Hoare (fun s => s.usedFds = ∅) (kClose fd) fun _ s => s.usedFds = ∅ := by
  unfold kClose
  refine .get fun s => .ite (fun _ => .pure fun _ start => start.2) fun _ => ?_
  refine .ite (fun _ => .pure fun _ start => start.2) fun valid => ?_
  rintro t a u ⟨rfl, none⟩ run
  simp only [Bool.not_eq_true', Bool.not_eq_false, validFd, Bool.and_eq_true, decide_eq_true_eq] at valid
  have member : fd.toNat ∈ t.usedFds := mem_usedFds.mpr ⟨by omega, valid.2⟩
  rw [none] at member
  cases member

theorem kUnmount_none : Hoare (fun s => s.usedFds = ∅) kUnmount fun _ s => s.usedFds = ∅ := by
  have closes : ∀ count fd, Hoare (fun s => s.usedFds = ∅) (closeAll count fd) fun _ s => s.usedFds = ∅ := by
    intro count
    induction count with
    | zero => exact fun _ => .pure fun _ start => start
    | succ count ih =>
        intro fd
        unfold closeAll
        refine .bind (none_of_use .get) fun s => .ite (fun _ => ?_) fun _ => ih (fd + 1)
        exact .bind (kClose_none fd) fun _ => ih (fd + 1)
  unfold kUnmount
  refine .bind (none_of_use .get) fun s => .ite (fun _ => none_of_use (.pure _)) fun _ => ?_
  refine .bind (none_of_use (use_of_tables (fatGet_tables 0))) fun _ => .bind (closes maxFd 0) fun _ => ?_
  exact none_of_use (use_of_tables (storeRoot_tables _))

theorem kMount_none (fsName : List UInt8) :
    Hoare (fun s => s.usedFds = ∅) (kMount fsName) fun _ s => s.usedFds = ∅ := by
  have giveUp : ∀ (fd : Nat) (err : PennFatErr), Hoare (fun s : Fs => s.usedFds = ∅)
      (hostClose fd >>= fun _ => pure err) fun _ s => s.usedFds = ∅ := fun fd err =>
    .bind (none_of_use (use_of_tables (hostClose_tables fd))) fun _ => none_of_use (.pure err)
  have unmaps : ∀ (mapping : Mapping) (fd : Nat) (err : PennFatErr), Hoare (fun s : Fs => s.usedFds = ∅)
      (hostMunmap (some mapping) >>= fun _ => hostClose fd >>= fun _ => pure err)
      fun _ s => s.usedFds = ∅ := fun mapping fd err =>
    .bind (none_of_use (use_of_tables (hostMunmap_tables _))) fun _ => giveUp fd err
  have change : ∀ f : Fs → Fs, (∀ s, SameTables s (f s)) →
      Hoare (fun s : Fs => s.usedFds = ∅) (Prog.modify f) fun _ s => s.usedFds = ∅ :=
    fun f same => none_of_use (use_of_tables (.modify same))
  have loads : ∀ fd super fatBlocks mapping, Hoare (fun s : Fs => s.usedFds = ∅)
      (loadRoot fd super fatBlocks mapping) fun _ s => s.usedFds = ∅ := by
    intro fd super fatBlocks mapping
    have freed : ∀ handle, Hoare (fun s : Fs => s.usedFds = ∅)
        (freeBuffer handle >>= fun _ => hostMunmap (some mapping) >>= fun _ => hostClose fd >>= fun _ =>
          pure PennFatErr.internal) fun _ s => s.usedFds = ∅ := fun handle =>
      .bind (none_of_use (use_of_tables (freeBuffer_tables handle))) fun _ => unmaps mapping fd _
    have mounts : ∀ contents, Hoare (fun s : Fs => s.usedFds = ∅)
        (Prog.modify (fun t => { t with
            gRootDir := contents
            gSysfileTable := fun _ => .zero
            gFdTable := fun _ => .zero
            gMounted := true }) >>= fun _ => pure PennFatErr.ok) fun _ s => s.usedFds = ∅ := fun contents =>
      .bind (.modify fun t _ => usedFds_none fun _ _ => rfl) fun _ => none_of_use (.pure _)
    unfold loadRoot
    refine .bind (none_of_use .get) fun s =>
      .bind (none_of_use (use_of_tables (fatGet_tables 0))) fun entry => ?_
    refine .ite (fun _ => unmaps _ _ _) fun _ =>
      .bind (change _ fun _ => ⟨rfl, rfl, rfl, rfl, rfl⟩) fun _ => ?_
    refine .bind (none_of_use (use_of_tables mallocRoot_tables)) fun made => ?_
    cases made with
    | none => exact .bind (change _ fun _ => ⟨rfl, rfl, rfl, rfl, rfl⟩) fun _ => unmaps _ _ _
    | some handle =>
        refine .bind (change _ fun _ => ⟨rfl, rfl, rfl, rfl, rfl⟩) fun _ => ?_
        refine .bind (none_of_use (use_of_tables hostOk_tables)) fun sought => ?_
        split
        · refine .bind (none_of_use (use_of_tables (hostRead_tables _ _))) fun root => ?_
          cases root with
          | none => exact freed handle
          | some contents => exact mounts _
        · refine .bind (none_of_use (.pure none)) fun root => ?_
          cases root with
          | none => exact freed handle
          | some contents => exact mounts _
  unfold kMount
  refine .bind (none_of_use .get) fun s => .ite (fun _ => none_of_use (.pure _)) fun _ => ?_
  refine .bind (none_of_use (use_of_refs (hostOpen_refs false fsName))) fun opened => ?_
  cases opened with
  | none => exact none_of_use (.pure _)
  | some fd =>
      refine .bind (change _ fun _ => ⟨rfl, rfl, rfl, rfl, rfl⟩) fun _ => ?_
      refine .bind (none_of_use (use_of_tables (hostRead_tables 0 2))) fun read => ?_
      cases read with
      | none => exact giveUp fd _
      | some super =>
          refine .ite (fun _ => giveUp fd _) fun _ => .ite (fun _ => giveUp fd _) fun _ => ?_
          refine .bind (change _ fun _ => ⟨rfl, rfl, rfl, rfl, rfl⟩) fun _ => ?_
          refine .bind (none_of_use (use_of_tables (hostMmap_tables _))) fun mapped => ?_
          cases mapped with
          | none => exact .bind (change _ fun _ => ⟨rfl, rfl, rfl, rfl, rfl⟩) fun _ => giveUp fd _
          | some mapping => exact .bind (change _ fun _ => ⟨rfl, rfl, rfl, rfl, rfl⟩) fun _ => loads _ _ _ _

end Uses

end PennOs.Fat
