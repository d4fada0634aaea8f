import PennOs.Fat.DirectoryRuns
import PennOs.Fat.Calls

set_option autoImplicit false

/- The helpers that leave the open-file tables, the current directory and the other host files alone,
whatever the host does. -/
namespace PennOs.Fat

open Prog (Keeps)

instance : Std.Refl SameTables := ⟨SameTables.refl⟩

instance : IsTrans Fs SameTables := ⟨fun _ _ _ => SameTables.trans⟩

section Transfers

theorem hostCall_tables : Keeps SameTables hostCall := by
  intro s a s' run
  unfold hostCall at run
  split at run
  · cases run
    exact .refl s
  · cases run
    exact ⟨rfl, rfl, rfl, rfl, rfl⟩

theorem hostOk_tables : Keeps SameTables hostOk := by
  refine .bind hostCall_tables fun outcome => ?_
  cases outcome <;> exact .pure _

theorem malloc_tables : Keeps SameTables malloc := hostOk_tables

theorem fatGet_tables (index : Nat) : Keeps SameTables (fatGet index) := by
  intro s a s' run
  unfold fatGet at run
  split at run
  · cases run
    exact .refl s
  · cases run

theorem fatSet_tables (index value : Nat) : Keeps SameTables (fatSet index value) := by
  intro s a s' run
  unfold fatSet at run
  split at run
  · cases run
    exact .setFat s index value
  · cases run

theorem readBlock_tables (b : Nat) : Keeps SameTables (readBlock b) := by
  unfold readBlock
  refine .bind .get fun s => .ite (fun _ => .pure _) fun _ => ?_
  refine .bind hostOk_tables fun sought => .ite (fun _ => .pure _) fun _ => ?_
  refine .bind hostOk_tables fun got => .ite (fun _ => .pure _) fun _ => ?_
  exact .bind .get fun t => .ite (fun _ => .pure _) fun _ => .pure _

theorem putBytes_tables (start len : Fs → Nat) (buf : Buffer) :
    Keeps SameTables (Prog.modify fun t => t.putBytes (start t) (len t) buf) :=
  .modify fun _ => ⟨rfl, rfl, rfl, rfl, rfl⟩

theorem writeBlock_tables (buf : Buffer) (b : Nat) : Keeps SameTables (writeBlock buf b) := by
  unfold writeBlock
  refine .bind .get fun s => .ite (fun _ => .pure _) fun _ => ?_
  refine .bind hostOk_tables fun sought => .ite (fun _ => .pure _) fun _ => ?_
  refine .bind hostCall_tables fun outcome => ?_
  cases outcome with
  | failed => exact .pure _
  | short count =>
      refine .bind .get fun t => ?_
      refine .ite (fun _ => ?_) fun _ => .pure _
      exact .bind (putBytes_tables _ _ buf) fun _ => .pure _
  | done =>
      refine .bind .get fun t => ?_
      refine .ite (fun _ => .pure _) fun _ => ?_
      exact .bind (putBytes_tables _ _ buf) fun _ => hostOk_tables

end Transfers

section Chains

theorem locateLoop_tables (count current : Nat) : Keeps SameTables (locateLoop count current) := by
  induction count generalizing current with
  | zero => exact .pure _
  | succ count ih =>
      unfold locateLoop
      exact .ite (fun _ => .pure _) fun _ => .bind (fatGet_tables current) ih

theorem locateBlockInChain_tables (first offset : Nat) :
    Keeps SameTables (locateBlockInChain first offset) := by
  unfold locateBlockInChain
  refine .ite (fun _ => .pure _) fun _ => .bind .get fun s => ?_
  refine .bind (locateLoop_tables _ first) fun found => ?_
  cases found <;> exact .pure _

theorem allocateScan_tables (count index : Nat) : Keeps SameTables (allocateScan count index) := by
  induction count generalizing index with
  | zero => exact .pure _
  | succ count ih =>
      unfold allocateScan
      refine .bind (fatGet_tables index) fun entry => ?_
      refine .ite (fun _ => ?_) fun _ => ih (index + 1)
      exact .bind (fatSet_tables index fatEoc) fun _ => .pure _

theorem allocateFreeBlock_tables : Keeps SameTables allocateFreeBlock :=
  .bind .get fun _ => allocateScan_tables _ _

theorem freeLoop_tables (fuel current : Nat) : Keeps SameTables (freeLoop fuel current) := by
  induction fuel generalizing current with
  | zero => exact .fault
  | succ fuel ih =>
      unfold freeLoop
      refine .ite (fun _ => .pure _) fun _ => ?_
      refine .bind (fatGet_tables current) fun next => ?_
      exact .bind (fatSet_tables current fatFree) fun _ => ih next

theorem freeBlockChain_tables (first : Nat) : Keeps SameTables (freeBlockChain first) :=
  freeLoop_tables _ first

theorem lastInChain_tables (fuel last : Nat) : Keeps SameTables (lastInChain fuel last) := by
  induction fuel generalizing last with
  | zero => exact .fault
  | succ fuel ih =>
      unfold lastInChain
      exact .bind (fatGet_tables last) fun next => .ite (fun _ => .pure _) fun _ => ih next

end Chains

section Directories

theorem readDirent_tables (b : Nat) (i : Int) : Keeps SameTables (readDirent b i) := by
  unfold readDirent
  refine .ite (fun _ => .pure _) fun _ => ?_
  refine .bind malloc_tables fun room => .ite (fun _ => .pure _) fun _ => ?_
  refine .bind (readBlock_tables b) fun read => ?_
  cases read with
  | none => exact .pure _
  | some buf => exact .bind .get fun s => .ite (fun _ => .pure _) fun _ => .pure _

theorem writeDirent_tables (b : Nat) (i : Int) (e : DirEntry) :
    Keeps SameTables (writeDirent b i e) := by
  unfold writeDirent
  refine .ite (fun _ => .pure _) fun _ => ?_
  refine .bind malloc_tables fun room => .ite (fun _ => .pure _) fun _ => ?_
  refine .bind (readBlock_tables b) fun read => ?_
  cases read with
  | none => exact .pure _
  | some buf =>
      refine .bind .get fun s => .ite (fun _ => .pure _) fun _ => ?_
      exact .bind (writeBlock_tables _ b) fun done => .ite (fun _ => .pure _) fun _ => .pure _

theorem findSlotLoop_tables (fuel current : Nat) : Keeps SameTables (findSlotLoop fuel current) := by
  induction fuel generalizing current with
  | zero => exact .fault
  | succ fuel ih =>
      unfold findSlotLoop
      refine .ite (fun _ => .pure _) fun _ => .bind (readBlock_tables current) fun read => ?_
      cases read with
      | none => exact .pure _
      | some buf =>
          refine .bind .get fun s => ?_
          split
          · exact .pure _
          · exact .bind (fatGet_tables current) ih

theorem putEntry_tables (b i : Nat) (e : DirEntry) : Keeps SameTables (putEntry b i e) := by
  unfold putEntry
  refine .bind (readBlock_tables b) fun read => ?_
  cases read with
  | none => exact .pure _
  | some buf =>
      exact .bind (writeBlock_tables _ b) fun done => .ite (fun _ => .pure _) fun _ => .pure _

theorem growDir_tables (d : Nat) : Keeps SameTables (growDir d) := by
  unfold growDir
  refine .bind allocateFreeBlock_tables fun taken => ?_
  cases taken with
  | none => exact .pure _
  | some newBlock =>
      refine .bind (lastInChain_tables _ d) fun last => ?_
      refine .bind (fatSet_tables last newBlock) fun _ => ?_
      refine .bind (writeBlock_tables _ newBlock) fun done => .ite (fun _ => .pure _) fun _ => ?_
      refine .bind (fatSet_tables last fatEoc) fun _ => ?_
      exact .bind (fatSet_tables newBlock fatFree) fun _ => .pure _

theorem addDirentToDir_tables (d : Nat) (e : DirEntry) :
    Keeps SameTables (addDirentToDir d e) := by
  unfold addDirentToDir
  refine .ite (fun _ => .pure _) fun _ => ?_
  refine .bind malloc_tables fun room => .ite (fun _ => .pure _) fun _ => ?_
  refine .bind (findSlotLoop_tables _ d) fun found => ?_
  rcases found with err | slot
  · exact .pure _
  rcases slot with none | place
  · refine .bind (growDir_tables d) fun grown => ?_
    cases grown with
    | error err => exact .pure _
    | ok newBlock => exact putEntry_tables newBlock 0 e
  · exact putEntry_tables place.1 place.2 e

theorem findLoop_tables (name : List UInt8) (fuel current : Nat) :
    Keeps SameTables (findLoop name fuel current) := by
  induction fuel generalizing current with
  | zero => exact .fault
  | succ fuel ih =>
      unfold findLoop
      refine .ite (fun _ => .pure _) fun _ => .bind (readBlock_tables current) fun read => ?_
      cases read with
      | none => exact .pure _
      | some buf =>
          refine .bind .get fun s => ?_
          split
          · exact .pure _
          · exact .bind (fatGet_tables current) ih

theorem findEntryInDir_tables (d : Nat) (name : List UInt8) :
    Keeps SameTables (findEntryInDir d name) := by
  unfold findEntryInDir
  refine .ite (fun _ => .pure _) fun _ => ?_
  refine .bind malloc_tables fun room => .ite (fun _ => .pure _) fun _ => ?_
  refine .bind (findLoop_tables name _ d) fun found => ?_
  rcases found with err | _ | hit <;> exact .pure _

end Directories

section Paths

variable {now : UInt64} {follow : Bool}
  {recurse : List UInt8 → FsM (PennFatErr × ResolvedPath)}

theorem readSymlinkTarget_tables (link : DirEntry) : Keeps SameTables (readSymlinkTarget link) := by
  unfold readSymlinkTarget
  refine .ite (fun _ => .pure _) fun _ => ?_
  refine .bind malloc_tables fun room => .ite (fun _ => .pure _) fun _ => ?_
  refine .bind (readBlock_tables _) fun read => ?_
  cases read <;> exact .pure _

/-- A walk keeps what lookups keep. -/
theorem walk_preserves {R : Fs → Fs → Prop} [Std.Refl R] [IsTrans Fs R]
    (finds : ∀ d name, Keeps R (findEntryInDir d name)) (reads : ∀ link, Keeps R (readSymlinkTarget link))
    (targets : ∀ target, Keeps R (recurse target)) (components : List (List UInt8)) (current parent : Nat) :
    Keeps R (walk now follow recurse components current parent) := by
  induction components generalizing current parent with
  | nil => exact .pure _
  | cons component rest ih =>
      unfold walk
      refine .ite (fun _ => ih current parent) fun _ => ?_
      refine .ite (fun _ => ?_) fun _ => ?_
      · refine .ite (fun _ => ih current parent) fun _ => ?_
        refine .bind (finds current dotDot) fun up => ?_
        cases up with
        | error err => exact .pure _
        | ok up => exact .ite (fun _ => .pure _) fun _ => ih _ current
      · refine .bind (finds current component) fun hit => ?_
        cases hit with
        | error err => exact .pure _
        | ok hit =>
            refine .ite (fun _ => .pure _) fun _ => ?_
            cases rest with
            | nil =>
                refine .ite (fun _ => ?_) fun _ => .pure _
                refine .bind (reads _) fun target => ?_
                cases target with
                | error err => exact .pure _
                | ok target => exact targets target
            | cons next rest => exact .ite (fun _ => .pure _) fun _ => ih _ current

theorem resolvePathInternal_preserves {R : Fs → Fs → Prop} [Std.Refl R] [IsTrans Fs R]
    (finds : ∀ d name, Keeps R (findEntryInDir d name)) (reads : ∀ link, Keeps R (readSymlinkTarget link))
    (levels : Nat) (path : List UInt8) : Keeps R (resolvePathInternal now follow levels path) := by
  induction levels generalizing path with
  | zero => exact .pure _
  | succ levels ih =>
      unfold resolvePathInternal
      refine .bind .get fun s => ?_
      cases path with
      | nil => exact .ite (fun _ => .pure _) fun _ => .pure _
      | cons c rest =>
          refine .ite (fun _ => ?_) fun _ => walk_preserves finds reads ih _ _ _
          exact .ite (fun _ => .pure _) fun _ => walk_preserves finds reads ih _ _ _

theorem resolvePathInternal_tables (levels : Nat) (path : List UInt8) :
    Keeps SameTables (resolvePathInternal now follow levels path) :=
  resolvePathInternal_preserves findEntryInDir_tables readSymlinkTarget_tables levels path

theorem resolvePath_tables (path : List UInt8) : Keeps SameTables (resolvePath now path) := by
  unfold resolvePath
  exact .ite (fun _ => .pure _) fun _ => resolvePathInternal_tables _ path

theorem truncateFile_tables (resolved : ResolvedPath) :
    Keeps SameTables (truncateFile now resolved) := by
  unfold truncateFile
  refine .bind (freeBlockChain_tables _) fun _ => ?_
  refine .bind allocateFreeBlock_tables fun taken => ?_
  cases taken with
  | none => exact .pure _
  | some first =>
      refine .bind (writeDirent_tables _ _ _) fun err => ?_
      split
      · exact .pure _
      · exact .bind (fatSet_tables first fatFree) fun _ => .pure _

/-- `openExisting` past the truncation. -/
def openCurrent (mode : UInt32) : Except PennFatErr ResolvedPath → FsM (Except PennFatErr Nat)
  | .error err => return .error err
  | .ok resolved => do
      let inode := pseudoInode resolved.entryBlock resolved.entryIndexInBlock
      match ← findAndIncrementSysfile inode with
      | some index => assignFd index mode resolved.entry.size
      | none =>
          match ← createSysfileEntryFromResolved resolved inode with
          | none => return .error .outofmem
          | some index => assignFd index mode resolved.entry.size

/-- The entry an open goes on with: the truncated one, or the one found. -/
def openedEntry (now : UInt64) (mode : UInt32) (resolved : ResolvedPath) :
    FsM (Except PennFatErr ResolvedPath) :=
  if hasWrite mode ∧ !hasAppend mode then truncateFile now resolved else return .ok resolved

theorem openExisting_eq (now : UInt64) (mode : UInt32) (resolved : ResolvedPath) :
    openExisting now mode resolved =
      if resolved.entry.type = DirEntry.typeDirectory then return .error .isdir
      else if !permits mode resolved.entry.perm then return .error .perm
      else openedEntry now mode resolved >>= openCurrent mode := by
  unfold openExisting openedEntry
  by_cases truncates : hasWrite mode = true ∧ (!hasAppend mode) = true
  · simp only [truncates, and_self, ↓reduceIte]
    rfl
  · simp only [truncates, ↓reduceIte]
    rfl

theorem openedEntry_tables (mode : UInt32) (resolved : ResolvedPath) :
    Keeps SameTables (openedEntry now mode resolved) :=
  .ite (fun _ => truncateFile_tables resolved) fun _ => .pure _

theorem flushSysfile_tables (sf : SystemFile) : Keeps SameTables (flushSysfile sf) := by
  unfold flushSysfile
  refine .bind (readDirent_tables _ _) fun read => ?_
  cases read with
  | error err => exact .pure _
  | ok current =>
      refine .ite (fun _ => ?_) fun _ => .pure _
      exact .bind (writeDirent_tables _ _ _) fun _ => .pure _

end Paths

section Unlinking

/-- Some descriptor holds the file open. -/
def Fs.busy (s : Fs) (inode : Nat) : Bool :=
  match s.findSysfile inode with
  | some index => decide ((s.gSysfileTable index).refCount + 1 > 1)
  | none => false

/-- `k_unlink` past its checks. -/
def unlinkEntry (resolved : ResolvedPath) : FsM PennFatErr := do
  if resolved.entry.firstBlock.toNat ≠ fatEoc ∧ resolved.entry.firstBlock.toNat ≠ fatFree then
    freeBlockChain resolved.entry.firstBlock.toNat
  writeDirent resolved.entryBlock resolved.entryIndexInBlock .deleted

/-- One more reference to an entry. -/
def Fs.countUp (s : Fs) (index : Nat) : Fs :=
  s.setSysfile index
    { s.gSysfileTable index with refCount := (s.gSysfileTable index).refCount + 1 }

/-- One reference less to an entry. -/
def Fs.countDown (s : Fs) (index : Nat) : Fs :=
  s.setSysfile index
    { s.gSysfileTable index with refCount := (s.gSysfileTable index).refCount - 1 }

theorem countUp_countDown (s : Fs) (index : Nat) : (s.countUp index).countDown index = s := by
  simp [Fs.countUp, Fs.countDown, Fs.setSysfile]

theorem findAndIncrement_none {s : Fs} {inode : Nat} (found : s.findSysfile inode = none) :
    findAndIncrementSysfile inode s = some (none, s) := by
  unfold findAndIncrementSysfile
  rw [Prog.get_bind, found]
  rfl

theorem findAndIncrement_some {s : Fs} {inode index : Nat} (found : s.findSysfile inode = some index) :
    findAndIncrementSysfile inode s = some (some index, s.countUp index) := by
  unfold findAndIncrementSysfile
  rw [Prog.get_bind, found]
  rfl

/-- Raising the count and lowering it again changes nothing. -/
theorem countCheck_eq (inode : Nat) (busy rest : FsM PennFatErr) :
    (do
      match ← findAndIncrementSysfile inode with
      | some index =>
          let s ← Prog.get
          let sf := s.gSysfileTable index
          Prog.modify fun t => t.setSysfile index { sf with refCount := sf.refCount - 1 }
          if sf.refCount > 1 then busy else rest
      | none => rest) =
    (do
      let s ← Prog.get
      if s.busy inode then busy else rest) := by
  funext s
  cases found : s.findSysfile inode with
  | none =>
      rw [Prog.bind_of_run (findAndIncrement_none found)]
      simp only [Prog.get_bind, Fs.busy, found, Bool.false_eq_true, ↓reduceIte]
  | some index =>
      rw [Prog.bind_of_run (findAndIncrement_some found)]
      have count : ((s.countUp index).gSysfileTable index).refCount =
          (s.gSysfileTable index).refCount + 1 := by
        simp [Fs.countUp, Fs.setSysfile]
      show (if ((s.countUp index).gSysfileTable index).refCount > 1 then busy else rest)
        ((s.countUp index).countDown index) = (if s.busy inode then busy else rest) s
      simp only [countUp_countDown, count, Fs.busy, found, decide_eq_true_eq]

theorem kUnlink_eq (now : UInt64) (path : List UInt8) : kUnlink now path = (do
    let s ← Prog.get
    if !s.gMounted then return .notMounted
    if path = [] ∨ path = [slash] ∨ path = dot ∨ path = dotDot then return .invad
    let (err, resolved) ← resolvePath now path
    if err ≠ .ok then return err
    if !resolved.found ∨ resolved.isRoot then return .exist
    if resolved.entry.type = DirEntry.typeDirectory then return .isdir
    let s ← Prog.get
    if s.busy (pseudoInode resolved.entryBlock resolved.entryIndexInBlock) then return .busy
    unlinkEntry resolved) := by
  unfold kUnlink
  refine congrArg (Prog.get >>= ·) (funext fun s => ?_)
  refine ite_congr rfl (fun _ => rfl) fun _ => ite_congr rfl (fun _ => rfl) fun _ => ?_
  refine congrArg (resolvePath now path >>= ·) (funext fun found => ?_)
  refine ite_congr rfl (fun _ => rfl) fun _ => ite_congr rfl (fun _ => rfl) fun _ => ?_
  exact ite_congr rfl (fun _ => rfl) fun _ => countCheck_eq _ _ _

end Unlinking

section Calls

variable {now : UInt64}

theorem unlinkEntry_tables (resolved : ResolvedPath) : Keeps SameTables (unlinkEntry resolved) := by
  unfold unlinkEntry
  refine .ite (fun _ => ?_) fun _ => writeDirent_tables _ _ _
  exact .bind (freeBlockChain_tables _) fun _ => writeDirent_tables _ _ _

theorem kUnlink_tables (path : List UInt8) : Keeps SameTables (kUnlink now path) := by
  rw [kUnlink_eq]
  refine .bind .get fun s => .ite (fun _ => .pure _) fun _ => .ite (fun _ => .pure _) fun _ => ?_
  refine .bind (resolvePath_tables path) fun found => ?_
  refine .ite (fun _ => .pure _) fun _ => .ite (fun _ => .pure _) fun _ => ?_
  refine .ite (fun _ => .pure _) fun _ => .bind .get fun t => ?_
  exact .ite (fun _ => .pure _) fun _ => unlinkEntry_tables found.2

theorem kTouch_tables (path : List UInt8) : Keeps SameTables (kTouch now path) := by
  unfold kTouch
  refine .bind .get fun s => .ite (fun _ => .pure _) fun _ => .ite (fun _ => .pure _) fun _ => ?_
  refine .bind (resolvePath_tables path) fun found => .ite (fun _ => .pure _) fun _ => ?_
  refine .ite (fun _ => .ite (fun _ => .pure _) fun _ => writeDirent_tables _ _ _) fun _ => ?_
  refine .ite (fun _ => .pure _) fun _ => .ite (fun _ => .pure _) fun _ => ?_
  refine .ite (fun _ => .pure _) fun _ => .bind allocateFreeBlock_tables fun taken => ?_
  cases taken with
  | none => exact .pure _
  | some firstBlock =>
      refine .bind (addDirentToDir_tables _ _) fun added => ?_
      split
      · exact .pure _
      · exact .bind (fatSet_tables firstBlock fatFree) fun _ => .pure _

theorem kChmod_tables (path : List UInt8) (perm : UInt8) :
    Keeps SameTables (kChmod now path perm) := by
  unfold kChmod
  refine .bind .get fun s => .ite (fun _ => .pure _) fun _ => .ite (fun _ => .pure _) fun _ => ?_
  refine .ite (fun _ => .pure _) fun _ => .bind (resolvePath_tables path) fun found => ?_
  exact .ite (fun _ => .pure _) fun _ => .ite (fun _ => .pure _) fun _ => writeDirent_tables _ _ _

theorem kSymlink_tables (target linkpath : List UInt8) :
    Keeps SameTables (kSymlink now target linkpath) := by
  unfold kSymlink
  refine .bind .get fun s => .ite (fun _ => .pure _) fun _ => .ite (fun _ => .pure _) fun _ => ?_
  refine .bind (resolvePathInternal_tables symlinkLevels linkpath) fun found => ?_
  refine .ite (fun _ => .pure _) fun _ => .ite (fun _ => .pure _) fun _ => ?_
  refine .ite (fun _ => .pure _) fun _ => .ite (fun _ => .pure _) fun _ => ?_
  refine .ite (fun _ => .pure _) fun _ => .bind allocateFreeBlock_tables fun taken => ?_
  cases taken with
  | none => exact .pure _
  | some targetBlock =>
      have giveBack : ∀ err : PennFatErr,
          Keeps SameTables (fatSet targetBlock fatFree >>= fun _ => pure err) := fun err =>
        .bind (fatSet_tables targetBlock fatFree) fun _ => .pure err
      refine .bind malloc_tables fun room => .ite (fun _ => giveBack _) fun _ => ?_
      refine .bind (writeBlock_tables _ _) fun done => .ite (fun _ => giveBack _) fun _ => ?_
      refine .bind hostOk_tables fun _ => .bind (addDirentToDir_tables _ _) fun added => ?_
      split
      · exact .pure _
      · exact .bind (freeBlockChain_tables targetBlock) fun _ => .pure _

theorem kMkdir_tables (path : List UInt8) : Keeps SameTables (kMkdir now path) := by
  unfold kMkdir
  refine .bind .get fun s => .ite (fun _ => .pure _) fun _ => .ite (fun _ => .pure _) fun _ => ?_
  refine .bind (resolvePath_tables path) fun found => .ite (fun _ => .pure _) fun _ => ?_
  refine .ite (fun _ => .pure _) fun _ => .ite (fun _ => .pure _) fun _ => ?_
  refine .ite (fun _ => .pure _) fun _ => .bind allocateFreeBlock_tables fun taken => ?_
  cases taken with
  | none => exact .pure _
  | some dirBlock =>
      have giveBack : ∀ err : PennFatErr,
          Keeps SameTables (fatSet dirBlock fatFree >>= fun _ => pure err) := fun err =>
        .bind (fatSet_tables dirBlock fatFree) fun _ => .pure err
      refine .bind (addDirentToDir_tables _ _) fun added => ?_
      split
      · refine .bind malloc_tables fun room => .ite (fun _ => giveBack _) fun _ => ?_
        exact .bind (writeBlock_tables _ _) fun done => .ite (fun _ => .pure _) fun _ => giveBack _
      · exact giveBack _

theorem kRmdir_tables (path : List UInt8) : Keeps SameTables (kRmdir now path) := by
  unfold kRmdir
  refine .bind .get fun s => .ite (fun _ => .pure _) fun _ => .ite (fun _ => .pure _) fun _ => ?_
  refine .bind (resolvePath_tables path) fun found => .ite (fun _ => .pure _) fun _ => ?_
  refine .ite (fun _ => .pure _) fun _ => .ite (fun _ => .pure _) fun _ => ?_
  refine .bind malloc_tables fun room => .ite (fun _ => .pure _) fun _ => ?_
  refine .bind (readBlock_tables _) fun read => ?_
  cases read with
  | none => exact .pure _
  | some buf =>
      refine .ite (fun _ => .pure _) fun _ => .bind (writeDirent_tables _ _ _) fun err => ?_
      split
      · exact .bind (fatSet_tables _ _) fun _ => .pure _
      · exact .pure _

theorem removeDestination_tables (newpath : List UInt8) (source target : ResolvedPath) :
    Keeps SameTables (removeDestination now newpath source target) := by
  unfold removeDestination
  refine .ite (fun _ => .pure _) fun _ => ?_
  refine .ite (fun _ => .ite (fun _ => .pure _) fun _ => .pure _) fun _ => ?_
  exact .ite (fun _ => kRmdir_tables newpath) fun _ => kUnlink_tables newpath

theorem kRename_tables (oldpath newpath : List UInt8) :
    Keeps SameTables (kRename now oldpath newpath) := by
  unfold kRename
  refine .bind .get fun s => .ite (fun _ => .pure _) fun _ => .ite (fun _ => .pure _) fun _ => ?_
  refine .ite (fun _ => .pure _) fun _ => .bind (resolvePath_tables oldpath) fun source => ?_
  refine .ite (fun _ => .pure _) fun _ => .ite (fun _ => .pure _) fun _ => ?_
  refine .ite (fun _ => .pure _) fun _ => .bind (resolvePath_tables newpath) fun target => ?_
  refine .ite (fun _ => .pure _) fun _ => .ite (fun _ => .pure _) fun _ => ?_
  refine .ite (fun _ => .pure _) fun _ => ?_
  refine .bind (removeDestination_tables newpath source.2 target.2) fun removed => ?_
  split
  · refine .bind (addDirentToDir_tables _ _) fun added => ?_
    split
    · exact writeDirent_tables _ _ _
    · exact .pure _
  · exact .pure _

end Calls

section Host

theorem hostClose_tables (fd : Nat) : Keeps SameTables (hostClose fd) :=
  .bind (.modify fun _ => ⟨rfl, rfl, rfl, rfl, rfl⟩) fun _ => hostOk_tables

theorem hostMmap_tables (bytes : Nat) : Keeps SameTables (hostMmap bytes) := by
  unfold hostMmap
  refine .bind hostOk_tables fun mapped => .ite (fun _ => .bind .get fun s => ?_) fun _ => .pure _
  exact .bind (.modify fun _ => ⟨rfl, rfl, rfl, rfl, rfl⟩) fun _ => .pure _

theorem hostMunmap_tables (mapping : Option Mapping) : Keeps SameTables (hostMunmap mapping) := by
  unfold hostMunmap
  refine .bind hostOk_tables fun unmapped => .ite (fun _ => ?_) fun _ => .pure _
  refine .bind (.modify fun s => ?_) fun _ => .pure _
  cases mapping <;> exact ⟨rfl, rfl, rfl, rfl, rfl⟩

theorem mallocRoot_tables : Keeps SameTables mallocRoot := by
  unfold mallocRoot
  refine .bind malloc_tables fun room => .ite (fun _ => .bind .get fun s => ?_) fun _ => .pure _
  exact .bind (.modify fun _ => ⟨rfl, rfl, rfl, rfl, rfl⟩) fun _ => .pure _

theorem freeBuffer_tables (handle : Nat) : Keeps SameTables (freeBuffer handle) :=
  .modify fun _ => ⟨rfl, rfl, rfl, rfl, rfl⟩

theorem hostRead_tables (start len : Nat) : Keeps SameTables (hostRead start len) := by
  unfold hostRead
  refine .bind hostOk_tables fun got => .ite (fun _ => .bind .get fun s => ?_) fun _ => .pure _
  exact .ite (fun _ => .pure _) fun _ => .pure _

theorem hostWrite_tables (start len : Nat) (buf : Buffer) :
    Keeps SameTables (hostWrite start len buf) := by
  unfold hostWrite
  refine .bind hostCall_tables fun outcome => ?_
  cases outcome with
  | failed => exact .pure _
  | short count => exact .bind (putBytes_tables _ _ buf) fun _ => .pure _
  | done => exact .bind (putBytes_tables _ _ buf) fun _ => .pure _

theorem formatImage_tables (blocksInFat config : Nat) :
    Keeps SameTables (formatImage blocksInFat config) := by
  unfold formatImage
  refine .bind hostOk_tables fun sized => .ite (fun _ => .pure _) fun _ => ?_
  refine .bind (.modify fun _ => ⟨rfl, rfl, rfl, rfl, rfl⟩) fun _ => ?_
  refine .bind malloc_tables fun room => .ite (fun _ => .pure _) fun _ => ?_
  refine .bind hostOk_tables fun sought => .ite (fun _ => .pure _) fun _ => ?_
  refine .bind (hostWrite_tables _ _ _) fun written => .ite (fun _ => .pure _) fun _ => ?_
  refine .bind malloc_tables fun room => .ite (fun _ => .pure _) fun _ => ?_
  refine .bind hostOk_tables fun sought => .ite (fun _ => .pure _) fun _ => ?_
  exact .bind (hostWrite_tables _ _ _) fun written => .ite (fun _ => .pure _) fun _ => .pure _

theorem storeRoot_tables (fatRegionSize : Nat) : Keeps SameTables (storeRoot fatRegionSize) := by
  unfold storeRoot
  refine .bind .get fun s => .bind hostOk_tables fun sought => .ite (fun _ => .pure _) fun _ => ?_
  split
  · exact .fault
  refine .bind (hostWrite_tables _ _ _) fun written => .ite (fun _ => .pure _) fun _ => ?_
  refine .bind hostOk_tables fun synced => .ite (fun _ => .pure _) fun _ => ?_
  refine .bind (hostMunmap_tables _) fun unmapped => .ite (fun _ => .pure _) fun _ => ?_
  refine .bind (.modify fun _ => ⟨rfl, rfl, rfl, rfl, rfl⟩) fun _ => .bind (freeBuffer_tables _) fun _ => ?_
  refine .bind (.modify fun _ => ⟨rfl, rfl, rfl, rfl, rfl⟩) fun _ => ?_
  split
  · exact .fault
  refine .bind hostOk_tables fun flushed => .ite (fun _ => ?_) fun _ => ?_
  · refine .bind (hostClose_tables _) fun _ => ?_
    exact .bind (.modify fun _ => ⟨rfl, rfl, rfl, rfl, rfl⟩) fun _ => .pure _
  · refine .bind (hostClose_tables _) fun closed => .ite (fun _ => .pure _) fun _ => ?_
    exact .bind (.modify fun _ => ⟨rfl, rfl, rfl, rfl, rfl⟩) fun _ => .pure _

end Host

end PennOs.Fat
