import PennOs.Fat.OpenAccounting

set_option autoImplicit false

/- The calls other than `k_mkfs` and `k_mount` stay with their image and leave the other host files
alone. -/
namespace PennOs.Fat

open Prog (Keeps)
open Fs

/-- The image at hand has the same name, and the other host files are the same. -/
structure SameHost (s t : Fs) : Prop where
  imageName : t.imageName = s.imageName
  hostFiles : t.hostFiles = s.hostFiles

variable {s t : Fs} {now : UInt64} {path : List UInt8} {mode : UInt32}

instance : Std.Refl SameHost := ⟨fun _ => ⟨rfl, rfl⟩⟩

instance : IsTrans Fs SameHost :=
  ⟨fun _ _ _ first second => ⟨second.imageName.trans first.imageName, second.hostFiles.trans first.hostFiles⟩⟩

theorem SameHost.hostFile (same : SameHost s t) {name : List UInt8} (other : s.imageName ≠ some name) :
    t.hostFile name = s.hostFile name := by
  have other' : t.imageName ≠ some name := same.imageName ▸ other
  rw [Fs.hostFile, Fs.hostFile, if_neg other, if_neg other', same.hostFiles]

theorem host_of_tables {α : Type} {p : FsM α} (keeps : Keeps SameTables p) : Keeps SameHost p :=
  fun s a t run => ⟨(keeps s a t run).imageName, (keeps s a t run).hostFiles⟩

theorem host_of_only {α : Type} {p : FsM α} (keeps : Keeps OnlyOffsets p) : Keeps SameHost p := by
  intro s a t run
  obtain ⟨_, _, rfl⟩ := (keeps s a t run).image
  exact ⟨rfl, rfl⟩

section OpenFiles

theorem releaseSysfileEntry_sameHost (index : Nat) : Keeps SameHost (releaseSysfileEntry index) := by
  unfold releaseSysfileEntry
  refine .bind .get fun s => .ite (fun _ => .pure _) fun _ => ?_
  refine .bind (.modify fun _ => ⟨rfl, rfl⟩) fun _ => .ite (fun _ => ?_) fun _ => .pure _
  exact .bind (host_of_tables (flushSysfile_tables _)) fun _ => .modify fun _ => ⟨rfl, rfl⟩

theorem findAndIncrement_sameHost (inode : Nat) : Keeps SameHost (findAndIncrementSysfile inode) := by
  unfold findAndIncrementSysfile
  refine .bind .get fun s => ?_
  split
  · exact .pure _
  · exact .bind (.modify fun _ => ⟨rfl, rfl⟩) fun _ => .pure _

theorem createSysfileEntry_sameHost (resolved : ResolvedPath) (inode : Nat) :
    Keeps SameHost (createSysfileEntryFromResolved resolved inode) := by
  unfold createSysfileEntryFromResolved
  refine .bind .get fun s => ?_
  split
  · exact .pure _
  · exact .bind (.modify fun _ => ⟨rfl, rfl⟩) fun _ => .pure _

theorem assignFd_sameHost (index : Nat) (mode size : UInt32) : Keeps SameHost (assignFd index mode size) := by
  unfold assignFd
  refine .bind .get fun s => ?_
  split
  · exact .bind (.modify fun _ => ⟨rfl, rfl⟩) fun _ => .pure _
  · exact .bind (releaseSysfileEntry_sameHost index) fun _ => .pure _

theorem openCurrent_sameHost (mode : UInt32) (current : Except PennFatErr ResolvedPath) :
    Keeps SameHost (openCurrent mode current) := by
  cases current with
  | error err => exact .pure _
  | ok resolved =>
      refine .bind (findAndIncrement_sameHost _) fun found => ?_
      cases found with
      | some index => exact assignFd_sameHost _ _ _
      | none =>
          refine .bind (createSysfileEntry_sameHost _ _) fun made => ?_
          cases made with
          | none => exact .pure _
          | some index => exact assignFd_sameHost _ _ _

theorem openCreate_sameHost (resolved : ResolvedPath) :
    Keeps SameHost (openCreate now path mode resolved) := by
  unfold openCreate
  refine .ite (fun _ => .pure _) fun _ => .ite (fun _ => .pure _) fun _ => .ite (fun _ => .pure _) fun _ => ?_
  refine .bind (host_of_tables allocateFreeBlock_tables) fun taken => ?_
  cases taken with
  | none => exact .pure _
  | some first =>
      refine .bind (host_of_tables (addDirentToDir_tables _ _)) fun added => ?_
      split
      · refine .bind (host_of_tables (resolvePath_tables _)) fun created => ?_
        refine .ite (fun _ => ?_) fun _ => .ite (fun _ => .pure _) fun _ => .pure _
        refine .bind (createSysfileEntry_sameHost _ _) fun made => ?_
        cases made with
        | some index => exact assignFd_sameHost _ _ _
        | none =>
            refine .bind (host_of_tables (writeDirent_tables _ _ _)) fun _ => ?_
            exact .bind (host_of_tables (freeBlockChain_tables _)) fun _ => .pure _
      · exact .bind (host_of_tables (fatSet_tables _ _)) fun _ => .pure _

theorem kOpen_sameHost : Keeps SameHost (kOpen now path mode) := by
  unfold kOpen
  refine .bind .get fun s => .ite (fun _ => .pure _) fun _ => .ite (fun _ => .pure _) fun _ => ?_
  refine .ite (fun _ => .pure _) fun _ => .bind (host_of_tables (resolvePath_tables _)) fun found => ?_
  refine .ite (fun _ => .pure _) fun _ => .ite (fun _ => ?_) fun _ => openCreate_sameHost _
  rw [openExisting_eq]
  refine .ite (fun _ => .pure _) fun _ => .ite (fun _ => .pure _) fun _ => ?_
  exact .bind (host_of_tables (openedEntry_tables _ _)) fun current => openCurrent_sameHost _ _

theorem blockForWrite_sameHost (first offset : Nat) : Keeps SameHost (blockForWrite first offset) := by
  unfold blockForWrite extendChain
  refine .bind (host_of_tables (locateBlockInChain_tables first offset)) fun found => ?_
  cases found with
  | some place => exact .pure _
  | none =>
      refine .bind ?_ fun extended => by cases extended <;> exact .pure _
      refine .bind (host_of_tables (lastInChain_tables _ first)) fun last => ?_
      refine .bind (host_of_tables allocateFreeBlock_tables) fun taken => ?_
      cases taken with
      | none => exact .pure _
      | some newBlock => exact .bind (host_of_tables (fatSet_tables last newBlock)) fun _ => .pure _

theorem writeLoop_sameHost (fd : Nat) (buf : Buffer) (fuel total remain : Nat) :
    Keeps SameHost (writeLoop now fd buf fuel total remain) := by
  induction fuel generalizing total remain with
  | zero => exact .pure _
  | succ fuel ih =>
      unfold writeLoop
      refine .ite (fun _ => .pure _) fun _ => .bind .get fun s => ?_
      refine .bind (blockForWrite_sameHost _ _) fun target => ?_
      cases target with
      | none => exact .pure _
      | some place =>
          refine .bind (host_of_tables (readBlock_tables _)) fun read => ?_
          cases read with
          | none => exact .pure _
          | some blockBuf =>
              refine .bind (host_of_tables (writeBlock_tables _ _)) fun done => ?_
              refine .ite (fun _ => ?_) fun _ => .pure _
              refine .bind (.modify fun t => ?_) fun _ => ih _ _
              simp only [advance]
              split
              · exact ⟨rfl, rfl⟩
              · exact ⟨rfl, rfl⟩

theorem kWrite_sameHost (fd : Int) (buf : Buffer) (n : Int) : Keeps SameHost (kWrite now fd buf n) := by
  unfold kWrite
  refine .bind .get fun s => .ite (fun _ => .pure _) fun _ => .ite (fun _ => .pure _) fun _ => ?_
  refine .ite (fun _ => .pure _) fun _ => ?_
  refine .bind (host_of_tables hostOk_tables) fun room => .ite (fun _ => .pure _) fun _ => ?_
  exact .bind (writeLoop_sameHost _ _ _ _ _) fun _ => .pure _

theorem kClose_sameHost (fd : Int) : Keeps SameHost (kClose fd) := by
  unfold kClose
  refine .bind .get fun s => .ite (fun _ => .pure _) fun _ => .ite (fun _ => .pure _) fun _ => ?_
  exact .bind (.modify fun _ => ⟨rfl, rfl⟩) fun _ => .bind (releaseSysfileEntry_sameHost _) fun _ => .pure _

end OpenFiles

section Calls

theorem kUnmount_sameHost : Keeps SameHost kUnmount := by
  have closes : ∀ count fd, Keeps SameHost (closeAll count fd) := by
    intro count
    induction count with
    | zero => exact fun _ => .pure _
    | succ count ih =>
        intro fd
        unfold closeAll
        refine .bind .get fun s => .ite (fun _ => ?_) fun _ => ih (fd + 1)
        exact .bind (kClose_sameHost fd) fun _ => ih (fd + 1)
  unfold kUnmount
  refine .bind .get fun s => .ite (fun _ => .pure _) fun _ => ?_
  refine .bind (host_of_tables (fatGet_tables 0)) fun _ => .bind (closes maxFd 0) fun _ => ?_
  exact host_of_tables (storeRoot_tables _)

theorem kChdir_sameHost : Keeps SameHost (kChdir now path) := by
  unfold kChdir
  refine .bind .get fun s => .ite (fun _ => .pure _) fun _ => ?_
  refine .bind (host_of_tables (resolvePath_tables path)) fun found => ?_
  refine .ite (fun _ => .pure _) fun _ => .ite (fun _ => .pure _) fun _ => ?_
  refine .ite (fun _ => ?_) fun _ => .ite (fun _ => .pure _) fun _ => ?_
  · exact .bind (.modify fun _ => ⟨rfl, rfl⟩) fun _ => .pure _
  · exact .bind (.modify fun _ => ⟨rfl, rfl⟩) fun _ => .pure _

/-- Only `k_mkfs` and `k_mount` turn to another image. -/
theorem step_sameHost {call : Call} (step : Step s call t) (notMount : ∀ fsName, call ≠ .mount fsName)
    (notMkfs : ∀ fsName blocks config, call ≠ .mkfs fsName blocks config) : SameHost s t := by
  have keeps : ∀ {α : Type} {p : FsM α}, Keeps SameHost p → ignore p s = some ((), t) → SameHost s t := by
    intro α p keeps run
    obtain ⟨a, first⟩ := ignore_inv run
    exact keeps s a t first
  cases call with
  | mkfs fsName blocks config => exact absurd rfl (notMkfs fsName blocks config)
  | mount fsName => exact absurd rfl (notMount fsName)
  | unmount => exact keeps kUnmount_sameHost step
  | openFile now path mode => exact keeps kOpen_sameHost step
  | read fd n => exact keeps (host_of_only (kRead_only fd n)) step
  | write now fd buf n => exact keeps (kWrite_sameHost fd buf n) step
  | close fd => exact keeps (kClose_sameHost fd) step
  | lseek fd offset whence => exact keeps (host_of_only (kLseek_only fd offset whence)) step
  | unlink now path => exact keeps (host_of_tables (kUnlink_tables _)) step
  | touch now path => exact keeps (host_of_tables (kTouch_tables _)) step
  | chmod now path perm => exact keeps (host_of_tables (kChmod_tables _ _)) step
  | chdir now path => exact keeps kChdir_sameHost step
  | symlink now target linkpath => exact keeps (host_of_tables (kSymlink_tables _ _)) step
  | mkdir now path => exact keeps (host_of_tables (kMkdir_tables _)) step
  | rmdir now path => exact keeps (host_of_tables (kRmdir_tables _)) step
  | rename now oldpath newpath => exact keeps (host_of_tables (kRename_tables _ _)) step

end Calls

end PennOs.Fat
