import PennOs.Fat.FailedCreations
import PennOs.Fat.OpenBindings
import PennOs.Fat.TreeAgreement

set_option autoImplicit false

/- What the binding of open files to their slots is good for: calls return, and a write reaches one
file. -/
namespace PennOs.Fat

open Prog (Keeps)
open Image (KeepsAll)
open Fs

namespace Fs

/-- What a write through `fd` may change: the contents of the file in the slot with the key `inode`,
and what the tables know about it. -/
structure WroteOnly (s t : Fs) (fd inode : Nat) : Prop where
  entry : ∀ d q, t.disk.Entry d q ↔ s.disk.Entry d q
  dirent : ∀ d q, s.disk.Entry d q → t.disk.dirent q = s.disk.dirent q
  contents : ∀ d q, s.disk.Entry d q → pseudoInode q.1 q.2 ≠ inode →
    SameContents s.disk t.disk (s.disk.firstOf q)
  files : ∀ i, i ≠ (s.gFdTable fd).sysfileIndex → t.gSysfileTable i = s.gSysfileTable i
  descriptors : ∀ x, x ≠ fd → t.gFdTable x = s.gFdTable x

end Fs

variable {s t : Fs} {I J : Image} {c d x fd : Nat} {p q : Nat × Nat} {call : Call}

section Sizes

/-- The blocks of the volume have the size they had. -/
def SameSize (s t : Fs) : Prop := t.gBlockSize = s.gBlockSize

instance SameSize.refl : Std.Refl SameSize := ⟨fun _ => rfl⟩

instance SameSize.trans : IsTrans Fs SameSize := ⟨fun _ _ _ first second => Eq.trans second first⟩

theorem OnlyHost.keepsSize {α : Type} {call : FsM α} (keeps : Keeps OnlyHost call) : Keeps SameSize call :=
  fun s a t run => (keeps s a t run).framed.gBlockSize

theorem fatSet_size (index value : Nat) : Keeps SameSize (fatSet index value) := by
  intro s a t run
  unfold fatSet at run
  split at run
  · cases run
    rfl
  · cases run

theorem hostCall_size : Keeps SameSize hostCall := by
  intro s a t run
  unfold hostCall at run
  split at run
  · cases run
    rfl
  · cases run
    rfl

theorem writeBlock_size (buf : Buffer) (b : Nat) : Keeps SameSize (writeBlock buf b) := by
  have host := OnlyHost.keepsSize hostOk_host
  unfold writeBlock
  refine .bind .get fun s => .ite (fun _ => .pure _) fun _ => ?_
  refine .bind host fun sought => .ite (fun _ => .pure _) fun _ => ?_
  refine .bind hostCall_size fun outcome => ?_
  cases outcome with
  | failed => exact .pure _
  | short count =>
      refine .ite (fun _ => ?_) fun _ => .pure _
      exact .bind (.modify fun _ => rfl) fun _ => .pure _
  | done => exact .ite (fun _ => .pure _) fun _ => .bind (.modify fun _ => rfl) fun _ => host

theorem locateLoop_size (count current : Nat) : Keeps SameSize (locateLoop count current) := by
  intro s a t run
  obtain ⟨table, host, rfl⟩ := (locateLoop_only count current s a t run).image
  rfl

theorem allocateScan_size (count index : Nat) : Keeps SameSize (allocateScan count index) := by
  induction count generalizing index with
  | zero => exact .pure _
  | succ count ih =>
      unfold allocateScan
      refine .bind (OnlyHost.keepsSize (fatGet_host index)) fun entry => ?_
      refine .ite (fun _ => ?_) fun _ => ih (index + 1)
      exact .bind (fatSet_size index fatEoc) fun _ => .pure _

theorem lastInChain_size (fuel last : Nat) : Keeps SameSize (lastInChain fuel last) := by
  induction fuel generalizing last with
  | zero => exact .fault
  | succ fuel ih =>
      unfold lastInChain
      refine .bind (OnlyHost.keepsSize (fatGet_host last)) fun next => ?_
      exact .ite (fun _ => .pure _) fun _ => ih next

theorem blockForWrite_size (first offset : Nat) : Keeps SameSize (blockForWrite first offset) := by
  have located : Keeps SameSize (locateBlockInChain first offset) := by
    unfold locateBlockInChain
    refine .ite (fun _ => .pure _) fun _ => .bind .get fun s => ?_
    refine .bind (locateLoop_size _ first) fun found => ?_
    cases found <;> exact .pure _
  unfold blockForWrite
  refine .bind located fun found => ?_
  cases found with
  | some place => exact .pure _
  | none =>
      have extended : Keeps SameSize (extendChain first) := by
        unfold extendChain
        refine .bind (lastInChain_size _ first) fun last => ?_
        refine .bind (.bind .get fun _ => allocateScan_size _ _) fun taken => ?_
        cases taken with
        | none => exact .pure _
        | some newBlock => exact .bind (fatSet_size last newBlock) fun _ => .pure _
      refine .bind extended fun extended => ?_
      cases extended <;> exact .pure _

theorem advance_size (s : Fs) (now : UInt64) (fd chunk : Nat) : SameSize s (s.advance now fd chunk) :=
  (advance_image s now fd chunk).2.2

theorem writeLoop_size (now : UInt64) (fd : Nat) (buf : Buffer) (fuel total remain : Nat) :
    Keeps SameSize (writeLoop now fd buf fuel total remain) := by
  induction fuel generalizing total remain with
  | zero => exact .pure _
  | succ fuel ih =>
      unfold writeLoop
      refine .ite (fun _ => .pure _) fun _ => .bind .get fun s => ?_
      refine .bind (blockForWrite_size _ _) fun target => ?_
      cases target with
      | none => exact .pure _
      | some place =>
          refine .bind (OnlyHost.keepsSize (readBlock_host _)) fun read => ?_
          cases read with
          | none => exact .pure _
          | some blockBuf =>
              refine .bind (writeBlock_size _ _) fun done => .ite (fun _ => ?_) fun _ => .pure _
              exact .bind (.modify fun t => advance_size t now fd _) fun _ => ih _ _

theorem kWrite_size (now : UInt64) (fd : Int) (buf : Buffer) (n : Int) :
    Keeps SameSize (kWrite now fd buf n) := by
  unfold kWrite
  refine .bind .get fun s => .ite (fun _ => .pure _) fun _ => .ite (fun _ => .pure _) fun _ => ?_
  refine .ite (fun _ => .pure _) fun _ => ?_
  refine .bind (OnlyHost.keepsSize hostOk_host) fun room => .ite (fun _ => .pure _) fun _ => ?_
  exact .bind (writeLoop_size _ _ _ _ _ _) fun _ => .pure _

end Sizes

section Isolation

theorem Wrote.agrees (wrote : Wrote s I x t J) (file : ¬ I.dirs x) (wf : I.Wf) (slots : J.slots = I.slots) :
    Agrees I J := by
  have apart : ∀ {d}, I.dirs d → d ≠ x := by
    rintro d here rfl
    exact file here
  refine ⟨wrote.dirs, fun d here => wrote.chains d (apart here) (wf.dirHead d here), slots, ?_, ?_⟩
  · intro d q place
    rw [wrote.rows d (apart place.dir) q.1 place.block]
  · intro d q place _
    rw [wrote.rows d (apart place.dir) q.1 place.block]

theorem Fs.SameContents.refl {nodes : List Nat} (chain : s.Chain c nodes) : SameContents s s c :=
  ⟨nodes, chain, chain, fun _ => rfl⟩

theorem Binding.unwritten (binding : Binding s) (fd inode : Nat) : WroteOnly s s fd inode := by
  obtain ⟨I, shows, good, _⟩ := binding.standing.disk
  refine ⟨fun _ _ => Iff.rfl, fun _ _ _ => rfl, fun d q entry _ => ?_, fun _ _ => rfl, fun _ _ => rfl⟩
  obtain ⟨nodes, chain⟩ := (shows.blocksOwned good).entry d q entry
  exact .refl chain

/-- A write to the file of the slot `p`. -/
theorem Wrote.wroteOnly (wrote : Wrote s I x t J) (before : Resting .keepOpen s I)
    (after : Resting .keepOpen t J) (tables : WroteTables s t fd (s.gFdTable fd).sysfileIndex)
    (same : SameSize s t) (file : I.FileAt p x) : WroteOnly s t fd (pseudoInode p.1 p.2) := by
  have wf := before.good.wf
  have wf' := after.good.wf
  obtain ⟨d, link, isFile⟩ := file
  have sizes : t.disk.gBlockSize = s.disk.gBlockSize := by
    rw [before.disk_blockSize, after.disk_blockSize]
    exact same
  have slots : J.slots = I.slots := by
    rw [after.disk.slots, before.disk.slots, entriesPerBlock, entriesPerBlock, sizes]
  have agrees := wrote.agrees isFile wf slots
  refine ⟨fun d q => ⟨fun entry => (agrees.symm.entry after.disk wf' before.disk wf entry).1,
    fun entry => (agrees.entry before.disk wf after.disk wf' entry).1⟩,
    fun d q entry => (agrees.entry before.disk wf after.disk wf' entry).2, ?_, tables.files,
      tables.descriptors⟩
  intro d' q entry other
  have link' := before.disk.holds wf entry
  have apart : s.disk.firstOf q ≠ x := by
    intro same
    rw [same] at link'
    rw [(wf.tree.unique d' q d p x link' link).2] at other
    exact other rfl
  have used := (wf.target d' q _ link').1
  have chain := wrote.chains _ apart used
  refine sameContents_of_blocks before.disk wf after.disk wf' used chain sizes fun b member => ?_
  rw [before.disk_block, after.disk_block]
  exact wrote.blocks _ apart b member

theorem Binding.write_only (binding : Binding s) (accounted : s.Accounted none) (now : UInt64) (fd : Int)
    (buf : Buffer) (n : Int) : Prog.Ensures (kWrite now fd buf n) s fun _ t =>
      WroteOnly s t fd.toNat (s.fileOf fd.toNat).dirIndex := by
  have stays := binding.unwritten fd.toNat (s.fileOf fd.toNat).dirIndex
  cases binding with
  | stored stored =>
      have unmounted := stored.unmounted
      unfold kWrite
      refine .get (.ite (fun _ => .pure stays) fun out => ?_)
      rw [unmounted] at out
      exact absurd rfl out
  | @mounted I resting bound =>
      have allowed : s.validFd fd = true → hasRead (s.gFdTable fd.toNat).mode = false →
          ¬ I.dirs (s.fileOf fd.toNat).firstBlock.toNat ∧
            I.chain (s.fileOf fd.toNat).firstBlock.toNat ≠ [] := by
        intro valid _
        obtain ⟨p, _, file⟩ := bound.file accounted valid
        exact file.used resting.good.wf
      obtain ⟨res, t, run, done⟩ := kWrite_tracks now fd buf n resting allowed
      refine .of_run run ?_
      rcases done with rfl | ⟨valid, _, J, rests, wrote, tables⟩
      · exact stays
      · obtain ⟨p, key, file⟩ := bound.file accounted valid
        rw [key]
        exact wrote.wroteOnly resting rests tables (kWrite_size now fd buf n s res t run) file

/-- In runs of calls that take no slot of an open file, `k_write` changes no file but the one its
descriptor was opened on. -/
theorem write_isolated (hostFiles : List UInt8 → Option HostFile) (fsName : List UInt8) (config : Int)
    (s : Fs) (host : HostSound .keepOpen hostFiles fsName) (low : 0 ≤ config) (high : config ≤ 4)
    (run : Run BindSound (freshVolume hostFiles fsName config) s) (now : UInt64) (fd : Int)
    (buf : Buffer) (n : Int) : Prog.Ensures (kWrite now fd buf n) s fun _ t =>
      WroteOnly s t fd.toNat (s.fileOf fd.toNat).dirIndex := by
  obtain ⟨binding, accounted⟩ := binding_run host low high run
  exact binding.write_only accounted now fd buf n

theorem openedFiles_run :
    Run BindSound (freshVolume (fun _ => none) imageA.bytes 0) ((runCalls openedFiles).after blankVolume) :=
  .of_calls (runCalls_after openedFiles_ends) openedFiles_sound

theorem write_isolated_openedFiles :
    Prog.Ensures (kWrite 4 0 (fun _ => 8) 3) ((runCalls openedFiles).after blankVolume) fun _ t =>
      WroteOnly ((runCalls openedFiles).after blankVolume) t 0
        (((runCalls openedFiles).after blankVolume).fileOf 0).dirIndex :=
  write_isolated _ imageA.bytes 0 _ (.empty (by decide)) (by decide) (by decide) openedFiles_run 4 0
    (fun _ => 8) 3

end Isolation

section Progress

/-- The loop of `k_read` on the chain of a file comes to an end. -/
theorem readLoop_returns {promised : Image.Promises} (resting : Resting promised s I) (used : I.chain x ≠ [])
    (first : (s.fileOf fd).firstBlock.toNat = x) (fuel remain : Nat) (acc : List UInt8) :
    Prog.Ensures (readLoop fd fuel remain acc) s fun _ _ => True := by
  induction fuel generalizing s remain acc with
  | zero => exact .pure trivial
  | succ fuel ih =>
      have chain := resting.tracks.chain resting.good.wf used
      have linked := chain.linked resting.tracks.ready
      unfold readLoop
      refine .ite (fun _ => .pure trivial) fun _ => .get ?_
      simp only [Fs.fileOf] at first
      simp only [first]
      by_cases within : (s.gFdTable fd).offset.toNat / s.gBlockSize ≤ (I.chain x).length
      · refine .step (locateBlockInChain_run linked used within) ?_
        cases found : (I.chain x)[(s.gFdTable fd).offset.toNat / s.gBlockSize]? with
        | none =>
            exact .step (readBlock_eoc resting.tracks.ready resting.tracks.volume.fits) (.pure trivial)
        | some b =>
            obtain ⟨_, high, _⟩ := resting.good.wf.inside x b (List.mem_of_getElem? found)
            refine .step (readBlock_run resting.tracks.ready (resting.tracks.inside high)) (.modify ?_)
            refine ih (resting.setFd fd _) ?_ _ _
            rw [Fs.fileOf, setFd_self]
            exact first
      · exact .step (locateBlockInChain_beyond linked used (Nat.lt_of_not_le within)) (.pure trivial)

theorem kLseek_returns (fd offset whence : Int) (s : Fs) :
    Prog.Ensures (kLseek fd offset whence) s fun _ _ => True := by
  unfold kLseek
  refine .get (.ite (fun _ => .pure trivial) fun _ => .ite (fun _ => .pure trivial) fun _ => ?_)
  dsimp only
  split
  · exact .pure trivial
  · exact .ite (fun _ => .pure trivial) fun _ => .modify (.pure trivial)

/-- A call that comes to an end is a step. -/
theorem step_of_ensures {α : Type} {p : FsM α} {post : α → Fs → Prop} (holds : Prog.Ensures p s post) :
    ∃ t, ignore p s = some ((), t) := by
  obtain ⟨a, t, run, _⟩ := holds
  exact ⟨t, Prog.bind_of_run run _⟩

theorem step_of_returns {α : Type} {p : FsM α} (returns : Prog.Ensures p s fun _ _ => True) :
    ∃ t, ignore p s = some ((), t) :=
  step_of_ensures returns

/-- A call on an unmounted volume. -/
theorem unmounted_returns {α : Type} {err : α} {rest : Fs → FsM α} (unmounted : s.gMounted = false) :
    ∃ t, ignore (do
      let s ← Prog.get
      if !s.gMounted then return err
      rest s) s = some ((), t) := by
  refine step_of_returns (.get (.ite (fun _ => .pure trivial) fun out => ?_))
  rw [unmounted] at out
  exact absurd rfl out

theorem Stored.steps {config : Nat} (stored : Stored .keepOpen s config I)
    (others : s.OthersSound .keepOpen) (sound : BindSound s call) : ∃ t, Step s call t := by
  have unmounted := stored.unmounted
  cases call with
  | mkfs fsName blocks size =>
      by_cases nameless : fsName.bytes = []
      · obtain ⟨err, same⟩ := kMkfs_nameless stored.host unmounted blocks size
        exact step_of_returns ⟨err, s, nameless ▸ same, trivial⟩
      by_cases count : blocks < 1 ∨ 32 < blocks
      · refine step_of_returns ⟨.invad, s, ?_, trivial⟩
        simp only [kMkfs, Prog.get_bind, unmounted, Bool.false_eq_true, count, ↓reduceIte, Prog.pure_run]
      by_cases large : size < 0 ∨ 4 < size
      · refine step_of_returns ⟨.invad, s, ?_, trivial⟩
        simp only [kMkfs, Prog.get_bind, unmounted, Bool.false_eq_true, count, large, ↓reduceIte,
          Prog.pure_run]
      obtain ⟨rfl, cwd⟩ := sound.1 unmounted (by omega) (by omega)
      exact step_of_returns
        ⟨.ok, _, kMkfs_run stored.host unmounted nameless (by omega) (by omega), trivial⟩
  | mount fsName =>
      by_cases there : s.opens false fsName.bytes = true
      · obtain ⟨config', J, stored', _⟩ := stored.useImage others there (sound.1 unmounted there)
        exact step_of_returns ⟨.ok, _, stored'.mount_run there, trivial⟩
      · have closed : s.opens false fsName.bytes = false := by simpa using there
        have missing := kMount_missing stored.host unmounted closed
        exact step_of_returns ⟨.internal, s, missing, trivial⟩
  | _ => exact unmounted_returns unmounted

theorem Resting.steps (resting : Resting .keepOpen s I) (bound : TablesBound s I)
    (accounted : s.Accounted none) (sound : BindSound s call) : ∃ t, Step s call t := by
  have flag : s.gMounted = true := resting.tracks.ready.flag
  have wf := resting.good.wf
  cases call with
  | mkfs fsName blocks config =>
      refine step_of_returns ⟨.unexpcmd, s, ?_, trivial⟩
      simp only [kMkfs, Prog.get_bind, flag, ↓reduceIte, Prog.pure_run]
  | mount fsName =>
      refine step_of_returns ⟨.unexpcmd, s, ?_, trivial⟩
      simp only [kMount, Prog.get_bind, flag, ↓reduceIte, Prog.pure_run]
  | unmount => exact step_of_ensures (kUnmount_run resting False.elim)
  | openFile now path mode =>
      exact step_of_ensures (kOpen_run resting accounted now path mode fun err d found here creates short =>
        (sound.1 flag creates).welcome resting found here short)
  | read fd n =>
      unfold Step Call.exec kRead
      refine step_of_returns (.get (.ite (fun _ => .pure trivial) fun _ => ?_))
      refine .ite (fun _ => .pure trivial) fun invalid => .ite (fun _ => .pure trivial) fun _ => ?_
      refine .ite (fun _ => .pure trivial) fun _ => .step (malloc_run resting.tracks.ready.host) ?_
      have valid : s.validFd fd = true := by simpa using invalid
      obtain ⟨p, _, file⟩ := bound.file accounted valid
      refine .ite (fun _ => .pure trivial) fun _ => ?_
      exact (readLoop_returns resting (file.used wf).2 rfl _ _ _).bind fun _ _ _ => .pure trivial
  | write now fd buf n =>
      exact step_of_ensures (kWrite_tracks now fd buf n resting fun valid _ => by
        obtain ⟨p, _, file⟩ := bound.file accounted valid
        exact file.used wf)
  | close fd => exact step_of_ensures (kClose_run resting fd)
  | lseek fd offset whence => exact step_of_ensures (kLseek_returns fd offset whence s)
  | unlink now path => exact step_of_ensures (kUnlink_run resting now path.bytes)
  | touch now path =>
      exact step_of_ensures (kTouch_run resting now path fun err d found here short =>
        (sound.1 flag).welcome resting found here short)
  | chmod now path perm => exact step_of_ensures (kChmod_run resting now path.bytes perm)
  | chdir now path => exact step_of_ensures (kChdir_run resting now path.bytes)
  | symlink now target linkpath =>
      exact step_of_ensures (kSymlink_run resting now target.bytes linkpath fun err d found here short =>
        (sound.1 flag).welcome resting found here short)
  | mkdir now path =>
      exact step_of_ensures (kMkdir_run resting now path fun err d found here short =>
        (sound.1 flag).welcome resting found here short)
  | rmdir now path =>
      exact step_of_ensures (kRmdir_run resting now path.bytes fun d p c found link here empty =>
        (sound.1 flag).droppable resting found link here empty)
  | rename now oldpath newpath =>
      exact step_of_ensures (kRename_run resting now oldpath.bytes newpath
        fun ds ps c err r found link target good => (sound.1 flag).movable resting found link target good)

/-- In runs of calls that take no slot of an open file every further such call returns: no loop over
the FAT runs in a circle or leaves the mapping. -/
theorem calls_return (hostFiles : List UInt8 → Option HostFile) (fsName : List UInt8) (config : Int) (s : Fs)
    (call : Call) (host : HostSound .keepOpen hostFiles fsName) (low : 0 ≤ config) (high : config ≤ 4)
    (run : Run BindSound (freshVolume hostFiles fsName config) s)
    (sound : BindSound s call) : ∃ t, Step s call t := by
  obtain ⟨binding, others, accounted⟩ := binding_others_run host low high run
  cases binding with
  | mounted resting bound => exact resting.steps bound accounted sound
  | stored stored => exact stored.steps others sound

theorem calls_return_openedFiles :
    ∃ t, Step ((runCalls openedFiles).after blankVolume) (.write 4 0 (fun _ => 8) 700) t :=
  calls_return _ imageA.bytes 0 _ _ (.empty (by decide)) (by decide) (by decide) openedFiles_run trivial

end Progress

end PennOs.Fat
