import PennOs.Fat.ReadOnly
import PennOs.Fat.RemovedDirectories
import PennOs.Fat.WriteRuns

set_option autoImplicit false

/- The permissions and the time in a directory entry while the file is opened, written, closed,
touched and changed, in any order. -/
namespace PennOs.Fat

open Prog (Hoare Keeps Ensures)
open Image (KeepsAll)
open Fs

/-- The path leads to the entry in the slot `p`. -/
def Fs.NamesFile (s : Fs) (now : UInt64) (path : List UInt8) (p : Nat × Nat) : Prop :=
  ∃ r, resolvePath now path s = some ((.ok, r), s) ∧ r.found = true ∧ r.isRoot = false ∧
    r.entryBlock = p.1 ∧ r.entryIndexInBlock = (p.2 : Nat)

/-- The descriptor was opened through the slot `p`, if it is open. -/
def Fs.OpenedAt (s : Fs) (fd : Int) (p : Nat × Nat) : Prop :=
  s.validFd fd = true → (s.fileOf fd.toNat).dirIndex = pseudoInode p.1 p.2

/-- One call on the file of the slot `p` when the clock shows `clock`; `clock'` is what the call read,
and `perms` the permissions a successful `k_chmod` set. -/
inductive FileStep (p : Nat × Nat) (s : Fs) (clock : UInt64) : Call → Fs → UInt64 → Option UInt8 → Prop
  | openFile {now : UInt64} {path : CStr} {mode : UInt32} {res : Except PennFatErr Nat} {t : Fs} :
      s.NamesFile now path.bytes p → clock ≤ now → kOpen now path.bytes mode s = some (res, t) →
      FileStep p s clock (.openFile now path mode) t now none
  | write {now : UInt64} {fd : Int} {buf : Buffer} {n : Int} {res : Except PennFatErr Nat} {t : Fs} :
      s.OpenedAt fd p → clock ≤ now → kWrite now fd buf n s = some (res, t) →
      FileStep p s clock (.write now fd buf n) t now none
  | close {fd : Int} {err : PennFatErr} {t : Fs} :
      s.OpenedAt fd p → kClose fd s = some (err, t) → FileStep p s clock (.close fd) t clock none
  | touch {now : UInt64} {path : CStr} {err : PennFatErr} {t : Fs} :
      s.NamesFile now path.bytes p → clock ≤ now → kTouch now path.bytes s = some (err, t) →
      FileStep p s clock (.touch now path) t now none
  | chmod {now : UInt64} {path : CStr} {perm : UInt8} {err : PennFatErr} {t : Fs} :
      s.NamesFile now path.bytes p → clock ≤ now → kChmod now path.bytes perm s = some (err, t) →
      FileStep p s clock (.chmod now path perm) t now (if err = .ok then some perm else none)

/-- A last close does not take a time back that is older than the stored one, and writes go through
descriptors whose table entry still names the file's chain. -/
def KeepsTime (p : Nat × Nat) (s : Fs) : Call → Prop
  | .close fd => s.validFd fd = true → (s.fileOf fd.toNat).refCount ≤ 1 →
      (s.fileOf fd.toNat).firstBlock = (s.dirent p).firstBlock →
      (s.dirent p).mtime ≤ (s.fileOf fd.toNat).mtime
  | .write _ fd _ _ => s.validFd fd = true → hasRead (s.gFdTable fd.toNat).mode = false →
      (s.fileOf fd.toNat).firstBlock = (s.dirent p).firstBlock
  | _ => True

/-- Calls on the file of the slot `p`, one after the other: the state, the clock and the permissions set
last. -/
inductive FileRun (sound : Fs → Call → Prop) (p : Nat × Nat) (s₀ : Fs) (clock₀ : UInt64) :
    Fs → UInt64 → UInt8 → Prop
  | start : FileRun sound p s₀ clock₀ s₀ clock₀ (s₀.dirent p).perm
  | step {s t : Fs} {clock clock' : UInt64} {perm : UInt8} {perms : Option UInt8} {call : Call} :
      FileRun sound p s₀ clock₀ s clock perm → sound s call → FileStep p s clock call t clock' perms →
      FileRun sound p s₀ clock₀ t clock' (perms.getD perm)

/-- No table entry of the file has a time that the clock has not shown. -/
def Fs.CachedBy (s : Fs) (p : Nat × Nat) (clock : UInt64) : Prop :=
  ∀ i < maxSystemFiles, (s.gSysfileTable i).inUse = true →
    (s.gSysfileTable i).dirIndex = pseudoInode p.1 p.2 → (s.gSysfileTable i).mtime ≤ clock

/-- What holds between two calls on the file. -/
structure FileKept (p : Nat × Nat) (s : Fs) (clock : UInt64) (perm : UInt8) : Prop where
  rests : ∃ I c, Resting .plain s I ∧ I.FileAt p c
  accounted : s.Accounted none
  perms : (s.dirent p).perm = perm
  stored : (s.dirent p).mtime ≤ clock
  cached : s.CachedBy p clock

variable {p : Nat × Nat} {s t u : Fs} {I J : Image} {c d index : Nat} {clock clock' now : UInt64}
  {perm : UInt8} {path : List UInt8} {e : DirEntry}

section Entries

theorem Resting.dirent_file (resting : Resting .plain s I) (file : I.FileAt p c) :
    s.dirent p = I.slot p.1 p.2 := by
  obtain ⟨d, link, _⟩ := file
  obtain ⟨low, high, _⟩ := resting.good.wf.inside d p.1 link.block
  exact resting.tracks.shows.slot p.1 low high p.2 link.index

/-- What a path to the file is resolved to. -/
theorem Fs.NamesFile.foundAt (names : s.NamesFile now path p) (resting : Resting .plain s I) :
    ∃ d, resolvePath now path s = some ((.ok, I.foundAt d p), s) ∧ I.At d p ∧
      ∀ j < p.2, (I.slot p.1 j).name0 ≠ 0 := by
  obtain ⟨r, run, found, plain, block, index⟩ := names
  obtain ⟨err, r', run', resolved⟩ :=
    resolvePath_run resting.tracks resting.good.wf resting.cwd now path
  rw [run] at run'
  cases run'
  cases resolved with
  | slash => cases plain
  | dir name d parent mtime here above at_ =>
      have negative : (-1 : Int) = p.2 := index
      omega
  | missing err d here kind => cases found
  | nothing err => cases found
  | entry d q place live named before =>
      have block' : q.1 = p.1 := block
      have index' : (q.2 : Int) = p.2 := index
      obtain rfl : q = p := Prod.ext block' (by omega)
      exact ⟨d, run, place, before⟩

/-- The entry of the file is written over by one with its name, type and first block. -/
theorem Resting.rewrite (resting : Resting .plain s I) (file : I.FileAt p c)
    (name : e.name = (s.dirent p).name) (type : e.type = (s.dirent p).type)
    (first : e.firstBlock = (s.dirent p).firstBlock) :
    writeDirent p.1 p.2 e s = some (.ok, s.putDirent p e) ∧ (s.putDirent p e).dirent p = e ∧
      ∃ J, Resting .plain (s.putDirent p e) J ∧ J.FileAt p c := by
  have row := resting.dirent_file file
  obtain ⟨d, link, out⟩ := file
  obtain ⟨low, high, _⟩ := resting.good.wf.inside d p.1 link.block
  rw [row] at name type first
  have same : e.cName = (I.slot p.1 p.2).cName := by
    rw [DirEntry.cName, DirEntry.cName, name]
  obtain ⟨run, rests, keeps⟩ := resting.setMeta_run low high link.index link.live same type first
  have file' : (I.setSlot p e).FileAt p c := keeps.fileAt ⟨d, link, out⟩ id
  refine ⟨run, ?_, _, rests, file'⟩
  rw [rests.dirent_file file', I.setSlot_self]

theorem Fs.CachedBy.of_tables (cached : s.CachedBy p clock) (same : SameTables s t) (later : clock ≤ clock') :
    t.CachedBy p clock' := by
  intro i low used inode
  rw [same.files] at used inode ⊢
  exact UInt64.le_trans (cached i low used inode) later

/-- A state with an entry of the file that differs in its permissions and its time. -/
theorem FileKept.rewritten (kept : FileKept p s clock perm) (later : clock ≤ now)
    (name : e.name = (s.dirent p).name) (type : e.type = (s.dirent p).type)
    (first : e.firstBlock = (s.dirent p).firstBlock) (time : e.mtime = now) :
    writeDirent p.1 p.2 e s = some (.ok, s.putDirent p e) ∧ FileKept p (s.putDirent p e) now e.perm ∧
      (s.dirent p).mtime ≤ ((s.putDirent p e).dirent p).mtime := by
  obtain ⟨I, c, resting, file⟩ := kept.rests
  obtain ⟨run, row, J, rests, file'⟩ := resting.rewrite file name type first
  refine ⟨run, ⟨⟨J, c, rests, file'⟩, ?_, ?_, ?_, ?_⟩, ?_⟩
  · exact kept.accounted.of_refs (SameTables.putDirent s p e).refs
  · rw [row]
  · rw [row, time]
    exact UInt64.le_refl _
  · exact kept.cached.of_tables (.putDirent s p e) later
  · rw [row, time]
    exact UInt64.le_trans kept.stored later

theorem FileKept.later (kept : FileKept p s clock perm) (later : clock ≤ now) : FileKept p s now perm :=
  ⟨kept.rests, kept.accounted, kept.perms, UInt64.le_trans kept.stored later,
    kept.cached.of_tables (.refl s) later⟩

end Entries

section Paths

theorem kTouch_file (kept : FileKept p s clock perm) (later : clock ≤ now) (names : s.NamesFile now path p)
    {err : PennFatErr} (run : kTouch now path s = some (err, t)) :
    FileKept p t now perm ∧ (s.dirent p).mtime ≤ (t.dirent p).mtime := by
  obtain ⟨I, c, resting, file⟩ := kept.rests
  obtain ⟨d, resolving, _⟩ := names.foundAt resting
  have row := resting.dirent_file file
  have stays : FileKept p s now perm ∧ (s.dirent p).mtime ≤ (s.dirent p).mtime :=
    ⟨kept.later later, UInt64.le_refl _⟩
  obtain ⟨writing, kept', time⟩ :=
    kept.rewritten (e := { s.dirent p with mtime := now }) later rfl rfl rfl rfl
  unfold kTouch at run
  rw [Prog.get_bind] at run
  split at run
  · cases run
    exact stays
  split at run
  · cases run
    exact stays
  rw [Prog.bind_of_run resolving] at run
  dsimp only at run
  have found : (I.foundAt d p).found = true := rfl
  have plain : ¬ (I.foundAt d p).isRoot = true := nofun
  rw [if_neg (by simp), if_pos found, if_neg plain] at run
  have entry : (I.foundAt d p).entry = s.dirent p := row.symm
  rw [entry] at run
  have same := writing.symm.trans run
  cases same
  exact ⟨⟨kept'.rests, kept'.accounted, kept'.perms.trans kept.perms, kept'.stored, kept'.cached⟩, time⟩

theorem kChmod_file {new : UInt8} (kept : FileKept p s clock perm) (later : clock ≤ now)
    (names : s.NamesFile now path p) {err : PennFatErr} (run : kChmod now path new s = some (err, t)) :
    FileKept p t now (if err = .ok then new else perm) ∧ (s.dirent p).mtime ≤ (t.dirent p).mtime := by
  obtain ⟨I, c, resting, file⟩ := kept.rests
  obtain ⟨d, resolving, _⟩ := names.foundAt resting
  have row := resting.dirent_file file
  have stays : ∀ err : PennFatErr, err ≠ .ok →
      FileKept p s now (if err = .ok then new else perm) ∧ (s.dirent p).mtime ≤ (s.dirent p).mtime := by
    intro err bad
    rw [if_neg bad]
    exact ⟨kept.later later, UInt64.le_refl _⟩
  obtain ⟨writing, kept', time⟩ :=
    kept.rewritten (e := { s.dirent p with perm := new, mtime := now }) later rfl rfl rfl rfl
  unfold kChmod at run
  rw [Prog.get_bind] at run
  split at run
  · cases run
    exact stays _ nofun
  split at run
  · cases run
    exact stays _ nofun
  split at run
  · cases run
    exact stays _ nofun
  rw [Prog.bind_of_run resolving] at run
  dsimp only at run
  rw [if_neg (by simp), if_neg (by simp [Image.foundAt])] at run
  have entry : (I.foundAt d p).entry = s.dirent p := row.symm
  rw [entry] at run
  have same := writing.symm.trans run
  cases same
  exact ⟨kept', time⟩

end Paths

section Descriptors

theorem pseudoInode_place (bound : p.2 < 65536) (bound' : p.1 < 65536) :
    pseudoInode p.1 p.2 / 65536 % 65536 = p.1 ∧ pseudoInode p.1 p.2 % 65536 = p.2 := by
  have key : pseudoInode p.1 p.2 = p.1 * 65536 + p.2 := by
    simp only [pseudoInode]
    rw [if_neg (by omega)]
    rfl
  rw [key]
  omega

/-- After the last reference to a table entry of the file was given back. -/
structure Flushed (p : Nat × Nat) (s : Fs) (sf : SystemFile) (t : Fs) : Prop where
  rests : ∃ J c, Resting .plain t J ∧ J.FileAt p c
  tables : SameTables s t
  perm : (t.dirent p).perm = (s.dirent p).perm
  time : (t.dirent p).mtime = (s.dirent p).mtime ∨
    (sf.firstBlock = (s.dirent p).firstBlock ∧ (t.dirent p).mtime = sf.mtime)

theorem flush_file (resting : Resting .plain s I) (file : I.FileAt p c) {sf : SystemFile}
    (inode : sf.dirIndex = pseudoInode p.1 p.2) :
    Ensures (flushSysfile sf) s fun _ t => Flushed p s sf t := by
  have row := resting.dirent_file file
  have stays : Flushed p s sf s := ⟨⟨I, c, resting, file⟩, .refl s, rfl, .inl rfl⟩
  have file' := file
  obtain ⟨d, link, _⟩ := file'
  obtain ⟨low, high, _⟩ := resting.good.wf.inside d p.1 link.block
  have bounds := resting.tracks.blocks_bounds
  have slots : I.slots ≤ 64 := by
    have size := resting.tracks.ready.blockSize_bounds
    rw [resting.tracks.shows.slots, entriesPerBlock]
    omega
  have index := link.index
  obtain ⟨block, place⟩ := pseudoInode_place (p := p) (by omega) (by omega)
  unfold flushSysfile
  rw [inode, block, place]
  refine .step (readDirent_run resting.tracks low high index) (.ite (fun same => ?_) fun _ => .pure stays)
  rw [← row] at same ⊢
  obtain ⟨writing, entry, J, rests, kept⟩ := resting.rewrite file
    (e := { s.dirent p with size := sf.size, mtime := sf.mtime }) rfl rfl rfl
  refine .step writing (.pure ⟨⟨J, c, rests, kept⟩, .putDirent s p _, ?_, .inr ⟨same.2.symm, ?_⟩⟩)
  · rw [entry]
  · rw [entry]

/-- A reference to a table entry of the file is given back. -/
structure GivenBack (p : Nat × Nat) (s : Fs) (index : Nat) (t : Fs) : Prop where
  rests : ∃ J c, Resting .plain t J ∧ J.FileAt p c
  others : ∀ i, (t.gSysfileTable i).inUse = true → (s.gSysfileTable i).inUse = true ∧
    (t.gSysfileTable i).dirIndex = (s.gSysfileTable i).dirIndex ∧
    (t.gSysfileTable i).mtime = (s.gSysfileTable i).mtime
  perm : (t.dirent p).perm = (s.dirent p).perm
  time : (t.dirent p).mtime = (s.dirent p).mtime ∨
    (index < maxSystemFiles ∧ (s.gSysfileTable index).inUse = true ∧ (s.gSysfileTable index).refCount ≤ 1 ∧
      (s.gSysfileTable index).firstBlock = (s.dirent p).firstBlock ∧
      (t.dirent p).mtime = (s.gSysfileTable index).mtime)

theorem release_file (resting : Resting .plain s I) (file : I.FileAt p c)
    (inode : (s.gSysfileTable index).dirIndex = pseudoInode p.1 p.2) :
    Ensures (releaseSysfileEntry index) s fun _ t => GivenBack p s index t := by
  unfold releaseSysfileEntry
  refine .get (.ite (fun _ => .pure ?_) fun used => .modify (.ite (fun last => ?_) fun more => .pure ?_))
  · exact ⟨⟨I, c, resting, file⟩, fun _ inUse => ⟨inUse, rfl, rfl⟩, rfl, .inl rfl⟩
  · have inUse : (s.gSysfileTable index).inUse = true := by
      by_contra unused
      exact used (.inr (by simpa using unused))
    have low : index < maxSystemFiles := by
      by_contra past
      exact used (.inl (by omega))
    refine (flush_file (resting.setSysfile index _) file inode).bind ?_
    rintro _ t ⟨⟨J, c', rests, file'⟩, tables, perm, time⟩
    refine .of_run (Prog.modify_run _ _) ⟨⟨J, c', rests.setSysfile index .zero, file'⟩, ?_, perm, ?_⟩
    · intro i inUse'
      by_cases here : i = index
      · subst here
        rw [setSysfile_self] at inUse'
        cases inUse'
      · rw [setSysfile_ne _ _ here, tables.files, setSysfile_ne _ _ here] at inUse' ⊢
        exact ⟨inUse', rfl, rfl⟩
    · exact time.imp id fun ⟨first, time⟩ => ⟨low, inUse, by omega, first, time⟩
  · refine ⟨⟨I, c, resting.setSysfile index _, file⟩, fun i inUse => ?_, rfl, .inl rfl⟩
    by_cases here : i = index
    · subst here
      rw [setSysfile_self] at inUse ⊢
      exact ⟨inUse, rfl, rfl⟩
    · rw [setSysfile_ne _ _ here] at inUse ⊢
      exact ⟨inUse, rfl, rfl⟩

theorem GivenBack.kept (back : GivenBack p s index t) (accounted : t.Accounted none)
    (perms : (s.dirent p).perm = perm) (stored : (s.dirent p).mtime ≤ clock) (cached : s.CachedBy p clock)
    (inode : (s.gSysfileTable index).dirIndex = pseudoInode p.1 p.2) : FileKept p t clock perm := by
  refine ⟨back.rests, accounted, back.perm.trans perms, ?_, ?_⟩
  · rcases back.time with same | ⟨low, inUse, _, _, time⟩
    · rw [same]
      exact stored
    · rw [time]
      exact cached index low inUse inode
  · intro i low inUse same
    obtain ⟨inUse', inode', time⟩ := back.others i inUse
    rw [time]
    exact cached i low inUse' (inode' ▸ same)

theorem kClose_file (kept : FileKept p s clock perm) {fd : Int} (opened : s.OpenedAt fd p)
    (keeps : KeepsTime p s (.close fd)) {err : PennFatErr} (run : kClose fd s = some (err, t)) :
    FileKept p t clock perm ∧ (s.dirent p).mtime ≤ (t.dirent p).mtime := by
  obtain ⟨I, c, resting, file⟩ := kept.rests
  have accounted := kClose_accounted fd s err t kept.accounted run
  unfold kClose at run
  rw [Prog.get_bind] at run
  split at run
  · cases run
    exact ⟨kept, UInt64.le_refl _⟩
  split at run
  · cases run
    exact ⟨kept, UInt64.le_refl _⟩
  next valid =>
  have valid' : s.validFd fd = true := by simpa using valid
  rw [Prog.modify_bind] at run
  have inode := opened valid'
  obtain ⟨_, u, releasing, back⟩ := @release_file p _ _ _ ((s.gFdTable fd.toNat).sysfileIndex)
    (resting.setFd fd.toNat { s.gFdTable fd.toNat with inUse := false }) file inode
  rw [Prog.bind_of_run releasing] at run
  cases run
  refine ⟨back.kept accounted kept.perms kept.stored kept.cached inode, ?_⟩
  rcases back.time with same | ⟨_, _, few, first, time⟩
  · rw [same]
    exact UInt64.le_refl _
  · rw [time]
    exact keeps valid' few first

/-- Table entries that are stamped get the time of the call. -/
structure Stamps (now : UInt64) (s t : Fs) : Prop where
  files : ∀ i, (t.gSysfileTable i).inUse = (s.gSysfileTable i).inUse ∧
    (t.gSysfileTable i).dirIndex = (s.gSysfileTable i).dirIndex ∧
    ((t.gSysfileTable i).mtime = (s.gSysfileTable i).mtime ∨ (t.gSysfileTable i).mtime = now)

instance : Std.Refl (Stamps now) := ⟨fun _ => ⟨fun _ => ⟨rfl, rfl, .inl rfl⟩⟩⟩

instance : IsTrans Fs (Stamps now) where
  trans s t u first second := by
    refine ⟨fun i => ?_⟩
    obtain ⟨used, inode, time⟩ := first.files i
    obtain ⟨used', inode', time'⟩ := second.files i
    exact ⟨used'.trans used, inode'.trans inode, time'.elim (fun same => time.imp same.trans same.trans) .inr⟩

theorem SameTables.stamps (same : SameTables s t) : Stamps now s t :=
  ⟨fun i => by rw [same.files]; exact ⟨rfl, rfl, .inl rfl⟩⟩

theorem advance_stamps (s : Fs) (now : UInt64) (fd chunk : Nat) : Stamps now s (s.advance now fd chunk) := by
  refine ⟨fun i => ?_⟩
  unfold advance
  dsimp only
  split
  · by_cases here : i = (s.gFdTable fd).sysfileIndex
    · subst here
      rw [setSysfile_self]
      exact ⟨rfl, rfl, .inr rfl⟩
    · rw [setSysfile_ne _ _ here]
      exact ⟨rfl, rfl, .inl rfl⟩
  · exact ⟨rfl, rfl, .inl rfl⟩

theorem kWrite_stamps (now : UInt64) (fd : Int) (buf : Buffer) (n : Int) :
    Keeps (Stamps now) (kWrite now fd buf n) := by
  have lift : ∀ {α : Type} {p : FsM α}, Keeps SameTables p → Keeps (Stamps now) p :=
    fun keeps s a t run => (keeps s a t run).stamps
  unfold kWrite
  refine .bind .get fun s => .ite (fun _ => .pure _) fun _ => .ite (fun _ => .pure _) fun _ => ?_
  refine .ite (fun _ => .pure _) fun _ => ?_
  refine .bind (lift malloc_tables) fun room => .ite (fun _ => .pure _) fun _ => ?_
  exact .bind (writeLoop_preserves now _ buf (fun _ _ same => same.stamps)
    (fun t chunk => advance_stamps t now _ chunk) _ _ _) fun _ => .pure _

theorem kWrite_file (kept : FileKept p s clock perm) (later : clock ≤ now) {fd n : Int} {buf : Buffer}
    (keeps : KeepsTime p s (.write now fd buf n)) {res : Except PennFatErr Nat}
    (run : kWrite now fd buf n s = some (res, t)) :
    FileKept p t now perm ∧ (s.dirent p).mtime ≤ (t.dirent p).mtime := by
  obtain ⟨I, c, resting, file⟩ := kept.rests
  have row := resting.dirent_file file
  have file' := file
  obtain ⟨d, link, out⟩ := file'
  have first : s.validFd fd = true → hasRead (s.gFdTable fd.toNat).mode = false →
      (s.fileOf fd.toNat).firstBlock.toNat = c := by
    intro valid writes
    rw [keeps valid writes, row]
    exact link.first
  have used := (resting.good.wf.target d p c link).1
  have stamps := kWrite_stamps now fd buf n s res t run
  have accounted := accounted_of_keeps (kWrite_refs now fd buf n) s res t kept.accounted run
  have cached : t.CachedBy p now := by
    intro i low inUse inode
    obtain ⟨inUse', inode', time⟩ := stamps.files i
    rcases time with same | stamped
    · rw [same]
      exact UInt64.le_trans (kept.cached i low (inUse' ▸ inUse) (inode' ▸ inode)) later
    · rw [stamped]
      exact UInt64.le_refl _
  rcases (kWrite_tracks now fd buf n resting fun valid writes =>
    first valid writes ▸ ⟨out, used⟩).of_eq run with rfl | ⟨valid, writes, J, rests, wrote, _⟩
  · exact ⟨kept.later later, UInt64.le_refl _⟩
  rw [first valid writes] at wrote
  have apart : d ≠ c := fun same => out (same ▸ link.dir)
  have same : t.dirent p = s.dirent p := by
    rw [Fs.dirent, Fs.dirent, wrote.blocks d apart p.1 link.block]
  refine ⟨⟨⟨J, c, rests, wrote.keeps.fileAt file id⟩, accounted, ?_, ?_, cached⟩, ?_⟩
  · rw [same, kept.perms]
  · rw [same]
    exact UInt64.le_trans kept.stored later
  · rw [same]
    exact UInt64.le_refl _

end Descriptors

section Opening

variable {mode : UInt32} {r : ResolvedPath} {res : Except PennFatErr Nat}

/-- After a descriptor was asked for on the file: the time in the entry is the one it had. -/
structure Offered (p : Nat × Nat) (s : Fs) (clock : UInt64) (t : Fs) : Prop where
  rests : ∃ J c, Resting .plain t J ∧ J.FileAt p c
  cached : t.CachedBy p clock
  perm : (t.dirent p).perm = (s.dirent p).perm
  time : (t.dirent p).mtime = (s.dirent p).mtime

theorem GivenBack.offered (back : GivenBack p s index t) (cached : s.CachedBy p clock)
    (same : (s.gSysfileTable index).refCount ≤ 1 → (s.gSysfileTable index).mtime = (s.dirent p).mtime) :
    Offered p s clock t := by
  refine ⟨back.rests, fun i low inUse inode => ?_, back.perm, ?_⟩
  · obtain ⟨inUse', inode', time⟩ := back.others i inUse
    rw [time]
    exact cached i low inUse' (inode' ▸ inode)
  · rcases back.time with kept | ⟨_, _, few, _, time⟩
    · exact kept
    · rw [time, same few]

/-- A reference that no descriptor is free for is given back; it is the last one only where the entry
is new. -/
theorem assignFd_file (resting : Resting .plain s I) (file : I.FileAt p c) (cached : s.CachedBy p clock)
    (inode : (s.gSysfileTable index).dirIndex = pseudoInode p.1 p.2)
    (same : (s.gSysfileTable index).refCount ≤ 1 → (s.gSysfileTable index).mtime = (s.dirent p).mtime)
    (size : UInt32) : Ensures (assignFd index mode size) s fun _ t => Offered p s clock t := by
  unfold assignFd
  refine .get ?_
  cases s.freeFd with
  | some fd => exact .modify (.pure ⟨⟨I, c, resting.setFd fd _, file⟩, cached, rfl, rfl⟩)
  | none =>
      obtain ⟨_, t, run, back⟩ := release_file resting file inode
      exact .step run (.pure (back.offered cached same))

theorem openCurrent_file (resting : Resting .plain s I) (file : I.FileAt p c) (accounted : s.Accounted none)
    (stored : (s.dirent p).mtime ≤ clock) (cached : s.CachedBy p clock)
    (key : pseudoInode r.entryBlock r.entryIndexInBlock = pseudoInode p.1 p.2)
    (time : r.entry.mtime = (s.dirent p).mtime) :
    Ensures (openCurrent mode (.ok r)) s fun _ t => Offered p s clock t := by
  simp only [openCurrent]
  rw [key]
  cases found : s.findSysfile (pseudoInode p.1 p.2) with
  | some i =>
      obtain ⟨low, used, inode⟩ := findSysfile_some found
      have here : (s.countUp i).gSysfileTable i =
          { s.gSysfileTable i with refCount := (s.gSysfileTable i).refCount + 1 } := s.setSysfile_self i _
      have cached' : (s.countUp i).CachedBy p clock := by
        intro j bound inUse inode'
        by_cases same : j = i
        · subst same
          rw [here]
          exact cached j low used inode
        · rw [countUp, setSysfile_ne _ _ same] at inUse inode' ⊢
          exact cached j bound inUse inode'
      have some_ := (accounted.used i low).mp used
      refine .step (findAndIncrement_some found) ?_
      have inode' : ((s.countUp i).gSysfileTable i).dirIndex = pseudoInode p.1 p.2 := by
        rw [here]
        exact inode
      refine (assignFd_file (resting.setSysfile i _) file cached' inode' (fun few => ?_) _).mono
        fun _ _ offered => ⟨offered.rests, offered.cached, offered.perm, offered.time⟩
      rw [setSysfile_self] at few
      exact absurd few (by simp only; omega)
  | none =>
      refine .step (findAndIncrement_none found) ?_
      obtain ⟨i, free⟩ := accounted.freeSysfile
      have making : createSysfileEntryFromResolved r (pseudoInode p.1 p.2) s = some (some i, s.setSysfile i
          ⟨1, true, r.entry.firstBlock, r.entry.size, r.entry.mtime, pseudoInode p.1 p.2⟩) := by
        rw [createSysfileEntryFromResolved, Prog.get_bind, free]
        rfl
      refine .step making ?_
      dsimp only
      refine (@assignFd_file _ _ _ _ _ clock _ (resting.setSysfile i _) file
        (fun j low inUse inode => ?_) ?_ (fun _ => ?_) _).mono fun _ _ offered =>
        ⟨offered.rests, offered.cached, offered.perm, offered.time⟩
      · by_cases same : j = i
        · subst same
          rw [setSysfile_self, time]
          exact stored
        · rw [setSysfile_ne _ _ same] at inUse inode ⊢
          exact cached j low inUse inode
      · rw [setSysfile_self]
      · rw [setSysfile_self]
        exact time

theorem truncateFile_entry (now : UInt64) (r : ResolvedPath) :
    Hoare (fun _ => True) (truncateFile now r) fun result _ => ∀ r', result = .ok r' →
      r'.entry.perm = r.entry.perm ∧ r'.entry.mtime = now := by
  unfold truncateFile
  refine .seq (fun _ _ => True) (fun _ _ _ _ _ => trivial) fun _ => ?_
  refine .seq (fun _ _ => True) (fun _ _ _ _ _ => trivial) fun taken => ?_
  cases taken with
  | none => exact .pure fun _ _ _ => nofun
  | some first =>
      refine .seq (fun _ _ => True) (fun _ _ _ _ _ => trivial) fun err => ?_
      split
      · refine .pure fun _ _ r' same => ?_
        cases same
        exact ⟨rfl, rfl⟩
      · exact .seq (fun _ _ => True) (fun _ _ _ _ _ => trivial) fun _ => .pure fun _ _ _ => nofun

theorem openExisting_file (kept : FileKept p s clock perm) (later : clock ≤ now)
    (resting : Resting .plain s I) (file : I.FileAt p c)
    (link : I.Holds d p c) (out : ¬ I.dirs c) (before : ∀ j < p.2, (I.slot p.1 j).name0 ≠ 0) :
    Ensures (openExisting now mode (I.foundAt d p)) s fun _ t =>
      (∃ J c, Resting .plain t J ∧ J.FileAt p c) ∧ t.CachedBy p now ∧
        (t.dirent p).perm = (s.dirent p).perm ∧
        ((t.dirent p).mtime = (s.dirent p).mtime ∨ (t.dirent p).mtime = now) := by
  have row := resting.dirent_file file
  have stays : (∃ J c, Resting .plain s J ∧ J.FileAt p c) ∧ s.CachedBy p now ∧
      (s.dirent p).perm = (s.dirent p).perm ∧
      ((s.dirent p).mtime = (s.dirent p).mtime ∨ (s.dirent p).mtime = now) :=
    ⟨⟨I, c, resting, file⟩, (kept.later later).cached, rfl, .inl rfl⟩
  rw [openExisting_eq]
  refine .ite (fun _ => .pure stays) fun _ => .ite (fun _ => .pure stays) fun _ => ?_
  by_cases truncates : hasWrite mode = true ∧ (!hasAppend mode) = true
  · rw [openedEntry, if_pos truncates]
    obtain ⟨_, u, truncating, J, b, rfl, truncated⟩ := truncateFile_run resting now link out before
    obtain ⟨same, time⟩ := truncateFile_entry now (I.foundAt d p) s _ u trivial truncating _ rfl
    have row' := truncated.rests.dirent_file truncated.file
    have time' : (u.dirent p).mtime = now := by
      rw [row']
      exact time
    have same' : (u.dirent p).perm = (s.dirent p).perm := by
      rw [row', row]
      exact same
    refine .step truncating ((openCurrent_file truncated.rests truncated.file
      (kept.accounted.of_refs truncated.tables.refs) (time' ▸ UInt64.le_refl _)
      (kept.cached.of_tables truncated.tables later) rfl (time.trans time'.symm)).mono ?_)
    intro _ t offered
    exact ⟨offered.rests, offered.cached, offered.perm.trans same', .inr (offered.time.trans time')⟩
  · rw [openedEntry, if_neg truncates]
    have time : (I.foundAt d p).entry.mtime = (s.dirent p).mtime := congrArg DirEntry.mtime row.symm
    refine .step (Prog.pure_run _ s) ((openCurrent_file resting file kept.accounted
      (kept.later later).stored (kept.later later).cached rfl time).mono ?_)
    intro _ t offered
    exact ⟨offered.rests, offered.cached, offered.perm, .inl offered.time⟩

theorem kOpen_file (kept : FileKept p s clock perm) (later : clock ≤ now) (names : s.NamesFile now path p)
    (run : kOpen now path mode s = some (res, t)) :
    FileKept p t now perm ∧ (s.dirent p).mtime ≤ (t.dirent p).mtime := by
  obtain ⟨I, c, resting, file⟩ := kept.rests
  obtain ⟨d, resolving, place, before⟩ := names.foundAt resting
  have accounted := kOpen_accounted s res t kept.accounted run
  have stays : FileKept p s now perm ∧ (s.dirent p).mtime ≤ (s.dirent p).mtime :=
    ⟨kept.later later, UInt64.le_refl _⟩
  unfold kOpen at run
  rw [Prog.get_bind] at run
  split at run
  · cases run
    exact stays
  split at run
  · cases run
    exact stays
  split at run
  · cases run
    exact stays
  rw [Prog.bind_of_run resolving] at run
  dsimp only at run
  have found : (I.foundAt d p).found = true := rfl
  rw [if_neg (by simp), if_pos found] at run
  obtain ⟨d', link, out⟩ := file
  have link' : I.Holds d p c := ⟨place, link.live, fun isDot => ?_, link.first⟩
  · obtain ⟨_, u, opening, rests, cached, same, time⟩ :=
      @openExisting_file _ _ _ _ _ _ _ _ mode kept later resting ⟨d', link, out⟩ link' out before
    rw [opening] at run
    cases run
    refine ⟨⟨rests, accounted, same.trans kept.perms, ?_, cached⟩, ?_⟩
    · rcases time with old | new
      · rw [old]
        exact (kept.later later).stored
      · rw [new]
        exact UInt64.le_refl _
    · rcases time with old | new
      · rw [old]
        exact UInt64.le_refl _
      · rw [new]
        exact (kept.later later).stored
  · have same := resting.good.wf.apart link.block place.block
    exact link.named (same ▸ isDot)

end Opening

section Runs

theorem fileStep_kept {call : Call} {perms : Option UInt8} (kept : FileKept p s clock perm)
    (keeps : KeepsTime p s call) (step : FileStep p s clock call t clock' perms) :
    FileKept p t clock' (perms.getD perm) ∧ (s.dirent p).mtime ≤ (t.dirent p).mtime := by
  cases step with
  | openFile names later run => exact kOpen_file kept later names run
  | write opened later run => exact kWrite_file kept later keeps run
  | close opened run => exact kClose_file kept opened keeps run
  | touch names later run => exact kTouch_file kept later names run
  | chmod names later run =>
      obtain ⟨kept', time⟩ := kChmod_file kept later names run
      refine ⟨?_, time⟩
      split at kept'
      · next ok =>
          rw [if_pos ok]
          exact kept'
      · next bad =>
          rw [if_neg bad]
          exact kept'

theorem FileRun.kept {s₀ : Fs} {clock₀ : UInt64} (start : FileKept p s₀ clock₀ (s₀.dirent p).perm)
    (run : FileRun (KeepsTime p) p s₀ clock₀ s clock perm) : FileKept p s clock perm := by
  induction run with
  | start => exact start
  | step _ keeps step ih => exact (fileStep_kept ih keeps step).1

/-- In runs of such calls the permissions are those set last, and no call sets the time back. -/
theorem metadata_kept (hostFiles : List UInt8 → Option HostFile) (fsName : List UInt8) (config : Int)
    (host : HostSound .plain hostFiles fsName) (low : 0 ≤ config) (high : config ≤ 4) (s₀ : Fs)
    (reached : Run (Guarded .plain) (freshVolume hostFiles fsName config) s₀)
    (mounted : s₀.gMounted = true) (d : Nat) (p : Nat × Nat) (entry : s₀.disk.Entry d p)
    (type : (s₀.disk.dirent p).type ≠ DirEntry.typeDirectory) (clock₀ : UInt64)
    (stored : (s₀.dirent p).mtime ≤ clock₀) (cached : s₀.CachedBy p clock₀) (s : Fs) (clock : UInt64)
    (perm : UInt8) (run : FileRun (KeepsTime p) p s₀ clock₀ s clock perm) :
    (s.dirent p).perm = perm ∧ ∀ call t clock' perms, KeepsTime p s call →
      FileStep p s clock call t clock' perms →
        (t.dirent p).perm = perms.getD perm ∧ (s.dirent p).mtime ≤ (t.dirent p).mtime := by
  obtain ⟨standing, accounted⟩ := guarded_run host low high reached
  have start : FileKept p s₀ clock₀ (s₀.dirent p).perm := by
    cases standing with
    | stored stored =>
        rw [stored.unmounted] at mounted
        cases mounted
    | @mounted I resting =>
        have wf := resting.good.wf
        have link := resting.disk.holds wf entry
        have row := resting.disk.row wf entry.toSlot
        have out : ¬ I.dirs (s₀.disk.firstOf p) := by
          intro here
          rw [row] at type
          exact type ((wf.target d p _ link).2.mpr here)
        exact ⟨⟨I, _, resting, d, link, out⟩, accounted, rfl, stored, cached⟩
  have kept := run.kept start
  refine ⟨kept.perms, fun call t clock' perms keeps step => ?_⟩
  obtain ⟨kept', time⟩ := fileStep_kept kept keeps step
  exact ⟨kept'.perms, time⟩

end Runs

section Examples

theorem namesFile_of_value (host : s.host = []) (value : (resolvePath now path s).map (fun x => (x.1.1,
      x.1.2.found, x.1.2.isRoot, x.1.2.entryBlock, x.1.2.entryIndexInBlock)) =
        some (.ok, true, false, p.1, (p.2 : Int))) : s.NamesFile now path p := by
  obtain ⟨⟨⟨err, r⟩, u⟩, run, same⟩ := Option.map_eq_some_iff.mp value
  obtain rfl := (resolvePath_host path s _ u run).eq host
  simp only [Prod.mk.injEq] at same
  obtain ⟨rfl, found, plain, block, index⟩ := same
  exact ⟨r, run, found, plain, block, index⟩

/-- "a" is made at 1, and a descriptor on it stays open. -/
def openedFile : Fs := (runCalls [.openFile 1 (.literal [97]) 0x5]).after blankVolume

theorem openedFile_ready : Run (Guarded .plain) (freshVolume (fun _ => none) imageA.bytes 0) openedFile ∧
    openedFile.disk.Entry 1 (1, 0) ∧ openedFile.CachedBy (1, 0) 1 := by
  refine ⟨.of_calls (runCalls_after (by decide +kernel)) ⟨fun _ _ => createsSound_plain _ _ _, trivial⟩,
    ⟨⟨.root, .start, by decide +kernel⟩, by decide +kernel, fun isDot => isDot.1 rfl⟩, ?_⟩
  have early : ∀ i < maxSystemFiles, (openedFile.gSysfileTable i).mtime ≤ 1 := by decide +kernel
  intro i low _ _
  exact early i low

/-- At 2, the file may only be written. -/
def lockedFile : Fs := (kChmod 2 [97] 2).after openedFile

/-- Three bytes are written at 3 through the descriptor. -/
def writtenFile : Fs := (kWrite 3 0 (fun _ => 8) 3).after lockedFile

theorem lockedFile_step :
    FileStep (1, 0) openedFile 1 (.chmod 2 (.literal [97]) 2) lockedFile 2 (some 2) := by
  have host : openedFile.host = [] := by decide +kernel
  have names : openedFile.NamesFile 2 [97] (1, 0) := namesFile_of_value host (by decide +kernel)
  have result : (kChmod 2 [97] 2 openedFile).map Prod.fst = some .ok := by decide +kernel
  have step : FileStep (1, 0) openedFile 1 (.chmod 2 (.literal [97]) 2) lockedFile 2
      (if PennFatErr.ok = .ok then some 2 else none) := .chmod names (by decide) (Prog.run_after result)
  exact step

theorem writtenFile_step : FileStep (1, 0) lockedFile 2 (.write 3 0 (fun _ => 8) 3) writtenFile 3 none := by
  have result : (kWrite 3 0 (fun _ => 8) 3 lockedFile).map (fun x => x.1.toOption) = some (some 3) := by
    decide +kernel
  have opened : lockedFile.OpenedAt 0 (1, 0) := fun _ => by decide +kernel
  exact .write opened (by decide) (Prog.run_ok result)

theorem metadata_kept_writtenFile :
    (((kClose 0).after writtenFile).dirent (1, 0)).perm = 2 ∧
      (writtenFile.dirent (1, 0)).mtime ≤ (((kClose 0).after writtenFile).dirent (1, 0)).mtime := by
  obtain ⟨reached, entry, cached⟩ := openedFile_ready
  have result : (kClose 0 writtenFile).map Prod.fst = some .ok := by decide +kernel
  have opened : writtenFile.OpenedAt 0 (1, 0) := fun _ => by decide +kernel
  have close : FileStep (1, 0) writtenFile 3 (.close 0) ((kClose 0).after writtenFile) 3 none :=
    .close opened (Prog.run_after result)
  have keepsChmod : KeepsTime (1, 0) openedFile (.chmod 2 (.literal [97]) 2) := trivial
  have keepsWrite : KeepsTime (1, 0) lockedFile (.write 3 0 (fun _ => 8) 3) := fun _ _ => by decide +kernel
  have keepsClose : KeepsTime (1, 0) writtenFile (.close 0) := fun _ _ _ => by decide +kernel
  exact (metadata_kept _ imageA.bytes 0 (.empty (by decide)) (by decide) (by decide) openedFile reached
    (by decide +kernel) 1 (1, 0) entry (by decide +kernel) 1 (by decide +kernel) cached _ _ _
    (.step (.step .start keepsChmod lockedFile_step) keepsWrite writtenFile_step)).2 _ _ _ _ keepsClose close

/-- The file is touched at 5, and the descriptor closed. -/
theorem openedFile_touched : (((kTouch 5 [97]).after openedFile).dirent (1, 0)).mtime = 5 ∧
    (((kClose 0).after ((kTouch 5 [97]).after openedFile)).dirent (1, 0)).mtime = 1 := by
  decide +kernel

/-- The last close takes the time back to 1. -/
theorem close_undoes_touch :
    ¬ ∀ (hostFiles : List UInt8 → Option HostFile) (fsName : List UInt8) (config : Int),
      HostSound .plain hostFiles fsName → 0 ≤ config → config ≤ 4 → ∀ s₀ : Fs,
      Run (Guarded .plain) (freshVolume hostFiles fsName config) s₀ → s₀.gMounted = true →
      ∀ (d : Nat) (p : Nat × Nat), s₀.disk.Entry d p →
      (s₀.disk.dirent p).type ≠ DirEntry.typeDirectory → ∀ clock₀ : UInt64, (s₀.dirent p).mtime ≤ clock₀ →
      s₀.CachedBy p clock₀ → ∀ (s : Fs) (clock : UInt64) (perm : UInt8),
      FileRun AnyCall p s₀ clock₀ s clock perm → (s.dirent p).perm = perm ∧ ∀ call t clock' perms,
        FileStep p s clock call t clock' perms →
          (t.dirent p).perm = perms.getD perm ∧ (s.dirent p).mtime ≤ (t.dirent p).mtime := by
  intro always
  have host : openedFile.host = [] := by decide +kernel
  have names : openedFile.NamesFile 5 [97] (1, 0) := namesFile_of_value host (by decide +kernel)
  have result : (kTouch 5 [97] openedFile).map Prod.fst = some .ok := by decide +kernel
  have touch : FileStep (1, 0) openedFile 1 (.touch 5 ⟨[97], by decide⟩) ((kTouch 5 [97]).after openedFile) 5
      none := .touch names (by decide) (Prog.run_after result)
  have result' : (kClose 0 ((kTouch 5 [97]).after openedFile)).map Prod.fst = some .ok := by decide +kernel
  have opened : ((kTouch 5 [97]).after openedFile).OpenedAt 0 (1, 0) := fun _ => by decide +kernel
  have close : FileStep (1, 0) ((kTouch 5 [97]).after openedFile) 5 (.close 0)
      ((kClose 0).after ((kTouch 5 [97]).after openedFile)) 5 none := .close opened (Prog.run_after result')
  obtain ⟨reached, entry, cached⟩ := openedFile_ready
  obtain ⟨touched, closed⟩ := openedFile_touched
  obtain ⟨_, next⟩ := always _ imageA.bytes 0 (.empty (by decide)) (by decide) (by decide) openedFile reached
    (by decide +kernel) 1 (1, 0) entry (by decide +kernel) 1 (by decide +kernel)
    cached _ _ _ (.step .start trivial touch)
  have later := (next _ _ _ _ close).2
  rw [touched, closed] at later
  exact absurd later (by decide)

end Examples

end PennOs.Fat
