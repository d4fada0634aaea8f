import PennOs.Fat.LiveDirectories

set_option autoImplicit false

/- Open files in runs of the calls: as long as no call takes the slot of an open file, every entry
of the system-wide table in use names the slot and the first block of its file. -/
namespace PennOs.Fat

open Image (Promises KeepsAll)
open Fs

/-- In every directory block the live entries come first. -/
def Image.Promises.keepOpen : Promises := ⟨False, True, False⟩

namespace Fs

/-- A file is open through the slot `p`. -/
def OpenAt (s : Fs) (p : Nat × Nat) : Prop :=
  ∃ i < maxSystemFiles, (s.gSysfileTable i).inUse = true ∧
    (s.gSysfileTable i).dirIndex = pseudoInode p.1 p.2

/-- No open file lies in the directory `c` or below. -/
def Idle (s : Fs) (c : Nat) : Prop :=
  ∀ d q, d = 1 ∨ s.disk.firstOf (d, 0) = d → s.disk.OnChain d q.1 →
    Hierarchy.Below 1 s.disk.up c d → ¬ s.OpenAt q

/-- What an entry of the system-wide table knows about its file: the key is that of a slot, and the
slot holds a live entry of a file with the same first block. -/
structure BoundTo (s : Fs) (sf : SystemFile) (p : Nat × Nat) : Prop where
  key : sf.dirIndex = pseudoInode p.1 p.2
  block : sf.dirIndex / 65536 % 65536 = p.1
  index : sf.dirIndex % 65536 = p.2
  live : (s.disk.dirent p).live = true
  file : (s.disk.dirent p).type ≠ DirEntry.typeDirectory
  first : (s.disk.dirent p).firstBlock = sf.firstBlock

/-- Every entry in use is bound to a slot, and no two are bound to one. -/
structure OpenBound (s : Fs) : Prop where
  entry : ∀ i < maxSystemFiles, (s.gSysfileTable i).inUse = true →
    ∃ p, s.BoundTo (s.gSysfileTable i) p
  unique : ∀ i < maxSystemFiles, ∀ j < maxSystemFiles, (s.gSysfileTable i).inUse = true →
    (s.gSysfileTable j).inUse = true →
    (s.gSysfileTable i).dirIndex = (s.gSysfileTable j).dirIndex → i = j

end Fs

/-- The call takes no slot of an open file: it neither truncates nor renames nor replaces one, and
removes no directory with one in it. "/" is not opened for no access. -/
def Undisturbed (s : Fs) : Call → Prop
  | .openFile now path mode => s.gMounted = true →
      (path.bytes = [slash] → permits mode 0 = false) ∧
      (hasWrite mode = true → ∀ r d p, resolvePath now path.bytes s = some ((.ok, r), s) →
        s.Found r d p → ¬ s.OpenAt p)
  | .rmdir now path => s.gMounted = true →
      ∀ r d p, resolvePath now path.bytes s = some ((.ok, r), s) → s.Found r d p →
        s.Idle (s.disk.firstOf p)
  | .rename now oldpath newpath => s.gMounted = true →
      (∀ r d p, resolvePath now oldpath.bytes s = some ((.ok, r), s) → s.Found r d p →
        ¬ s.OpenAt p ∧ ((s.disk.dirent p).type = DirEntry.typeDirectory →
          (movedEntry now (s.disk.dirent p) (getFilenameFromPath newpath.bytes)).live = false →
          s.Idle (s.disk.firstOf p))) ∧
      (∀ err r d p, resolvePath now newpath.bytes s = some ((err, r), s) → s.Found r d p →
        ¬ s.OpenAt p ∧ ((s.disk.dirent p).type = DirEntry.typeDirectory → s.Idle (s.disk.firstOf p)))
  | _ => True

/-- The condition on a call and the state it starts from. Writes need none. -/
def BindSound (s : Fs) : Call → Prop
  | .write _ _ _ _ => True
  | call => Guarded .keepOpen s call ∧ Undisturbed s call

/-- The system-wide table against the image. -/
structure TablesBound (s : Fs) (I : Image) : Prop where
  entry : ∀ i < maxSystemFiles, (s.gSysfileTable i).inUse = true →
    ∃ p, (s.gSysfileTable i).dirIndex = pseudoInode p.1 p.2 ∧
      I.FileAt p (s.gSysfileTable i).firstBlock.toNat
  unique : ∀ i < maxSystemFiles, ∀ j < maxSystemFiles, (s.gSysfileTable i).inUse = true →
    (s.gSysfileTable j).inUse = true →
    (s.gSysfileTable i).dirIndex = (s.gSysfileTable j).dirIndex → i = j

/-- Mounted, the open files are bound to their slots; unmounted, there are none. -/
inductive Binding (s : Fs) : Prop where
  | mounted {I : Image} : Resting .keepOpen s I → TablesBound s I → Binding s
  | stored {config : Nat} {I : Image} : Stored .keepOpen s config I →
      (∀ i < maxSystemFiles, (s.gSysfileTable i).inUse = false) → Binding s

variable {s t : Fs} {I J : Image} {b c d fd i : Nat} {p q : Nat × Nat} {gone : Nat × Nat → Prop}
  {lost : Nat → Prop} {call : Call} {config : Nat}

section Keys

theorem pseudoInode_eq (p : Nat × Nat) : pseudoInode p.1 p.2 = p.1 * 65536 + p.2 := by
  have positive : ¬ (p.2 : Int) < 0 := by omega
  rw [pseudoInode, if_neg positive, Int.toNat_natCast]

theorem pseudoInode_inj (bound : p.2 < 65536) (bound' : q.2 < 65536)
    (same : pseudoInode p.1 p.2 = pseudoInode q.1 q.2) : p = q := by
  rw [pseudoInode_eq, pseudoInode_eq] at same
  exact Prod.ext (by omega) (by omega)

theorem Tracks.slots_lt (tracks : Tracks s I) : I.slots < 65536 := by
  have bounds := tracks.ready.blockSize_bounds
  have slots := tracks.shows.slots
  rw [entriesPerBlock] at slots
  omega

end Keys

section Slots

theorem Image.FileAt.used (file : I.FileAt p c) (wf : I.Wf) : ¬ I.dirs c ∧ I.chain c ≠ [] := by
  obtain ⟨d, link, isFile⟩ := file
  exact ⟨isFile, (wf.target d p c link).1⟩

/-- The slot of an open file is in no directory under an idle one. -/
theorem Fs.Idle.not_under (idle : s.Idle c) {promised : Promises} (resting : Resting promised s I)
    (opened : s.OpenAt p) : ¬ I.SlotUnder c p := by
  rintro ⟨d, x, link, below⟩
  have wf := resting.good.wf
  have shows := resting.disk
  have block := (shows.onChain_iff wf (wf.dirHead d link.dir)).mpr link.block
  refine idle d p ?_ block (resting.below below link.dir) opened
  by_cases top : d = 1
  · exact .inl top
  · right
    have slots := wf.slotsMin
    have row := shows.dirent (p := (d, 0)) wf (wf.dir_mem link.dir) (by simp only; omega)
    rw [firstOf, row]
    exact (wf.dots d link.dir top).selfBlock

/-- Nothing lies under a file. -/
theorem Image.Wf.not_under (wf : I.Wf) (file : ¬ I.dirs c) : ¬ I.SlotUnder c p := by
  rintro ⟨d, x, link, below⟩
  exact file (wf.tree.below_dir below link.dir)

/-- What `k_unlink` checks before it removes a file. -/
theorem Fs.Accounted.not_open (accounted : s.Accounted none)
    (idle : s.busy (pseudoInode p.1 p.2) = false) : ¬ s.OpenAt p := by
  rintro ⟨i, low, used, key⟩
  rw [busy] at idle
  cases found : s.findSysfile (pseudoInode p.1 p.2) with
  | none =>
      have missed := Search.firstFrom_none.mp found i (Nat.zero_le i) (by omega)
      rw [used, key, beq_self_eq_true] at missed
      cases missed
  | some j =>
      obtain ⟨lowJ, usedJ, _⟩ := findSysfile_some found
      have counted := (accounted.used j lowJ).mp usedJ
      rw [found] at idle
      have none := of_decide_eq_false idle
      omega

end Slots

section Tables

/-- No entry is new, and the files of the slots with an open file stay where they are. -/
theorem TablesBound.kept (bound : TablesBound s I) (retains : Retains s t)
    (stays : ∀ p c, s.OpenAt p → I.FileAt p c → J.FileAt p c) : TablesBound t J where
  entry i low used := by
    obtain ⟨used', key, first⟩ := retains.files i used
    obtain ⟨p, key', file⟩ := bound.entry i low used'
    rw [key, first]
    exact ⟨p, key', stays p _ ⟨i, low, used', key'⟩ file⟩
  unique i low j low' used used' same := by
    obtain ⟨usedI, keyI, _⟩ := retains.files i used
    obtain ⟨usedJ, keyJ, _⟩ := retains.files j used'
    exact bound.unique i low j low' usedI usedJ (keyI.symm.trans (same.trans keyJ))

theorem TablesBound.keepsAll (bound : TablesBound s I) (retains : Retains s t)
    (keeps : KeepsAll I J) : TablesBound t J :=
  bound.kept retains fun _ _ _ file => keeps.fileAt file id

/-- A descriptor was opened on a file that is open already, or on one that is not open. -/
theorem TablesBound.granted {mode : UInt32} {first : UInt16} (bound : TablesBound s I)
    (granted : Granted s t mode (pseudoInode p.1 p.2) first fd i) (file : J.FileAt p first.toNat)
    (known : s.findSysfile (pseudoInode p.1 p.2) = some i ∨ ¬ s.OpenAt p)
    (stays : ∀ q c, s.OpenAt q → I.FileAt q c → J.FileAt q c) : TablesBound t J := by
  -- another entry with this key would be the one that was found
  have apart : ∀ j < maxSystemFiles, j ≠ i → (s.gSysfileTable j).inUse = true →
      (s.gSysfileTable j).dirIndex ≠ pseudoInode p.1 p.2 := by
    intro j low other used key
    rcases known with found | fresh
    · obtain ⟨lowI, usedI, keyI⟩ := findSysfile_some found
      exact other (bound.unique j low i lowI used usedI (key.trans keyI.symm))
    · exact fresh ⟨j, low, used, key⟩
  constructor
  · intro j low used
    by_cases here : j = i
    · subst here
      rcases granted.entry with ⟨found, same⟩ | ⟨_, same⟩
      · obtain ⟨lowJ, usedJ, keyJ⟩ := findSysfile_some found
        obtain ⟨q, key, file'⟩ := bound.entry j lowJ usedJ
        refine ⟨q, (granted.key.trans keyJ.symm).trans key, ?_⟩
        rw [same]
        exact stays q _ ⟨j, lowJ, usedJ, key⟩ file'
      · refine ⟨p, granted.key, ?_⟩
        rw [same]
        exact file
    · rw [granted.others j here] at used ⊢
      obtain ⟨q, key, file'⟩ := bound.entry j low used
      exact ⟨q, key, stays q _ ⟨j, low, used, key⟩ file'⟩
  · intro j low k low' used used' same
    by_cases first : j = i
    · by_cases second : k = i
      · exact first.trans second.symm
      · rw [granted.others k second] at used' same
        rw [first, granted.key] at same
        exact absurd same.symm (apart k low' second used')
    · rw [granted.others j first] at used same
      by_cases second : k = i
      · rw [second, granted.key] at same
        exact absurd same (apart j low first used)
      · rw [granted.others k second] at used' same
        exact bound.unique j low k low' used used' same

/-- A slot that no entry of the image uses is not open. -/
theorem TablesBound.not_open (bound : TablesBound s I) (small : I.slots < 65536) (place : p.2 < 65536)
    (unused : ∀ d c, ¬ I.Holds d p c) : ¬ s.OpenAt p := by
  rintro ⟨i, low, used, key⟩
  obtain ⟨q, key', d, link, _⟩ := bound.entry i low used
  have index := link.index
  obtain rfl := pseudoInode_inj (p := q) (q := p) (by omega) place (key'.symm.trans key)
  exact unused d _ link

/-- A descriptor in use is for a file. -/
theorem TablesBound.file (bound : TablesBound s I) (accounted : s.Accounted none) {fd : Int}
    (valid : s.validFd fd = true) :
    ∃ p, (s.fileOf fd.toNat).dirIndex = pseudoInode p.1 p.2 ∧
      I.FileAt p (s.fileOf fd.toNat).firstBlock.toNat := by
  simp only [validFd, Bool.and_eq_true, decide_eq_true_eq] at valid
  obtain ⟨⟨_, high⟩, used⟩ := valid
  have low : fd.toNat < maxFd := by omega
  exact bound.entry _ (accounted.named _ low used) (accounted.entry_used low used)

end Tables

section Steps

/-- An open file's entry stays where a removal takes neither its slot nor a directory above it. -/
theorem Removed.bound {promised : Promises} (removed : Removed promised s I p c t J)
    (bound : TablesBound s I) (away : ¬ s.OpenAt p) (apart : ∀ q, s.OpenAt q → ¬ I.SlotUnder c q) :
    TablesBound t J := by
  refine bound.kept removed.tables.retains fun q x opened file => removed.keeps.fileAt file ?_
  rintro (same | under)
  · exact away (same ▸ opened)
  · exact apart q opened under

theorem Calm.binding (bound : TablesBound s I) (calm : Calm .keepOpen s I t) : Binding t := by
  obtain ⟨J, rests, keeps, tables⟩ := calm
  exact .mounted rests (bound.keepsAll tables.retains keeps)

/-- Once every descriptor is closed no entry is in use. -/
theorem Fs.Accounted.unused (accounted : t.Accounted none)
    (closed : ∀ fd < maxFd, (t.gFdTable fd).inUse = false) :
    ∀ i < maxSystemFiles, (t.gSysfileTable i).inUse = false := by
  intro i low
  by_contra used
  have used' : (t.gSysfileTable i).inUse = true := by simpa using used
  have counted := (accounted.used i low).mp used'
  rw [accounted.counted i low] at counted
  obtain ⟨fd, holder⟩ := Finset.card_pos.mp (show 0 < (t.holders i).card by
    simp only [reduceCtorEq, ↓reduceIte] at counted
    omega)
  obtain ⟨inside, held, _⟩ := mem_holders.mp holder
  exact absurd (held.symm.trans (closed fd inside)) (by decide)

theorem Resting.unmount_binding (resting : Resting .keepOpen s I) {err : PennFatErr}
    (accounted : t.Accounted none) (run : kUnmount s = some (err, t)) : Binding t := by
  obtain ⟨u, J, _, unmounted⟩ := (kUnmount_run resting False.elim).of_eq run
  obtain ⟨config, stored⟩ := unmounted.stored
  refine .stored stored (accounted.unused fun fd low => ?_)
  obtain ⟨fd', mapping, root, rfl⟩ := unmounted.result
  exact unmounted.closed fd low

variable (resting : Resting .keepOpen s I) (bound : TablesBound s I)

include resting bound

theorem Resting.open_binding (accounted : s.Accounted none) {now : UInt64} {path : CStr} {mode : UInt32}
    {res : Except PennFatErr Nat} (guarded : Guarded .keepOpen s (.openFile now path mode))
    (undisturbed : Undisturbed s (.openFile now path mode))
    (run : kOpen now path.bytes mode s = some (res, t)) : Binding t := by
  have flag : s.gMounted = true := resting.tracks.ready.flag
  have wf := resting.good.wf
  obtain ⟨noRoot, spares⟩ := undisturbed flag
  obtain ⟨J, rests, _, opened, tables⟩ := (kOpen_run resting accounted now path mode
    fun err d found here creates short => (guarded flag creates).welcome resting found here short).of_eq run
  have stays : ∀ q c, s.OpenAt q → I.FileAt q c → J.FileAt q c := by
    intro q c holder file
    cases opened with
    | kept keeps => exact keeps.fileAt file id
    | @truncated d p c' b found link _ writes keeps _ _ =>
        refine keeps.fileAt file fun same => ?_
        have row := resting.disk.dirent wf link.block link.index
        exact spares writes _ d p found (found_of_row row) (same ▸ holder)
  cases tables trivial with
  | refused retains => exact .mounted rests (bound.kept retains stays)
  | @granted fd i p first slot granted =>
      refine .mounted rests ?_
      cases slot with
      | root top permitted =>
          rw [noRoot top] at permitted
          cases permitted
      | file file known =>
          refine bound.granted granted file ?_ stays
          rcases known with found | missing | fresh
          · exact .inl found
          · right
            rintro ⟨j, low, used, key⟩
            have missed := Search.firstFrom_none.mp missing j (Nat.zero_le j) (by omega)
            rw [used, key, beq_self_eq_true] at missed
            cases missed
          · right
            obtain ⟨d, link, _⟩ := file
            have index := link.index
            have slots := rests.tracks.slots_lt
            exact bound.not_open resting.tracks.slots_lt (by omega) fresh

theorem Resting.rmdir_binding {now : UInt64} {path : CStr} {err : PennFatErr}
    (guarded : Guarded .keepOpen s (.rmdir now path)) (undisturbed : Undisturbed s (.rmdir now path))
    (run : kRmdir now path.bytes s = some (err, t)) : Binding t := by
  have flag : s.gMounted = true := resting.tracks.ready.flag
  have wf := resting.good.wf
  rcases (kRmdir_run resting now path.bytes fun d p c found link here empty =>
    (guarded flag).droppable resting found link here empty).of_eq run with
    ⟨_, rfl⟩ | ⟨d, p, c, J, found, link, here, _, removed⟩
  · exact .mounted resting bound
  have row := resting.disk.dirent wf link.block link.index
  have idle := undisturbed flag _ d p found (found_of_row row)
  rw [firstOf, row, link.first] at idle
  refine .mounted removed.rests (removed.bound bound ?_ fun q opened => idle.not_under resting opened)
  -- the slot of a directory is not that of an open file
  rintro ⟨i, low, used, key⟩
  obtain ⟨q, key', d', link', file⟩ := bound.entry i low used
  have index := link.index
  have index' := link'.index
  have slots := resting.tracks.slots_lt
  obtain rfl := pseudoInode_inj (p := q) (q := p) (by omega) (by omega) (key'.symm.trans key)
  exact file (link'.first.symm.trans link.first ▸ here)

theorem Resting.rename_binding {now : UInt64} {oldpath newpath : CStr} {err : PennFatErr}
    (guarded : Guarded .keepOpen s (.rename now oldpath newpath))
    (undisturbed : Undisturbed s (.rename now oldpath newpath))
    (run : kRename now oldpath.bytes newpath.bytes s = some (err, t)) : Binding t := by
  have flag : s.gMounted = true := resting.tracks.ready.flag
  have wf := resting.good.wf
  obtain ⟨source, target⟩ := undisturbed flag
  rcases (kRename_run resting now oldpath.bytes newpath fun ds ps c err r found link target good =>
    (guarded flag).movable resting found link target good).of_eq run with
    rfl | ⟨ds, ps, c, err, r, K, found, link, found', renamed⟩
  · exact .mounted resting bound
  have row := resting.disk.dirent wf link.block link.index
  obtain ⟨away, sunk⟩ := source _ ds ps found (found_of_row row)
  rw [row] at sunk
  refine .mounted renamed.rests (bound.kept renamed.tables.retains fun q x opened file =>
    renamed.keeps.fileAt file ?_)
  have under : ∀ {d p y}, I.Holds d p y →
      ((I.slot p.1 p.2).type = DirEntry.typeDirectory → s.Idle (s.disk.firstOf p)) →
      ¬ I.SlotUnder y q := by
    intro d p y held idle below
    by_cases here : I.dirs y
    · have idle := idle ((wf.target d p y held).2.mpr here)
      rw [firstOf, resting.disk.dirent wf held.block held.index, held.first] at idle
      exact idle.not_under resting opened below
    · exact wf.not_under here below
  rintro (same | ⟨dead, below⟩ | ⟨d, p, y, isTarget, held, same | below⟩)
  · exact away (same ▸ opened)
  · exact under link (fun isDir => sunk isDir dead) below
  · have row' := resting.disk.dirent wf held.block held.index
    exact (target _ _ d p found' (isTarget ▸ found_of_row row')).1 (same ▸ opened)
  · have row' := resting.disk.dirent wf held.block held.index
    have idle := (target _ _ d p found' (isTarget ▸ found_of_row row')).2
    rw [row'] at idle
    exact under held idle below

theorem Resting.binding_step (accounted : s.Accounted none) (sound : BindSound s call)
    (step : Step s call t) : Binding t := by
  have flag : s.gMounted = true := resting.tracks.ready.flag
  have accounted' := step_accounted call accounted step
  cases call with
  | mkfs fsName blocks config =>
      obtain ⟨err, run⟩ := ignore_inv step
      simp only [kMkfs, Prog.get_bind, flag, ↓reduceIte, Prog.pure_run] at run
      cases run
      exact .mounted resting bound
  | mount fsName =>
      obtain ⟨err, run⟩ := ignore_inv step
      simp only [kMount, Prog.get_bind, flag, ↓reduceIte, Prog.pure_run] at run
      cases run
      exact .mounted resting bound
  | unmount =>
      obtain ⟨err, run⟩ := ignore_inv step
      exact resting.unmount_binding accounted' run
  | openFile now path mode =>
      obtain ⟨res, run⟩ := ignore_inv step
      exact resting.open_binding bound accounted sound.1 sound.2 run
  | read fd n =>
      obtain ⟨res, run⟩ := ignore_inv step
      have only := kRead_only fd n _ _ _ run
      exact .mounted (only.resting resting) (bound.keepsAll only.retains (.refl I))
  | write now fd buf n =>
      obtain ⟨res, run⟩ := ignore_inv step
      rcases (kWrite_tracks now fd buf n resting fun valid _ => by
        obtain ⟨p, _, file⟩ := bound.file accounted valid
        exact file.used resting.good.wf).of_eq run with rfl | ⟨_, _, J, rests, wrote, tables⟩
      · exact .mounted resting bound
      · exact .mounted rests (bound.keepsAll tables.retains wrote.keeps)
  | close fd =>
      obtain ⟨res, run⟩ := ignore_inv step
      obtain ⟨J, rests, keeps, retains, _⟩ := (kClose_run resting fd).of_eq run
      exact .mounted rests (bound.keepsAll retains keeps)
  | lseek fd offset whence =>
      obtain ⟨res, run⟩ := ignore_inv step
      have only := kLseek_only fd offset whence _ _ _ run
      exact .mounted (only.resting resting) (bound.keepsAll only.retains (.refl I))
  | unlink now path =>
      obtain ⟨err, run⟩ := ignore_inv step
      rcases (kUnlink_run resting now path.bytes).of_eq run with
        ⟨_, rfl⟩ | ⟨d, p, c, J, _, link, file, idle, removed⟩
      · exact .mounted resting bound
      · exact .mounted removed.rests (removed.bound bound (accounted.not_open idle) fun q _ =>
          resting.good.wf.not_under file)
  | touch now path =>
      obtain ⟨err, run⟩ := ignore_inv step
      exact Calm.binding bound ((kTouch_run resting now path fun err d found here short =>
        (sound.1 flag).welcome resting found here short).of_eq run)
  | chmod now path perm =>
      obtain ⟨err, run⟩ := ignore_inv step
      exact Calm.binding bound ((kChmod_run resting now path.bytes perm).of_eq run)
  | chdir now path =>
      obtain ⟨err, run⟩ := ignore_inv step
      obtain ⟨c, here, rfl⟩ := (kChdir_run resting now path.bytes).of_eq run
      exact .mounted ⟨resting.tracks.setCwd c, resting.good, resting.idle, here⟩ ⟨bound.entry, bound.unique⟩
  | symlink now target linkpath =>
      obtain ⟨err, run⟩ := ignore_inv step
      exact Calm.binding bound ((kSymlink_run resting now target.bytes linkpath
        fun err d found here short => (sound.1 flag).welcome resting found here short).of_eq run)
  | mkdir now path =>
      obtain ⟨err, run⟩ := ignore_inv step
      exact Calm.binding bound ((kMkdir_run resting now path fun err d found here short =>
        (sound.1 flag).welcome resting found here short).of_eq run)
  | rmdir now path =>
      obtain ⟨err, run⟩ := ignore_inv step
      exact resting.rmdir_binding bound sound.1 sound.2 run
  | rename now oldpath newpath =>
      obtain ⟨err, run⟩ := ignore_inv step
      exact resting.rename_binding bound sound.1 sound.2 run

omit resting bound in
theorem Stored.binding_step (stored : Stored .keepOpen s config I)
    (unused : ∀ i < maxSystemFiles, (s.gSysfileTable i).inUse = false) (others : s.OthersSound .keepOpen)
    (sound : BindSound s call) (step : Step s call t) : Binding t := by
  cases call with
  | mkfs fsName blocks size =>
      obtain ⟨err, run⟩ := ignore_inv step
      rcases kMkfs_cases stored.host stored.unmounted (sound.1 stored.unmounted) run with
        rfl | ⟨config', small, cwd, rfl⟩
      · exact .stored stored unused
      · exact .stored (format_stored (s := s.useImage _) stored.host stored.unmounted small cwd) unused
  | mount fsName =>
      obtain ⟨err, run⟩ := ignore_inv step
      rcases stored.mount_cases others (sound.1 stored.unmounted) run with
        rfl | ⟨config', J, stored', _, rfl⟩
      · exact .stored stored unused
      · exact .mounted stored'.rests ⟨fun i low used => absurd used Bool.false_ne_true,
          fun i low j low' used => absurd used Bool.false_ne_true⟩
  | _ =>
      obtain rfl := unmounted_step stored.unmounted step (by rintro _ ⟨⟩) (by rintro _ _ _ ⟨⟩)
      exact .stored stored unused

end Steps

section Runs

/-- What the system-wide table says of the image is what the image holds. -/
theorem TablesBound.openBound {promised : Promises} (resting : Resting promised s I)
    (bound : TablesBound s I) : s.OpenBound where
  entry i low used := by
    obtain ⟨p, key, d, link, file⟩ := bound.entry i low used
    have wf := resting.good.wf
    have row := resting.disk.dirent wf link.block link.index
    have index := link.index
    have slots := resting.tracks.slots_lt
    have blocks := resting.tracks.blocks_bounds
    obtain ⟨_, high, _⟩ := wf.inside d p.1 link.block
    have place := key.trans (pseudoInode_eq p)
    refine ⟨p, key, by omega, by omega, row ▸ link.live, fun isDir => ?_, ?_⟩
    · exact file ((wf.target d p _ link).2.mp (row ▸ isDir))
    · rw [row]
      exact UInt16.toNat_inj.mp link.first
  unique := bound.unique

theorem binding_step (binding : Binding s) (others : s.OthersSound .keepOpen) (accounted : s.Accounted none)
    (sound : BindSound s call) (step : Step s call t) : Binding t := by
  cases binding with
  | mounted resting bound => exact resting.binding_step bound accounted sound step
  | stored stored unused => exact stored.binding_step unused others sound step

theorem BindSound.guarded (sound : BindSound s call) (notWrite : ∀ now fd buf n, call ≠ .write now fd buf n) :
    Guarded .keepOpen s call := by
  cases call with
  | write now fd buf n => exact absurd rfl (notWrite now fd buf n)
  | _ => exact sound.1

theorem Binding.standing (binding : Binding s) : Standing .keepOpen s := by
  cases binding with
  | mounted resting _ => exact .mounted resting
  | stored stored _ => exact .stored stored

variable {hostFiles : List UInt8 → Option HostFile} {fsName : List UInt8} {size : Int}

theorem binding_others_run (host : HostSound .keepOpen hostFiles fsName) (low : 0 ≤ size) (high : size ≤ 4)
    (run : Run BindSound (freshVolume hostFiles fsName size) t) :
    Binding t ∧ t.OthersSound .keepOpen ∧ t.Accounted none := by
  have tables : (freshVolume hostFiles fsName size).gSysfileTable = fun _ => .zero := by
    rw [freshVolume_eq host.named low high]
    rfl
  have unused : ∀ i, ¬ ((freshVolume hostFiles fsName size).gSysfileTable i).inUse = true := by
    intro i used
    rw [tables] at used
    cases used
  have start : Binding (freshVolume hostFiles fsName size) ∧
      (freshVolume hostFiles fsName size).OthersSound .keepOpen ∧
      (freshVolume hostFiles fsName size).Accounted none :=
    ⟨.mounted (freshVolume_resting host.named low high) ⟨fun i _ used => absurd used (unused i),
      fun i _ j _ used => absurd used (unused i)⟩, freshVolume_others host low high,
      freshVolume_accounted host.named low high⟩
  refine run.keeps (P := fun s => Binding s ∧ s.OthersSound .keepOpen ∧ s.Accounted none) start ?_
  rintro s call u ⟨binding, others, accounted⟩ sound step
  exact ⟨binding_step binding others accounted sound step,
    others_step binding.standing others sound.guarded step, step_accounted call accounted step⟩

theorem binding_run (host : HostSound .keepOpen hostFiles fsName) (low : 0 ≤ size) (high : size ≤ 4)
    (run : Run BindSound (freshVolume hostFiles fsName size) t) : Binding t ∧ t.Accounted none := by
  obtain ⟨binding, _, accounted⟩ := binding_others_run host low high run
  exact ⟨binding, accounted⟩

/-- In runs of such calls every open file is bound to its slot. -/
theorem open_files_bound (hostFiles : List UInt8 → Option HostFile) (fsName : List UInt8) (config : Int)
    (t : Fs) (host : HostSound .keepOpen hostFiles fsName) (low : 0 ≤ config) (high : config ≤ 4)
    (run : Run BindSound (freshVolume hostFiles fsName config) t) : t.OpenBound := by
  cases (binding_run host low high run).1 with
  | mounted resting bound => exact bound.openBound resting
  | stored stored unused =>
      have none : ∀ i < maxSystemFiles, ¬ (t.gSysfileTable i).inUse = true := by
        intro i low' used
        rw [unused i low'] at used
        cases used
      exact ⟨fun i low' used => absurd used (none i low'),
        fun i low' j _ used => absurd used (none i low')⟩

/-- A file "a" is made, opened a second time and written. -/
def openedFiles : List Call :=
  [.openFile 1 (.literal [97]) 5, .openFile 2 (.literal [97]) 2, .write 3 0 (fun _ => 7) 5]

theorem openedFiles_ends : (runCalls openedFiles blankVolume).isSome = true := by decide +kernel

theorem openedFiles_sound : SoundCalls BindSound blankVolume openedFiles := by
  refine ⟨⟨fun _ _ err d _ _ _ => ⟨False.elim, fun _ => by decide, False.elim⟩, fun _ => ⟨?_, ?_⟩⟩,
    ⟨?_, fun _ => ⟨?_, ?_⟩⟩, trivial, trivial⟩
  · intro top
    exact absurd top (by decide)
  · rintro _ r d p _ _ ⟨i, low, used, _⟩
    have none : ∀ i < maxSystemFiles, (blankVolume.gSysfileTable i).inUse = false := by decide +kernel
    rw [none i low] at used
    cases used
  · exact fun _ creates => absurd creates (by decide)
  · intro top
    exact absurd top (by decide)
  · exact fun writes => absurd writes (by decide)

theorem open_files_bound_openedFiles : ((runCalls openedFiles).after blankVolume).OpenBound :=
  open_files_bound _ imageA.bytes 0 _ (.empty (by decide)) (by decide) (by decide)
    (.of_calls (runCalls_after openedFiles_ends) openedFiles_sound)

end Runs

end PennOs.Fat
