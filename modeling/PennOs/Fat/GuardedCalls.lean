import PennOs.Fat.HostImages
import PennOs.Fat.RenameRuns

set_option autoImplicit false

/- The conditions under which the calls keep an image well formed and its promises kept. -/
namespace PennOs.Fat

open Image (Promises)
open Fs

/-- The name of a new entry of the directory `d`: the entry can be seen, does not end its block,
and no other live entry of the directory has the name. -/
structure NameSound (promised : Promises) (s : Fs) (d : Nat) (besides : Nat × Nat → Prop)
    (name : List UInt8) : Prop where
  visible : promised.lossless → name ≠ [] ∧ ∀ rest, name ≠ 1 :: rest ∧ name ≠ 2 :: rest
  nonempty : promised.dense ∨ promised.distinct → name ≠ []
  fresh : promised.distinct → ∀ q : Nat × Nat, s.disk.OnChain d q.1 → q.2 < s.disk.entriesPerBlock →
    ¬ besides q → (s.disk.dirent q).live = true → (s.disk.dirent q).cName ≠ name

/-- Where the path ends at a missing entry, its last component is a sound name for a new one. -/
def CreatesSound (promised : Promises) (s : Fs) (resolve : FsM (PennFatErr × ResolvedPath))
    (path : CStr) : Prop :=
  ∀ err d, resolve s = some ((err, unresolvedIn d), s) → d ≠ 0 →
    (getFilenameFromPath path.bytes).length < 32 →
    NameSound promised s d (fun _ => False) (getFilenameFromPath path.bytes)

/-- The directory `c` may go: it is not above the current directory, and it is one block without
live entries but '.' and '..'. -/
structure DropSound (promised : Promises) (s : Fs) (c : Nat) : Prop where
  cwd : ¬ Hierarchy.Below 1 s.disk.up c s.gCwdBlock
  vacant : promised.lossless → s.disk.fat c = fatEoc ∧
    ∀ i, 2 ≤ i → i < s.disk.entriesPerBlock → (s.disk.dirent (c, i)).live = false

/-- A path leads to the entry in the slot `p` of the directory `d`. -/
def Fs.Found (s : Fs) (r : ResolvedPath) (d : Nat) (p : Nat × Nat) : Prop :=
  r.found = true ∧ r.isRoot = false ∧ r.parentDirBlock = d ∧ r.entryBlock = p.1 ∧
    r.entryIndexInBlock = p.2 ∧ r.entry = s.disk.dirent p

/-- A directory that `k_rmdir` finds empty may go. -/
def RmdirSound (promised : Promises) (s : Fs) (now : UInt64) (path : CStr) : Prop :=
  ∀ r d p, resolvePath now path.bytes s = some ((.ok, r), s) → s.Found r d p →
    r.entry.type = DirEntry.typeDirectory →
    onlyDots (s.disk.block (s.disk.firstOf p)) s.disk.entriesPerBlock 0 = true →
    DropSound promised s (s.disk.firstOf p)

/-- The two paths of a rename lead to different entries, a directory stays in its directory, and
the new name is sound once the old entry and a target are gone. -/
structure MoveSound (promised : Promises) (s : Fs) (ds : Nat) (ps : Nat × Nat) (target : ResolvedPath)
    (name : List UInt8) : Prop where
  apart : ∀ d, ¬ s.Found target d ps
  within : (s.disk.dirent ps).type = DirEntry.typeDirectory → target.parentDirBlock = ds
  cwd : ∀ rest, name = 1 :: rest ∨ name = 2 :: rest →
    ¬ Hierarchy.Below 1 s.disk.up (s.disk.firstOf ps) s.gCwdBlock
  drops : ∀ d p, s.Found target d p → (s.disk.dirent p).type = DirEntry.typeDirectory →
    onlyDots (s.disk.block (s.disk.firstOf p)) s.disk.entriesPerBlock 0 = true →
    DropSound promised s (s.disk.firstOf p)
  name : NameSound promised s target.parentDirBlock
    (fun q => q = ps ∨ ∃ d, s.Found target d q) name

def RenameSound (promised : Promises) (s : Fs) (now : UInt64) (oldpath newpath : CStr) : Prop :=
  ∀ r ds ps err target, resolvePath now oldpath.bytes s = some ((.ok, r), s) → s.Found r ds ps →
    resolvePath now newpath.bytes s = some ((err, target), s) →
    badName (getFilenameFromPath newpath.bytes) = false →
    MoveSound promised s ds ps target (getFilenameFromPath newpath.bytes)

/-- The descriptor's table entry still names the chain of a file. -/
def WriteSound (s : Fs) (fd : Int) : Prop :=
  s.validFd fd = true → hasRead (s.gFdTable fd.toNat).mode = false →
    ∃ d p, s.disk.Entry d p ∧ (s.disk.dirent p).type ≠ DirEntry.typeDirectory ∧
      (s.disk.dirent p).firstBlock = (s.fileOf fd.toNat).firstBlock

/-- The condition on a call and the state it starts from. -/
def Guarded (promised : Promises) (s : Fs) : Call → Prop
  | .mkfs _ blocksInFat config => s.gMounted = false → 1 ≤ blocksInFat ∧ blocksInFat ≤ 32 →
      0 ≤ config ∧ config ≤ 4 → blocksInFat = 1 ∧ s.gCwdBlock = 1
  | .mount fsName => s.gMounted = false → s.opens false fsName.bytes = true → MountSound s fsName.bytes
  | .unmount => s.gMounted = true → promised.lossless →
      ∀ i < s.disk.entriesPerBlock, (s.disk.dirent (1, i)).live = false
  | .openFile now path mode => s.gMounted = true → hasCreate mode = true →
      CreatesSound promised s (resolvePath now path.bytes) path
  | .touch now path => s.gMounted = true → CreatesSound promised s (resolvePath now path.bytes) path
  | .mkdir now path => s.gMounted = true → CreatesSound promised s (resolvePath now path.bytes) path
  | .symlink now _ linkpath => s.gMounted = true →
      CreatesSound promised s (resolvePathNoFollow now linkpath.bytes) linkpath
  | .write _ fd _ _ => s.gMounted = true → WriteSound s fd
  | .rmdir now path => s.gMounted = true → RmdirSound promised s now path
  | .rename now oldpath newpath => s.gMounted = true → RenameSound promised s now oldpath newpath
  | _ => True

/-- Mounted or not, the volume shows an image that keeps its promises. -/
inductive Standing (promised : Promises) (s : Fs) : Prop where
  | mounted {I : Image} : Resting promised s I → Standing promised s
  | stored {config : Nat} {I : Image} : Stored promised s config I → Standing promised s

variable {promised : Promises} {s t : Fs} {I : Image} {c d : Nat} {p : Nat × Nat} {name : List UInt8}
  {call : Call} {config : Nat}

section Meanings

theorem Resting.disk (resting : Resting promised s I) : Shows s.disk I := resting.tracks.disk

theorem Resting.disk_blockSize (resting : Resting promised s I) : s.disk.gBlockSize = s.gBlockSize := by
  obtain ⟨config, small, size, word⟩ := resting.tracks.volume.super
  have bytes := fat_zero s
  have low := (s.file 0).toNat_lt
  have config' : (s.file 0).toNat = config := by omega
  show blockSizes (s.file 0).toNat = _
  rw [config', size]

theorem packName_first {c : UInt8} {rest : List UInt8} : DirEntry.packName (c :: rest) 0 = c := rfl

theorem packName_visible (noNul : 0 ∉ name)
    (visible : name ≠ [] ∧ ∀ rest, name ≠ 1 :: rest ∧ name ≠ 2 :: rest) :
    DirEntry.packName name 0 ≠ 0 ∧ DirEntry.packName name 0 ≠ 1 ∧ DirEntry.packName name 0 ≠ 2 := by
  cases name with
  | nil => exact absurd rfl visible.1
  | cons first rest =>
      rw [packName_first]
      refine ⟨?_, ?_, ?_⟩
      · rintro rfl
        exact noNul List.mem_cons_self
      · rintro rfl
        exact (visible.2 rest).1 rfl
      · rintro rfl
        exact (visible.2 rest).2 rfl

theorem packName_nonempty (noNul : 0 ∉ name) (nonempty : name ≠ []) : DirEntry.packName name 0 ≠ 0 := by
  cases name with
  | nil => exact absurd rfl nonempty
  | cons first rest =>
      rw [packName_first]
      rintro rfl
      exact noNul List.mem_cons_self

/-- The guard on a name at the level of the image. -/
theorem NameSound.fresh_image {besides : Nat × Nat → Prop} (sound : NameSound promised s d besides name)
    (resting : Resting promised s I) (asked : promised.distinct) {q : Nat × Nat} (place : I.At d q)
    (other : ¬ besides q) (live : (I.slot q.1 q.2).live = true) : (I.slot q.1 q.2).cName ≠ name := by
  have shows := resting.disk
  have wf := resting.good.wf
  have row := shows.dirent wf place.block place.index
  rw [← row] at live ⊢
  exact sound.fresh asked q ((shows.onChain_iff wf (wf.dirHead d place.dir)).mpr place.block)
    (shows.slots ▸ place.index) other live

theorem NameSound.welcome (sound : NameSound promised s d (fun _ => False) name)
    (resting : Resting promised s I) (noNul : 0 ∉ name) : NameWelcome promised I d name where
  live asked := packName_visible noNul (sound.visible asked)
  dense asked := packName_nonempty noNul (sound.nonempty asked)
  fresh asked _ place live := sound.fresh_image resting asked place id live

theorem CreatesSound.welcome {path : CStr} {resolve : FsM (PennFatErr × ResolvedPath)}
    (sound : CreatesSound promised s resolve path) (resting : Resting promised s I)
    {err : PennFatErr} (run : resolve s = some ((err, unresolvedIn d), s)) (here : I.dirs d)
    (short : (getFilenameFromPath path.bytes).length < 32) :
    NameWelcome promised I d (getFilenameFromPath path.bytes) := by
  have low := (resting.good.wf.dir_inside here).1
  exact (sound err d run (by omega) short).welcome resting
    fun member => path.noNul (mem_getFilenameFromPath member)

theorem Resting.below (resting : Resting promised s I) (below : Hierarchy.Below 1 I.parent c d)
    (here : I.dirs d) : Hierarchy.Below 1 s.disk.up c d :=
  below.congr here (fun _ there proper => resting.good.wf.dir_parent there proper)
    fun _ there _ => resting.disk.up resting.good.wf there

theorem DropSound.droppable (sound : DropSound promised s c) (resting : Resting promised s I)
    (here : I.dirs c) (proper : c ≠ 1) : Droppable promised s I c where
  cwd below := sound.cwd (resting.below below resting.cwd)
  vacant asked := by
    have shows := resting.disk
    have wf := resting.good.wf
    obtain ⟨ends, dead⟩ := sound.vacant asked
    obtain ⟨_, high⟩ := wf.dir_inside here
    have links := wf.links (wf.dirHead c here)
    have single : I.chain c = [c] := by
      have ends' : nextBlock I.fat c = none := by
        rw [nextBlock, ← shows.fat c high, ends]
        rfl
      have short : LinkedChain.Links (nextBlock I.fat) (some c) [c] := ⟨rfl, ends'⟩
      exact links.unique short
    refine ⟨single, fun q x link => ?_⟩
    have block := link.block
    rw [single] at block
    have same : q.1 = c := List.mem_singleton.mp block
    have late : 2 ≤ q.2 := by
      by_contra early
      exact link.named ⟨proper, same, by omega⟩
    have row := shows.dirent (p := q) wf link.block link.index
    have live := link.live
    rw [← row, show q = (c, q.2) from Prod.ext same rfl, dead q.2 late (shows.slots ▸ link.index)] at live
    cases live

theorem Resting.disk_block (resting : Resting promised s I) : s.disk.block = s.block := by
  funext b j
  simp only [block, blockOffset, resting.disk_blockSize]
  rfl

theorem Resting.disk_entriesPerBlock (resting : Resting promised s I) :
    s.disk.entriesPerBlock = s.entriesPerBlock := by
  simp only [entriesPerBlock, resting.disk_blockSize]

/-- An entry of the image is one that a path leads to. -/
theorem found_of_row (row : s.disk.dirent p = I.slot p.1 p.2) : s.Found (I.foundAt d p) d p :=
  ⟨rfl, rfl, rfl, rfl, rfl, row.symm⟩

theorem Fs.Found.foundAt {r : ResolvedPath} (found : s.Found r d p)
    (row : s.disk.dirent p = I.slot p.1 p.2) : r = I.foundAt d p := by
  obtain ⟨isFound, root, parent, block, index, entry⟩ := found
  cases r
  simp only at isFound root parent block index entry
  rw [Image.foundAt, isFound, root, parent, block, index, entry, row]

theorem MoveSound.movable {ds : Nat} {ps : Nat × Nat} {r : ResolvedPath}
    (sound : MoveSound promised s ds ps r name) (resting : Resting promised s I)
    (link : I.Holds ds ps c) (good : ¬ badName name = true) (noNul : 0 ∉ name) :
    Movable promised s I ds ps c r name := by
  have wf := resting.good.wf
  have shows := resting.disk
  have row := shows.dirent wf link.block link.index
  have firstOf : s.disk.firstOf ps = c := by
    rw [Fs.firstOf, row]
    exact link.first
  constructor
  · rintro d rfl
    exact sound.apart d (found_of_row row)
  · intro here
    refine (sound.within ?_).symm
    rw [row]
    exact (wf.target ds ps c link).2.mpr here
  · intro e named dead under
    have first : ∃ rest, name = 1 :: rest ∨ name = 2 :: rest := by
      cases name with
      | nil => exact absurd rfl good
      | cons first rest =>
          have head : e.name0 = first := by
            rw [DirEntry.name0, named]
            rfl
          have proper : first ≠ 0 := by
            rintro rfl
            exact noNul List.mem_cons_self
          have either : first = 1 ∨ first = 2 := by
            by_contra neither
            rw [DirEntry.live_iff.mpr ⟨head ▸ proper, head ▸ fun one => neither (.inl one),
              head ▸ fun two => neither (.inr two)⟩] at dead
            cases dead
          rcases either with rfl | rfl
          · exact ⟨rest, .inl rfl⟩
          · exact ⟨rest, .inr rfl⟩
    obtain ⟨rest, marked⟩ := first
    refine sound.cwd rest marked ?_
    rw [firstOf]
    exact resting.below under.2 under.1
  · intro d p x target held here empty
    have row' := shows.dirent wf held.block held.index
    have first : s.disk.firstOf p = x := by
      rw [Fs.firstOf, row']
      exact held.first
    have type : (s.disk.dirent p).type = DirEntry.typeDirectory := by
      rw [row']
      exact (wf.target d p x held).2.mpr here
    have drops := sound.drops d p (target ▸ found_of_row row') type
    rw [first, resting.disk_block, resting.disk_entriesPerBlock] at drops
    exact (drops empty).droppable resting here (wf.tree.notRoot d p x held)
  · exact fun asked => packName_visible noNul (sound.name.visible asked)
  · exact fun asked => packName_nonempty noNul (sound.name.nonempty asked)
  · intro asked q place other notTarget live
    refine sound.name.fresh_image resting asked place ?_ live
    rintro (same | ⟨d, target⟩)
    · exact other same
    · exact notTarget d (target.foundAt (shows.dirent wf place.block place.index))

theorem RmdirSound.droppable {now : UInt64} {path : CStr} (sound : RmdirSound promised s now path)
    (resting : Resting promised s I) (run : resolvePath now path.bytes s = some ((.ok, I.foundAt d p), s))
    (link : I.Holds d p c) (here : I.dirs c)
    (empty : onlyDots (s.block c) s.entriesPerBlock 0 = true) : Droppable promised s I c := by
  have wf := resting.good.wf
  have row := resting.disk.dirent wf link.block link.index
  have first : s.disk.firstOf p = c := by
    rw [Fs.firstOf, row]
    exact link.first
  have drops := sound _ d p run (found_of_row row) ((wf.target d p c link).2.mpr here)
  rw [first, resting.disk_block, resting.disk_entriesPerBlock] at drops
  exact (drops empty).droppable resting here (wf.tree.notRoot d p c link)

theorem RenameSound.movable {now : UInt64} {oldpath newpath : CStr}
    (sound : RenameSound promised s now oldpath newpath) (resting : Resting promised s I)
    {err : PennFatErr} {r : ResolvedPath}
    (found : resolvePath now oldpath.bytes s = some ((.ok, I.foundAt d p), s)) (link : I.Holds d p c)
    (target : resolvePath now newpath.bytes s = some ((err, r), s))
    (good : ¬ badName (getFilenameFromPath newpath.bytes) = true) :
    Movable promised s I d p c r (getFilenameFromPath newpath.bytes) := by
  have row := resting.disk.dirent resting.good.wf link.block link.index
  have moves := sound _ d p err r found (found_of_row row) target (by simpa using good)
  exact moves.movable resting link good fun member => newpath.noNul (mem_getFilenameFromPath member)

theorem WriteSound.file {fd : Int} (sound : WriteSound s fd) (resting : Resting promised s I)
    (valid : s.validFd fd = true) (writes : hasRead (s.gFdTable fd.toNat).mode = false) :
    ¬ I.dirs (s.fileOf fd.toNat).firstBlock.toNat ∧ I.chain (s.fileOf fd.toNat).firstBlock.toNat ≠ [] := by
  obtain ⟨d, p, entry, type, first⟩ := sound valid writes
  have wf := resting.good.wf
  have link := resting.disk.holds wf entry
  have row := resting.disk.row wf entry.toSlot
  have target := wf.target d p _ link
  rw [Fs.firstOf, first] at target
  rw [row] at type
  exact ⟨fun here => type (target.2.mpr here), target.1⟩

end Meanings

section Steps

theorem Standing.disk (standing : Standing promised s) :
    ∃ I, Shows s.disk I ∧ I.Good promised ∧ ∀ c, ¬ I.loose c := by
  cases standing with
  | mounted resting => exact ⟨_, resting.disk, resting.good, resting.idle⟩
  | @stored config I stored =>
      have same : (s.mountAs config 1).disk = s.disk := rfl
      exact ⟨_, same ▸ stored.rests.disk, stored.rests.good, stored.rests.idle⟩

/-- Without a mounted volume only `k_mkfs` and `k_mount` do something. -/
theorem unmounted_step (unmounted : s.gMounted = false) (step : Step s call t)
    (notMount : ∀ fsName, call ≠ .mount fsName)
    (notMkfs : ∀ fsName blocks config, call ≠ .mkfs fsName blocks config) : t = s := by
  cases call with
  | mkfs fsName blocks config => exact absurd rfl (notMkfs fsName blocks config)
  | mount fsName => exact absurd rfl (notMount fsName)
  | _ =>
      obtain ⟨a, run⟩ := ignore_inv step
      simp only [kUnmount, kOpen, kRead, kWrite, kClose, kLseek, kUnlink, kTouch, kChmod, kChdir, kSymlink,
        kMkdir, kRmdir, kRename, Prog.get_bind, unmounted, Bool.not_false, ↓reduceIte, Prog.pure_run] at run
      cases run
      rfl

/-- What `k_mkfs` of one FAT block does to a host without a mounted volume. -/
theorem kMkfs_cases {fsName : List UInt8} {blocks size : Int} {err : PennFatErr} (host : s.host = [])
    (unmounted : s.gMounted = false)
    (one : 1 ≤ blocks ∧ blocks ≤ 32 → 0 ≤ size ∧ size ≤ 4 → blocks = 1 ∧ s.gCwdBlock = 1)
    (run : kMkfs fsName blocks size s = some (err, t)) :
    t = s ∨ ∃ config < 5, s.gCwdBlock = 1 ∧ t = (s.useImage fsName).formatAs config := by
  by_cases nameless : fsName = []
  · subst nameless
    obtain ⟨err', same⟩ := kMkfs_nameless host unmounted blocks size
    rw [same] at run
    cases run
    exact .inl rfl
  by_cases count : blocks < 1 ∨ 32 < blocks
  · simp only [kMkfs, Prog.get_bind, unmounted, Bool.false_eq_true, count, ↓reduceIte, Prog.pure_run] at run
    cases run
    exact .inl rfl
  by_cases large : size < 0 ∨ 4 < size
  · simp only [kMkfs, Prog.get_bind, unmounted, Bool.false_eq_true, count, large, ↓reduceIte,
      Prog.pure_run] at run
    cases run
    exact .inl rfl
  obtain ⟨rfl, cwd⟩ := one (by omega) (by omega)
  rw [kMkfs_run host unmounted nameless (by omega) (by omega)] at run
  cases run
  exact .inr ⟨size.toNat, by omega, cwd, rfl⟩

/-- `k_mount` finds no file, or mounts the volume in it. -/
theorem Stored.mount_cases {fsName : List UInt8} {err : PennFatErr} (stored : Stored promised s config I)
    (others : s.OthersSound promised)
    (sound : s.opens false fsName = true → MountSound s fsName)
    (run : kMount fsName s = some (err, t)) :
    t = s ∨ ∃ config' J, Stored promised (s.useImage fsName) config' J ∧
      (J = I ∨ Shows (s.useImage fsName).disk J ∧ (s.useImage fsName).disk.Dir s.gCwdBlock) ∧
      t = (s.useImage fsName).mountAs config' 1 := by
  by_cases there : s.opens false fsName = true
  · obtain ⟨config', J, stored', which⟩ := stored.useImage others there (sound there)
    rw [stored'.mount_run there] at run
    cases run
    exact .inr ⟨config', J, stored', which, rfl⟩
  · rw [kMount_missing stored.host stored.unmounted (by simpa using there)] at run
    cases run
    exact .inl rfl

theorem Stored.step (stored : Stored promised s config I) (others : s.OthersSound promised)
    (guarded : Guarded promised s call) (step : Step s call t) : Standing promised t := by
  cases call with
  | mkfs fsName blocks size =>
      obtain ⟨err, run⟩ := ignore_inv step
      rcases kMkfs_cases stored.host stored.unmounted (guarded stored.unmounted) run with
        rfl | ⟨config', small, cwd, rfl⟩
      · exact .stored stored
      · exact .stored (format_stored (s := s.useImage _) stored.host stored.unmounted small cwd)
  | mount fsName =>
      obtain ⟨err, run⟩ := ignore_inv step
      rcases stored.mount_cases others (guarded stored.unmounted) run with rfl | ⟨config', J, stored', _, rfl⟩
      · exact .stored stored
      · exact .mounted stored'.rests
  | _ =>
      obtain rfl := unmounted_step stored.unmounted step (by rintro _ ⟨⟩) (by rintro _ _ _ ⟨⟩)
      exact .stored stored

theorem Calm.standing (calm : Calm promised s I t) : Standing promised t := by
  obtain ⟨J, rests, _⟩ := calm
  exact .mounted rests

theorem Resting.step (resting : Resting promised s I) (accounted : s.Accounted none)
    (guarded : Guarded promised s call) (step : Step s call t) : Standing promised t := by
  have flag : s.gMounted = true := resting.tracks.ready.flag
  cases call with
  | mkfs fsName blocks config =>
      obtain ⟨err, run⟩ := ignore_inv step
      simp only [kMkfs, Prog.get_bind, flag, ↓reduceIte, Prog.pure_run] at run
      cases run
      exact .mounted resting
  | mount fsName =>
      obtain ⟨err, run⟩ := ignore_inv step
      simp only [kMount, Prog.get_bind, flag, ↓reduceIte, Prog.pure_run] at run
      cases run
      exact .mounted resting
  | unmount =>
      obtain ⟨err, run⟩ := ignore_inv step
      have empty : promised.lossless → ∀ i < I.slots, (I.slot 1 i).live = false := by
        intro asked i inside
        have shows := resting.disk
        have wf := resting.good.wf
        have dead := guarded flag asked i (shows.slots ▸ inside)
        rw [shows.dirent wf (wf.dir_mem wf.root) inside] at dead
        exact dead
      obtain ⟨u, J, _, unmounted⟩ := (kUnmount_run resting empty).of_eq run
      obtain ⟨config, stored⟩ := unmounted.stored
      exact .stored stored
  | openFile now path mode =>
      obtain ⟨res, run⟩ := ignore_inv step
      obtain ⟨J, rests, _⟩ := (kOpen_run resting accounted now path mode fun err d found here creates short =>
        (guarded flag creates).welcome resting found here short).of_eq run
      exact .mounted rests
  | read fd n =>
      obtain ⟨res, run⟩ := ignore_inv step
      exact .mounted ((kRead_only fd n _ _ _ run).resting resting)
  | write now fd buf n =>
      obtain ⟨res, run⟩ := ignore_inv step
      rcases (kWrite_tracks now fd buf n resting fun valid writes =>
        (guarded flag).file resting valid writes).of_eq run with rfl | ⟨_, _, J, rests, _⟩
      · exact .mounted resting
      · exact .mounted rests
  | close fd =>
      obtain ⟨res, run⟩ := ignore_inv step
      obtain ⟨J, rests, _⟩ := (kClose_run resting fd).of_eq run
      exact .mounted rests
  | lseek fd offset whence =>
      obtain ⟨res, run⟩ := ignore_inv step
      exact .mounted ((kLseek_only fd offset whence _ _ _ run).resting resting)
  | unlink now path =>
      obtain ⟨err, run⟩ := ignore_inv step
      rcases (kUnlink_run resting now path.bytes).of_eq run with
        ⟨_, rfl⟩ | ⟨d, p, c, J, _, _, _, _, removed⟩
      · exact .mounted resting
      · exact .mounted removed.rests
  | touch now path =>
      obtain ⟨err, run⟩ := ignore_inv step
      exact ((kTouch_run resting now path fun err d found here short =>
        (guarded flag).welcome resting found here short).of_eq run).standing
  | chmod now path perm =>
      obtain ⟨err, run⟩ := ignore_inv step
      exact ((kChmod_run resting now path.bytes perm).of_eq run).standing
  | chdir now path =>
      obtain ⟨err, run⟩ := ignore_inv step
      obtain ⟨c, here, rfl⟩ := (kChdir_run resting now path.bytes).of_eq run
      exact .mounted ⟨resting.tracks.setCwd c, resting.good, resting.idle, here⟩
  | symlink now target linkpath =>
      obtain ⟨err, run⟩ := ignore_inv step
      exact ((kSymlink_run resting now target.bytes linkpath fun err d found here short =>
        (guarded flag).welcome resting found here short).of_eq run).standing
  | mkdir now path =>
      obtain ⟨err, run⟩ := ignore_inv step
      exact ((kMkdir_run resting now path fun err d found here short =>
        (guarded flag).welcome resting found here short).of_eq run).standing
  | rmdir now path =>
      obtain ⟨err, run⟩ := ignore_inv step
      rcases (kRmdir_run resting now path.bytes fun d p c found link here empty =>
        (guarded flag).droppable resting found link here empty).of_eq run with
        ⟨_, rfl⟩ | ⟨d, p, c, J, _, _, _, _, removed⟩
      · exact .mounted resting
      · exact .mounted removed.rests
  | rename now oldpath newpath =>
      obtain ⟨err, run⟩ := ignore_inv step
      rcases (kRename_run resting now oldpath.bytes newpath fun ds ps c err r found link target good =>
        (guarded flag).movable resting found link target good).of_eq run with
        rfl | ⟨ds, ps, c, err, r, K, _, _, _, renamed⟩
      · exact .mounted resting
      · exact .mounted renamed.rests

theorem guarded_step (standing : Standing promised s) (others : s.OthersSound promised)
    (accounted : s.Accounted none) (guarded : Guarded promised s call) (step : Step s call t) :
    Standing promised t := by
  cases standing with
  | mounted resting => exact resting.step accounted guarded step
  | stored stored => exact stored.step others guarded step

theorem SameHost.others (same : SameHost s t) (others : s.OthersSound promised) : t.OthersSound promised := by
  intro name image away found
  rw [same.imageName] at away
  rw [same.hostFiles] at found
  exact others name image away found

/-- The images that are not at hand stay sound. -/
theorem others_step (standing : Standing promised s) (others : s.OthersSound promised)
    (guarded : (∀ now fd buf n, call ≠ .write now fd buf n) → Guarded promised s call)
    (step : Step s call t) : t.OthersSound promised := by
  have mounted_still : s.gMounted = true → (∃ fsName, call = .mount fsName) ∨
      (∃ fsName blocks config, call = .mkfs fsName blocks config) → t = s := by
    rintro flag (⟨fsName, rfl⟩ | ⟨fsName, blocks, config, rfl⟩)
    · obtain ⟨err, run⟩ := ignore_inv step
      simp only [kMount, Prog.get_bind, flag, ↓reduceIte, Prog.pure_run] at run
      cases run
      rfl
    · obtain ⟨err, run⟩ := ignore_inv step
      simp only [kMkfs, Prog.get_bind, flag, ↓reduceIte, Prog.pure_run] at run
      cases run
      rfl
  cases call with
  | mkfs fsName blocks size =>
      cases standing with
      | mounted resting =>
          exact mounted_still resting.tracks.ready.flag (.inr ⟨_, _, _, rfl⟩) ▸ others
      | stored stored =>
          obtain ⟨err, run⟩ := ignore_inv step
          rcases kMkfs_cases stored.host stored.unmounted
            (guarded (by rintro _ _ _ _ ⟨⟩) stored.unmounted) run with
            rfl | ⟨config', _, _, rfl⟩
          · exact others
          · exact stored.useImage_others others fsName.bytes
  | mount fsName =>
      cases standing with
      | mounted resting => exact mounted_still resting.tracks.ready.flag (.inl ⟨_, rfl⟩) ▸ others
      | stored stored =>
          obtain ⟨err, run⟩ := ignore_inv step
          rcases stored.mount_cases others (guarded (by rintro _ _ _ _ ⟨⟩) stored.unmounted) run
            with rfl | ⟨config', J, _, _, rfl⟩
          · exact others
          · exact stored.useImage_others others fsName.bytes
  | _ => exact (step_sameHost step (by rintro _ ⟨⟩) (by rintro _ _ _ ⟨⟩)).others others

end Steps

end PennOs.Fat
