import PennOs.Fat.GuardedCalls

set_option autoImplicit false

/- Runs of the calls from a new volume: block ownership, the shape of the directory tree, lost
blocks and names. -/
namespace PennOs.Fat

open Image (Promises)
open Fs

namespace Image.Promises

/-- Only that the image is well formed. -/
def plain : Promises := ⟨False, False, False⟩

/-- No block is lost. -/
def keepBlocks : Promises := ⟨True, False, False⟩

/-- Names are unique in every directory. -/
def keepNames : Promises := ⟨False, False, True⟩

end Image.Promises

/-- A volume right after `k_mkfs` with one FAT block and `k_mount`. -/
def freshVolume (hostFiles : List UInt8 → Option HostFile) (fsName : List UInt8) (config : Int) : Fs := (do
  let _ ← kMkfs fsName 1 config
  let _ ← kMount fsName : FsM Unit).after (Fs.loaded hostFiles [])

variable {promised : Promises} {hostFiles : List UInt8 → Option HostFile} {fsName : List UInt8}
  {config : Int} {t : Fs}

section Fresh

theorem useImage_opens {s : Fs} (named : fsName ≠ []) (own : s.imageName = some fsName) :
    s.opens false fsName = true := by
  simp [opens, named, hostFile_own own]

/-- The image that `k_mkfs` leaves is the one that `k_mount` opens. -/
theorem format_useImage {s : Fs} {size : Nat} (host : s.host = []) (unmounted : s.gMounted = false)
    (small : size < 5) (cwd : s.gCwdBlock = 1) :
    Stored promised (((s.useImage fsName).formatAs size).useImage fsName) size (Image.blank size) := by
  have made : Stored promised ((s.useImage fsName).formatAs size) size (Image.blank size) :=
    format_stored (s := s.useImage fsName) host unmounted small cwd
  have own : ((s.useImage fsName).formatAs size).imageName = some fsName := rfl
  have image := hostFile_own own
  refine made.alike ?_ ?_ unmounted host made.rests.cwd
  · show (((((s.useImage fsName).formatAs size).hostFile fsName)).getD .empty).bytes = _
    rw [image]
    rfl
  · show (((((s.useImage fsName).formatAs size).hostFile fsName)).getD .empty).size = _
    rw [image]
    rfl

theorem freshVolume_eq (named : fsName ≠ []) (low : 0 ≤ config) (high : config ≤ 4) :
    freshVolume hostFiles fsName config =
      ((((Fs.loaded hostFiles []).useImage fsName).formatAs config.toNat).useImage fsName).mountAs
        config.toNat 1 := by
  have making := kMkfs_run (s := Fs.loaded hostFiles []) rfl rfl named low high
  have stored : Stored .plain
    ((((Fs.loaded hostFiles []).useImage fsName).formatAs config.toNat).useImage fsName)
      config.toNat (Image.blank config.toNat) := format_useImage rfl rfl (by omega) rfl
  have run : (do
      let _ ← kMkfs fsName 1 config
      let _ ← kMount fsName : FsM Unit) (Fs.loaded hostFiles []) =
        some ((), ((((Fs.loaded hostFiles []).useImage fsName).formatAs config.toNat).useImage fsName).mountAs
          config.toNat 1) := by
    rw [Prog.bind_of_run making, Prog.bind_of_run (stored.mount_run (useImage_opens named rfl))]
    rfl
  simp only [freshVolume, Prog.after, run, Option.map_some, Option.getD_some]

theorem freshVolume_resting (named : fsName ≠ []) (low : 0 ≤ config) (high : config ≤ 4) :
    Resting promised (freshVolume hostFiles fsName config) (Image.blank config.toNat) := by
  rw [freshVolume_eq named low high]
  exact (format_useImage (s := Fs.loaded hostFiles []) rfl rfl (by omega) rfl).rests

theorem freshVolume_accounted (named : fsName ≠ []) (low : 0 ≤ config) (high : config ≤ 4) :
    (freshVolume hostFiles fsName config).Accounted none := by
  rw [freshVolume_eq named low high]
  exact zero_accounted rfl rfl

theorem freshVolume_others (host : HostSound promised hostFiles fsName) (low : 0 ≤ config)
    (high : config ≤ 4) : (freshVolume hostFiles fsName config).OthersSound promised := by
  rw [freshVolume_eq host.named low high]
  intro name image away found
  have other : some fsName ≠ some name := away
  have kept : (((Fs.loaded hostFiles []).useImage fsName).formatAs config.toNat).hostFile name =
      some image := found
  rw [hostFile_other other] at kept
  exact host.others name image (fun same => other (same ▸ rfl)) kept

/-- The promises are kept in every run of guarded calls. -/
theorem guarded_run (host : HostSound promised hostFiles fsName) (low : 0 ≤ config) (high : config ≤ 4)
    (run : Run (Guarded promised) (freshVolume hostFiles fsName config) t) :
    Standing promised t ∧ t.Accounted none := by
  have start : Standing promised (freshVolume hostFiles fsName config) ∧
      (freshVolume hostFiles fsName config).OthersSound promised ∧
      (freshVolume hostFiles fsName config).Accounted none :=
    ⟨.mounted (freshVolume_resting host.named low high), freshVolume_others host low high,
      freshVolume_accounted host.named low high⟩
  have kept := run.keeps
    (P := fun s => Standing promised s ∧ s.OthersSound promised ∧ s.Accounted none) start ?_
  · exact ⟨kept.1, kept.2.2⟩
  rintro s call u ⟨standing, others, accounted⟩ guarded step
  exact ⟨guarded_step standing others accounted guarded step, others_step standing others
    (fun _ => guarded) step,
    step_accounted call accounted step⟩

end Fresh

/-- A result that path resolution reports can be computed. -/
theorem resolved_eq {α : Type} {resolve : FsM (PennFatErr × ResolvedPath)} {s : Fs} {err : PennFatErr}
    {r : ResolvedPath} {u : Fs} (f : PennFatErr × ResolvedPath → α)
    (run : resolve s = some ((err, r), u)) {a : α} (value : (resolve s).map (f ·.1) = some a) :
    f (err, r) = a := by
  rw [run] at value
  exact Option.some.inj value

/-- A blank volume of 256-byte blocks. -/
def blankVolume : Fs := freshVolume (fun _ => none) imageA.bytes 0

/-- A directory "b" and a file "a" are made; the file is written, closed and renamed to "c"; a file in "b"
and a directory "d" come and go. -/
def housekeeping : List Call :=
  [.mkdir 1 (.literal [98]), .openFile 2 (.literal [97]) 5, .write 3 0 (fun _ => 7) 5, .close 0,
    .rename 4 (.literal [97]) (.literal [99]), .touch 5 (.literal [98, 47, 120]),
    .unlink 6 (.literal [98, 47, 120]), .mkdir 7 (.literal [100]), .rmdir 8 (.literal [100])]

theorem housekeeping_ends : (runCalls housekeeping blankVolume).isSome = true := by decide +kernel

theorem mounted_resting {s : Fs} (run : Run (Guarded promised) blankVolume s) (mounted : s.gMounted = true) :
    ∃ I, Resting promised s I := by
  obtain ⟨standing, _⟩ := guarded_run (.empty (by decide)) (by decide) (by decide) run
  cases standing with
  | mounted resting => exact ⟨_, resting⟩
  | stored stored => exact absurd mounted (by rw [stored.unmounted]; decide)

/-- In a directory of one block without the name, the name is sound. -/
theorem nameSound_block {s : Fs} {name : List UInt8} {c : UInt8} {d : Nat} {besides : Nat × Nat → Prop}
    (promised : Promises) (head : name.head? = some c) (visible : c ≠ 1 ∧ c ≠ 2)
    (ends : s.disk.fat d = fatEoc)
    (fresh : ∀ i < s.disk.entriesPerBlock, (s.disk.dirent (d, i)).live = true →
      (s.disk.dirent (d, i)).cName ≠ name) :
    NameSound promised s d besides name := by
  obtain ⟨rest, rfl⟩ : ∃ rest, name = c :: rest := by
    cases name with
    | nil => cases head
    | cons first rest => exact ⟨rest, by rw [Option.some.inj head]⟩
  refine ⟨fun _ => ⟨List.cons_ne_nil c rest, fun other => ⟨fun same => ?_, fun same => ?_⟩⟩,
    fun _ => List.cons_ne_nil c rest, fun _ q on index _ => ?_⟩
  · exact visible.1 (List.cons.inj same).1
  · exact visible.2 (List.cons.inj same).1
  · have block := on.single ends
    rw [show q = (d, q.2) from Prod.ext block rfl]
    exact fresh q.2 index

theorem housekeeping_sound (promised : Promises) :
    SoundCalls (Guarded promised) blankVolume housekeeping := by
  refine ⟨fun _ err d run _ _ => ?_, fun _ _ err d run _ _ => ?_, fun _ _ _ => ?_, trivial, ?_,
    fun _ err d run _ _ => ?_, trivial, fun _ err d run _ _ => ?_, ?_, trivial⟩
  · obtain rfl : d = 1 := resolved_eq (fun x => x.2.parentDirBlock) run (by decide +kernel)
    exact nameSound_block (c := 98) promised rfl (by decide) (by decide +kernel) (by decide +kernel)
  · obtain rfl : d = 1 := resolved_eq (fun x => x.2.parentDirBlock) run (by decide +kernel)
    exact nameSound_block (c := 97) promised rfl (by decide) (by decide +kernel) (by decide +kernel)
  · exact ⟨1, (1, 1), ⟨⟨.root, .start, by decide +kernel⟩, by decide +kernel, fun isDot => isDot.1 rfl⟩,
      by decide +kernel, by decide +kernel⟩
  · intro _ r ds ps err target old found new good
    have parent : target.parentDirBlock = 1 :=
      resolved_eq (fun x => x.2.parentDirBlock) new (by decide +kernel)
    have missing : target.found = false := resolved_eq (fun x => x.2.found) new (by decide +kernel)
    have block : r.entryBlock = 1 := resolved_eq (fun x => x.2.entryBlock) old (by decide +kernel)
    have index : r.entryIndexInBlock = 1 :=
      resolved_eq (fun x => x.2.entryIndexInBlock) old (by decide +kernel)
    obtain ⟨_, _, _, block', index', _⟩ := found
    obtain rfl : ps = (1, 1) := Prod.ext (block'.symm.trans block) (by simp only; omega)
    refine ⟨fun d there => ?_, fun isDir => ?_, fun rest same => ?_, fun d p there => ?_, ?_⟩
    · cases missing.symm.trans there.1
    · exact absurd isDir (by decide +kernel)
    · exact absurd same (by rintro (⟨⟨⟩⟩ | ⟨⟨⟩⟩))
    · cases missing.symm.trans there.1
    · rw [parent]
      exact nameSound_block (c := 99) promised rfl (by decide) (by decide +kernel) (by decide +kernel)
  · obtain rfl : d = 2 := resolved_eq (fun x => x.2.parentDirBlock) run (by decide +kernel)
    exact nameSound_block (c := 120) promised rfl (by decide) (by decide +kernel) (by decide +kernel)
  · obtain rfl : d = 1 := resolved_eq (fun x => x.2.parentDirBlock) run (by decide +kernel)
    exact nameSound_block (c := 100) promised rfl (by decide) (by decide +kernel) (by decide +kernel)
  · intro _ r d p run found _ _
    have block : r.entryBlock = 1 := resolved_eq (fun x => x.2.entryBlock) run (by decide +kernel)
    have index : r.entryIndexInBlock = 1 :=
      resolved_eq (fun x => x.2.entryIndexInBlock) run (by decide +kernel)
    obtain ⟨_, _, _, block', index', _⟩ := found
    obtain rfl : p = (1, 1) := Prod.ext (block'.symm.trans block) (by simp only; omega)
    refine ⟨fun below => ?_, fun _ => ⟨by decide +kernel, by decide +kernel⟩⟩
    exact absurd below.at_root (by decide +kernel)

theorem housekeeping_run (promised : Promises) :
    Run (Guarded promised) (freshVolume (fun _ => none) imageA.bytes 0)
      ((runCalls housekeeping).after blankVolume) :=
  .of_calls (runCalls_after housekeeping_ends) (housekeeping_sound promised)

section Ownership

/-- In runs of guarded calls every chain ends and no block has two owners. -/
theorem blocks_owned (hostFiles : List UInt8 → Option HostFile) (fsName : List UInt8) (config : Int) (t : Fs)
    (host : HostSound .plain hostFiles fsName) (low : 0 ≤ config) (high : config ≤ 4)
    (run : Run (Guarded .plain) (freshVolume hostFiles fsName config) t) :
    t.disk.BlocksOwned := by
  obtain ⟨I, shows, good, _⟩ := (guarded_run host low high run).1.disk
  exact shows.blocksOwned good

theorem blocks_owned_housekeeping : ((runCalls housekeeping).after blankVolume).disk.BlocksOwned :=
  blocks_owned (fun _ => none) imageA.bytes 0 _ (.empty (by decide)) (by decide) (by decide)
    (housekeeping_run .plain)

/-- A file "a" is renamed to itself, past a free slot before its own. -/
def renamedToItself : List Call :=
  [.touch 1 (.literal [98]), .touch 2 (.literal [97]), .unlink 3 (.literal [98]),
    .rename 4 (.literal [97]) (.literal [46, 47, 97])]

/-- The file that replaced itself names a free block. -/
theorem rename_itself_frees :
    ¬ ∀ (hostFiles : List UInt8 → Option HostFile) (fsName : List UInt8) (config : Int) (t : Fs),
      HostSound .plain hostFiles fsName → 0 ≤ config → config ≤ 4 →
        Run AnyCall (freshVolume hostFiles fsName config) t → t.disk.BlocksOwned := by
  intro owned
  have ends : (runCalls renamedToItself blankVolume).isSome = true := by decide +kernel
  have kept := owned _ imageA.bytes 0 _ (.empty (by decide)) (by decide) (by decide)
    (.of_calls (runCalls_after ends) ⟨trivial, trivial, trivial, trivial, trivial⟩)
  have entry : ((runCalls renamedToItself).after blankVolume).disk.Entry 1 (1, 0) :=
    ⟨⟨.root, .start, by decide +kernel⟩, by decide +kernel, fun isDot => isDot.1 rfl⟩
  obtain ⟨nodes, chain⟩ := kept.entry 1 (1, 0) entry
  exact (chain.inside _ chain.first_mem).2.2 (by decide +kernel)

/-- In runs of guarded calls the directories form a tree. -/
theorem tree_shaped (hostFiles : List UInt8 → Option HostFile) (fsName : List UInt8) (config : Int) (t : Fs)
    (host : HostSound .plain hostFiles fsName) (low : 0 ≤ config) (high : config ≤ 4)
    (run : Run (Guarded .plain) (freshVolume hostFiles fsName config) t) :
    t.disk.TreeShaped := by
  obtain ⟨I, shows, good, _⟩ := (guarded_run host low high run).1.disk
  exact shows.treeShaped good

theorem tree_shaped_housekeeping : ((runCalls housekeeping).after blankVolume).disk.TreeShaped :=
  tree_shaped (fun _ => none) imageA.bytes 0 _ (.empty (by decide)) (by decide) (by decide)
    (housekeeping_run .plain)

/-- The directory "a" is moved into the directory "b". -/
def movedDirectory : List Call :=
  [.mkdir 1 (.literal [97]), .mkdir 2 (.literal [98]),
    .rename 3 (.literal [97]) (.literal [98, 47, 97])]

/-- '..' of a directory that was moved leads to where it was. -/
theorem rename_keeps_dotDot :
    ¬ ∀ (hostFiles : List UInt8 → Option HostFile) (fsName : List UInt8) (config : Int) (t : Fs),
      HostSound .plain hostFiles fsName → 0 ≤ config → config ≤ 4 →
        Run AnyCall (freshVolume hostFiles fsName config) t → t.disk.TreeShaped := by
  intro shaped
  obtain ⟨t, isT⟩ : ∃ t, t = (runCalls movedDirectory).after blankVolume := ⟨_, rfl⟩
  have ends : (runCalls movedDirectory blankVolume).isSome = true := by decide +kernel
  have kept := shaped _ imageA.bytes 0 t (.empty (by decide)) (by decide) (by decide)
    (isT ▸ .of_calls (runCalls_after ends) ⟨trivial, trivial, trivial, trivial⟩)
  have second : t.disk.Dir 3 := by
    have step : t.disk.Dir (t.disk.firstOf (1, 1)) := by
      subst isT
      exact .sub .root .start (by decide +kernel) (by decide +kernel) (fun isDot => isDot.1 rfl)
        (by decide +kernel)
    rw [show t.disk.firstOf (1, 1) = 3 by subst isT; decide +kernel] at step
    exact step
  have entry : t.disk.Entry 3 (3, 2) := by
    subst isT
    exact ⟨⟨second, .start, by decide +kernel⟩, by decide +kernel, fun isDot => absurd isDot.2.2 (by decide)⟩
  have first : t.disk.firstOf (3, 2) = 2 := by
    subst isT
    decide +kernel
  have moved : t.disk.Dir 2 := by
    have type : (t.disk.dirent (3, 2)).type = DirEntry.typeDirectory := by
      subst isT
      decide +kernel
    have step := Dir.sub second entry.block entry.index entry.live entry.named type
    rw [first] at step
    exact step
  obtain ⟨o, p, held, _, only, _, up⟩ := kept.parent 2 moved (by decide)
  have place := only 3 (3, 2) entry first
  have root : t.disk.up 2 = 1 := by
    subst isT
    decide +kernel
  rw [← up, root, ← place] at held
  have ends' : t.disk.fat 1 = fatEoc := by
    subst isT
    decide +kernel
  exact absurd (held.block.single ends') (by decide)

/-- In runs of guarded calls that keep every name visible and drop only directories of one empty
block, no block is lost. -/
theorem none_lost (hostFiles : List UInt8 → Option HostFile) (fsName : List UInt8) (config : Int) (t : Fs)
    (host : HostSound .keepBlocks hostFiles fsName) (low : 0 ≤ config) (high : config ≤ 4)
    (run : Run (Guarded .keepBlocks) (freshVolume hostFiles fsName config) t) :
    t.disk.NoneLost := by
  obtain ⟨I, shows, good, idle⟩ := (guarded_run host low high run).1.disk
  exact shows.noneLost good trivial idle

theorem none_lost_housekeeping : ((runCalls housekeeping).after blankVolume).disk.NoneLost :=
  none_lost (fun _ => none) imageA.bytes 0 _ (.empty (by decide)) (by decide) (by decide)
    (housekeeping_run .keepBlocks)

/-- A file without a name: what follows the last slash is empty. -/
def namelessFile : List Call := [.touch 1 (.literal [120, 47])]

/-- No entry leads to the block of a file without a name. -/
theorem nameless_lost :
    ¬ ∀ (hostFiles : List UInt8 → Option HostFile) (fsName : List UInt8) (config : Int) (t : Fs),
      HostSound .keepBlocks hostFiles fsName → 0 ≤ config → config ≤ 4 →
        Run AnyCall (freshVolume hostFiles fsName config) t → t.disk.NoneLost := by
  intro none
  obtain ⟨t, isT⟩ : ∃ t, t = (runCalls namelessFile).after blankVolume := ⟨_, rfl⟩
  have ends : (runCalls namelessFile blankVolume).isSome = true := by decide +kernel
  have kept := none _ imageA.bytes 0 t (.empty (by decide)) (by decide) (by decide)
    (isT ▸ .of_calls (runCalls_after ends) ⟨trivial, trivial⟩)
  have single : t.disk.fat 1 = fatEoc := by
    subst isT
    decide +kernel
  have dead : ∀ i < t.disk.entriesPerBlock, (t.disk.dirent (1, i)).live = false := by
    subst isT
    decide +kernel
  have top : ∀ {d p}, d = 1 → t.disk.OnChain d p.1 → p.2 < t.disk.entriesPerBlock →
      (t.disk.dirent p).live = false := by
    rintro d p rfl on index
    rw [show p = (1, p.2) from Prod.ext (on.single single) rfl]
    exact dead p.2 index
  have only : ∀ d, t.disk.Dir d → d = 1 := by
    intro d here
    induction here with
    | root => rfl
    | sub _ on index live _ _ ih =>
        rw [top ih on index] at live
        cases live
  rcases kept 2 (by decide) (by subst isT; decide +kernel) (by subst isT; decide +kernel) with
    root | ⟨d, p, entry, _⟩
  · exact absurd (root.single single) (by decide)
  · have live := entry.live
    rw [top (only d entry.dir) entry.block entry.index] at live
    cases live

/-- In runs of guarded calls that give new entries new names, names are unique. -/
theorem names_unique (hostFiles : List UInt8 → Option HostFile) (fsName : List UInt8) (config : Int) (t : Fs)
    (host : HostSound .keepNames hostFiles fsName) (low : 0 ≤ config) (high : config ≤ 4)
    (run : Run (Guarded .keepNames) (freshVolume hostFiles fsName config) t) :
    t.disk.NamesUnique := by
  obtain ⟨I, shows, good, _⟩ := (guarded_run host low high run).1.disk
  exact shows.namesUnique good trivial

theorem names_unique_housekeeping : ((runCalls housekeeping).after blankVolume).disk.NamesUnique :=
  names_unique (fun _ => none) imageA.bytes 0 _ (.empty (by decide)) (by decide) (by decide)
    (housekeeping_run .keepNames)

/-- The parent of the second path is missing, and the root directory takes its place. -/
def missingParent : List Call := [.touch 1 (.literal [97]), .touch 2 (.literal [98, 47, 97])]

/-- Two files get the name "a". -/
theorem missing_parent_duplicates :
    ¬ ∀ (hostFiles : List UInt8 → Option HostFile) (fsName : List UInt8) (config : Int) (t : Fs),
      HostSound .keepNames hostFiles fsName → 0 ≤ config → config ≤ 4 →
        Run AnyCall (freshVolume hostFiles fsName config) t → t.disk.NamesUnique := by
  intro unique
  have ends : (runCalls missingParent blankVolume).isSome = true := by decide +kernel
  have kept := unique _ imageA.bytes 0 _ (.empty (by decide)) (by decide) (by decide)
    (.of_calls (runCalls_after ends) ⟨trivial, trivial, trivial⟩)
  have slot : ∀ i < 4, ((runCalls missingParent).after blankVolume).disk.Slot 1 (1, i) := by
    intro i inside
    have many : ((runCalls missingParent).after blankVolume).disk.entriesPerBlock = 4 := by decide +kernel
    exact ⟨.root, .start, many ▸ inside⟩
  have same := kept 1 (1, 0) (1, 1) (slot 0 (by decide)) (slot 1 (by decide)) (by decide +kernel)
    (by decide +kernel) (by decide +kernel)
  cases same

end Ownership

end PennOs.Fat
