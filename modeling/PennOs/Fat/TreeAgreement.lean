import PennOs.Fat.ChainContents
import PennOs.Fat.TreeRuns

set_option autoImplicit false

/- When two volumes hold the same directory tree, and what an unmount and a mount keep of it. -/
namespace PennOs.Fat

open Image (Promises KeepsAll)
open Fs

namespace Fs

/-- The directory `d` has the live entry `e`. -/
def Lists (s : Fs) (d : Nat) (e : DirEntry) : Prop :=
  ∃ p, s.Slot d p ∧ (s.dirent p).live = true ∧ s.dirent p = e

/-- The chain from `first` visits the same blocks, and they hold the same bytes. -/
def SameContents (s t : Fs) (first : Nat) : Prop :=
  ∃ nodes, s.Chain first nodes ∧ t.Chain first nodes ∧ ∀ k, t.byteAt nodes k = s.byteAt nodes k

/-- The same directories with the same live entries, and files with the same contents. -/
structure SameTree (s t : Fs) : Prop where
  dir : ∀ d, t.Dir d ↔ s.Dir d
  lists : ∀ d e, t.Lists d e ↔ s.Lists d e
  contents : ∀ d p, s.Entry d p → (s.dirent p).type ≠ DirEntry.typeDirectory →
    SameContents s t (s.firstOf p)

end Fs

/-- The directories of `I` are those of `J`, and have the same live entries in the same slots. -/
structure Agrees (I J : Image) : Prop where
  dirs : J.dirs = I.dirs
  chain : ∀ d, I.dirs d → J.chain d = I.chain d
  slots : J.slots = I.slots
  live : ∀ d q, I.At d q → (J.slot q.1 q.2).live = (I.slot q.1 q.2).live
  rows : ∀ d q, I.At d q → (I.slot q.1 q.2).live = true → J.slot q.1 q.2 = I.slot q.1 q.2

variable {s t v w : Fs} {I J : Image} {d h : Nat} {p q : Nat × Nat} {e : DirEntry}

section Agreement

theorem Agrees.at_iff (agrees : Agrees I J) : J.At d q ↔ I.At d q := by
  constructor
  · rintro ⟨here, block, index⟩
    have here' : I.dirs d := agrees.dirs ▸ here
    exact ⟨here', agrees.chain d here' ▸ block, agrees.slots ▸ index⟩
  · rintro ⟨here, block, index⟩
    exact ⟨agrees.dirs ▸ here, (agrees.chain d here).symm ▸ block, agrees.slots.symm ▸ index⟩

theorem Agrees.symm (agrees : Agrees I J) : Agrees J I where
  dirs := agrees.dirs.symm
  chain d here := (agrees.chain d (agrees.dirs ▸ here)).symm
  slots := agrees.slots.symm
  live d q place := (agrees.live d q (agrees.at_iff.mp place)).symm
  rows d q place alive := by
    have place' := agrees.at_iff.mp place
    exact (agrees.rows d q place' ((agrees.live d q place').symm.trans alive)).symm

theorem Agrees.holds (agrees : Agrees I J) {c : Nat} (link : I.Holds d q c) : J.Holds d q c := by
  have row := agrees.rows d q link.toAt link.live
  exact ⟨agrees.at_iff.mpr link.toAt, row ▸ link.live, link.named, row ▸ link.first⟩

variable (shows : Shows v I) (wf : I.Wf) (shows' : Shows w J) (wf' : J.Wf) (agrees : Agrees I J)

include shows wf shows' wf' agrees

theorem Agrees.dir (here : v.Dir d) : w.Dir d := by
  induction here with
  | root => exact .root
  | @sub d p above block index live named isDir ih =>
      have entry : v.Entry d p := ⟨⟨above, block, index⟩, live, named⟩
      have link := shows.holds wf entry
      obtain ⟨entry', first⟩ := shows'.entry wf' ih (agrees.holds link)
      have same : w.dirent p = v.dirent p := by
        have row := shows.row wf entry.toSlot
        rw [shows'.row wf' entry'.toSlot, row]
        exact agrees.rows d p link.toAt (row ▸ live)
      rw [← first]
      exact .sub ih entry'.block entry'.index entry'.live entry'.named (same ▸ isDir)

/-- The slots are the same, and live entries are the same in them. -/
theorem Agrees.slot (slot : v.Slot d p) : w.Slot d p ∧ (w.dirent p).live = (v.dirent p).live ∧
    ((v.dirent p).live = true → w.dirent p = v.dirent p) := by
  have place := shows.at_ wf slot
  have place' := agrees.at_iff.mpr place
  have here := agrees.dir shows wf shows' wf' slot.dir
  have slot' : w.Slot d p :=
    ⟨here, (shows'.onChain_iff wf' (wf'.dirHead d place'.dir)).mpr place'.block, shows'.slots ▸ place'.index⟩
  rw [shows.row wf slot, shows'.row wf' slot']
  exact ⟨slot', agrees.live d p place, agrees.rows d p place⟩

theorem Agrees.entry (entry : v.Entry d p) : w.Entry d p ∧ w.dirent p = v.dirent p := by
  obtain ⟨slot, live, same⟩ := agrees.slot shows wf shows' wf' entry.toSlot
  exact ⟨⟨slot, live.trans entry.live, entry.named⟩, same entry.live⟩

theorem Agrees.listed (listed : v.Lists d e) : w.Lists d e := by
  obtain ⟨p, slot, live, rfl⟩ := listed
  obtain ⟨slot', live', same⟩ := agrees.slot shows wf shows' wf' slot
  exact ⟨p, slot', live'.trans live, same live⟩

end Agreement

section Contents

/-- Blocks that hold the same bytes make the same contents. -/
theorem sameContents_of_blocks (shows : Shows v I) (wf : I.Wf) (shows' : Shows w J) (wf' : J.Wf)
    (used : I.chain h ≠ []) (chain : J.chain h = I.chain h) (size : w.gBlockSize = v.gBlockSize)
    (blocks : ∀ b ∈ I.chain h, w.block b = v.block b) : SameContents v w h := by
  refine ⟨I.chain h, shows.chain wf used, chain ▸ shows'.chain wf' (chain.symm ▸ used), fun k => ?_⟩
  simp only [byteAt, size]
  cases found : (I.chain h)[k / v.gBlockSize]? with
  | none => rfl
  | some b =>
      simp only
      rw [blocks b (List.mem_of_getElem? found)]

end Contents

/-- `k_unmount`, then `k_mount` of the same image. -/
def remount (image : List UInt8) : FsM PennFatErr := do
  let _ ← kUnmount
  kMount image

section Remounting

theorem closeAll_idle {count fd : Nat}
    (closed : ∀ x, fd ≤ x → x < fd + count → (s.gFdTable x).inUse = false) :
    closeAll count fd s = some ((), s) := by
  induction count generalizing fd with
  | zero => rfl
  | succ count ih =>
      have here := closed fd (Nat.le_refl fd) (by omega)
      have idle : ¬ (s.gFdTable fd).inUse = true := by
        rw [here]
        exact Bool.false_ne_true
      simp only [closeAll, Prog.get_bind, idle, Bool.false_eq_true, ↓reduceIte]
      exact ih fun x low high => closed x (by omega) (by omega)

theorem unmountAs_disk {promised : Promises} (resting : Resting promised s I) (fd : Nat)
    (mapping : Mapping) (root : RootBuffer) :
    (unmountAs s fd mapping root).disk.gBlockSize = s.disk.gBlockSize ∧
      ∀ b < I.blocks, b ≠ 1 → (unmountAs s fd mapping root).disk.block b = s.disk.block b := by
  have bounds := resting.tracks.ready.blockSize_bounds
  have blocks := resting.tracks.blocks_bounds
  have size := resting.disk_blockSize
  have file : (unmountAs s fd mapping root).file = overlay s.file s.gBlockSize s.gBlockSize root.contents :=
    rfl
  have size' : (unmountAs s fd mapping root).disk.gBlockSize = s.disk.gBlockSize := by
    show blockSizes ((unmountAs s fd mapping root).file 0).toNat = blockSizes (s.file 0).toNat
    rw [file, overlay_outside (by omega)]
  refine ⟨size', fun b high other => ?_⟩
  funext j
  by_cases inside : j < s.gBlockSize
  · have away := s.block_apart other.symm inside
    have product : b * s.gBlockSize ≤ 65535 * 4096 := Nat.mul_le_mul (by omega) (by omega)
    have bytes : (unmountAs s fd mapping root).file (b * s.gBlockSize + j) =
      s.file (b * s.gBlockSize + j) := by
      rw [file]
      exact overlay_outside (by omega)
    simp only [block, blockOffset, size', size, inside, ↓reduceIte]
    rw [Nat.mod_eq_of_lt (by omega)]
    exact bytes
  · simp only [block, size', size, inside, ↓reduceIte]

/-- The image without the entries in the first block of the root directory. -/
theorem clearRoot_agrees (dead : ∀ i < I.slots, (I.slot 1 i).live = false) :
    Agrees I (I.setRow 1 fun _ => .zero) := by
  have inRoot : ∀ {d q}, I.At d q → q.1 = 1 → (I.slot q.1 q.2).live = false := by
    intro d q place first
    rw [first]
    exact dead q.2 place.index
  refine ⟨rfl, fun _ _ => rfl, rfl, fun d q place => ?_, fun d q place live => ?_⟩
  · by_cases first : q.1 = 1
    · rw [inRoot place first, first, I.setRow_self]
      rfl
    · rw [I.setRow_ne _ first]
  · by_cases first : q.1 = 1
    · rw [inRoot place first] at live
      cases live
    · rw [I.setRow_ne _ first]

/-- The volume that is mounted after `k_unmount` shows the image with a cleared root block. -/
theorem remount_run {promised : Promises} {image : List UInt8} (resting : Resting promised s I)
    (own : s.imageName = some image) (named : image ≠ [])
    (empty : promised.lossless → ∀ i < I.slots, (I.slot 1 i).live = false)
    (closed : ∀ fd < maxFd, (s.gFdTable fd).inUse = false) :
    ∃ J t fd mapping root, Resting promised s J ∧
      remount image s = some (.ok, t) ∧ Resting promised t (J.setRow 1 fun _ => .zero) ∧
      t.disk = (unmountAs s fd mapping root).disk := by
  obtain ⟨err, t, run, u, J, closing, unmounted⟩ := kUnmount_run resting empty
  have idle : closeAll maxFd 0 s = some ((), s) := closeAll_idle fun x _ high => closed x (by omega)
  rw [idle] at closing
  obtain rfl : s = u := by simpa using closing
  obtain ⟨config, stored⟩ := unmounted.stored
  obtain ⟨fd, mapping, root, rfl⟩ := unmounted.result
  have found := hostFile_own (s := unmountAs s fd mapping root) own
  have file : ((unmountAs s fd mapping root).useImage image).file = (unmountAs s fd mapping root).file := by
    simp only [useImage, found, Option.getD_some]
  have size : ((unmountAs s fd mapping root).useImage image).fileSize =
      (unmountAs s fd mapping root).fileSize := by
    simp only [useImage, found, Option.getD_some]
  have stored' := stored.alike file size stored.unmounted stored.host stored.rests.cwd
  refine ⟨J, _, fd, mapping, root, unmounted.settled.rests, ?_, stored'.rests, ?_⟩
  · rw [remount, Prog.bind_of_run run]
    exact stored'.mount_run (useImage_opens named own)
  · show ((unmountAs s fd mapping root).useImage image).disk = _
    simp only [disk, file, size]

theorem clearRoot_sameTree {promised : Promises} (before : Resting promised s I)
    (after : Resting promised t (I.setRow 1 fun _ => .zero)) {fd : Nat} {mapping : Mapping}
    {root : RootBuffer} (disk : t.disk = (unmountAs s fd mapping root).disk)
    (dead : ∀ i < I.slots, (I.slot 1 i).live = false) : SameTree s.disk t.disk := by
  have wf := before.good.wf
  have wf' := after.good.wf
  have agrees := clearRoot_agrees dead
  obtain ⟨size, blocks⟩ := unmountAs_disk before fd mapping root
  rw [← disk] at size blocks
  constructor
  · intro d
    exact ⟨agrees.symm.dir after.disk wf' before.disk wf, agrees.dir before.disk wf after.disk wf'⟩
  · intro d e
    exact ⟨agrees.symm.listed after.disk wf' before.disk wf,
      agrees.listed before.disk wf after.disk wf'⟩
  · intro d p entry _
    have link := before.disk.holds wf entry
    refine sameContents_of_blocks before.disk wf after.disk wf' (wf.target d p _ link).1 rfl size ?_
    intro b member
    refine blocks b (wf.inside _ b member).2.1 ?_
    -- the first block is the root directory's, and no entry names the root directory
    rintro rfl
    exact wf.tree.notRoot d p _ link (wf.apart member (wf.dir_mem wf.root))

/-- An entry in the first block of the root directory is in no directory afterwards. -/
theorem clearRoot_loses {promised : Promises} (before : Resting promised s I)
    (after : Resting promised t (I.setRow 1 fun _ => .zero)) (same : SameTree s.disk t.disk) {i : Nat}
    (inside : i < I.slots) : (I.slot 1 i).live = false := by
  have wf := before.good.wf
  have wf' := after.good.wf
  by_contra alive
  have alive' : (I.slot 1 i).live = true := by simpa using alive
  have link : I.Holds 1 (1, i) (I.slot 1 i).firstBlock.toNat :=
    ⟨⟨wf.root, wf.dir_mem wf.root, inside⟩, alive', fun isDot => isDot.1 rfl, rfl⟩
  obtain ⟨entry, first⟩ := before.disk.entry wf .root link
  obtain ⟨q, slot, live, moved⟩ :=
    (same.lists 1 (s.disk.dirent (1, i))).mpr ⟨(1, i), entry.toSlot, entry.live, rfl⟩
  have place := after.disk.at_ wf' slot
  rw [after.disk.row wf' slot] at live moved
  have other : q.1 ≠ 1 := by
    intro inFirst
    rw [inFirst, I.setRow_self] at live
    cases live
  rw [I.setRow_ne _ other] at live moved
  rw [before.disk.row wf entry.toSlot] at moved
  have link' : I.Holds 1 q (I.slot 1 i).firstBlock.toNat :=
    ⟨⟨wf.root, place.block, place.index⟩, live, fun isDot => isDot.1 rfl, by rw [moved]⟩
  exact other (congrArg Prod.fst (wf.tree.unique 1 q 1 (1, i) _ link' link).2)

/-- In a run of guarded calls that leaves no descriptor open, `k_unmount` and `k_mount` keep the
directory tree if and only if the first block of the root directory has no live entry. -/
theorem tree_persists_iff (hostFiles : List UInt8 → Option HostFile) (fsName : List UInt8) (config : Int)
    (s : Fs) (host : HostSound .plain hostFiles fsName) (low : 0 ≤ config) (high : config ≤ 4)
    (run : Run (Guarded .plain) (freshVolume hostFiles fsName config) s) (mounted : s.gMounted = true)
    (image : List UInt8) (own : s.imageName = some image) (named : image ≠ [])
    (closed : ∀ fd < maxFd, (s.gFdTable fd).inUse = false) :
    Prog.Ensures (remount image) s (fun err t => err = .ok ∧ SameTree s.disk t.disk) ↔
      ∀ i < s.disk.entriesPerBlock, (s.disk.dirent (1, i)).live = false := by
  cases (guarded_run host low high run).1 with
  | stored stored =>
      rw [stored.unmounted] at mounted
      cases mounted
  | mounted resting =>
      obtain ⟨J, t, fd, mapping, root, before, again, after, disk⟩ :=
        remount_run resting own named False.elim closed
      have shows := before.disk
      have wf := before.good.wf
      have rows : ∀ i < J.slots, s.disk.dirent (1, i) = J.slot 1 i :=
        fun i inside => shows.dirent wf (wf.dir_mem wf.root) inside
      rw [Prog.ensures_iff_of_run again]
      constructor
      · rintro ⟨_, same⟩ i inside
        have inside' : i < J.slots := shows.slots ▸ inside
        rw [rows i inside']
        exact clearRoot_loses before after same inside'
      · intro dead
        refine ⟨rfl, clearRoot_sameTree before after disk fun i inside => ?_⟩
        rw [← rows i inside]
        exact dead i (shows.slots ▸ inside)

theorem housekeeping_mounted : ((runCalls housekeeping).after blankVolume).gMounted = true ∧
    ∀ fd < maxFd, (((runCalls housekeeping).after blankVolume).gFdTable fd).inUse = false := by
  decide +kernel

theorem tree_persists_iff_housekeeping :
    Prog.Ensures (remount imageA.bytes) ((runCalls housekeeping).after blankVolume) (fun err t => err = .ok ∧
        SameTree ((runCalls housekeeping).after blankVolume).disk t.disk) ↔
      ∀ i < ((runCalls housekeeping).after blankVolume).disk.entriesPerBlock,
        (((runCalls housekeeping).after blankVolume).disk.dirent (1, i)).live = false :=
  tree_persists_iff _ imageA.bytes 0 _ (.empty (by decide)) (by decide) (by decide) (housekeeping_run .plain)
    housekeeping_mounted.1 imageA.bytes (by decide +kernel) (by decide) housekeeping_mounted.2

end Remounting

end PennOs.Fat
