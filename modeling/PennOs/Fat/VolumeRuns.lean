import PennOs.Fat.WriteRuns
import PennOs.Fat.MountRuns

set_option autoImplicit false

/- Making, mounting and unmounting a volume of one FAT block, when the host carries out every
call. -/
namespace PennOs.Fat

open LinkedChain (Links Forest)
open Image (Promises KeepsAll)
open Fs

namespace Fs

/-- The bytes `k_mkfs` writes for one FAT block. -/
def blankBytes (config j : Nat) : UInt8 :=
  if j < 2 then LittleEndian.byte (256 + config) j
  else if j < 4 then LittleEndian.byte fatEoc (j - 2)
  else 0

/-- The state after a successful `k_mkfs` of one FAT block. -/
def formatAs (s : Fs) (config : Nat) : Fs :=
  { s with
    file := blankBytes config
    fileSize := blockSizes config / 2 * blockSizes config
    nextHandle := s.nextHandle + 1 }

end Fs

/-- The image of a volume that was just made. -/
def Image.blank (config : Nat) : Image where
  blocks := blockSizes config / 2
  slots := blockSizes config / 64
  fat b := if b = 0 then 256 + config else if b = 1 then fatEoc else fatFree
  slot _ _ := .zero
  dirs d := d = 1
  chain h := if h = 1 then [1] else []
  loose _ := False

/-- A volume of one FAT block lies on the host and is not mounted. -/
structure Stored (promised : Promises) (s : Fs) (config : Nat) (I : Image) : Prop where
  unmounted : s.gMounted = false
  host : s.host = []
  formatted : s.Formatted config 1
  rests : Resting promised (s.mountAs config 1) I

variable {promised : Promises} {s t : Fs} {I : Image} {config : Nat}

section Making

theorem blockSizes_cases (small : config < 5) :
    256 ≤ blockSizes config ∧ blockSizes config ≤ 4096 ∧ blockSizes config % 256 = 0 := by
  have cases : config = 0 ∨ config = 1 ∨ config = 2 ∨ config = 3 ∨ config = 4 := by omega
  rcases cases with rfl | rfl | rfl | rfl | rfl <;> simp [blockSizes]

/-- The size of the image is that of its blocks. -/
theorem totalSize_eq (small : config < 5) :
    (1 * blockSizes config + (1 * blockSizes config / 2 - 1 -
      (if 1 * blockSizes config / 2 - 1 = 0xFFFF then 1 else 0)) * blockSizes config) % 2 ^ 32 =
        blockSizes config / 2 * blockSizes config := by
  have cases : config = 0 ∨ config = 1 ∨ config = 2 ∨ config = 3 ∨ config = 4 := by omega
  rcases cases with rfl | rfl | rfl | rfl | rfl <;> decide

theorem image_eq (small : config < 5) :
    overlay (overlay (fun _ => 0) 0 (1 * blockSizes config) fun j =>
        if j < 2 then LittleEndian.byte (1 * 256 + config) j
        else if j < 4 then LittleEndian.byte fatEoc (j - 2)
        else 0) (1 * blockSizes config) (blockSizes config) zeroBuffer = blankBytes config := by
  obtain ⟨large, _⟩ := blockSizes_cases small
  funext j
  by_cases inside : j < blockSizes config
  · rw [overlay_outside (by omega), overlay_inside (by omega) (by omega)]
    rfl
  · have past : blankBytes config j = 0 := by
      rw [blankBytes, if_neg (by omega), if_neg (by omega)]
    rw [past]
    by_cases root : j < 1 * blockSizes config + blockSizes config
    · rw [overlay_inside (by omega) (by omega)]
      rfl
    · rw [overlay_outside (by omega), overlay_outside (by omega)]

theorem formatImage_run (host : s.host = []) (small : config < 5) :
    formatImage 1 config s.clearImage = some (.ok,
      { s with
        file := blankBytes config
        fileSize := blockSizes config / 2 * blockSizes config }) := by
  have total := totalSize_eq small
  have bytes := image_eq small
  have double : 2 * blockSizes config ≤ blockSizes config / 2 * blockSizes config :=
    Nat.mul_le_mul_right _ (by have := blockSizes_cases small; omega)
  simp only [formatImage]
  rw [Prog.bind_of_run (hostOk_run (by exact host))]
  simp only [Bool.not_true, Bool.false_eq_true, ↓reduceIte, Prog.modify_bind, total]
  rw [Prog.bind_of_run (malloc_run (by exact host))]
  simp only [Bool.not_true, Bool.false_eq_true, ↓reduceIte]
  rw [Prog.bind_of_run (hostOk_run (by exact host))]
  simp only [Bool.not_true, Bool.false_eq_true, ↓reduceIte]
  rw [Prog.bind_of_run (hostWrite_run (by exact host) _ _ _)]
  simp only [Bool.not_true, Bool.false_eq_true, ↓reduceIte]
  rw [Prog.bind_of_run (malloc_run (by exact host))]
  simp only [Bool.not_true, Bool.false_eq_true, ↓reduceIte]
  rw [Prog.bind_of_run (hostOk_run (by exact host))]
  simp only [Bool.not_true, Bool.false_eq_true, ↓reduceIte]
  rw [Prog.bind_of_run (hostWrite_run (by exact host) _ _ _)]
  simp only [Bool.not_true, Bool.false_eq_true, ↓reduceIte, Prog.pure_run, putBytes, clearImage]
  rw [bytes, Nat.max_eq_left (by omega), Nat.max_eq_left (by omega)]

theorem opens_create {fsName : List UInt8} (named : fsName ≠ []) : s.opens true fsName = true := by
  simp [opens, named]

theorem kMkfs_run (host : s.host = []) (unmounted : s.gMounted = false) {fsName : List UInt8}
    (named : fsName ≠ []) {config : Int} (low : 0 ≤ config) (high : config ≤ 4) :
    kMkfs fsName 1 config s = some (.ok, (s.useImage fsName).formatAs config.toNat) := by
  have count : ¬ ((1 : Int) < 1 ∨ 32 < (1 : Int)) := by decide
  have size : ¬ (config < 0 ∨ 4 < config) := by omega
  simp only [kMkfs, Prog.get_bind, unmounted, Bool.false_eq_true, ↓reduceIte, count, size]
  rw [Prog.bind_of_run (hostOpen_run host (opens_create named))]
  simp only [Prog.modify_bind]
  have formatted : formatImage 1 config.toNat (s.useImage fsName).openImage.1.clearImage = some (.ok,
      { (s.useImage fsName).openImage.1 with
        file := blankBytes config.toNat
        fileSize := blockSizes config.toNat / 2 * blockSizes config.toNat }) :=
    formatImage_run host (by omega)
  have one : (1 : Int).toNat = 1 := rfl
  rw [one, Prog.bind_of_run formatted, Prog.bind_of_run (hostClose_run (by exact host) _)]
  simp only [Prog.pure_run, closeFd, openImage, useImage, List.erase_cons_head, formatAs]

/-- `k_mkfs` of a file without a name changes nothing. -/
theorem kMkfs_nameless (host : s.host = []) (unmounted : s.gMounted = false) (blocksInFat config : Int) :
    ∃ err, kMkfs [] blocksInFat config s = some (err, s) := by
  unfold kMkfs
  simp only [Prog.get_bind, unmounted, Bool.false_eq_true, ↓reduceIte]
  split
  · exact ⟨.invad, rfl⟩
  split
  · exact ⟨.invad, rfl⟩
  have missing : s.opens true [] = false := rfl
  rw [Prog.bind_of_run (hostOpen_missing host missing)]
  exact ⟨.internal, rfl⟩

theorem blankBytes_fat (s : Fs) (small : config < 5) (b : Nat) :
    (s.formatAs config).fat b = (Image.blank config).fat b := by
  have word : (s.formatAs config).fat b =
      (blankBytes config (2 * b + 1)).toNat * 256 + (blankBytes config (2 * b)).toNat := by
    simp only [fat, LittleEndian.value, formatAs, Nat.add_zero, Nat.zero_add]
    omega
  rw [word]
  simp only [Image.blank]
  by_cases zero : b = 0
  · have cases : config = 0 ∨ config = 1 ∨ config = 2 ∨ config = 3 ∨ config = 4 := by omega
    subst zero
    rcases cases with rfl | rfl | rfl | rfl | rfl <;> decide
  · by_cases one : b = 1
    · subst one
      rw [show blankBytes config (2 * 1 + 1) = LittleEndian.byte fatEoc 1 from rfl,
        show blankBytes config (2 * 1) = LittleEndian.byte fatEoc 0 from rfl, if_neg (by decide), if_pos rfl]
      decide
    · have past : ∀ j, 4 ≤ j → blankBytes config j = 0 := by
        intro j high
        rw [blankBytes, if_neg (by omega), if_neg (by omega)]
      rw [past _ (by omega), past _ (by omega), if_neg zero, if_neg one]
      rfl

theorem blank_slots (s : Fs) (small : config < 5) {b i : Nat} (low : 1 ≤ b)
    (inside : i < blockSizes config / 64) (high : b < blockSizes config / 2) :
    direntAt (((s.formatAs config).mountAs config 1).block b) i = .zero := by
  obtain ⟨large, limit, _⟩ := blockSizes_cases small
  rw [← direntAt_zeroBuffer i]
  apply direntAt_congr
  intro j within _
  have offset : ((s.formatAs config).mountAs config 1).blockOffset b = b * blockSizes config := by
    have product : b * blockSizes config ≤ 2048 * 4096 := Nat.mul_le_mul (by omega) limit
    exact Nat.mod_eq_of_lt (by show b * blockSizes config < 2 ^ 32; omega)
  have start : blockSizes config ≤ b * blockSizes config := Nat.le_mul_of_pos_left _ low
  simp only [block, offset, zeroBuffer]
  split
  · show blankBytes config _ = 0
    rw [blankBytes, if_neg (by omega), if_neg (by omega)]
  · rfl

theorem blank_holds {d c : Nat} {p : Nat × Nat} : ¬ (Image.blank config).Holds d p c := by
  intro link
  have live := link.live
  cases live

theorem blank_wf (small : config < 5) : (Image.blank config).Wf := by
  obtain ⟨large, limit, _⟩ := blockSizes_cases small
  have chain : ∀ h b, b ∈ (Image.blank config).chain h → h = 1 ∧ b = 1 := by
    intro h b member
    simp only [Image.blank] at member
    split at member
    · next one => exact ⟨one, List.mem_singleton.mp member⟩
    · cases member
  have root : (Image.blank config).chain 1 = [1] := rfl
  have other : ∀ h, h ≠ 1 → (Image.blank config).chain h = [] := fun h away => if_neg away
  constructor
  · show 4 ≤ blockSizes config / 64
    omega
  · show blockSizes config / 2 ≤ 2048
    omega
  · constructor
    · intro h
      by_cases one : h = 1
      · subst one
        exact ⟨rfl, rfl⟩
      · simp only [Function.comp, other h one]
        exact rfl
    · intro h h' b first second
      rw [(chain h b first).1, (chain h' b second).1]
  · intro h b head
    have member := List.mem_of_mem_head? (Option.mem_def.mpr head)
    rw [(chain h b member).1, (chain h b member).2]
  · intro h b member
    obtain ⟨rfl, rfl⟩ := chain h b member
    have eoc : (Image.blank config).fat 1 = fatEoc := rfl
    refine ⟨Nat.le_refl 1, ?_, by rw [eoc]; decide⟩
    show 1 < blockSizes config / 2
    omega
  · intro d here
    rw [show d = 1 from here, root]
    exact List.cons_ne_nil 1 []
  · intro d here proper
    exact absurd here proper
  · intro d p c link
    exact absurd link blank_holds
  · intro c loose
    exact loose.elim
  · exact
      { rootDir := rfl
        parentDir := fun d here proper => absurd here proper
        holder := fun d p c link => absurd link blank_holds
        notRoot := fun d p c link => absurd link blank_holds
        unique := fun d p d' p' c link => absurd link blank_holds
        parentOf := fun d p c link => absurd link blank_holds
        looseFree := fun c loose => loose.elim
        rank := ⟨fun _ => 0, fun d here proper => absurd here proper⟩ }

theorem blank_good (small : config < 5) : (Image.blank config).Good promised where
  wf := blank_wf small
  covered _ :=
    { used := fun b low _ inUse => by
        have free : (Image.blank config).fat b = fatFree := by
          simp only [Image.blank]
          rw [if_neg (by omega), if_neg (by omega)]
        exact absurd free inUse
      owned := fun h inUse => by
        left
        by_contra away
        exact inUse (if_neg away) }
  dense _ := fun _ _ _ _ _ _ _ _ _ => rfl
  distinct _ := ⟨fun _ _ _ _ _ live _ _ => absurd live Bool.false_ne_true, fun _ _ _ _ _ _ _ _ _ => rfl⟩

/-- A new volume is blank. -/
theorem format_stored (host : s.host = []) (unmounted : s.gMounted = false) (small : config < 5)
    (cwd : s.gCwdBlock = 1) : Stored promised (s.formatAs config) config (Image.blank config) := by
  obtain ⟨large, limit, whole⟩ := blockSizes_cases small
  have half : 2 * blockSizes config ≤ blockSizes config / 2 * blockSizes config :=
    Nat.mul_le_mul_right _ (by omega)
  have word := blankBytes_fat s small 0
  have formatted : (s.formatAs config).Formatted config 1 := by
    have cases : config = 0 ∨ config = 1 ∨ config = 2 ∨ config = 3 ∨ config = 4 := by omega
    refine ⟨?_, small, ?_, by decide, ?_⟩
    · show (blankBytes config 0).toNat = config
      rcases cases with rfl | rfl | rfl | rfl | rfl <;> decide
    · show (blankBytes config 1).toNat = 1
      rcases cases with rfl | rfl | rfl | rfl | rfl <;> decide
    · show 1 * blockSizes config + blockSizes config ≤ blockSizes config / 2 * blockSizes config
      omega
  refine ⟨unmounted, host, formatted, ⟨⟨⟨⟨mountAs_mounted host formatted, ?_⟩, ?_, ?_, ?_⟩, ?_⟩,
    blank_good small, fun c loose => loose, cwd⟩⟩
  · exact Nat.le_refl _
  · exact Nat.le_refl _
  · exact ⟨config, small, rfl, word⟩
  · refine ⟨_, rfl, fun j inside => ?_⟩
    have past : blankBytes config (1 * blockSizes config + j) = 0 := by
      rw [blankBytes, if_neg (by omega), if_neg (by omega)]
    show (if j < blockSizes config then blankBytes config (1 * blockSizes config + j) else 0) = 0
    rw [past, ite_self]
  · exact
      { blocks := rfl
        slots := rfl
        fat := fun b _ => blankBytes_fat s small b
        slot := fun b low high i inside => blank_slots s small low inside high }

end Making

section Mounting

theorem Stored.mount_run {fsName : List UInt8} (stored : Stored promised (s.useImage fsName) config I)
    (opens : s.opens false fsName = true) :
    kMount fsName s = some (.ok, (s.useImage fsName).mountAs config 1) :=
  kMount_run stored.host stored.unmounted opens stored.formatted

/-- Descriptors were closed: sizes and times went back to the entries of their files. -/
structure Settled (promised : Promises) (s : Fs) (I : Image) (t : Fs) (J : Image) : Prop where
  rests : Resting promised t J
  keeps : KeepsAll I J
  retains : Retains s t
  names : SameNames I J

theorem Settled.refl (resting : Resting promised s I) : Settled promised s I s I :=
  ⟨resting, .refl I, .refl s, .refl I⟩

theorem Settled.trans {u : Fs} {J K : Image} (first : Settled promised s I t J)
    (second : Settled promised t J u K) : Settled promised s I u K :=
  ⟨second.rests, first.keeps.trans second.keeps, first.retains.trans second.retains,
    first.names.trans second.names⟩

/-- The descriptor loop of `k_unmount` leaves none of its descriptors in use. -/
theorem closeAll_run (resting : Resting promised s I) {count fd : Nat} (within : fd + count ≤ maxFd) :
    Prog.Ensures (closeAll count fd) s fun _ t => ∃ J, Settled promised s I t J ∧
      ∀ x, fd ≤ x → x < fd + count → (t.gFdTable x).inUse = false := by
  induction count generalizing s I fd with
  | zero => exact .pure ⟨I, .refl resting, fun x low high => absurd high (by omega)⟩
  | succ count ih =>
      have rest : ∀ t J, Settled promised s I t J → (t.gFdTable fd).inUse = false →
          Prog.Ensures (closeAll count (fd + 1)) t fun _ u => ∃ K, Settled promised s I u K ∧
            ∀ x, fd ≤ x → x < fd + (count + 1) → (u.gFdTable x).inUse = false := by
        intro t J settled here
        refine (ih settled.rests (by omega)).mono ?_
        rintro _ u ⟨K, settled', closed⟩
        refine ⟨K, settled.trans settled', fun x low high => ?_⟩
        by_cases same : x = fd
        · by_contra used
          have used' := (settled'.retains.descriptors x (by simpa using used)).1
          rw [same, here] at used'
          cases used'
        · exact closed x (by omega) (by omega)
      unfold closeAll
      refine .get (.ite (fun used => ?_) fun unused => rest s I (.refl resting) (by simpa using unused))
      refine (kClose_run resting fd).bind ?_
      rintro _ t ⟨J, rests, keeps, retains, names, closes⟩
      refine rest t J ⟨rests, keeps, retains, names⟩ (closes ?_)
      simp only [validFd, Int.toNat_natCast, used, Bool.and_true, Bool.and_eq_true, decide_eq_true_eq]
      omega

/-- The state `k_unmount` leaves: the zeroes of the root directory copy are written back. -/
def unmountAs (s : Fs) (fd : Nat) (mapping : Mapping) (root : RootBuffer) : Fs :=
  { s.putBytes s.gBlockSize s.gBlockSize root.contents with
    mappings := s.mappings.erase mapping
    buffers := s.buffers.erase root.handle
    openFds := s.openFds.erase fd
    gFat := none
    gRootDir := none
    gFsFd := none
    gMounted := false }

theorem storeRoot_run (host : s.host = []) {fd : Nat} {mapping : Mapping} {root : RootBuffer}
    (descriptor : s.gFsFd = some fd) (pointer : s.gFat = some mapping) (copy : s.gRootDir = some root) :
    storeRoot (1 * s.gBlockSize) s = some (.ok, unmountAs s fd mapping root) := by
  simp only [storeRoot, Prog.get_bind]
  rw [Prog.bind_of_run (hostOk_run host)]
  simp only [Bool.not_true, Bool.false_eq_true, ↓reduceIte, copy, Nat.one_mul]
  rw [Prog.bind_of_run (hostWrite_run host _ _ _)]
  simp only [Bool.not_true, Bool.false_eq_true, ↓reduceIte]
  rw [Prog.bind_of_run (hostOk_run (by exact host))]
  simp only [Bool.not_true, Bool.false_eq_true, ↓reduceIte, pointer]
  rw [Prog.bind_of_run (hostMunmap_run (by exact host) mapping)]
  simp only [Bool.not_true, Bool.false_eq_true, ↓reduceIte, freeBuffer, Prog.modify_bind, putBytes,
    descriptor]
  rw [Prog.bind_of_run (hostOk_run (by exact host))]
  simp only [Bool.not_true, Bool.false_eq_true, ↓reduceIte]
  rw [Prog.bind_of_run (hostClose_run (by exact host) fd)]
  rfl

/-- The first block of the root directory is cleared, and the volume may be mounted again. -/
theorem unmounted_stored (resting : Resting promised s I) {fd : Nat} {mapping : Mapping}
    {root : RootBuffer} (copy : s.gRootDir = some root)
    (empty : promised.lossless → ∀ i < I.slots, (I.slot 1 i).live = false) :
    ∃ config, Stored promised (unmountAs s fd mapping root) config (I.setRow 1 fun _ => .zero) := by
  have tracks := resting.tracks
  have bounds := tracks.ready.blockSize_bounds
  have many := tracks.blocks_bounds
  obtain ⟨zeroRoot, copy', zeroes⟩ := tracks.volume.rootCopy
  obtain rfl : root = zeroRoot := by
    rw [copy] at copy'
    exact Option.some.inj copy'
  have high : 1 < I.blocks := by omega
  have offset : s.blockOffset 1 = s.gBlockSize := by
    rw [tracks.ready.blockOffset_eq (by decide), Nat.one_mul]
  have rows : ∀ i < I.slots, direntAt root.contents i = .zero := by
    intro i inside
    have within := tracks.slot_inside inside
    rw [← direntAt_zeroBuffer i]
    exact direntAt_congr fun j _ _ => zeroes _ (by omega)
  have cleared : Tracks (s.putBlock 1 root.contents) (I.setRow 1 fun _ => .zero) :=
    tracks.putBlock (Nat.le_refl 1) high rows
  have file : (unmountAs s fd mapping root).file = (s.putBlock 1 root.contents).file := by
    show overlay s.file _ _ _ = overlay s.file (s.blockOffset 1) _ _
    rw [offset]
  have fileSize : (unmountAs s fd mapping root).fileSize = (s.putBlock 1 root.contents).fileSize := by
    show max s.fileSize _ = max s.fileSize (s.blockOffset 1 + _)
    rw [offset]
  obtain ⟨config, small, size, word⟩ := cleared.volume.super
  have size' : s.gBlockSize = blockSizes config := size
  have host : (unmountAs s fd mapping root).host = [] := tracks.ready.host
  have formatted : (unmountAs s fd mapping root).Formatted config 1 := by
    have bytes := fat_zero (s.putBlock 1 root.contents)
    rw [word, ← file] at bytes
    have low := ((unmountAs s fd mapping root).file 0).toNat_lt
    refine ⟨by omega, small, by omega, by decide, ?_⟩
    have whole := cleared.ready.block_end (cleared.inside high)
    rw [← fileSize] at whole
    have offset' : (s.putBlock 1 root.contents).blockOffset 1 = blockSizes config := offset.trans size'
    rw [offset', size] at whole
    omega
  refine ⟨config, rfl, host, formatted, ?_, ?_, resting.idle, resting.cwd⟩
  · refine cleared.transfer (mountAs_mounted host formatted) file fileSize size.symm ⟨_, rfl, ?_⟩
    intro j inside
    have inside' : j < s.gBlockSize := inside
    show (if j < blockSizes config then (unmountAs s fd mapping root).file (1 * blockSizes config + j)
      else 0) = 0
    rw [if_pos (by omega), file]
    show overlay s.file (s.blockOffset 1) s.gBlockSize root.contents _ = 0
    rw [overlay_inside (by omega) (by omega)]
    exact zeroes _ (by omega)
  · exact resting.good.clearRoot (fun _ => rfl) empty

/-- What `k_unmount` does once the descriptors are closed. -/
structure Unmounted (promised : Promises) (s : Fs) (I : Image) (u t : Fs) (J : Image) : Prop where
  settled : Settled promised s I u J
  closed : ∀ fd < maxFd, (u.gFdTable fd).inUse = false
  result : ∃ fd mapping root, t = unmountAs u fd mapping root
  stored : ∃ config, Stored promised t config (J.setRow 1 fun _ => .zero)

theorem kUnmount_run (resting : Resting promised s I)
    (empty : promised.lossless → ∀ i < I.slots, (I.slot 1 i).live = false) :
    Prog.Ensures kUnmount s fun _ t => ∃ u J, closeAll maxFd 0 s = some ((), u) ∧
      Unmounted promised s I u t J := by
  have ready := resting.tracks.ready
  have bounds := ready.fatEntries_bounds
  obtain ⟨config, small, size, word⟩ := resting.tracks.volume.super
  unfold kUnmount
  refine .get (.ite (fun out => ?_) fun _ => ?_)
  · have flag := ready.flag
    rw [flag] at out
    cases out
  refine .step (fatGet_ready ready (by omega)) ?_
  have whole : 0 + maxFd ≤ maxFd := Nat.le_of_eq (Nat.zero_add maxFd)
  obtain ⟨_, u, closing, J, settled, closed⟩ := closeAll_run resting whole
  refine .step closing ?_
  have ready' := settled.rests.tracks.ready
  have super : s.fat 0 / 256 % 256 = 1 := by omega
  have same : s.gBlockSize = u.gBlockSize := by
    have blocks : s.gBlockSize / 2 = u.gBlockSize / 2 :=
      (resting.tracks.shows.blocks.symm.trans settled.names.blocks.symm).trans
        settled.rests.tracks.shows.blocks
    have whole := ready.blockSize_bounds
    have whole' := settled.rests.tracks.ready.blockSize_bounds
    omega
  rw [super, same]
  obtain ⟨root, copy, _⟩ := settled.rests.tracks.volume.rootCopy
  obtain ⟨mapping, pointer, _⟩ := ready'.mapping
  obtain ⟨fd, descriptor⟩ := Option.ne_none_iff_exists'.mp ready'.gFsFd_ne
  refine .of_run (storeRoot_run ready'.host descriptor pointer copy)
    ⟨u, J, closing, settled, fun x high => closed x (Nat.zero_le x) (by omega), ⟨fd, mapping, root, rfl⟩,
      unmounted_stored settled.rests copy fun asked i inside => ?_⟩
  rw [DirEntry.live_congr (settled.names.names (1, i))]
  exact empty asked i (settled.names.slots ▸ inside)

end Mounting

end PennOs.Fat
