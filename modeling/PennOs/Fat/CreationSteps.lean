import PennOs.Fat.AppendOpens
import PennOs.Fat.SearchedPaths
import PennOs.Fat.WholeReads

set_option autoImplicit false

/- What the calls that make entries write, on any mounted volume. -/
namespace PennOs.Fat

open LinkedChain (Along)
open Fs

/-- The block whose bytes hold a FAT entry. -/
def Fs.fatHome (s : Fs) (i : Nat) : Nat := 2 * i / s.gBlockSize

/-- The FAT entry lies among the bytes of the slot. -/
def Fs.EntryIn (s : Fs) (p : Nat × Nat) (i : Nat) : Prop :=
  s.blockOffset p.1 + 64 * p.2 ≤ 2 * i ∧ 2 * i < s.blockOffset p.1 + 64 * p.2 + 64

/-- The calls that make an entry for a path. -/
inductive Maker where
  | touch | mkdir
  | symlink (target : List UInt8)
  | openFile (mode : UInt32)

namespace Maker

/-- The call succeeded; `k_open` was asked to create the file. -/
def Made (maker : Maker) (now : UInt64) (path : List UInt8) (s t : Fs) : Prop :=
  match maker with
  | touch => kTouch now path s = some (.ok, t)
  | mkdir => kMkdir now path s = some (.ok, t)
  | symlink target => kSymlink now target path s = some (.ok, t)
  | openFile mode => hasCreate mode = true ∧ ∃ fd, kOpen now path mode s = some (.ok fd, t)

/-- How the call resolves its path. -/
def resolve (maker : Maker) (now : UInt64) (path : List UInt8) : FsM (PennFatErr × ResolvedPath) :=
  match maker with
  | symlink _ => resolvePathNoFollow now path
  | _ => resolvePath now path

/-- The entry for the block `b`. -/
def entry (maker : Maker) (now : UInt64) (path : List UInt8) (b : Nat) : DirEntry :=
  match maker with
  | mkdir => newDirEntry now (getFilenameFromPath path) b
  | symlink target => symlinkEntry now (getFilenameFromPath path) target b
  | _ => newFileEntry now (getFilenameFromPath path) b

/-- The call fills the block it takes. -/
def Fills (maker : Maker) : Prop :=
  match maker with
  | mkdir => True
  | symlink _ => True
  | _ => False

/-- The block `b` is taken, before there is an entry for it. -/
def prepared (maker : Maker) (s : Fs) (b : Nat) : Fs :=
  match maker with
  | symlink target => (s.setFat b fatEoc).putBlock b (targetBuffer target)
  | _ => s.setFat b fatEoc

/-- What is left to do for an entry in the directory `d`. -/
def finished (maker : Maker) (now : UInt64) (w : Fs) (d b : Nat) : Fs :=
  match maker with
  | mkdir => w.putBlock b (newDirBuffer now b d)
  | _ => w

end Maker

variable {s t u w : Fs} {k b d i y g last : Nat} {p : Nat × Nat} {e : DirEntry} {now : UInt64}
  {path : List UInt8}
  {maker : Maker}

section Bounds

theorem along_small {passes : Nat → Prop} {count : Nat} (small : d < 65536)
    (along : Along s.onward passes y d count) : y < 65536 := by
  induction along with
  | here => exact small
  | on _ link _ ih =>
      obtain ⟨rfl, _⟩ := onward_some link
      exact ih (fat_lt s _)

theorem firstFree_small (mounted : s.Mounted k) (free : s.firstFree = some b) :
    2 ≤ b ∧ b < 65536 ∧ s.fat b = fatFree := by
  obtain ⟨low, high, unused⟩ := firstFree_some mounted free
  have product : k * s.gBlockSize ≤ 32 * 4096 := Nat.mul_le_mul mounted.count.2 mounted.blockSize_bounds.2.1
  exact ⟨low, by omega, unused⟩

end Bounds

section Bytes

variable (mounted : s.Mounted k)

include mounted

/-- A FAT entry does not change the other blocks. -/
theorem block_setFat_apart (v : Nat) (small : y < 65536) (apart : y ≠ s.fatHome i) :
    (s.setFat i v).block y = s.block y := by
  obtain ⟨low, _, whole⟩ := mounted.blockSize_bounds
  have offset : (s.setFat i v).blockOffset y = y * s.gBlockSize := mounted.blockOffset_eq small
  have home := Nat.div_add_mod (2 * i) s.gBlockSize
  have inside : 2 * i % s.gBlockSize < s.gBlockSize := Nat.mod_lt _ (by omega)
  have away : ∀ j < s.gBlockSize, y * s.gBlockSize + j < 2 * i ∨ 2 * i + 2 ≤ y * s.gBlockSize + j := by
    intro j within
    rw [fatHome] at apart
    generalize 2 * i / s.gBlockSize = q at apart home
    rw [Nat.mul_comm] at home
    rcases Nat.lt_or_gt_of_ne apart with less | more
    · left
      have step : (y + 1) * s.gBlockSize ≤ q * s.gBlockSize := Nat.mul_le_mul_right _ less
      rw [Nat.succ_mul] at step
      omega
    · right
      have step : (q + 1) * s.gBlockSize ≤ y * s.gBlockSize := Nat.mul_le_mul_right _ more
      rw [Nat.succ_mul] at step
      have even : q * s.gBlockSize % 2 = 0 := by
        rw [Nat.mul_mod, show s.gBlockSize % 2 = 0 by omega, Nat.mul_zero, Nat.zero_mod]
      omega
  funext j
  simp only [block, setFat_gBlockSize, offset, mounted.blockOffset_eq small]
  split
  · next within => exact overlay_outside ((away j within).imp (fun h => h) fun h => h)
  · rfl

/-- A block does not change the FAT entries of other blocks. -/
theorem fat_putBlock_apart (buf : Buffer) (small : b < 65536) (apart : s.fatHome i ≠ b) :
    (s.putBlock b buf).fat i = s.fat i := by
  obtain ⟨low, _, whole⟩ := mounted.blockSize_bounds
  have home := Nat.div_add_mod (2 * i) s.gBlockSize
  have inside : 2 * i % s.gBlockSize < s.gBlockSize := Nat.mod_lt _ (by omega)
  apply fat_putBytes
  rw [mounted.blockOffset_eq small]
  rw [fatHome] at apart
  generalize 2 * i / s.gBlockSize = q at apart home
  rw [Nat.mul_comm] at home
  rcases Nat.lt_or_gt_of_ne apart with less | more
  · left
    have step : (q + 1) * s.gBlockSize ≤ b * s.gBlockSize := Nat.mul_le_mul_right _ less
    rw [Nat.succ_mul] at step
    have even : q * s.gBlockSize % 2 = 0 := by
      rw [Nat.mul_mod, show s.gBlockSize % 2 = 0 by omega, Nat.mul_zero, Nat.zero_mod]
    omega
  · right
    have step : (b + 1) * s.gBlockSize ≤ q * s.gBlockSize := Nat.mul_le_mul_right _ more
    rw [Nat.succ_mul] at step
    omega

/-- Writing one entry changes its 64 bytes. -/
theorem fat_putDirent_apart (e : DirEntry) (small : p.1 < 65536) (inside : p.2 < s.entriesPerBlock)
    (out : ¬ s.EntryIn p i) : (s.putDirent p e).fat i = s.fat i := by
  obtain ⟨_, _, whole⟩ := mounted.blockSize_bounds
  have room := mounted.slot_inside inside
  have offset := mounted.blockOffset_eq small
  have even : p.1 * s.gBlockSize % 2 = 0 := by
    rw [Nat.mul_mod, show s.gBlockSize % 2 = 0 by omega, Nat.mul_zero, Nat.zero_mod]
  have kept : ∀ a, (a < s.blockOffset p.1 + 64 * p.2 ∨ s.blockOffset p.1 + 64 * p.2 + 64 ≤ a) →
      (s.putDirent p e).file a = s.file a := by
    intro a away
    show overlay s.file (s.blockOffset p.1) s.gBlockSize (setDirentAt (s.block p.1) p.2 e) a = s.file a
    by_cases within : s.blockOffset p.1 ≤ a ∧ a < s.blockOffset p.1 + s.gBlockSize
    · rw [overlay_inside within.1 within.2, setDirentAt, overlay_outside (by omega), block, if_pos (by omega)]
      exact congrArg s.file (by omega)
    · exact overlay_outside (by omega)
  rw [EntryIn, offset] at out
  rw [offset] at kept
  apply fat_congr
  · exact kept _ (by omega)
  · exact kept _ (by omega)

theorem dirent_putDirent_ne (small : p.1 < 65536) {q : Nat × Nat} (small' : q.1 < 65536)
    (inside : q.2 < s.entriesPerBlock) (apart : q ≠ p) : (s.putDirent p e).dirent q = s.dirent q := by
  have written : (s.putDirent p e).view.slot q.1 q.2 = (s.view.setSlot p e).slot q.1 q.2 :=
    view_putDirent mounted small small' inside
  exact written.trans (Image.setSlot_ne _ e apart)

theorem dirent_putDirent_self (small : p.1 < 65536) (inside : p.2 < s.entriesPerBlock) :
    (s.putDirent p e).dirent p = e := by
  have written : (s.putDirent p e).view.slot p.1 p.2 = (s.view.setSlot p e).slot p.1 p.2 :=
    view_putDirent mounted small small inside
  exact written.trans (Image.setSlot_self _ p e)

end Bytes

section Adding

variable (mounted : u.Mounted k)

include mounted

theorem putEntry_ok (run : putEntry b i e u = some (.ok, w)) : w = u.putDirent (b, i) e := by
  unfold putEntry at run
  by_cases stored : u.Stored b
  · rw [Prog.bind_of_run ((readBlock_stored_iff mounted b).1 stored)] at run
    dsimp only at run
    rw [Prog.bind_of_run (writeBlock_run mounted _ b)] at run
    cases run
    rfl
  · rw [Prog.bind_of_run ((readBlock_stored_iff mounted b).2 stored)] at run
    cases run

/-- A directory without a free slot got the block `g` behind `last`. -/
structure Fs.Extended (u : Fs) (d g last : Nat) : Prop where
  search : findSlotLoop (chainFuel + 1) d u = some (.ok none, u)
  free : u.firstFree = some g
  ends : lastInChain (chainFuel + 1) d (u.setFat g fatEoc) = some (last, u.setFat g fatEoc)

theorem growDir_ends {result : Except PennFatErr Nat}
    (search : findSlotLoop (chainFuel + 1) d u = some (.ok none, u))
    (run : growDir d u = some (result, w)) :
    result = .error .nospace ∨ ∃ g last, result = .ok g ∧ u.Extended d g last ∧ w = u.grown last g := by
  unfold growDir at run
  rw [Prog.bind_run, allocateFreeBlock_mounted mounted] at run
  cases free : u.firstFree with
  | none =>
      rw [free] at run
      cases run
      exact .inl rfl
  | some x =>
      rw [free] at run
      dsimp only at run
      obtain ⟨last, v, ends, run⟩ := Prog.bind_inv run
      obtain ⟨rfl, mapped, _⟩ := lastInChain_ends ends
      have linked : ((u.setFat x fatEoc).setFat last x).Mounted k :=
        mounted.of_eq rfl rfl rfl rfl rfl rfl rfl rfl
      rw [Prog.bind_of_run (fatSet_mapped x mapped), Prog.bind_of_run
        (writeBlock_run linked zeroBuffer x)] at run
      cases run
      exact .inr ⟨x, last, rfl, ⟨search, free, ends⟩, rfl⟩

/-- Where `add_dirent_to_dir` puts an entry. -/
theorem addDirentToDir_ok (run : addDirentToDir d e u = some (.ok, w)) :
    ¬ (d = fatEoc ∨ d = fatFree) ∧
      ((∃ p, findSlotLoop (chainFuel + 1) d u = some (.ok (some p), u) ∧ w = u.putDirent p e) ∨
        ∃ g last, u.Extended d g last ∧ w = (u.grown last g).putDirent (g, 0) e) := by
  unfold addDirentToDir at run
  split at run
  · cases run
  next proper =>
  refine ⟨fun ends => proper ends.symm, ?_⟩
  rw [Prog.bind_of_run (malloc_run mounted.host), if_neg (by decide)] at run
  obtain ⟨spot, v, search, run⟩ := Prog.bind_inv run
  have stays : v = u := (findSlotLoop_host _ _ _ _ _ search).eq mounted.host
  subst stays
  rcases spot with err | _ | ⟨slotBlock, slotIndex⟩
  · cases run
    exact absurd rfl (findSlotLoop_named _ _ _ _ _ search)
  · obtain ⟨result, x, grows, run⟩ := Prog.bind_inv run
    rcases growDir_ends mounted search grows with rfl | ⟨g, last, rfl, extended, rfl⟩
    · cases run
    · have grown : (v.grown last g).Mounted k := mounted.of_eq rfl rfl rfl rfl rfl rfl rfl rfl
      exact .inr ⟨g, last, extended, putEntry_ok grown run⟩
  · exact .inl ⟨(slotBlock, slotIndex), search, putEntry_ok mounted run⟩

/-- The volume stays mounted. -/
theorem addDirentToDir_mounted (run : addDirentToDir d e u = some (.ok, w)) : w.Mounted k := by
  obtain ⟨_, ⟨p, _, rfl⟩ | ⟨g, last, _, rfl⟩⟩ := addDirentToDir_ok mounted run
  · exact mounted.of_eq rfl rfl rfl rfl rfl rfl rfl rfl
  · exact mounted.of_eq rfl rfl rfl rfl rfl rfl rfl rfl

theorem addDirentToDir_cwd (run : addDirentToDir d e u = some (.ok, w)) : w.gCwdBlock = u.gCwdBlock := by
  obtain ⟨_, ⟨p, _, rfl⟩ | ⟨g, last, _, rfl⟩⟩ := addDirentToDir_ok mounted run
  · rfl
  · rfl

end Adding

section Making

/-- The call takes the block `b`, adds its entry to the directory `d` and is left with what follows `w`. -/
structure Maker.Enters (maker : Maker) (now : UInt64) (path : List UInt8) (s : Fs) (d b : Nat) (w t : Fs) :
    Prop where
  free : s.firstFree = some b
  short : (getFilenameFromPath path).length < 32
  added : addDirentToDir d (maker.entry now path b) (maker.prepared s b) = some (.ok, w)
  rest : ∃ files fds, t = (maker.finished now w d b).withTables files fds

/-- The call succeeded for a path that it found, or for an entry that it made. -/
structure Maker.Ran (maker : Maker) (now : UInt64) (path : List UInt8) (s t : Fs) (err : PennFatErr)
    (r : ResolvedPath) : Prop where
  resolves : maker.resolve now path s = some ((err, r), s)
  good : err = .ok ∨ err = .notdir
  enters : r.found = false → ∃ b w, maker.Enters now path s r.parentDirBlock b w t

theorem setFat_mounted (mounted : s.Mounted k) (i v : Nat) : (s.setFat i v).Mounted k :=
  mounted.of_eq rfl rfl rfl rfl rfl rfl rfl rfl

theorem good_of {err : PennFatErr} (good : ¬ (err ≠ .ok ∧ err ≠ .notdir)) : err = .ok ∨ err = .notdir := by
  by_cases ok : err = .ok
  · exact .inl ok
  · exact .inr (not_not.mp fun other => good ⟨ok, other⟩)

variable (mounted : s.Mounted k)

include mounted

theorem kTouch_ran (made : kTouch now path s = some (.ok, t)) :
    ∃ err r, Maker.touch.Ran now path s t err r := by
  unfold kTouch at made
  rw [Prog.get_bind] at made
  split at made
  · cases made
  split at made
  · cases made
  obtain ⟨⟨err, r⟩, v, resolves, rest⟩ := Prog.bind_inv made
  obtain rfl : v = s := (resolvePath_host path _ _ _ resolves).eq mounted.host
  dsimp only at rest
  split at rest
  · next bad =>
      cases rest
      exact absurd rfl bad.1
  next good =>
  refine ⟨err, r, resolves, good_of good, fun missing => ?_⟩
  rw [missing, if_neg (by decide)] at rest
  split at rest
  · cases rest
  split at rest
  · cases rest
  next short =>
  split at rest
  · cases rest
  rw [Prog.bind_run, allocateFreeBlock_mounted mounted] at rest
  cases free : v.firstFree with
  | none =>
      rw [free] at rest
      cases rest
  | some b =>
      rw [free] at rest
      dsimp only at rest
      obtain ⟨err, w, added, rest⟩ := Prog.bind_inv rest
      split at rest
      · cases rest
        exact ⟨b, _, free, by omega, added, _, _, rfl⟩
      · next fails =>
          obtain ⟨_, _, _, rest⟩ := Prog.bind_inv rest
          cases rest
          exact absurd rfl fails

theorem kMkdir_ran (made : kMkdir now path s = some (.ok, t)) :
    ∃ err r, Maker.mkdir.Ran now path s t err r := by
  unfold kMkdir at made
  rw [Prog.get_bind] at made
  split at made
  · cases made
  split at made
  · cases made
  obtain ⟨⟨err, r⟩, v, resolves, rest⟩ := Prog.bind_inv made
  obtain rfl : v = s := (resolvePath_host path _ _ _ resolves).eq mounted.host
  dsimp only at rest
  split at rest
  · next bad =>
      cases rest
      exact absurd rfl bad.1
  next good =>
  split at rest
  · cases rest
  refine ⟨err, r, resolves, good_of good, fun _ => ?_⟩
  split at rest
  · cases rest
  split at rest
  · cases rest
  next proper =>
  rw [Prog.bind_run, allocateFreeBlock_mounted mounted] at rest
  cases free : v.firstFree with
  | none =>
      rw [free] at rest
      cases rest
  | some b =>
      rw [free] at rest
      dsimp only at rest
      obtain ⟨err, w, added, rest⟩ := Prog.bind_inv rest
      split at rest
      · have mounted' : w.Mounted k := addDirentToDir_mounted (setFat_mounted mounted b fatEoc) added
        rw [Prog.bind_of_run (malloc_run mounted'.host), if_neg (by decide),
          Prog.bind_of_run (writeBlock_run mounted' _ b)] at rest
        cases rest
        exact ⟨b, w, free, (goodName proper).1, added, _, _, rfl⟩
      · next fails =>
          obtain ⟨_, _, _, rest⟩ := Prog.bind_inv rest
          cases rest
          exact absurd rfl fails

theorem kSymlink_ran {target : List UInt8} (made : kSymlink now target path s = some (.ok, t)) :
    target.length < s.gBlockSize ∧ ∃ err r, r.found = false ∧
      (Maker.symlink target).Ran now path s t err r := by
  unfold kSymlink at made
  rw [Prog.get_bind] at made
  split at made
  · cases made
  split at made
  · cases made
  obtain ⟨⟨err, r⟩, v, resolves, rest⟩ := Prog.bind_inv made
  obtain rfl : v = s := (resolvePathInternal_host symlinkLevels path _ _ _ resolves).eq mounted.host
  dsimp only at rest
  split at rest
  · next bad =>
      cases rest
      exact absurd rfl bad.1
  next good =>
  split at rest
  · cases rest
  next missing =>
  split at rest
  · cases rest
  split at rest
  · cases rest
  next proper =>
  split at rest
  · cases rest
  next fits =>
  refine ⟨by omega, err, r, Bool.eq_false_of_not_eq_true missing, resolves, good_of good, fun _ => ?_⟩
  rw [Prog.bind_run, allocateFreeBlock_mounted mounted] at rest
  cases free : v.firstFree with
  | none =>
      rw [free] at rest
      cases rest
  | some b =>
      rw [free] at rest
      dsimp only at rest
      have taken := setFat_mounted mounted b fatEoc
      have written : ((v.setFat b fatEoc).putBlock b (targetBuffer target)).Mounted k :=
        taken.of_eq rfl rfl rfl rfl rfl rfl rfl rfl
      rw [Prog.bind_of_run (malloc_run taken.host), if_neg (by decide),
        Prog.bind_of_run (writeBlock_run taken _ b), if_neg (by decide),
        Prog.bind_of_run (hostOk_run written.host)] at rest
      obtain ⟨err, w, added, rest⟩ := Prog.bind_inv rest
      split at rest
      · cases rest
        exact ⟨b, _, free, (goodName proper).1, added, _, _, rfl⟩
      · next fails =>
          obtain ⟨_, _, _, rest⟩ := Prog.bind_inv rest
          cases rest
          exact absurd rfl fails

theorem kOpen_ran {mode : UInt32} {fd : Nat} (made : kOpen now path mode s = some (.ok fd, t)) :
    ∃ err r, (Maker.openFile mode).Ran now path s t err r := by
  unfold kOpen at made
  rw [Prog.get_bind] at made
  split at made
  · cases made
  split at made
  · cases made
  split at made
  · cases made
  obtain ⟨⟨err, r⟩, v, resolves, rest⟩ := Prog.bind_inv made
  obtain rfl : v = s := (resolvePath_host path _ _ _ resolves).eq mounted.host
  dsimp only at rest
  split at rest
  · cases rest
  next good =>
  refine ⟨err, r, resolves, good_of good, fun missing => ?_⟩
  rw [missing, if_neg (by decide)] at rest
  unfold openCreate at rest
  split at rest
  · cases rest
  split at rest
  · cases rest
  dsimp only at rest
  split at rest
  · cases rest
  next short =>
  rw [Prog.bind_run, allocateFreeBlock_mounted mounted] at rest
  cases free : v.firstFree with
  | none =>
      rw [free] at rest
      cases rest
  | some b =>
      rw [free] at rest
      dsimp only at rest
      obtain ⟨err, w, added, rest⟩ := Prog.bind_inv rest
      split at rest
      · have mounted' : w.Mounted k := addDirentToDir_mounted (setFat_mounted mounted b fatEoc) added
        obtain ⟨⟨err', created⟩, x, again, later⟩ := Prog.bind_inv rest
        obtain rfl : x = w := (resolvePath_host path _ _ _ again).eq mounted'.host
        dsimp only at later
        split at later
        · obtain ⟨index, y, took, later⟩ := Prog.bind_inv later
          unfold createSysfileEntryFromResolved at took
          rw [Prog.get_bind] at took
          cases room : x.freeSysfile with
          | none =>
              rw [room] at took
              cases took
              obtain ⟨_, _, _, later⟩ := Prog.bind_inv later
              obtain ⟨_, _, _, later⟩ := Prog.bind_inv later
              cases later
          | some place =>
              rw [room] at took
              cases took
              obtain ⟨_, _, rfl⟩ := assignFd_ok later
              exact ⟨b, x, free, by omega, added, _, _, rfl⟩
        · split at later
          · cases later
          · cases later
      · next fails =>
          obtain ⟨_, _, _, rest⟩ := Prog.bind_inv rest
          cases rest

/-- What a call did that made an entry. -/
theorem Maker.Made.ran (made : maker.Made now path s t) : ∃ err r, maker.Ran now path s t err r := by
  cases maker with
  | touch => exact kTouch_ran mounted made
  | mkdir => exact kMkdir_ran mounted made
  | symlink target =>
      obtain ⟨_, err, r, _, ran⟩ := kSymlink_ran mounted made
      exact ⟨err, r, ran⟩
  | openFile mode =>
      obtain ⟨_, fd, opened⟩ := made
      exact kOpen_ran mounted opened

/-- The volume stays mounted. -/
theorem Maker.Made.stays (made : maker.Made now path s t) : t.Mounted k := by
  cases maker with
  | touch => exact (kTouch_flag s _ t made).mounted k mounted
  | mkdir => exact (kMkdir_flag s _ t made).mounted k mounted
  | symlink target => exact (kSymlink_flag target s _ t made).mounted k mounted
  | openFile mode =>
      obtain ⟨_, fd, opened⟩ := made
      exact (kOpen_flag s _ t opened).mounted k mounted

end Making

end PennOs.Fat
