import Mathlib.Data.List.TakeWhile
import PennOs.Fat.PlacedEntries

set_option autoImplicit false

/- The target `k_symlink` stores and the target path resolution follows. -/
namespace PennOs.Fat

open Fs

/-- The block begins with the target. -/
def Fs.Begins (s : Fs) (b : Nat) (target : List UInt8) : Prop :=
  ∀ j < target.length, s.block b j = targetBuffer target j

/-- What `add_dirent_to_dir` writes for an entry with the name leaves the target in the block `b`: a slot in
this block is behind the target, or the target ends with what is written; and the FAT entry of the last block
of a directory that grows is not among the bytes of the target. -/
structure Untouched (s : Fs) (d b : Nat) (target name : List UInt8) : Prop where
  slot : ∀ p, findSlotLoop (chainFuel + 1) d s = some (.ok (some p), s) → p.1 = b →
    target.drop (64 * p.2) <+: name
  link : ∀ g last, s.Extended d g last → g ≠ fatEoc → ∀ j < target.length, s.blockOffset b + j ≠ 2 * last

/-- In `u` the component leads to the link, whose block `b` is as it was in `t`. -/
structure LeadsTo (t u : Fs) (b dir : Nat) (name : List UInt8) (link : DirEntry) : Prop where
  mounted : ∃ fatBlocks, u.Mounted fatBlocks
  stored : u.Stored b
  component : name ≠ dot ∧ name ≠ dotDot
  entry : ∃ hit, findEntryInDir dir name u = some (.ok hit, u) ∧ hit.found = true ∧ hit.entry = link
  block : u.block b = t.block b

/-- Resolution of the last component goes on with exactly this path. -/
def Follows (u : Fs) (dir : Nat) (name path : List UInt8) : Prop :=
  ∀ now parent recurse, walk now true recurse [name] dir parent u = recurse path u

variable {s t u w : Fs} {k b d dir g i n last : Nat} {now : UInt64} {target name path : List UInt8}
  {buf : Buffer}
  {link e : DirEntry}

section Decoding

theorem targetBuffer_proper (noNul : 0 ∉ target) {j : Nat} (inside : j < target.length) :
    targetBuffer target j ≠ 0 := by
  have here : targetBuffer target j = target[j] := by
    rw [targetBuffer, List.getElem?_eq_getElem inside]
    rfl
  rw [here]
  exact fun zero => noNul (zero ▸ List.getElem_mem inside)

theorem targetBuffer_bytes (target : List UInt8) :
    (List.range target.length).map (targetBuffer target) = target := by
  apply List.ext_getElem
  · rw [List.length_map, List.length_range]
  · intro j _ inside
    rw [List.getElem_map, List.getElem_range, targetBuffer, List.getElem?_eq_getElem inside]
    rfl

/-- A limited copy out of the block is the target if it fits and is there. -/
theorem cStringIn_eq_iff (noNul : 0 ∉ target) : cStringIn buf (min target.length n) = target ↔
    target.length ≤ n ∧ ∀ j < target.length, buf j = targetBuffer target j := by
  constructor
  · intro same
    have bound : target.length ≤ min target.length n := by
      conv => lhs; rw [← same, cStringIn]
      refine le_trans (List.takeWhile_prefix _).length_le ?_
      rw [List.length_map, List.length_range]
    have fits : target.length ≤ n := by omega
    refine ⟨fits, fun j inside => ?_⟩
    rw [Nat.min_eq_left fits, cStringIn] at same
    have front := List.takeWhile_prefix (fun c => decide (c ≠ 0)) (l := (List.range target.length).map buf)
    rw [same] at front
    have whole : target = (List.range target.length).map buf :=
      front.eq_of_length (by rw [List.length_map, List.length_range])
    have byte : target[j] = buf j := by
      conv => lhs; rw [List.getElem_of_eq whole, List.getElem_map, List.getElem_range]
    rw [← byte, targetBuffer, List.getElem?_eq_getElem inside]
    rfl
  · rintro ⟨fits, bytes⟩
    have same : (List.range target.length).map buf = target := by
      conv => rhs; rw [← targetBuffer_bytes target]
      exact List.map_congr_left fun j member => bytes j (List.mem_range.mp member)
    rw [Nat.min_eq_left fits, cStringIn, same, List.takeWhile_eq_self_iff]
    intro c member
    simp only [ne_eq, decide_not, Bool.not_eq_true', decide_eq_false_iff_not]
    rintro rfl
    exact noNul member

/-- Resolution goes on with what `read_symlink_target` copies into a `PATH_MAX` buffer. -/
theorem LeadsTo.follows (leads : LeadsTo t u b dir name link) (target : List UInt8)
    (short : target.length < 2 ^ 32)
    (small : b < 65536)
    (type : link.type = DirEntry.typeSymlink) (size : link.size = UInt32.ofNat target.length)
    (first : link.firstBlock = UInt16.ofNat b) :
    Follows u dir name (cStringIn (t.block b) (min target.length (pathMax - 1))) := by
  intro now parent recurse
  obtain ⟨_, mounted⟩ := leads.mounted
  obtain ⟨hit, found, isFound, rfl⟩ := leads.entry
  have length : hit.entry.size.toNat = target.length := by
    rw [size, UInt32.toNat_ofNat', Nat.mod_eq_of_lt short]
  have here : hit.entry.firstBlock.toNat = b := by
    rw [first, UInt16.toNat_ofNat', Nat.mod_eq_of_lt small]
  have read : readSymlinkTarget hit.entry u =
      some (.ok (cStringIn (t.block b) (min target.length (pathMax - 1))), u) := by
    rw [readSymlinkTarget, if_neg (not_not.mpr type), Prog.bind_of_run (malloc_run mounted.host),
      if_neg (by decide),
      here, Prog.bind_of_run ((readBlock_stored_iff mounted b).1 leads.stored), leads.block, length]
    rfl
  rw [walk, if_neg leads.component.1, if_neg leads.component.2, Prog.bind_of_run found]
  simp only [isFound, Bool.not_true, Bool.false_eq_true, ↓reduceIte, type, and_self]
  rw [Prog.bind_of_run read]

/-- Resolution goes on with one path only. -/
theorem Follows.unique {path' : List UInt8} (follows : Follows u dir name path)
    (follows' : Follows u dir name path') : path = path' := by
  by_contra differs
  let probe : List UInt8 → FsM (PennFatErr × ResolvedPath) := fun other =>
    if other = path then pure (.ok, .zero) else pure (.io, .zero)
  have same : probe path u = probe path' u :=
    (follows 0 0 probe).symm.trans (follows' 0 0 probe)
  simp only [probe, ↓reduceIte, if_neg (Ne.symm differs), Prog.pure_run, Option.some.injEq,
    Prod.mk.injEq, reduceCtorEq, false_and] at same

end Decoding

section Keeping

theorem begins_congr (same : ∀ j < target.length, u.block b j = s.block b j) :
    u.Begins b target ↔ s.Begins b target :=
  forall_congr' fun j => imp_congr_right fun inside => by rw [same j inside]

/-- A FAT entry that is not among the bytes of the target leaves them. -/
theorem begins_setFat (short : target.length ≤ s.gBlockSize)
    (apart : ∀ j < target.length, s.blockOffset b + j < 2 * i ∨ 2 * i + 2 ≤ s.blockOffset b + j) (x : Nat) :
    (s.setFat i x).Begins b target ↔ s.Begins b target := by
  refine begins_congr fun j inside => ?_
  have offset : (s.setFat i x).blockOffset b = s.blockOffset b := rfl
  have within : j < s.gBlockSize := by omega
  simp only [block, setFat_gBlockSize, within, ↓reduceIte, offset]
  exact overlay_outside ((apart j inside).imp (fun h => h) fun h => h)

/-- A FAT entry that has the value already stays as it is. -/
theorem setFat_same {x : Nat} (value : s.fat i = x) : s.setFat i x = s := by
  have bytes : overlay s.file (2 * i) 2 (LittleEndian.byte x) = s.file := by
    funext a
    by_cases inside : 2 * i ≤ a ∧ a < 2 * i + 2
    · have small : x < 256 ^ 2 := value ▸ fat_lt s i
      have same : LittleEndian.value (LittleEndian.byte x) 2 =
        LittleEndian.value (fun j => s.file (2 * i + j)) 2 :=
        (LittleEndian.value_byte_of_lt small).trans value.symm
      have here := LittleEndian.value_injective same (a - 2 * i) (by omega)
      rw [overlay_inside inside.1 inside.2, here]
      exact congrArg s.file (by omega)
    · exact overlay_outside (by omega)
  rw [setFat, bytes]

variable (noNul : 0 ∉ target)

include noNul

/-- A free FAT entry is not among the bytes of a target. -/
theorem free_apart (short : target.length ≤ s.gBlockSize) (begins : s.Begins b target)
    (free : s.fat g = fatFree) :
    ∀ j < target.length, s.blockOffset b + j < 2 * g ∨ 2 * g + 2 ≤ s.blockOffset b + j := by
  intro j inside
  have within : j < s.gBlockSize := by omega
  have byte : s.file (s.blockOffset b + j) ≠ 0 := by
    have here := begins j inside
    simp only [block, within, ↓reduceIte] at here
    rw [here]
    exact targetBuffer_proper noNul inside
  have zeroes : ∀ x < 2, s.file (2 * g + x) = 0 := by
    intro x less
    have value : LittleEndian.value (fun x => s.file (2 * g + x)) 2 =
      LittleEndian.value (fun _ => 0) 2 := free
    exact LittleEndian.value_injective value x less
  by_contra among
  refine byte ?_
  have place : s.blockOffset b + j = 2 * g + (s.blockOffset b + j - 2 * g) := by omega
  rw [place]
  exact zeroes _ (by omega)

/-- Linking the last block of a directory to the new one spoils the target exactly if the FAT entry is among
its bytes. -/
theorem begins_link_iff (mounted : s.Mounted k) (small : b < 65536) (bound : g < 65536) (proper : g ≠ fatEoc)
    (short : target.length < s.gBlockSize) (whole : ∀ j < s.gBlockSize, s.block b j = targetBuffer target j)
    (free : s.fat g = fatFree) (ends : (s.setFat g fatEoc).fat last = fatEoc) :
    ((s.setFat g fatEoc).setFat last g).Begins b target ↔
    ∀ j < target.length, s.blockOffset b + j ≠ 2 * last := by
  have sizes := mounted.blockSize_bounds
  have offset := mounted.blockOffset_eq small
  have begins : s.Begins b target := fun j inside => whole j (by omega)
  have away := free_apart noNul (by omega) begins free
  have taken : (s.setFat g fatEoc).Begins b target := (begins_setFat (by omega) away fatEoc).mpr begins
  by_cases same : last = g
  · subst same
    constructor
    · intro _ j inside
      have apart := away j inside
      omega
    · intro _
      exact (begins_setFat (s := s.setFat last fatEoc) (Nat.le_of_lt short) away last).mpr taken
  have even : b * s.gBlockSize % 2 = 0 := by
    rw [Nat.mul_mod, show s.gBlockSize % 2 = 0 by omega, Nat.mul_zero, Nat.zero_mod]
  have last' : s.fat last = fatEoc := by
    rw [fat_setFat _ (by decide), if_neg same] at ends
    exact ends
  have value : LittleEndian.value (fun x => s.file (2 * last + x)) 2 =
    LittleEndian.value (LittleEndian.byte fatEoc) 2 :=
    last'.trans (by decide)
  have bytes : ∀ x < 2, s.file (2 * last + x) = LittleEndian.byte fatEoc x :=
    LittleEndian.value_injective value
  have inBlock : ∀ j < s.gBlockSize, s.file (s.blockOffset b + j) = targetBuffer target j := by
    intro j inside
    have here := whole j inside
    simp only [block, inside, ↓reduceIte] at here
    exact here
  constructor
  · intro kept j inside here
    -- Behind the target its buffer is zero, so both bytes of the entry are in the target.
    have next : j + 1 < target.length := by
      by_contra ended
      have zero : targetBuffer target (j + 1) = 0 := by
        rw [targetBuffer, List.getElem?_eq_none (by omega)]
        rfl
      have byte := inBlock (j + 1) (by omega)
      rw [zero, show s.blockOffset b + (j + 1) = 2 * last + 1 by omega, bytes 1 (by decide)] at byte
      exact absurd byte (by decide)
    have written : ∀ x < 2, LittleEndian.byte g x = LittleEndian.byte fatEoc x := by
      intro x less
      have within : j + x < s.gBlockSize := by omega
      have after := kept (j + x) (by omega)
      have before := inBlock (j + x) within
      have place : s.blockOffset b + (j + x) = 2 * last + x := by omega
      have offset' : ((s.setFat g fatEoc).setFat last g).blockOffset b = s.blockOffset b := rfl
      have file : ((s.setFat g fatEoc).setFat last g).file (2 * last + x) = LittleEndian.byte g x := by
        refine (overlay_inside (by omega) (by omega)).trans ?_
        rw [Nat.add_sub_cancel_left]
      simp only [block, setFat_gBlockSize, within, ↓reduceIte, offset', place] at after
      rw [place, bytes x less] at before
      rw [file] at after
      exact after.trans before.symm
    refine proper ?_
    calc g = LittleEndian.value (LittleEndian.byte g) 2 := (LittleEndian.value_byte_of_lt bound).symm
      _ = LittleEndian.value (LittleEndian.byte fatEoc) 2 := LittleEndian.value_congr written
      _ = fatEoc := by decide
  · intro apart
    refine (begins_setFat (s := s.setFat g fatEoc) (Nat.le_of_lt short) (fun j inside => ?_) g).mpr taken
    have first := apart j inside
    have before := apart (j - 1) (by omega)
    have place : (s.setFat g fatEoc).blockOffset b = s.blockOffset b := rfl
    rw [place]
    omega

/-- An entry spoils the target unless its slot is behind the target or the target ends with what is
written. -/
theorem begins_slot_iff (short : name.length < 32) (named : e.name = DirEntry.packName name)
    (begins : ∀ j < target.length, buf j = targetBuffer target j) :
    (∀ j < target.length, setDirentAt buf i e j = targetBuffer target j) ↔ target.drop (64 * i) <+: name := by
  have byte : ∀ x < 32, setDirentAt buf i e (64 * i + x) = if x < 31 then name[x]?.getD 0 else 0 := by
    intro x less
    have written : setDirentAt buf i e (64 * i + x) = e.encode x := by
      refine (overlay_inside (by omega) (by omega)).trans ?_
      rw [Nat.add_sub_cancel_left]
    rw [written, e.encode_name ⟨x, less⟩, named]
    rfl
  have stored : ∀ j (inside : j < target.length), targetBuffer target j = target[j] := by
    intro j inside
    rw [targetBuffer, List.getElem?_eq_getElem inside]
    rfl
  constructor
  · intro kept
    -- The entry has a zero behind the name, the target has none.
    have fits : (target.drop (64 * i)).length ≤ name.length := by
      rw [List.length_drop]
      by_contra longer
      have inside : 64 * i + name.length < target.length := by omega
      have here := kept _ inside
      rw [byte _ short, List.getElem?_eq_none (Nat.le_refl _)] at here
      exact targetBuffer_proper noNul inside (here.symm.trans (ite_self 0))
    rw [List.prefix_iff_eq_take]
    apply List.ext_getElem
    · rw [List.length_take, Nat.min_eq_left fits]
    · intro x inside inside'
      rw [List.length_drop] at inside fits
      have within : x < name.length := by omega
      have here := kept (64 * i + x) (by omega)
      rw [byte x (by omega), if_pos (by omega), List.getElem?_eq_getElem within, stored] at here
      rw [List.getElem_drop, List.getElem_take]
      exact here.symm
  · intro front j inside
    by_cases among : 64 * i ≤ j ∧ j < 64 * i + 64
    · have fits := front.length_le
      rw [List.length_drop] at fits
      have here : j = 64 * i + (j - 64 * i) := by omega
      have within : j - 64 * i < (target.drop (64 * i)).length := by
        rw [List.length_drop]
        omega
      have within' : j - 64 * i < name.length := by omega
      have same := front.getElem within
      rw [List.getElem_drop] at same
      rw [here, byte _ (by omega), if_pos (by omega), List.getElem?_eq_getElem within', stored _ (by omega)]
      exact same.symm
    · rw [setDirentAt, overlay_outside (by omega)]
      exact begins j inside

/-- Whether `add_dirent_to_dir` leaves the target in its block. -/
theorem untouched_iff (mounted : u.Mounted k) (here : d < 65536) (small : b < 65536)
    (used : u.fat b ≠ fatFree)
    (short : name.length < 32) (fits : target.length < u.gBlockSize) (named : e.name = DirEntry.packName name)
    (whole : ∀ j < u.gBlockSize, u.block b j = targetBuffer target j)
    (added : addDirentToDir d e u = some (.ok, w)) : w.Begins b target ↔ Untouched u d b target name := by
  have begins : ∀ j < target.length, u.block b j = targetBuffer target j := fun j inside => whole j (by omega)
  obtain ⟨_, ⟨p, search, rfl⟩ | ⟨g, last, extended, rfl⟩⟩ := addDirentToDir_ok mounted added
  · have only : Untouched u d b target name ↔ (p.1 = b → target.drop (64 * p.2) <+: name) := by
      constructor
      · intro untouched
        exact untouched.slot p search
      · intro slot
        constructor
        · intro q search' same
          cases search.symm.trans search'
          exact slot same
        · intro g last extended
          cases search.symm.trans extended.search
    rw [only]
    by_cases same : p.1 = b
    · subst same
      rw [← begins_slot_iff noNul short named begins]
      refine ⟨fun kept _ j inside => ?_, fun kept j inside => ?_⟩
      · rw [← kept j inside]
        exact (block_putBlock_self u _ (by omega)).symm
      · exact (block_putBlock_self u _ (by omega)).trans (kept rfl j inside)
    · obtain ⟨_, ⟨count, _, along⟩, _⟩ := findSlotLoop_slot mounted search
      have bound : p.1 < 65536 := along_small here along
      refine ⟨fun _ equal => absurd equal same, fun _ => (begins_congr fun j _ => ?_).mpr begins⟩
      exact congrFun (mounted.block_putBlock_ne _ (Ne.symm same) bound small) j
  · obtain ⟨_, bound, free⟩ := firstFree_small mounted extended.free
    have apart : b ≠ g := by
      rintro rfl
      exact used free
    have taken := setFat_mounted mounted g fatEoc
    have linked := setFat_mounted taken last g
    have grown : (u.grown last g).Mounted k := linked.of_eq rfl rfl rfl rfl rfl rfl rfl rfl
    have same : ((u.grown last g).putDirent (g, 0) e).block b =
      ((u.setFat g fatEoc).setFat last g).block b := by
      refine (grown.block_putBlock_ne _ apart bound small).trans ?_
      exact linked.block_putBlock_ne _ apart bound small
    have only : Untouched u d b target name ↔
      (g ≠ fatEoc → ∀ j < target.length, u.blockOffset b + j ≠ 2 * last) := by
      constructor
      · intro untouched
        exact untouched.link g last extended
      · intro link
        constructor
        · intro p search
          cases extended.search.symm.trans search
        · intro g' last' extended'
          cases extended.free.symm.trans extended'.free
          cases extended.ends.symm.trans extended'.ends
          exact link
    obtain ⟨_, _, ends⟩ := lastInChain_ends extended.ends
    rw [only, begins_congr fun j _ => congrFun same j]
    by_cases proper : g = fatEoc
    · have kept : ((u.setFat g fatEoc).setFat last g).Begins b target := by
        have away := free_apart noNul (Nat.le_of_lt fits) begins free
        have first := (begins_setFat (Nat.le_of_lt fits) away fatEoc).mpr begins
        have unchanged : ((u.setFat g fatEoc).setFat last g) = u.setFat g fatEoc := by
          rw [proper] at ends ⊢
          exact setFat_same ends
        rw [unchanged]
        exact first
      exact ⟨fun _ other => absurd proper other, fun _ => kept⟩
    · rw [begins_link_iff noNul mounted small bound proper fits whole free ends]
      exact ⟨fun apart _ => apart, fun apart => apart proper⟩

end Keeping

section Following

/-- The block of the target as `k_symlink` leaves it to `add_dirent_to_dir`. -/
theorem prepared_whole (mounted : s.Mounted k) (free : s.firstFree = some b) (target : List UInt8) :
    (∀ j < s.gBlockSize, ((Maker.symlink target).prepared s b).block b j = targetBuffer target j) ∧
      ((Maker.symlink target).prepared s b).fat b ≠ fatFree := by
  refine ⟨fun j inside => block_putBlock_self (s.setFat b fatEoc) _ inside, ?_⟩
  rw [prepared_fat_self mounted free]
  decide

/-- Whatever target `k_symlink` accepts, a resolution that follows the link later goes on with that target
exactly if it has fewer than `PATH_MAX` bytes and the entry of the link was not written over it. -/
theorem symlink_followed_iff (s t : Fs) (fatBlocks : Nat) (now : UInt64) (target linkpath : CStr)
    (mounted : s.Mounted fatBlocks) (cwd : s.gCwdBlock < 65536)
    (made : kSymlink now target.bytes linkpath.bytes s = some (.ok, t)) :
    ∃ err r b w, resolvePathNoFollow now linkpath.bytes s = some ((err, r), s) ∧
      (Maker.symlink target.bytes).Enters now linkpath.bytes s r.parentDirBlock b w t ∧
      ∀ u dir name, LeadsTo t u b dir name
          (symlinkEntry now (getFilenameFromPath linkpath.bytes) target.bytes b) →
        (Follows u dir name target.bytes ↔ target.bytes.length < pathMax ∧
          Untouched ((Maker.symlink target.bytes).prepared s b) r.parentDirBlock b target.bytes
            (getFilenameFromPath linkpath.bytes)) := by
  obtain ⟨fits, err, r, missing, ran⟩ := kSymlink_ran mounted made
  obtain ⟨b, w, enters⟩ := ran.enters missing
  refine ⟨err, r, b, w, ran.resolves, enters, fun u dir name leads => ?_⟩
  have here : r.parentDirBlock < 65536 :=
    resolvePathInternal_parent symlinkLevels _ s _ s cwd ran.resolves missing
  obtain ⟨_, small, _⟩ := firstFree_small mounted enters.free
  obtain ⟨whole, used⟩ := prepared_whole mounted enters.free target.bytes
  have sizes := mounted.blockSize_bounds
  have written : ((Maker.symlink target.bytes).prepared s b).Mounted fatBlocks :=
    (setFat_mounted mounted b fatEoc).of_eq rfl rfl rfl rfl rfl rfl rfl rfl
  have kept := untouched_iff target.noNul written here small used enters.short fits rfl whole enters.added
  obtain ⟨files, fds, same⟩ := enters.rest
  have kept' : t.Begins b target.bytes ↔ w.Begins b target.bytes := by
    rw [same]
    rfl
  have read := leads.follows target.bytes (by omega) small rfl rfl rfl
  have limit : pathMax = 256 := rfl
  rw [← kept, ← kept']
  constructor
  · intro follows
    obtain ⟨short, bytes⟩ := (cStringIn_eq_iff target.noNul).mp (read.unique follows)
    exact ⟨by omega, bytes⟩
  · rintro ⟨short, bytes⟩
    have exactly : cStringIn (t.block b) (min target.bytes.length (pathMax - 1)) = target.bytes :=
      (cStringIn_eq_iff target.noNul).mpr ⟨by omega, bytes⟩
    rwa [exactly] at read

end Following

section Intact

variable {promised : Image.Promises} {I : Image}

/-- A resolution that finds nothing ends in a directory. -/
theorem Resting.parent_dir (resting : Resting promised s I) {levels : Nat} {follow : Bool} {err : PennFatErr}
    {r : ResolvedPath} (run : resolvePathInternal now follow (levels + 1) path s = some ((err, r), s))
    (missing : r.found = false) (proper : r.parentDirBlock ≠ 0) : I.dirs r.parentDirBlock := by
  obtain ⟨_, _, run', resolved⟩ :=
    resolvePathInternal_run resting.tracks resting.good.wf resting.cwd now follow (levels + 1) path
  cases run.symm.trans run'
  cases resolved with
  | slash => cases missing
  | dir => cases missing
  | entry => cases missing
  | missing err d here _ => exact here
  | nothing => exact absurd rfl proper

/-- On a volume that is intact the entry of a link is not written over its target. -/
theorem Resting.untouched (resting : Resting promised s I) (here : I.dirs d) (free : s.firstFree = some b)
    (target name : List UInt8) : Untouched ((Maker.symlink target).prepared s b) d b target name := by
  have tracks := resting.tracks
  have wf := resting.good.wf
  have ready := tracks.ready
  have mounted := ready.toMounted
  have sizes := mounted.blockSize_bounds
  have bounds := ready.fatEntries_bounds
  obtain ⟨low, small, unused⟩ := firstFree_small mounted free
  have taken := setFat_mounted mounted b fatEoc
  have written : ((Maker.symlink target).prepared s b).Mounted 1 :=
    taken.of_eq rfl rfl rfl rfl rfl rfl rfl rfl
  have kept : ∀ x ∈ I.chain d, ((Maker.symlink target).prepared s b).fat x = s.fat x := by
    intro x member
    obtain ⟨_, inside, used⟩ := tracks.chain_block wf member
    have other : x ≠ b := by
      rintro rfl
      exact used unused
    have home : (s.setFat b fatEoc).fatHome x ≠ b := by
      have zero : (s.setFat b fatEoc).fatHome x = 0 := fatHome_zero (ready.setFat b fatEoc) inside
      omega
    refine (fat_putBlock_apart taken (targetBuffer target) small home).trans ?_
    rw [fat_setFat _ (by decide), if_neg other]
  have stays : ∀ x y count, x ∈ I.chain d → LinkedChain.Along ((Maker.symlink target).prepared s b).onward
      ((Maker.symlink target).prepared s b).Full y x count → y ∈ I.chain d := by
    intro x y count member along
    induction along with
    | here => exact member
    | @on x after _ _ link _ ih =>
        rw [onward, kept x member] at link
        have one : LinkedChain.Along s.onward (fun _ => True) after x 1 := .on trivial link .here
        exact ih (tracks.along_chain wf one member)
  constructor
  · intro p search same
    obtain ⟨_, ⟨count, _, along⟩, _⟩ := findSlotLoop_slot written search
    have member := stays d p.1 count (wf.dir_mem here) along
    exact absurd unused (same ▸ (tracks.chain_block wf member).2.2)
  · intro g last extended _ j inside among
    obtain ⟨_, mapped, _⟩ := lastInChain_ends extended.ends
    have inFat : last < 1 * s.gBlockSize / 2 := ((setFat_mounted written g fatEoc).mapped_lt mapped).1
    have offset : ((Maker.symlink target).prepared s b).blockOffset b = b * s.gBlockSize :=
      written.blockOffset_eq small
    have past : 2 * s.gBlockSize ≤ b * s.gBlockSize := Nat.mul_le_mul_right _ low
    omega

end Intact

section Links

/-- The bytes of the entry a lookup finds. -/
def foundBytes (u : Fs) (dir : Nat) (name : List UInt8) : Option (Bool × List UInt8) :=
  match findEntryInDir dir name u with
  | some (.ok hit, _) => some (hit.found, (List.range 64).map hit.entry.encode)
  | _ => none

theorem encode_injective {e e' : DirEntry}
    (same : (List.range 64).map e.encode = (List.range 64).map e'.encode) : e = e' := by
  rw [← DirEntry.decode_encode e, ← DirEntry.decode_encode e']
  exact DirEntry.decode_congr fun j inside => List.map_inj_left.mp same j (List.mem_range.mpr inside)

theorem leadsTo_of_values (mounted : u.Mounted k) (component : name ≠ dot ∧ name ≠ dotDot)
    (entry : foundBytes u dir name = some (true, (List.range 64).map link.encode)) (stored : u.Stored b)
    (size : u.gBlockSize = t.gBlockSize) (bytes : ∀ j < t.gBlockSize, u.block b j = t.block b j) :
    LeadsTo t u b dir name link := by
  refine ⟨⟨k, mounted⟩, stored, component, ?_, ?_⟩
  · rw [foundBytes] at entry
    split at entry
    · next hit t run =>
        simp only [Option.some.injEq, Prod.mk.injEq] at entry
        obtain ⟨found, same⟩ := entry
        have stays : t = u := (findEntryInDir_host dir name _ _ _ run).eq mounted.host
        exact ⟨hit, stays ▸ run, found, encode_injective same⟩
    · cases entry
  · funext j
    by_cases within : j < t.gBlockSize
    · exact bytes j within
    · simp only [block, size, within, ↓reduceIte]

/-- "l" -/
def linkName : CStr := .literal [108]

/-- A volume of 512-byte blocks. -/
def largeVolume : Fs := freshVolume (fun _ => none) imageA.bytes 1

/-- 256 bytes -/
def longTarget : CStr := .literal (List.replicate 256 97)

theorem freshVolume_mounted {config : Int} (low : 0 ≤ config) (high : config ≤ 4) :
    (freshVolume (fun _ => none) imageA.bytes config).Mounted 1 := by
  have rests : Resting .plain (freshVolume (fun _ => none) imageA.bytes config) _ :=
    freshVolume_resting (by decide) low high
  exact rests.tracks.ready.toMounted

/-- A target of 256 bytes loses its last byte. -/
theorem long_target_cut :
    ¬ ∀ (s t : Fs) (fatBlocks : Nat) (now : UInt64) (target linkpath : CStr), s.Mounted fatBlocks →
      s.gCwdBlock < 65536 → kSymlink now target.bytes linkpath.bytes s = some (.ok, t) →
      ∃ err r b w, resolvePathNoFollow now linkpath.bytes s = some ((err, r), s) ∧
        (Maker.symlink target.bytes).Enters now linkpath.bytes s r.parentDirBlock b w t ∧
        ∀ u dir name, LeadsTo t u b dir name
            (symlinkEntry now (getFilenameFromPath linkpath.bytes) target.bytes b) →
          Follows u dir name target.bytes := by
  intro always
  have mounted : largeVolume.Mounted 1 := freshVolume_mounted (by decide) (by decide)
  have made : (Maker.symlink longTarget.bytes).Made 1 linkName.bytes largeVolume
      ((kSymlink 1 longTarget.bytes linkName.bytes).after largeVolume) := Prog.run_after (by decide +kernel)
  obtain ⟨err, r, b, w, _, enters, follows⟩ :=
    always _ _ 1 1 longTarget linkName mounted (by decide +kernel) made
  have free : largeVolume.firstFree = some 2 := by decide +kernel
  obtain rfl := Option.some.inj (free.symm.trans enters.free)
  have mounted' : ((kSymlink 1 longTarget.bytes linkName.bytes).after largeVolume).Mounted 1 :=
    made.stays mounted
  have leads : LeadsTo ((kSymlink 1 longTarget.bytes linkName.bytes).after largeVolume)
      ((kSymlink 1 longTarget.bytes linkName.bytes).after largeVolume) 2 1 linkName.bytes
      (symlinkEntry 1 linkName.bytes longTarget.bytes 2) :=
    leadsTo_of_values mounted' (by decide) (by decide +kernel)
      (by unfold Fs.Stored; decide +kernel) rfl fun _ _ => rfl
  have read := leads.follows longTarget.bytes (by decide +kernel) (by decide) rfl rfl rfl
  have cut := (cStringIn_eq_iff longTarget.noNul).mp (read.unique (follows _ 1 _ leads))
  exact absurd cut.1 (by decide +kernel)

/-- "/b/../c" -/
def shortTarget : CStr := .literal [47, 98, 47, 46, 46, 47, 99]

/-- The volume with the directory "b" and the file "c" gets a link to "/b/../c" in "b". -/
def shortLink : Fs :=
    (kSymlink 10 shortTarget.bytes linkInB.bytes).after ((runCalls housekeeping).after blankVolume)

/-- The link is followed after another directory was made, too. -/
theorem symlink_followed_short :
    Follows ((kMkdir 11 [122]).after shortLink) 2 linkName.bytes shortTarget.bytes := by
  obtain ⟨flag, _, top⟩ := housekeeping_state
  obtain ⟨I, resting⟩ := mounted_resting (housekeeping_run .plain) flag
  have mounted := resting.tracks.ready.toMounted
  have made : (Maker.symlink shortTarget.bytes).Made 10 linkInB.bytes
    ((runCalls housekeeping).after blankVolume) shortLink :=
    Prog.run_after (by decide +kernel)
  have later : Maker.mkdir.Made 11 [122] shortLink ((kMkdir 11 [122]).after shortLink) :=
    Prog.run_after (by decide +kernel)
  obtain ⟨err, r, b, w, resolves, enters, follows⟩ :=
    symlink_followed_iff _ _ 1 10 shortTarget linkInB mounted (by rw [top]; decide) made
  have free : ((runCalls housekeeping).after blankVolume).firstFree = some 4 := by decide +kernel
  obtain rfl := Option.some.inj (free.symm.trans enters.free)
  have parent : r.parentDirBlock = 2 := resolved_eq (fun x => x.2.parentDirBlock) resolves (by decide +kernel)
  have mounted' := later.stays (made.stays mounted)
  have leads : LeadsTo shortLink ((kMkdir 11 [122]).after shortLink) 4 2 linkName.bytes
      (symlinkEntry 10 (getFilenameFromPath linkInB.bytes) shortTarget.bytes 4) :=
    leadsTo_of_values mounted' (by decide) (by decide +kernel) (by unfold Fs.Stored; decide +kernel)
      (by decide +kernel)
      (by decide +kernel)
  have missing : r.found = false := resolved_eq (fun x => x.2.found) resolves (by decide +kernel)
  have here := resting.parent_dir resolves missing (by rw [parent]; decide)
  exact (follows _ 2 _ leads).mpr ⟨by decide, resting.untouched here free _ _⟩

end Links

end PennOs.Fat
