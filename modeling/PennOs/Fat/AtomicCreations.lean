import PennOs.Fat.FailedCreations

set_option autoImplicit false

/- What a failing `k_touch`, `k_mkdir` or `k_symlink` leaves behind, on any mounted volume and whatever the
host does. -/
namespace PennOs.Fat

open Fs

/-- The calls that take a block and make an entry for it. -/
inductive Creation where
  | touch
  | mkdir
  | symlink (target : List UInt8)

/-- The FAT is as before, and no slot of a block in use became live. -/
structure NothingAdded (s t : Fs) : Prop where
  fat : ∀ i < totalEntries s, t.fat i = s.fat i
  entries : ∀ p : Nat × Nat, 1 ≤ p.1 → p.1 < totalEntries s → s.fat p.1 ≠ fatFree → p.2 < s.entriesPerBlock →
    (t.dirent p).live = true → (s.dirent p).live = true

namespace Creation

def run (now : UInt64) (path : List UInt8) : Creation → FsM PennFatErr
  | touch => kTouch now path
  | mkdir => kMkdir now path
  | symlink target => kSymlink now target path

def resolve (now : UInt64) (path : List UInt8) : Creation → FsM (PennFatErr × ResolvedPath)
  | touch => resolvePath now path
  | mkdir => resolvePath now path
  | symlink _ => resolvePathNoFollow now path

/-- What the call asks of its arguments. -/
def Accepts (s : Fs) (path : List UInt8) : Creation → Prop
  | touch => path ≠ [] ∧ ¬ 32 ≤ (getFilenameFromPath path).length ∧
      ¬ (getFilenameFromPath path = dot ∨ getFilenameFromPath path = dotDot)
  | mkdir => path ≠ [] ∧ ¬ badName (getFilenameFromPath path) = true
  | symlink target => ¬ (target = [] ∨ path = []) ∧ ¬ badName (getFilenameFromPath path) = true ∧
      ¬ s.gBlockSize ≤ target.length

/-- The entry for the block `b`. -/
def entry (now : UInt64) (path : List UInt8) (b : Nat) : Creation → DirEntry
  | touch => newFileEntry now (getFilenameFromPath path) b
  | mkdir => newDirEntry now (getFilenameFromPath path) b
  | symlink target => symlinkEntry now (getFilenameFromPath path) target b

/-- The block `b` is taken; a symbolic link has its target in it, written and synced. -/
def Prepares (v : Fs) (b : Nat) : Creation → Fs → Prop
  | touch, u => u = v.setFat b fatEoc
  | mkdir, u => u = v.setFat b fatEoc
  | symlink target, u =>
      v.Carries 4 ∧ u = (((v.setFat b fatEoc).skip 4).putBlock b (targetBuffer target)).skip 1

/-- The host calls that follow the insertion of the entry. -/
def after : Creation → Nat
  | touch => 0
  | mkdir => 4
  | symlink _ => 0

/-- The call goes back on the growth of the directory: `free_block_chain` of the block `b` frees what hangs
on it. -/
def FreesGrowth (b last : Nat) : Creation → Prop
  | touch => False
  | mkdir => False
  | symlink _ => last = b

/-- The call takes the block `b` for an entry in the directory `d`, in the state `v`. -/
structure Takes (creation : Creation) (s : Fs) (now : UInt64) (path : List UInt8) (d b : Nat)
    (v : Fs) : Prop where
  accepts : creation.Accepts s path
  proper : ¬ (d = fatFree ∨ d = fatEoc)
  resolves : ∃ err r, creation.resolve now path s = some ((err, r), v) ∧ ¬ (err ≠ .ok ∧ err ≠ .notdir) ∧
    r.found = false ∧ r.parentDirBlock = d
  free : v.firstFree = some b

/-- The call comes to `add_dirent_to_dir` in the state `u`. -/
def Comes (creation : Creation) (s : Fs) (now : UInt64) (path : List UInt8) (d b : Nat) (u : Fs) : Prop :=
  ∃ v, creation.Takes s now path d b v ∧ creation.Prepares v b u

/-- The blocks that the call takes or writes to lie behind the `k` blocks of the FAT, and none that it takes
has the number that ends a chain. -/
structure Behind (creation : Creation) (s : Fs) (now : UInt64) (path : List UInt8) (k : Nat) : Prop where
  touched : ∀ err r v, creation.resolve now path s = some ((err, r), v) → r.found = true → r.isRoot = false →
    0 ≤ r.entryIndexInBlock → k ≤ r.entryBlock
  own : ∀ d b v, creation.Takes s now path d b v → k ≤ b ∧ b ≠ fatEoc
  slot : ∀ d b u p v, creation.Comes s now path d b u → Searched u d (some p) v → k ≤ p.1
  grown : ∀ d b u x last v, creation.Comes s now path d b u → Extends u d x last v → k ≤ x ∧ x ≠ fatEoc

/-- The directory has grown, but what is to come after that fails. -/
def LeavesGrowth (creation : Creation) (d b : Nat) (u : Fs) : Prop :=
  ∃ x last v, Extends u d x last v ∧ ¬ creation.FreesGrowth b last ∧
    v.Carries 3 ∧ ¬ v.Carries (8 + creation.after)

/-- The first byte of the entry has come into the free slot `p`, but what is to come after that fails. -/
def LeavesEntry (creation : Creation) (d : Nat) (u : Fs) (p : Nat × Nat) : Prop :=
  ∃ v, Searched u d (some p) v ∧
    (v.Carries 2 ∧ ¬ v.Carries 5 ∧ 64 * p.2 < (v.skip 2).written ∨ v.Carries 5 ∧
    ¬ v.Carries (5 + creation.after))

end Creation

variable {s t u v w : Fs} {b c d i k : Nat} {e : DirEntry} {p q : Nat × Nat} {err : PennFatErr}
  {now : UInt64} {path : List UInt8} {creation : Creation}

section Added

/-- `u` is `s` with the free block `b` taken and perhaps written. -/
structure Prepared (k : Nat) (s : Fs) (b : Nat) (u : Fs) : Prop extends Framed s u where
  low : 2 ≤ b
  behind : k ≤ b ∧ b ≠ fatEoc
  inside : b < totalEntries s
  free : s.fat b = fatFree
  fat : ∀ i < totalEntries s, u.fat i = if i = b then fatEoc else s.fat i
  mark : ∀ q : Nat × Nat, k ≤ q.1 → q.1 < 65536 → q.2 < s.entriesPerBlock → q.1 ≠ b → u.mark q = s.mark q

section

variable (mounted : s.calm.Mounted k) (framed : Framed s t) (fat : ∀ i < totalEntries s, t.fat i = s.fat i)

include mounted framed fat

/-- Blocks in front of the data are made of FAT entries. -/
theorem mark_of_fat (inFat : q.1 < k) (inside : q.2 < s.entriesPerBlock) : t.mark q = s.mark q := by
  have slot : 64 * q.2 + 64 ≤ s.gBlockSize := mounted.slot_inside inside
  have room : 64 * q.2 < s.gBlockSize := by omega
  have few := mounted.count.2
  have offset : s.blockOffset q.1 = q.1 * s.gBlockSize := mounted.blockOffset_eq (by omega)
  have offset' : t.blockOffset q.1 = s.blockOffset q.1 := by
    rw [blockOffset, blockOffset, framed.gBlockSize]
  have total : totalEntries s = k * s.gBlockSize / 2 := totalEntries_mounted (s := s.calm) mounted
  have front : (q.1 + 1) * s.gBlockSize ≤ k * s.gBlockSize := Nat.mul_le_mul_right _ inFat
  have even : s.gBlockSize % 256 = 0 := mounted.blockSize_bounds.2.2
  have whole : (q.1 * s.gBlockSize) % 2 = 0 := by
    have half : s.gBlockSize % 2 = 0 := by omega
    rw [Nat.mul_mod, half, Nat.mul_zero]
  obtain ⟨i, place⟩ : ∃ i, q.1 * s.gBlockSize + 64 * q.2 = 2 * i :=
    ⟨(q.1 * s.gBlockSize + 64 * q.2) / 2, by omega⟩
  have below : i < totalEntries s := by
    rw [Nat.succ_mul] at front
    omega
  have byte := LittleEndian.value_injective (fat i below) 0 (by decide)
  rw [mark_eq, mark_eq, block, block, framed.gBlockSize, if_pos room, if_pos room, offset', offset, place]
  exact byte

theorem nothingAdded_of_quiet
    (mark : ∀ q : Nat × Nat, k ≤ q.1 → q.1 < 65536 → q.2 < s.entriesPerBlock → s.fat q.1 ≠ fatFree →
      t.mark q = s.mark q ∨ t.mark q = 0) : NothingAdded s t where
  fat := fat
  entries q low high used inside live := by
    have small := totalEntries_le mounted
    have alive := (live_mark).mp live
    by_cases behind : k ≤ q.1
    · rcases mark q behind (by omega) inside used with same | gone
      · exact (live_mark).mpr (same ▸ alive)
      · exact absurd gone alive.1
    · rw [mark_of_fat mounted framed fat (by omega) inside] at alive
      exact (live_mark).mpr alive

/-- A slot that starts with another byte now. -/
theorem nothingAdded_marked (place : k ≤ p.1 ∧ p.2 < s.entriesPerBlock)
    (dead : s.fat p.1 ≠ fatFree → s.mark p = 0 ∨ s.mark p = 1)
    (mark : ∀ q : Nat × Nat, k ≤ q.1 → q.1 < 65536 → q.2 < s.entriesPerBlock → s.fat q.1 ≠ fatFree →
      t.mark q = if q = p then e.name0 else s.mark q) :
    NothingAdded s t ↔ ¬ (e.live = true ∧ p.1 < totalEntries s ∧ s.fat p.1 ≠ fatFree) := by
  have small := totalEntries_le mounted
  have positive := mounted.count.1
  constructor
  · rintro nothing ⟨live, high, used⟩
    have now_ := mark p place.1 (by omega) place.2 used
    rw [if_pos rfl] at now_
    have alive : (t.dirent p).live = true := (live_mark).mpr (now_ ▸ DirEntry.live_iff.mp live)
    have before := (live_mark).mp (nothing.entries p (by omega) high used place.2 alive)
    rcases dead used with zero | one
    · exact before.1 zero
    · exact before.2.1 one
  · intro hidden
    refine ⟨fat, fun q low high used inside live => ?_⟩
    have alive := (live_mark).mp live
    by_cases behind : k ≤ q.1
    · rw [mark q behind (by omega) inside used] at alive
      split at alive
      · next same =>
          subst same
          exact absurd ⟨DirEntry.live_iff.mpr alive, high, used⟩ hidden
      · exact (live_mark).mpr alive
    · rw [mark_of_fat mounted framed fat (by omega) inside] at alive
      exact (live_mark).mpr alive

end

theorem not_nothingAdded (inside : i < totalEntries s) (free : s.fat i = fatFree) (used : t.fat i ≠ fatFree) :
    ¬ NothingAdded s t :=
  fun nothing => used ((nothing.fat i inside).trans free)

end Added

section Stopping

variable (mounted : s.calm.Mounted k)

include mounted

theorem nothingAdded_onlyHost (only : OnlyHost s t) : NothingAdded s t :=
  nothingAdded_of_quiet mounted only.framed (fun i _ => only.fat i) fun q _ _ _ _ => .inl (only.mark q)

/-- A new time does not make an entry live. -/
theorem nothingAdded_rewritten {index : Int} (place : index = (p.2 : Nat)) (low : k ≤ p.1)
    (bound : p.1 < 65536)
    (same : e.name0 = s.mark p) (run : writeDirent p.1 index e s = some (err, t)) : NothingAdded s t := by
  have opened : s.fdOpen = true := mounted.descriptor
  unfold writeDirent at run
  split at run
  · cases run
    exact nothingAdded_onlyHost mounted (Std.Refl.refl _)
  obtain ⟨room, u, first, run⟩ := Prog.bind_inv run
  have only := hostOk_host _ _ _ first
  split at run
  · cases run
    exact nothingAdded_onlyHost mounted only
  obtain ⟨read, v, second, run⟩ := Prog.bind_inv run
  have only' : OnlyHost s v := Trans.trans only (readBlock_host _ _ _ _ second)
  cases read with
  | none =>
      cases run
      exact nothingAdded_onlyHost mounted only'
  | some buf =>
  dsimp only at run
  rw [Prog.get_bind] at run
  split at run
  · cases run
    exact nothingAdded_onlyHost mounted only'
  obtain ⟨_, _, rfl, _⟩ := (readBlock_some_iff (only.fdOpen.trans opened)).mp second
  obtain ⟨ok, x, writing, run⟩ := Prog.bind_inv run
  obtain ⟨count, fits, torn⟩ := writeBlock_overwrites (only'.fdOpen.trans opened) writing
  have block : u.block p.1 = s.block p.1 := by
    rw [only.same]
    rfl
  have size := only'.framed.gBlockSize
  have index' : index.toNat = p.2 := by omega
  rw [block, index'] at torn
  have torn := torn.of_host only'
  have last : x = t := by
    cases ok <;> cases run <;> rfl
  subst last
  refine nothingAdded_of_quiet mounted torn.toFramed (fun i inside => torn.fat mounted low bound inside) ?_
  intro q _ bound' inside _
  left
  rw [torn.entered mounted bound (size ▸ fits) bound' inside]
  split
  · next hit =>
      rw [same, hit.1]
  · rfl

theorem nothingAdded_invalid {index : Int} (negative : index < 0)
    (run : writeDirent b index e s = some (err, t)) : NothingAdded s t := by
  unfold writeDirent at run
  split at run
  · cases run
    exact nothingAdded_onlyHost mounted (Std.Refl.refl _)
  obtain ⟨room, u, first, run⟩ := Prog.bind_inv run
  have only := hostOk_host _ _ _ first
  split at run
  · cases run
    exact nothingAdded_onlyHost mounted only
  obtain ⟨read, v, second, run⟩ := Prog.bind_inv run
  have only' : OnlyHost s v := Trans.trans only (readBlock_host _ _ _ _ second)
  cases read with
  | none =>
      cases run
      exact nothingAdded_onlyHost mounted only'
  | some buf =>
      dsimp only at run
      rw [Prog.get_bind, if_pos (.inl negative)] at run
      cases run
      exact nothingAdded_onlyHost mounted only'

omit mounted in
theorem NothingAdded.of_host (only : OnlyHost s u) (nothing : NothingAdded u t) : NothingAdded s t := by
  obtain ⟨fat, entries⟩ := nothing
  rw [only.framed.totalEntries] at fat entries
  rw [only.framed.entriesPerBlock] at entries
  simp only [only.fat] at fat entries
  refine ⟨fat, fun q low high used inside live => ?_⟩
  have live' := entries q low high used inside live
  rw [only.same] at live'
  exact live'

end Stopping

section Coming

namespace Creation

/-- What follows `add_dirent_to_dir`. -/
def finish (now : UInt64) (d b : Nat) : Creation → PennFatErr → FsM PennFatErr
  | touch, err => match err with
      | .ok => return .ok
      | err => do
          fatSet b fatFree
          return err
  | mkdir, err => match err with
      | .ok => do
          if !(← malloc) then
            fatSet b fatFree
            return .outofmem
          if ← writeBlock (newDirBuffer now b d) b then return .ok
          else
            fatSet b fatFree
            return .io
      | err => do
          fatSet b fatFree
          return err
  | symlink _, err => match err with
      | .ok => return .ok
      | err => do
          freeBlockChain b
          return err

end Creation

variable (mounted : s.calm.Mounted k)

include mounted

theorem prepared_taken (behind : k ≤ b ∧ b ≠ fatEoc) (only : OnlyHost s v) (free : v.firstFree = some b) :
    Prepared k s b (v.setFat b fatEoc) := by
  have mounted' := only.framed.mounted mounted
  obtain ⟨low, high, unused⟩ := firstFree_taken mounted' free
  rw [only.framed.totalEntries] at high
  refine ⟨Trans.trans only.framed (setFat_framed v b fatEoc), low, behind, high,
    (only.fat b).symm.trans unused, ?_, ?_⟩
  · intro i _
    rw [fat_setFat _ (by decide), only.fat]
  · intro q low' bound _ _
    rw [mark_setFat mounted' _ (only.framed.totalEntries ▸ high) low' bound, only.mark]

omit mounted in
theorem Prepared.of_host (prepared : Prepared k s b u) (only : OnlyHost u w) : Prepared k s b w where
  toFramed := Trans.trans prepared.toFramed only.framed
  low := prepared.low
  behind := prepared.behind
  inside := prepared.inside
  free := prepared.free
  fat i inside := (only.fat i).trans (prepared.fat i inside)
  mark q low bound inside apart := (only.mark q).trans (prepared.mark q low bound inside apart)

theorem Prepared.overwritten {count : Nat} {buf : Buffer} (prepared : Prepared k s b u)
    (fits : count ≤ u.gBlockSize) (torn : Overwrites u b count buf w) : Prepared k s b w := by
  have mounted' := prepared.mounted mounted
  have small := totalEntries_le mounted
  have high := prepared.inside
  refine ⟨Trans.trans prepared.toFramed torn.toFramed, prepared.low, prepared.behind, high,
    prepared.free, ?_, ?_⟩
  · intro i inside
    rw [torn.fat mounted' prepared.behind.1 (by omega) (prepared.totalEntries ▸ inside),
      prepared.fat i inside]
  · intro q low' bound inside apart
    rw [torn.mark mounted' (by omega) fits bound (prepared.entriesPerBlock ▸ inside),
      if_neg fun both => apart both.1, prepared.mark q low' bound inside apart]

omit mounted in
theorem resolve_onlyHost {res : PennFatErr × ResolvedPath}
    (run : creation.resolve now path s = some (res, v)) :
    OnlyHost s v := by
  cases creation with
  | touch => exact resolvePath_host path s res v run
  | mkdir => exact resolvePath_host path s res v run
  | symlink target => exact resolvePathInternal_host symlinkLevels path s res v run

omit mounted in
theorem Creation.Takes.onlyHost (takes : creation.Takes s now path d b v) : OnlyHost s v := by
  obtain ⟨err, r, resolving, _⟩ := takes.resolves
  exact resolve_onlyHost resolving

omit mounted in
theorem Creation.Takes.small (cwd : s.gCwdBlock < 65536) (takes : creation.Takes s now path d b v) :
    d < 65536 := by
  obtain ⟨err, r, resolving, _, missing, rfl⟩ := takes.resolves
  cases creation with
  | touch => exact resolvePath_parent path s _ v cwd resolving missing
  | mkdir => exact resolvePath_parent path s _ v cwd resolving missing
  | symlink target => exact resolvePathInternal_parent symlinkLevels path s _ v cwd resolving missing

theorem Creation.Comes.prepared (behind : creation.Behind s now path k)
    (comes : creation.Comes s now path d b u) :
    Prepared k s b u := by
  obtain ⟨v, takes, prepares⟩ := comes
  have taken := prepared_taken mounted (behind.own d b v takes) takes.onlyHost takes.free
  cases creation with
  | touch => exact prepares ▸ taken
  | mkdir => exact prepares ▸ taken
  | symlink target =>
      obtain ⟨_, rfl⟩ := prepares
      have waited := taken.of_host (skip_onlyHost _ 4)
      have torn : Overwrites ((v.setFat b fatEoc).skip 4) b v.gBlockSize (targetBuffer target)
        (((v.setFat b fatEoc).skip 4).putBlock b (targetBuffer target)) := ⟨⟨rfl⟩, rfl⟩
      exact (waited.overwritten mounted (Nat.le_refl _) torn).of_host (skip_onlyHost _ 1)

theorem allocated (only : OnlyHost s v) (free : v.firstFree = some b) :
    allocateFreeBlock v = some (some b, v.setFat b fatEoc) := by
  have taken := allocateFreeBlock_calm (only.framed.mounted mounted)
  rw [free] at taken
  exact taken

omit mounted in
theorem hostOk_skips {ok : Bool} (run : hostOk s = some (ok, t)) : t = s.skip 1 := by
  obtain ⟨outcome, u, first, run⟩ := Prog.bind_inv run
  have last : u = t := by
    cases outcome <;> cases run <;> rfl
  subst last
  unfold hostCall at first
  rw [skip]
  split at first
  · next host =>
      cases first
      rw [host]
      exact (calm_of_host host).symm
  · next outcome' rest host =>
      cases first
      rw [host]
      rfl

/-- A call that comes to the insertion goes on with it. -/
theorem Creation.Comes.run (comes : creation.Comes s now path d b u) : creation.run now path s =
    (addDirentToDir d (creation.entry now path b) >>= creation.finish now d b) u := by
  obtain ⟨v, ⟨accepts, proper, ⟨err, r, resolving, good, missing, rfl⟩, free⟩, prepares⟩ := comes
  have only := resolve_onlyHost resolving
  have flag : s.gMounted = true := mounted.flag
  have flag' : ¬ (!s.gMounted) = true := by rw [flag]; decide
  have missing' : ¬ r.found = true := by rw [missing]; decide
  have taken := allocated mounted only free
  have size : v.gBlockSize = s.gBlockSize := only.framed.gBlockSize
  cases creation with
  | touch =>
      obtain rfl := prepares
      obtain ⟨nonempty, short, plain⟩ := accepts
      rw [run, kTouch, Prog.get_bind, if_neg flag', if_neg nonempty]
      refine (Prog.bind_of_run resolving _).trans ?_
      dsimp only
      rw [if_neg good, if_neg missing', if_neg proper, if_neg short, if_neg plain, Prog.bind_of_run taken]
      rfl
  | mkdir =>
      obtain rfl := prepares
      obtain ⟨nonempty, named⟩ := accepts
      rw [run, kMkdir, Prog.get_bind, if_neg flag', if_neg nonempty]
      refine (Prog.bind_of_run resolving _).trans ?_
      dsimp only
      rw [if_neg good, if_neg missing', if_neg proper, if_neg named, Prog.bind_of_run taken]
      rfl
  | symlink target =>
      obtain ⟨carried, rfl⟩ := prepares
      obtain ⟨nonempty, named, fits⟩ := accepts
      have opened : ((v.setFat b fatEoc).skip 1).fdOpen = true := (only.framed.mounted mounted).descriptor
      obtain ⟨first, rest⟩ := (carries_add).mp (show (v.setFat b fatEoc).Carries (1 + 3) from carried)
      have room : malloc (v.setFat b fatEoc) = some (true, (v.setFat b fatEoc).skip 1) :=
        (hostOk_true_iff).mpr ⟨first, rfl⟩
      have written := (@writeBlock_true_iff _ _ b (targetBuffer target) opened).mpr ⟨rest, rfl⟩
      rw [skip_skip] at written
      obtain ⟨ok, x, synced⟩ :=
        hostOk_total (((v.setFat b fatEoc).skip (1 + 3)).putBlock b (targetBuffer target))
      obtain rfl := hostOk_skips synced
      rw [run, kSymlink, Prog.get_bind, if_neg flag', if_neg nonempty]
      refine (Prog.bind_of_run resolving _).trans ?_
      dsimp only
      rw [if_neg good, if_neg missing', if_neg proper, if_neg named, if_neg fits, Prog.bind_of_run taken]
      dsimp only
      rw [Prog.bind_of_run room, if_neg (by decide), Prog.bind_of_run written, if_neg (by decide),
        Prog.bind_of_run synced]
      rfl

theorem nothingAdded_taken (prepared : Prepared k s b w) : NothingAdded s (w.setFat b fatFree) := by
  have mounted' := prepared.mounted mounted
  refine nothingAdded_of_quiet mounted (Trans.trans prepared.toFramed (setFat_framed w b fatFree)) ?_ ?_
  · intro i inside
    rw [fat_setFat _ (by decide), prepared.fat i inside]
    split
    · next same => exact same ▸ prepared.free.symm
    · rfl
  · intro q low bound inside used
    left
    have apart : q.1 ≠ b := fun same => used (same ▸ prepared.free)
    rw [mark_setFat mounted' _ (prepared.totalEntries ▸ prepared.inside) low bound,
      prepared.mark q low bound inside apart]

theorem fatMapped_framed (framed : Framed s w) (inside : b < totalEntries s) : w.fatMapped b = true :=
  fatMapped_inside (framed.mounted mounted) (framed.totalEntries ▸ inside)

theorem fatSet_prepared (prepared : Prepared k s b w) (value : Nat) :
    fatSet b value w = some ((), w.setFat b value) :=
  fatSet_mapped value (fatMapped_framed mounted prepared.toFramed prepared.inside)

/-- A call that fails before it comes to the insertion adds nothing. -/
theorem Creation.stops (behind : creation.Behind s now path k) (cwd : s.gCwdBlock < 65536)
    (run : creation.run now path s = some (err, t))
    (bad : err ≠ .ok) : NothingAdded s t ∨ ∃ d b u, creation.Comes s now path d b u := by
  have flag : s.gMounted = true := mounted.flag
  have flag' : ¬ (!s.gMounted) = true := by rw [flag]; decide
  have refused : ∀ {v err'}, OnlyHost s v → (pure err' : FsM PennFatErr) v = some (err, t) →
      NothingAdded s t ∨ ∃ d b u, creation.Comes s now path d b u := by
    rintro v err' only last
    cases last
    exact .inl (nothingAdded_onlyHost mounted only)
  cases creation with
  | touch =>
      rw [Creation.run, kTouch, Prog.get_bind, if_neg flag'] at run
      split at run
      · exact refused (Std.Refl.refl _) run
      next nonempty =>
      obtain ⟨⟨err', r⟩, v, resolving, run⟩ := Prog.bind_inv run
      have only := resolvePath_host path s _ v resolving
      dsimp only at run
      split at run
      · exact refused only run
      next good =>
      split at run
      · next found =>
          left
          split at run
          · cases run
            exact nothingAdded_onlyHost mounted only
          next other =>
          have named : path ≠ [slash] := by
            rintro rfl
            rw [resolvePath, if_pos rfl] at resolving
            cases resolving
            exact other rfl
          have arrives := resolvePath_arrives (w := s) mounted.descriptor cwd named s _ v (Std.Refl.refl _)
            resolving found
          refine NothingAdded.of_host only ?_
          have mounted' := only.framed.mounted mounted
          rcases arrives with ⟨index, _⟩ | ⟨hit, _⟩
          · exact nothingAdded_invalid mounted' (by rw [index]; decide) run
          · obtain ⟨i, inside, place, entry⟩ := hit.index
            have valid : 0 ≤ r.entryIndexInBlock := by
              rw [show r.entryIndexInBlock = (i : Int) from place]
              exact Int.natCast_nonneg i
            have low : k ≤ r.entryBlock :=
              behind.touched err' r v resolving found (by simpa using other) valid
            refine nothingAdded_rewritten (p := (r.entryBlock, i)) mounted' place low hit.small ?_ run
            rw [only.mark]
            have name : r.entry.name0 = (s.dirent (r.entryBlock, i)).name0 := congrArg DirEntry.name0 entry
            exact name
      next missing =>
      split at run
      · exact refused only run
      next proper =>
      split at run
      · exact refused only run
      next short =>
      split at run
      · exact refused only run
      next plain =>
      cases free : v.firstFree with
      | none =>
          have taken := allocateFreeBlock_calm (only.framed.mounted mounted)
          rw [free] at taken
          rw [Prog.bind_of_run taken] at run
          exact refused only run
      | some b =>
          exact .inr ⟨_, b, _, v, ⟨⟨nonempty, short, plain⟩, proper, ⟨err', r, resolving, good,
            by simpa using missing, rfl⟩, free⟩, rfl⟩
  | mkdir =>
      rw [Creation.run, kMkdir, Prog.get_bind, if_neg flag'] at run
      split at run
      · exact refused (Std.Refl.refl _) run
      next nonempty =>
      obtain ⟨⟨err', r⟩, v, resolving, run⟩ := Prog.bind_inv run
      have only := resolvePath_host path s _ v resolving
      dsimp only at run
      split at run
      · exact refused only run
      next good =>
      split at run
      · exact refused only run
      next missing =>
      split at run
      · exact refused only run
      next proper =>
      split at run
      · exact refused only run
      next named =>
      cases free : v.firstFree with
      | none =>
          have taken := allocateFreeBlock_calm (only.framed.mounted mounted)
          rw [free] at taken
          rw [Prog.bind_of_run taken] at run
          exact refused only run
      | some b =>
          exact .inr ⟨_, b, _, v, ⟨⟨nonempty, named⟩, proper, ⟨err', r, resolving, good,
            by simpa using missing, rfl⟩, free⟩, rfl⟩
  | symlink target =>
      rw [Creation.run, kSymlink, Prog.get_bind, if_neg flag'] at run
      split at run
      · exact refused (Std.Refl.refl _) run
      next nonempty =>
      obtain ⟨⟨err', r⟩, v, resolving, run⟩ := Prog.bind_inv run
      have only := resolvePathInternal_host symlinkLevels path s _ v resolving
      dsimp only at run
      split at run
      · exact refused only run
      next good =>
      split at run
      · exact refused only run
      next missing =>
      split at run
      · exact refused only run
      next proper =>
      split at run
      · exact refused only run
      next named =>
      split at run
      · exact refused only run
      next fits =>
      cases free : v.firstFree with
      | none =>
          have taken := allocateFreeBlock_calm (only.framed.mounted mounted)
          rw [free] at taken
          rw [Prog.bind_of_run taken] at run
          exact refused only run
      | some b =>
          have takes : Creation.Takes (.symlink target) s now path r.parentDirBlock b v :=
            ⟨⟨nonempty, named, fits⟩, proper, ⟨err', r, resolving, good, by simpa using missing, rfl⟩, free⟩
          by_cases carried : v.Carries 4
          · exact .inr ⟨_, b, _, v, takes, carried, rfl⟩
          · left
            have prepared := prepared_taken mounted (behind.own _ b v takes) only free
            rw [Prog.bind_of_run (allocated mounted only free)] at run
            dsimp only at run
            obtain ⟨room, x, first, run⟩ := Prog.bind_inv run
            have prepared' := prepared.of_host (hostOk_host _ _ _ first)
            cases room with
            | false =>
                rw [if_pos (by decide), Prog.bind_of_run (fatSet_prepared mounted prepared' _)] at run
                cases run
                exact nothingAdded_taken mounted prepared'
            | true =>
                obtain ⟨carried', rfl⟩ := (hostOk_true_iff).mp first
                rw [if_neg (by decide)] at run
                obtain ⟨written, y, second, run⟩ := Prog.bind_inv run
                have opened : ((v.setFat b fatEoc).skip 1).fdOpen = true :=
                  (prepared'.mounted mounted).descriptor
                cases written with
                | true =>
                    obtain ⟨rest, _⟩ := (writeBlock_true_iff opened).mp second
                    exact absurd ((carries_add).mpr
                      (⟨carried', rest⟩ : v.Carries 1 ∧ (v.skip 1).Carries 3)) carried
                | false =>
                    obtain ⟨count, less, torn⟩ := writeBlock_overwrites opened second
                    have prepared'' := prepared'.overwritten mounted less torn
                    rw [if_pos (by decide), Prog.bind_of_run (fatSet_prepared mounted prepared'' _)] at run
                    cases run
                    exact nothingAdded_taken mounted prepared''

end Coming

section Ending

variable {last : Nat} {x : Nat}

theorem leavesEntry_iff {P : Nat × Nat → Prop} (searched : Searched u d (some p) v) :
    (creation.LeavesGrowth d b u ∨ ∃ q, creation.LeavesEntry d u q ∧ P q) ↔
      (v.Carries 2 ∧ ¬ v.Carries 5 ∧ 64 * p.2 < (v.skip 2).written ∨
        v.Carries 5 ∧ ¬ v.Carries (5 + creation.after)) ∧ P p := by
  constructor
  · rintro (⟨_, _, v', grows, _⟩ | ⟨q, ⟨v', searched', leaves⟩, holds⟩)
    · cases (searched.unique grows.searched).1
    · obtain ⟨same, rfl⟩ := searched.unique searched'
      obtain rfl := Option.some.inj same
      exact ⟨leaves, holds⟩
  · rintro ⟨leaves, holds⟩
    exact .inr ⟨p, ⟨v, searched, leaves⟩, holds⟩

theorem leavesGrowth_iff {P : Nat × Nat → Prop} (grows : Extends u d x last v) :
    (creation.LeavesGrowth d b u ∨ ∃ q, creation.LeavesEntry d u q ∧ P q) ↔
      ¬ creation.FreesGrowth b last ∧ v.Carries 3 ∧ ¬ v.Carries (8 + creation.after) := by
  constructor
  · rintro (⟨x', last', v', grows', leaves⟩ | ⟨q, ⟨v', searched, _⟩, _⟩)
    · obtain ⟨rfl, _, rfl⟩ := grows.unique grows'
      exact leaves
    · cases (searched.unique grows.searched).1
  · exact fun leaves => .inl ⟨x, last, v, grows, leaves⟩

/-- Nothing changed but the block `b`. -/
structure OnlyIn (k b : Nat) (w t : Fs) : Prop extends Framed w t where
  fat : ∀ i < totalEntries w, t.fat i = w.fat i
  mark : ∀ q : Nat × Nat, k ≤ q.1 → q.1 < 65536 → q.2 < w.entriesPerBlock → q.1 ≠ b → t.mark q = w.mark q

theorem OnlyHost.onlyIn (only : OnlyHost w t) (b : Nat) : OnlyIn k b w t where
  toFramed := only.framed
  fat i _ := only.fat i
  mark q _ _ _ _ := only.mark q

variable (mounted : s.calm.Mounted k)

include mounted

/-- The rest of `k_mkdir` after the entry. -/
theorem mkdir_rest (framed : Framed s w) (low : k ≤ b) (inside : b < totalEntries s) :
    (w.Carries 4 ∧ ∃ t, Creation.finish now d b .mkdir .ok w = some (.ok, t)) ∨
      (¬ w.Carries 4 ∧ ∃ err t, Creation.finish now d b .mkdir .ok w = some (err, t.setFat b fatFree) ∧
        err ≠ .ok ∧ OnlyIn k b w t) := by
  have mounted' := framed.mounted mounted
  have small := totalEntries_le mounted
  have opened : w.fdOpen = true := mounted'.descriptor
  have set : ∀ t, Framed w t → fatSet b fatFree t = some ((), t.setFat b fatFree) := fun t framed' =>
    fatSet_mapped _ (fatMapped_framed mounted (Trans.trans framed framed') inside)
  have start : Creation.finish now d b .mkdir .ok w = (malloc >>= fun room => do
      if !room then
        fatSet b fatFree
        return PennFatErr.outofmem
      if ← writeBlock (newDirBuffer now b d) b then return .ok
      else
        fatSet b fatFree
        return .io : FsM PennFatErr) w := rfl
  rw [start]
  by_cases carried : w.Carries 1
  · have room : malloc w = some (true, w.skip 1) := (hostOk_true_iff).mpr ⟨carried, rfl⟩
    rw [Prog.bind_of_run room, if_neg (by decide)]
    by_cases rest : (w.skip 1).Carries 3
    · obtain ⟨t, run, _⟩ := @writeBlock_carried (w.skip 1) b (newDirBuffer now b d) opened rest
      rw [Prog.bind_of_run run]
      exact .inl ⟨(carries_add).mpr (⟨carried, rest⟩ : w.Carries 1 ∧ _), t, rfl⟩
    · obtain ⟨t, run, torn⟩ := @writeBlock_fails (w.skip 1) b (newDirBuffer now b d) opened rest
      have torn := torn.of_host (skip_onlyHost w 1)
      rw [Prog.bind_of_run run, if_neg (by decide), Prog.bind_of_run (set t torn.toFramed)]
      refine .inr ⟨fun all => rest ((carries_add).mp (show w.Carries (1 + 3) from all)).2, _, t,
        rfl, by decide,
        torn.toFramed, fun i inside' =>
          torn.fat mounted' low (by omega) inside', fun q _ bound inside' apart => ?_⟩
      rw [torn.mark mounted' (by omega) (written_le (w.skip 1)) bound inside', if_neg fun both =>
        apart both.1]
  · obtain ⟨room, t, run⟩ := hostOk_total w
    have run' : malloc w = some (room, t) := run
    cases room with
    | true => exact absurd ((hostOk_true_iff).mp run).1 carried
    | false =>
        have only := hostOk_host w _ t run
        rw [Prog.bind_of_run run', if_pos (by decide), Prog.bind_of_run (set t only.framed)]
        exact .inr ⟨fun all => carried (carries_mono (by decide) all), _, t, rfl, by decide, only.onlyIn b⟩

/-- A failing call gives its own block back. -/
theorem finish_undoes (framed : Framed s w) (low : 2 ≤ b) (other : b ≠ fatEoc) (inside : b < totalEntries s)
    (ends : ∀ target, creation = .symlink target → w.fat b = fatEoc) (bad : err ≠ .ok) :
    creation.finish now d b err w = some (err, w.setFat b fatFree) := by
  have small := totalEntries_le mounted
  have mapped := fatMapped_framed mounted framed inside
  have set := fatSet_mapped fatFree mapped
  have used : ¬ (b = fatEoc ∨ b = fatFree) := by
    simp only [fatFree]
    omega
  cases creation with
  | touch =>
      cases err <;> first | exact absurd rfl bad | exact (Prog.bind_of_run set _).trans rfl
  | mkdir =>
      cases err <;> first | exact absurd rfl bad | exact (Prog.bind_of_run set _).trans rfl
  | symlink target =>
      have freed : freeBlockChain b w = some ((), w.setFat b fatFree) := by
        rw [freeBlockChain, freeLoop, if_neg used, Prog.bind_of_run (fatGet_mapped mapped),
          Prog.bind_of_run set,
          ends target rfl]
        rfl
      cases err <;> first | exact absurd rfl bad | exact (Prog.bind_of_run freed _).trans rfl

/-- What the undone insertion leaves is what the slots say. -/
theorem undone_quiet (prepared : Prepared k s b u) (quiet : Quiet k u w) :
    NothingAdded s (w.setFat b fatFree) := by
  have framed := Trans.trans prepared.toFramed quiet.toFramed
  have mounted' := framed.mounted mounted
  refine nothingAdded_of_quiet mounted (Trans.trans framed (setFat_framed w b fatFree)) ?_ ?_
  · intro i inside
    rw [fat_setFat _ (by decide), quiet.fat i (prepared.totalEntries ▸ inside), prepared.fat i inside]
    split
    · next same => exact same ▸ prepared.free.symm
    · rfl
  · intro q low bound inside used
    have apart : q.1 ≠ b := fun same => used (same ▸ prepared.free)
    rw [mark_setFat mounted' _ (framed.totalEntries ▸ prepared.inside) low bound,
      ← prepared.mark q low bound inside apart]
    exact quiet.mark q low bound (prepared.entriesPerBlock ▸ inside)

theorem undone_marked (prepared : Prepared k s b u) (behind : k ≤ p.1) (spot : Spot u p)
    (marked : Marked k u p e.name0 w)
    (onlyIn : OnlyIn k b w t) : NothingAdded s (t.setFat b fatFree) ↔
      ¬ (e.live = true ∧ p.1 < totalEntries s ∧ s.fat p.1 ≠ fatFree) := by
  have framed := Trans.trans prepared.toFramed marked.toFramed
  have framed' := Trans.trans framed onlyIn.toFramed
  have mounted' := framed'.mounted mounted
  refine nothingAdded_marked mounted (Trans.trans framed' (setFat_framed t b fatFree)) ?_ ⟨behind, ?_⟩ ?_ ?_
  · intro i inside
    rw [fat_setFat _ (by decide), onlyIn.fat i (framed.totalEntries ▸ inside),
      marked.fat i (prepared.totalEntries ▸ inside), prepared.fat i inside]
    split
    · next same => exact same ▸ prepared.free.symm
    · rfl
  · rw [← prepared.entriesPerBlock]
    exact spot.inside
  · intro used
    have apart : p.1 ≠ b := fun same => used (same ▸ prepared.free)
    rw [← prepared.mark p behind spot.small (prepared.entriesPerBlock ▸ spot.inside) apart]
    exact spot.free
  · intro q low bound inside used
    have apart : q.1 ≠ b := fun same => used (same ▸ prepared.free)
    rw [mark_setFat mounted' _ (framed'.totalEntries ▸ prepared.inside) low bound,
      onlyIn.mark q low bound (framed.entriesPerBlock ▸ inside) apart,
      marked.mark q low bound (prepared.entriesPerBlock ▸ inside), prepared.mark q low bound inside apart]

/-- The block a directory grew by was free, and is another than the call's own one. -/
theorem Prepared.grown_free (prepared : Prepared k s b u) (grows : Extends u d x last v) :
    x ≠ b ∧ 2 ≤ x ∧ x < totalEntries s ∧ s.fat x = fatFree ∧ u.fat x = fatFree := by
  have only := grows.searched.only
  have mounted' := only.framed.mounted (prepared.mounted mounted)
  obtain ⟨low, high, free⟩ := firstFree_taken mounted' grows.free
  rw [only.framed.totalEntries, prepared.totalEntries] at high
  rw [only.fat] at free
  have here := prepared.fat x high
  have apart : x ≠ b := by
    intro same
    rw [if_pos same, free] at here
    cases here
  rw [if_neg apart, free] at here
  exact ⟨apart, low, high, here.symm, free⟩

/-- A grown directory that stays grown. -/
theorem undone_grown (prepared : Prepared k s b u) (grows : Extends u d x last v) (grown : Grown k u x last w)
    (onlyIn : OnlyIn k b w t) : ¬ NothingAdded s (t.setFat b fatFree) := by
  obtain ⟨apart, low, high, free, _⟩ := prepared.grown_free mounted grows
  have framed := Trans.trans prepared.toFramed grown.toFramed
  refine not_nothingAdded high free ?_
  rw [fat_setFat _ (by decide), if_neg apart, onlyIn.fat x (framed.totalEntries ▸ high),
    grown.fat x (prepared.totalEntries ▸ high)]
  split
  · simp only [fatFree]
    omega
  · rw [if_pos rfl]
    decide

/-- `free_block_chain` of the new block takes what hangs on it along. -/
theorem undone_both (prepared : Prepared k s b u) (other : x ≠ fatEoc) (grows : Extends u d x b v)
    (grown : Grown k u x b w) :
    freeBlockChain b w = some ((), (w.setFat b fatFree).setFat x fatFree) ∧
      NothingAdded s ((w.setFat b fatFree).setFat x fatFree) := by
  obtain ⟨apart, low, high, free, _⟩ := prepared.grown_free mounted grows
  have framed := Trans.trans prepared.toFramed grown.toFramed
  have mounted' := framed.mounted mounted
  have mapped := fatMapped_framed mounted framed prepared.inside
  have mapped' : (w.setFat b fatFree).fatMapped x = true :=
    fatMapped_framed mounted (Trans.trans framed (setFat_framed w b fatFree)) high
  have inside := prepared.inside
  have low' := prepared.low
  have used : ∀ y, 2 ≤ y → y ≠ fatEoc → ¬ (y = fatEoc ∨ y = fatFree) := by
    intro y positive proper
    simp only [fatFree]
    omega
  have next : w.fat b = x := by rw [grown.fat b (prepared.totalEntries ▸ inside), if_pos rfl]
  have ends : (w.setFat b fatFree).fat x = fatEoc := by
    rw [fat_setFat _ (by decide), if_neg apart, grown.fat x (prepared.totalEntries ▸ high),
      if_neg apart, if_pos rfl]
  have framed' : Framed s ((w.setFat b fatFree).setFat x fatFree) := Trans.trans framed (⟨rfl⟩ : Framed w _)
  refine ⟨?_, nothingAdded_of_quiet mounted framed' ?_ ?_⟩
  · rw [freeBlockChain, freeLoop, if_neg (used b low' prepared.behind.2), Prog.bind_of_run
      (fatGet_mapped mapped),
      Prog.bind_of_run (fatSet_mapped _ mapped), next, chainFuel, freeLoop, if_neg (used x low other),
      Prog.bind_of_run (fatGet_mapped mapped'), Prog.bind_of_run (fatSet_mapped _ mapped'), ends]
    rfl
  · intro i below
    rw [fat_setFat _ (by decide), fat_setFat _ (by decide), grown.fat i (prepared.totalEntries ▸ below),
      prepared.fat i below]
    by_cases first : i = x
    · rw [if_pos first, first, free]
    · rw [if_neg first, if_neg first]
      split
      · next same => exact same ▸ prepared.free.symm
      · rfl
  · intro q low'' bound below inUse
    left
    have away : q.1 ≠ b := fun same => inUse (same ▸ prepared.free)
    have away' : q.1 ≠ x := fun same => inUse (same ▸ free)
    have mounted'' := (setFat_framed w b fatFree).mounted mounted'
    rw [mark_setFat mounted'' _ (framed.totalEntries ▸ high) low'' bound,
      mark_setFat mounted' _ (framed.totalEntries ▸ inside) low'' bound,
      grown.mark q low'' bound (prepared.entriesPerBlock ▸ below) away',
      prepared.mark q low'' bound below away]

/-- Only `k_mkdir` can fail after the insertion. -/
theorem finish_inserted (framed : Framed s w) (low : k ≤ b) (inside : b < totalEntries s)
    (run : creation.finish now d b .ok w = some (err, t)) (bad : err ≠ .ok) :
    creation.after = 4 ∧ ¬ w.Carries 4 ∧ ∃ x, t = x.setFat b fatFree ∧ OnlyIn k b w x := by
  cases creation with
  | touch =>
      cases run
      exact absurd rfl bad
  | mkdir =>
      rcases @mkdir_rest _ _ _ d _ now mounted framed low inside with ⟨_, t', ends⟩
        | ⟨stops, err', t', ends, _, onlyIn⟩
      · cases run.symm.trans ends
        exact absurd rfl bad
      · cases run.symm.trans ends
        exact ⟨rfl, stops, t', rfl, onlyIn⟩
  | symlink target =>
      cases run
      exact absurd rfl bad

omit mounted in
theorem carries_later {k l : Nat} (host : w.host = v.host.drop k) (carried : v.Carries k) :
    w.Carries l ↔ v.Carries (k + l) := by
  have same : w.Carries l ↔ (v.skip k).Carries l := by
    rw [Carries, Carries, host]
    rfl
  rw [same, carries_add]
  exact ⟨fun rest => ⟨carried, rest⟩, And.right⟩

theorem finish_stops (framed : Framed s w) (low : k ≤ b) (inside : b < totalEntries s)
    (later : creation.after ≠ 0) (stops : ¬ w.Carries creation.after) :
    ∃ err t, creation.finish now d b .ok w = some (err, t) ∧ err ≠ .ok := by
  cases creation with
  | touch => exact absurd rfl later
  | mkdir =>
      rcases @mkdir_rest _ _ _ d _ now mounted framed low inside with ⟨all, _⟩ | ⟨_, err, t, ends, bad, _⟩
      · exact absurd all stops
      · exact ⟨err, _, ends, bad⟩
  | symlink target => exact absurd rfl later

/-- What a failing call leaves behind once it has come to the insertion. -/
theorem Creation.Comes.ends (behind : creation.Behind s now path k) (cwd : s.gCwdBlock < 65536)
    (comes : creation.Comes s now path d b u)
    (run : (addDirentToDir d (creation.entry now path b) >>= creation.finish now d b) u = some (err, t))
    (bad : err ≠ .ok) : NothingAdded s t ↔ ¬ (creation.LeavesGrowth d b u ∨
      ∃ p, creation.LeavesEntry d u p ∧ (creation.entry now path b).live = true ∧
        p.1 < totalEntries s ∧ s.fat p.1 ≠ fatFree) := by
  have prepared := comes.prepared mounted behind
  have mounted' := prepared.mounted mounted
  have low := prepared.low
  have inside := prepared.inside
  have taken : u.fat b = fatEoc := by rw [prepared.fat b inside, if_pos rfl]
  obtain ⟨err', w, adding, run⟩ := Prog.bind_inv run
  obtain ⟨_, takes, _⟩ := id comes
  have small := takes.small cwd
  have proper := takes.proper
  have opened : u.fdOpen = true := mounted'.descriptor
  have same : OnlyHost w w := Std.Refl.refl w
  cases addDirentToDir_ends mounted' proper small (fun p v => behind.slot d b u p v comes)
    (fun x last v grows => (behind.grown d b u x last v comes grows).1) adding with
  | refused bad' quiet noEntry noGrowth =>
      have framed := Trans.trans prepared.toFramed quiet.toFramed
      have ends : w.fat b = fatEoc := by rw [quiet.fat b (prepared.totalEntries ▸ inside), taken]
      cases run.symm.trans (finish_undoes mounted framed low prepared.behind.2 inside (fun _ _ => ends) bad')
      refine iff_of_true (undone_quiet mounted prepared quiet) ?_
      rintro (⟨x, last, v, grows, _, cleared, _⟩ | ⟨p, ⟨v, searched, leaves⟩, _⟩)
      · exact noGrowth x last v grows cleared
      · obtain ⟨notWhole, short⟩ := noEntry p v searched
        rcases leaves with ⟨read, _, reached⟩ | ⟨whole, _⟩
        · have less := short read
          omega
        · exact notWhole whole
  | torn searched read stops reached marked =>
      have framed := Trans.trans prepared.toFramed marked.toFramed
      have ends : w.fat b = fatEoc := by rw [marked.fat b (prepared.totalEntries ▸ inside), taken]
      cases run.symm.trans (finish_undoes mounted framed low prepared.behind.2 inside
        (fun _ _ => ends) (by decide))
      rw [leavesEntry_iff searched, and_iff_right (.inl ⟨read, stops, reached⟩)]
      exact undone_marked mounted prepared (behind.slot d b u _ _ comes searched)
        (searched.spot opened small) marked (same.onlyIn b)
  | entered searched whole host marked =>
      have framed := Trans.trans prepared.toFramed marked.toFramed
      obtain ⟨four, stops, y, rfl, onlyIn⟩ := finish_inserted mounted framed prepared.behind.1 inside run bad
      rw [carries_later host whole] at stops
      rw [leavesEntry_iff searched, four, and_iff_right (.inr ⟨whole, stops⟩)]
      exact undone_marked mounted prepared (behind.slot d b u _ _ comes searched)
        (searched.spot opened small) marked onlyIn
  | cut grows cleared stops grown =>
      rename_i x last v
      obtain ⟨apart, _, high, _, _⟩ := prepared.grown_free mounted grows
      have framed := Trans.trans prepared.toFramed grown.toFramed
      rw [leavesGrowth_iff grows]
      by_cases frees : creation.FreesGrowth b last
      · rw [iff_true_right (fun leaves => leaves.1 frees)]
        cases creation with
        | touch => exact frees.elim
        | mkdir => exact frees.elim
        | symlink target =>
            obtain rfl : last = b := frees
            obtain ⟨freed, nothing⟩ :=
              undone_both mounted prepared (behind.grown d last u x last v comes grows).2 grows grown
            have ends : Creation.finish now d last (.symlink target) .io w =
              some (.io, (w.setFat last fatFree).setFat x fatFree) := (Prog.bind_of_run freed _).trans rfl
            cases run.symm.trans ends
            exact nothing
      · have ends : ∀ target, creation = .symlink target → w.fat b = fatEoc := by
          rintro target rfl
          have other : b ≠ last := fun same => frees same.symm
          rw [grown.fat b (prepared.totalEntries ▸ inside), if_neg other, if_neg (Ne.symm apart), taken]
        cases run.symm.trans (finish_undoes mounted framed low prepared.behind.2 inside ends (by decide))
        have later : ¬ v.Carries (8 + creation.after) := fun all => stops (carries_mono (by omega) all)
        exact iff_of_false (undone_grown mounted prepared grows grown (same.onlyIn b))
          (not_not_intro ⟨frees, cleared, later⟩)
  | grown grows whole host grown =>
      have framed := Trans.trans prepared.toFramed grown.toFramed
      obtain ⟨four, stops, y, rfl, onlyIn⟩ := finish_inserted mounted framed prepared.behind.1 inside run bad
      rw [carries_later host whole] at stops
      have kept : ∀ last, ¬ creation.FreesGrowth b last := by
        intro last
        cases creation with
        | touch => exact id
        | mkdir => exact id
        | symlink target => cases four
      rw [leavesGrowth_iff grows, four]
      exact iff_of_false (undone_grown mounted prepared grows grown onlyIn)
        (not_not_intro ⟨kept _, carries_mono (by decide) whole, stops⟩)

/-- Where a call is stopped in its midst, it fails. -/
theorem Creation.Comes.fails (behind : creation.Behind s now path k) (cwd : s.gCwdBlock < 65536)
    (comes : creation.Comes s now path d b u)
    (leaves : creation.LeavesGrowth d b u ∨ ∃ p, creation.LeavesEntry d u p) :
    ∃ err t, (addDirentToDir d (creation.entry now path b) >>= creation.finish now d b) u = some (err, t) ∧
      err ≠ .ok := by
  have prepared := comes.prepared mounted behind
  have mounted' := prepared.mounted mounted
  obtain ⟨_, takes, _⟩ := id comes
  have small := takes.small cwd
  have proper := takes.proper
  have low := prepared.low
  have inside := prepared.inside
  have taken : u.fat b = fatEoc := by rw [prepared.fat b inside, if_pos rfl]
  rcases leaves with ⟨x, last, v, grows, kept, cleared, stops⟩ | ⟨p, v, searched, leaves⟩
  · obtain ⟨err', w, adding, result⟩ :=
      addDirentToDir_extends (e := creation.entry now path b) mounted' proper
        (behind.grown d b u x last v comes grows).1 grows
    rw [Prog.bind_of_run adding]
    cases result with
    | refused _ _ _ noGrowth => exact absurd cleared (noGrowth x last v grows)
    | torn searched => cases (searched.unique grows.searched).1
    | entered searched => cases (searched.unique grows.searched).1
    | cut grows' _ _ grown =>
        obtain ⟨rfl, rfl, rfl⟩ := grows.unique grows'
        obtain ⟨apart, _⟩ := prepared.grown_free mounted grows
        have framed := Trans.trans prepared.toFramed grown.toFramed
        have ends : ∀ target, creation = .symlink target → w.fat b = fatEoc := by
          rintro target rfl
          have other : b ≠ last := fun same => kept same.symm
          rw [grown.fat b (prepared.totalEntries ▸ inside), if_neg other, if_neg (Ne.symm apart), taken]
        exact ⟨_, _, finish_undoes mounted framed low prepared.behind.2 inside ends (by decide), by decide⟩
    | grown grows' whole host grown =>
        obtain ⟨rfl, rfl, rfl⟩ := grows.unique grows'
        have framed := Trans.trans prepared.toFramed grown.toFramed
        rw [← carries_later host whole] at stops
        refine finish_stops mounted framed prepared.behind.1 inside (fun none => stops ?_) stops
        rw [none]
        exact nofun
  · obtain ⟨err', w, adding, result⟩ :=
      addDirentToDir_spot (e := creation.entry now path b) mounted' proper small
        (behind.slot d b u p v comes searched) searched
    rw [Prog.bind_of_run adding]
    cases result with
    | refused _ _ noEntry _ =>
        obtain ⟨notWhole, short⟩ := noEntry p v searched
        rcases leaves with ⟨read, _, reached⟩ | ⟨whole, _⟩
        · have less := short read
          omega
        · exact absurd whole notWhole
    | torn _ _ _ _ marked =>
        have framed := Trans.trans prepared.toFramed marked.toFramed
        have ends : w.fat b = fatEoc := by rw [marked.fat b (prepared.totalEntries ▸ inside), taken]
        exact ⟨_, _, finish_undoes mounted framed low prepared.behind.2 inside (fun _ _ => ends)
          (by decide), by decide⟩
    | entered searched' whole host marked =>
        obtain ⟨_, rfl⟩ := searched.unique searched'
        have framed := Trans.trans prepared.toFramed marked.toFramed
        have stops : ¬ v.Carries (5 + creation.after) :=
          leaves.elim (fun torn => absurd whole torn.2.1) And.right
        rw [← carries_later host whole] at stops
        refine finish_stops mounted framed prepared.behind.1 inside (fun none => stops ?_) stops
        rw [none]
        exact nofun
    | cut grows => cases (searched.unique grows.searched).1
    | grown grows => cases (searched.unique grows.searched).1

end Ending

section Deciding

end Deciding

section Examples

/-- The host fails to write the first block of the new directory, after thirteen calls that it carries out. -/
def unwritten : Fs := { blankVolume with host := List.replicate 13 .done ++ [.failed] }

end Examples

end PennOs.Fat
