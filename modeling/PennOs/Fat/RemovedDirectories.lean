import PennOs.Fat.TreeRuns

set_option autoImplicit false

/- What `k_rmdir` looks at in a directory and what it frees of it. -/
namespace PennOs.Fat

open Image (Promises)
open Fs

/-- An entry other than '.' and '..'. -/
def DirEntry.Proper (e : DirEntry) : Prop := e.live = true ∧ e.cName ≠ dot ∧ e.cName ≠ dotDot

namespace Fs

/-- Some block of the directory `c` holds an entry other than '.' and '..'. -/
def Occupied (s : Fs) (c : Nat) : Prop :=
  ∃ p : Nat × Nat, s.OnChain c p.1 ∧ p.2 < s.entriesPerBlock ∧ (s.dirent p).Proper

/-- The first block of the directory `c` does, in front of all entries without a name. -/
def SeenOccupied (s : Fs) (c : Nat) : Prop :=
  ∃ i < s.entriesPerBlock, (s.dirent (c, i)).Proper ∧ ∀ j < i, (s.dirent (c, j)).name0 ≠ 0

/-- The path is resolved to the result `r`, which is the directory `c`. -/
structure NamesDirectory (s : Fs) (now : UInt64) (path : List UInt8) (r : ResolvedPath) (c : Nat) : Prop where
  run : resolvePath now path s = some ((.ok, r), s)
  found : r.found = true
  names : (r.entry.type = DirEntry.typeDirectory ∧ r.entry.firstBlock.toNat = c) ∨ (path = [slash] ∧ c = 1)

/-- Only the entry in the slot of the result was removed. -/
structure OnlyRemoves (s : Fs) (r : ResolvedPath) (t : Fs) : Prop where
  gone : ∃ i : Nat, r.entryIndexInBlock = i ∧ (t.dirent (r.entryBlock, i)).live = false
  others : ∀ d q, s.Slot d q → ¬ (q.1 = r.entryBlock ∧ (q.2 : Int) = r.entryIndexInBlock) →
    t.dirent q = s.dirent q

end Fs

/-- `k_rmdir` removes an empty directory with all its blocks, and refuses one that is not empty. -/
def RemovesEmpty (s : Fs) (now : UInt64) (path : List UInt8) (r : ResolvedPath) (c : Nat) : Prop :=
  ∃ err t, kRmdir now path s = some (err, t) ∧
    (err = .ok → ¬ s.disk.Occupied c ∧ (∀ b, s.disk.OnChain c b → t.disk.fat b = fatFree) ∧
      s.disk.OnlyRemoves r t.disk) ∧
    (s.disk.Occupied c → err = .notempty ∧ t = s)

/-- An occupied directory shows an entry in its first block, and is not named by "" or "/"; one that
is not occupied has one block, unless the path leads to it without looking up its entry. -/
def OneBlockTells (s : Fs) (path : List UInt8) (r : ResolvedPath) (c : Nat) : Prop :=
  (s.disk.Occupied c → path ≠ [] ∧ path ≠ [slash] ∧ s.disk.SeenOccupied c) ∧
    (¬ s.disk.Occupied c → path = [] ∨ path = [slash] ∨ r.entryIndexInBlock = -1 ∨ s.disk.fat c = fatEoc)

variable {promised : Promises} {s t : Fs} {I : Image} {c d : Nat} {p : Nat × Nat} {now : UInt64}
  {path : List UInt8} {r : ResolvedPath}

section Blocks

theorem onlyDots_false {buf : Buffer} {count index : Nat} : onlyDots buf count index = false ↔
    ∃ i, index ≤ i ∧ i < index + count ∧ (direntAt buf i).Proper ∧
      ∀ j, index ≤ j → j < i → (direntAt buf j).name0 ≠ 0 := by
  induction count generalizing index with
  | zero =>
      refine ⟨nofun, fun ⟨i, low, high, _⟩ => ?_⟩
      omega
  | succ count ih =>
      have later : (direntAt buf index).name0 ≠ 0 → ¬ (direntAt buf index).Proper →
          ((∃ i, index + 1 ≤ i ∧ i < index + 1 + count ∧ (direntAt buf i).Proper ∧
              ∀ j, index + 1 ≤ j → j < i → (direntAt buf j).name0 ≠ 0) ↔
            ∃ i, index ≤ i ∧ i < index + (count + 1) ∧ (direntAt buf i).Proper ∧
              ∀ j, index ≤ j → j < i → (direntAt buf j).name0 ≠ 0) := by
        intro visible improper
        constructor
        · rintro ⟨i, low, high, proper, before⟩
          refine ⟨i, by omega, by omega, proper, fun j from_ upTo => ?_⟩
          by_cases here : j = index
          · rw [here]
            exact visible
          · exact before j (by omega) upTo
        · rintro ⟨i, low, high, proper, before⟩
          have other : i ≠ index := by
            rintro rfl
            exact improper proper
          exact ⟨i, by omega, by omega, proper, fun j from_ upTo => before j (by omega) upTo⟩
      simp only [onlyDots]
      by_cases ends : (direntAt buf index).name0 = 0
      · rw [if_pos ends]
        refine ⟨nofun, fun ⟨i, low, high, proper, before⟩ => ?_⟩
        by_cases here : i = index
        · exact absurd ends (DirEntry.live_iff.mp (here ▸ proper.1)).1
        · exact absurd ends (before index (Nat.le_refl _) (by omega))
      rw [if_neg ends]
      by_cases deleted : (direntAt buf index).name0 = 1 ∨ (direntAt buf index).name0 = 2
      · rw [if_pos deleted, ih]
        refine later ends fun proper => ?_
        have live := DirEntry.live_iff.mp proper.1
        exact deleted.elim live.2.1 live.2.2
      rw [if_neg deleted]
      have live : (direntAt buf index).live = true :=
        DirEntry.live_iff.mpr ⟨ends, fun one => deleted (.inl one), fun two => deleted (.inr two)⟩
      by_cases named : (direntAt buf index).cName ≠ dot ∧ (direntAt buf index).cName ≠ dotDot
      · rw [if_pos named]
        refine ⟨fun _ => ?_, fun _ => rfl⟩
        exact ⟨index, Nat.le_refl _, by omega, ⟨live, named⟩, fun j from_ upTo => by omega⟩
      · rw [if_neg named, ih]
        exact later ends fun proper => named proper.2

variable (resting : Resting promised s I)

include resting

theorem Resting.seenOccupied : onlyDots (s.block c) s.entriesPerBlock 0 = false ↔ s.disk.SeenOccupied c := by
  rw [← resting.disk_block, ← resting.disk_entriesPerBlock, onlyDots_false]
  constructor
  · rintro ⟨i, _, high, proper, before⟩
    exact ⟨i, by omega, proper, fun j less => before j (Nat.zero_le j) less⟩
  · rintro ⟨i, inside, proper, before⟩
    exact ⟨i, Nat.zero_le i, by omega, proper, fun j _ less => before j less⟩

end Blocks

/-- What is seen in the first block is there. -/
theorem Fs.SeenOccupied.occupied (seen : s.SeenOccupied c) : s.Occupied c := by
  obtain ⟨i, inside, proper, _⟩ := seen
  exact ⟨(c, i), .start, inside, proper⟩

section Removing

variable (resting : Resting promised s I)

include resting

/-- A directory that is named is one. -/
theorem Resting.named_dir (names : s.NamesDirectory now path r c) : I.dirs c := by
  have wf := resting.good.wf
  rcases names.names with ⟨type, first⟩ | ⟨_, rfl⟩
  · obtain ⟨err, r', run, resolved⟩ := resolvePath_run resting.tracks wf resting.cwd now path
    cases names.run.symm.trans run
    cases resolved with
    | slash => exact absurd type (by decide)
    | missing err d here kind => cases names.found
    | nothing err => cases names.found
    | dir name d parent mtime here above at_ =>
        obtain ⟨low, high⟩ := wf.dir_inside here
        have bounds := resting.tracks.blocks_bounds
        have same : (UInt16.ofNat d).toNat = d := by
          rw [UInt16.toNat_ofNat', Nat.mod_eq_of_lt (by omega)]
        rw [← first]
        exact same.symm ▸ here
    | entry d p place live named before =>
        exact (wf.target d p c ⟨place, live, named, first⟩).2.mp type
  · exact wf.root

/-- What `k_rmdir` does with a directory that is not named by "" or "/". -/
theorem Resting.rmdir_run (names : s.NamesDirectory now path r c) (proper : path ≠ [] ∧ path ≠ [slash]) :
    Prog.Ensures (kRmdir now path) s fun err t =>
      (s.disk.SeenOccupied c ∧ err = .notempty ∧ t = s) ∨
      (¬ s.disk.SeenOccupied c ∧ r.entryIndexInBlock = -1 ∧ err = .invad ∧ t = s) ∨
      (¬ s.disk.SeenOccupied c ∧ ∃ d p, r = I.foundAt d p ∧ I.Holds d p c ∧ err = .ok ∧
        t = (s.putDirent p .deleted).setFat c fatFree) := by
  have wf := resting.good.wf
  obtain ⟨type, first⟩ := names.names.resolve_right fun both => proper.2 both.1
  have isDir := resting.named_dir names
  obtain ⟨lowC, highC⟩ := wf.dir_inside isDir
  have seen := resting.seenOccupied (c := c)
  obtain ⟨err, r', run, resolved⟩ := resolvePath_run resting.tracks wf resting.cwd now path
  cases names.run.symm.trans run
  unfold kRmdir
  have mounted : ¬ (!s.gMounted) = true := by
    rw [resting.tracks.ready.flag]
    exact Bool.false_ne_true
  refine .get (.ite (fun no => absurd no mounted) fun _ => ?_)
  refine .ite (fun either => absurd either (not_or.mpr proper)) fun _ => ?_
  refine .step run (.ite (fun no => absurd rfl no) fun _ => .ite (fun missing => ?_) fun _ => ?_)
  · rw [names.found] at missing
    cases missing
  refine .ite (fun no => absurd type no) fun _ => ?_
  refine .step (malloc_run resting.tracks.ready.host) (.ite nofun fun _ => ?_)
  rw [first]
  refine .step (readBlock_run resting.tracks.ready (resting.tracks.inside highC)) ?_
  refine .ite (fun shows => .pure (.inl ⟨seen.mp (by simpa using shows), rfl, rfl⟩)) fun empty => ?_
  have unseen : ¬ s.disk.SeenOccupied c := by
    rw [← seen]
    simpa using empty
  cases resolved with
  | slash => exact absurd type (by decide)
  | missing err d here kind => cases names.found
  | nothing err => cases names.found
  | dir name d parent mtime here above at_ =>
      obtain ⟨low, high⟩ := wf.dir_inside here
      exact .step (writeDirent_negative resting.tracks low high .deleted)
        (.pure (.inr (.inl ⟨unseen, rfl, rfl, rfl⟩)))
  | entry d p place live named before =>
      obtain ⟨low, high, _⟩ := wf.inside d p.1 place.block
      have written := resting.tracks.putDirent low high .deleted
      refine .step (writeDirent_run resting.tracks low high place.index .deleted) ?_
      refine .step (fatSet_ready written.ready _ (written.inside highC)) ?_
      exact .pure (.inr (.inr ⟨unseen, d, p, rfl, ⟨place, live, named, first⟩, rfl, rfl⟩))

/-- The volume once a directory was removed. -/
theorem Resting.removed_shows (link : I.Holds d p c) (isDir : I.dirs c) :
    Shows ((s.putDirent p .deleted).setFat c fatFree).disk
      { I.setSlot p .deleted with fat := Function.update I.fat c fatFree } := by
  have wf := resting.good.wf
  obtain ⟨lowC, highC⟩ := wf.dir_inside isDir
  obtain ⟨low, high, _⟩ := wf.inside d p.1 link.block
  exact ((resting.tracks.putDirent low high .deleted).setFat (v := fatFree) lowC highC (by decide)).disk

/-- All blocks of a directory are free exactly if it had no other than its first. -/
theorem Resting.freed_iff (link : I.Holds d p c) (isDir : I.dirs c) :
    (∀ b, s.disk.OnChain c b → ((s.putDirent p .deleted).setFat c fatFree).disk.fat b = fatFree) ↔
      s.disk.fat c = fatEoc := by
  have wf := resting.good.wf
  have shows := resting.disk
  have after := resting.removed_shows link isDir
  have used := wf.dirHead c isDir
  have fatOf : ∀ b ∈ I.chain c, ((s.putDirent p .deleted).setFat c fatFree).disk.fat b =
      Function.update I.fat c fatFree b := fun b member => after.fat b (wf.inside c b member).2.1
  constructor
  · intro freed
    have head := wf.head_mem used
    rw [shows.fat c (wf.inside c c head).2.1]
    have links := wf.links used
    cases shape : I.chain c with
    | nil => exact absurd shape used
    | cons x rest =>
        rw [shape] at links
        obtain rfl : c = x := Option.some.inj links.1
        cases rest with
        | nil => exact (linkOf_eq_none).mp links.2
        | cons y rest =>
            have member : y ∈ I.chain c := shape ▸ List.mem_cons_of_mem c List.mem_cons_self
            have apart : y ≠ c := by
              rintro rfl
              exact (List.nodup_cons.mp links.nodup).1 List.mem_cons_self
            have free := freed y ((shows.onChain_iff wf used).mpr member)
            rw [fatOf y member, Function.update_of_ne apart] at free
            exact absurd free (wf.inside c y member).2.2
  · intro ends b on
    rw [on.single ends]
    have head := wf.head_mem used
    rw [fatOf c head, Function.update_self]

theorem Resting.onlyRemoves (link : I.Holds d p c) (isDir : I.dirs c) :
    s.disk.OnlyRemoves (I.foundAt d p) ((s.putDirent p .deleted).setFat c fatFree).disk := by
  have wf := resting.good.wf
  have after := resting.removed_shows link isDir
  obtain ⟨low, high, _⟩ := wf.inside d p.1 link.block
  refine ⟨⟨p.2, rfl, ?_⟩, fun d' q slot other => ?_⟩
  · have row := after.slot p.1 low high p.2 link.index
    have here : ((s.putDirent p .deleted).setFat c fatFree).disk.dirent (p.1, p.2) =
        (I.setSlot p .deleted).slot p.1 p.2 := row
    show (((s.putDirent p .deleted).setFat c fatFree).disk.dirent (p.1, p.2)).live = false
    rw [here, I.setSlot_self]
    exact DirEntry.deleted_live
  · have place := resting.disk.at_ wf slot
    obtain ⟨lowQ, highQ, _⟩ := wf.inside d' q.1 place.block
    have apart : q ≠ p := by
      rintro rfl
      exact other ⟨rfl, rfl⟩
    have row : ((s.putDirent p .deleted).setFat c fatFree).disk.dirent q =
      (I.setSlot p .deleted).slot q.1 q.2 :=
      after.slot q.1 lowQ highQ q.2 place.index
    rw [row, I.setSlot_ne .deleted apart]
    exact (resting.disk.row wf slot).symm

/-- `k_rmdir` removes exactly empty directories, with all their blocks, if the first block tells. -/
theorem Resting.rmdir_removes (names : s.NamesDirectory now path r c) :
    RemovesEmpty s now path r c ↔ OneBlockTells s path r c := by
  have isDir := resting.named_dir names
  have flag := resting.tracks.ready.flag
  by_cases refused : path = [] ∨ path = [slash]
  · have run : kRmdir now path s = some (.invad, s) := by
      rw [kRmdir, Prog.get_bind, flag, if_neg (by decide), if_pos refused]
      rfl
    constructor
    · rintro ⟨err, t, run', _, occupied⟩
      cases run.symm.trans run'
      refine ⟨fun full => absurd (occupied full).1 (by rintro ⟨⟩), fun _ => ?_⟩
      exact refused.imp id .inl
    · rintro ⟨full, _⟩
      refine ⟨.invad, s, run, (by rintro ⟨⟩), fun occupied => ?_⟩
      obtain ⟨notEmpty, notSlash, _⟩ := full occupied
      exact absurd refused (not_or.mpr ⟨notEmpty, notSlash⟩)
  have proper := not_or.mp refused
  obtain ⟨err, t, run, done⟩ := resting.rmdir_run names proper
  have only : RemovesEmpty s now path r c ↔
      (err = .ok → ¬ s.disk.Occupied c ∧ (∀ b, s.disk.OnChain c b → t.disk.fat b = fatFree) ∧
        s.disk.OnlyRemoves r t.disk) ∧ (s.disk.Occupied c → err = .notempty ∧ t = s) := by
    constructor
    · rintro ⟨err', t', run', sound⟩
      cases run.symm.trans run'
      exact sound
    · exact fun sound => ⟨err, t, run, sound⟩
  rw [only, OneBlockTells]
  rcases done with ⟨seen, rfl, rfl⟩ | ⟨unseen, noSlot, rfl, rfl⟩ | ⟨unseen, d, p, rfl, link, rfl, rfl⟩
  · refine ⟨fun _ => ?_, fun _ => ⟨(by rintro ⟨⟩), fun _ => ⟨rfl, rfl⟩⟩⟩
    exact ⟨fun _ => ⟨proper.1, proper.2, seen⟩, fun vacant => absurd seen.occupied vacant⟩
  · constructor
    · rintro ⟨_, occupied⟩
      exact ⟨fun full => absurd (occupied full).1 (by rintro ⟨⟩), fun _ => .inr (.inr (.inl noSlot))⟩
    · rintro ⟨full, _⟩
      exact ⟨(by rintro ⟨⟩), fun occupied => absurd (full occupied).2.2 unseen⟩
  · constructor
    · rintro ⟨ok, occupied⟩
      obtain ⟨vacant, freed, _⟩ := ok rfl
      exact ⟨fun full => absurd full vacant, fun _ =>
        .inr (.inr (.inr ((resting.freed_iff link isDir).mp freed)))⟩
    · rintro ⟨full, empty⟩
      have vacant : ¬ s.disk.Occupied c := fun occupied => unseen (full occupied).2.2
      refine ⟨fun _ => ⟨vacant, ?_, resting.onlyRemoves link isDir⟩, fun occupied => absurd occupied vacant⟩
      refine (resting.freed_iff link isDir).mpr ?_
      rcases empty vacant with none | top | noSlot | single
      · exact absurd none proper.1
      · exact absurd top proper.2
      · have index : (p.2 : Int) = -1 := noSlot
        omega
      · exact single

end Removing

/-- In runs of guarded calls, `k_rmdir` removes exactly empty directories, with all their blocks, if
the first block tells. -/
theorem rmdir_iff (hostFiles : List UInt8 → Option HostFile) (fsName : List UInt8) (config : Int) (s : Fs)
    (host : HostSound .plain hostFiles fsName) (low : 0 ≤ config) (high : config ≤ 4)
    (run : Run (Guarded .plain) (freshVolume hostFiles fsName config) s)
    (mounted : s.gMounted = true) (now : UInt64) (path : List UInt8) (r : ResolvedPath) (c : Nat)
    (names : s.NamesDirectory now path r c) :
    RemovesEmpty s now path r c ↔ OneBlockTells s path r c := by
  obtain ⟨standing, _⟩ := guarded_run host low high run
  cases standing with
  | mounted resting => exact resting.rmdir_removes names
  | stored stored => exact absurd mounted (by rw [stored.unmounted]; decide)

section Examples

/-- A path that is resolved to a directory. -/
theorem Resting.namesDirectory (resting : Resting promised s I) (value : (resolvePath now path s).map
      (fun x => (x.1.1, x.1.2.found, x.1.2.entry.type, x.1.2.entry.firstBlock.toNat)) =
        some (.ok, true, DirEntry.typeDirectory, c)) : ∃ r, s.NamesDirectory now path r c := by
  obtain ⟨err, r, run, _⟩ := resolvePath_run resting.tracks resting.good.wf resting.cwd now path
  rw [run] at value
  simp only [Option.map_some, Option.some.injEq, Prod.mk.injEq] at value
  obtain ⟨rfl, found, type, first⟩ := value
  exact ⟨r, run, found, .inl ⟨type, first⟩⟩

theorem createsSound_plain (s : Fs) (resolve : FsM (PennFatErr × ResolvedPath)) (path : CStr) :
    CreatesSound .plain s resolve path :=
  fun _ _ _ _ _ => ⟨False.elim, fun asked => asked.elim False.elim False.elim, False.elim⟩

/-- "d" -/
def directoryName : CStr := .literal [100]

/-- A directory grows to a second block by the files "d/a", "d/b" and "d/c", and those in its first
block are removed. -/
def grownDirectory : List Call :=
  [.mkdir 1 directoryName, .touch 2 (.literal [100, 47, 97]), .touch 3 (.literal [100, 47, 98]),
    .touch 4 (.literal [100, 47, 99]), .unlink 5 (.literal [100, 47, 97]),
    .unlink 6 (.literal [100, 47, 98])]

theorem grownDirectory_ends : (runCalls grownDirectory blankVolume).isSome = true := by decide +kernel

theorem grownDirectory_run :
    Run (Guarded .plain) (freshVolume (fun _ => none) imageA.bytes 0)
      ((runCalls grownDirectory).after blankVolume) :=
  .of_calls (runCalls_after grownDirectory_ends) ⟨fun _ => createsSound_plain _ _ _,
    fun _ => createsSound_plain _ _ _, fun _ => createsSound_plain _ _ _, fun _ => createsSound_plain _ _ _,
    trivial, trivial, trivial⟩

/-- The directory is removed with the file in its second block. -/
theorem grown_directory_removed :
    ¬ ∀ (hostFiles : List UInt8 → Option HostFile) (fsName : List UInt8) (config : Int) (s : Fs),
      HostSound .plain hostFiles fsName → 0 ≤ config → config ≤ 4 →
      Run (Guarded .plain) (freshVolume hostFiles fsName config) s → s.gMounted = true →
      ∀ (now : UInt64) (path : List UInt8) (r : ResolvedPath) (c : Nat), s.NamesDirectory now path r c →
        RemovesEmpty s now path r c := by
  intro always
  obtain ⟨s, isS⟩ : ∃ s, s = (runCalls grownDirectory).after blankVolume := ⟨_, rfl⟩
  have run : Run (Guarded .plain) blankVolume s := isS ▸ grownDirectory_run
  have mounted : s.gMounted = true := isS ▸ (by decide +kernel)
  obtain ⟨I, resting⟩ := mounted_resting run mounted
  obtain ⟨r, names⟩ : ∃ r, s.NamesDirectory 7 directoryName.bytes r 2 :=
    resting.namesDirectory (isS ▸ (by decide +kernel))
  obtain ⟨err, t, removing, ok, _⟩ := always _ imageA.bytes 0 s (.empty (by decide)) (by decide)
    (by decide) run mounted 7 _ r 2 names
  have result : (kRmdir 7 directoryName.bytes s).map Prod.fst = some .ok := isS ▸ (by decide +kernel)
  rw [removing] at result
  refine (ok (Option.some.inj result)).1 ⟨(s.disk.fat 2, 0), ?_, ?_, ?_⟩
  · exact .next .start (isS ▸ (by decide +kernel)) (isS ▸ (by decide +kernel))
  · exact isS ▸ (by decide +kernel)
  · unfold DirEntry.Proper
    exact isS ▸ (by decide +kernel)

def oneDirectory : List Call := [.mkdir 1 directoryName]

theorem oneDirectory_ends : (runCalls oneDirectory blankVolume).isSome = true := by decide +kernel

theorem rmdir_oneDirectory :
    ∃ r, RemovesEmpty ((runCalls oneDirectory).after blankVolume) 2 directoryName.bytes r 2 := by
  obtain ⟨s, isS⟩ : ∃ s, s = (runCalls oneDirectory).after blankVolume := ⟨_, rfl⟩
  rw [← isS]
  have run : Run (Guarded .plain) blankVolume s :=
    isS ▸ .of_calls (runCalls_after oneDirectory_ends) ⟨fun _ => createsSound_plain _ _ _, trivial⟩
  have mounted : s.gMounted = true := isS ▸ (by decide +kernel)
  obtain ⟨I, resting⟩ := mounted_resting run mounted
  obtain ⟨r, names⟩ : ∃ r, s.NamesDirectory 2 directoryName.bytes r 2 :=
    resting.namesDirectory (isS ▸ (by decide +kernel))
  have ends : s.disk.fat 2 = fatEoc := isS ▸ (by decide +kernel)
  refine ⟨r, (rmdir_iff _ imageA.bytes 0 s (.empty (by decide)) (by decide)
    (by decide) run mounted 2 _ r 2 names).mpr ⟨?_, ?_⟩⟩
  · rintro ⟨p, on, inside, proper⟩
    have none : ∀ i < s.disk.entriesPerBlock, ¬ ((s.disk.dirent (2, i)).live = true ∧
        (s.disk.dirent (2, i)).cName ≠ dot ∧ (s.disk.dirent (2, i)).cName ≠ dotDot) :=
      isS ▸ (by decide +kernel)
    have same : p = (2, p.2) := Prod.ext (on.single ends) rfl
    exact absurd (same ▸ proper) (none p.2 inside)
  · exact fun _ => .inr (.inr (.inr ends))

end Examples

end PennOs.Fat
