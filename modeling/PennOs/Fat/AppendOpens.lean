import PennOs.Fat.OpenAccounting
import PennOs.Fat.ReadOnly

set_option autoImplicit false

/- Where a descriptor opened for appending starts. -/
namespace PennOs.Fat

open Fs

/-- The entry of the system-wide table behind a descriptor. -/
def Fs.openFile (s : Fs) (fd : Int) : SystemFile := s.gSysfileTable (s.gFdTable fd.toNat).sysfileIndex

/-- The descriptor is open on the file of a directory entry: it was opened through the entry's slot, or
it reads the entry's chain. -/
structure Fs.OpenOn (s : Fs) (r : ResolvedPath) (fd : Int) : Prop where
  valid : s.validFd fd = true
  file : (s.openFile fd).dirIndex = pseudoInode r.entryBlock r.entryIndexInBlock ∨
    (s.openFile fd).firstBlock = r.entry.firstBlock

variable {s t u : Fs} {r : ResolvedPath} {mode size : UInt32} {fd index : Nat} {g : Int} {now : UInt64}
  {path : List UInt8}

theorem validFd_iff : s.validFd g = true ↔ ∃ n < maxFd, g = (n : Int) ∧ (s.gFdTable n).inUse = true := by
  simp only [Fs.validFd, Bool.and_eq_true, decide_eq_true_eq]
  constructor
  · rintro ⟨⟨low, high⟩, inUse⟩
    exact ⟨g.toNat, by omega, by omega, inUse⟩
  · rintro ⟨n, bound, rfl, inUse⟩
    exact ⟨⟨by omega, by omega⟩, inUse⟩

theorem OnlyHost.openOn_iff (only : OnlyHost s u) : u.OpenOn r g ↔ s.OpenOn r g := by
  rw [only.same]
  exact ⟨fun on => ⟨on.valid, on.file⟩, fun on => ⟨on.valid, on.file⟩⟩

theorem assignFd_ok (run : assignFd index mode size s = some (.ok fd, t)) :
    fd < maxFd ∧ (s.gFdTable fd).inUse = false ∧
      t = s.setFd fd ⟨true, index, mode, if hasAppend mode then size else 0⟩ := by
  unfold assignFd at run
  rw [Prog.get_bind] at run
  cases found : s.freeFd with
  | none =>
      rw [found] at run
      obtain ⟨_, v, _, rest⟩ := Prog.bind_inv run
      cases rest
  | some free =>
      rw [found] at run
      cases run
      obtain ⟨_, high, unused, _⟩ := Search.firstFrom_some found
      exact ⟨by omega, by simpa using unused, rfl⟩

/-- The table entry the new descriptor shares: that of the slot where there is one. -/
structure Shares (s : Fs) (r : ResolvedPath) (index : Nat) (t : Fs) : Prop where
  low : index < maxSystemFiles
  inode : (t.gSysfileTable index).dirIndex = pseudoInode r.entryBlock r.entryIndexInBlock
  size : ((s.gSysfileTable index).inUse = false ∧ (t.gSysfileTable index).size = r.entry.size) ∨
    ((s.gSysfileTable index).inUse = true ∧ (s.gSysfileTable index).dirIndex =
      pseudoInode r.entryBlock r.entryIndexInBlock ∧
      (t.gSysfileTable index).size = (s.gSysfileTable index).size)
  others : ∀ i, (s.gSysfileTable i).inUse = true →
    (t.gSysfileTable i).dirIndex = (s.gSysfileTable i).dirIndex ∧
      (t.gSysfileTable i).firstBlock = (s.gSysfileTable i).firstBlock ∧
      (t.gSysfileTable i).size = (s.gSysfileTable i).size
  descriptors : t.gFdTable = s.gFdTable

theorem openCurrent_shares (run : openCurrent mode (.ok r) s = some (.ok fd, t)) :
    ∃ index u, Shares s r index u ∧ assignFd index mode r.entry.size u = some (.ok fd, t) := by
  simp only [openCurrent] at run
  cases found : s.findSysfile (pseudoInode r.entryBlock r.entryIndexInBlock) with
  | some i =>
      rw [Prog.bind_of_run (findAndIncrement_some found)] at run
      obtain ⟨_, high, test, _⟩ := Search.firstFrom_some found
      simp only [Bool.and_eq_true, beq_iff_eq] at test
      have here : (s.countUp i).gSysfileTable i =
          { s.gSysfileTable i with refCount := (s.gSysfileTable i).refCount + 1 } := s.setSysfile_self i _
      refine ⟨i, _, ?_, run⟩
      constructor
      · omega
      · rw [here]
        exact test.2
      · rw [here]
        exact .inr ⟨test.1, test.2, rfl⟩
      · intro j _
        by_cases same : j = i
        · subst same
          rw [here]
          exact ⟨rfl, rfl, rfl⟩
        · rw [countUp, s.setSysfile_ne _ same]
          exact ⟨rfl, rfl, rfl⟩
      · rfl
  | none =>
      rw [Prog.bind_of_run (findAndIncrement_none found)] at run
      obtain ⟨made, v, making, run⟩ := Prog.bind_inv run
      unfold createSysfileEntryFromResolved at making
      rw [Prog.get_bind] at making
      cases free : s.freeSysfile with
      | none =>
          rw [free] at making
          cases making
          cases run
      | some i =>
          rw [free] at making
          cases making
          obtain ⟨_, high, unused, _⟩ := Search.firstFrom_some free
          have unused' : (s.gSysfileTable i).inUse = false := by simpa using unused
          refine ⟨i, _, ?_, run⟩
          constructor
          · omega
          · rw [setSysfile_self]
          · rw [setSysfile_self]
            exact .inl ⟨unused', rfl⟩
          · intro j inUse
            have apart : j ≠ i := by
              rintro rfl
              rw [unused'] at inUse
              cases inUse
            rw [s.setSysfile_ne _ apart]
            exact ⟨rfl, rfl, rfl⟩
          · rfl

/-- The state after `k_open`, next to the one before. -/
structure Appended (s : Fs) (r : ResolvedPath) (fd index : Nat) (u t : Fs) : Prop where
  shares : Shares s r index u
  high : fd < maxFd
  unused : (s.gFdTable fd).inUse = false
  tables : t.gSysfileTable = u.gSysfileTable
  inUse : (t.gFdTable fd).inUse = true
  entry : (t.gFdTable fd).sysfileIndex = index
  offset : (t.gFdTable fd).offset = r.entry.size
  elsewhere : ∀ n, n ≠ fd → t.gFdTable n = s.gFdTable n

theorem openCurrent_appended (append : hasAppend mode = true)
    (run : openCurrent mode (.ok r) s = some (.ok fd, t)) : ∃ index u, Appended s r fd index u t := by
  obtain ⟨index, u, shares, assigning⟩ := openCurrent_shares run
  obtain ⟨high, unused, rfl⟩ := assignFd_ok assigning
  rw [shares.descriptors] at unused
  refine ⟨index, u, shares, high, unused, rfl, ?_, ?_, ?_, ?_⟩
  · rw [setFd_self]
  · rw [setFd_self]
  · rw [setFd_self, if_pos append]
  · intro n apart
    rw [setFd_ne _ _ apart, shares.descriptors]

/-- A descriptor that was open before is open on the same file and sees the same size. -/
theorem Appended.kept (appended : Appended s r fd index u t) (accounted : s.Accounted none) {n : Nat}
    (high : n < maxFd) (inUse : (s.gFdTable n).inUse = true) :
    n ≠ fd ∧ (t.OpenOn r n ↔ s.OpenOn r n) ∧ (t.openFile n).size = (s.openFile n).size := by
  have apart : n ≠ fd := by
    rintro rfl
    rw [appended.unused] at inUse
    cases inUse
  have same : t.gFdTable (n : Int).toNat = s.gFdTable (n : Int).toNat := appended.elsewhere n apart
  obtain ⟨inode, first, size⟩ := appended.shares.others _ (accounted.entry_used high inUse)
  have file : t.openFile n = u.gSysfileTable (s.gFdTable n).sysfileIndex := by
    rw [openFile, same, appended.tables]
    rfl
  have valid : t.validFd n = s.validFd n := by
    rw [validFd, validFd, same]
  refine ⟨apart, ⟨fun on => ?_, fun on => ?_⟩, ?_⟩
  · obtain ⟨valid', on⟩ := on
    rw [file, inode, first] at on
    exact ⟨valid ▸ valid', on⟩
  · refine ⟨valid ▸ on.valid, ?_⟩
    rw [file, inode, first]
    exact on.file
  · rw [file, size]
    rfl

/-- The new descriptor is at the end of the file as each descriptor of the file sees it if and only if
each of those there were saw the size that the directory entry holds. -/
theorem openCurrent_appends (accounted : s.Accounted none) (append : hasAppend mode = true)
    (run : openCurrent mode (.ok r) s = some (.ok fd, t)) :
    (∀ g, t.OpenOn r g → (t.gFdTable fd).offset = (t.openFile g).size) ↔
      ∀ g, s.OpenOn r g → (s.openFile g).size = r.entry.size := by
  obtain ⟨index, u, appended⟩ := openCurrent_appended append run
  rw [appended.offset]
  constructor
  · intro ends g on
    obtain ⟨n, high, rfl, inUse⟩ := (validFd_iff).mp on.valid
    obtain ⟨_, same, size⟩ := appended.kept accounted high inUse
    rw [← size]
    exact (ends n (same.mpr on)).symm
  · intro seen g on
    obtain ⟨n, high, rfl, inUse⟩ := (validFd_iff).mp on.valid
    by_cases new : n = fd
    · subst new
      have own : t.openFile n = u.gSysfileTable index := by
        rw [openFile, appended.tables]
        exact congrArg u.gSysfileTable appended.entry
      rw [own]
      obtain ⟨_, size⟩ | ⟨used, inode, size⟩ := appended.shares.size
      · exact size.symm
      have count := accounted.counted index appended.shares.low
      have some_ := (accounted.used index appended.shares.low).mp used
      obtain ⟨m, holds⟩ := Finset.card_pos.mp (by simpa [count] using some_ : 0 < (s.holders index).card)
      obtain ⟨bound, inUse', same⟩ := Finset.mem_filter.mp holds
      have file : s.openFile m = s.gSysfileTable index := congrArg s.gSysfileTable same
      have on' : s.OpenOn r m :=
        ⟨(validFd_iff).mpr ⟨m, Finset.mem_range.mp bound, rfl, inUse'⟩, .inl (by rw [file]; exact inode)⟩
      rw [size, ← file]
      exact (seen m on').symm
    · have old : (s.gFdTable n).inUse = true := appended.elsewhere n new ▸ inUse
      obtain ⟨_, same, size⟩ := appended.kept accounted high old
      rw [size]
      exact (seen n (same.mp on)).symm

/-- `k_open` with K_O_APPEND starts at the end of a file that is there, as each descriptor of the file
sees it, if and only if those open before see the size that the directory entry holds. -/
theorem kOpen_appends (hostFiles : List UInt8 → Option HostFile) (host : List HostOutcome) (s t u : Fs)
    (reached : Run AnyCall (Fs.loaded hostFiles host) s) (now : UInt64) (path : List UInt8)
    (mode : UInt32) (append : hasAppend mode = true) (err : PennFatErr) (r : ResolvedPath)
    (resolving : resolvePath now path s = some ((err, r), u)) (found : r.found = true) (fd : Nat)
    (opening : kOpen now path mode s = some (.ok fd, t)) :
    (∀ g, t.OpenOn r g → (t.gFdTable fd).offset = (t.openFile g).size) ↔
      ∀ g, s.OpenOn r g → (s.openFile g).size = r.entry.size := by
  have accounted : s.Accounted none := run_accounted (zero_accounted rfl rfl) reached
  have only := resolvePath_host path s _ u resolving
  unfold kOpen at opening
  rw [Prog.get_bind] at opening
  split at opening
  · cases opening
  split at opening
  · cases opening
  split at opening
  · cases opening
  rw [Prog.bind_of_run resolving] at opening
  dsimp only at opening
  split at opening
  · cases opening
  rw [openExisting_eq] at opening
  split at opening
  · cases opening
  split at opening
  · cases opening
  rw [openedEntry, if_neg (by simp [append])] at opening
  have accounted' : u.Accounted none := by
    rw [only.same]
    exact accounted.of_refs ⟨fun _ => rfl, fun _ => rfl, fun _ => rfl, fun _ => rfl⟩
  rw [openCurrent_appends accounted' append opening]
  refine forall_congr' fun g => imp_congr only.openOn_iff (Eq.to_iff ?_)
  rw [only.same]
  rfl

/-- "a" is opened for writing, and five bytes are written. -/
def unflushed : List Call :=
  [.mkfs imageA 1 0, .mount imageA, .openFile 7 (.literal [97]) 0x5, .write 8 0 (fun _ => 120) 5]

/-- "a" is closed after the write, and opened for reading. -/
def readAgain : List Call := unflushed ++ [.close 0, .openFile 9 (.literal [97]) 0x2]

/-- "a" is the first entry of the root directory. -/
theorem names_first {s : Fs} (value : (resolvePath 9 [97] s).map (fun x => (x.1.2.found,
      x.1.2.entryBlock, x.1.2.entryIndexInBlock)) = some (true, 1, 0)) :
    ∃ err r u, resolvePath 9 [97] s = some ((err, r), u) ∧ r.found = true ∧
      pseudoInode r.entryBlock r.entryIndexInBlock = 65536 := by
  obtain ⟨⟨⟨err, r⟩, u⟩, run, same⟩ := Option.map_eq_some_iff.mp value
  simp only [Prod.mk.injEq] at same
  obtain ⟨found, block, index⟩ := same
  exact ⟨err, r, u, run, found, by rw [block, index]; rfl⟩

theorem openOn_first {s : Fs} {r : ResolvedPath}
    (inode : pseudoInode r.entryBlock r.entryIndexInBlock = 65536)
    (opened : ((s.gFdTable 0).inUse, (s.gSysfileTable (s.gFdTable 0).sysfileIndex).dirIndex) =
    (true, 65536)) :
    s.OpenOn r 0 :=
  ⟨(validFd_iff).mpr ⟨0, by decide, rfl, (Prod.mk.inj opened).1⟩, .inl (inode ▸ (Prod.mk.inj opened).2)⟩

/-- The path names the first entry, and opening it for appending gives `fd`, beside a descriptor 0 on
the file. -/
def AppendsTo (s : Fs) (fd : Nat) : Prop :=
  (resolvePath 9 [97] s).map (fun x => (x.1.2.found, x.1.2.entryBlock, x.1.2.entryIndexInBlock)) =
      some (true, 1, 0) ∧
    (kOpen 9 [97] 0x8 s).map (fun x => x.1.toOption) = some (some fd) ∧
    ((((kOpen 9 [97] 0x8).after s).gFdTable 0).inUse, (((kOpen 9 [97] 0x8).after s).gSysfileTable
      (((kOpen 9 [97] 0x8).after s).gFdTable 0).sysfileIndex).dirIndex) = (true, 65536)

instance (s : Fs) (fd : Nat) : Decidable (AppendsTo s fd) := inferInstanceAs (Decidable (_ ∧ _))

/-- Descriptor 0 is the only one in use. -/
def LoneDescriptor (s : Fs) : Prop := ∀ n < maxFd, (s.gFdTable n).inUse = true → n = 0

instance (s : Fs) : Decidable (LoneDescriptor s) := inferInstanceAs (Decidable (∀ _ < _, _))

theorem readAgain_appends : (runCalls readAgain Fs.bare).isSome = true ∧
    LoneDescriptor ((runCalls readAgain).after Fs.bare) ∧
    (((runCalls readAgain).after Fs.bare).openFile 0).size = 5 ∧
    (resolvePath 9 [97] ((runCalls readAgain).after Fs.bare)).map (fun x => x.1.2.entry.size) = some 5 ∧
    AppendsTo ((runCalls readAgain).after Fs.bare) 1 := by decide +kernel

/-- The descriptor that reads "a" sees five bytes, as the entry does: appending starts there. -/
theorem kOpen_appends_readAgain : ∃ r t,
    kOpen 9 [97] 0x8 ((runCalls readAgain).after Fs.bare) = some (.ok 1, t) ∧
      ((runCalls readAgain).after Fs.bare).OpenOn r 0 ∧ t.OpenOn r 0 ∧
      ∀ g, t.OpenOn r g → (t.gFdTable 1).offset = (t.openFile g).size := by
  obtain ⟨ends, lone, size, entry, named, opens, isOpen⟩ := readAgain_appends
  have reached : Run AnyCall (.loaded (fun _ => none) []) ((runCalls readAgain).after Fs.bare) :=
    .of_calls (runCalls_after ends) (by simp [readAgain, unflushed, SoundCalls, AnyCall])
  obtain ⟨err, r, u, resolving, found, inode⟩ := names_first named
  have opening := Prog.run_ok opens
  have before : ((runCalls readAgain).after Fs.bare).OpenOn r 0 :=
    openOn_first inode (by decide +kernel)
  refine ⟨r, _, opening, before, openOn_first inode isOpen, ?_⟩
  refine (kOpen_appends _ [] _ _ u reached 9 [97] 0x8 (by decide) err r resolving found 1
    opening).mpr fun g on => ?_
  obtain ⟨n, high, rfl, inUse⟩ := (validFd_iff).mp on.valid
  obtain rfl := lone n high inUse
  rw [resolving] at entry
  exact size.trans (Option.some.inj entry).symm

theorem unflushed_appends : (runCalls unflushed Fs.bare).isSome = true ∧
    (((kOpen 9 [97] 0x8).after ((runCalls unflushed).after Fs.bare)).gFdTable 1).offset ≠
      (((kOpen 9 [97] 0x8).after ((runCalls unflushed).after Fs.bare)).openFile 0).size ∧
    AppendsTo ((runCalls unflushed).after Fs.bare) 1 := by
  decide +kernel

/-- A descriptor opened for appending starts at 0 in a file of five bytes. -/
theorem append_ignores_unflushed :
    ¬ ∀ (hostFiles : List UInt8 → Option HostFile) (host : List HostOutcome) (s t u : Fs),
      Run AnyCall (Fs.loaded hostFiles host) s → ∀ (now : UInt64) (path : List UInt8) (mode : UInt32),
      hasAppend mode = true → ∀ (err : PennFatErr) (r : ResolvedPath),
      resolvePath now path s = some ((err, r), u) → r.found = true →
      ∀ fd : Nat, kOpen now path mode s = some (.ok fd, t) →
        ∀ g, t.OpenOn r g → (t.gFdTable fd).offset = (t.openFile g).size := by
  intro always
  obtain ⟨ends, size, named, opens, isOpen⟩ := unflushed_appends
  have reached : Run AnyCall (.loaded (fun _ => none) []) ((runCalls unflushed).after Fs.bare) :=
    .of_calls (runCalls_after ends) ⟨trivial, trivial, trivial, trivial, trivial⟩
  obtain ⟨err, r, u, resolving, found, inode⟩ := names_first named
  exact size (always _ [] _ _ u reached 9 [97] 0x8 (by decide) err r
    resolving found 1 (Prog.run_ok opens) 0 (openOn_first inode isOpen))

end PennOs.Fat
