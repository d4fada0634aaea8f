import Mathlib.Data.Finset.Card
import Mathlib.Data.Finset.Range
import PennOs.Fat.TableRuns

set_option autoImplicit false

/- Reference counts of the system-wide table against the descriptors that name its entries. -/
namespace PennOs.Fat

open Prog (Keeps Hoare)
open Fs

namespace Fs

/-- The in-use descriptors that name an entry of the system-wide table. -/
def holders (s : Fs) (index : Nat) : Finset Nat :=
  (Finset.range maxFd).filter fun fd =>
    (s.gFdTable fd).inUse = true ∧ (s.gFdTable fd).sysfileIndex = index

/-- The entries of the system-wide table that are in use. -/
def usedSysfiles (s : Fs) : Finset Nat :=
  (Finset.range maxSystemFiles).filter fun i => (s.gSysfileTable i).inUse = true

/-- Every count is the number of descriptors, with one more on the entry `held` that the
running call has counted for itself. -/
structure Accounted (s : Fs) (held : Option Nat) : Prop where
  named : ∀ fd < maxFd, (s.gFdTable fd).inUse = true → (s.gFdTable fd).sysfileIndex < maxSystemFiles
  counted : ∀ i < maxSystemFiles,
    (s.gSysfileTable i).refCount = (((s.holders i).card + if held = some i then 1 else 0 : Nat) : Int)
  used : ∀ i < maxSystemFiles,
    (s.gSysfileTable i).inUse = true ↔ 0 < (s.gSysfileTable i).refCount

end Fs

/-- Descriptors name the same entries, and the entries have the same counts. -/
structure SameRefs (s t : Fs) : Prop where
  open_ : ∀ fd, (t.gFdTable fd).inUse = (s.gFdTable fd).inUse
  names : ∀ fd, (t.gFdTable fd).sysfileIndex = (s.gFdTable fd).sysfileIndex
  used : ∀ i, (t.gSysfileTable i).inUse = (s.gSysfileTable i).inUse
  count : ∀ i, (t.gSysfileTable i).refCount = (s.gSysfileTable i).refCount

variable {s t u : Fs} {held : Option Nat} {fd i index : Nat}

section Relations

instance : Std.Refl SameRefs := ⟨fun _ => ⟨fun _ => rfl, fun _ => rfl, fun _ => rfl, fun _ => rfl⟩⟩

instance : IsTrans Fs SameRefs :=
  ⟨fun _ _ _ first second =>
    ⟨fun fd => (second.open_ fd).trans (first.open_ fd),
      fun fd => (second.names fd).trans (first.names fd),
      fun i => (second.used i).trans (first.used i), fun i => (second.count i).trans (first.count i)⟩⟩

theorem SameTables.refs (same : SameTables s t) : SameRefs s t :=
  ⟨fun fd => by rw [same.descriptors], fun fd => by rw [same.descriptors],
    fun i => by rw [same.files], fun i => by rw [same.files]⟩

theorem keepsRefs {α : Type} {p : FsM α} (keeps : Keeps SameTables p) : Keeps SameRefs p :=
  fun s a s' run => (keeps s a s' run).refs

theorem SameRefs.holders (same : SameRefs s t) (index : Nat) : t.holders index = s.holders index := by
  unfold Fs.holders
  simp only [same.open_, same.names]

theorem Fs.Accounted.of_refs (accounted : s.Accounted held) (same : SameRefs s t) :
    t.Accounted held where
  named fd low inUse := by
    rw [same.names]
    exact accounted.named fd low (same.open_ fd ▸ inUse)
  counted i low := by
    rw [same.count, same.holders]
    exact accounted.counted i low
  used i low := by
    rw [same.used, same.count]
    exact accounted.used i low

theorem accounted_of_keeps {α : Type} {p : FsM α} (keeps : Keeps SameRefs p) :
    Hoare (fun s => s.Accounted held) p fun _ s => s.Accounted held :=
  .of_keeps keeps fun _ _ _ accounted same => accounted.of_refs same

theorem accounted_pure {α : Type} (a : α) :
    Hoare (fun s : Fs => s.Accounted held) (pure a) fun _ s => s.Accounted held :=
  .pure fun _ accounted => accounted

/-- A program that looks at the state first. -/
theorem accounted_get {α : Type} {f : Fs → FsM α}
    (rest : ∀ s, Hoare (fun t => t.Accounted none) (f s) fun _ t => t.Accounted none) :
    Hoare (fun t => t.Accounted none) (Prog.get >>= f) fun _ t => t.Accounted none :=
  .get fun s => (rest s).mono (fun _ start => start.2) fun _ _ accounted => accounted

theorem accounted_of_tables {α : Type} {p : FsM α} (keeps : Keeps SameTables p) :
    Hoare (fun s => s.Accounted held) p fun _ s => s.Accounted held :=
  accounted_of_keeps (keepsRefs keeps)

end Relations

section Holders

theorem mem_holders : fd ∈ s.holders index ↔
    fd < maxFd ∧ (s.gFdTable fd).inUse = true ∧ (s.gFdTable fd).sysfileIndex = index := by
  rw [holders, Finset.mem_filter, Finset.mem_range]

theorem holders_setSysfile (s : Fs) (i index : Nat) (sf : SystemFile) :
    (s.setSysfile i sf).holders index = s.holders index := rfl

/-- A descriptor that was free gets the entry `index`. -/
theorem holders_setFd_taken (free : (s.gFdTable fd).inUse = false) (low : fd < maxFd)
    {entry : FdEntry} (inUse : entry.inUse = true) :
    (s.setFd fd entry).holders i =
      if entry.sysfileIndex = i then insert fd (s.holders i) else s.holders i := by
  ext x
  by_cases same : x = fd
  · subst same
    by_cases names : entry.sysfileIndex = i
    · simp [mem_holders, setFd, inUse, low, names]
    · simp [mem_holders, setFd, inUse, low, names, free]
  · by_cases names : entry.sysfileIndex = i
    · simp [mem_holders, setFd, same, names]
    · simp [mem_holders, setFd, same, names]

/-- A descriptor is given back. -/
theorem holders_setFd_closed {entry : FdEntry} (closed : entry.inUse = false) :
    (s.setFd fd entry).holders i = (s.holders i).erase fd := by
  ext x
  simp only [mem_holders, setFd, Function.update_apply, Finset.mem_erase]
  by_cases same : x = fd
  · simp [same, closed]
  · simp [same]

theorem holders_nonempty (low : fd < maxFd) (inUse : (s.gFdTable fd).inUse = true) :
    0 < (s.holders (s.gFdTable fd).sysfileIndex).card :=
  Finset.card_pos.mpr ⟨fd, (mem_holders).mpr ⟨low, inUse, rfl⟩⟩

/-- An in-use descriptor names an in-use entry. -/
theorem Fs.Accounted.entry_used (accounted : s.Accounted held) (low : fd < maxFd)
    (inUse : (s.gFdTable fd).inUse = true) :
    (s.gSysfileTable (s.gFdTable fd).sysfileIndex).inUse = true := by
  have inside := accounted.named fd low inUse
  have held := holders_nonempty low inUse
  rw [accounted.used _ inside, accounted.counted _ inside]
  omega

/-- No more entries are in use than there are descriptors. -/
theorem Fs.Accounted.used_card (accounted : s.Accounted none) : s.usedSysfiles.card ≤ maxFd := by
  have covered : s.usedSysfiles ⊆
      (Finset.range maxFd).image fun fd => (s.gFdTable fd).sysfileIndex := by
    intro i member
    obtain ⟨inside, inUse⟩ := Finset.mem_filter.mp member
    have low := Finset.mem_range.mp inside
    rw [accounted.used i low, accounted.counted i low] at inUse
    have some : 0 < (s.holders i).card := by
      simp only [reduceCtorEq, ↓reduceIte] at inUse
      omega
    obtain ⟨fd, holder⟩ := Finset.card_pos.mp some
    obtain ⟨inRange, _, names⟩ := (mem_holders).mp holder
    exact Finset.mem_image.mpr ⟨fd, Finset.mem_range.mpr inRange, names⟩
  have bound := Finset.card_le_card covered
  have images := Finset.card_image_le (s := Finset.range maxFd)
    (f := fun fd => (s.gFdTable fd).sysfileIndex)
  rw [Finset.card_range] at images
  omega

/-- Some entry of the system-wide table is free. -/
theorem Fs.Accounted.freeSysfile (accounted : s.Accounted none) :
    ∃ i, s.freeSysfile = some i := by
  cases found : s.freeSysfile with
  | some i => exact ⟨i, rfl⟩
  | none =>
      exfalso
      have all : s.usedSysfiles = Finset.range maxSystemFiles := by
        apply Finset.filter_true_of_mem
        intro i member
        have low := Finset.mem_range.mp member
        have taken := Search.firstFrom_none.mp found i (Nat.zero_le i) (by omega)
        simpa using taken
      have bound := accounted.used_card
      rw [all, Finset.card_range] at bound
      exact absurd bound (by decide)

end Holders

section Changes

/-- The count of one entry goes up or down with the reference the running call holds. -/
theorem Fs.Accounted.setSysfile {sf : SystemFile} {held' : Option Nat} (accounted : s.Accounted held)
    (count : sf.refCount = (((s.holders i).card + if held' = some i then 1 else 0 : Nat) : Int))
    (inUse : sf.inUse = true ↔ 0 < sf.refCount)
    (others : ∀ j, j ≠ i → (held' = some j ↔ held = some j)) :
    (s.setSysfile i sf).Accounted held' where
  named := accounted.named
  counted j low := by
    rw [holders_setSysfile]
    by_cases same : j = i
    · subst same
      simpa only [Fs.setSysfile, Function.update_self] using count
    · simp only [Fs.setSysfile, Function.update_of_ne same, others j same]
      exact accounted.counted j low
  used j low := by
    by_cases same : j = i
    · subst same
      simpa only [Fs.setSysfile, Function.update_self] using inUse
    · simp only [Fs.setSysfile, Function.update_of_ne same]
      exact accounted.used j low

theorem findSysfile_some {inode : Nat} (found : s.findSysfile inode = some i) :
    i < maxSystemFiles ∧ (s.gSysfileTable i).inUse = true ∧ (s.gSysfileTable i).dirIndex = inode := by
  obtain ⟨_, low, holds, _⟩ := Search.firstFrom_some found
  simp only [Bool.and_eq_true, beq_iff_eq] at holds
  exact ⟨by omega, holds.1, holds.2⟩

theorem findAndIncrement_accounted (inode : Nat) :
    Hoare (fun s => s.Accounted none) (findAndIncrementSysfile inode)
      fun found s => (∀ i, found = some i → i < maxSystemFiles) ∧ s.Accounted found := by
  refine .get fun s => ?_
  cases found : s.findSysfile inode with
  | none =>
      refine .pure ?_
      rintro _ ⟨rfl, accounted⟩
      exact ⟨by simp, accounted⟩
  | some i =>
      obtain ⟨low, inUse, _⟩ := findSysfile_some found
      refine .seq (fun _ t => t.Accounted (some i)) (.modify ?_) fun _ => .pure ?_
      · rintro _ ⟨rfl, accounted⟩
        have count := accounted.counted i low
        have positive := (accounted.used i low).mp inUse
        simp only [reduceCtorEq, ↓reduceIte, Nat.add_zero] at count
        refine accounted.setSysfile ?_ ?_ ?_
        · simp only [count, ↓reduceIte]
          omega
        · simp only [inUse, true_iff]
          omega
        · intro j other
          simp [Ne.symm other]
      · intro t accounted
        exact ⟨fun j same => Option.some.inj same ▸ low, accounted⟩

theorem createSysfileEntry_accounted (resolved : ResolvedPath) (inode : Nat) :
    Hoare (fun s => s.Accounted none) (createSysfileEntryFromResolved resolved inode)
      fun found s => (∀ i, found = some i → i < maxSystemFiles) ∧ s.Accounted found := by
  refine .get fun s => ?_
  cases found : s.freeSysfile with
  | none =>
      refine .pure ?_
      rintro _ ⟨rfl, accounted⟩
      exact ⟨by simp, accounted⟩
  | some i =>
      obtain ⟨_, high, unused, _⟩ := Search.firstFrom_some found
      have low : i < maxSystemFiles := by omega
      refine .seq (fun _ t => t.Accounted (some i)) (.modify ?_) fun _ => .pure ?_
      · rintro _ ⟨rfl, accounted⟩
        have count := accounted.counted i low
        have positive := accounted.used i low
        simp only [Bool.not_eq_true'] at unused
        simp only [unused, Bool.false_eq_true, false_iff] at positive
        simp only [reduceCtorEq, ↓reduceIte, Nat.add_zero] at count
        refine accounted.setSysfile ?_ ?_ ?_
        · simp only [↓reduceIte]
          omega
        · simp
        · intro j other
          simp [Ne.symm other]
      · intro t accounted
        exact ⟨fun j same => Option.some.inj same ▸ low, accounted⟩

theorem SameTables.setSysfile (same : SameTables s t) (i : Nat) (sf : SystemFile) :
    SameTables (s.setSysfile i sf) (t.setSysfile i sf) :=
  ⟨by simp only [Fs.setSysfile, same.files], same.descriptors, same.cwd, same.imageName,
    same.hostFiles⟩

theorem release_accounted (low : i < maxSystemFiles) :
    Hoare (fun s => s.Accounted (some i)) (releaseSysfileEntry i) fun _ s => s.Accounted none := by
  unfold releaseSysfileEntry
  refine .get fun s => ?_
  refine .ite (fun unused => .pure ?_) fun _ => ?_
  · rintro t ⟨rfl, accounted⟩
    -- the reference the call holds keeps the entry in use
    have count := accounted.counted i low
    have inUse := accounted.used i low
    simp only [↓reduceIte] at count
    have live : (t.gSysfileTable i).inUse = true := inUse.mpr (by omega)
    simp only [live, Bool.not_true, Bool.false_eq_true, or_false] at unused
    omega
  by_cases last : (s.gSysfileTable i).refCount - 1 ≤ 0
  · simp only [last, ↓reduceIte]
    refine .seq (fun _ t => (t.setSysfile i .zero).Accounted none) (.modify ?_) fun _ => ?_
    · rintro t ⟨rfl, accounted⟩
      have count := accounted.counted i low
      simp only [↓reduceIte] at count
      have twice : (t.setSysfile i { t.gSysfileTable i with
          refCount := (t.gSysfileTable i).refCount - 1 }).setSysfile i .zero = t.setSysfile i .zero := by
        simp only [Fs.setSysfile, Function.update_idem]
      rw [twice]
      refine accounted.setSysfile ?_ (by simp [SystemFile.zero]) ?_
      · simp only [SystemFile.zero, reduceCtorEq, ↓reduceIte]
        omega
      · intro j other
        simp [Ne.symm other]
    · refine .seq (fun _ t => (t.setSysfile i .zero).Accounted none)
        (.of_keeps (flushSysfile_tables _) ?_) fun _ => .modify fun _ accounted => accounted
      intro t t' _ accounted same
      exact accounted.of_refs (same.setSysfile i .zero).refs
  · simp only [last, ↓reduceIte]
    refine .seq (fun _ t => t.Accounted none) (.modify ?_) fun _ =>
      .pure fun _ accounted => accounted
    rintro t ⟨rfl, accounted⟩
    have count := accounted.counted i low
    have inUse := accounted.used i low
    simp only [↓reduceIte] at count
    refine accounted.setSysfile ?_ ?_ ?_
    · simp only [reduceCtorEq, ↓reduceIte]
      omega
    · simp only [inUse]
      omega
    · intro j other
      simp [Ne.symm other]

theorem assignFd_accounted (low : index < maxSystemFiles) (mode size : UInt32) :
    Hoare (fun s => s.Accounted (some index)) (assignFd index mode size)
      fun _ s => s.Accounted none := by
  unfold assignFd
  refine .get fun s => ?_
  cases found : s.freeFd with
  | none =>
      refine .seq (fun _ t => t.Accounted none) ?_ fun _ => .pure fun _ accounted => accounted
      exact (release_accounted low).mono (fun _ start => start.2) fun _ _ accounted => accounted
  | some fd =>
      obtain ⟨_, high, unused, _⟩ := Search.firstFrom_some found
      simp only [Bool.not_eq_true'] at unused
      have inside : fd < maxFd := by omega
      refine .seq (fun _ t => t.Accounted none) (.modify ?_) fun _ =>
        .pure fun _ accounted => accounted
      rintro t ⟨rfl, accounted⟩
      exact
        { named := fun x small inUse => by
            by_cases same : x = fd
            · subst same
              simpa only [setFd, Function.update_self] using low
            · simp only [setFd, Function.update_of_ne same] at inUse ⊢
              exact accounted.named x small inUse
          counted := fun j small => by
            have count := accounted.counted j small
            rw [holders_setFd_taken unused inside rfl]
            by_cases same : index = j
            · subst same
              have fresh : fd ∉ t.holders index := by simp [mem_holders, unused]
              simp only [↓reduceIte] at count
              simp only [↓reduceIte, Finset.card_insert_of_notMem fresh, reduceCtorEq, Nat.add_zero]
              exact count
            · simp only [Option.some.injEq, same, ↓reduceIte] at count
              simp only [same, ↓reduceIte, reduceCtorEq]
              exact count
          used := accounted.used }

theorem kClose_accounted (fd : Int) :
    Hoare (fun s => s.Accounted none) (kClose fd) fun _ s => s.Accounted none := by
  unfold kClose
  refine .get fun s => .ite (fun _ => .pure fun _ start => start.2) fun _ => ?_
  by_cases valid : s.validFd fd = true
  · simp only [valid, Bool.not_true, Bool.false_eq_true, ↓reduceIte]
    simp only [validFd, Bool.and_eq_true, decide_eq_true_eq] at valid
    obtain ⟨⟨_, high⟩, inUse⟩ := valid
    have inside : fd.toNat < maxFd := by omega
    by_cases accounted : s.Accounted none
    · have low := accounted.named fd.toNat inside inUse
      refine .seq (fun _ t => t.Accounted (some (s.gFdTable fd.toNat).sysfileIndex))
        (.modify ?_) fun _ => ?_
      · rintro t ⟨rfl, _⟩
        exact
          { named := fun x small used => by
              by_cases same : x = fd.toNat
              · simp [same, setFd] at used
              · simp only [setFd, Function.update_of_ne same] at used ⊢
                exact accounted.named x small used
            counted := fun j small => by
              have count := accounted.counted j small
              rw [holders_setFd_closed rfl]
              simp only [reduceCtorEq, ↓reduceIte, Nat.add_zero] at count
              by_cases same : (t.gFdTable fd.toNat).sysfileIndex = j
              · have member : fd.toNat ∈ t.holders j := (mem_holders).mpr ⟨inside, inUse, same⟩
                have some := Finset.card_pos.mpr ⟨_, member⟩
                simp only [same, ↓reduceIte, Finset.card_erase_of_mem member]
                have whole : (t.holders j).card - 1 + 1 = (t.holders j).card := by omega
                rw [whole]
                exact count
              · have absent : fd.toNat ∉ t.holders j := fun member => same ((mem_holders).mp member).2.2
                simp only [Option.some.injEq, same, ↓reduceIte, Finset.erase_eq_of_notMem absent]
                exact count
            used := accounted.used }
      · exact .bind (release_accounted low) fun _ => .pure fun _ accounted => accounted
    · intro t a u start
      exact absurd (start.1 ▸ start.2) accounted
  · rw [Bool.not_eq_true] at valid
    simp only [valid, Bool.not_false, ↓reduceIte]
    exact .pure fun _ start => start.2

end Changes

section Opening

variable {now : UInt64} {path : List UInt8} {mode : UInt32}

/-- The states in which a `k_open` from `s` asks for a free entry of the system-wide table. -/
inductive SeeksEntry (now : UInt64) (path : List UInt8) (mode : UInt32) (s : Fs) : Fs → Prop
  | existing {err : PennFatErr} {resolved current : ResolvedPath} {t u : Fs} :
      resolvePath now path s = some ((err, resolved), t) → resolved.found = true →
      openedEntry now mode resolved t = some (.ok current, u) →
      SeeksEntry now path mode s u
  | created {err err' : PennFatErr} {resolved created : ResolvedPath} {firstBlock : Nat}
      {t u v w : Fs} :
      resolvePath now path s = some ((err, resolved), t) → resolved.found = false →
      allocateFreeBlock t = some (some firstBlock, u) →
      addDirentToDir resolved.parentDirBlock
        (newFileEntry now (getFilenameFromPath path) firstBlock) u = some (.ok, v) →
      resolvePath now path v = some ((err', created), w) → created.found = true →
      SeeksEntry now path mode s w

theorem SeeksEntry.tables (seeks : SeeksEntry now path mode s t) : SameTables s t := by
  cases seeks with
  | existing resolve _ truncate =>
      have first := resolvePath_tables _ _ _ _ resolve
      exact first.trans (openedEntry_tables _ _ _ _ _ truncate)
  | created resolve _ allocate add again _ =>
      have first := resolvePath_tables _ _ _ _ resolve
      have second := allocateFreeBlock_tables _ _ _ allocate
      have third := addDirentToDir_tables _ _ _ _ _ add
      exact ((first.trans second).trans third).trans (resolvePath_tables _ _ _ _ again)

/-- A reference to an entry becomes a descriptor or is given back. -/
theorem assignFound_accounted (found : Option Nat) {size : UInt32} {other : FsM (Except PennFatErr Nat)}
    (rest : Hoare (fun s => s.Accounted none) other fun _ s => s.Accounted none) :
    Hoare (fun s => (∀ i, found = some i → i < maxSystemFiles) ∧ s.Accounted found)
      (match found with
        | some index => assignFd index mode size
        | none => other) fun _ s => s.Accounted none := by
  cases found with
  | none => exact rest.mono (fun _ start => start.2) fun _ _ accounted => accounted
  | some index =>
      intro s a s' start run
      exact assignFd_accounted (start.1 index rfl) mode size s a s' start.2 run

theorem openExisting_accounted (resolved : ResolvedPath) :
    Hoare (fun s => s.Accounted none) (openExisting now mode resolved)
      fun _ s => s.Accounted none := by
  rw [openExisting_eq]
  refine .ite (fun _ => accounted_pure _) fun _ => .ite (fun _ => accounted_pure _) fun _ => ?_
  refine .bind (accounted_of_tables (openedEntry_tables mode resolved)) fun current => ?_
  cases current with
  | error err => exact accounted_pure _
  | ok current =>
      refine .bind (findAndIncrement_accounted _) fun found => ?_
      cases found with
      | some index => exact assignFound_accounted (some index) (accounted_pure (Except.error .io))
      | none =>
          refine (Hoare.bind (createSysfileEntry_accounted current _) fun made => ?_).mono
            (fun _ start => start.2) fun _ _ accounted => accounted
          cases made with
          | some index => exact assignFound_accounted (some index) (accounted_pure (Except.error .io))
          | none => exact (accounted_pure _).mono (fun _ start => start.2) fun _ _ accounted => accounted

theorem openCreate_accounted (resolved : ResolvedPath) :
    Hoare (fun s => s.Accounted none) (openCreate now path mode resolved)
      fun _ s => s.Accounted none := by
  unfold openCreate
  refine .ite (fun _ => accounted_pure _) fun _ => .ite (fun _ => accounted_pure _) fun _ => ?_
  refine .ite (fun _ => accounted_pure _) fun _ => ?_
  refine .bind (accounted_of_tables allocateFreeBlock_tables) fun taken => ?_
  cases taken with
  | none => exact accounted_pure _
  | some firstBlock =>
      refine .bind (accounted_of_tables (addDirentToDir_tables _ _)) fun added => ?_
      split
      · refine .bind (accounted_of_tables (resolvePath_tables _)) fun created => ?_
        refine .ite (fun _ => ?_) fun _ => .ite (fun _ => accounted_pure _) fun _ => accounted_pure _
        refine .bind (createSysfileEntry_accounted created.2 _) fun made => ?_
        cases made with
        | some index => exact assignFound_accounted (some index) (accounted_pure (Except.error .io))
        | none =>
            refine (Hoare.bind (accounted_of_tables (writeDirent_tables _ _ _)) fun _ =>
              .bind (accounted_of_tables (freeBlockChain_tables _)) fun _ => accounted_pure _).mono
              (fun _ start => start.2) fun _ _ accounted => accounted
      · exact .bind (accounted_of_tables (fatSet_tables _ _)) fun _ => accounted_pure _

theorem kOpen_accounted : Hoare (fun s => s.Accounted none) (kOpen now path mode)
    fun _ s => s.Accounted none := by
  unfold kOpen
  refine accounted_get fun s => ?_
  refine .ite (fun _ => accounted_pure _) fun _ => .ite (fun _ => accounted_pure _) fun _ => ?_
  refine .ite (fun _ => accounted_pure _) fun _ => ?_
  refine .bind (accounted_of_tables (resolvePath_tables _)) fun found => ?_
  refine .ite (fun _ => accounted_pure _) fun _ => ?_
  exact .ite (fun _ => openExisting_accounted found.2) fun _ => openCreate_accounted found.2

end Opening

section Transfers

/-- At most offsets of descriptors changed. -/
structure OnlyOffsets (s t : Fs) : Prop where
  image : ∃ table host, t = { s with gFdTable := table, host := host }
  idle : s.host = [] → t.host = []
  descriptors : ∀ x, (t.gFdTable x).inUse = (s.gFdTable x).inUse ∧
    (t.gFdTable x).sysfileIndex = (s.gFdTable x).sysfileIndex ∧ (t.gFdTable x).mode = (s.gFdTable x).mode

theorem OnlyOffsets.refl (s : Fs) : OnlyOffsets s s :=
  ⟨⟨s.gFdTable, s.host, rfl⟩, id, fun _ => ⟨rfl, rfl, rfl⟩⟩

theorem OnlyOffsets.trans (first : OnlyOffsets s t) (second : OnlyOffsets t u) : OnlyOffsets s u where
  image := by
    obtain ⟨_, _, rfl⟩ := first.image
    obtain ⟨table, host, rfl⟩ := second.image
    exact ⟨table, host, rfl⟩
  idle none := second.idle (first.idle none)
  descriptors x := by
    obtain ⟨inUse, key, mode⟩ := second.descriptors x
    obtain ⟨inUse', key', mode'⟩ := first.descriptors x
    exact ⟨inUse.trans inUse', key.trans key', mode.trans mode'⟩

instance : Std.Refl OnlyOffsets := ⟨OnlyOffsets.refl⟩

instance : IsTrans Fs OnlyOffsets := ⟨fun _ _ _ => OnlyOffsets.trans⟩

theorem OnlyOffsets.cwd (only : OnlyOffsets s t) : t.gCwdBlock = s.gCwdBlock := by
  obtain ⟨_, _, rfl⟩ := only.image
  rfl

theorem OnlyOffsets.refs (only : OnlyOffsets s t) : SameRefs s t := by
  obtain ⟨table, host, rfl⟩ := only.image
  exact ⟨fun x => (only.descriptors x).1, fun x => (only.descriptors x).2.1, fun _ => rfl, fun _ => rfl⟩

theorem setOffset_only (s : Fs) (fd : Nat) (offset : UInt32) :
    OnlyOffsets s (s.setFd fd { s.gFdTable fd with offset := offset }) := by
  refine ⟨⟨_, s.host, rfl⟩, id, fun x => ?_⟩
  by_cases here : x = fd
  · simp only [here, Fs.setFd, Function.update_self, and_self]
  · simp only [Fs.setFd, Function.update_of_ne here, and_self]

theorem hostOk_only : Keeps OnlyOffsets hostOk := by
  refine .bind (fun s a s' run => ?_) fun outcome => ?_
  · unfold hostCall at run
    split at run
    · cases run
      exact .refl s
    · next outcome rest host =>
        cases run
        refine ⟨⟨s.gFdTable, rest, rfl⟩, fun none => ?_, fun _ => ⟨rfl, rfl, rfl⟩⟩
        rw [host] at none
        cases none
  · cases outcome <;> exact .pure _

theorem locateLoop_only (count current : Nat) : Keeps OnlyOffsets (locateLoop count current) := by
  induction count generalizing current with
  | zero => exact .pure _
  | succ count ih =>
      unfold locateLoop
      refine .ite (fun _ => .pure _) fun _ => .bind (.of_state fun s a s' run => ?_) ih
      unfold fatGet at run
      split at run
      · cases run
        rfl
      · cases run

theorem locateBlockInChain_only (first offset : Nat) :
    Keeps OnlyOffsets (locateBlockInChain first offset) := by
  unfold locateBlockInChain
  refine .ite (fun _ => .pure _) fun _ => .bind .get fun s => ?_
  refine .bind (locateLoop_only _ first) fun found => ?_
  cases found <;> exact .pure _

theorem readBlock_only (b : Nat) : Keeps OnlyOffsets (readBlock b) := by
  unfold readBlock
  refine .bind .get fun s => .ite (fun _ => .pure _) fun _ => ?_
  refine .bind hostOk_only fun sought => .ite (fun _ => .pure _) fun _ => ?_
  refine .bind hostOk_only fun got => .ite (fun _ => .pure _) fun _ => ?_
  exact .bind .get fun t => .ite (fun _ => .pure _) fun _ => .pure _

/-- Whatever chain a descriptor leads to, reading moves at most its offset. -/
theorem readLoop_only (fd fuel remain : Nat) (acc : List UInt8) :
    Keeps OnlyOffsets (readLoop fd fuel remain acc) := by
  induction fuel generalizing remain acc with
  | zero => exact .pure _
  | succ fuel ih =>
      unfold readLoop
      refine .ite (fun _ => .pure _) fun _ => ?_
      intro s a s' run
      rw [Prog.get_bind] at run
      obtain ⟨target, t, located, run⟩ := Prog.bind_inv run
      have first := locateBlockInChain_only _ _ _ _ _ located
      cases target with
      | none =>
          cases run
          exact first
      | some place =>
          obtain ⟨read, u, got, run⟩ := Prog.bind_inv run
          have second := first.trans (readBlock_only _ _ _ _ got)
          have tables := (locateBlockInChain_tables _ _ _ _ _ located).trans (readBlock_tables _ _ _ _ got)
          cases read with
          | none =>
              cases run
              exact second
          | some buf =>
              simp only [Prog.modify_bind, ← tables.descriptors] at run
              have moved := setOffset_only u fd
                ((u.gFdTable fd).offset + UInt32.ofNat (min (s.gBlockSize - place.2) remain))
              exact (second.trans moved).trans (ih _ _ _ _ _ run)

theorem kRead_only (fd n : Int) : Keeps OnlyOffsets (kRead fd n) := by
  unfold kRead
  refine .bind .get fun s => .ite (fun _ => .pure _) fun _ => .ite (fun _ => .pure _) fun _ => ?_
  refine .ite (fun _ => .pure _) fun _ => .ite (fun _ => .pure _) fun _ => ?_
  refine .bind hostOk_only fun room => .ite (fun _ => .pure _) fun _ => ?_
  exact .bind (readLoop_only _ _ _ _) fun _ => .pure _

theorem kLseek_only (fd offset whence : Int) : Keeps OnlyOffsets (kLseek fd offset whence) := by
  intro s a t run
  unfold kLseek at run
  rw [Prog.get_bind, Prog.ite_run] at run
  split at run
  · cases run
    exact .refl s
  rw [Prog.ite_run] at run
  split at run
  · cases run
    exact .refl s
  dsimp only at run
  generalize (if whence = 0 then some (0 : Int)
    else if whence = 1 then some (wrapInt (s.gFdTable fd.toNat).offset.toNat)
    else if whence = 2 then
      some (wrapInt (s.gSysfileTable (s.gFdTable fd.toNat).sysfileIndex).size.toNat)
    else none) = base at run
  cases base with
  | none =>
      cases run
      exact .refl s
  | some base =>
      simp only [Prog.ite_run] at run
      split at run
      · cases run
        exact .refl s
      · cases run
        exact setOffset_only s fd.toNat _

theorem keepsRefs_only {α : Type} {p : FsM α} (keeps : Keeps OnlyOffsets p) : Keeps SameRefs p :=
  fun s a t run => (keeps s a t run).refs

theorem setSize_refs (s : Fs) (i : Nat) (size : UInt32) (mtime : UInt64) :
    SameRefs s (s.setSysfile i { s.gSysfileTable i with size := size, mtime := mtime }) where
  open_ _ := rfl
  names _ := rfl
  used x := by
    by_cases same : x = i
    · simp [setSysfile, same]
    · simp [setSysfile, same]
  count x := by
    by_cases same : x = i
    · simp [setSysfile, same]
    · simp [setSysfile, same]

theorem advance_refs (s : Fs) (now : UInt64) (fd chunk : Nat) :
    SameRefs s (s.advance now fd chunk) := by
  have moved := (setOffset_only s fd ((s.gFdTable fd).offset + UInt32.ofNat chunk)).refs
  unfold advance
  dsimp only
  split
  · exact IsTrans.trans _ _ _ moved (setSize_refs _ _ _ _)
  · exact moved

theorem extendChain_tables (first : Nat) : Keeps SameTables (extendChain first) := by
  unfold extendChain
  refine .bind (lastInChain_tables _ first) fun last => .bind allocateFreeBlock_tables fun taken => ?_
  cases taken with
  | none => exact .pure _
  | some newBlock => exact .bind (fatSet_tables last newBlock) fun _ => .pure _

theorem blockForWrite_tables (first offset : Nat) : Keeps SameTables (blockForWrite first offset) := by
  unfold blockForWrite
  refine .bind (locateBlockInChain_tables first offset) fun found => ?_
  cases found with
  | some place => exact .pure _
  | none =>
      refine .bind (extendChain_tables first) fun extended => ?_
      cases extended <;> exact .pure _

/-- The loop of `k_write` keeps what the file table's updates keep. -/
theorem writeLoop_preserves {R : Fs → Fs → Prop} [Std.Refl R] [IsTrans Fs R] (now : UInt64) (fd : Nat)
    (buf : Buffer) (tables : ∀ s t, SameTables s t → R s t)
    (advances : ∀ (s : Fs) (chunk : Nat), R s (s.advance now fd chunk)) (fuel total remain : Nat) :
    Keeps R (writeLoop now fd buf fuel total remain) := by
  have lift : ∀ {α : Type} {p : FsM α}, Keeps SameTables p → Keeps R p :=
    fun keeps s a t run => tables s t (keeps s a t run)
  induction fuel generalizing total remain with
  | zero => exact .pure _
  | succ fuel ih =>
      unfold writeLoop
      refine .ite (fun _ => .pure _) fun _ => .bind .get fun s => ?_
      refine .bind (lift (blockForWrite_tables _ _)) fun target => ?_
      cases target with
      | none => exact .pure _
      | some place =>
          refine .bind (lift (readBlock_tables _)) fun read => ?_
          cases read with
          | none => exact .pure _
          | some blockBuf =>
              refine .bind (lift (writeBlock_tables _ _)) fun done => ?_
              refine .ite (fun _ => ?_) fun _ => .pure _
              exact .bind (.modify fun t => advances t _) fun _ => ih _ _

theorem writeLoop_refs (now : UInt64) (fd : Nat) (buf : Buffer) (fuel total remain : Nat) :
    Keeps SameRefs (writeLoop now fd buf fuel total remain) :=
  writeLoop_preserves now fd buf (fun _ _ same => same.refs) (fun t chunk => advance_refs t now fd chunk)
    fuel total remain

theorem kWrite_refs (now : UInt64) (fd : Int) (buf : Buffer) (n : Int) :
    Keeps SameRefs (kWrite now fd buf n) := by
  unfold kWrite
  refine .bind .get fun s => .ite (fun _ => .pure _) fun _ => .ite (fun _ => .pure _) fun _ => ?_
  refine .ite (fun _ => .pure _) fun _ => ?_
  refine .bind (keepsRefs malloc_tables) fun room => .ite (fun _ => .pure _) fun _ => ?_
  exact .bind (writeLoop_refs _ _ _ _ _ _) fun _ => .pure _

end Transfers

section Volumes

theorem zero_accounted (files : s.gSysfileTable = fun _ => .zero)
    (descriptors : s.gFdTable = fun _ => .zero) : s.Accounted none where
  named fd _ inUse := by
    rw [descriptors] at inUse
    cases inUse
  counted i _ := by
    have none : s.holders i = ∅ := by
      ext fd
      simp [mem_holders, descriptors, FdEntry.zero]
    simp [files, none, SystemFile.zero]
  used i _ := by simp [files, SystemFile.zero]

theorem loadRoot_accounted (fd super fatBlocks : Nat) (mapping : Mapping) :
    Hoare (fun s => s.Accounted none) (loadRoot fd super fatBlocks mapping)
      fun _ s => s.Accounted none := by
  have giveUp : ∀ err : PennFatErr, Hoare (fun s : Fs => s.Accounted none)
      (hostMunmap (some mapping) >>= fun _ => hostClose fd >>= fun _ => pure err)
      fun _ s => s.Accounted none := fun err =>
    .bind (accounted_of_tables (hostMunmap_tables _)) fun _ =>
      .bind (accounted_of_tables (hostClose_tables fd)) fun _ => accounted_pure err
  have change : ∀ f : Fs → Fs, (∀ s, SameTables s (f s)) →
      Hoare (fun s : Fs => s.Accounted none) (Prog.modify f) fun _ s => s.Accounted none :=
    fun f same => accounted_of_tables (.modify same)
  unfold loadRoot
  refine accounted_get fun s => ?_
  refine .bind (accounted_of_tables (fatGet_tables 0)) fun entry => .ite (fun _ => giveUp _) fun _ => ?_
  refine .bind (change _ fun _ => ⟨rfl, rfl, rfl, rfl, rfl⟩) fun _ => ?_
  refine .bind (accounted_of_tables mallocRoot_tables) fun made => ?_
  cases made with
  | none => exact .bind (change _ fun _ => ⟨rfl, rfl, rfl, rfl, rfl⟩) fun _ => giveUp _
  | some handle =>
      refine .bind (change _ fun _ => ⟨rfl, rfl, rfl, rfl, rfl⟩) fun _ => ?_
      refine .bind (accounted_of_tables hostOk_tables) fun sought => ?_
      split
      · refine .bind (accounted_of_tables (hostRead_tables _ _)) fun root => ?_
        cases root with
        | none => exact .bind (accounted_of_tables (freeBuffer_tables handle)) fun _ => giveUp _
        | some contents =>
            refine .bind (.modify fun t _ => ?_) fun _ => accounted_pure _
            exact zero_accounted rfl rfl
      · refine .bind (accounted_pure none) fun root => ?_
        cases root with
        | none => exact .bind (accounted_of_tables (freeBuffer_tables handle)) fun _ => giveUp _
        | some contents =>
            refine .bind (.modify fun t _ => ?_) fun _ => accounted_pure _
            exact zero_accounted rfl rfl

/-- The image that is opened leaves the open-file tables alone. -/
theorem hostOpen_refs (create : Bool) (fsName : List UInt8) : Keeps SameRefs (hostOpen create fsName) := by
  unfold hostOpen
  refine .bind (keepsRefs hostOk_tables) fun opened => .ite (fun _ => ?_) fun _ => .pure _
  intro s a s' run
  rw [Prog.get_bind] at run
  split at run
  · cases run
    exact ⟨fun _ => rfl, fun _ => rfl, fun _ => rfl, fun _ => rfl⟩
  · cases run
    exact ⟨fun _ => rfl, fun _ => rfl, fun _ => rfl, fun _ => rfl⟩

theorem kMkfs_refs (fsName : List UInt8) (blocksInFat config : Int) :
    Keeps SameRefs (kMkfs fsName blocksInFat config) := by
  unfold kMkfs
  refine .bind .get fun s => .ite (fun _ => .pure _) fun _ => .ite (fun _ => .pure _) fun _ => ?_
  refine .ite (fun _ => .pure _) fun _ => .bind (hostOpen_refs true fsName) fun opened => ?_
  cases opened with
  | none => exact .pure _
  | some fd =>
      refine .bind (.modify fun _ => ⟨fun _ => rfl, fun _ => rfl, fun _ => rfl, fun _ => rfl⟩) fun _ => ?_
      refine .bind (keepsRefs (formatImage_tables _ _)) fun err => ?_
      exact .bind (keepsRefs (hostClose_tables fd)) fun _ => .pure _

theorem kMount_accounted (fsName : List UInt8) :
    Hoare (fun s => s.Accounted none) (kMount fsName) fun _ s => s.Accounted none := by
  have giveUp : ∀ (fd : Nat) (err : PennFatErr), Hoare (fun s : Fs => s.Accounted none)
      (hostClose fd >>= fun _ => pure err) fun _ s => s.Accounted none := fun fd err =>
    .bind (accounted_of_tables (hostClose_tables fd)) fun _ => accounted_pure err
  have change : ∀ f : Fs → Fs, (∀ s, SameTables s (f s)) →
      Hoare (fun s : Fs => s.Accounted none) (Prog.modify f) fun _ s => s.Accounted none :=
    fun f same => accounted_of_tables (.modify same)
  unfold kMount
  refine accounted_get fun s => ?_
  refine .ite (fun _ => accounted_pure _) fun _ => ?_
  refine .bind (accounted_of_keeps (hostOpen_refs false fsName)) fun opened => ?_
  cases opened with
  | none => exact accounted_pure _
  | some fd =>
      refine .bind (change _ fun _ => ⟨rfl, rfl, rfl, rfl, rfl⟩) fun _ => ?_
      refine .bind (accounted_of_tables (hostRead_tables 0 2)) fun read => ?_
      cases read with
      | none => exact giveUp fd _
      | some super =>
          refine .ite (fun _ => giveUp fd _) fun _ => .ite (fun _ => giveUp fd _) fun _ => ?_
          refine .bind (change _ fun _ => ⟨rfl, rfl, rfl, rfl, rfl⟩) fun _ => ?_
          refine .bind (accounted_of_tables (hostMmap_tables _)) fun mapped => ?_
          cases mapped with
          | none => exact .bind (change _ fun _ => ⟨rfl, rfl, rfl, rfl, rfl⟩) fun _ => giveUp fd _
          | some mapping =>
              refine .bind (change _ fun _ => ⟨rfl, rfl, rfl, rfl, rfl⟩) fun _ => ?_
              exact loadRoot_accounted _ _ _ _

theorem closeAll_accounted (count fd : Nat) :
    Hoare (fun s => s.Accounted none) (closeAll count fd) fun _ s => s.Accounted none := by
  induction count generalizing fd with
  | zero => exact .pure fun _ accounted => accounted
  | succ count ih =>
      unfold closeAll
      refine accounted_get fun s => ?_
      exact .ite (fun _ => .bind (kClose_accounted fd) fun _ => ih (fd + 1)) fun _ => ih (fd + 1)

theorem kUnmount_accounted : Hoare (fun s => s.Accounted none) kUnmount fun _ s => s.Accounted none := by
  unfold kUnmount
  refine accounted_get fun s => ?_
  refine .ite (fun _ => .pure fun _ accounted => accounted) fun _ => ?_
  refine .bind (accounted_of_tables (fatGet_tables 0)) fun _ => ?_
  exact .bind (closeAll_accounted maxFd 0) fun _ => accounted_of_tables (storeRoot_tables _)

end Volumes

section Runs

theorem kChdir_accounted (now : UInt64) (path : List UInt8) :
    Hoare (fun s => s.Accounted none) (kChdir now path) fun _ s => s.Accounted none := by
  have move : ∀ f : Fs → Fs, (∀ s, SameRefs s (f s)) →
      Hoare (fun s : Fs => s.Accounted none) (Prog.modify f >>= fun _ => pure PennFatErr.ok)
        fun _ s => s.Accounted none := fun f same =>
    .bind (accounted_of_keeps (.modify same)) fun _ => accounted_pure _
  unfold kChdir
  refine accounted_get fun s => ?_
  refine .ite (fun _ => accounted_pure _) fun _ => ?_
  refine .bind (accounted_of_tables (resolvePath_tables path)) fun found => ?_
  refine .ite (fun _ => accounted_pure _) fun _ => .ite (fun _ => accounted_pure _) fun _ => ?_
  refine .ite (fun _ => ?_) fun _ => .ite (fun _ => accounted_pure _) fun _ => ?_
  · exact move _ fun _ => ⟨fun _ => rfl, fun _ => rfl, fun _ => rfl, fun _ => rfl⟩
  · exact move _ fun _ => ⟨fun _ => rfl, fun _ => rfl, fun _ => rfl, fun _ => rfl⟩

theorem step_accounted (call : Call) (accounted : s.Accounted none) (step : Step s call t) :
    t.Accounted none := by
  have keeps : ∀ {α : Type} {p : FsM α}, Hoare (fun s => s.Accounted none) p
      (fun _ s => s.Accounted none) → ignore p s = some ((), t) → t.Accounted none := by
    intro α p holds run
    obtain ⟨a, first⟩ := ignore_inv run
    exact holds s a t accounted first
  cases call with
  | mkfs fsName blocksInFat config => exact keeps (accounted_of_keeps (kMkfs_refs _ _ _)) step
  | mount fsName => exact keeps (kMount_accounted _) step
  | unmount => exact keeps kUnmount_accounted step
  | openFile now path mode => exact keeps kOpen_accounted step
  | read fd n => exact keeps (accounted_of_keeps (keepsRefs_only (kRead_only fd n))) step
  | write now fd buf n => exact keeps (accounted_of_keeps (kWrite_refs now fd buf n)) step
  | close fd => exact keeps (kClose_accounted fd) step
  | lseek fd offset whence =>
      exact keeps (accounted_of_keeps (keepsRefs_only (kLseek_only fd offset whence))) step
  | unlink now path => exact keeps (accounted_of_tables (kUnlink_tables _)) step
  | touch now path => exact keeps (accounted_of_tables (kTouch_tables _)) step
  | chmod now path perm => exact keeps (accounted_of_tables (kChmod_tables _ _)) step
  | chdir now path => exact keeps (kChdir_accounted now _) step
  | symlink now target linkpath => exact keeps (accounted_of_tables (kSymlink_tables _ _)) step
  | mkdir now path => exact keeps (accounted_of_tables (kMkdir_tables _)) step
  | rmdir now path => exact keeps (accounted_of_tables (kRmdir_tables _)) step
  | rename now oldpath newpath => exact keeps (accounted_of_tables (kRename_tables _ _)) step

/-- Any call may be made. -/
def AnyCall (_ : Fs) (_ : Call) : Prop := True

theorem run_accounted (accounted : s.Accounted none) (run : Run AnyCall s t) : t.Accounted none :=
  run.keeps accounted fun _ call _ before _ step => step_accounted call before step

/-- Whatever the image holds and whatever the host refuses, reference counts are the numbers of
descriptors, and `k_open` never finds the system-wide table full. -/
theorem openFiles_accounted (hostFiles : List UInt8 → Option HostFile) (host : List HostOutcome) (t : Fs)
    (run : Run AnyCall (Fs.loaded hostFiles host) t) :
    (∀ fd < maxFd, (t.gFdTable fd).inUse = true →
      (t.gFdTable fd).sysfileIndex < maxSystemFiles ∧
        (t.gSysfileTable (t.gFdTable fd).sysfileIndex).inUse = true) ∧
    (∀ i < maxSystemFiles,
      ((t.gSysfileTable i).inUse = true ↔ 0 < (t.gSysfileTable i).refCount) ∧
        (t.gSysfileTable i).refCount = (t.holders i).card) ∧
    t.usedSysfiles.card ≤ maxFd ∧
    ∀ now path mode u, SeeksEntry now path mode t u → ∃ i, u.freeSysfile = some i := by
  have accounted := run_accounted (zero_accounted rfl rfl) run
  refine ⟨?_, ?_, accounted.used_card, ?_⟩
  · intro fd low inUse
    exact ⟨accounted.named fd low inUse, accounted.entry_used low inUse⟩
  · intro i low
    have count := accounted.counted i low
    simp only [reduceCtorEq, ↓reduceIte, Nat.add_zero] at count
    exact ⟨accounted.used i low, count⟩
  · intro now path mode u seeks
    exact (accounted.of_refs seeks.tables.refs).freeSysfile

/-- A file opened twice, with one descriptor closed again. -/
def openedTwice : List Call :=
  [.mkfs imageA 1 0, .mount imageA, .openFile 7 (.literal [97]) 0x5, .openFile 8 (.literal [97]) 0x2,
    .close 0]

theorem openFiles_accounted_openedTwice :
    ((runCalls openedTwice).after Fs.bare).usedSysfiles.card ≤ maxFd := by
  have ends : (runCalls openedTwice Fs.bare).isSome = true := by
    decide +kernel
  have run : Run AnyCall Fs.bare _ :=
    .of_calls (runCalls_after ends) ⟨trivial, trivial, trivial, trivial, trivial, trivial⟩
  exact (openFiles_accounted _ _ _ run).2.2.1

end Runs

end PennOs.Fat
