import PennOs.Fat.CreationSteps

set_option autoImplicit false

/- Whether the calls that make entries put them where their paths say. -/
namespace PennOs.Fat

open LinkedChain (Along)
open PathWalk
open Fs

namespace Fs

variable (s : Fs)

/-- A walk along the path looks the name up in the directory `x`. -/
def Asks (path : List UInt8) (x : Nat) (name : List UInt8) : Prop :=
  ∃ front part rest, partsOf path = front ++ part :: rest ∧ s.goes path front = .dir (some x) ∧
    (stepOf part = .up ∧ x ≠ 1 ∧ name = dotDot ∨ stepOf part = .name name)

/-- The first free slot of the directory. -/
structure FreeSlot (d : Nat) (p : Nat × Nat) : Prop where
  way : ∃ count, Along s.onward s.Full p.1 d count
  free : freeSlot (s.block p.1) s.entriesPerBlock = some p.2

/-- The directory has no free slot, and `last` is its last block. -/
structure Crowded (d last : Nat) : Prop where
  way : ∃ count, Along s.onward s.Full last d count
  full : s.Full last
  ends : s.onward last = none

/-- The path leads to nothing. -/
structure Missing (path : List UInt8) : Prop where
  noDir : ∀ d, s.goes path (partsOf path) ≠ .dir (some d)
  noFile : ∀ p, s.goes path (partsOf path) ≠ .file p

end Fs

/-- The block that the directory grows by. -/
def Maker.Grows (maker : Maker) (s : Fs) (d g : Nat) : Prop :=
  (∃ last, s.Crowded d last) ∧ ∃ b, s.firstFree = some b ∧ (maker.prepared s b).firstFree = some g

/-- The call writes the whole block. -/
def Maker.Rewrites (maker : Maker) (s : Fs) (d y : Nat) : Prop :=
  maker.Fills ∧ s.firstFree = some y ∨ maker.Grows s d y

/-- The call sets the FAT entry. -/
def Maker.Links (maker : Maker) (s : Fs) (d i : Nat) : Prop :=
  s.firstFree = some i ∨ maker.Grows s d i ∨ s.Crowded d i

/-- What a call writes for an entry in the directory `d` is not what a walk along its path reads, but for
the slot of the entry, which hides and discloses no name. -/
structure Spares (s : Fs) (maker : Maker) (path : List UInt8) (d : Nat) : Prop where
  blocks : ∀ x name y, s.Asks path x name → s.Visits x name y →
    ¬ maker.Rewrites s d y ∧ ∀ i, maker.Links s d i → y ≠ s.fatHome i
  entries : ∀ x name y, s.Asks path x name → s.Visits x name y → s.Passed name y →
    ¬ maker.Rewrites s d (s.fatHome y) ∧ ∀ p, s.FreeSlot d p → ¬ s.EntryIn p y
  tail : ∀ last, s.Crowded d last → s.fat last = fatFree → s.firstFree = some last
  slot : ∀ x name p, s.Asks path x name → s.FreeSlot d p → s.Visits x name p.1 → s.Passed name p.1 →
    x = d ∧ name = lastPart path ∨ name ≠ lastPart path ∧
      scanRow (fun i => s.dirent (p.1, i)) name (s.entriesPerBlock - (p.2 + 1)) (p.2 + 1) = none
  number : ∀ g, maker.Grows s d g → g ≠ fatEoc

/-- Every proper prefix of the path named a directory, and names it still, and the path is now resolved to
the entry the call made, in the directory the prefix names, under the last component. -/
structure Placed (maker : Maker) (now : UInt64) (s : Fs) (path : List UInt8) (t : Fs) : Prop where
  prefixes : ∀ k < (partsOf path).length, ∃ d, s.goes path ((partsOf path).take k) = .dir (some d) ∧
    t.goes path ((partsOf path).take k) = .dir (some d)
  entry : ∀ later : UInt64, ∃ r d b, ∃ p : Nat × Nat, resolvePathNoFollow later path t = some ((.ok, r), t) ∧
    r.found = true ∧ s.goes path (partsOf path).dropLast = .dir (some d) ∧ r.parentDirBlock = d ∧
    s.firstFree = some b ∧ r.entry = maker.entry now path b ∧ r.entry.cName = lastPart path ∧
    r.entryBlock = p.1 ∧ r.entryIndexInBlock = (p.2 : Nat)

/-- The components before the last one lead to the directory `d`, and so they do in what fits into a
`PATH_MAX` buffer, which has the same last component; and that is a name that can be seen. -/
structure Reaches (s : Fs) (path : List UInt8) (d : Nat) : Prop where
  leads : s.goes path (partsOf path).dropLast = .dir (some d)
  cut : pathMax ≤ (body path).length → ∃ front, components (body path) = front ++ [lastPart path] ∧
    s.goes path front = .dir (some d)
  visible : ∃ c, (lastPart path).head? = some c ∧ c ≠ 1 ∧ c ≠ 2
  notUp : lastPart path ≠ dotDot

/-- A walk along the path looks the last component up in the directory, past the whole chain. -/
structure Vain (s : Fs) (path : List UInt8) (d : Nat) : Prop where
  proper : ¬ (d = fatEoc ∨ d = fatFree)
  asks : s.Asks path d (lastPart path)
  passed : ∀ y count, Along s.onward (fun _ => True) y d count → s.Passed (lastPart path) y

/-- What a walk along the path reads is as it was, but for the slot `p`. -/
structure Spared (s : Fs) (path : List UInt8) (p : Nat × Nat) (t : Fs) : Prop where
  size : t.gBlockSize = s.gBlockSize
  longer : s.fileSize ≤ t.fileSize
  mapped : ∀ i, t.fatMapped i = s.fatMapped i
  dirents : ∀ x name y j, s.Asks path x name → s.Visits x name y → j < s.entriesPerBlock → (y, j) ≠ p →
    t.dirent (y, j) = s.dirent (y, j)
  onward : ∀ x name y z, s.Asks path x name → s.Visits x name y → s.Passed name y → s.onward y = some z →
    t.onward y = some z

variable {s t u w : Fs} {k b d x y i j g last count : Nat} {p : Nat × Nat} {e : DirEntry} {now : UInt64}
  {path name : List UInt8} {maker : Maker}

section Bounds

theorem visits_small (small : x < 65536) (visits : s.Visits x name y) : y < 65536 := by
  obtain ⟨count, along⟩ := visits
  exact along_small small along

theorem ways_small {parts : List (Component (List UInt8))} {dir : Option Nat} (small : ∀ z ∈ dir, z < 65536)
    (leads : s.ways.walk parts dir = .dir (some y)) : y < 65536 := by
  refine @walk_keeps _ _ _ s.ways dir (some y) parts (fun dir => ∀ z ∈ dir, z < 65536) ?_ ?_ small leads y rfl
  · intro dir below z member
    simp only [ways, Option.mem_def, Option.bind_eq_some_iff] at member
    obtain ⟨v, rfl, member⟩ := member
    split at member
    · cases member
      decide
    · obtain ⟨above, _, rfl⟩ := Option.map_eq_some_iff.mp member
      exact above.entry.firstBlock.toNat_lt
  · intro dir below n dir' found z member
    simp only [ways, Option.bind_eq_some_iff, Option.map_eq_some_iff] at found
    obtain ⟨v, rfl, hit, _, found⟩ := found
    split at found
    · cases found
      cases member
      exact hit.entry.firstBlock.toNat_lt
    · cases found

theorem start_small (cwd : s.gCwdBlock < 65536) (path : List UInt8) : start path s.gCwdBlock < 65536 := by
  rw [start]
  split
  · decide
  · exact cwd

theorem goes_small (cwd : s.gCwdBlock < 65536) {parts : List (List UInt8)}
    (leads : s.goes path parts = .dir (some y)) : y < 65536 := by
  refine ways_small ?_ leads
  rintro z ⟨⟩
  exact start_small cwd path

theorem Fs.Asks.small (cwd : s.gCwdBlock < 65536) (asks : s.Asks path x name) : x < 65536 := by
  obtain ⟨_, _, _, _, leads, _⟩ := asks
  exact goes_small cwd leads

end Bounds

section Writing

theorem prepared_mounted (mounted : s.Mounted k) (maker : Maker) (b : Nat) :
    (maker.prepared s b).Mounted k := by
  cases maker <;> exact mounted.of_eq rfl rfl rfl rfl rfl rfl rfl rfl

theorem finished_mounted (mounted : w.Mounted k) (maker : Maker) (now : UInt64) (d b : Nat) :
    (maker.finished now w d b).Mounted k := by
  cases maker <;> exact mounted.of_eq rfl rfl rfl rfl rfl rfl rfl rfl

@[simp] theorem prepared_gBlockSize (maker : Maker) (s : Fs) (b : Nat) :
    (maker.prepared s b).gBlockSize = s.gBlockSize := by cases maker <;> rfl

@[simp] theorem prepared_entriesPerBlock (maker : Maker) (s : Fs) (b : Nat) :
    (maker.prepared s b).entriesPerBlock = s.entriesPerBlock := by cases maker <;> rfl

@[simp] theorem prepared_gCwdBlock (maker : Maker) (s : Fs) (b : Nat) :
    (maker.prepared s b).gCwdBlock = s.gCwdBlock := by cases maker <;> rfl

@[simp] theorem prepared_fatMapped (maker : Maker) (s : Fs) (b i : Nat) :
    (maker.prepared s b).fatMapped i = s.fatMapped i := by cases maker <;> rfl

theorem prepared_longer (maker : Maker) (s : Fs) (b : Nat) : s.fileSize ≤ (maker.prepared s b).fileSize := by
  cases maker with
  | symlink target => exact Nat.le_max_left _ _
  | touch => exact Nat.le_refl _
  | mkdir => exact Nat.le_refl _
  | openFile mode => exact Nat.le_refl _

@[simp] theorem finished_gBlockSize (maker : Maker) (w : Fs) :
    (maker.finished now w d b).gBlockSize = w.gBlockSize := by
  cases maker <;> rfl

@[simp] theorem finished_gCwdBlock (maker : Maker) (w : Fs) :
    (maker.finished now w d b).gCwdBlock = w.gCwdBlock := by
  cases maker <;> rfl

@[simp] theorem finished_fatMapped (maker : Maker) (w : Fs) (i : Nat) :
    (maker.finished now w d b).fatMapped i = w.fatMapped i := by cases maker <;> rfl

theorem finished_longer (maker : Maker) (w : Fs) : w.fileSize ≤ (maker.finished now w d b).fileSize := by
  cases maker with
  | mkdir => exact Nat.le_max_left _ _
  | touch => exact Nat.le_refl _
  | symlink target => exact Nat.le_refl _
  | openFile mode => exact Nat.le_refl _

/-- The block that is taken ends its chain. -/
theorem prepared_fat_self (mounted : s.Mounted k) (free : s.firstFree = some b) :
    (maker.prepared s b).fat b = fatEoc := by
  obtain ⟨low, small, _⟩ := firstFree_small mounted free
  have sizes := mounted.blockSize_bounds
  have taken : (s.setFat b fatEoc).fat b = fatEoc := by rw [fat_setFat _ (by decide), if_pos rfl]
  cases maker with
  | touch => exact taken
  | mkdir => exact taken
  | openFile mode => exact taken
  | symlink target =>
      have less : 2 * b < s.gBlockSize * b := Nat.mul_lt_mul_of_pos_right (by omega) (by omega)
      have home : (s.setFat b fatEoc).fatHome b ≠ b := Nat.ne_of_lt (Nat.div_lt_of_lt_mul less)
      exact (fat_putBlock_apart (setFat_mounted mounted b fatEoc) _ small home).trans taken

end Writing

section Sparing

variable (mounted : s.Mounted k) (cwd : s.gCwdBlock < 65536) (spares : Spares s maker path d)

include mounted cwd spares

section Read

variable (free : s.firstFree = some b) (asks : s.Asks path x name) (visits : s.Visits x name y)

include free asks visits

/-- Before there is an entry, the blocks that are read are as they were. -/
theorem Spares.prepared_block : (maker.prepared s b).block y = s.block y := by
  have small := visits_small (asks.small cwd) visits
  obtain ⟨apart, away⟩ := spares.blocks x name y asks visits
  obtain ⟨_, small', _⟩ := firstFree_small mounted free
  have taken : (s.setFat b fatEoc).block y = s.block y :=
    block_setFat_apart mounted fatEoc small (away b (.inl free))
  cases maker with
  | touch => exact taken
  | mkdir => exact taken
  | openFile mode => exact taken
  | symlink target =>
      have other : y ≠ b := fun same => apart (.inl ⟨trivial, same ▸ free⟩)
      exact ((setFat_mounted mounted b fatEoc).block_putBlock_ne _ other small' small).trans taken

omit cwd in
theorem Spares.prepared_fat (other : y ≠ b) (passed : s.Passed name y) :
    (maker.prepared s b).fat y = s.fat y := by
  obtain ⟨apart, _⟩ := spares.entries x name y asks visits passed
  obtain ⟨_, small', _⟩ := firstFree_small mounted free
  have taken : (s.setFat b fatEoc).fat y = s.fat y := by
    rw [fat_setFat _ (by decide), if_neg other]
  cases maker with
  | touch => exact taken
  | mkdir => exact taken
  | openFile mode => exact taken
  | symlink target =>
      have home : (s.setFat b fatEoc).fatHome y ≠ b := fun same =>
        apart (.inl ⟨trivial, by rw [← same] at free; exact free⟩)
      exact (fat_putBlock_apart (setFat_mounted mounted b fatEoc) _ small' home).trans taken

omit cwd in
/-- The block that is taken was the end of every chain that it was on. -/
theorem Spares.prepared_onward (passed : s.Passed name y) : (maker.prepared s b).onward y = s.onward y := by
  by_cases same : y = b
  · subst same
    obtain ⟨_, _, unused⟩ := firstFree_small mounted free
    rw [onward_none.mpr (.inl (prepared_fat_self mounted free)), onward_none.mpr (.inr unused)]
  · rw [onward, spares.prepared_fat mounted free asks visits same passed]
    rfl

/-- What is left to do once there is an entry does not change what is read. -/
theorem Spares.finished_block (now : UInt64) (mounted' : w.Mounted k) :
    (maker.finished now w d b).block y = w.block y := by
  have small := visits_small (asks.small cwd) visits
  obtain ⟨apart, _⟩ := spares.blocks x name y asks visits
  obtain ⟨_, small', _⟩ := firstFree_small mounted free
  cases maker with
  | touch => rfl
  | symlink target => rfl
  | openFile mode => rfl
  | mkdir =>
      have other : y ≠ b := fun same => apart (.inl ⟨trivial, same ▸ free⟩)
      exact mounted'.block_putBlock_ne _ other small' small

omit cwd in
theorem Spares.finished_fat (now : UInt64) (mounted' : w.Mounted k)
    (size : w.gBlockSize = s.gBlockSize) (passed : s.Passed name y) :
    (maker.finished now w d b).fat y = w.fat y := by
  obtain ⟨apart, _⟩ := spares.entries x name y asks visits passed
  obtain ⟨_, small', _⟩ := firstFree_small mounted free
  cases maker with
  | touch => rfl
  | symlink target => rfl
  | openFile mode => rfl
  | mkdir =>
      have home : w.fatHome y ≠ b := by
        intro same
        rw [fatHome, size] at same
        exact apart (.inl ⟨trivial, by rw [← same] at free; exact free⟩)
      exact fat_putBlock_apart mounted' _ small' home

end Read

section Slots

variable (vain : Vain s path d)

omit mounted cwd spares in
include vain in
theorem Vain.visits (along : Along s.onward (fun _ => True) y d count) : s.Visits d (lastPart path) y :=
  ⟨count, along.congr fun z count _ along _ link => ⟨vain.passed z count along, link⟩⟩

variable (free : s.firstFree = some b)

include vain free

/-- The blocks without a free slot are those there were. -/
theorem Spares.full (along : Along s.onward s.Full y d count) (full : (maker.prepared s b).Full y) :
    s.Full y := by
  have way := along.forget
  have same := spares.prepared_block mounted cwd free vain.asks (vain.visits way)
  refine ⟨(vain.passed y count way).toRead, ?_⟩
  have none := full.full
  rw [same, prepared_entriesPerBlock] at none
  exact none

theorem Spares.along (along : Along (maker.prepared s b).onward (maker.prepared s b).Full y d count) :
    Along s.onward s.Full y d count := by
  refine along.transfer fun z count after along full link => ?_
  have way := along.forget
  have same := spares.prepared_onward mounted free vain.asks (vain.visits way) (vain.passed z count way)
  exact ⟨spares.full mounted cwd vain free along full, same.symm.trans link⟩

/-- The first free slot is the one there was. -/
theorem Spares.freeSlot
    (search : findSlotLoop (chainFuel + 1) d (maker.prepared s b) = some (.ok (some p), u))
    (mounted' : (maker.prepared s b).Mounted k) :
    (∃ count ≤ chainFuel, Along s.onward s.Full p.1 d count) ∧
      PennOs.Fat.freeSlot (s.block p.1) s.entriesPerBlock = some p.2 := by
  obtain ⟨_, ⟨count, less, along⟩, _, slot⟩ := findSlotLoop_slot mounted' search
  have along' := spares.along mounted cwd vain free along
  have way := along'.forget
  have same := spares.prepared_block mounted cwd free vain.asks (vain.visits way)
  rw [same, prepared_entriesPerBlock] at slot
  exact ⟨⟨count, by omega, along'⟩, slot⟩

/-- A directory that has to grow has the chain it had, and grows at its end. -/
theorem Spares.extended (extended : (maker.prepared s b).Extended d g last) :
    (∃ count < chainFuel, Along s.onward s.Full last d count) ∧ s.Crowded d last ∧ maker.Grows s d g := by
  have mounted' := prepared_mounted mounted maker b
  have proper : ¬ (d = fatEoc ∨ d = fatFree) := vain.proper
  obtain ⟨count, z, less, along, full, ends⟩ := findSlotLoop_none mounted' proper extended.search
  have kept : ∀ x count, Along s.onward (fun _ => True) x d count →
    (maker.prepared s b).onward x = s.onward x :=
    fun x count way => spares.prepared_onward mounted free vain.asks (vain.visits way)
      (vain.passed x count way)
  have along' := spares.along mounted cwd vain free along
  have way := along'.forget
  have full' := spares.full mounted cwd vain free along' full
  have ends' : s.onward z = none := (kept z count way).symm.trans ends
  have crowded : s.Crowded d z := ⟨⟨count, along'⟩, full', ends'⟩
  have grows : maker.Grows s d g := ⟨⟨z, crowded⟩, b, free, extended.free⟩
  have fresh : ∀ x count, Along s.onward (fun _ => True) x d count → x ≠ g := fun x count way same =>
    (spares.blocks d (lastPart path) x vain.asks (vain.visits way)).1 (.inr (same ▸ grows))
  have linked : ∀ x count, Along s.onward (fun _ => True) x d count →
      ((maker.prepared s b).setFat g fatEoc).onward x = s.onward x := by
    intro x count way
    rw [← kept x count way, onward, fat_setFat _ (by decide), if_neg (fresh x count way)]
    rfl
  -- Only the end of the chain can be free, and then it is the block that is taken.
  have used : ∀ x count, Along s.onward (fun _ => True) x d count →
      ((maker.prepared s b).setFat g fatEoc).fat x ≠ fatFree := by
    intro x count' there zero
    rw [fat_setFat _ (by decide), if_neg (fresh x count' there)] at zero
    by_cases same : x = b
    · rw [same, prepared_fat_self mounted free] at zero
      exact absurd zero (by decide)
    · rw [spares.prepared_fat mounted free vain.asks (vain.visits there) same
        (vain.passed x count' there)] at zero
      have last : x = z := there.unique way (onward_none.mpr (.inr zero)) ends'
      have taken := spares.tail z crowded (last ▸ zero)
      exact same (last.trans (Option.some.inj (taken.symm.trans free)))
  have back : ∀ x count, Along ((maker.prepared s b).setFat g fatEoc).onward (fun _ => True) x d count →
      Along s.onward (fun _ => True) x d count := by
    intro x count there
    exact there.transfer fun y count after way _ link => ⟨trivial, (linked y count way).symm.trans link⟩
  have there : Along ((maker.prepared s b).setFat g fatEoc).onward (fun _ => True) z d count :=
    way.congr fun y count after way _ link => ⟨trivial, (linked y count way).trans link⟩
  obtain ⟨count', reached⟩ :=
    lastInChain_along (fun x count there => used x count (back x count there)) extended.ends
  obtain ⟨_, _, eoc⟩ := lastInChain_ends extended.ends
  have same : z = last := there.unique reached ((linked z count way).trans ends') (onward_none.mpr (.inl eoc))
  subst same
  exact ⟨⟨count, by omega, along'⟩, crowded, grows⟩

variable (now : UInt64) (e : DirEntry) (files : Nat → SystemFile) (fds : Nat → FdEntry)

/-- What is read once the entry is in a free slot. -/
theorem Spares.spared_slot
    (search : findSlotLoop (chainFuel + 1) d (maker.prepared s b) = some (.ok (some p), u)) :
    Spared s path p ((maker.finished now ((maker.prepared s b).putDirent p e) d b).withTables files fds) ∧
      ((maker.finished now ((maker.prepared s b).putDirent p e) d b).withTables files fds).dirent p = e := by
  have mounted' := prepared_mounted mounted maker b
  have written : ((maker.prepared s b).putDirent p e).Mounted k :=
    mounted'.of_eq rfl rfl rfl rfl rfl rfl rfl rfl
  obtain ⟨⟨count, _, along⟩, slot⟩ := spares.freeSlot mounted cwd vain free search mounted'
  have way := along.forget
  have small := visits_small (vain.asks.small cwd) (vain.visits way)
  obtain ⟨_, inside, _⟩ := Search.firstFrom_some slot
  have inside' : p.2 < s.entriesPerBlock := by omega
  have size : ((maker.prepared s b).putDirent p e).gBlockSize = s.gBlockSize := prepared_gBlockSize maker s b
  refine ⟨?_, ?_⟩
  · constructor
    · exact (finished_gBlockSize maker _).trans size
    · have second : (maker.prepared s b).fileSize ≤ ((maker.prepared s b).putDirent p e).fileSize :=
        Nat.le_max_left _ _
      have third := @finished_longer b d now maker ((maker.prepared s b).putDirent p e)
      exact le_trans (le_trans (prepared_longer maker s b) second) third
    · exact fun i => (finished_fatMapped maker _ i).trans (prepared_fatMapped maker s b i)
    · intro x name y j asks visits within apart
      have bound := visits_small (asks.small cwd) visits
      have last := spares.finished_block mounted cwd free asks visits now written
      have first := spares.prepared_block mounted cwd free asks visits
      calc direntAt ((maker.finished now ((maker.prepared s b).putDirent p e) d b).block y) j
          = ((maker.prepared s b).putDirent p e).dirent (y, j) := by rw [last]; rfl
        _ = (maker.prepared s b).dirent (y, j) :=
            dirent_putDirent_ne mounted' small bound (by rw [prepared_entriesPerBlock]; exact within) apart
        _ = s.dirent (y, j) := by rw [dirent, first]; rfl
    · intro x name y z asks visits passed link
      have last := spares.finished_fat mounted free asks visits now written size passed
      have first := spares.prepared_onward mounted free asks visits passed
      have out : ¬ (maker.prepared s b).EntryIn p y := by
        have out := (spares.entries x name y asks visits passed).2 p ⟨⟨count, along⟩, slot⟩
        rw [EntryIn, blockOffset] at out ⊢
        rw [prepared_gBlockSize]
        exact out
      have kept := fat_putDirent_apart mounted' e small (by rw [prepared_entriesPerBlock]; exact inside') out
      have same : ((maker.finished now ((maker.prepared s b).putDirent p e) d b).withTables files fds).fat y =
          (maker.prepared s b).fat y := last.trans kept
      rw [onward, same]
      exact first.trans link
  · have last := spares.finished_block mounted cwd free vain.asks (vain.visits way) now written
    have put : ((maker.prepared s b).putDirent p e).dirent p = e :=
      dirent_putDirent_self mounted' small (by rw [prepared_entriesPerBlock]; exact inside')
    calc direntAt ((maker.finished now ((maker.prepared s b).putDirent p e) d b).block p.1) p.2
        = ((maker.prepared s b).putDirent p e).dirent p := by rw [last]; rfl
      _ = e := put

/-- The new block of a directory is not one that is read. -/
theorem Spares.grown_block (extended : (maker.prepared s b).Extended d g last) (asks : s.Asks path x name)
    (visits : s.Visits x name y) : y ≠ g ∧ ((maker.prepared s b).grown last g).block y = s.block y := by
  have mounted' := prepared_mounted mounted maker b
  have bound := visits_small (asks.small cwd) visits
  obtain ⟨_, small, _⟩ := firstFree_small mounted' extended.free
  obtain ⟨_, crowded, grows⟩ := spares.extended mounted cwd vain free extended
  obtain ⟨apart, away⟩ := spares.blocks x name y asks visits
  have other : y ≠ g := fun same => apart (.inr (same ▸ grows))
  have home : ∀ i, maker.Links s d i → y ≠ (maker.prepared s b).fatHome i := by
    intro i links
    rw [fatHome, prepared_gBlockSize]
    exact away i links
  have taken := setFat_mounted mounted' g fatEoc
  refine ⟨other, ?_⟩
  calc ((maker.prepared s b).grown last g).block y
      = (((maker.prepared s b).setFat g fatEoc).setFat last g).block y :=
        (setFat_mounted taken last g).block_putBlock_ne _ other small bound
    _ = ((maker.prepared s b).setFat g fatEoc).block y :=
        block_setFat_apart taken g bound (home last (.inr (.inr crowded)))
    _ = (maker.prepared s b).block y := block_setFat_apart mounted' fatEoc bound (home g (.inr (.inl grows)))
    _ = s.block y := spares.prepared_block mounted cwd free asks visits

theorem Spares.grown_fat (extended : (maker.prepared s b).Extended d g last) (asks : s.Asks path x name)
    (visits : s.Visits x name y) (passed : s.Passed name y) :
    ((maker.prepared s b).grown last g).fat y = if y = last then g else (maker.prepared s b).fat y := by
  have mounted' := prepared_mounted mounted maker b
  obtain ⟨_, small, _⟩ := firstFree_small mounted' extended.free
  obtain ⟨_, _, grows⟩ := spares.extended mounted cwd vain free extended
  obtain ⟨apart, _⟩ := spares.entries x name y asks visits passed
  have other : y ≠ g := fun same => (spares.blocks x name y asks visits).1 (.inr (same ▸ grows))
  have home : (((maker.prepared s b).setFat g fatEoc).setFat last g).fatHome y ≠ g := by
    intro same
    have moved : (maker.prepared s b).fatHome y = g := same
    rw [fatHome, prepared_gBlockSize] at moved
    have home : s.fatHome y = g := moved
    exact apart (.inr (by rw [home]; exact grows))
  have taken := setFat_mounted (setFat_mounted mounted' g fatEoc) last g
  have kept : ((maker.prepared s b).grown last g).fat y =
      (((maker.prepared s b).setFat g fatEoc).setFat last g).fat y :=
      fat_putBlock_apart taken zeroBuffer small home
  rw [kept, fat_setFat _ small, fat_setFat _ (by decide), if_neg other]

/-- The FAT entries that are read, once the entry is in the new block. -/
theorem Spares.entered_fat (extended : (maker.prepared s b).Extended d g last) (asks : s.Asks path x name)
    (visits : s.Visits x name y) (passed : s.Passed name y) :
    (maker.finished now (((maker.prepared s b).grown last g).putDirent (g, 0) e) d b).fat y =
      if y = last then g else (maker.prepared s b).fat y := by
  obtain ⟨v, isV⟩ : ∃ v, v = (maker.prepared s b).grown last g := ⟨_, rfl⟩
  have mounted' := prepared_mounted mounted maker b
  have grown : v.Mounted k := isV ▸ mounted'.of_eq rfl rfl rfl rfl rfl rfl rfl rfl
  have written : (v.putDirent (g, 0) e).Mounted k := grown.of_eq rfl rfl rfl rfl rfl rfl rfl rfl
  obtain ⟨_, small, _⟩ := firstFree_small mounted' extended.free
  obtain ⟨_, _, grows⟩ := spares.extended mounted cwd vain free extended
  obtain ⟨apart, _⟩ := spares.entries x name y asks visits passed
  have room := grown.entriesPerBlock_pos
  have size : v.gBlockSize = s.gBlockSize := isV ▸ prepared_gBlockSize maker s b
  have out : ¬ v.EntryIn (g, 0) y := by
    rintro ⟨first, second⟩
    refine apart (.inr ?_)
    have bounds := mounted.blockSize_bounds
    rw [grown.blockOffset_eq small, size] at first second
    have home : s.fatHome y = g := by
      rw [fatHome]
      refine Nat.div_eq_of_lt_le ?_ ?_
      · simpa using first
      · have step : (g + 1) * s.gBlockSize = g * s.gBlockSize + s.gBlockSize := Nat.succ_mul _ _
        simp only at second
        omega
    rw [home]
    exact grows
  have after := spares.finished_fat mounted free asks visits now written size passed
  have kept := fat_putDirent_apart grown e (p := (g, 0)) small (by simp only; omega) out
  have before := spares.grown_fat mounted cwd vain free extended asks visits passed
  rw [← isV] at before ⊢
  exact (after.trans kept).trans before

omit mounted cwd spares vain free in
/-- The entry is in the new block, whatever is left to do. -/
theorem finished_dirent_new {v : Fs} (grown : v.Mounted k) (small : g < 65536) (smallB : b < 65536)
    (other : g ≠ b) :
    (maker.finished now (v.putDirent (g, 0) e) d b).dirent (g, 0) = e := by
  have room := grown.entriesPerBlock_pos
  have written : (v.putDirent (g, 0) e).Mounted k := grown.of_eq rfl rfl rfl rfl rfl rfl rfl rfl
  have put : (v.putDirent (g, 0) e).dirent (g, 0) = e :=
    dirent_putDirent_self grown small (by simp only; omega)
  cases maker with
  | touch => exact put
  | symlink target => exact put
  | openFile mode => exact put
  | mkdir =>
      have same : ((v.putDirent (g, 0) e).putBlock b (newDirBuffer now b d)).block g =
        (v.putDirent (g, 0) e).block g :=
        written.block_putBlock_ne _ other smallB small
      show direntAt (((v.putDirent (g, 0) e).putBlock b (newDirBuffer now b d)).block g) 0 = _
      rw [same]
      exact put

/-- What is read once the directory has grown and has the entry in its new block. -/
theorem Spares.spared_grown (extended : (maker.prepared s b).Extended d g last) :
    Spared s path (g, 0)
        ((maker.finished now (((maker.prepared s b).grown last g).putDirent (g, 0) e) d b).withTables files fds) ∧
      ((maker.finished now (((maker.prepared s b).grown last g).putDirent (g, 0) e) d b).withTables
      files fds).dirent
        (g, 0) = e ∧
      ((maker.finished now (((maker.prepared s b).grown last g).putDirent (g, 0) e) d b).withTables
      files fds).onward
        last = some g := by
  obtain ⟨v, isV⟩ : ∃ v, v = (maker.prepared s b).grown last g := ⟨_, rfl⟩
  have entries : ∀ x name y, s.Asks path x name → s.Visits x name y → s.Passed name y →
      ((maker.finished now (v.putDirent (g, 0) e) d b).withTables files fds).fat y =
        if y = last then g else (maker.prepared s b).fat y := by
    intro x name y asks visits passed
    rw [isV]
    exact spares.entered_fat mounted cwd vain free now e extended asks visits passed
  have mounted' := prepared_mounted mounted maker b
  have grown : v.Mounted k := isV ▸ mounted'.of_eq rfl rfl rfl rfl rfl rfl rfl rfl
  have written : (v.putDirent (g, 0) e).Mounted k := grown.of_eq rfl rfl rfl rfl rfl rfl rfl rfl
  obtain ⟨low, small, gone⟩ := firstFree_small mounted' extended.free
  obtain ⟨⟨count, _, along⟩, crowded, grows⟩ := spares.extended mounted cwd vain free extended
  have way := along.forget
  have size : v.gBlockSize = s.gBlockSize := isV ▸ prepared_gBlockSize maker s b
  have slots : v.entriesPerBlock = s.entriesPerBlock := by rw [entriesPerBlock, size]; rfl
  rw [← isV]
  refine ⟨?_, ?_, ?_⟩
  · constructor
    · exact (finished_gBlockSize maker _).trans size
    · have first : (maker.prepared s b).fileSize ≤ v.fileSize := isV ▸ Nat.le_max_left _ _
      have second : v.fileSize ≤ (v.putDirent (g, 0) e).fileSize := Nat.le_max_left _ _
      have third := @finished_longer b d now maker (v.putDirent (g, 0) e)
      exact le_trans (le_trans (le_trans (prepared_longer maker s b) first) second) third
    · intro i
      have kept : (v.putDirent (g, 0) e).fatMapped i = (maker.prepared s b).fatMapped i := by
        rw [isV]
        rfl
      exact (finished_fatMapped maker _ i).trans (kept.trans (prepared_fatMapped maker s b i))
    · intro x name y j asks visits within apart
      have bound := visits_small (asks.small cwd) visits
      have after := spares.finished_block mounted cwd free asks visits now written
      obtain ⟨other, before⟩ := spares.grown_block mounted cwd vain free extended asks visits
      rw [← isV] at before
      calc direntAt ((maker.finished now (v.putDirent (g, 0) e) d b).block y) j
          = (v.putDirent (g, 0) e).dirent (y, j) := by rw [after]; rfl
        _ = v.dirent (y, j) := dirent_putDirent_ne grown small bound (slots ▸ within) apart
        _ = s.dirent (y, j) := by rw [dirent, before]; rfl
    · intro x name y z asks visits passed link
      have same := entries x name y asks visits passed
      have other : y ≠ last := by
        rintro rfl
        exact absurd (crowded.ends.symm.trans link) (by rintro ⟨⟩)
      rw [if_neg other] at same
      rw [onward, same]
      exact (spares.prepared_onward mounted free asks visits passed).trans link
  · obtain ⟨_, smallB, _⟩ := firstFree_small mounted free
    have taken : (maker.prepared s b).fat b = fatEoc := prepared_fat_self mounted free
    have other : g ≠ b := by
      rintro rfl
      exact absurd (taken.symm.trans gone) (by decide)
    exact finished_dirent_new now e grown small smallB other
  · have same := entries d (lastPart path) last vain.asks (vain.visits way) (vain.passed last count way)
    rw [if_pos rfl] at same
    rw [onward, same]
    have proper : ¬ (g = fatEoc ∨ g = fatFree) := by
      rintro (eoc | zero)
      · exact spares.number g grows eoc
      · simp only [fatFree] at zero
        omega
    exact if_neg proper

end Slots

end Sparing

section Looking

/-- The entry in the slot `p` does not come between a lookup and what it finds. -/
structure Bystander (s : Fs) (path : List UInt8) (d : Nat) (p : Nat × Nat) (x : Nat)
    (name : List UInt8) : Prop where
  inside : p.2 < s.entriesPerBlock
  dead : (s.dirent p).live = false
  missing : s.Passed (lastPart path) p.1
  others : s.Passed name p.1 → x = d ∧ name = lastPart path ∨ name ≠ lastPart path ∧
    scanRow (fun i => s.dirent (p.1, i)) name (s.entriesPerBlock - (p.2 + 1)) (p.2 + 1) = none

variable (mounted : s.Mounted k) (mounted' : t.Mounted k) (spared : Spared s path p t)

include spared

theorem Spared.entriesPerBlock : t.entriesPerBlock = s.entriesPerBlock := by
  rw [Fs.entriesPerBlock, spared.size]
  rfl

theorem Spared.read (read : s.Read y) : t.Read y := by
  refine ⟨?_, (spared.mapped y).trans read.mapped⟩
  have same : t.blockOffset y = s.blockOffset y := by rw [blockOffset, spared.size]; rfl
  rw [Fs.Stored, same, spared.size]
  exact le_trans read.stored spared.longer

/-- A search comes past the blocks that it came past, but for the one with the entry. -/
theorem Spared.passed (asks : s.Asks path x name) (visits : s.Visits x name y) (apart : y ≠ p.1)
    {other : List UInt8} (passed : s.Passed other y) : t.Passed other y := by
  refine ⟨spared.read passed.toRead, ?_⟩
  rw [stop, spared.entriesPerBlock, ← passed.missing]
  exact scanRow_congr fun j _ high => spared.dirents x name y j asks visits (by omega) fun same =>
    apart (congrArg Prod.fst same)

include mounted mounted'

/-- What was found is found. -/
theorem Spared.looked (vain : Vain s path d) (live : (t.dirent p).live = true)
    (named : (t.dirent p).cName = lastPart path)
    (bystander : ∀ x name, s.Asks path x name → s.Visits x name p.1 → Bystander s path d p x name)
    (asks : s.Asks path x name) {hit : ResolvedPath} (found : s.looked x name = some hit) :
    t.looked x name = some hit := by
  obtain ⟨proper, b, i, ⟨count, few, along⟩, stored, stops, rfl⟩ := (looked_iff mounted).mp found
  have notLast : s.Visits x name p.1 → name ≠ lastPart path := by
    rintro visits rfl
    obtain ⟨_, _, missing, others⟩ := bystander x (lastPart path) asks visits
    rcases others missing with ⟨rfl, _⟩ | ⟨apart, _⟩
    · have last := vain.passed b count (along.mono fun _ _ => trivial)
      exact absurd (last.missing.symm.trans stops) (by rintro ⟨⟩)
    · exact apart rfl
  have rows : ∀ y, s.Visits x name y → ∀ j, 0 ≤ j → j < 0 + s.entriesPerBlock → (y, j) ≠ p →
      t.dirent (y, j) = s.dirent (y, j) :=
    fun y visits j _ high apart => spared.dirents x name y j asks visits (by omega) apart
  have stays : ∀ y, s.Visits x name y → s.Passed name y → t.Passed name y := by
    intro y visits passed
    by_cases here : y = p.1
    swap
    · exact spared.passed asks visits here passed
    subst here
    obtain ⟨inside, dead, missing, others⟩ := bystander x name asks visits
    refine ⟨spared.read passed.toRead, ?_⟩
    have behind := (others passed).resolve_left fun both => notLast visits both.2
    rw [stop, spared.entriesPerBlock]
    refine scanRow_stays_none (i := p.2) ?_ live ?_ ?_ passed.missing
    · exact fun j low high apart => rows p.1 visits j low high fun same => apart (congrArg Prod.snd same)
    · exact fun same => notLast visits (same.symm.trans named)
    · intro _ _
      rw [Nat.zero_add]
      exact behind.2
  have visits : s.Visits x name b := ⟨count, along⟩
  obtain ⟨_, inside, alive, _⟩ := scanRow_some stops
  have stops' : t.stop name b = some i := by
    rw [stop, spared.entriesPerBlock]
    by_cases here : b = p.1
    · subst here
      obtain ⟨_, dead, _, _⟩ := bystander x name asks visits
      refine scanRow_keeps (i := p.2) ?_ dead live ?_ stops
      · exact fun j low high apart => rows p.1 visits j low high fun same => apart (congrArg Prod.snd same)
      · exact fun same => notLast visits (same.symm.trans named)
    · rw [← stops]
      exact scanRow_congr fun j low high => rows b visits j low high fun same => here (congrArg Prod.fst same)
  have entry : t.dirent (b, i) = s.dirent (b, i) := by
    refine rows b visits i (Nat.zero_le i) inside fun same => ?_
    subst same
    obtain ⟨_, dead, _, _⟩ := bystander x name asks visits
    exact absurd (alive.symm.trans dead) (by rintro ⟨⟩)
  have stored' : t.Stored b := by
    have same : t.blockOffset b = s.blockOffset b := by rw [blockOffset, spared.size]; rfl
    rw [Fs.Stored, same, spared.size]
    exact le_trans stored spared.longer
  refine (looked_iff mounted').mpr ⟨proper, b, i, ⟨count, few, ?_⟩, stored', stops', by rw [entry]⟩
  refine along.congr fun z count' after way passed link => ?_
  exact ⟨stays z ⟨count', way⟩ passed, spared.onward x name z after asks ⟨count', way⟩ passed link⟩

omit mounted spared in
/-- The new entry is found where a search along the old chain comes to its slot. -/
theorem Spared.looked_new (vain : Vain s path d) {count : Nat} (few : count ≤ chainFuel)
    (along : Along t.onward (t.Passed (lastPart path)) p.1 d count) (stored : t.Stored p.1)
    (inside : p.2 < t.entriesPerBlock) (live : (t.dirent p).live = true)
    (named : (t.dirent p).cName = lastPart path)
    (before : ∀ j < p.2, (t.dirent (p.1, j)).name0 ≠ 0 ∧
      ((t.dirent (p.1, j)).live = true → (t.dirent (p.1, j)).cName ≠ lastPart path)) :
    t.looked d (lastPart path) = some ⟨true, false, t.dirent p, p.1, (p.2 : Nat), d⟩ := by
  refine (looked_iff mounted').mpr ⟨vain.proper, p.1, p.2, ⟨count, few, along⟩, stored, ?_, rfl⟩
  exact scanRow_stops (Nat.zero_le _) (by omega) live named fun j _ high => before j high

end Looking

section Walking

/-- Where the lookups of a path find what they found, its prefixes lead where they led. -/
theorem goes_of_looked (cwd : t.gCwdBlock = s.gCwdBlock)
    (looked : ∀ x name hit, s.Asks path x name → s.looked x name = some hit → t.looked x name = some hit)
    {front rest : List (List UInt8)} (split : partsOf path = front ++ rest)
    (leads : s.goes path front = .dir (some y)) : t.goes path front = .dir (some y) := by
  induction front using List.reverseRecOn generalizing rest y with
  | nil =>
      have here : s.goes path [] = .dir (some (start path s.gCwdBlock)) := rfl
      rw [here] at leads
      cases leads
      rw [← cwd]
      rfl
  | append_singleton front part ih =>
      rw [List.append_assoc, List.singleton_append] at split
      obtain ⟨x, before⟩ := goes_front leads
      have before' := ih split before
      rw [goes_append front [part] before] at leads
      rw [goes_append front [part] before']
      cases step : stepOf part with
      | stay =>
          rw [List.map_singleton, step] at leads ⊢
          exact leads
      | up =>
          rw [List.map_singleton, step, Tree.walk, Tree.walk] at leads ⊢
          by_cases top : x = 1
          · simp only [ways, Option.bind_some, top, ↓reduceIte] at leads ⊢
            exact leads
          · simp only [ways, Option.bind_some, top, ↓reduceIte, Outcome.dir.injEq,
              Option.map_eq_some_iff] at leads ⊢
            obtain ⟨hit, found, first⟩ := leads
            exact ⟨hit, looked x dotDot hit
              ⟨front, part, rest, split, before, .inl ⟨step, top, rfl⟩⟩ found, first⟩
      | name n =>
          rw [List.map_singleton, step, Tree.walk] at leads ⊢
          cases found : s.looked x n with
          | none =>
              simp only [ways, Option.bind_some, found, Option.map_none, reduceCtorEq] at leads
          | some hit =>
              have found' := looked x n hit ⟨front, part, rest, split, before, .inr step⟩ found
              simp only [ways, Option.bind_some, found, Option.map_some] at leads
              simp only [ways, Option.bind_some, found', Option.map_some]
              exact leads

theorem visible_live {name : List UInt8} (named : e.name = DirEntry.packName name) (noNul : 0 ∉ name) :
    e.live = true ↔ ∃ c, name.head? = some c ∧ c ≠ 1 ∧ c ≠ 2 := by
  rw [DirEntry.live_iff, DirEntry.name0, named]
  cases name with
  | nil => simp [DirEntry.packName]
  | cons c rest =>
      have first : DirEntry.packName (c :: rest) 0 = c := rfl
      have proper : c ≠ 0 := fun zero => noNul (zero ▸ List.mem_cons_self)
      rw [first]
      simp [proper]

theorem Maker.entry_name (maker : Maker) (now : UInt64) (path : List UInt8) (b : Nat) :
    (maker.entry now path b).name = DirEntry.packName (lastPart path) := by
  rw [← getFilenameFromPath_eq]
  cases maker <;> rfl

/-- A path with a last component is resolved by `resolve_path_internal`. -/
theorem Maker.resolve_eq (maker : Maker) (now : UInt64) (nonempty : lastPart path ≠ []) :
    ∃ follow, maker.resolve now path = resolvePathInternal now follow symlinkLevels path := by
  have proper : path ≠ [slash] := by
    rintro rfl
    exact nonempty rfl
  have plain : resolvePath now path = resolvePathInternal now true symlinkLevels path := by
    rw [resolvePath, if_neg proper]
  cases maker with
  | touch => exact ⟨true, plain⟩
  | mkdir => exact ⟨true, plain⟩
  | symlink target => exact ⟨false, rfl⟩
  | openFile mode => exact ⟨true, plain⟩

/-- The path leads where its last component leads from the directory before it. -/
theorem goes_last (leads : s.goes path (partsOf path).dropLast = .dir (some d)) :
    s.goes path (partsOf path) = s.ways.walk [stepOf (lastPart path)] (some d) := by
  conv => lhs; rw [partsOf_eq path]
  exact goes_append _ _ leads

/-- What is missing although its prefix is a directory has a name of its own, which is not found. -/
theorem Fs.Missing.unseen (missing : s.Missing path)
    (leads : s.goes path (partsOf path).dropLast = .dir (some d)) :
    lastPart path ≠ [] ∧ lastPart path ≠ dot ∧
      (lastPart path ≠ dotDot → s.looked d (lastPart path) = none) := by
  have last := goes_last leads
  have nonempty : lastPart path ≠ [] := by
    intro same
    rw [same, stepOf_stay (.inl rfl)] at last
    exact missing.noDir d last
  have notDot : lastPart path ≠ dot := by
    intro same
    rw [same, stepOf_stay (.inr rfl)] at last
    exact missing.noDir d last
  refine ⟨nonempty, notDot, fun notUp => ?_⟩
  rw [stepOf_name nonempty notDot notUp, Tree.walk] at last
  cases found : s.looked d (lastPart path) with
  | none => rfl
  | some hit =>
      by_cases isDir : hit.entry.type = DirEntry.typeDirectory
      · simp only [ways, Option.bind_some, found, Option.map_some, isDir, ↓reduceIte] at last
        exact absurd last (missing.noDir _)
      · simp only [ways, Option.bind_some, found, Option.map_some, isDir, ↓reduceIte,
          List.isEmpty_nil] at last
        exact absurd last (missing.noFile _)

/-- The components of the cut path that lead to the directory of the new entry. -/
theorem Reaches.front (reaches : Reaches s path d) (nonempty : lastPart path ≠ []) :
    ∃ front, components (body path) = front ++ [lastPart path] ∧ s.goes path front = .dir (some d) := by
  by_cases short : (body path).length < pathMax
  · have whole : components (body path) = tokensFrom [] (body path) := by
      rw [components, List.take_of_length_le (by omega)]
    exact ⟨_, whole.trans (tokensFrom_parts path nonempty), (goes_filter _).mp reaches.leads⟩
  · exact reaches.cut (by omega)

end Walking

/-- The lookups on the way find what they found, and the last one finds the entry in the slot `p`. -/
structure LeadsThere (s : Fs) (path : List UInt8) (d : Nat) (e : DirEntry) (p : Nat × Nat)
    (t : Fs) : Prop where
  kept : ∀ x name hit, s.Asks path x name → s.looked x name = some hit → t.looked x name = some hit
  new : t.looked d (lastPart path) = some ⟨true, false, e, p.1, (p.2 : Nat), d⟩

section Placing

variable (mounted : s.Mounted k)

include mounted

/-- Where an entry was made although its prefix leads to a directory, the resolution came past the whole
directory. -/
theorem Reaches.vain {err : PennFatErr} {r : ResolvedPath} (missing : s.Missing path)
    (reaches : Reaches s path d)
    (ran : maker.Ran now path s t err r) : Vain s path d ∧ r.found = false ∧ r.parentDirBlock = d := by
  obtain ⟨nonempty, notDot, unseen⟩ := missing.unseen reaches.leads
  have notFound := unseen reaches.notUp
  have asks : s.Asks path d (lastPart path) :=
    ⟨_, lastPart path, [], partsOf_eq path, reaches.leads, .inr (stepOf_name nonempty notDot reaches.notUp)⟩
  obtain ⟨front, split, leads⟩ := reaches.front nonempty
  obtain ⟨follow, resolving⟩ := maker.resolve_eq now nonempty
  obtain ⟨above, last⟩ := resolvePathInternal_goes mounted now follow (symlinkLevels - 1) split leads
  have run := ran.resolves
  rw [resolving] at run
  replace run := last.symm.trans run
  rw [walk, if_neg notDot, if_neg reaches.notUp] at run
  obtain ⟨answer, u, search, run⟩ := Prog.bind_inv run
  obtain rfl : u = s := (findEntryInDir_host _ _ _ _ _ search).eq mounted.host
  cases answer with
  | error other =>
      cases run
      exact absurd ran.good (findEntryInDir_error search)
  | ok hit =>
      have absent : hit.found = false := by
        rw [looked, search] at notFound
        simpa using notFound
      have proper : ¬ (d = fatEoc ∨ d = fatFree) := by
        intro ended
        rw [findEntryInDir, if_pos ended.symm] at search
        cases search
      simp only [absent, Bool.not_false, ↓reduceIte] at run
      cases run
      exact ⟨⟨proper, asks, looked_missing mounted proper search absent⟩, rfl, rfl⟩

theorem Maker.Enters.stays (enters : maker.Enters now path s d b w t) :
    t.Mounted k ∧ t.gCwdBlock = s.gCwdBlock := by
  obtain ⟨files, fds, rfl⟩ := enters.rest
  have before := prepared_mounted mounted maker b
  have written := addDirentToDir_mounted before enters.added
  refine ⟨(finished_mounted written maker now d b).of_eq rfl rfl rfl rfl rfl rfl rfl rfl, ?_⟩
  calc (maker.finished now w d b).gCwdBlock
      = w.gCwdBlock := finished_gCwdBlock maker w
    _ = (maker.prepared s b).gCwdBlock := addDirentToDir_cwd before enters.added
    _ = s.gCwdBlock := prepared_gCwdBlock maker s b

/-- Once the entry is in a free slot, it is found there. -/
theorem Spares.finds_slot (cwd : s.gCwdBlock < 65536) (mounted' : t.Mounted k)
    (spares : Spares s maker path d)
    (vain : Vain s path d) (free : s.firstFree = some b) (live : e.live = true)
    (named : e.cName = lastPart path)
    (search : findSlotLoop (chainFuel + 1) d (maker.prepared s b) = some (.ok (some p), u))
    (spared : Spared s path p t) (entry : t.dirent p = e) : LeadsThere s path d e p t := by
  obtain ⟨⟨count, few, along⟩, slot⟩ :=
    spares.freeSlot mounted cwd vain free search (prepared_mounted mounted maker b)
  have way := along.forget
  have passed := vain.passed p.1 count way
  obtain ⟨_, inside, reusable, first⟩ := Search.firstFrom_some slot
  have inside' : p.2 < s.entriesPerBlock := by omega
  have unused : ∀ i, (s.dirent (p.1, i)).reusable = true ↔ (s.dirent (p.1, i)).name0 = 0 ∨
    (s.dirent (p.1, i)).name0 = 1 := by
    intro i
    simp only [DirEntry.reusable, Bool.or_eq_true, beq_iff_eq]
  have taken : ∀ i < p.2, (s.dirent (p.1, i)).name0 ≠ 0 := by
    intro i less ends
    have full : (s.dirent (p.1, i)).reusable = false := first i (Nat.zero_le i) less
    rw [(unused i).mpr (.inl ends)] at full
    cases full
  have dead : (s.dirent p).live = false := by
    rw [Bool.eq_false_iff]
    intro alive
    obtain ⟨some_, other, _⟩ := DirEntry.live_iff.mp alive
    exact ((unused p.2).mp reusable).elim some_ other
  rw [← entry] at live named ⊢
  constructor
  · intro x name hit asks found
    refine spared.looked mounted mounted' vain live named (fun x name asks visits => ?_) asks found
    exact ⟨inside', dead, passed, spares.slot x name p asks ⟨⟨count, along⟩, slot⟩ visits⟩
  · refine Spared.looked_new mounted' vain few ?_ (spared.read passed.toRead).stored
      (spared.entriesPerBlock ▸ inside') live named fun j less => ?_
    · refine along.congr fun z count' after along' full link => ?_
      have way' := along'.forget
      have apart : z ≠ p.1 := by
        rintro rfl
        exact absurd (full.full.symm.trans slot) (by rintro ⟨⟩)
      have passed' := vain.passed z count' way'
      exact ⟨spared.passed vain.asks (vain.visits way') apart passed',
        spared.onward d _ z after vain.asks (vain.visits way') passed' link⟩
    · have apart : (p.1, j) ≠ p := fun same => absurd (congrArg Prod.snd same) (Nat.ne_of_lt less)
      rw [spared.dirents d _ p.1 j vain.asks (vain.visits way) (by omega) apart]
      refine ⟨taken j less, fun alive named' => ?_⟩
      obtain ⟨i, _, below, ends⟩ := scanRow_none passed.missing (Nat.zero_le j) (by omega) alive named'
      exact taken i (by omega) ends

/-- Once the entry is in the new block of a directory that had no free slot, it is found there. -/
theorem Spares.finds_grown (cwd : s.gCwdBlock < 65536) (mounted' : t.Mounted k)
    (spares : Spares s maker path d)
    (vain : Vain s path d) (free : s.firstFree = some b) (live : e.live = true)
    (named : e.cName = lastPart path)
    (extended : (maker.prepared s b).Extended d g last) (spared : Spared s path (g, 0) t)
    (entry : t.dirent (g, 0) = e) (link : t.onward last = some g) (stored : t.Stored g) :
    LeadsThere s path d e (g, 0) t := by
  obtain ⟨⟨count, few, along⟩, crowded, grows⟩ := spares.extended mounted cwd vain free extended
  have fresh : ∀ x name y, s.Asks path x name → s.Visits x name y → y ≠ g :=
    fun x name y asks visits => (spares.grown_block mounted cwd vain free extended asks visits).1
  have room := mounted'.entriesPerBlock_pos
  have passed : ∀ z count, Along s.onward s.Full z d count →
      s.Visits d (lastPart path) z ∧ s.Passed (lastPart path) z ∧ t.Passed (lastPart path) z := by
    intro z count along
    have way := along.forget
    have visits := vain.visits way
    have passed := vain.passed z count way
    exact ⟨visits, passed, spared.passed vain.asks visits (fresh d _ z vain.asks visits) passed⟩
  rw [← entry] at live named ⊢
  constructor
  · intro x name hit asks found
    refine spared.looked mounted mounted' vain live named (fun x name asks visits => ?_) asks found
    exact absurd rfl (fresh x name g asks visits)
  · have grown : Along t.onward (t.Passed (lastPart path)) last d count := by
      refine along.congr fun z count' after along' full link => ?_
      obtain ⟨visits, before, after'⟩ := passed z count' along'
      exact ⟨after', spared.onward d _ z after vain.asks visits before link⟩
    obtain ⟨_, _, passedLast⟩ := passed last count along
    refine Spared.looked_new mounted' vain few (grown.push passedLast link) stored
      (by simp only; omega) live named ?_
    exact fun j less => absurd less (Nat.not_lt_zero j)

/-- Once the entry is made, the lookups on the way find what they found, and the last one finds the
entry. -/
theorem Spares.finds (cwd : s.gCwdBlock < 65536) (spares : Spares s maker path d) (vain : Vain s path d)
    (enters : maker.Enters now path s d b w t) (live : (maker.entry now path b).live = true)
    (named : (maker.entry now path b).cName = lastPart path) :
    ∃ p, LeadsThere s path d (maker.entry now path b) p t := by
  have mounted' := (enters.stays mounted).1
  have free := enters.free
  obtain ⟨files, fds, isT⟩ := enters.rest
  obtain ⟨_, ⟨p, search, isW⟩ | ⟨g, last, extended, isW⟩⟩ :=
    addDirentToDir_ok (prepared_mounted mounted maker b) enters.added
  · obtain ⟨spared, entry⟩ := spares.spared_slot mounted cwd vain free now (maker.entry now path b)
      files fds search
    rw [← isW, ← isT] at spared entry
    exact ⟨p, spares.finds_slot mounted cwd mounted' vain free live named search spared entry⟩
  · obtain ⟨spared, entry, link⟩ := spares.spared_grown mounted cwd vain free now (maker.entry now path b)
      files fds extended
    rw [← isW, ← isT] at spared entry link
    have held : w.blockOffset g + w.gBlockSize ≤ w.fileSize := isW ▸ Nat.le_max_right _ _
    have stored : t.Stored g := by
      have size : t.gBlockSize = w.gBlockSize := isT ▸ finished_gBlockSize maker w
      have longer : w.fileSize ≤ t.fileSize := isT ▸ finished_longer maker w
      rw [Fs.Stored, blockOffset, size]
      exact le_trans held longer
    exact ⟨(g, 0), spares.finds_grown mounted cwd mounted' vain free live named extended spared
      entry link stored⟩

/-- A path whose components before the last one lead to a directory gets its entry there. -/
theorem Reaches.placed {path : CStr} (cwd : s.gCwdBlock < 65536) (missing : s.Missing path.bytes)
    (made : maker.Made now path.bytes s t) (reaches : Reaches s path.bytes d)
    (spares : Spares s maker path.bytes d) :
    Placed maker now s path.bytes t := by
  obtain ⟨err, r, ran⟩ := made.ran mounted
  obtain ⟨vain, missed, parent⟩ := reaches.vain mounted missing ran
  obtain ⟨b, w, enters⟩ := ran.enters missed
  rw [parent] at enters
  obtain ⟨nonempty, notDot, _⟩ := missing.unseen reaches.leads
  have noNul : 0 ∉ lastPart path.bytes := by
    rw [← getFilenameFromPath_eq]
    exact fun member => path.noNul (mem_getFilenameFromPath member)
  have short : (lastPart path.bytes).length < 32 := getFilenameFromPath_eq path.bytes ▸ enters.short
  have name := maker.entry_name now path.bytes b
  have named : (maker.entry now path.bytes b).cName = lastPart path.bytes := cName_packName short noNul name
  obtain ⟨p, looked, found⟩ :=
    spares.finds mounted cwd vain enters ((visible_live name noNul).mpr reaches.visible) named
  obtain ⟨mounted', cwd'⟩ := enters.stays mounted
  constructor
  · intro k inside
    have front : (partsOf path.bytes).dropLast = (partsOf path.bytes).take k ++
      (partsOf path.bytes).dropLast.drop k := by
      conv => lhs; rw [← List.take_append_drop k (partsOf path.bytes).dropLast]
      rw [List.dropLast_eq_take, List.take_take, Nat.min_eq_left (by omega)]
    have leads := reaches.leads
    rw [front] at leads
    obtain ⟨x, before⟩ := goes_front leads
    exact ⟨x, before, goes_of_looked cwd' looked (List.take_append_drop k _).symm before⟩
  · intro later
    obtain ⟨front, split, leads⟩ := reaches.front nonempty
    have leads' : t.goes path.bytes front = .dir (some d) := by
      obtain ⟨k, _, same⟩ := kept_front nonempty split
      rw [← same] at leads ⊢
      exact (goes_filter _).mp
        (goes_of_looked cwd' looked (List.take_append_drop k _).symm ((goes_filter _).mpr leads))
    obtain ⟨above, last⟩ := resolvePathInternal_goes mounted' later false (symlinkLevels - 1) split leads'
    exact ⟨_, d, b, p, last.trans (walk_looked mounted' notDot reaches.notUp found), rfl, reaches.leads, rfl,
      enters.free, rfl, named, rfl, rfl⟩

omit mounted in
/-- An entry that is where the path says had its directory there before. -/
theorem Placed.reaches {path : CStr} (mounted' : t.Mounted k) (missing : s.Missing path.bytes)
    (placed : Placed maker now s path.bytes t) : ∃ d, Reaches s path.bytes d := by
  obtain ⟨r, d, b, p, run, found, leads, parent, _, entry, named, _, index⟩ := placed.entry now
  obtain ⟨nonempty, notDot, _⟩ := missing.unseen leads
  have noNul : 0 ∉ lastPart path.bytes := by
    rw [← getFilenameFromPath_eq]
    exact fun member => path.noNul (mem_getFilenameFromPath member)
  have slot : 0 ≤ r.entryIndexInBlock := by omega
  obtain ⟨front, name, x, hit, split, there, _, notUp, looks, rfl⟩ :=
    resolvePathNoFollow_answer mounted' run found slot
  obtain ⟨alive, same⟩ := looked_named mounted' looks
  have parent' : x = d := parent
  have same' : name = lastPart path.bytes := same.symm.trans named
  subst parent' same'
  refine ⟨x, leads, fun _ => ⟨front, split, ?_⟩, ?_, notUp⟩
  · obtain ⟨k, inside, before⟩ := kept_front nonempty split
    obtain ⟨y, first, second⟩ := placed.prefixes k inside
    rw [goes_filter, before] at first second
    rw [first]
    exact second.symm.trans there
  · have entry' : hit.entry = maker.entry now path.bytes b := entry
    rw [entry'] at alive
    exact (visible_live (maker.entry_name now path.bytes b) noNul).mp alive

end Placing

end PennOs.Fat
