import PennOs.Fat.CreationPlaces
import PennOs.Fat.TreeRuns

set_option autoImplicit false

/- When the calls that make entries put them where their paths say. -/
namespace PennOs.Fat

open LinkedChain (Along Links)
open PathWalk
open Image (Promises)
open Fs

variable {s t : Fs} {I : Image} {b d h x y count : Nat} {p : Nat × Nat} {name : List UInt8}
  {promised : Promises}
  {parts : List (List UInt8)} {dir : Option Nat}

section Resting

variable (tracks : Tracks s I) (wf : I.Wf)

include tracks wf

/-- Searches stay on the chain. -/
theorem Tracks.along_chain {passes : Nat → Prop} (along : Along s.onward passes y x count)
    (member : x ∈ I.chain h) :
    y ∈ I.chain h := by
  induction along with
  | here => exact member
  | @on node after _ _ link _ ih =>
      refine ih ?_
      obtain ⟨next, proper⟩ := onward_some link
      have inside := (wf.inside h node member).2.1
      have step : nextBlock I.fat node = some after := by
        rw [nextBlock, ← tracks.shows.fat node inside, next]
        exact linkOf_of_ne fun eoc => proper (.inl eoc)
      exact (wf.chains.links h).closed member step

/-- A block of a chain is in use, and behind the FAT. -/
theorem Tracks.chain_block (member : b ∈ I.chain h) : 1 ≤ b ∧ b < s.fatEntries ∧ s.fat b ≠ fatFree := by
  obtain ⟨low, high, used⟩ := wf.inside h b member
  exact ⟨low, tracks.inside high, tracks.shows.fat b high ▸ used⟩

end Resting

theorem fatHome_zero (ready : s.Ready) (inside : y < s.fatEntries) : s.fatHome y = 0 := by
  have bounds := ready.fatEntries_bounds
  have size := ready.toMounted.blockSize_bounds
  exact Nat.div_eq_of_lt (by omega)

section Sparing

variable {maker : Maker} {g : Nat} {path : List UInt8} (tracks : Tracks s I)

include tracks

/-- The block of a directory that grows was free. -/
theorem Maker.Grows.was_free (grows : maker.Grows s d g) : 2 ≤ g ∧ g < s.fatEntries ∧ s.fat g = fatFree := by
  obtain ⟨_, b, free, grown⟩ := grows
  have ready := tracks.ready
  have bounds := ready.fatEntries_bounds
  have mounted' := prepared_mounted ready.toMounted maker b
  obtain ⟨low, _, _⟩ := firstFree_some ready.toMounted free
  obtain ⟨low', high, unused⟩ := firstFree_some mounted' grown
  rw [prepared_gBlockSize] at high
  have inside : g < s.fatEntries := by omega
  have other : (s.setFat b fatEoc).fat g = fatFree := by
    cases maker with
    | touch => exact unused
    | mkdir => exact unused
    | openFile mode => exact unused
    | symlink target =>
        have taken := setFat_mounted ready.toMounted b fatEoc
        have small := firstFree_small ready.toMounted free
        have home : (s.setFat b fatEoc).fatHome g ≠ b := by
          have zero : (s.setFat b fatEoc).fatHome g = 0 := fatHome_zero (ready.setFat b fatEoc) inside
          omega
        exact (fat_putBlock_apart taken (targetBuffer target) small.2.1 home).symm.trans unused
  rw [fat_setFat _ (by decide)] at other
  split at other
  · exact absurd other (by decide)
  · exact ⟨low', inside, other⟩

end Sparing

/-- On a volume that is intact the calls write nothing that the lookups read. -/
theorem Resting.spares {maker : Maker} {path : List UInt8} (resting : Resting promised s I)
    (dense : promised.dense)
    (leads : s.goes path (partsOf path).dropLast = .dir (some d)) : Spares s maker path d := by
  have tracks := resting.tracks
  have wf := resting.good.wf
  have searches := tracks.searches wf
  have ready := tracks.ready
  have bounds := ready.fatEntries_bounds
  have size := ready.toMounted.blockSize_bounds
  have home : I.dirs d := by
    obtain ⟨_, same, here⟩ := searches.goes_dir resting.cwd leads
    rwa [← Option.some.inj same] at here
  have read : ∀ x name y, s.Asks path x name → s.Visits x name y → I.dirs x ∧ y ∈ I.chain x := by
    rintro x name y ⟨front, _, _, _, before, _⟩ ⟨count, along⟩
    obtain ⟨_, same, here⟩ := searches.goes_dir resting.cwd before
    obtain rfl := Option.some.inj same
    exact ⟨here, tracks.along_chain wf along (wf.dir_mem here)⟩
  have slotted : ∀ p, s.FreeSlot d p → p.1 ∈ I.chain d := by
    rintro p ⟨⟨count, along⟩, _⟩
    exact tracks.along_chain wf along (wf.dir_mem home)
  have written : ∀ g, maker.Rewrites s d g → 2 ≤ g ∧ s.fat g = fatFree := by
    rintro g (⟨_, free⟩ | grows)
    · obtain ⟨low, _, unused⟩ := firstFree_some ready.toMounted free
      exact ⟨low, unused⟩
    · obtain ⟨low, _, unused⟩ := grows.was_free tracks
      exact ⟨low, unused⟩
  constructor
  · intro x name y asks visits
    obtain ⟨_, member⟩ := read x name y asks visits
    obtain ⟨low, _, used⟩ := tracks.chain_block wf member
    refine ⟨fun rewrites => used (written y rewrites).2, fun i links => ?_⟩
    have inside : i < s.fatEntries := by
      rcases links with free | grows | ⟨⟨_, along⟩, _, _⟩
      · have high := (firstFree_some ready.toMounted free).2.1
        omega
      · exact (grows.was_free tracks).2.1
      · exact (tracks.chain_block wf (tracks.along_chain wf along (wf.dir_mem home))).2.1
    rw [fatHome_zero ready inside]
    omega
  · intro x name y asks visits _
    obtain ⟨_, member⟩ := read x name y asks visits
    obtain ⟨low, high, _⟩ := tracks.chain_block wf member
    refine ⟨fun rewrites => ?_, fun p slot inside => ?_⟩
    · have behind := (written _ rewrites).1
      rw [fatHome_zero ready high] at behind
      omega
    · obtain ⟨low', high', _⟩ := tracks.chain_block wf (slotted p slot)
      have offset := ready.toMounted.blockOffset_eq (b := p.1) (by omega)
      have past : s.gBlockSize ≤ p.1 * s.gBlockSize := Nat.le_mul_of_pos_left _ low'
      have first := inside.1
      rw [offset] at first
      omega
  · rintro last ⟨⟨_, along⟩, _, _⟩ free
    exact absurd free (tracks.chain_block wf (tracks.along_chain wf along (wf.dir_mem home))).2.2
  · intro x name p asks slot visits passed
    obtain ⟨here, member⟩ := read x name p.1 asks visits
    obtain rfl := wf.apart member (slotted p slot)
    by_cases named : name = lastPart path
    · exact .inl ⟨rfl, named⟩
    refine .inr ⟨named, ?_⟩
    obtain ⟨low, high, _⟩ := wf.inside x p.1 member
    have row : ∀ i < s.entriesPerBlock, s.dirent (p.1, i) = I.slot p.1 i := fun i inside =>
      tracks.shows.slot p.1 low high i (tracks.shows.slots ▸ inside)
    -- The search came to an end in this block, and nothing is live behind it.
    cases found : scanRow (fun i => s.dirent (p.1, i)) name (s.entriesPerBlock - (p.2 + 1)) (p.2 + 1) with
    | none => rfl
    | some j =>
        obtain ⟨_, within, live, same, _⟩ := scanRow_some found
        obtain ⟨i, _, less, ends⟩ := scanRow_none passed.missing (Nat.zero_le j) (by omega) live same
        rw [row i (by omega)] at ends
        rw [row j (by omega)] at live
        have dead := resting.good.dense dense x here p.1 member i j less
          (by rw [tracks.shows.slots]; omega) ends
        exact absurd (live.symm.trans dead) (by rintro ⟨⟩)
  · intro g grows eoc
    obtain ⟨_, inside, _⟩ := grows.was_free tracks
    rw [eoc] at inside
    exact absurd inside (by simp only [fatEoc]; omega)

section Placing

/-- On a volume that is intact the path alone decides. -/
theorem placed_intact {maker : Maker} {now : UInt64} {path : CStr} (resting : Resting promised s I)
    (dense : promised.dense) (missing : s.Missing path.bytes) (made : maker.Made now path.bytes s t) :
    Placed maker now s path.bytes t ↔ ∃ d, Reaches s path.bytes d := by
  have tracks := resting.tracks
  have mounted := tracks.ready.toMounted
  constructor
  · intro placed
    exact placed.reaches (made.stays mounted) missing
  · rintro ⟨d, reaches⟩
    have small := (tracks.searches resting.good.wf).small _ resting.cwd
    exact reaches.placed mounted small missing made (resting.spares dense reaches.leads)

/-- "b/l" -/
def linkInB : CStr := .literal [98, 47, 108]

end Placing

end PennOs.Fat
