import Mathlib.Order.Interval.Finset.Nat
import PennOs.Lib.ErasingWalk
import PennOs.Fat.FailedCreations
import PennOs.Fat.TreeRuns

set_option autoImplicit false

/- The allocator and the chain loops of the FAT, on tables of any contents. -/
namespace PennOs.Fat

open LinkedChain (Links)
open Fs

variable {s t : Fs} {b start fatBlocks : Nat} {nodes : List Nat}

section Allocating

/-- What a call of `allocate_free_block` has to give: the first free entry behind the reserved ones,
which is set to `FAT_EOC` and is no sentinel, or that there is none. -/
def HandsOut (s : Fs) (result : Option Nat) (t : Fs) : Prop :=
  match result with
  | some b => 2 ≤ b ∧ b < totalEntries s ∧ s.fat b = fatFree ∧
      (∀ i, 2 ≤ i → i < b → s.fat i ≠ fatFree) ∧
      (∀ i, t.fat i = if i = b then fatEoc else s.fat i) ∧ b ≠ fatFree ∧ b ≠ fatEoc
  | none => t = s ∧ ∀ i, 2 ≤ i → i < totalEntries s → s.fat i ≠ fatFree

/-- Only the entry of the number `FAT_EOC` is left. -/
def OnlyEocLeft (s : Fs) : Prop :=
  fatEoc < totalEntries s ∧ s.fat fatEoc = fatFree ∧ ∀ i, 2 ≤ i → i < fatEoc → s.fat i ≠ fatFree

theorem firstFree_least (mounted : s.calm.Mounted fatBlocks) (found : s.firstFree = some b) :
    2 ≤ b ∧ b < totalEntries s ∧ s.fat b = fatFree ∧ ∀ i, 2 ≤ i → i < b → s.fat i ≠ fatFree := by
  obtain ⟨low, high, free⟩ := firstFree_taken mounted found
  have reserved : s.gSuperblock = ⟨fatBlocks, 2⟩ := mounted.superblock
  rw [firstFree, reserved] at found
  obtain ⟨_, _, _, before⟩ := Search.firstFrom_some found
  refine ⟨low, high, free, fun i from_ upTo => ?_⟩
  simpa using before i from_ upTo

theorem firstFree_full (mounted : s.calm.Mounted fatBlocks) (full : s.firstFree = none) {i : Nat}
    (low : 2 ≤ i) (high : i < totalEntries s) : s.fat i ≠ fatFree := by
  have reserved : s.gSuperblock = ⟨fatBlocks, 2⟩ := mounted.superblock
  apply (firstFree_none (s := s.calm) mounted).mp full i
  · rw [show s.calm.gSuperblock = ⟨fatBlocks, 2⟩ from reserved]
    exact low
  · exact high

/-- Every block that the allocator hands out is the first free one. -/
theorem allocateFreeBlock_hands (mounted : s.calm.Mounted fatBlocks) :
    ∃ result t, allocateFreeBlock s = some (result, t) ∧ (HandsOut s result t ↔ result ≠ some fatEoc) := by
  have run := allocateFreeBlock_calm mounted
  cases found : s.firstFree with
  | none =>
      rw [found] at run
      refine ⟨none, s, run, ?_⟩
      simp only [HandsOut, true_and, ne_eq, reduceCtorEq, not_false_eq_true, iff_true]
      exact fun i low high => firstFree_full mounted found low high
  | some b =>
      rw [found] at run
      refine ⟨some b, _, run, ?_⟩
      obtain ⟨low, high, free, before⟩ := firstFree_least mounted found
      have positive : b ≠ fatFree := by
        simp only [fatFree]
        omega
      have table : ∀ i, (s.setFat b fatEoc).fat i = if i = b then fatEoc else s.fat i :=
        fat_setFat s (by decide)
      constructor
      · intro hands same
        exact hands.2.2.2.2.2.2 (Option.some.inj same)
      · intro other
        exact ⟨low, high, free, before, table, positive, fun same => other (congrArg some same)⟩

theorem firstFree_eoc (mounted : s.calm.Mounted fatBlocks) : s.firstFree = some fatEoc ↔ OnlyEocLeft s := by
  constructor
  · intro found
    obtain ⟨_, high, free, before⟩ := firstFree_least mounted found
    exact ⟨high, free, before⟩
  · intro left
    obtain ⟨high, free, before⟩ := left
    have reserved : s.gSuperblock = ⟨fatBlocks, 2⟩ := mounted.superblock
    rw [firstFree, reserved]
    apply Search.firstFrom_eq_some
    · show 2 ≤ fatEoc
      decide
    · show fatEoc < 2 + (totalEntries s - 2)
      omega
    · simp [free]
    · intro i low upTo
      simpa using before i low upTo

/-- `allocate_free_block` hands out the first free block, and one that can be used, unless the only
free entry is the one whose number is `FAT_EOC`. -/
theorem allocateFreeBlock_usable_iff (s : Fs) (fatBlocks : Nat) (mounted : s.calm.Mounted fatBlocks) :
    (∃ result t, allocateFreeBlock s = some (result, t) ∧ HandsOut s result t) ↔ ¬ OnlyEocLeft s := by
  obtain ⟨result, t, run, hands⟩ := allocateFreeBlock_hands mounted
  have taken : result = s.firstFree := by
    rw [allocateFreeBlock_calm mounted] at run
    cases found : s.firstFree with
    | none =>
        rw [found] at run
        cases run
        rfl
    | some b =>
        rw [found] at run
        cases run
        rfl
  rw [← firstFree_eoc mounted, ← taken, ← ne_eq, ← hands]
  constructor
  · intro some_
    obtain ⟨result', t', run', hands'⟩ := some_
    rw [run] at run'
    cases run'
    exact hands'
  · intro holds
    exact ⟨result, t, run, holds⟩

/-- A volume of 32 FAT blocks of 4096 bytes on which all blocks but the last are in use. -/
def lastBlockFree : Fs :=
  ({ Fs.initial with
    file := fun a => if a = 0 then 4 else if a = 1 then 32 else if a < 131070 then 1 else 0
    fileSize := 135168 } : Fs).mountAs 4 32

theorem lastBlockFree_mounted : lastBlockFree.calm.Mounted 32 := by
  have formatted : ({ Fs.initial with
      file := fun a => if a = 0 then 4 else if a = 1 then 32 else if a < 131070 then 1 else 0
      fileSize := 135168 } : Fs).Formatted 4 32 := by
    constructor
    · decide
    · decide
    · decide
    · decide
    · decide
  exact mountAs_mounted rfl formatted

theorem lastBlockFree_eoc : OnlyEocLeft lastBlockFree := by
  refine ⟨by decide, by decide, fun i low high free => ?_⟩
  have file : lastBlockFree.file (2 * i) = 1 := by
    simp only [fatEoc] at high
    show (if 2 * i = 0 then (4 : UInt8) else if 2 * i = 1 then 32 else if 2 * i < 131070 then 1 else 0) = 1
    rw [if_neg (by omega), if_neg (by omega), if_pos (by omega)]
  simp only [fat, LittleEndian.value, Nat.add_zero, file, fatFree] at free
  have one : (1 : UInt8).toNat = 1 := rfl
  omega

/-- The last block of the largest FAT is handed out under the number that ends a chain. -/
theorem allocateFreeBlock_eoc :
    ¬ ∀ (s : Fs) (fatBlocks : Nat), s.calm.Mounted fatBlocks →
      ∃ result t, allocateFreeBlock s = some (result, t) ∧ HandsOut s result t := by
  intro usable
  obtain ⟨result, t, run, hands⟩ := usable lastBlockFree 32 lastBlockFree_mounted
  have taken := allocateFreeBlock_calm lastBlockFree_mounted
  rw [(firstFree_eoc lastBlockFree_mounted).mpr lastBlockFree_eoc] at taken
  rw [run] at taken
  cases taken
  exact hands.2.2.2.2.2.2 rfl

theorem blankVolume_mounted : blankVolume.calm.Mounted 1 := by
  have resting : Resting .plain blankVolume _ := freshVolume_resting (by decide) (by decide) (by decide)
  rw [calm_of_host resting.tracks.ready.host]
  exact resting.tracks.ready.toMounted

theorem allocateFreeBlock_usable_blank :
    (∃ result t, allocateFreeBlock blankVolume = some (result, t) ∧ HandsOut blankVolume result t) ↔
      ¬ OnlyEocLeft blankVolume :=
  allocateFreeBlock_usable_iff blankVolume 1 blankVolume_mounted

end Allocating

section Freeing

/-- Where a block number leads: nowhere if it is one of the two sentinels. -/
def usedLink (value : Nat) : Option Nat := if value = fatEoc ∨ value = fatFree then none else some value

/-- The links of a FAT of any contents. -/
def Fs.link (s : Fs) (b : Nat) : Option Nat := usedLink (s.fat b)

/-- The blocks reached from `start` by following links up to the first sentinel. -/
def Fs.Reached (s : Fs) (start b : Nat) : Prop := ErasingWalk.Reaches s.link (usedLink start) b

/-- What the table `t` holds once the blocks reached from `start` have been set free. -/
structure Frees (s : Fs) (start : Nat) (t : Fs) : Prop where
  freed : ∀ b, s.Reached start b → t.fat b = fatFree
  kept : ∀ b, ¬ s.Reached start b → t.fat b = s.fat b

theorem usedLink_none : usedLink b = none ↔ b = fatEoc ∨ b = fatFree := by
  unfold usedLink
  split
  · next sentinel => exact ⟨fun _ => sentinel, fun _ => rfl⟩
  · next other => exact ⟨nofun, fun sentinel => absurd sentinel other⟩

theorem usedLink_some {c : Nat} (used : usedLink b = some c) : b = c ∧ ¬ (c = fatEoc ∨ c = fatFree) := by
  simp only [usedLink] at used
  split at used
  · cases used
  · next other =>
      obtain rfl := Option.some.inj used
      exact ⟨rfl, other⟩

/-- Setting an entry free erases its link. -/
theorem link_setFat (s : Fs) (b : Nat) : (s.setFat b fatFree).link = ErasingWalk.erase s.link b := by
  funext c
  by_cases same : c = b
  · rw [same, ErasingWalk.erase_self, link, fat_setFat s (by decide), if_pos rfl]
    rfl
  · rw [ErasingWalk.erase_of_ne s.link same, link, link, fat_setFat s (by decide), if_neg same]

theorem not_reached (stops : usedLink start = none) : ¬ s.Reached start b := by
  rw [Reached, stops]
  exact ErasingWalk.not_reaches_none

/-- One turn of the walk leaves the blocks behind its first to be reached. -/
theorem reached_turn (used : usedLink start = some start) :
    s.Reached start b ↔ b = start ∨ (s.setFat start fatFree).Reached (s.fat start) b := by
  rw [Reached, Reached, used, link_setFat]
  exact ErasingWalk.reaches_erase

theorem Frees.nothing (stops : usedLink start = none) : Frees s start s where
  freed _ reached := absurd reached (not_reached stops)
  kept _ _ := rfl

theorem Frees.turn (used : usedLink start = some start)
    (rest : Frees (s.setFat start fatFree) (s.fat start) t) : Frees s start t where
  freed b reached := by
    by_cases later : (s.setFat start fatFree).Reached (s.fat start) b
    · exact rest.freed b later
    · obtain rfl := ((reached_turn used).mp reached).resolve_right later
      rw [rest.kept b later, fat_setFat s (by decide), if_pos rfl]
  kept b away := by
    have apart : b ≠ start := fun same => away ((reached_turn used).mpr (.inl same))
    have later : ¬ (s.setFat start fatFree).Reached (s.fat start) b :=
      fun reached => away ((reached_turn used).mpr (.inr reached))
    rw [rest.kept b later, fat_setFat s (by decide), if_neg apart]

/-- The loop of `free_block_chain` ends with one turn for every link, and one behind the last. -/
theorem freeLoop_frees {links : Finset Nat} {fuel : Nat}
    (mapped : ∀ b, s.Reached start b → s.fatMapped b = true)
    (inside : ∀ b, s.Reached start b → s.link b ≠ none → b ∈ links) (enough : links.card + 2 ≤ fuel) :
    ∃ t, freeLoop fuel start s = some ((), t) ∧ Frees s start t := by
  induction fuel generalizing s start links with
  | zero => omega
  | succ fuel ih =>
      cases used : usedLink start with
      | none =>
          refine ⟨s, ?_, .nothing used⟩
          rw [freeLoop, if_pos (usedLink_none.mp used)]
          rfl
      | some first =>
          obtain ⟨rfl, other⟩ := usedLink_some used
          have here := mapped start ((reached_turn used).mpr (.inl rfl))
          rw [freeLoop, if_neg other]
          rw [Prog.bind_of_run (fatGet_mapped here), Prog.bind_of_run (fatSet_mapped fatFree here)]
          have rest : ∃ t, freeLoop fuel (s.fat start) (s.setFat start fatFree) = some ((), t) ∧
              Frees (s.setFat start fatFree) (s.fat start) t := by
            by_cases linked : s.link start = none
            · refine ⟨_, ?_, .nothing linked⟩
              cases fuel with
              | zero => omega
              | succ fuel =>
                  rw [freeLoop, if_pos (usedLink_none.mp linked)]
                  rfl
            · have inside' : ∀ b, ErasingWalk.Reaches s.link (some start) b → s.link b ≠ none →
                  b ∈ links := by
                intro b reached
                apply inside b
                rw [Reached, used]
                exact reached
              obtain ⟨fewer, left⟩ := ErasingWalk.erase_card inside' linked
              have shorter : (links.erase start).card + 2 ≤ fuel := by omega
              apply ih _ _ shorter
              · exact fun b reached => mapped b ((reached_turn used).mpr (.inr reached))
              · intro b reached more
                rw [Reached, link_setFat] at reached
                rw [link_setFat] at more
                exact left b reached more
          obtain ⟨t, run, frees⟩ := rest
          exact ⟨t, run, frees.turn used⟩

/-- The blocks that can be linked to are less than the turns that `free_block_chain` may take. -/
theorem reached_mem {start b : Nat} (reached : s.Reached start b) :
    b ∈ insert start (Finset.Ico 1 fatEoc) := by
  cases reached with
  | first same =>
      obtain ⟨rfl, _⟩ := usedLink_some same
      exact Finset.mem_insert_self start _
  | @link a _ _ linked =>
      obtain ⟨rfl, other⟩ := usedLink_some linked
      have small := fat_lt s a
      apply Finset.mem_insert_of_mem
      rw [Finset.mem_Ico]
      simp only [fatEoc, fatFree] at other ⊢
      omega

/-- `free_block_chain` ends on every FAT, and frees exactly the blocks reached from its start. -/
theorem freeBlockChain_exact (s : Fs) (fatBlocks start : Nat) (mounted : s.calm.Mounted fatBlocks)
    (valid : ∀ b, s.Reached start b → b < totalEntries s) :
    ∃ t, freeBlockChain start s = some ((), t) ∧ Frees s start t := by
  have few := Finset.card_insert_le start (Finset.Ico 1 fatEoc)
  rw [Nat.card_Ico] at few
  have enough : fatEoc - 1 + 1 + 2 ≤ chainFuel + 1 := by decide
  refine freeLoop_frees ?_ ?_ ((Nat.add_le_add_right few 2).trans enough)
  · exact fun b reached => fatMapped_inside mounted (valid b reached)
  · exact fun b reached _ => reached_mem reached

/-- A volume whose blocks 2 and 3 link to each other. -/
def cyclicVolume : Fs := (blankVolume.setFat 2 3).setFat 3 2

theorem cyclicVolume_reached {b : Nat} (reached : cyclicVolume.Reached 2 b) : b = 2 ∨ b = 3 := by
  induction reached with
  | first same => exact .inl (usedLink_some same).1.symm
  | link _ linked ih =>
      rcases ih with rfl | rfl
      · have next : cyclicVolume.fat 2 = 3 := by decide +kernel
        exact .inr ((usedLink_some linked).1.symm.trans next)
      · have next : cyclicVolume.fat 3 = 2 := by decide +kernel
        exact .inl ((usedLink_some linked).1.symm.trans next)

theorem freeBlockChain_exact_cyclic :
    ∃ t, freeBlockChain 2 cyclicVolume = some ((), t) ∧ Frees cyclicVolume 2 t := by
  apply freeBlockChain_exact cyclicVolume 1 2
  · exact blankVolume_mounted.of_eq rfl rfl rfl rfl rfl rfl rfl rfl
  · intro b reached
    have entries : totalEntries cyclicVolume = 128 := by decide +kernel
    rcases cyclicVolume_reached reached with rfl | rfl
    · rw [entries]
      decide
    · rw [entries]
      decide

end Freeing

section Locating

/-- `locate_block_in_chain` finds the block of an offset, or fails behind the chain, unless the offset
lies in the first block that the chain does not have. -/
theorem locateBlockInChain_exact_iff (s : Fs) (fatBlocks first : Nat) (nodes : List Nat) (offset : Nat)
    (mounted : s.calm.Mounted fatBlocks) (links : Links (nextBlock s.fat) (linkOf first) nodes)
    (inside : ∀ b ∈ nodes, b ≠ fatFree ∧ b < totalEntries s) (some_ : nodes ≠ []) :
    locateBlockInChain first offset s =
        some (nodes[offset / s.gBlockSize]?.map fun b => (b, offset % s.gBlockSize), s) ↔
      offset / s.gBlockSize ≠ nodes.length := by
  have mapped : ∀ b ∈ nodes, s.fatMapped b = true := fun b member =>
    fatMapped_inside mounted (inside b member).2
  have used : ¬ (first = fatFree ∨ first = fatEoc) := by
    cases nodes with
    | nil => exact absurd rfl some_
    | cons node rest =>
        have ends := linkOf_ne links.1
        obtain rfl := linkOf_eq_some links.1
        exact not_or.mpr ⟨(inside first List.mem_cons_self).1, ends⟩
  rw [locateBlockInChain, if_neg used, Prog.get_bind]
  by_cases beyond : nodes.length < offset / s.gBlockSize
  · have behind : nodes[offset / s.gBlockSize]? = none := List.getElem?_eq_none (Nat.le_of_lt beyond)
    rw [Prog.bind_of_run (locateLoop_beyond links mapped beyond), behind]
    exact ⟨fun _ => Nat.ne_of_gt beyond, fun _ => rfl⟩
  · rw [Prog.bind_of_run (locateLoop_run links mapped (Nat.le_of_not_lt beyond))]
    by_cases last : offset / s.gBlockSize = nodes.length
    · have behind : nodes[offset / s.gBlockSize]? = none := List.getElem?_eq_none (Nat.le_of_eq last.symm)
      rw [behind]
      constructor
      · intro same
        cases same
      · intro other
        exact absurd last other
    · have here : offset / s.gBlockSize < nodes.length := by omega
      rw [List.getElem?_eq_getElem here]
      exact ⟨fun _ => last, fun _ => rfl⟩

theorem blankVolume_root : Links (nextBlock blankVolume.fat) (linkOf 1) [1] ∧
    ∀ b ∈ [1], b ≠ fatFree ∧ b < totalEntries blankVolume := by
  have ends : blankVolume.fat 1 = fatEoc := by decide +kernel
  have entries : totalEntries blankVolume = 128 := by decide +kernel
  refine ⟨⟨rfl, ?_⟩, fun b member => ?_⟩
  · rw [nextBlock, ends]
    rfl
  · rw [List.mem_singleton.mp member, entries]
    decide

/-- A chain of the blocks 2, 5 and 3. -/
def scatteredChain : Fs := ((blankVolume.setFat 2 5).setFat 5 3).setFat 3 fatEoc

theorem scatteredChain_links : Links (nextBlock scatteredChain.fat) (linkOf 2) [2, 5, 3] ∧
    ∀ b ∈ [2, 5, 3], b ≠ fatFree ∧ b < totalEntries scatteredChain := by
  have first : scatteredChain.fat 2 = 5 := by decide +kernel
  have second : scatteredChain.fat 5 = 3 := by decide +kernel
  have third : scatteredChain.fat 3 = fatEoc := by decide +kernel
  have entries : totalEntries scatteredChain = 128 := by decide +kernel
  refine ⟨⟨rfl, ?_, ?_, ?_⟩, ?_⟩
  · rw [nextBlock, first]
    rfl
  · rw [nextBlock, second]
    rfl
  · rw [nextBlock, third]
    rfl
  · rw [entries]
    decide

theorem locateBlockInChain_exact_scattered :
    locateBlockInChain 2 700 scatteredChain =
        some ([2, 5, 3][700 / scatteredChain.gBlockSize]?.map fun b => (b, 700 % scatteredChain.gBlockSize),
          scatteredChain) ↔
      700 / scatteredChain.gBlockSize ≠ [2, 5, 3].length :=
  locateBlockInChain_exact_iff scatteredChain 1 2 [2, 5, 3] 700
    (blankVolume_mounted.of_eq rfl rfl rfl rfl rfl rfl rfl rfl) scatteredChain_links.1 scatteredChain_links.2
    (List.cons_ne_nil 2 [5, 3])

/-- The offset of the first byte behind a chain is located in the block `FAT_EOC`. -/
theorem locateBlockInChain_behind :
    ¬ ∀ (s : Fs) (fatBlocks first : Nat) (nodes : List Nat) (offset : Nat), s.calm.Mounted fatBlocks →
      Links (nextBlock s.fat) (linkOf first) nodes →
      (∀ b ∈ nodes, b ≠ fatFree ∧ b < totalEntries s) → nodes ≠ [] →
      locateBlockInChain first offset s =
        some (nodes[offset / s.gBlockSize]?.map fun b => (b, offset % s.gBlockSize), s) := by
  intro finds
  have run := finds blankVolume 1 1 [1] 256 blankVolume_mounted blankVolume_root.1 blankVolume_root.2
    (List.cons_ne_nil 1 [])
  have found : (locateBlockInChain 1 256 blankVolume).map Prod.fst = some (some (fatEoc, 0)) := by
    decide +kernel
  have size : blankVolume.gBlockSize = 256 := by decide +kernel
  rw [run, size] at found
  cases found

end Locating

end PennOs.Fat
