import PennOs.Fat.FailedCreations
import PennOs.Fat.Listings
import PennOs.Fat.PathWalks

set_option autoImplicit false

/- What a lookup reads of the image, on any mounted volume, and which writes it does not notice. -/
namespace PennOs.Fat

open LinkedChain (Along)
open PathWalk
open Fs

namespace Fs

variable (s : Fs)

/-- What `find_entry_in_dir` finds. -/
def looked (d : Nat) (name : List UInt8) : Option ResolvedPath :=
  match findEntryInDir d name s with
  | some (.ok hit, _) => if hit.found then some hit else none
  | _ => none

/-- The directories as they are searched, whatever the image holds. There is no directory where a '..' is
not found. -/
def ways : Tree (Option Nat) (Nat × Nat) (List UInt8) where
  up dir := dir.bind fun d =>
    if d = 1 then some 1 else (s.looked d dotDot).map fun above => above.entry.firstBlock.toNat
  lookup dir name := dir.bind fun d => (s.looked d name).map fun hit =>
    if hit.entry.type = DirEntry.typeDirectory then .inl (some hit.entry.firstBlock.toNat)
    else .inr (hit.entryBlock, hit.entryIndexInBlock.toNat)

/-- The block a loop over a chain goes on with. -/
def onward (b : Nat) : Option Nat :=
  if s.fat b = fatEoc ∨ s.fat b = fatFree then none else some (s.fat b)

/-- The image holds the block. -/
def Stored (b : Nat) : Prop := s.blockOffset b + s.gBlockSize ≤ s.fileSize

/-- Where a search for the name stops in a block. -/
def stop (name : List UInt8) (b : Nat) : Option Nat :=
  scanRow (fun i => s.dirent (b, i)) name s.entriesPerBlock 0

/-- A loop over a chain reads the block and the FAT entry behind it. -/
structure Read (b : Nat) : Prop where
  stored : s.Stored b
  mapped : s.fatMapped b = true

/-- A search for the name goes on behind the block. -/
structure Passed (name : List UInt8) (b : Nat) : Prop extends s.Read b where
  missing : s.stop name b = none

/-- There is no free slot in the block. -/
structure Full (b : Nat) : Prop extends s.Read b where
  full : freeSlot (s.block b) s.entriesPerBlock = none

/-- A lookup of the name in the directory comes to the block. -/
def Visits (d : Nat) (name : List UInt8) (b : Nat) : Prop := ∃ count, Along s.onward (s.Passed name) b d count

end Fs

variable {s t u : Fs} {k b d i cur fuel : Nat} {name : List UInt8} {p : Nat × Nat} {hit : ResolvedPath}

section Loops

theorem onward_some {after : Nat} (link : s.onward b = some after) :
    s.fat b = after ∧ ¬ (after = fatEoc ∨ after = fatFree) := by
  rw [onward] at link
  split at link
  · cases link
  · next proper =>
      cases link
      exact ⟨rfl, proper⟩

theorem onward_none : s.onward b = none ↔ s.fat b = fatEoc ∨ s.fat b = fatFree := by
  rw [onward]
  split
  · next ends => exact ⟨fun _ => ends, fun _ => rfl⟩
  · next proper => exact ⟨by rintro ⟨⟩, fun ends => absurd ends proper⟩

theorem onward_of_proper (proper : ¬ (s.fat b = fatEoc ∨ s.fat b = fatFree)) : s.onward b = some (s.fat b) :=
  if_neg proper

theorem stop_eq (s : Fs) (name : List UInt8) (b : Nat) :
    scanBlock (s.block b) name s.entriesPerBlock 0 = s.stop name b := scanBlock_eq fun _ _ _ => rfl

variable (mounted : s.Mounted k)

include mounted

theorem readBlock_stored_iff (b : Nat) :
    (s.Stored b → readBlock b s = some (some (s.block b), s)) ∧
    (¬ s.Stored b → readBlock b s = some (none, s)) := by
  constructor
  · intro stored
    exact readBlock_stored mounted stored
  · intro missing
    rw [readBlock_mounted mounted b]
    exact congrArg (fun read => some (read, s)) (if_neg missing)

/-- A search finds the name where it comes to it. -/
theorem findLoop_found_iff {e : DirEntry} : findLoop name fuel cur s = some (.ok (some (b, i, e)), s) ↔
    ¬ (cur = fatEoc ∨ cur = fatFree) ∧ (∃ count < fuel, Along s.onward (s.Passed name) b cur count) ∧
      s.Stored b ∧ s.stop name b = some i ∧ e = s.dirent (b, i) := by
  induction fuel generalizing cur with
  | zero =>
      constructor
      · rintro ⟨⟩
      · rintro ⟨_, ⟨count, less, _⟩, _⟩
        omega
  | succ fuel ih =>
      unfold findLoop
      by_cases ended : cur = fatEoc ∨ cur = fatFree
      · rw [if_pos ended]
        constructor
        · rintro ⟨⟩
        · intro holds
          exact absurd ended holds.1
      rw [if_neg ended]
      by_cases stored : s.Stored cur
      swap
      · rw [Prog.bind_of_run ((readBlock_stored_iff mounted cur).2 stored)]
        constructor
        · rintro ⟨⟩
        · rintro ⟨_, ⟨count, _, along⟩, stored', _⟩
          cases along with
          | here => exact absurd stored' stored
          | on passed => exact absurd passed.stored stored
      rw [Prog.bind_of_run ((readBlock_stored_iff mounted cur).1 stored)]
      simp only [Prog.get_bind, stop_eq]
      cases stops : s.stop name cur with
      | some j =>
          constructor
          · intro run
            cases run
            exact ⟨ended, ⟨0, Nat.succ_pos _, .here⟩, stored, stops, rfl⟩
          · rintro ⟨_, ⟨count, _, along⟩, _, stops', rfl⟩
            cases along with
            | here =>
                cases stops.symm.trans stops'
                rfl
            | on passed => exact absurd (stops.symm.trans passed.missing) (by rintro ⟨⟩)
      | none =>
          have rest : (findLoop name fuel (s.fat cur) s = some (.ok (some (b, i, e)), s) ∧
            s.fatMapped cur = true) ↔
              ¬ (cur = fatEoc ∨ cur = fatFree) ∧
                (∃ count < fuel + 1, Along s.onward (s.Passed name) b cur count) ∧
                s.Stored b ∧ s.stop name b = some i ∧ e = s.dirent (b, i) := by
            rw [ih]
            constructor
            · rintro ⟨⟨proper, ⟨count, less, along⟩, stored', stops', entry⟩, mapped⟩
              exact ⟨ended, ⟨count + 1, by omega, .on ⟨⟨stored, mapped⟩, stops⟩ (onward_of_proper proper) along⟩,
                stored', stops', entry⟩
            · rintro ⟨_, ⟨count, less, along⟩, stored', stops', entry⟩
              cases along with
              | here => exact absurd (stops.symm.trans stops') (by rintro ⟨⟩)
              | @on _ after count passed link along =>
                  obtain ⟨rfl, proper⟩ := onward_some link
                  exact ⟨⟨proper, ⟨count, by omega, along⟩, stored', stops', entry⟩, passed.mapped⟩
          rw [← rest]
          by_cases mapped : s.fatMapped cur = true
          · simp only [Prog.bind_of_run (fatGet_mapped mapped), mapped, and_true]
          · have fault : fatGet cur s = none := by rw [fatGet, if_neg mapped]
            simp only [Prog.bind_of_fault fault, mapped, and_false, reduceCtorEq]

/-- A search that finds nothing comes past all blocks of the chain. -/
theorem findLoop_missing (proper : ¬ (cur = fatEoc ∨ cur = fatFree))
    (run : findLoop name fuel cur s = some (.ok none, t)) {count : Nat}
    (along : Along s.onward (fun _ => True) b cur count) : s.Passed name b := by
  induction fuel generalizing cur count with
  | zero => cases run
  | succ fuel ih =>
      unfold findLoop at run
      rw [if_neg proper] at run
      by_cases stored : s.Stored cur
      swap
      · rw [Prog.bind_of_run ((readBlock_stored_iff mounted cur).2 stored)] at run
        cases run
      rw [Prog.bind_of_run ((readBlock_stored_iff mounted cur).1 stored)] at run
      simp only [Prog.get_bind, stop_eq] at run
      cases stops : s.stop name cur with
      | some j =>
          rw [stops] at run
          cases run
      | none =>
          rw [stops] at run
          by_cases mapped : s.fatMapped cur = true
          swap
          · have fault : fatGet cur s = none := by rw [fatGet, if_neg mapped]
            simp only [Prog.bind_of_fault fault, reduceCtorEq] at run
          simp only [Prog.bind_of_run (fatGet_mapped mapped)] at run
          cases along with
          | here => exact ⟨⟨stored, mapped⟩, stops⟩
          | on _ link along =>
              obtain ⟨rfl, proper'⟩ := onward_some link
              exact ih proper' run along

/-- The first free slot of the chain. -/
theorem findSlotLoop_slot (run : findSlotLoop fuel cur s = some (.ok (some p), t)) :
    ¬ (cur = fatEoc ∨ cur = fatFree) ∧ (∃ count < fuel, Along s.onward s.Full p.1 cur count) ∧
      s.Stored p.1 ∧ freeSlot (s.block p.1) s.entriesPerBlock = some p.2 := by
  induction fuel generalizing cur with
  | zero => cases run
  | succ fuel ih =>
      unfold findSlotLoop at run
      split at run
      · cases run
      next proper =>
      by_cases stored : s.Stored cur
      swap
      · rw [Prog.bind_of_run ((readBlock_stored_iff mounted cur).2 stored)] at run
        cases run
      rw [Prog.bind_of_run ((readBlock_stored_iff mounted cur).1 stored)] at run
      simp only [Prog.get_bind] at run
      cases slot : freeSlot (s.block cur) s.entriesPerBlock with
      | some j =>
          rw [slot] at run
          cases run
          exact ⟨proper, ⟨0, Nat.succ_pos _, .here⟩, stored, slot⟩
      | none =>
          rw [slot] at run
          by_cases mapped : s.fatMapped cur = true
          swap
          · have fault : fatGet cur s = none := by rw [fatGet, if_neg mapped]
            simp only [Prog.bind_of_fault fault, reduceCtorEq] at run
          simp only [Prog.bind_of_run (fatGet_mapped mapped)] at run
          obtain ⟨proper', ⟨count, less, along⟩, found⟩ := ih run
          exact ⟨proper, ⟨count + 1, by omega, .on ⟨⟨stored, mapped⟩, slot⟩ (onward_of_proper proper') along⟩, found⟩

/-- Without a free slot the loop comes to the end of the chain. -/
theorem findSlotLoop_none (proper : ¬ (cur = fatEoc ∨ cur = fatFree))
    (run : findSlotLoop fuel cur s = some (.ok none, t)) :
    ∃ count last, count + 1 < fuel ∧ Along s.onward s.Full last cur count ∧ s.Full last ∧
      s.onward last = none := by
  induction fuel generalizing cur with
  | zero => cases run
  | succ fuel ih =>
      unfold findSlotLoop at run
      rw [if_neg proper] at run
      by_cases stored : s.Stored cur
      swap
      · rw [Prog.bind_of_run ((readBlock_stored_iff mounted cur).2 stored)] at run
        cases run
      rw [Prog.bind_of_run ((readBlock_stored_iff mounted cur).1 stored)] at run
      simp only [Prog.get_bind] at run
      cases slot : freeSlot (s.block cur) s.entriesPerBlock with
      | some j =>
          rw [slot] at run
          cases run
      | none =>
          rw [slot] at run
          by_cases mapped : s.fatMapped cur = true
          swap
          · have fault : fatGet cur s = none := by rw [fatGet, if_neg mapped]
            simp only [Prog.bind_of_fault fault, reduceCtorEq] at run
          simp only [Prog.bind_of_run (fatGet_mapped mapped)] at run
          have full : s.Full cur := ⟨⟨stored, mapped⟩, slot⟩
          by_cases ended : s.fat cur = fatEoc ∨ s.fat cur = fatFree
          · refine ⟨0, cur, ?_, .here, full, (onward_none).mpr ended⟩
            cases fuel with
            | zero => cases run
            | succ fuel => omega
          · obtain ⟨count, last, less, along, found⟩ := ih ended run
            exact ⟨count + 1, last, by omega, .on full (onward_of_proper ended) along, found⟩

omit mounted in
theorem lastInChain_along (used : ∀ x count, Along s.onward (fun _ => True) x cur count → s.fat x ≠ fatFree)
    {last : Nat} (run : lastInChain fuel cur s = some (last, t)) :
    ∃ count, Along s.onward (fun _ => True) last cur count := by
  induction fuel generalizing cur with
  | zero => cases run
  | succ fuel ih =>
      unfold lastInChain at run
      by_cases mapped : s.fatMapped cur = true
      swap
      · have fault : fatGet cur s = none := by rw [fatGet, if_neg mapped]
        rw [Prog.bind_of_fault fault] at run
        cases run
      rw [Prog.bind_of_run (fatGet_mapped mapped)] at run
      split at run
      · cases run
        exact ⟨0, .here⟩
      · next more =>
          have proper : ¬ (s.fat cur = fatEoc ∨ s.fat cur = fatFree) := not_or.mpr ⟨more, used cur 0 .here⟩
          have link := onward_of_proper proper
          obtain ⟨count, along⟩ := ih (fun x count along => used x (count + 1) (.on trivial link along)) run
          exact ⟨count + 1, .on trivial link along⟩

end Loops

section Rows

variable {row row' : Nat → DirEntry} {count index j : Nat}
  (others : ∀ j, index ≤ j → j < index + count → j ≠ i → row' j = row j)

include others

/-- A search goes past an entry with another name in a slot that was free. -/
theorem scanRow_keeps (dead : (row i).live = false) (live : (row' i).live = true)
    (other : (row' i).cName ≠ name)
    (found : scanRow row name count index = some j) : scanRow row' name count index = some j := by
  induction count generalizing index with
  | zero => cases found
  | succ count ih =>
      have later : scanRow row name count (index + 1) = some j →
        scanRow row' name count (index + 1) = some j :=
        ih fun j low high => others j (by omega) (by omega)
      simp only [scanRow] at found ⊢
      by_cases here : index = i
      · subst here
        obtain ⟨some_, skip, skip'⟩ := DirEntry.live_iff.mp live
        have passed : ¬ (row' index).name0 = 0 ∧ ¬ ((row' index).name0 = 1 ∨ (row' index).name0 = 2) :=
          ⟨some_, not_or.mpr ⟨skip, skip'⟩⟩
        rw [if_neg passed.1, if_neg passed.2, if_neg other]
        by_cases ends : (row index).name0 = 0
        · rw [if_pos ends] at found
          cases found
        rw [if_neg ends] at found
        by_cases deleted : (row index).name0 = 1 ∨ (row index).name0 = 2
        · rw [if_pos deleted] at found
          exact later found
        · obtain ⟨first, second⟩ := not_or.mp deleted
          rw [DirEntry.live_iff.mpr ⟨ends, first, second⟩] at dead
          cases dead
      · rw [others index (Nat.le_refl _) (by omega) here]
        split at found
        · cases found
        next proper =>
        rw [if_neg proper]
        split at found
        · next skipped =>
            rw [if_pos skipped]
            exact later found
        next kept =>
        rw [if_neg kept]
        split at found
        · next named =>
            rw [if_pos named]
            exact found
        · next unnamed =>
            rw [if_neg unnamed]
            exact later found

/-- Behind the slot nothing comes in sight. -/
theorem scanRow_stays_none (live : (row' i).live = true) (other : (row' i).cName ≠ name)
    (behind : index ≤ i → i < index + count → scanRow row name (index + count - (i + 1)) (i + 1) = none)
    (missing : scanRow row name count index = none) : scanRow row' name count index = none := by
  induction count generalizing index with
  | zero => rfl
  | succ count ih =>
      have later : (index < i ∨ i < index → scanRow row name count (index + 1) = none) →
          index ≠ i → scanRow row' name count (index + 1) = none := by
        intro none apart
        refine ih (fun j low high => others j (by omega) (by omega)) (fun low high => ?_) (none (by omega))
        have same : index + (count + 1) - (i + 1) = index + 1 + count - (i + 1) := by omega
        rw [← same]
        exact behind (by omega) (by omega)
      simp only [scanRow] at missing ⊢
      by_cases here : index = i
      · subst here
        obtain ⟨some_, skip, skip'⟩ := DirEntry.live_iff.mp live
        have passed : ¬ (row' index).name0 = 0 ∧ ¬ ((row' index).name0 = 1 ∨ (row' index).name0 = 2) :=
          ⟨some_, not_or.mpr ⟨skip, skip'⟩⟩
        rw [if_neg passed.1, if_neg passed.2, if_neg other]
        have rest := behind (Nat.le_refl _) (by omega)
        have same : index + (count + 1) - (index + 1) = count := by omega
        rw [same] at rest
        rw [← rest]
        exact scanRow_congr fun j low high => others j (by omega) (by omega) (by omega)
      · rw [others index (Nat.le_refl _) (by omega) here]
        split
        · rfl
        next proper =>
        rw [if_neg proper] at missing
        split
        · next skipped =>
            rw [if_pos skipped] at missing
            exact later (fun _ => missing) here
        next kept =>
        rw [if_neg kept] at missing
        split
        · next named =>
            rw [if_pos named] at missing
            cases missing
        · next unnamed =>
            rw [if_neg unnamed] at missing
            exact later (fun _ => missing) here

omit others in
/-- A search stops at the first entry with its name. -/
theorem scanRow_stops (low : index ≤ i) (high : i < index + count) (live : (row i).live = true)
    (named : (row i).cName = name) (before : ∀ j, index ≤ j → j < i → (row j).name0 ≠ 0 ∧
      ((row j).live = true → (row j).cName ≠ name)) : scanRow row name count index = some i := by
  induction count generalizing index with
  | zero => omega
  | succ count ih =>
      simp only [scanRow]
      by_cases here : index = i
      · subst here
        obtain ⟨some_, skip, skip'⟩ := DirEntry.live_iff.mp live
        rw [if_neg some_, if_neg (not_or.mpr ⟨skip, skip'⟩), if_pos named]
      · obtain ⟨proper, other⟩ := before index (Nat.le_refl _) (by omega)
        have later : scanRow row name count (index + 1) = some i :=
          ih (by omega) (by omega) fun j low high => before j (by omega) high
        rw [if_neg proper]
        split
        · exact later
        · next kept =>
            obtain ⟨first, second⟩ := not_or.mp kept
            rw [if_neg (other (DirEntry.live_iff.mpr ⟨proper, first, second⟩))]
            exact later

end Rows

section Finding

theorem findLoop_error {err : PennFatErr} (run : findLoop name fuel cur s = some (.error err, t)) :
    err = .io := by
  induction fuel generalizing s cur with
  | zero => cases run
  | succ fuel ih =>
      unfold findLoop at run
      split at run
      · cases run
      obtain ⟨read, u, _, run⟩ := Prog.bind_inv run
      cases read with
      | none =>
          cases run
          rfl
      | some buf =>
          simp only [Prog.get_bind] at run
          cases scan : scanBlock buf name u.entriesPerBlock 0 with
          | some index =>
              rw [scan] at run
              cases run
          | none =>
              rw [scan] at run
              obtain ⟨next, v, _, run⟩ := Prog.bind_inv run
              exact ih run

theorem findEntryInDir_error {err : PennFatErr} (run : findEntryInDir d name s = some (.error err, t)) :
    ¬ (err = .ok ∨ err = .notdir) := by
  unfold findEntryInDir at run
  split at run
  · cases run
    decide
  obtain ⟨room, u, _, run⟩ := Prog.bind_inv run
  split at run
  · cases run
    decide
  obtain ⟨found, v, loop, run⟩ := Prog.bind_inv run
  rcases found with other | _ | hit
  · cases run
    rw [findLoop_error loop]
    decide
  · cases run
  · cases run

theorem looked_of_run (run : findEntryInDir d name s = some (.ok hit, t)) (found : hit.found = true) :
    s.looked d name = some hit := by
  rw [looked, run]
  exact if_pos found

variable (mounted : s.Mounted k)

include mounted

theorem looked_run (found : s.looked d name = some hit) :
    findEntryInDir d name s = some (.ok hit, s) ∧ hit.found = true := by
  rw [looked] at found
  split at found
  · next hit' t run =>
      split at found
      · next isFound =>
          cases found
          have stays : t = s := (findEntryInDir_host d name _ _ _ run).eq mounted.host
          exact ⟨stays ▸ run, isFound⟩
      · cases found
  · cases found

/-- A lookup finds what its search of the chain finds. -/
theorem looked_iff : s.looked d name = some hit ↔ ¬ (d = fatEoc ∨ d = fatFree) ∧ ∃ b i,
    (∃ count ≤ chainFuel, Along s.onward (s.Passed name) b d count) ∧ s.Stored b ∧ s.stop name b = some i ∧
      hit = ⟨true, false, s.dirent (b, i), b, (i : Nat), d⟩ := by
  have loop {b i : Nat} := @findLoop_found_iff s k b i d (chainFuel + 1) name mounted (s.dirent (b, i))
  constructor
  · intro found
    obtain ⟨run, isFound⟩ := looked_run mounted found
    unfold findEntryInDir at run
    split at run
    · cases run
    rw [Prog.bind_of_run (malloc_run mounted.host), if_neg (by decide)] at run
    obtain ⟨result, t, search, run⟩ := Prog.bind_inv run
    obtain rfl : t = s := (findLoop_host name _ d _ _ _ search).eq mounted.host
    rcases result with err | _ | ⟨b, i, e⟩
    · cases run
    · cases run
      cases isFound
    · cases run
      obtain ⟨proper, ⟨count, less, along⟩, stored, stops, rfl⟩ := (findLoop_found_iff mounted).mp search
      exact ⟨proper, b, i, ⟨count, by omega, along⟩, stored, stops, rfl⟩
  · rintro ⟨proper, b, i, ⟨count, less, along⟩, stored, stops, rfl⟩
    have search := (loop).mpr ⟨proper, ⟨count, by omega, along⟩, stored, stops, rfl⟩
    have proper' : ¬ (d = fatFree ∨ d = fatEoc) := fun ends => proper ends.symm
    have run : findEntryInDir d name s =
        some (.ok ⟨true, false, s.dirent (b, i), b, (i : Nat), d⟩, s) := by
      rw [findEntryInDir, if_neg proper', Prog.bind_of_run (malloc_run mounted.host), if_neg (by decide),
        Prog.bind_of_run search]
      rfl
    rw [looked, run]
    rfl

theorem looked_named (found : s.looked d name = some hit) :
    hit.entry.live = true ∧ hit.entry.cName = name := by
  obtain ⟨_, b, i, _, _, stops, rfl⟩ := (looked_iff mounted).mp found
  obtain ⟨_, _, live, named, _⟩ := scanRow_some stops
  exact ⟨live, named⟩

/-- A lookup that does not find the name comes past the whole chain. -/
theorem looked_missing (proper : ¬ (d = fatEoc ∨ d = fatFree)) {result : ResolvedPath}
    (run : findEntryInDir d name s = some (.ok result, t)) (missing : result.found = false) :
    ∀ b count, Along s.onward (fun _ => True) b d count → s.Passed name b := by
  unfold findEntryInDir at run
  rw [if_neg fun ends => proper ends.symm, Prog.bind_of_run (malloc_run mounted.host), if_neg
    (by decide)] at run
  obtain ⟨searched, u, search, run⟩ := Prog.bind_inv run
  rcases searched with err | _ | ⟨b, i, e⟩
  · cases run
  · exact fun b count along => findLoop_missing mounted proper search along
  · cases run
    cases missing

end Finding

end PennOs.Fat
