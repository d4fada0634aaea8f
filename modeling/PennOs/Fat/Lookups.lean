import PennOs.Fat.DirectoryRuns

set_option autoImplicit false

/- Looking an entry up in a directory, on a well-formed image. -/
namespace PennOs.Fat

open LinkedChain (Links)
open Fs

/-- `scanBlock` on the entries of a block. -/
def scanRow (row : Nat → DirEntry) (name : List UInt8) : Nat → Nat → Option Nat
  | 0, _ => none
  | count + 1, index =>
      if (row index).name0 = 0 then none
      else if (row index).name0 = 1 ∨ (row index).name0 = 2 then scanRow row name count (index + 1)
      else if (row index).cName = name then some index
      else scanRow row name count (index + 1)

namespace Image

/-- The slot a search of the blocks of a directory stops at. -/
def find (I : Image) (name : List UInt8) : List Nat → Option (Nat × Nat)
  | [] => none
  | b :: rest =>
      match scanRow (I.slot b) name I.slots 0 with
      | some i => some (b, i)
      | none => find I name rest

/-- The result of `resolve_path` for the slot `p` of the directory `d`. -/
def foundAt (I : Image) (d : Nat) (p : Nat × Nat) : ResolvedPath where
  found := true
  isRoot := false
  entry := I.slot p.1 p.2
  entryBlock := p.1
  entryIndexInBlock := p.2
  parentDirBlock := d

end Image

variable {s : Fs} {I J : Image} {current d : Nat} {p : Nat × Nat} {nodes : List Nat}
  {name : List UInt8} {row row' : Nat → DirEntry} {count index i k : Nat}

section Rows

theorem scanBlock_eq {buf : Buffer}
    (rows : ∀ i, index ≤ i → i < index + count → direntAt buf i = row i) :
    scanBlock buf name count index = scanRow row name count index := by
  induction count generalizing index with
  | zero => rfl
  | succ count ih =>
      have here := rows index (Nat.le_refl _) (by omega)
      have later : scanBlock buf name count (index + 1) = scanRow row name count (index + 1) :=
        ih fun i low high => rows i (by omega) (by omega)
      simp only [scanBlock, scanRow, here, later]

theorem scanRow_congr (same : ∀ i, index ≤ i → i < index + count → row' i = row i) :
    scanRow row' name count index = scanRow row name count index := by
  induction count generalizing index with
  | zero => rfl
  | succ count ih =>
      have here := same index (Nat.le_refl _) (by omega)
      have later : scanRow row' name count (index + 1) = scanRow row name count (index + 1) :=
        ih fun i low high => same i (by omega) (by omega)
      simp only [scanRow, here, later]

theorem scanRow_some {found : Nat} (result : scanRow row name count index = some found) :
    index ≤ found ∧ found < index + count ∧ (row found).live = true ∧ (row found).cName = name ∧
      ∀ j, index ≤ j → j < found → (row j).name0 ≠ 0 := by
  induction count generalizing index with
  | zero => cases result
  | succ count ih =>
      simp only [scanRow] at result
      by_cases ends : (row index).name0 = 0
      · simp [ends] at result
      simp only [ends, ↓reduceIte] at result
      have later : scanRow row name count (index + 1) = some found →
          index ≤ found ∧ found < index + (count + 1) ∧ (row found).live = true ∧
            (row found).cName = name ∧ ∀ j, index ≤ j → j < found → (row j).name0 ≠ 0 := by
        intro rest
        obtain ⟨low, high, live, same, before⟩ := ih rest
        refine ⟨by omega, by omega, live, same, fun j from_ upTo => ?_⟩
        by_cases first : j = index
        · rw [first]
          exact ends
        · exact before j (by omega) upTo
      by_cases dead : (row index).name0 = 1 ∨ (row index).name0 = 2
      · simp only [dead, ↓reduceIte] at result
        exact later result
      · simp only [dead, ↓reduceIte] at result
        by_cases same : (row index).cName = name
        · simp only [same, ↓reduceIte, Option.some.injEq] at result
          subst result
          have live : (row index).live = true := by
            rw [DirEntry.live_iff]
            exact ⟨ends, fun one => dead (.inl one), fun two => dead (.inr two)⟩
          exact ⟨Nat.le_refl _, by omega, live, same, fun j from_ upTo => by omega⟩
        · simp only [same, ↓reduceIte] at result
          exact later result

theorem scanRow_none (result : scanRow row name count index = none) (low : index ≤ i)
    (high : i < index + count) (live : (row i).live = true) (same : (row i).cName = name) :
    ∃ j, index ≤ j ∧ j < i ∧ (row j).name0 = 0 := by
  induction count generalizing index with
  | zero => omega
  | succ count ih =>
      simp only [scanRow] at result
      have alive := DirEntry.live_iff.mp live
      by_cases ends : (row index).name0 = 0
      · refine ⟨index, Nat.le_refl _, ?_, ends⟩
        rcases Nat.lt_or_eq_of_le low with less | rfl
        · exact less
        · exact absurd ends alive.1
      have later : scanRow row name count (index + 1) = none → index ≠ i →
          ∃ j, index ≤ j ∧ j < i ∧ (row j).name0 = 0 := by
        intro rest other
        obtain ⟨j, from_, upTo, empty⟩ := ih rest (by omega) (by omega)
        exact ⟨j, by omega, upTo, empty⟩
      simp only [ends, ↓reduceIte] at result
      by_cases dead : (row index).name0 = 1 ∨ (row index).name0 = 2
      · simp only [dead, ↓reduceIte] at result
        refine later result ?_
        rintro rfl
        exact dead.elim alive.2.1 alive.2.2
      · simp only [dead, ↓reduceIte] at result
        by_cases here : (row index).cName = name
        · simp [here] at result
        · simp only [here, ↓reduceIte] at result
          refine later result ?_
          rintro rfl
          exact here same

/-- Entries that are not live are passed over. -/
theorem scanRow_dead (dead : ∀ i, index ≤ i → i < index + count → (row i).live = false) :
    scanRow row name count index = none := by
  cases result : scanRow row name count index with
  | none => rfl
  | some found =>
      obtain ⟨low, high, live, _⟩ := scanRow_some result
      rw [dead found low high] at live
      cases live

/-- A slot that was free gets an entry: a search stops there or where it stopped before. -/
theorem scanRow_add (others : ∀ i ≠ k, row' i = row i) (dead : (row k).live = false)
    (dense : ∀ i j, i < j → j < index + count → (row i).name0 = 0 → (row j).live = false)
    (visible : (row' k).name0 ≠ 0) :
    scanRow row' name count index = scanRow row name count index ∨
      scanRow row' name count index = some k := by
  induction count generalizing index with
  | zero => exact .inl rfl
  | succ count ih =>
      have later : scanRow row' name count (index + 1) = scanRow row name count (index + 1) ∨
          scanRow row' name count (index + 1) = some k :=
        ih fun i j less inside => dense i j less (by omega)
      by_cases here : index = k
      · subst here
        have after : scanRow row name (count + 1) index = scanRow row name count (index + 1) := by
          simp only [scanRow]
          by_cases ends : (row index).name0 = 0
          · rw [if_pos ends, scanRow_dead]
            exact fun i low high => dense index i (by omega) (by omega) ends
          · rw [if_neg ends, if_pos]
            simp only [DirEntry.live, Bool.and_eq_false_iff, bne_eq_false_iff_eq] at dead
            tauto
        rw [after]
        simp only [scanRow, visible, ↓reduceIte]
        split
        · exact later
        · split
          · exact .inr rfl
          · exact later
      · have same := others index here
        simp only [scanRow, same]
        split
        · exact .inl rfl
        · split
          · exact later
          · split
            · exact .inl rfl
            · exact later

end Rows

section Searches

theorem find_some (found : I.find name nodes = some p) :
    p.1 ∈ nodes ∧ p.2 < I.slots ∧ (I.slot p.1 p.2).live = true ∧ (I.slot p.1 p.2).cName = name ∧
      ∀ j < p.2, (I.slot p.1 j).name0 ≠ 0 := by
  induction nodes with
  | nil => cases found
  | cons b rest ih =>
      simp only [Image.find] at found
      cases scan : scanRow (I.slot b) name I.slots 0 with
      | none =>
          rw [scan] at found
          obtain ⟨member, more⟩ := ih found
          exact ⟨List.mem_cons_of_mem _ member, more⟩
      | some i =>
          rw [scan] at found
          cases found
          obtain ⟨_, inside, live, same, before⟩ := scanRow_some scan
          exact ⟨List.mem_cons_self, by omega, live, same, fun j less => before j (Nat.zero_le j) less⟩

theorem find_none (missing : I.find name nodes = none) {b : Nat} (member : b ∈ nodes)
    (inside : i < I.slots) (live : (I.slot b i).live = true) (same : (I.slot b i).cName = name) :
    ∃ j < i, (I.slot b j).name0 = 0 := by
  induction nodes with
  | nil => cases member
  | cons x rest ih =>
      simp only [Image.find] at missing
      cases scan : scanRow (I.slot x) name I.slots 0 with
      | some i =>
          rw [scan] at missing
          cases missing
      | none =>
          rw [scan] at missing
          rcases List.mem_cons.mp member with rfl | later
          · obtain ⟨j, _, less, empty⟩ := scanRow_none scan (Nat.zero_le i) (by omega) live same
            exact ⟨j, less, empty⟩
          · exact ih missing later

theorem find_append (I : Image) (name : List UInt8) (nodes more : List Nat) :
    I.find name (nodes ++ more) = (I.find name nodes).or (I.find name more) := by
  induction nodes with
  | nil => rfl
  | cons b rest ih =>
      simp only [List.cons_append, Image.find]
      cases scanRow (I.slot b) name I.slots 0 with
      | some i => rfl
      | none => exact ih

theorem find_congr (slots : J.slots = I.slots)
    (rows : ∀ b ∈ nodes, ∀ i < I.slots, J.slot b i = I.slot b i) :
    J.find name nodes = I.find name nodes := by
  induction nodes with
  | nil => rfl
  | cons b rest ih =>
      have later := ih fun x member => rows x (List.mem_cons_of_mem _ member)
      have here : scanRow (J.slot b) name I.slots 0 = scanRow (I.slot b) name I.slots 0 :=
        scanRow_congr fun i _ inside => rows b List.mem_cons_self i (by omega)
      simp only [Image.find, slots, here, later]

/-- Of the blocks a directory grew by, only the new entry may be found. -/
theorem find_only (dead : ∀ b ∈ nodes, ∀ i < I.slots, (b, i) ≠ p → (I.slot b i).live = false) :
    I.find name nodes = none ∨ I.find name nodes = some p := by
  cases result : I.find name nodes with
  | none => exact .inl rfl
  | some q =>
      obtain ⟨member, inside, live, _⟩ := find_some result
      right
      by_cases same : q = p
      · rw [same]
      · rw [dead q.1 member q.2 inside same] at live
        cases live

/-- An entry in a slot that was free: a search stops there or where it stopped before. -/
theorem find_add {e : DirEntry} (dead : (I.slot p.1 p.2).live = false) (visible : e.name0 ≠ 0)
    (dense : ∀ b ∈ nodes, ∀ i j, i < j → j < I.slots → (I.slot b i).name0 = 0 →
      (I.slot b j).live = false) :
    (I.setSlot p e).find name nodes = I.find name nodes ∨
      (I.setSlot p e).find name nodes = some p := by
  induction nodes with
  | nil => exact .inl rfl
  | cons b rest ih =>
      have later := ih fun x member => dense x (List.mem_cons_of_mem _ member)
      have scan : scanRow ((I.setSlot p e).slot b) name I.slots 0 = scanRow (I.slot b) name I.slots 0 ∨
          (b = p.1 ∧ scanRow ((I.setSlot p e).slot b) name I.slots 0 = some p.2) := by
        by_cases here : b = p.1
        · subst here
          have row : (I.setSlot p e).slot p.1 p.2 = e := I.setSlot_self p e
          have scan : scanRow ((I.setSlot p e).slot p.1) name I.slots 0 =
            scanRow (I.slot p.1) name I.slots 0 ∨
              scanRow ((I.setSlot p e).slot p.1) name I.slots 0 = some p.2 :=
            scanRow_add
              (fun i other => I.setSlot_ne (q := (p.1, i)) e fun same => other (congrArg Prod.snd same))
              dead (fun i j less inside => dense p.1 List.mem_cons_self i j less (by omega))
              (row.symm ▸ visible)
          rcases scan with same | new
          · exact .inl same
          · exact .inr ⟨rfl, new⟩
        · have row : (I.setSlot p e).slot b = I.slot b := I.setRow_ne _ here
          rw [row]
          exact .inl rfl
      show (match scanRow ((I.setSlot p e).slot b) name I.slots 0 with
          | some i => some (b, i)
          | none => (I.setSlot p e).find name rest) =
        (match scanRow (I.slot b) name I.slots 0 with
          | some i => some (b, i)
          | none => I.find name rest) ∨ _
      rcases scan with same | ⟨here, new⟩
      · rw [same]
        show _ ∨ (match scanRow ((I.setSlot p e).slot b) name I.slots 0 with
          | some i => some (b, i)
          | none => (I.setSlot p e).find name rest) = some p
        rw [same]
        cases scanRow (I.slot b) name I.slots 0 with
        | some i => exact .inl rfl
        | none => exact later
      · right
        show (match scanRow ((I.setSlot p e).slot b) name I.slots 0 with
          | some i => some (b, i)
          | none => (I.setSlot p e).find name rest) = some p
        rw [new, here]

/-- After an entry was added, a search finds it or what it found before. -/
theorem Added.find_eq {t : Fs} {e : DirEntry} (added : Added s t I J d e p) (good : J.Wf)
    (wf : I.Wf) (dense : I.Dense) (visible : e.name0 ≠ 0) {d' : Nat} (here : I.dirs d') :
    (J.setSlot p e).find name (J.chain d') = I.find name (I.chain d') ∨
      ((J.setSlot p e).find name (J.chain d') = some p ∧ d' = d) := by
  have grows := added.grows
  have rows : ∀ b ∈ I.chain d', J.slot b = I.slot b := fun b member => grows.rows d' b member
  have old : J.find name (I.chain d') = I.find name (I.chain d') :=
    find_congr grows.slots fun b member i _ => by rw [rows b member]
  by_cases same : d' = d
  · subst same
    obtain ⟨extra, shape⟩ := grows.front d'
    have apart : ∀ b ∈ extra, b ∉ I.chain d' := by
      have nodup := (good.chains.links d').nodup
      rw [← shape] at nodup
      exact fun b more member => (List.nodup_append.mp nodup).2.2 b member b more rfl
    have dead : (J.slot p.1 p.2).live = false := DirEntry.live_of_reusable added.free
    have first : (J.setSlot p e).find name (I.chain d') = J.find name (I.chain d') ∨
        (J.setSlot p e).find name (I.chain d') = some p := by
      refine find_add dead visible fun b member i j less inside ends => ?_
      rw [rows b member] at ends ⊢
      exact dense d' here b member i j less (grows.slots ▸ inside) ends
    have second : (J.setSlot p e).find name extra = none ∨ (J.setSlot p e).find name extra = some p := by
      refine find_only fun b member i inside other => ?_
      have row : (J.setSlot p e).slot b i = J.slot b i := J.setSlot_ne (q := (b, i)) e other
      rw [row]
      by_contra live
      have place : J.At d' (b, i) :=
        ⟨grows.dirs ▸ here, shape ▸ List.mem_append_right _ member, inside⟩
      exact apart b member (grows.empty d' (b, i) place (by simpa using live)).block
    rw [← shape, find_append]
    rcases first with first | first
    · rw [first, old]
      rcases second with second | second
      · rw [second, Option.or_none]
        exact .inl rfl
      · rw [second]
        cases I.find name (I.chain d') with
        | none => exact .inr ⟨rfl, rfl⟩
        | some q => exact .inl rfl
    · rw [first]
      exact .inr ⟨rfl, rfl⟩
  · rw [grows.chain d' same (wf.dirHead d' here)]
    left
    rw [← old]
    refine find_congr rfl fun b member i _ => congrFun (J.setRow_ne _ ?_) i
    rintro rfl
    exact same (good.apart (grows.kept d' p.1 member) added.place.block)

/-- Every chain that ends is searched for a name. -/
theorem findLoop_linked {fatBlocks : Nat} (mounted : s.Mounted fatBlocks) (name : List UInt8)
    (linked : s.Linked current nodes) {fuel : Nat} (enough : nodes.length < fuel) :
    findLoop name fuel current s =
      some (.ok ((s.view.find name nodes).map fun p => (p.1, p.2, s.view.slot p.1 p.2)), s) := by
  induction nodes generalizing current fuel with
  | nil =>
      obtain rfl := (linkOf_eq_none).mp linked.links
      cases fuel with
      | zero => omega
      | succ fuel => simp [findLoop, Image.find]
  | cons node rest ih =>
      obtain rfl := linkOf_eq_some linked.links.1
      have used : ¬ (current = fatEoc ∨ current = fatFree) :=
        fun either => linked.first_used (by simp) either.symm
      have scanned : scanBlock (s.block current) name s.entriesPerBlock 0 =
          scanRow (s.view.slot current) name s.view.slots 0 := scanBlock_eq fun _ _ _ => rfl
      cases fuel with
      | zero => omega
      | succ fuel =>
          simp only [findLoop, used, ↓reduceIte, Image.find]
          rw [Prog.bind_of_run (readBlock_stored mounted (linked.stored current List.mem_cons_self))]
          simp only [Prog.get_bind, scanned]
          cases scan : scanRow (s.view.slot current) name s.view.slots 0 with
          | some i => rfl
          | none =>
              simp only
              rw [Prog.bind_of_run (fatGet_mapped (linked.mapped current List.mem_cons_self))]
              exact ih linked.tail (by simpa using enough)

theorem findEntryInDir_linked {fatBlocks : Nat} (mounted : s.Mounted fatBlocks)
    (linked : s.Linked d nodes) (more : nodes ≠ []) (short : nodes.length ≤ chainFuel)
    (name : List UInt8) :
    findEntryInDir d name s =
      some (.ok (match s.view.find name nodes with
        | none => { ResolvedPath.zero with parentDirBlock := d }
        | some p => s.view.foundAt d p), s) := by
  simp only [findEntryInDir, linked.first_used more, ↓reduceIte]
  rw [Prog.bind_of_run (malloc_run mounted.host)]
  simp only [Bool.not_true, Bool.false_eq_true, ↓reduceIte]
  rw [Prog.bind_of_run (findLoop_linked mounted name linked (Nat.lt_succ_of_le short))]
  cases s.view.find name nodes <;> rfl

/-- `find_entry_in_dir` searches the chain of the directory. -/
theorem findEntryInDir_eq (tracks : Tracks s I) (wf : I.Wf) (here : I.dirs d) (name : List UInt8) :
    findEntryInDir d name s =
      some (.ok (match I.find name (I.chain d) with
        | none => { ResolvedPath.zero with parentDirBlock := d }
        | some p => I.foundAt d p), s) := by
  have chain := tracks.chain wf (wf.dirHead d here)
  have short := chain.length_le
  have entries := tracks.ready.fatEntries_bounds
  have inside : ∀ b ∈ I.chain d, 1 ≤ b ∧ b < I.blocks :=
    fun b member => ⟨(wf.inside d b member).1, (wf.inside d b member).2.1⟩
  have shown : ∀ b ∈ I.chain d, ∀ i < I.slots, s.view.slot b i = I.slot b i :=
    fun b member i less => tracks.shows.slot b (inside b member).1 (inside b member).2 i less
  have same : s.view.find name (I.chain d) = I.find name (I.chain d) :=
    find_congr tracks.shows.slots.symm shown
  rw [findEntryInDir_linked tracks.ready.toMounted
    (tracks.linked (chain.linkOf_links tracks.ready) inside) (wf.dirHead d here)
    (by simp only [chainFuel]; omega) name, same]
  cases found : I.find name (I.chain d) with
  | none => rfl
  | some p =>
      obtain ⟨member, less, _⟩ := find_some found
      simp only [Image.foundAt, shown p.1 member p.2 less]

/-- What `find_entry_in_dir` reports. A name that is not found is not in the part of any block
before its first empty name. -/
inductive Lookup (I : Image) (d : Nat) (name : List UInt8) : ResolvedPath → Prop where
  | missing : (∀ p, I.At d p → (I.slot p.1 p.2).live = true → (I.slot p.1 p.2).cName = name →
      ∃ j < p.2, (I.slot p.1 j).name0 = 0) →
      Lookup I d name { ResolvedPath.zero with parentDirBlock := d }
  | hit (p : Nat × Nat) : I.At d p → (I.slot p.1 p.2).live = true → (I.slot p.1 p.2).cName = name →
      (∀ j < p.2, (I.slot p.1 j).name0 ≠ 0) → Lookup I d name (I.foundAt d p)

theorem findEntryInDir_run (tracks : Tracks s I) (wf : I.Wf) (here : I.dirs d)
    (name : List UInt8) : ∃ r, findEntryInDir d name s = some (.ok r, s) ∧ Lookup I d name r := by
  refine ⟨_, findEntryInDir_eq tracks wf here name, ?_⟩
  cases found : I.find name (I.chain d) with
  | none => exact .missing fun p place live same => find_none found place.block place.index live same
  | some p =>
      obtain ⟨member, inside, live, same, before⟩ := find_some found
      exact .hit p ⟨here, member, inside⟩ live same before

end Searches

end PennOs.Fat
