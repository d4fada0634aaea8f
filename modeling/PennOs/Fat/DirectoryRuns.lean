import PennOs.Fat.ImageRuns

set_option autoImplicit false

/- Adding an entry to a directory, on a well-formed image. -/
namespace PennOs.Fat

open LinkedChain (Links)
open Fs

/-- The open-file tables and the current directory are the same, and so are the host files other than
the image. -/
structure SameTables (s t : Fs) : Prop where
  files : t.gSysfileTable = s.gSysfileTable
  descriptors : t.gFdTable = s.gFdTable
  cwd : t.gCwdBlock = s.gCwdBlock
  imageName : t.imageName = s.imageName
  hostFiles : t.hostFiles = s.hostFiles

/-- `J` is `I` with the directory `d` longer by some empty blocks, if need be. -/
structure Grows (I J : Image) (d : Nat) : Prop where
  good : ∀ promised, I.Good promised → J.Good promised
  slots : J.slots = I.slots
  blocks : J.blocks = I.blocks
  dirs : J.dirs = I.dirs
  loose : ∀ c, J.loose c ↔ I.loose c
  rows : ∀ h, ∀ b ∈ I.chain h, J.slot b = I.slot b
  front : ∀ h, I.chain h <+: J.chain h
  empty : ∀ d' p, J.At d' p → (J.slot p.1 p.2).live = true → I.At d' p
  chain : ∀ h, h ≠ d → I.chain h ≠ [] → J.chain h = I.chain h

/-- The FAT and the slots a volume holds, whatever they are used for. -/
def Fs.view (s : Fs) : Image where
  blocks := totalEntries s
  slots := s.entriesPerBlock
  fat := s.fat
  slot b i := direntAt (s.block b) i
  dirs _ := False
  chain _ := []
  loose _ := False

/-- The first free slot of the blocks. -/
def Image.vacancy (I : Image) : List Nat → Option (Nat × Nat)
  | [] => none
  | b :: rest =>
      match Search.firstFrom (fun i => (I.slot b i).reusable) I.slots 0 with
      | some i => some (b, i)
      | none => I.vacancy rest

/-- `t` is `s` with the entry `e` in the slot `p` of the directory `d`, the first free one of
its block. -/
structure Added (s t : Fs) (I J : Image) (d : Nat) (e : DirEntry) (p : Nat × Nat) : Prop where
  grows : Grows I J d
  place : J.At d p
  free : (J.slot p.1 p.2).reusable = true
  first : ∀ i < p.2, (J.slot p.1 i).reusable = false
  spot : I.vacancy (I.chain d) = some p ∨ (I.vacancy (I.chain d) = none ∧ p.1 ∉ I.chain d)
  tracks : Tracks t (J.setSlot p e)
  tables : SameTables s t

variable {s t u : Fs} {I J : Image} {b c d current : Nat} {p : Nat × Nat} {e : DirEntry}
  {nodes : List Nat} {name : List UInt8}

namespace SameTables

theorem refl (s : Fs) : SameTables s s := ⟨rfl, rfl, rfl, rfl, rfl⟩

theorem trans (first : SameTables s t) (second : SameTables t u) : SameTables s u :=
  ⟨second.files.trans first.files, second.descriptors.trans first.descriptors,
    second.cwd.trans first.cwd, second.imageName.trans first.imageName,
    second.hostFiles.trans first.hostFiles⟩

theorem setFat (s : Fs) (b v : Nat) : SameTables s (s.setFat b v) := ⟨rfl, rfl, rfl, rfl, rfl⟩

theorem putBlock (s : Fs) (b : Nat) (buf : Buffer) : SameTables s (s.putBlock b buf) :=
  ⟨rfl, rfl, rfl, rfl, rfl⟩

theorem putDirent (s : Fs) (p : Nat × Nat) (e : DirEntry) : SameTables s (s.putDirent p e) :=
  ⟨rfl, rfl, rfl, rfl, rfl⟩

theorem freeAll (s : Fs) (nodes : List Nat) : SameTables s (s.freeAll nodes) := by
  induction nodes generalizing s with
  | nil => exact refl s
  | cons node rest ih => exact (setFat s node fatFree).trans (ih _)

end SameTables

section Slots

theorem DirEntry.live_of_reusable (free : e.reusable = true) : e.live = false := by
  rcases (by simpa [reusable] using free : e.name0 = 0 ∨ e.name0 = 1) with zero | one
  · simp [live, zero]
  · simp [live, one]

theorem DirEntry.name0_of_not_reusable (taken : e.reusable = false) : e.name0 ≠ 0 := by
  intro zero
  simp [reusable, zero] at taken

theorem Grows.refl (I : Image) (d : Nat) : Grows I I d :=
  ⟨fun _ good => good, rfl, rfl, rfl, fun _ => Iff.rfl, fun _ _ _ => rfl, fun _ => List.prefix_rfl,
    fun _ _ place _ => place, fun _ _ _ => rfl⟩

namespace Grows

variable (grows : Grows I J d)

include grows

theorem kept (h b : Nat) (member : b ∈ I.chain h) : b ∈ J.chain h := (grows.front h).subset member

theorem slot (d' : Nat) (p : Nat × Nat) (place : I.At d' p) : J.slot p.1 p.2 = I.slot p.1 p.2 := by
  rw [grows.rows d' p.1 place.block]

theorem at_ {d' : Nat} (place : I.At d' p) : J.At d' p :=
  ⟨grows.dirs ▸ place.dir, grows.kept d' p.1 place.block, grows.slots ▸ place.index⟩

theorem holds {d' : Nat} : J.Holds d' p c ↔ I.Holds d' p c := by
  constructor
  · intro link
    have place := grows.empty d' p link.toAt link.live
    have same := grows.slot d' p place
    exact ⟨place, same ▸ link.live, link.named, same ▸ link.first⟩
  · intro link
    have same := grows.slot d' p link.toAt
    exact ⟨grows.at_ link.toAt, same ▸ link.live, link.named, same ▸ link.first⟩

theorem parent (wf : I.Wf) {x : Nat} (here : I.dirs x) : J.parent x = I.parent x := by
  have index : 1 < I.slots := by
    have := wf.slotsMin
    omega
  have same := grows.slot x (x, 1) ⟨here, wf.dir_mem here, index⟩
  simp only at same
  rw [Image.parent, same]
  rfl

end Grows

theorem vacancy_some {nodes : List Nat} (found : I.vacancy nodes = some p) :
    p.1 ∈ nodes ∧ p.2 < I.slots ∧ (I.slot p.1 p.2).reusable = true ∧
      ∀ j < p.2, (I.slot p.1 j).reusable = false := by
  induction nodes with
  | nil => cases found
  | cons b rest ih =>
      simp only [Image.vacancy] at found
      cases first : Search.firstFrom (fun i => (I.slot b i).reusable) I.slots 0 with
      | some i =>
          rw [first] at found
          cases found
          obtain ⟨_, bound, free, before⟩ := Search.firstFrom_some first
          exact ⟨List.mem_cons_self, by omega, free, fun j less => before j (Nat.zero_le j) less⟩
      | none =>
          rw [first] at found
          obtain ⟨member, rest'⟩ := ih found
          exact ⟨List.mem_cons_of_mem _ member, rest'⟩

theorem vacancy_congr {nodes : List Nat} (slots : J.slots = I.slots)
    (rows : ∀ b ∈ nodes, ∀ i < I.slots, J.slot b i = I.slot b i) :
    J.vacancy nodes = I.vacancy nodes := by
  induction nodes with
  | nil => rfl
  | cons b rest ih =>
      have later := ih fun x member => rows x (List.mem_cons_of_mem _ member)
      have here : Search.firstFrom (fun i => (J.slot b i).reusable) I.slots 0 =
          Search.firstFrom (fun i => (I.slot b i).reusable) I.slots 0 := by
        apply Search.firstFrom_congr
        intro i _ inside
        rw [rows b List.mem_cons_self i (by omega)]
      simp only [Image.vacancy, slots, here, later]

/-- Every chain that ends is searched for a free slot. -/
theorem findSlotLoop_linked {fatBlocks : Nat} (mounted : s.Mounted fatBlocks)
    (linked : s.Linked current nodes) {fuel : Nat} (enough : nodes.length < fuel) :
    findSlotLoop fuel current s = some (.ok (s.view.vacancy nodes), s) := by
  induction nodes generalizing current fuel with
  | nil =>
      obtain rfl := (linkOf_eq_none).mp linked.links
      cases fuel with
      | zero => omega
      | succ fuel => simp [findSlotLoop, Image.vacancy]
  | cons node rest ih =>
      obtain rfl := linkOf_eq_some linked.links.1
      have used : ¬ (current = fatEoc ∨ current = fatFree) :=
        fun either => linked.first_used (by simp) either.symm
      cases fuel with
      | zero => omega
      | succ fuel =>
          simp only [findSlotLoop, used, ↓reduceIte, Image.vacancy]
          rw [Prog.bind_of_run (readBlock_stored mounted (linked.stored current List.mem_cons_self))]
          simp only [Prog.get_bind, freeSlot]
          cases found : Search.firstFrom (fun i => (direntAt (s.block current) i).reusable)
              s.entriesPerBlock 0 with
          | some i =>
              have found' : Search.firstFrom (fun i => (s.view.slot current i).reusable) s.view.slots 0
                = some i := found
              rw [found']
              rfl
          | none =>
              have found' : Search.firstFrom (fun i => (s.view.slot current i).reusable) s.view.slots 0
                = none := found
              rw [found']
              simp only
              rw [Prog.bind_of_run (fatGet_mapped (linked.mapped current List.mem_cons_self))]
              exact ih linked.tail (by simpa using enough)

theorem Tracks.linked (tracks : Tracks s I) (links : Links (nextBlock s.fat) (linkOf current) nodes)
    (inside : ∀ b ∈ nodes, 1 ≤ b ∧ b < I.blocks) : s.Linked current nodes where
  links := links
  used b member := by
    have low := (inside b member).1
    simp only [fatFree]
    omega
  mapped b member := tracks.ready.mapped (tracks.inside (inside b member).2)
  stored b member := tracks.ready.block_end (tracks.inside (inside b member).2)

theorem findSlotLoop_run (tracks : Tracks s I)
    (links : Links (nextBlock s.fat) (linkOf current) nodes)
    (inside : ∀ b ∈ nodes, 1 ≤ b ∧ b < I.blocks) {fuel : Nat} (enough : nodes.length < fuel) :
    findSlotLoop fuel current s = some (.ok (I.vacancy nodes), s) := by
  rw [findSlotLoop_linked tracks.ready.toMounted (tracks.linked links inside) enough]
  have same : s.view.vacancy nodes = I.vacancy nodes :=
    vacancy_congr tracks.shows.slots.symm fun b member i less =>
      tracks.shows.slot b (inside b member).1 (inside b member).2 i less
  rw [same]

theorem putEntry_run (tracks : Tracks s I) (high : p.1 < I.blocks) (e : DirEntry) :
    putEntry p.1 p.2 e s = some (.ok, s.putDirent p e) := by
  rw [putEntry, Prog.bind_of_run (readBlock_run tracks.ready (tracks.inside high))]
  simp only
  rw [Prog.bind_of_run (writeBlock_run tracks.ready.toMounted _ _)]
  rfl

/-- A new, empty block behind the last one of a directory. -/
def Image.grow (I : Image) (d last b : Nat) : Image :=
  ((I.alloc b).setRow b fun _ => .zero).link d last b

theorem grow_grows (wf : I.Wf) {front : List Nat} {last : Nat} (here : I.dirs d)
    (shape : I.chain d = front ++ [last]) (low : 2 ≤ b) (high : b < I.blocks)
    (free : I.fat b = fatFree) : Grows I (I.grow d last b) d := by
  have nothing := wf.chain_nil_of_free free
  have apart : d ≠ b := by
    rintro rfl
    exact wf.dirHead d here nothing
  have file : ¬ I.dirs b := fun there => wf.dirHead b there nothing
  have out : (I.alloc b).Outside b := by
    intro x there member
    have other : x ≠ b := by
      rintro rfl
      exact file there
    have member' : b ∈ Function.update I.chain b [b] x := member
    rw [Function.update_of_ne other] at member'
    exact wf.not_mem_of_free free member'
  have chainOf : ∀ h, (I.grow d last b).chain h =
      if h = d then I.chain d ++ [b] else if h = b then [] else I.chain h := by
    intro h
    rw [Image.grow, Image.link_chain]
    simp only [Image.setRow, Image.alloc, Function.update_apply, if_neg apart]
    split
    · rfl
    · split <;> rfl
  have rows : ∀ x, x ≠ b → (I.grow d last b).slot x = I.slot x :=
    fun x other => Image.setRow_ne _ _ other
  constructor
  · intro promised good
    have shape' : ((I.alloc b).setRow b fun _ => .zero).chain d = front ++ [last] := by
      simpa only [Image.setRow, Image.alloc, Function.update_of_ne apart] using shape
    refine ((good.alloc low high free).setRow out _).linked shape' (.inr rfl)
      (by simp [Image.setRow, Image.alloc]) file apart fun _ i _ => ?_
    rw [Image.setRow_self]
    rfl
  · rfl
  · rfl
  · rfl
  · intro c
    have notLoose : ¬ I.loose b := fun isLoose => wf.looseHead b isLoose nothing
    simp only [Image.grow, Image.link, Image.setRow, Image.alloc]
    constructor
    · rintro ⟨old | rfl, other⟩
      · exact old
      · exact absurd rfl other
    · intro old
      refine ⟨.inl old, ?_⟩
      rintro rfl
      exact notLoose old
  · intro h x member
    refine rows x ?_
    rintro rfl
    exact wf.not_mem_of_free free member
  · intro h
    rw [chainOf]
    split
    · next same => exact same ▸ List.prefix_append _ _
    · split
      · next same =>
          simp only [same, nothing, List.prefix_rfl]
      · exact List.prefix_rfl
  · intro d' p place live
    have member := place.block
    rw [chainOf] at member
    refine ⟨place.dir, ?_, place.index⟩
    split at member
    · next same =>
        rcases List.mem_append.mp member with old | new
        · exact same ▸ old
        · have cleared : (I.grow d last b).slot b = fun _ => DirEntry.zero := Image.setRow_self _ _ _
          rw [List.mem_singleton.mp new, cleared] at live
          cases live
    · split at member
      · cases member
      · exact member
  · intro h other used
    rw [chainOf, if_neg other, if_neg]
    rintro rfl
    exact used nothing

theorem growDir_run (tracks : Tracks s I) (wf : I.Wf) (here : I.dirs d) :
    growDir d s = some (.error .nospace, s) ∨
      ∃ front last b t, I.chain d = front ++ [last] ∧ 2 ≤ b ∧ b < I.blocks ∧ I.fat b = fatFree ∧
        growDir d s = some (.ok b, t) ∧ Tracks t (I.grow d last b) ∧ SameTables s t := by
  rcases allocate_tracks tracks with full | ⟨b, low, high, free, run, taken⟩
  · left
    rw [growDir, Prog.bind_of_run full]
    rfl
  · right
    have wf' := wf.alloc low high free
    have nothing := wf.chain_nil_of_free free
    have apart : d ≠ b := by
      rintro rfl
      exact wf.dirHead d here nothing
    have chainOf : (I.alloc b).chain d = I.chain d := Function.update_of_ne apart _ _
    have used := wf.dirHead d here
    obtain ⟨front, last, shape⟩ : ∃ front last, I.chain d = front ++ [last] :=
      ⟨_, _, (List.dropLast_append_getLast used).symm⟩
    have chain := taken.chain wf' (chainOf ▸ used)
    have short := chain.length_le
    have entries := taken.ready.fatEntries_bounds
    rw [chainOf, shape] at chain short
    have inLast := wf.inside d last (by simp [shape])
    have enough : front.length < chainFuel + 1 := by
      simp only [List.length_append, List.length_singleton] at short
      simp only [chainFuel]
      omega
    have lastRun := lastInChain_run chain.links
      (fun x member => taken.ready.mapped (chain.inside x member).2.1) enough
    have linked := taken.setFat (b := last) (v := b) inLast.1 inLast.2.1 (by
      have := tracks.blocks_bounds
      omega)
    have zeroes : ∀ i < I.slots, direntAt zeroBuffer i = .zero := fun i _ => direntAt_zeroBuffer i
    have cleared := linked.putBlock (show 1 ≤ b by omega) high zeroes
    refine ⟨front, last, b, _, shape, low, high, free, ?_,
      cleared.ghost rfl rfl (fun _ _ => rfl) fun _ _ _ _ _ => rfl,
      ((SameTables.setFat _ _ _).trans (SameTables.setFat _ _ _)).trans (SameTables.putBlock _ _ _)⟩
    rw [growDir, Prog.bind_of_run run]
    simp only
    rw [Prog.bind_of_run lastRun,
      Prog.bind_of_run (fatSet_ready taken.ready _ (taken.inside inLast.2.1)),
      Prog.bind_of_run (writeBlock_run linked.ready.toMounted _ _)]
    rfl

/-- `add_dirent_to_dir` finds no room, or fills the first free slot of some block. -/
theorem addDirentToDir_run (tracks : Tracks s I) (wf : I.Wf) (here : I.dirs d) (e : DirEntry) :
    addDirentToDir d e s = some (.nospace, s) ∨
      ∃ t J p, addDirentToDir d e s = some (.ok, t) ∧ Added s t I J d e p := by
  obtain ⟨lowD, highD⟩ := wf.dir_inside here
  have chain := tracks.chain wf (wf.dirHead d here)
  have short := chain.length_le
  have entries := tracks.ready.fatEntries_bounds
  have used := notEoc tracks lowD highD
  have links := chain.linkOf_links tracks.ready
  have enough : (I.chain d).length < chainFuel + 1 := by
    simp only [chainFuel]
    omega
  have searched := findSlotLoop_run tracks links
    (fun b member => ⟨(wf.inside d b member).1, (wf.inside d b member).2.1⟩) enough
  simp only [addDirentToDir, used, ↓reduceIte]
  rw [Prog.bind_of_run (malloc_run tracks.ready.host)]
  simp only [Bool.not_true, Bool.false_eq_true, ↓reduceIte]
  rw [Prog.bind_of_run searched]
  cases spot : I.vacancy (I.chain d) with
  | none =>
    simp only
    rcases growDir_run tracks wf here with full
      | ⟨front, last, b, t, shape, low, high, unused, run, grown, tables⟩
    · left
      rw [Prog.bind_of_run full]
      rfl
    · right
      have grows := grow_grows wf here shape low high unused
      have slots := wf.slotsMin
      refine ⟨t.putDirent (b, 0) e, I.grow d last b, (b, 0), ?_, grows, ?_, ?_, ?_,
        .inr ⟨spot, wf.not_mem_of_free unused⟩,
        grown.putDirent (p := (b, 0)) (by simp only; omega) high e,
        tables.trans (SameTables.putDirent _ _ _)⟩
      · rw [Prog.bind_of_run run]
        exact putEntry_run (p := (b, 0)) grown high e
      · refine ⟨here, ?_, by simp only [Image.grow, Image.link, Image.setRow, Image.alloc]; omega⟩
        rw [Image.grow, Image.link_chain, if_pos rfl]
        exact List.mem_append_right _ (List.mem_singleton_self b)
      · have cleared : (I.grow d last b).slot b = fun _ => DirEntry.zero := Image.setRow_self _ _ _
        simp only [cleared]
        rfl
      · intro i less
        exact absurd less (Nat.not_lt_zero i)
  | some p =>
    right
    obtain ⟨member, index, free, first⟩ := vacancy_some spot
    have inside := wf.inside d p.1 member
    exact ⟨s.putDirent p e, I, p, putEntry_run tracks inside.2.1 e, Grows.refl I d, ⟨here, member, index⟩,
      free, first, .inl spot, tracks.putDirent inside.1 inside.2.1 e, SameTables.putDirent _ _ _⟩

end Slots

end PennOs.Fat
