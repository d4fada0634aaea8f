import PennOs.Fat.DirectoryRuns

set_option autoImplicit false

/- The files and directories of an image that an edit leaves where they are. -/
namespace PennOs.Fat

namespace Image

/-- The slot `p` of some directory is a live entry for the file `c`. -/
def FileAt (I : Image) (p : Nat × Nat) (c : Nat) : Prop := ∃ d, I.Holds d p c ∧ ¬ I.dirs c

/-- Entries outside `gone` stay in their slots, directories outside `lost` stay directories,
and no entry's file becomes a directory. -/
structure Keeps (gone : Nat × Nat → Prop) (lost : Nat → Prop) (I J : Image) : Prop where
  holds : ∀ d p c, I.Holds d p c → ¬ gone p → J.Holds d p c
  files : ∀ d p c, I.Holds d p c → ¬ gone p → ¬ I.dirs c → ¬ J.dirs c
  dirs : ∀ d, I.dirs d → ¬ lost d → J.dirs d

/-- The directory `c` and those below it are among `lost`, and their entries among `gone`. -/
structure Sinks (gone : Nat × Nat → Prop) (lost : Nat → Prop) (I : Image) (c : Nat) : Prop where
  dirs : ∀ d, I.dirs d → Hierarchy.Below 1 I.parent c d → lost d
  slots : ∀ d p x, I.Holds d p x → Hierarchy.Below 1 I.parent c d → gone p

/-- The directory `d` is `c` or below it. -/
def Under (I : Image) (c d : Nat) : Prop := I.dirs d ∧ Hierarchy.Below 1 I.parent c d

/-- The slot is in use in `c` or a directory below it. -/
def SlotUnder (I : Image) (c : Nat) (q : Nat × Nat) : Prop :=
  ∃ d x, I.Holds d q x ∧ Hierarchy.Below 1 I.parent c d

/-- All files keep their slots, and all directories stay. -/
abbrev KeepsAll (I J : Image) : Prop := Keeps (fun _ => False) (fun _ => False) I J

variable {I J K : Image} {gone gone' : Nat × Nat → Prop} {lost lost' : Nat → Prop}
  {b c d h last o : Nat} {p : Nat × Nat} {e : DirEntry} {row : Nat → DirEntry} {front : List Nat}

theorem Keeps.refl (I : Image) : Keeps gone lost I I :=
  ⟨fun _ _ _ link _ => link, fun _ _ _ _ _ file => file, fun _ here _ => here⟩

theorem Keeps.trans (first : Keeps gone lost I J) (second : Keeps gone lost J K) :
    Keeps gone lost I K where
  holds d p c link stays := second.holds d p c (first.holds d p c link stays) stays
  files d p c link stays file := second.files d p c (first.holds d p c link stays) stays
    (first.files d p c link stays file)
  dirs d here stays := second.dirs d (first.dirs d here stays) stays

theorem Keeps.fileAt (keeps : Keeps gone lost I J) (file : I.FileAt p c) (stays : ¬ gone p) :
    J.FileAt p c := by
  obtain ⟨d, link, isFile⟩ := file
  exact ⟨d, keeps.holds d p c link stays, keeps.files d p c link stays isFile⟩

theorem Keeps.mono (keeps : Keeps gone lost I J) (slots : ∀ q, gone q → gone' q)
    (dirs : ∀ d, lost d → lost' d) : Keeps gone' lost' I J where
  holds d p c link stays := keeps.holds d p c link fun goes => stays (slots p goes)
  files d p c link stays := keeps.files d p c link fun goes => stays (slots p goes)
  dirs d here stays := keeps.dirs d here fun goes => stays (dirs d goes)

theorem KeepsAll.keeps (all : KeepsAll I J) : Keeps gone lost I J where
  holds d p c link _ := all.holds d p c link id
  files d p c link _ := all.files d p c link id
  dirs d here _ := all.dirs d here id

/-- Directories stay, and so do entries outside `gone`. -/
theorem Keeps.of_holds (dirs : ∀ d, J.dirs d ↔ I.dirs d)
    (holds : ∀ d p c, I.Holds d p c → ¬ gone p → J.Holds d p c) : Keeps gone lost I J where
  holds := holds
  files _ _ c _ _ file here := file ((dirs c).mp here)
  dirs d here _ := (dirs d).mpr here

section Edits

theorem Keeps.alloc (wf : I.Wf) (free : I.fat b = fatFree) : Keeps gone lost I (I.alloc b) :=
  .of_holds (fun _ => Iff.rfl) fun _ _ _ link _ =>
    ⟨⟨link.dir, alloc_chain wf free link.dir ▸ link.block, link.index⟩, link.live, link.named,
      link.first⟩

theorem Keeps.free (file : ¬ I.dirs h) : Keeps gone lost I (I.free h) :=
  .of_holds (fun _ => Iff.rfl) fun _ _ _ link _ =>
    ⟨⟨link.dir, free_chain file link.dir ▸ link.block, link.index⟩, link.live, link.named,
      link.first⟩

theorem Keeps.linked (file : ¬ I.dirs b) : Keeps gone lost I (I.link h last b) := by
  refine .of_holds (fun _ => Iff.rfl) fun d p c link _ => ?_
  have apart : d ≠ b := by
    rintro rfl
    exact file link.dir
  exact ⟨⟨link.dir, mem_link_chain link.block apart, link.index⟩, link.live, link.named, link.first⟩

theorem Keeps.setRow (out : I.Outside b) : Keeps gone lost I (I.setRow b row) := by
  refine .of_holds (fun _ => Iff.rfl) fun d p c link _ => ?_
  have apart : p.1 ≠ b := fun same => out d link.dir (same ▸ link.block)
  have same := I.setRow_ne row apart
  exact ⟨⟨link.dir, link.block, link.index⟩, same ▸ link.live, link.named, same ▸ link.first⟩

theorem Keeps.grows (grows : Grows I J d) : Keeps gone lost I J :=
  .of_holds (fun d' => by rw [grows.dirs]) fun _ _ _ link _ => grows.holds.mpr link

theorem Keeps.setMeta (name : e.cName = (I.slot p.1 p.2).cName)
    (first : e.firstBlock = (I.slot p.1 p.2).firstBlock) : Keeps gone lost I (I.setSlot p e) := by
  refine .of_holds (fun _ => Iff.rfl) fun d q c link _ => ?_
  have place : (I.setSlot p e).At d q := ⟨link.dir, link.block, link.index⟩
  by_cases here : q = p
  · subst here
    refine ⟨place, ?_, link.named, ?_⟩
    · rw [I.setSlot_self, DirEntry.live_congr name]
      exact link.live
    · rw [I.setSlot_self, first]
      exact link.first
  · have same := I.setSlot_ne e here
    exact ⟨place, same ▸ link.live, link.named, same ▸ link.first⟩

/-- The entry in a slot of `gone`, or in a slot that is not live, is replaced. -/
theorem Keeps.setSlot (leaves : gone p ∨ (I.slot p.1 p.2).live = false) :
    Keeps gone lost I (I.setSlot p e) := by
  refine .of_holds (fun _ => Iff.rfl) fun d q c link stays => ?_
  have apart : q ≠ p := by
    rintro rfl
    rcases leaves with goes | dead
    · exact stays goes
    · rw [link.live] at dead
      cases dead
  have same := I.setSlot_ne e apart
  exact ⟨⟨link.dir, link.block, link.index⟩, same ▸ link.live, link.named, same ▸ link.first⟩

/-- Only what is loose changes. -/
theorem Keeps.loose (loose : Nat → Prop) : Keeps gone lost I { I with loose := loose } :=
  .of_holds (fun _ => Iff.rfl) fun _ _ _ link _ =>
    ⟨⟨link.dir, link.block, link.index⟩, link.live, link.named, link.first⟩

theorem Keeps.remove (goes : gone p) : Keeps gone lost I (I.remove p) :=
  (Keeps.setSlot (.inl goes)).trans (.loose _)

theorem Keeps.add (dead : (I.slot p.1 p.2).live = false) : Keeps gone lost I (I.add p e) :=
  (Keeps.setSlot (.inr dead)).trans (.loose _)

theorem Keeps.makeDir (wf : I.Wf) (isLoose : I.loose c) (file : ¬ I.dirs c)
    (single : I.chain c = [c]) : Keeps gone lost I (I.makeDir c row) where
  holds d p x link _ := by
    have same : (I.makeDir c row).slot p.1 = I.slot p.1 := makeDir_slot wf file single link.dir link.block
    exact ⟨⟨.inl link.dir, link.block, link.index⟩, same ▸ link.live, link.named, same ▸ link.first⟩
  files d p x link _ isFile here := by
    rcases here with here | rfl
    · exact isFile here
    · exact wf.tree.looseFree _ isLoose d p link
  dirs _ here _ := .inl here

theorem Keeps.orphan (sinks : Sinks gone lost I c) : Keeps gone lost I (I.orphan c) where
  holds d p x link stays := by
    have above : ¬ Hierarchy.Below 1 I.parent c d := fun below => stays (sinks.slots d p x link below)
    exact ⟨⟨⟨link.dir, above⟩, link.block, link.index⟩, link.live, link.named, link.first⟩
  files _ _ _ _ _ file here := file here.1
  dirs d here stays := ⟨here, fun below => stays (sinks.dirs d here below)⟩

theorem Keeps.dropDir (sinks : Sinks gone lost I c) : Keeps gone lost I (I.dropDir c) where
  holds d p x link stays := by
    obtain ⟨⟨here, block, index⟩, live, named, first⟩ := (Keeps.orphan sinks).holds d p x link stays
    exact ⟨⟨here, (dropDir_chain (I := I) (c := c) here).symm ▸ block, index⟩, live, named, first⟩
  files := (Keeps.orphan sinks).files
  dirs := (Keeps.orphan sinks).dirs

/-- Nothing sinks with something that is no directory. -/
theorem Wf.sinks_of_file (wf : I.Wf) (file : ¬ I.dirs c) : Sinks gone lost I c where
  dirs _ here below := absurd (wf.tree.below_dir below here) file
  slots _ _ _ link below := absurd (wf.tree.below_dir below link.dir) file

end Edits

section Entering

/-- The entry `e` for something loose goes into a slot that is not live. Where it is not live
itself, what it is for is given up. -/
def enter (I : Image) (p : Nat × Nat) (e : DirEntry) : Image :=
  if e.live then I.add p e else (I.setSlot p e).orphan e.firstBlock.toNat

/-- The entry may be added to the directory without breaking a promise. -/
structure Welcome (promised : Promises) (I : Image) (d : Nat) (e : DirEntry) : Prop where
  live : promised.lossless → e.live = true
  dense : promised.dense ∨ promised.distinct → e.name0 ≠ 0
  fresh : promised.distinct → ∀ q, I.At d q → (I.slot q.1 q.2).live = true →
    (I.slot q.1 q.2).cName ≠ e.cName

theorem enter_live (live : e.live = true) : I.enter p e = I.add p e := by
  rw [enter, if_pos live]

theorem enter_dead (dead : e.live = false) :
    I.enter p e = (I.setSlot p e).orphan e.firstBlock.toNat := by
  rw [enter, if_neg (by rw [dead]; decide)]

theorem enter_slot (I : Image) (p : Nat × Nat) (e : DirEntry) :
    (I.enter p e).slot = (I.setSlot p e).slot := by
  unfold enter
  split <;> rfl

theorem enter_loose (I : Image) (p : Nat × Nat) (e : DirEntry) :
    (I.enter p e).loose = fun c => I.loose c ∧ c ≠ e.firstBlock.toNat := by
  unfold enter
  split <;> rfl

theorem enter_chain (I : Image) (p : Nat × Nat) (e : DirEntry) : (I.enter p e).chain = I.chain := by
  unfold enter
  split <;> rfl

theorem enter_shape (I : Image) (p : Nat × Nat) (e : DirEntry) :
    (I.enter p e).blocks = I.blocks ∧ (I.enter p e).slots = I.slots ∧ (I.enter p e).fat = I.fat := by
  unfold enter
  split <;> exact ⟨rfl, rfl, rfl⟩

theorem Good.enter {promised : Promises} (good : I.Good promised) (place : I.At d p)
    (dead : (I.slot p.1 p.2).live = false) (before : ∀ i < p.2, (I.slot p.1 i).name0 ≠ 0)
    (isLoose : I.loose e.firstBlock.toNat) (proper : e.firstBlock.toNat ≠ 1)
    (kind : e.live = true → (e.type = DirEntry.typeDirectory ↔ I.dirs e.firstBlock.toNat))
    (agrees : I.dirs e.firstBlock.toNat → I.parent e.firstBlock.toNat = d)
    (welcome : Welcome promised I d e) : (I.enter p e).Good promised := by
  cases live : e.live with
  | true =>
      rw [enter_live live]
      exact good.add place dead live isLoose (kind live) proper agrees
        (fun asked q there _ => welcome.fresh asked q there) before
  | false =>
      rw [enter_dead live]
      have loses : ¬ promised.lossless := fun asked => by
        rw [welcome.live asked] at live
        cases live
      exact (good.blank place dead live loses welcome.dense).orphan isLoose proper loses

theorem Sinks.under (I : Image) (c : Nat) : Sinks (I.SlotUnder c) (I.Under c) I c :=
  ⟨fun _ here below => ⟨here, below⟩, fun d _ x link below => ⟨d, x, link, below⟩⟩

/-- An entry that is not live is written to a slot that is not '.' or '..'. -/
theorem Sinks.setSlot (sinks : Sinks gone lost I c) (wf : I.Wf) (place : I.At d p)
    (named : ¬ DotSlot d p) (dead : e.live = false) : Sinks gone lost (I.setSlot p e) c := by
  have below : ∀ d', I.dirs d' → Hierarchy.Below 1 (I.setSlot p e).parent c d' →
      Hierarchy.Below 1 I.parent c d' := by
    intro d' here sunk
    refine sunk.congr here (fun x there proper => ?_) fun x there proper => ?_
    · rw [wf.setSlot_parent place named there proper]
      exact wf.tree.parentDir x there proper
    · exact (wf.setSlot_parent place named there proper).symm
  constructor
  · exact fun d' here sunk => sinks.dirs d' here (below d' here sunk)
  · intro d' q x link sunk
    have apart : q ≠ p := by
      rintro rfl
      have live := link.live
      rw [I.setSlot_self, dead] at live
      cases live
    have same := I.setSlot_ne e apart
    exact sinks.slots d' q x ⟨⟨link.dir, link.block, link.index⟩, same ▸ link.live, link.named,
      same ▸ link.first⟩ (below d' link.dir sunk)

theorem holds_of_remove {q : Nat × Nat} {x : Nat} (link : (I.remove p).Holds d q x) :
    I.Holds d q x := by
  have apart : q ≠ p := by
    rintro rfl
    have live := link.live
    rw [show (I.remove q).slot q.1 q.2 = .deleted from I.setSlot_self q .deleted,
      DirEntry.deleted_live] at live
    cases live
  have same := I.setSlot_ne .deleted apart
  exact ⟨⟨link.dir, link.block, link.index⟩, same ▸ link.live, link.named, same ▸ link.first⟩

theorem Sinks.remove {x : Nat} (sinks : Sinks gone lost I c) (wf : I.Wf) (link : I.Holds d p x) :
    Sinks gone lost (I.remove p) c := by
  have sunk := sinks.setSlot wf link.toAt link.named DirEntry.deleted_live
  exact ⟨sunk.dirs, fun d' q y link' => sunk.slots d' q y
    ⟨⟨link'.dir, link'.block, link'.index⟩, link'.live, link'.named, link'.first⟩⟩

theorem Keeps.enter (wf : I.Wf) (place : I.At d p) (dead : (I.slot p.1 p.2).live = false)
    (sinks : e.live = false → Sinks gone lost I e.firstBlock.toNat) :
    Keeps gone lost I (I.enter p e) := by
  cases live : e.live with
  | true =>
      rw [enter_live live]
      exact .add dead
  | false =>
      rw [enter_dead live]
      exact (Keeps.setSlot (.inr dead)).trans
        (.orphan ((sinks live).setSlot wf place (wf.not_dotSlot place.dir dead) live))

theorem enter_holds (wf : I.Wf) (place : I.At d p) (dead : (I.slot p.1 p.2).live = false)
    (live : e.live = true) : (I.enter p e).Holds d p e.firstBlock.toNat := by
  have written : (I.add p e).slot p.1 p.2 = e := I.setSlot_self p e
  rw [enter_live live]
  exact ⟨⟨place.dir, place.block, place.index⟩, written.symm ▸ live, wf.not_dotSlot place.dir dead,
    written.symm ▸ rfl⟩

/-- What is in use after an entry went in was in use with the entry written. -/
theorem holds_of_enter {q : Nat × Nat} {x : Nat} (link : (I.enter p e).Holds d q x) :
    I.At d q ∧ ((I.setSlot p e).slot q.1 q.2).live = true ∧ ¬ DotSlot d q ∧
      ((I.setSlot p e).slot q.1 q.2).firstBlock.toNat = x := by
  rw [← I.enter_slot p e]
  refine ⟨?_, link.live, link.named, link.first⟩
  obtain ⟨⟨here, block, index⟩, _⟩ := link
  unfold enter at here block index
  split at block
  · next live =>
      rw [if_pos live] at here index
      exact ⟨here, block, index⟩
  · next dead =>
      rw [if_neg dead] at here index
      exact ⟨here.1, block, index⟩

/-- A directory that grows is still below the same directories. -/
theorem Sinks.grows (sinks : Sinks gone lost I c) (wf : I.Wf) (grows : Grows I J d) :
    Sinks gone lost J c := by
  have below : ∀ d', J.dirs d' → Hierarchy.Below 1 J.parent c d' →
      I.dirs d' ∧ Hierarchy.Below 1 I.parent c d' := by
    intro d' here sunk
    rw [grows.dirs] at here
    refine ⟨here, sunk.congr here (fun x there proper => ?_) fun x there _ => ?_⟩
    · rw [grows.parent wf there]
      exact wf.tree.parentDir x there proper
    · exact (grows.parent wf there).symm
  constructor
  · intro d' here sunk
    exact sinks.dirs d' (below d' here sunk).1 (below d' here sunk).2
  · intro d' q x link sunk
    exact sinks.slots d' q x (grows.holds.mp link) (below d' link.dir sunk).2

/-- New slots of a directory that grows are not live. -/
theorem Welcome.grows {promised : Promises} (welcome : Welcome promised I d e)
    (grows : Grows I J c) : Welcome promised J d e where
  live := welcome.live
  dense := welcome.dense
  fresh asked q place alive := by
    have old := grows.empty d q place alive
    have same := grows.slot d q old
    rw [same] at alive ⊢
    exact welcome.fresh asked q old alive

end Entering

end Image

end PennOs.Fat
