import PennOs.Fat.ImageEdits

set_option autoImplicit false

/- What a well-formed image may have on top: no block is lost, and no directory has two
entries of one name. -/
namespace PennOs.Fat

theorem DirEntry.name0_congr {e e' : DirEntry} (same : e.cName = e'.cName) : e.name0 = e'.name0 := by
  rw [cName_eq e, cName_eq e'] at same
  by_cases zero : e.name0 = 0
  · by_cases zero' : e'.name0 = 0
    · rw [zero, zero']
    · simp [zero, zero'] at same
  · by_cases zero' : e'.name0 = 0
    · simp [zero, zero'] at same
    · simp only [zero, zero', ↓reduceIte, List.cons.injEq] at same
      exact same.1

theorem DirEntry.live_congr {e e' : DirEntry} (same : e.cName = e'.cName) : e.live = e'.live := by
  simp only [DirEntry.live, DirEntry.name0_congr same]

namespace Image

variable {I : Image} {b c d h last o : Nat} {p : Nat × Nat} {e : DirEntry}
  {row : Nat → DirEntry} {front : List Nat}

/-- Every block in use is on the chain of the root directory, of an entry or of something the
running call will name. -/
structure Covered (I : Image) : Prop where
  used : ∀ b, 2 ≤ b → b < I.blocks → I.fat b ≠ fatFree → ∃ h, b ∈ I.chain h
  owned : ∀ h, I.chain h ≠ [] → h = 1 ∨ I.loose h ∨ ∃ d p, I.Holds d p h

/-- An empty name has no live entry behind it in its block. -/
def Dense (I : Image) : Prop :=
  ∀ d, I.dirs d → ∀ b ∈ I.chain d, ∀ i j, i < j → j < I.slots →
    (I.slot b i).name0 = 0 → (I.slot b j).live = false

/-- Live entries of a directory differ in their names, too. -/
structure Distinct (I : Image) : Prop where
  names : ∀ d p q, I.At d p → I.At d q → (I.slot p.1 p.2).live = true →
    (I.slot q.1 q.2).live = true → (I.slot p.1 p.2).cName = (I.slot q.1 q.2).cName → p = q
  dense : I.Dense

section Covering

theorem Covered.alloc (cover : I.Covered) (wf : I.Wf) (free : I.fat b = fatFree) :
    (I.alloc b).Covered where
  used x low high inUse := by
    by_cases same : x = b
    · exact ⟨b, by simp [Image.alloc, same]⟩
    · simp only [Image.alloc, Function.update_of_ne same] at inUse
      obtain ⟨h, member⟩ := cover.used x low high inUse
      refine ⟨h, ?_⟩
      have other : h ≠ b := by
        rintro rfl
        rw [wf.chain_nil_of_free free] at member
        cases member
      simpa only [Image.alloc, Function.update_of_ne other] using member
  owned h inUse := by
    by_cases same : h = b
    · exact .inr (.inl (.inr same))
    · simp only [Image.alloc, Function.update_of_ne same] at inUse
      rcases cover.owned h inUse with root | isLoose | ⟨d, p, link⟩
      · exact .inl root
      · exact .inr (.inl (.inl isLoose))
      · refine .inr (.inr ⟨d, p, ⟨link.dir, ?_, link.index⟩, link.live, link.named, link.first⟩)
        have other : d ≠ b := by
          rintro rfl
          exact wf.dirHead d link.dir (wf.chain_nil_of_free free)
        simpa only [Image.alloc, Function.update_of_ne other] using link.block

theorem Covered.free (cover : I.Covered) (file : ¬ I.dirs h) : (I.free h).Covered where
  used x low high inUse := by
    by_cases inside : x ∈ I.chain h
    · simp [Image.free, inside] at inUse
    · simp only [Image.free, inside, ↓reduceIte] at inUse
      obtain ⟨j, member⟩ := cover.used x low high inUse
      refine ⟨j, ?_⟩
      have other : j ≠ h := by
        rintro rfl
        exact inside member
      simpa only [Image.free, Function.update_of_ne other] using member
  owned j inUse := by
    have other : j ≠ h := by
      rintro rfl
      simp [Image.free] at inUse
    simp only [Image.free, Function.update_of_ne other] at inUse
    rcases cover.owned j inUse with root | isLoose | ⟨d, p, link⟩
    · exact .inl root
    · exact .inr (.inl ⟨isLoose, other⟩)
    · refine .inr (.inr ⟨d, p, ⟨link.dir, ?_, link.index⟩, link.live, link.named, link.first⟩)
      have apart : d ≠ h := by
        rintro rfl
        exact file link.dir
      simpa only [Image.free, Function.update_of_ne apart] using link.block

theorem link_chain (I : Image) (h last b j : Nat) : (I.link h last b).chain j =
    if j = h then I.chain h ++ [b] else if j = b then [] else I.chain j := by
  simp only [Image.link, Function.update_apply]

theorem mem_link_chain {j x : Nat} (member : x ∈ I.chain j) (other : j ≠ b) :
    x ∈ (I.link h last b).chain j := by
  rw [link_chain, if_neg other]
  split
  · next same => exact List.mem_append_left _ (same ▸ member)
  · exact member

theorem Covered.linked (cover : I.Covered) (here : I.chain h = front ++ [last])
    (single : I.chain b = [b]) (file : ¬ I.dirs b) (apart : h ≠ b) : (I.link h last b).Covered where
  used x low high inUse := by
    have old : ∃ j, x ∈ I.chain j := by
      by_cases same : x = last
      · exact ⟨h, by simp [here, same]⟩
      · simp only [Image.link, Function.update_of_ne same] at inUse
        exact cover.used x low high inUse
    obtain ⟨j, member⟩ := old
    by_cases other : j = b
    · rw [other, single] at member
      refine ⟨h, ?_⟩
      rw [link_chain, if_pos rfl]
      exact List.mem_append_right _ member
    · exact ⟨j, mem_link_chain member other⟩
  owned j inUse := by
    have old : j ≠ b ∧ I.chain j ≠ [] := by
      rw [link_chain] at inUse
      split at inUse
      · next same => exact ⟨same ▸ apart, by rw [same, here]; simp⟩
      · split at inUse
        · exact absurd rfl inUse
        · next other => exact ⟨other, inUse⟩
    rcases cover.owned j old.2 with root | isLoose | ⟨d, p, link⟩
    · exact .inl root
    · exact .inr (.inl ⟨isLoose, old.1⟩)
    · refine .inr (.inr ⟨d, p, ⟨link.dir, mem_link_chain link.block ?_, link.index⟩, link.live,
        link.named, link.first⟩)
      rintro rfl
      exact file link.dir

theorem Covered.setRow (cover : I.Covered) (out : I.Outside b) (row : Nat → DirEntry) :
    (I.setRow b row).Covered where
  used := cover.used
  owned j inUse := by
    rcases cover.owned j inUse with root | isLoose | ⟨d, p, link⟩
    · exact .inl root
    · exact .inr (.inl isLoose)
    · have apart : p.1 ≠ b := fun same => out d link.dir (same ▸ link.block)
      have same := I.setRow_ne row apart
      exact .inr (.inr ⟨d, p, ⟨link.dir, link.block, link.index⟩, by rw [same]; exact link.live,
        link.named, by rw [same]; exact link.first⟩)

theorem Covered.setMeta (cover : I.Covered) (name : e.cName = (I.slot p.1 p.2).cName)
    (first : e.firstBlock = (I.slot p.1 p.2).firstBlock) : (I.setSlot p e).Covered where
  used := cover.used
  owned j inUse := by
    rcases cover.owned j inUse with root | isLoose | ⟨d, q, link⟩
    · exact .inl root
    · exact .inr (.inl isLoose)
    · refine .inr (.inr ⟨d, q, ⟨link.dir, link.block, link.index⟩, ?_, link.named, ?_⟩)
      · by_cases here : q = p
        · rw [here, I.setSlot_self, DirEntry.live_congr name, ← here]
          exact link.live
        · rw [I.setSlot_ne e here]
          exact link.live
      · by_cases here : q = p
        · rw [here, I.setSlot_self, first, ← here]
          exact link.first
        · rw [I.setSlot_ne e here]
          exact link.first

theorem Covered.remove (cover : I.Covered) : (I.remove p).Covered where
  used := cover.used
  owned j inUse := by
    rcases cover.owned j inUse with root | isLoose | ⟨d, q, link⟩
    · exact .inl root
    · exact .inr (.inl (.inl isLoose))
    · by_cases here : q = p
      · exact .inr (.inl (.inr (here ▸ link.first.symm)))
      · have same := I.setSlot_ne DirEntry.deleted here
        exact .inr (.inr ⟨d, q, ⟨link.dir, link.block, link.index⟩,
          by simp only [Image.remove, same]; exact link.live, link.named,
          by simp only [Image.remove, same]; exact link.first⟩)

theorem Covered.add (cover : I.Covered) (wf : I.Wf) (at_ : I.At d p)
    (dead : (I.slot p.1 p.2).live = false) (live : e.live = true) : (I.add p e).Covered where
  used := cover.used
  owned j inUse := by
    have held : ∀ {d q}, I.Holds d q j → ∃ d q, (I.add p e).Holds d q j := by
      intro d q link
      have apart : q ≠ p := by
        rintro rfl
        have live := link.live
        rw [dead] at live
        cases live
      have same := I.setSlot_ne e apart
      exact ⟨d, q, ⟨link.dir, link.block, link.index⟩, by simp only [Image.add, same]; exact link.live,
        link.named, by simp only [Image.add, same]; exact link.first⟩
    rcases cover.owned j inUse with root | isLoose | ⟨d', q, link⟩
    · exact .inl root
    · by_cases new : j = e.firstBlock.toNat
      · refine .inr (.inr ⟨d, p, ⟨at_.dir, at_.block, at_.index⟩, ?_, wf.not_dotSlot at_.dir dead, ?_⟩)
        · simp only [Image.add, I.setSlot_self]
          exact live
        · simp only [Image.add, I.setSlot_self]
          exact new.symm
      · exact .inr (.inl ⟨isLoose, new⟩)
    · exact .inr (.inr (held link))

theorem Covered.makeDir (cover : I.Covered) (wf : I.Wf) (single : I.chain c = [c])
    (file : ¬ I.dirs c) : (I.makeDir c row).Covered where
  used := cover.used
  owned j inUse := by
    rcases cover.owned j inUse with root | isLoose | ⟨d, q, link⟩
    · exact .inl root
    · exact .inr (.inl isLoose)
    · have apart : q.1 ≠ c := by
        intro same
        have member : c ∈ I.chain d := same ▸ link.block
        obtain rfl := wf.apart member (by rw [single]; exact List.mem_singleton_self c)
        exact file link.dir
      have same : (I.makeDir c row).slot q.1 = I.slot q.1 := I.setRow_ne row apart
      exact .inr (.inr ⟨d, q, ⟨.inl link.dir, link.block, link.index⟩, by rw [same]; exact link.live,
        link.named, by rw [same]; exact link.first⟩)

/-- An empty directory of one block may go without losing a block. -/
theorem Covered.dropDir (cover : I.Covered) (wf : I.Wf) (single : I.chain c = [c])
    (empty : ∀ p x, ¬ I.Holds c p x)
    (others : ∀ x, I.loose x → I.dirs x → x ≠ c → I.parent x ≠ c) : (I.dropDir c).Covered := by
  have onlyTop : ∀ d, Hierarchy.Below 1 I.parent c d → I.dirs d → d = c := by
    intro d below
    induction below with
    | self => exact fun _ => rfl
    | @up d notRoot _ ih =>
        intro here
        by_contra other
        have pointer := ih (wf.dir_parent here notRoot)
        rcases cover.owned d (wf.dirHead d here) with root | isLoose | ⟨d', q, link⟩
        · exact notRoot root
        · exact others d isLoose here other pointer
        · rw [wf.tree.parentOf d' q d link here] at pointer
          exact empty q d (pointer ▸ link)
  constructor
  · intro x low high inUse
    have away : x ≠ c := by
      rintro rfl
      simp [Image.dropDir] at inUse
    simp only [Image.dropDir, Function.update_of_ne away] at inUse
    obtain ⟨j, member⟩ := cover.used x low high inUse
    refine ⟨j, ?_⟩
    have other : j ≠ c := by
      rintro rfl
      rw [single] at member
      exact away (List.mem_singleton.mp member)
    simpa only [Image.dropDir, Function.update_of_ne other] using member
  · intro j inUse
    have other : j ≠ c := by
      rintro rfl
      simp [Image.dropDir] at inUse
    simp only [Image.dropDir, Function.update_of_ne other] at inUse
    rcases cover.owned j inUse with root | isLoose | ⟨d, q, link⟩
    · exact .inl root
    · exact .inr (.inl ⟨isLoose, other⟩)
    · have apart : d ≠ c := by
        rintro rfl
        exact empty q j link
      refine .inr (.inr ⟨d, q, ⟨⟨link.dir, fun below => apart (onlyTop d below link.dir)⟩, ?_,
        link.index⟩, link.live, link.named, link.first⟩)
      simpa only [Image.dropDir, Function.update_of_ne apart] using link.block

theorem Covered.clearRoot (cover : I.Covered) (empty : ∀ i < I.slots, (I.slot 1 i).live = false) :
    (I.setRow 1 row).Covered where
  used := cover.used
  owned j inUse := by
    rcases cover.owned j inUse with root | isLoose | ⟨d, q, link⟩
    · exact .inl root
    · exact .inr (.inl isLoose)
    · have apart : q.1 ≠ 1 := by
        intro same
        have live := link.live
        rw [same, empty q.2 link.index] at live
        cases live
      have same := I.setRow_ne row apart
      exact .inr (.inr ⟨d, q, ⟨link.dir, link.block, link.index⟩, by rw [same]; exact link.live,
        link.named, by rw [same]; exact link.first⟩)

end Covering

section Naming

theorem alloc_chain (wf : I.Wf) (free : I.fat b = fatFree) (here : I.dirs d) :
    (I.alloc b).chain d = I.chain d := by
  apply Function.update_of_ne
  rintro rfl
  exact wf.dirHead d here (wf.chain_nil_of_free free)

theorem free_chain (file : ¬ I.dirs h) (here : I.dirs d) : (I.free h).chain d = I.chain d := by
  apply Function.update_of_ne
  rintro rfl
  exact file here

theorem mem_chain_of_link {x : Nat} (member : x ∈ (I.link h last b).chain d) :
    x ∈ I.chain d ∨ (d = h ∧ x = b) := by
  rw [link_chain] at member
  split at member
  · next same =>
      rcases List.mem_append.mp member with old | new
      · exact .inl (same ▸ old)
      · exact .inr ⟨same, List.mem_singleton.mp new⟩
  · split at member
    · cases member
    · exact .inl member

theorem setMeta_cName (name : e.cName = (I.slot p.1 p.2).cName) (q : Nat × Nat) :
    ((I.setSlot p e).slot q.1 q.2).cName = (I.slot q.1 q.2).cName := by
  by_cases here : q = p
  · rw [here, I.setSlot_self, name]
  · rw [I.setSlot_ne e here]

theorem makeDir_slot (wf : I.Wf) (file : ¬ I.dirs c) (single : I.chain c = [c]) {x : Nat}
    (here : I.dirs d) (member : x ∈ I.chain d) : (I.makeDir c row).slot x = I.slot x := by
  apply I.setRow_ne
  rintro rfl
  obtain rfl := wf.apart member (by rw [single]; exact List.mem_singleton_self x)
  exact file here

theorem dropDir_chain (here : (I.dropDir c).dirs d) : (I.dropDir c).chain d = I.chain d := by
  apply Function.update_of_ne
  rintro rfl
  exact here.2 .self

theorem Dense.alloc (dense : I.Dense) (wf : I.Wf) (free : I.fat b = fatFree) : (I.alloc b).Dense :=
  fun d here x member => dense d here x (alloc_chain wf free here ▸ member)

theorem Dense.free (dense : I.Dense) (file : ¬ I.dirs h) : (I.free h).Dense :=
  fun d here x member => dense d here x (free_chain file here ▸ member)

theorem Dense.linked (dense : I.Dense)
    (dead : I.dirs h → ∀ i < I.slots, (I.slot b i).live = false) : (I.link h last b).Dense := by
  intro d here x member i j less inside ends
  rcases mem_chain_of_link member with old | ⟨rfl, rfl⟩
  · exact dense d here x old i j less inside ends
  · exact dead here j inside

theorem Dense.setRow (dense : I.Dense) (out : I.Outside b) (row : Nat → DirEntry) :
    (I.setRow b row).Dense := by
  intro d here x member
  have apart : x ≠ b := fun same => out d here (same ▸ member)
  rw [I.setRow_ne row apart]
  exact dense d here x member

theorem Dense.setMeta (dense : I.Dense) (name : e.cName = (I.slot p.1 p.2).cName) :
    (I.setSlot p e).Dense := by
  intro d here x member i j less inside ends
  have same := setMeta_cName name
  rw [DirEntry.live_congr (same (x, j))]
  apply dense d here x member i j less inside
  rw [← DirEntry.name0_congr (same (x, i))]
  exact ends

/-- A slot gets an entry that is not live and not at the end of its block. -/
theorem Dense.blank (dense : I.Dense) (dead : e.live = false) (visible : e.name0 ≠ 0) :
    (I.setSlot p e).Dense := by
  intro d here x member i j less inside ends
  have apart : (x, i) ≠ p := by
    rintro rfl
    rw [I.setSlot_self (x, i) e] at ends
    exact visible ends
  have old := I.setSlot_ne e apart
  simp only at old
  rw [old] at ends
  by_cases same : (x, j) = p
  · subst same
    rw [I.setSlot_self (x, j) e]
    exact dead
  · have old' := I.setSlot_ne e same
    simp only at old'
    rw [old']
    exact dense d here x member i j less inside ends

theorem Dense.remove (dense : I.Dense) : (I.remove p).Dense :=
  dense.blank DirEntry.deleted_live (by decide)

/-- No empty name comes before the slot. -/
theorem Dense.add (dense : I.Dense) (live : e.live = true)
    (before : ∀ i < p.2, (I.slot p.1 i).name0 ≠ 0) : (I.add p e).Dense := by
  intro d here x member i j less inside ends
  have old : ∀ {k}, (x, k) ≠ p → (I.add p e).slot x k = I.slot x k :=
    fun other => I.setSlot_ne e other
  by_cases same : (x, i) = p
  · subst same
    have new : (I.add (x, i) e).slot x i = e := I.setSlot_self (x, i) e
    rw [new] at ends
    exact absurd ends (DirEntry.live_iff.mp live).1
  · rw [old same] at ends
    have later : (x, j) ≠ p := by
      rintro rfl
      exact before i less ends
    rw [old later]
    exact dense d here x member i j less inside ends

theorem Dense.makeDir (dense : I.Dense) (wf : I.Wf) (file : ¬ I.dirs c)
    (single : I.chain c = [c]) (pair : DotPair row c)
    (dead : ∀ i < I.slots, 2 ≤ i → (row i).live = false) : (I.makeDir c row).Dense := by
  intro d here x member i j less inside ends
  rcases here with here | rfl
  · rw [makeDir_slot wf file single here member] at ends ⊢
    exact dense d here x member i j less inside ends
  · have block : x ∈ I.chain d := member
    have rowOf : (I.makeDir d row).slot d = row := I.setRow_self d row
    rw [single] at block
    rw [List.mem_singleton.mp block, rowOf] at ends ⊢
    by_cases first : j < 2
    · obtain rfl : i = 0 := by omega
      exact absurd ends (DirEntry.live_iff.mp (pair.live (by decide))).1
    · exact dead j inside (by omega)

theorem Dense.dropDir (dense : I.Dense) : (I.dropDir c).Dense :=
  fun d here x member => dense d here.1 x (dropDir_chain here ▸ member)

theorem Dense.clearRoot (dense : I.Dense) (dead : ∀ i, (row i).live = false) :
    (I.setRow 1 row).Dense := by
  intro d here x member i j less inside ends
  by_cases same : x = 1
  · rw [same, I.setRow_self]
    exact dead j
  · rw [I.setRow_ne row same] at ends ⊢
    exact dense d here x member i j less inside ends

/-- Directories keep their live slots: names stay distinct. -/
theorem Distinct.of_slots {J : Image} (distinct : I.Distinct)
    (at_ : ∀ d p, J.At d p → (J.slot p.1 p.2).live = true →
      I.At d p ∧ (J.slot p.1 p.2).cName = (I.slot p.1 p.2).cName)
    (dense : J.Dense) : J.Distinct where
  names d p q first second live live' same := by
    obtain ⟨first', name⟩ := at_ d p first live
    obtain ⟨second', name'⟩ := at_ d q second live'
    exact distinct.names d p q first' second' (by rw [← DirEntry.live_congr name]; exact live)
      (by rw [← DirEntry.live_congr name']; exact live') (name ▸ name' ▸ same)
  dense := dense

theorem Distinct.alloc (distinct : I.Distinct) (wf : I.Wf) (free : I.fat b = fatFree) :
    (I.alloc b).Distinct :=
  distinct.of_slots (fun _ _ place _ =>
    ⟨⟨place.dir, alloc_chain wf free place.dir ▸ place.block, place.index⟩, rfl⟩)
    (distinct.dense.alloc wf free)

theorem Distinct.free (distinct : I.Distinct) (file : ¬ I.dirs h) : (I.free h).Distinct :=
  distinct.of_slots (fun _ _ place _ =>
    ⟨⟨place.dir, free_chain file place.dir ▸ place.block, place.index⟩, rfl⟩)
    (distinct.dense.free file)

theorem Distinct.linked (distinct : I.Distinct)
    (dead : I.dirs h → ∀ i < I.slots, (I.slot b i).live = false) : (I.link h last b).Distinct := by
  refine distinct.of_slots (fun d p place live => ?_) (distinct.dense.linked dead)
  rcases mem_chain_of_link place.block with old | ⟨rfl, same⟩
  · exact ⟨⟨place.dir, old, place.index⟩, rfl⟩
  · have live' : (I.slot p.1 p.2).live = true := live
    rw [same, dead place.dir p.2 place.index] at live'
    cases live'

theorem Distinct.setRow (distinct : I.Distinct) (out : I.Outside b) (row : Nat → DirEntry) :
    (I.setRow b row).Distinct := by
  refine distinct.of_slots (fun d p place _ => ?_) (distinct.dense.setRow out row)
  have apart : p.1 ≠ b := fun same => out d place.dir (same ▸ place.block)
  exact ⟨⟨place.dir, place.block, place.index⟩, by rw [I.setRow_ne row apart]⟩

theorem Distinct.setMeta (distinct : I.Distinct) (name : e.cName = (I.slot p.1 p.2).cName) :
    (I.setSlot p e).Distinct :=
  distinct.of_slots (fun _ q place _ =>
    ⟨⟨place.dir, place.block, place.index⟩, setMeta_cName name q⟩) (distinct.dense.setMeta name)

theorem Distinct.blank (distinct : I.Distinct) (dead : e.live = false) (visible : e.name0 ≠ 0) :
    (I.setSlot p e).Distinct := by
  refine distinct.of_slots (fun d q place live => ?_) (distinct.dense.blank dead visible)
  have apart : q ≠ p := by
    rintro rfl
    rw [I.setSlot_self, dead] at live
    cases live
  exact ⟨⟨place.dir, place.block, place.index⟩, by rw [I.setSlot_ne e apart]⟩

theorem Distinct.remove (distinct : I.Distinct) : (I.remove p).Distinct := by
  have blanked := distinct.blank (p := p) DirEntry.deleted_live (by decide)
  exact blanked.of_slots (fun _ _ place _ => ⟨⟨place.dir, place.block, place.index⟩, rfl⟩)
    blanked.dense

/-- The new name is not in the directory yet, and no empty name comes before the slot. -/
theorem Distinct.add (distinct : I.Distinct) (wf : I.Wf) (at_ : I.At d p) (live : e.live = true)
    (fresh : ∀ q, I.At d q → q ≠ p → (I.slot q.1 q.2).live = true →
      (I.slot q.1 q.2).cName ≠ e.cName)
    (before : ∀ i < p.2, (I.slot p.1 i).name0 ≠ 0) : (I.add p e).Distinct where
  names d' q q' first second alive alive' same := by
    have new : (I.add p e).slot p.1 p.2 = e := I.setSlot_self p e
    have old : ∀ {q : Nat × Nat}, q ≠ p → (I.add p e).slot q.1 q.2 = I.slot q.1 q.2 :=
      fun other => I.setSlot_ne e other
    have place : ∀ {q}, (I.add p e).At d' q → I.At d' q :=
      fun there => ⟨there.dir, there.block, there.index⟩
    by_cases here : q = p
    · by_cases here' : q' = p
      · rw [here, here']
      · rw [here] at first same
        obtain rfl := wf.at_unique (place first) at_
        rw [new, old here'] at same
        rw [old here'] at alive'
        exact absurd same.symm (fresh q' (place second) here' alive')
    · rw [old here] at alive same
      by_cases here' : q' = p
      · rw [here'] at second same
        obtain rfl := wf.at_unique (place second) at_
        rw [new] at same
        exact absurd same (fresh q (place first) here alive)
      · rw [old here'] at alive' same
        exact distinct.names d' q q' (place first) (place second) alive alive' same
  dense := distinct.dense.add live before

theorem Distinct.makeDir (distinct : I.Distinct) (wf : I.Wf) (file : ¬ I.dirs c)
    (single : I.chain c = [c]) (pair : DotPair row c)
    (dead : ∀ i < I.slots, 2 ≤ i → (row i).live = false) : (I.makeDir c row).Distinct := by
  have rowOf : (I.makeDir c row).slot c = row := I.setRow_self c row
  have low : ∀ q : Nat × Nat, (I.makeDir c row).At c q →
      ((I.makeDir c row).slot q.1 q.2).live = true → q.1 = c ∧ (q.2 = 0 ∨ q.2 = 1) := by
    intro q place live
    have block : q.1 ∈ I.chain c := place.block
    rw [single] at block
    have same := List.mem_singleton.mp block
    refine ⟨same, ?_⟩
    by_contra high
    rw [same, rowOf, dead q.2 place.index (by omega)] at live
    cases live
  refine ⟨?_, distinct.dense.makeDir wf file single pair dead⟩
  intro d q q' first second live live' same
  rcases first.dir with here | rfl
  · have place : I.At d q := ⟨here, first.block, first.index⟩
    have place' : I.At d q' := ⟨here, second.block, second.index⟩
    rw [makeDir_slot wf file single here place.block] at live same
    rw [makeDir_slot wf file single here place'.block] at live' same
    exact distinct.names d q q' place place' live live' same
  · obtain ⟨block, index⟩ := low q first live
    obtain ⟨block', index'⟩ := low q' second live'
    rw [block, block', rowOf] at same
    refine Prod.ext (block.trans block'.symm) ?_
    rcases index with zero | one <;> rcases index' with zero' | one'
    · exact zero.trans zero'.symm
    · rw [zero, one', pair.self, pair.up] at same
      exact absurd same (by decide)
    · rw [one, zero', pair.self, pair.up] at same
      exact absurd same (by decide)
    · exact one.trans one'.symm

theorem Distinct.dropDir (distinct : I.Distinct) : (I.dropDir c).Distinct :=
  distinct.of_slots (fun _ _ place _ =>
    ⟨⟨place.dir.1, dropDir_chain place.dir ▸ place.block, place.index⟩, rfl⟩)
    distinct.dense.dropDir

theorem Distinct.orphan (distinct : I.Distinct) : (I.orphan c).Distinct :=
  distinct.of_slots (fun _ _ place _ => ⟨⟨place.dir.1, place.block, place.index⟩, rfl⟩)
    fun d here => distinct.dense d here.1

theorem Distinct.clearRoot (distinct : I.Distinct) (dead : ∀ i, (row i).live = false) :
    (I.setRow 1 row).Distinct := by
  refine distinct.of_slots (fun d p place live => ?_) (distinct.dense.clearRoot dead)
  have apart : p.1 ≠ 1 := by
    intro same
    rw [same, I.setRow_self, dead] at live
    cases live
  exact ⟨⟨place.dir, place.block, place.index⟩, by rw [I.setRow_ne row apart]⟩

end Naming

/-- What is asked of an image on top of its being well formed. -/
structure Promises where
  lossless : Prop
  dense : Prop
  distinct : Prop

/-- A well-formed image that keeps its promises. -/
structure Good (promised : Promises) (I : Image) : Prop where
  wf : I.Wf
  covered : promised.lossless → I.Covered
  dense : promised.dense → I.Dense
  distinct : promised.distinct → I.Distinct

namespace Good

variable {promised : Promises} (good : I.Good promised)

include good

theorem alloc (low : 2 ≤ b) (high : b < I.blocks) (free : I.fat b = fatFree) :
    (I.alloc b).Good promised :=
  ⟨good.wf.alloc low high free, fun all => (good.covered all).alloc good.wf free,
    fun all => (good.dense all).alloc good.wf free,
    fun all => (good.distinct all).alloc good.wf free⟩

theorem free (isLoose : I.loose h) (file : ¬ I.dirs h) : (I.free h).Good promised :=
  ⟨good.wf.free isLoose file, fun all => (good.covered all).free file,
    fun all => (good.dense all).free file, fun all => (good.distinct all).free file⟩

theorem linked (here : I.chain h = front ++ [last]) (isLoose : I.loose b) (single : I.chain b = [b])
    (file : ¬ I.dirs b) (apart : h ≠ b)
    (dead : I.dirs h → ∀ i < I.slots, (I.slot b i).live = false) : (I.link h last b).Good promised :=
  ⟨good.wf.linked here isLoose single file apart dead,
    fun all => (good.covered all).linked here single file apart,
    fun all => (good.dense all).linked dead, fun all => (good.distinct all).linked dead⟩

theorem setRow (out : I.Outside b) (row : Nat → DirEntry) : (I.setRow b row).Good promised :=
  ⟨good.wf.setRow out row, fun all => (good.covered all).setRow out row,
    fun all => (good.dense all).setRow out row, fun all => (good.distinct all).setRow out row⟩

theorem setMeta (live : (I.slot p.1 p.2).live = true) (name : e.cName = (I.slot p.1 p.2).cName)
    (type : e.type = (I.slot p.1 p.2).type)
    (first : e.firstBlock = (I.slot p.1 p.2).firstBlock) : (I.setSlot p e).Good promised :=
  ⟨good.wf.setMeta live name type first, fun all => (good.covered all).setMeta name first,
    fun all => (good.dense all).setMeta name, fun all => (good.distinct all).setMeta name⟩

theorem remove (held : I.Holds d p c) : (I.remove p).Good promised :=
  ⟨good.wf.remove held, fun all => (good.covered all).remove,
    fun all => (good.dense all).remove, fun all => (good.distinct all).remove⟩

theorem add (at_ : I.At d p) (dead : (I.slot p.1 p.2).live = false) (live : e.live = true)
    (isLoose : I.loose e.firstBlock.toNat)
    (kind : e.type = DirEntry.typeDirectory ↔ I.dirs e.firstBlock.toNat)
    (proper : e.firstBlock.toNat ≠ 1)
    (agrees : I.dirs e.firstBlock.toNat → I.parent e.firstBlock.toNat = d)
    (fresh : promised.distinct → ∀ q, I.At d q → q ≠ p → (I.slot q.1 q.2).live = true →
      (I.slot q.1 q.2).cName ≠ e.cName)
    (before : ∀ i < p.2, (I.slot p.1 i).name0 ≠ 0) : (I.add p e).Good promised :=
  ⟨good.wf.add at_ dead isLoose kind proper agrees,
    fun all => (good.covered all).add good.wf at_ dead live,
    fun all => (good.dense all).add live before,
    fun all => (good.distinct all).add good.wf at_ live (fresh all) before⟩

/-- An entry that is not live is written. -/
theorem blank (at_ : I.At d p) (dead : (I.slot p.1 p.2).live = false) (dead' : e.live = false)
    (loses : ¬ promised.lossless) (visible : promised.dense ∨ promised.distinct → e.name0 ≠ 0) :
    (I.setSlot p e).Good promised :=
  ⟨good.wf.blank at_ dead dead', fun all => absurd all loses,
    fun all => (good.dense all).blank dead' (visible (.inl all)),
    fun all => (good.distinct all).blank dead' (visible (.inr all))⟩

theorem makeDir (isLoose : I.loose c) (file : ¬ I.dirs c) (single : I.chain c = [c])
    (owned : I.dirs o) (pair : DotPair row c) (up : (row 1).firstBlock.toNat = o)
    (dead : ∀ i < I.slots, 2 ≤ i → (row i).live = false) : (I.makeDir c row).Good promised :=
  ⟨good.wf.makeDir isLoose file single owned pair up dead,
    fun all => (good.covered all).makeDir good.wf single file,
    fun all => (good.dense all).makeDir good.wf file single pair dead,
    fun all => (good.distinct all).makeDir good.wf file single pair dead⟩

theorem dropDir (isLoose : I.loose c) (proper : c ≠ 1)
    (vacant : promised.lossless → I.chain c = [c] ∧ (∀ p x, ¬ I.Holds c p x) ∧
      ∀ x, I.loose x → I.dirs x → x ≠ c → I.parent x ≠ c) : (I.dropDir c).Good promised :=
  ⟨good.wf.dropDir isLoose proper,
    fun all => (good.covered all).dropDir good.wf (vacant all).1 (vacant all).2.1 (vacant all).2.2,
    fun all => (good.dense all).dropDir, fun all => (good.distinct all).dropDir⟩

/-- A directory is given up, and its blocks are lost. -/
theorem orphan (isLoose : I.loose c) (proper : c ≠ 1) (loses : ¬ promised.lossless) :
    (I.orphan c).Good promised :=
  ⟨good.wf.orphan isLoose proper, fun all => absurd all loses,
    fun all d here => good.dense all d here.1, fun all => (good.distinct all).orphan⟩

theorem clearRoot (dead : ∀ i, (row i).live = false)
    (empty : promised.lossless → ∀ i < I.slots, (I.slot 1 i).live = false) :
    (I.setRow 1 row).Good promised :=
  ⟨good.wf.clearRoot dead, fun all => (good.covered all).clearRoot (empty all),
    fun all => (good.dense all).clearRoot dead, fun all => (good.distinct all).clearRoot dead⟩

end Good

end Image

end PennOs.Fat
