import PennOs.Fat.Image

set_option autoImplicit false

/- The changes the file-system calls make to an image, one at a time, and that each keeps it
well formed. -/
namespace PennOs.Fat

open LinkedChain (Links Forest)

namespace Image

variable {I : Image} {b c d h last o : Nat} {p : Nat × Nat} {e : DirEntry}
  {row : Nat → DirEntry} {front : List Nat}

section Slots

def setRow (I : Image) (b : Nat) (row : Nat → DirEntry) : Image :=
  { I with slot := Function.update I.slot b row }

def setSlot (I : Image) (p : Nat × Nat) (e : DirEntry) : Image :=
  I.setRow p.1 (Function.update (I.slot p.1) p.2 e)

theorem setSlot_self (I : Image) (p : Nat × Nat) (e : DirEntry) :
    (I.setSlot p e).slot p.1 p.2 = e := by
  simp only [setSlot, setRow, Function.update_self]

theorem setSlot_ne (I : Image) {q : Nat × Nat} (e : DirEntry) (apart : q ≠ p) :
    (I.setSlot p e).slot q.1 q.2 = I.slot q.1 q.2 := by
  by_cases same : q.1 = p.1
  · have index : q.2 ≠ p.2 := fun same' => apart (Prod.ext same same')
    simp only [setSlot, setRow, same, Function.update_self, Function.update_of_ne index]
  · simp only [setSlot, setRow, Function.update_of_ne same]

theorem setSlot_setSlot (I : Image) (p : Nat × Nat) (e e' : DirEntry) :
    ((I.setSlot p e).setSlot p e').slot = (I.setSlot p e').slot := by
  simp only [setSlot, setRow, Function.update_self, Function.update_idem]

theorem setRow_self (I : Image) (b : Nat) (row : Nat → DirEntry) : (I.setRow b row).slot b = row :=
  Function.update_self _ _ _

theorem setRow_ne (I : Image) {b' : Nat} (row : Nat → DirEntry) (apart : b' ≠ b) :
    (I.setRow b row).slot b' = I.slot b' := Function.update_of_ne apart _ _

/-- '.' and '..' of a directory are not among the slots that name something. -/
theorem Wf.dot_ne (wf : I.Wf) (at_ : I.At d p) (named : ¬ DotSlot d p) {d' i : Nat}
    (here : I.dirs d') (proper : d' ≠ 1) (low : i < 2) : (d', i) ≠ p := by
  rintro rfl
  obtain rfl := wf.apart at_.block (wf.dir_mem here)
  exact named ⟨proper, rfl, low⟩

theorem Wf.setSlot_dots (wf : I.Wf) (at_ : I.At d p) (named : ¬ DotSlot d p) {d' : Nat}
    (here : I.dirs d') (proper : d' ≠ 1) : DotPair ((I.setSlot p e).slot d') d' := by
  have zero := I.setSlot_ne e (wf.dot_ne at_ named here proper (show 0 < 2 by decide))
  have one := I.setSlot_ne e (wf.dot_ne at_ named here proper (show 1 < 2 by decide))
  have pair := wf.dots d' here proper
  simp only at zero one
  exact ⟨by rw [zero]; exact pair.self, by rw [zero]; exact pair.selfType,
    by rw [zero]; exact pair.selfBlock, by rw [one]; exact pair.up, by rw [one]; exact pair.upType⟩

theorem Wf.setSlot_parent (wf : I.Wf) (at_ : I.At d p) (named : ¬ DotSlot d p) {d' : Nat}
    (here : I.dirs d') (proper : d' ≠ 1) : (I.setSlot p e).parent d' = I.parent d' := by
  have one := I.setSlot_ne e (wf.dot_ne at_ named here proper (show 1 < 2 by decide))
  simp only at one
  rw [parent, one]
  rfl

theorem Outside.setRow_dirs (out : I.Outside b) (wf : I.Wf) {d' : Nat} (here : I.dirs d') :
    (I.setRow b row).slot d' = I.slot d' := by
  apply I.setRow_ne
  rintro rfl
  exact out d' here (wf.dir_mem here)

end Slots

section Operations

/-- A free block becomes a loose chain of its own. -/
def alloc (I : Image) (b : Nat) : Image :=
  { I with
    fat := Function.update I.fat b fatEoc
    chain := Function.update I.chain b [b]
    loose := fun c => I.loose c ∨ c = b }

/-- The blocks of a loose chain become free. -/
def free (I : Image) (h : Nat) : Image :=
  { I with
    fat := fun b => if b ∈ I.chain h then fatFree else I.fat b
    chain := Function.update I.chain h []
    loose := fun c => I.loose c ∧ c ≠ h }

/-- A loose block is linked behind the last block of a chain. -/
def link (I : Image) (h last b : Nat) : Image :=
  { I with
    fat := Function.update I.fat last b
    chain := Function.update (Function.update I.chain b []) h (I.chain h ++ [b])
    loose := fun c => I.loose c ∧ c ≠ b }

/-- An entry is marked deleted, and what it named becomes loose. -/
def remove (I : Image) (p : Nat × Nat) : Image :=
  { I.setSlot p .deleted with
    loose := fun c => I.loose c ∨ c = (I.slot p.1 p.2).firstBlock.toNat }

/-- A slot gets an entry for something loose. -/
def add (I : Image) (p : Nat × Nat) (e : DirEntry) : Image :=
  { I.setSlot p e with loose := fun c => I.loose c ∧ c ≠ e.firstBlock.toNat }

/-- A loose block becomes a directory. -/
def makeDir (I : Image) (c : Nat) (row : Nat → DirEntry) : Image :=
  { I.setRow c row with dirs := fun d => I.dirs d ∨ d = c }

/-- A loose directory gives back its first block. It and the directories below it are lost. -/
def dropDir (I : Image) (c : Nat) : Image :=
  { I with
    fat := Function.update I.fat c fatFree
    chain := Function.update I.chain c []
    dirs := fun d => I.dirs d ∧ ¬ Hierarchy.Below 1 I.parent c d
    loose := fun x => I.loose x ∧ x ≠ c }

/-- The loose directory `c` is given up without giving back its blocks. -/
def orphan (I : Image) (c : Nat) : Image :=
  { I with
    dirs := fun d => I.dirs d ∧ ¬ Hierarchy.Below 1 I.parent c d
    loose := fun x => I.loose x ∧ x ≠ c }

end Operations

section Chains

theorem Wf.alloc (wf : I.Wf) (low : 2 ≤ b) (high : b < I.blocks) (free : I.fat b = fatFree) :
    (I.alloc b).Wf := by
  have empty := wf.chain_nil_of_free free
  have old : ∀ {d}, I.dirs d → d ≠ b := by
    rintro d here rfl
    exact wf.dirHead d here empty
  have links : ∀ d p c, (I.alloc b).Holds d p c → I.Holds d p c := by
    intro d p c link
    have member := link.block
    simp only [Image.alloc, Function.update_of_ne (old link.dir)] at member
    exact ⟨⟨link.dir, member, link.index⟩, link.live, link.named, link.first⟩
  have heldOld : ∀ d p c, I.Holds d p c → c ≠ b := by
    rintro d p c link rfl
    exact (wf.target d p c link).1 empty
  exact
    { wf with
      chains := by
        have planted : Forest (nextBlock (Function.update I.fat b fatEoc))
            (Function.update (List.head? ∘ I.chain) b (some b)) (Function.update I.chain b [b]) :=
          wf.chains.plant
            (fun node other => by simp only [nextBlock, Function.update_of_ne other])
            (by simp only [nextBlock, Function.update_self, linkOf_eoc])
            (fun j => wf.not_mem_of_free free)
        simp only [Image.alloc, Function.comp_update]
        exact planted
      headed := by
        intro h x head
        simp only [Image.alloc, Function.update_apply] at head
        split at head
        · next same => simpa [same] using head.symm
        · exact wf.headed h x head
      inside := by
        intro h x member
        simp only [Image.alloc, Function.update_apply] at member ⊢
        split at member
        · obtain rfl := List.mem_singleton.mp member
          rw [if_pos rfl]
          exact ⟨by omega, high, by decide⟩
        · have apart : x ≠ b := by
            rintro rfl
            exact wf.not_mem_of_free free member
          rw [if_neg apart]
          exact wf.inside h x member
      dirHead := by
        intro d here
        simp only [Image.alloc, Function.update_of_ne (old here)]
        exact wf.dirHead d here
      target := by
        intro d p c link
        have link' := links d p c link
        simp only [Image.alloc, Function.update_of_ne (heldOld d p c link')]
        exact wf.target d p c link'
      looseHead := by
        intro c free'
        simp only [Image.alloc, Function.update_apply]
        split
        · simp
        · next other => exact wf.looseHead c (free'.resolve_right other)
      tree := wf.tree.unlink (fun _ _ _ => rfl) links fun c free' d p link => by
        rcases free' with old' | rfl
        · exact wf.tree.looseFree c old' d p (links d p c link)
        · exact heldOld d p _ (links d p _ link) rfl }

theorem Wf.free (wf : I.Wf) (isLoose : I.loose h) (file : ¬ I.dirs h) : (I.free h).Wf := by
  have old : ∀ {d}, I.dirs d → d ≠ h := by
    rintro d here rfl
    exact file here
  have links : ∀ d p c, (I.free h).Holds d p c → I.Holds d p c := by
    intro d p c link
    have member := link.block
    simp only [Image.free, Function.update_of_ne (old link.dir)] at member
    exact ⟨⟨link.dir, member, link.index⟩, link.live, link.named, link.first⟩
  have heldOld : ∀ d p c, I.Holds d p c → c ≠ h := by
    rintro d p c link rfl
    exact wf.tree.looseFree c isLoose d p link
  exact
    { wf with
      chains := by
        have cleared : Forest (nextBlock (I.free h).fat)
            (Function.update (List.head? ∘ I.chain) h none) (Function.update I.chain h []) :=
          wf.chains.clear fun node other => by
            simp only [nextBlock, Image.free, other, ↓reduceIte]
        simp only [Image.free, Function.comp_update]
        exact cleared
      headed := by
        intro j x head
        simp only [Image.free, Function.update_apply] at head
        split at head
        · cases head
        · exact wf.headed j x head
      inside := by
        intro j x member
        simp only [Image.free, Function.update_apply] at member ⊢
        split at member
        · cases member
        · next other =>
            have away : x ∉ I.chain h := fun inside => other (wf.apart member inside)
            rw [if_neg away]
            exact wf.inside j x member
      dirHead := by
        intro d here
        simp only [Image.free, Function.update_of_ne (old here)]
        exact wf.dirHead d here
      target := by
        intro d p c link
        have link' := links d p c link
        simp only [Image.free, Function.update_of_ne (heldOld d p c link')]
        exact wf.target d p c link'
      looseHead := by
        intro c free'
        simp only [Image.free, Function.update_of_ne free'.2]
        exact wf.looseHead c free'.1
      tree := wf.tree.unlink (fun _ _ _ => rfl) links fun c free' d p link =>
        wf.tree.looseFree c free'.1 d p (links d p c link) }

theorem Wf.linked (wf : I.Wf) (here : I.chain h = front ++ [last]) (isLoose : I.loose b)
    (single : I.chain b = [b]) (file : ¬ I.dirs b) (apart : h ≠ b)
    (dead : I.dirs h → ∀ i < I.slots, (I.slot b i).live = false) : (I.link h last b).Wf := by
  have inB := wf.inside b b (by rw [single]; exact List.mem_singleton_self b)
  have linked : linkOf b = some b := by
    apply linkOf_of_ne
    have := wf.blocksMax
    simp only [fatEoc]
    omega
  have ends : nextBlock I.fat b = none := by
    have links := wf.links (h := b) (by simp [single])
    rw [single] at links
    exact links.2
  have chainOf : ∀ j, (I.link h last b).chain j =
      if j = h then I.chain h ++ [b] else if j = b then [] else I.chain j := by
    intro j
    simp only [Image.link, Function.update_apply]
  have links : ∀ d p c, (I.link h last b).Holds d p c → I.Holds d p c := by
    intro d p c link
    have member := link.block
    rw [chainOf] at member
    refine ⟨⟨link.dir, ?_, link.index⟩, link.live, link.named, link.first⟩
    split at member
    · next same =>
        subst same
        rcases List.mem_append.mp member with old | new
        · exact old
        · have live : (I.slot p.1 p.2).live = true := link.live
          rw [List.mem_singleton.mp new, dead link.dir p.2 link.index] at live
          cases live
    · split at member
      · cases member
      · exact member
  have heldOld : ∀ d p c, I.Holds d p c → c ≠ b := by
    rintro d p c link rfl
    exact wf.tree.looseFree c isLoose d p link
  have keeps : ∀ j, j ≠ b → I.chain j ≠ [] → (I.link h last b).chain j ≠ [] := by
    intro j other used
    rw [chainOf, if_neg other]
    split
    · simp
    · exact used
  exact
    { wf with
      chains := by
        have taken : Forest (nextBlock I.fat) (Function.update (List.head? ∘ I.chain) b none)
            (Function.update I.chain b []) := wf.chains.clear fun node _ => rfl
        have here' : Function.update I.chain b [] h = front ++ [last] := by
          rw [Function.update_of_ne apart, here]
        have fresh : ∀ j, b ∉ Function.update I.chain b [] j := by
          intro j member
          rw [Function.update_apply] at member
          split at member
          · cases member
          · next other =>
              exact other (wf.apart member (by rw [single]; exact List.mem_singleton_self b))
        have pushed := taken.push here' fresh ends
        have start : List.head? ∘ (I.link h last b).chain =
            Function.update (List.head? ∘ I.chain) b none := by
          simp only [Image.link, Function.comp_update, List.head?_append, here]
          funext j
          simp only [Function.update_apply, Function.comp]
          split
          · next same => rw [same, if_neg apart, here]; simp
          · rfl
        have next : nextBlock (I.link h last b).fat =
            Function.update (nextBlock I.fat) last (some b) := by
          funext j
          simp only [nextBlock, Image.link, Function.update_apply]
          split
          · exact linked
          · rfl
        rw [start, next]
        rw [Function.update_of_ne apart] at pushed
        exact pushed
      headed := by
        intro j x head
        rw [chainOf] at head
        split at head
        · next same =>
            rw [here] at head
            apply wf.headed j x
            rw [same, here]
            simpa using head
        · split at head
          · cases head
          · exact wf.headed j x head
      inside := by
        intro j x member
        rw [chainOf] at member
        have used : 1 ≤ x ∧ x < I.blocks ∧ I.fat x ≠ fatFree := by
          split at member
          · rcases List.mem_append.mp member with old | new
            · exact wf.inside h x old
            · rw [List.mem_singleton.mp new]
              exact inB
          · split at member
            · cases member
            · exact wf.inside j x member
        refine ⟨used.1, used.2.1, ?_⟩
        simp only [Image.link, Function.update_apply]
        split
        · simp only [fatFree]
          omega
        · exact used.2.2
      dirHead := by
        intro d here'
        refine keeps d ?_ (wf.dirHead d here')
        rintro rfl
        exact file here'
      target := by
        intro d p c link
        have link' := links d p c link
        exact ⟨keeps c (heldOld d p c link') (wf.target d p c link').1, (wf.target d p c link').2⟩
      looseHead := fun c free' => keeps c free'.2 (wf.looseHead c free'.1)
      tree := wf.tree.unlink (fun _ _ _ => rfl) links fun c free' d p link =>
        wf.tree.looseFree c free'.1 d p (links d p c link) }

end Chains

section Entries

/-- A block that is in no directory may hold anything. -/
theorem Wf.setRow (wf : I.Wf) (out : I.Outside b) (row : Nat → DirEntry) : (I.setRow b row).Wf := by
  have links : ∀ d p c, (I.setRow b row).Holds d p c → I.Holds d p c := by
    intro d p c link
    have apart : p.1 ≠ b := fun same => out d link.dir (same ▸ link.block)
    have same := I.setRow_ne row apart
    exact ⟨⟨link.dir, link.block, link.index⟩, same ▸ link.live, link.named, same ▸ link.first⟩
  have rows : ∀ d, I.dirs d → (I.setRow b row).slot d = I.slot d := fun d => out.setRow_dirs wf
  exact
    { wf with
      dots := by
        intro d here proper
        rw [rows d here]
        exact wf.dots d here proper
      target := by
        intro d p c link
        have apart : p.1 ≠ b := fun same => out d link.dir (same ▸ link.block)
        rw [I.setRow_ne row apart]
        exact wf.target d p c (links d p c link)
      tree := wf.tree.unlink (fun d here _ => by rw [parent, rows d here]; rfl) links
        fun c free d p link => wf.tree.looseFree c free d p (links d p c link) }

/-- The size, permissions and time of an entry do not matter. -/
theorem Wf.setMeta (wf : I.Wf) (live : (I.slot p.1 p.2).live = true)
    (name : e.cName = (I.slot p.1 p.2).cName) (type : e.type = (I.slot p.1 p.2).type)
    (first : e.firstBlock = (I.slot p.1 p.2).firstBlock) : (I.setSlot p e).Wf := by
  have same : ∀ q : Nat × Nat, ((I.setSlot p e).slot q.1 q.2).cName = (I.slot q.1 q.2).cName ∧
      ((I.setSlot p e).slot q.1 q.2).type = (I.slot q.1 q.2).type ∧
      ((I.setSlot p e).slot q.1 q.2).firstBlock = (I.slot q.1 q.2).firstBlock := by
    intro q
    by_cases here : q = p
    · rw [here, I.setSlot_self]
      exact ⟨name, type, first⟩
    · rw [I.setSlot_ne e here]
      exact ⟨rfl, rfl, rfl⟩
  have links : ∀ d q c, (I.setSlot p e).Holds d q c → I.Holds d q c := by
    intro d q c link
    refine ⟨⟨link.dir, link.block, link.index⟩, ?_, link.named, ?_⟩
    · by_cases here : q = p
      · rw [here]
        exact live
      · rw [← I.setSlot_ne e here]
        exact link.live
    · rw [← (same q).2.2]
      exact link.first
  exact
    { wf with
      dots := by
        intro d here proper
        have pair := wf.dots d here proper
        have zero := same (d, 0)
        have one := same (d, 1)
        exact ⟨zero.1.trans pair.self, zero.2.1.trans pair.selfType,
          by rw [zero.2.2]; exact pair.selfBlock, one.1.trans pair.up, one.2.1.trans pair.upType⟩
      target := by
        intro d q c link
        rw [(same q).2.1]
        exact wf.target d q c (links d q c link)
      tree := wf.tree.unlink (fun d _ _ => congrArg UInt16.toNat (same (d, 1)).2.2) links
        fun c free d q link => wf.tree.looseFree c free d q (links d q c link) }

theorem Wf.remove (wf : I.Wf) (held : I.Holds d p c) : (I.remove p).Wf := by
  have links : ∀ d' q c', (I.remove p).Holds d' q c' → I.Holds d' q c' ∧ q ≠ p := by
    intro d' q c' link
    have apart : q ≠ p := by
      rintro rfl
      have live := link.live
      simp only [Image.remove, I.setSlot_self, DirEntry.deleted_live] at live
      cases live
    have same := I.setSlot_ne DirEntry.deleted apart
    exact ⟨⟨⟨link.dir, link.block, link.index⟩, same ▸ link.live, link.named, same ▸ link.first⟩,
      apart⟩
  exact
    { wf with
      dots := fun d' here proper => wf.setSlot_dots held.toAt held.named here proper
      target := by
        intro d' q c' link
        obtain ⟨old, apart⟩ := links d' q c' link
        simp only [Image.remove, I.setSlot_ne DirEntry.deleted apart]
        exact wf.target d' q c' old
      looseHead := by
        intro x free
        rcases free with old | rfl
        · exact wf.looseHead x old
        · rw [held.first]
          exact (wf.target d p c held).1
      tree := wf.tree.unlink (fun d' here proper => wf.setSlot_parent held.toAt held.named here proper)
        (fun d' q c' link => (links d' q c' link).1) fun x free d' q link => by
          obtain ⟨old, apart⟩ := links d' q x link
          rcases free with free' | rfl
          · exact wf.tree.looseFree x free' d' q old
          · rw [held.first] at old
            exact apart (wf.tree.unique d' q d p c old held).2 }

theorem Wf.add (wf : I.Wf) (at_ : I.At d p) (dead : (I.slot p.1 p.2).live = false)
    (isLoose : I.loose e.firstBlock.toNat)
    (kind : e.type = DirEntry.typeDirectory ↔ I.dirs e.firstBlock.toNat)
    (proper : e.firstBlock.toNat ≠ 1)
    (agrees : I.dirs e.firstBlock.toNat → I.parent e.firstBlock.toNat = d) : (I.add p e).Wf := by
  have named := wf.not_dotSlot at_.dir dead
  have links : ∀ d' q c', (I.add p e).Holds d' q c' →
      (I.Holds d' q c' ∧ q ≠ p) ∨ (d' = d ∧ q = p ∧ c' = e.firstBlock.toNat) := by
    intro d' q c' link
    by_cases here : q = p
    · subst here
      have first := link.first
      simp only [Image.add, I.setSlot_self] at first
      exact .inr ⟨wf.at_unique ⟨link.dir, link.block, link.index⟩ at_, rfl, first.symm⟩
    · have same := I.setSlot_ne e here
      exact .inl ⟨⟨⟨link.dir, link.block, link.index⟩, same ▸ link.live, link.named,
        same ▸ link.first⟩, here⟩
  exact
    { wf with
      dots := fun d' here proper' => wf.setSlot_dots at_ named here proper'
      target := by
        intro d' q c' link
        rcases links d' q c' link with ⟨old, apart⟩ | ⟨rfl, rfl, rfl⟩
        · simp only [Image.add, I.setSlot_ne e apart]
          exact wf.target d' q c' old
        · simp only [Image.add, I.setSlot_self]
          exact ⟨wf.looseHead _ isLoose, kind⟩
      looseHead := fun x free => wf.looseHead x free.1
      tree := wf.tree.attach at_.dir proper isLoose agrees
        (fun d' here proper' => wf.setSlot_parent at_ named here proper')
        (fun d' q c' link => (links d' q c' link).imp_left And.left) fun _ free => free }

/-- Writing a slot that names nothing over a free slot. -/
theorem Wf.blank (wf : I.Wf) (at_ : I.At d p) (dead : (I.slot p.1 p.2).live = false)
    (dead' : e.live = false) : (I.setSlot p e).Wf := by
  have named := wf.not_dotSlot at_.dir dead
  have links : ∀ d' q c', (I.setSlot p e).Holds d' q c' → I.Holds d' q c' ∧ q ≠ p := by
    intro d' q c' link
    have apart : q ≠ p := by
      rintro rfl
      have live := link.live
      rw [I.setSlot_self, dead'] at live
      cases live
    have same := I.setSlot_ne e apart
    exact ⟨⟨⟨link.dir, link.block, link.index⟩, same ▸ link.live, link.named, same ▸ link.first⟩,
      apart⟩
  exact
    { wf with
      dots := fun d' here proper => wf.setSlot_dots at_ named here proper
      target := by
        intro d' q c' link
        obtain ⟨old, apart⟩ := links d' q c' link
        rw [I.setSlot_ne e apart]
        exact wf.target d' q c' old
      tree := wf.tree.unlink (fun d' here proper => wf.setSlot_parent at_ named here proper)
        (fun d' q c' link => (links d' q c' link).1) fun x free d' q link =>
          wf.tree.looseFree x free d' q (links d' q x link).1 }

end Entries

section Directories

theorem Wf.makeDir (wf : I.Wf) (isLoose : I.loose c) (file : ¬ I.dirs c)
    (single : I.chain c = [c]) (owned : I.dirs o) (pair : DotPair row c)
    (up : (row 1).firstBlock.toNat = o)
    (dead : ∀ i < I.slots, 2 ≤ i → (row i).live = false) : (I.makeDir c row).Wf := by
  have proper : c ≠ 1 := by
    rintro rfl
    exact file wf.root
  have old : ∀ {d}, I.dirs d → (I.makeDir c row).slot d = I.slot d := by
    intro d here
    apply I.setRow_ne
    rintro rfl
    exact file here
  have links : ∀ d p x, (I.makeDir c row).Holds d p x →
      I.Holds d p x ∧ (I.makeDir c row).slot p.1 = I.slot p.1 := by
    intro d p x link
    have rowOf : (I.makeDir c row).slot c = row := I.setRow_self c row
    rcases link.dir with here | rfl
    · have apart : p.1 ≠ c := by
        intro same
        have member : c ∈ I.chain d := same ▸ link.block
        obtain rfl := wf.apart member (by rw [single]; exact List.mem_singleton_self c)
        exact file here
      have same := I.setRow_ne row apart
      exact ⟨⟨⟨here, link.block, link.index⟩, same ▸ link.live, link.named, same ▸ link.first⟩,
        same⟩
    · have member : p.1 ∈ I.chain d := link.block
      rw [single] at member
      have block := List.mem_singleton.mp member
      by_cases low : p.2 < 2
      · exact absurd ⟨proper, block, low⟩ link.named
      · have live := link.live
        rw [block, rowOf, dead p.2 link.index (by omega)] at live
        cases live
  exact
    { wf with
      dirHead := by
        rintro d (here | rfl)
        · exact wf.dirHead d here
        · exact wf.looseHead _ isLoose
      dots := by
        rintro d (here | rfl) notRoot
        · rw [old here]
          exact wf.dots d here notRoot
        · have rowOf : (I.makeDir d row).slot d = row := I.setRow_self d row
          rw [rowOf]
          exact pair
      target := by
        intro d p x link
        obtain ⟨link', same⟩ := links d p x link
        have apart : x ≠ c := by
          rintro rfl
          exact wf.tree.looseFree _ isLoose d p link'
        obtain ⟨used, kind⟩ := wf.target d p x link'
        rw [same]
        refine ⟨used, kind.trans ⟨.inl, fun here => here.resolve_right apart⟩⟩
      tree := wf.tree.adopt owned proper isLoose file (fun _ => Iff.rfl)
        (by
          have rowOf : (I.makeDir c row).slot c = row := I.setRow_self c row
          rw [parent, rowOf]
          exact up)
        (fun d here _ => by rw [parent, old here]; rfl)
        (fun d p x link => (links d p x link).1) fun _ free => free }

theorem Wf.orphan (wf : I.Wf) (isLoose : I.loose c) (proper : c ≠ 1) : (I.orphan c).Wf := by
  have links : ∀ d p x, (I.orphan c).Holds d p x → I.Holds d p x ∧ (I.orphan c).dirs d :=
    fun _ _ _ link =>
      ⟨⟨⟨link.dir.1, link.block, link.index⟩, link.live, link.named, link.first⟩, link.dir⟩
  exact
    { wf with
      dirHead := fun d here => wf.dirHead d here.1
      dots := fun d here notRoot => wf.dots d here.1 notRoot
      target := by
        intro d p x link
        obtain ⟨link', here⟩ := links d p x link
        obtain ⟨used, kind⟩ := wf.target d p x link'
        refine ⟨used, kind.trans ⟨fun isDir => ⟨isDir, fun below => ?_⟩, And.left⟩⟩
        cases below with
        | self => exact wf.tree.looseFree _ isLoose d p link'
        | up notRoot above =>
            rw [wf.tree.parentOf d p x link' isDir] at above
            exact here.2 above
      looseHead := fun x free => wf.looseHead x free.1
      tree := wf.tree.dropBelow proper (fun _ => Iff.rfl) (fun _ _ _ => rfl) links
        fun x free d p link => wf.tree.looseFree x free.1 d p (links d p x link).1 }

/-- The first block of a chain that nothing names any more is given back. -/
theorem Wf.release (wf : I.Wf) (used : I.chain c ≠ []) (file : ¬ I.dirs c) (idle : ¬ I.loose c)
    (unheld : ∀ d p, ¬ I.Holds d p c) :
    ({ I with
      fat := Function.update I.fat c fatFree
      chain := Function.update I.chain c [] } : Image).Wf := by
  have dirApart : ∀ {d}, I.dirs d → d ≠ c := by
    rintro d here rfl
    exact file here
  have links : ∀ d p x, ({ I with
      fat := Function.update I.fat c fatFree
      chain := Function.update I.chain c [] } : Image).Holds d p x → I.Holds d p x := by
    intro d p x link
    have member : p.1 ∈ Function.update I.chain c [] d := link.block
    rw [Function.update_of_ne (dirApart link.dir)] at member
    exact ⟨⟨link.dir, member, link.index⟩, link.live, link.named, link.first⟩
  have heldApart : ∀ {d p x}, I.Holds d p x → x ≠ c := by
    rintro d p x link rfl
    exact unheld d p link
  exact
    { wf with
      chains := by
        have cleared : Forest (nextBlock (Function.update I.fat c fatFree))
            (Function.update (List.head? ∘ I.chain) c none) (Function.update I.chain c []) := by
          apply wf.chains.clear
          intro node other
          have apart : node ≠ c := by
            rintro rfl
            exact other (wf.head_mem used)
          simp only [nextBlock, Function.update_of_ne apart]
        simp only [Function.comp_update]
        exact cleared
      headed := by
        intro j x head
        simp only [Function.update_apply] at head
        split at head
        · cases head
        · exact wf.headed j x head
      inside := by
        intro j x member
        simp only [Function.update_apply] at member ⊢
        split at member
        · cases member
        · next other =>
            have away : x ≠ c := by
              rintro rfl
              exact other (wf.apart member (wf.head_mem used))
            rw [if_neg away]
            exact wf.inside j x member
      dirHead := by
        intro d here
        simp only [Function.update_of_ne (dirApart here)]
        exact wf.dirHead d here
      target := by
        intro d p x link
        have link' := links d p x link
        simp only [Function.update_of_ne (heldApart link')]
        exact wf.target d p x link'
      looseHead := by
        intro x free
        have apart : x ≠ c := by
          rintro rfl
          exact idle free
        simp only [Function.update_of_ne apart]
        exact wf.looseHead x free
      tree := wf.tree.unlink (fun _ _ _ => rfl) links
        fun x free d p link => wf.tree.looseFree x free d p (links d p x link) }

theorem Wf.dropDir (wf : I.Wf) (isLoose : I.loose c) (proper : c ≠ 1) : (I.dropDir c).Wf := by
  refine (wf.orphan isLoose proper).release (wf.looseHead c isLoose) (fun here => here.2 .self)
    (fun loose => loose.2 rfl) fun d p link => ?_
  exact wf.tree.looseFree c isLoose d p
    ⟨⟨link.dir.1, link.block, link.index⟩, link.live, link.named, link.first⟩

/-- All entries in the first block of the root directory go away. -/
theorem Wf.clearRoot (wf : I.Wf) (dead : ∀ i, (row i).live = false) : (I.setRow 1 row).Wf := by
  have apart : ∀ {d}, d ≠ 1 → (I.setRow 1 row).slot d = I.slot d := fun other => I.setRow_ne row other
  have links : ∀ d p c, (I.setRow 1 row).Holds d p c → I.Holds d p c ∧ p.1 ≠ 1 := by
    intro d p c link
    have other : p.1 ≠ 1 := by
      intro same
      have live := link.live
      rw [same, I.setRow_self, dead] at live
      cases live
    have same := apart other
    exact ⟨⟨⟨link.dir, link.block, link.index⟩, same ▸ link.live, link.named, same ▸ link.first⟩,
      other⟩
  exact
    { wf with
      dots := by
        intro d here proper
        rw [apart proper]
        exact wf.dots d here proper
      target := by
        intro d p c link
        obtain ⟨old, other⟩ := links d p c link
        rw [apart other]
        exact wf.target d p c old
      tree := wf.tree.unlink (fun d _ proper => by rw [parent, apart proper]; rfl)
        (fun d p c link => (links d p c link).1)
        fun x free d p link => wf.tree.looseFree x free d p (links d p x link).1 }

end Directories

end Image

end PennOs.Fat
