import PennOs.Fat.VolumeRuns

set_option autoImplicit false

/- The directory tree as it lies on the image, and what the FAT calls promise about it. -/
namespace PennOs.Fat

open LinkedChain (Links)
open Image (Promises)

namespace Fs

/-- The volume as it lies on the image, mounted or not. -/
def disk (s : Fs) : Fs :=
  { Fs.initial with
    file := s.file
    fileSize := s.fileSize
    gBlockSize := blockSizes (s.file 0).toNat }

/-- The directory entry in the slot `p`. -/
def dirent (s : Fs) (p : Nat × Nat) : DirEntry := direntAt (s.block p.1) p.2

def firstOf (s : Fs) (p : Nat × Nat) : Nat := (s.dirent p).firstBlock.toNat

/-- Where '..' leads. -/
def up (s : Fs) (d : Nat) : Nat := s.firstOf (d, 1)

/-- The blocks a walk from `first` visits before it comes to the end of the chain. -/
inductive OnChain (s : Fs) (first : Nat) : Nat → Prop where
  | start : OnChain s first first
  | next {b : Nat} : OnChain s first b → s.fat b ≠ fatEoc → s.fat b ≠ fatFree →
      OnChain s first (s.fat b)

/-- The first blocks of the directories that live entries lead to from the root. The slots of
'.' and '..' do not count. -/
inductive Dir (s : Fs) : Nat → Prop where
  | root : Dir s 1
  | sub {d : Nat} {p : Nat × Nat} : Dir s d → OnChain s d p.1 → p.2 < s.entriesPerBlock →
      (s.dirent p).live = true → ¬ DotSlot d p → (s.dirent p).type = DirEntry.typeDirectory →
      Dir s (s.firstOf p)

/-- The slot `p` is one of the directory `d`, which the root leads to. -/
structure Slot (s : Fs) (d : Nat) (p : Nat × Nat) : Prop where
  dir : s.Dir d
  block : s.OnChain d p.1
  index : p.2 < s.entriesPerBlock

/-- The slot `p` of the directory `d` holds a live entry other than '.' and '..'. -/
structure Entry (s : Fs) (d : Nat) (p : Nat × Nat) : Prop extends s.Slot d p where
  live : (s.dirent p).live = true
  named : ¬ DotSlot d p

/-- The chains of the root directory and of all entries end with `FAT_EOC`, stay inside the
FAT, consist of blocks in use and share none. -/
structure BlocksOwned (s : Fs) : Prop where
  root : ∃ nodes, s.Chain 1 nodes
  entry : ∀ d p, s.Entry d p → ∃ nodes, s.Chain (s.firstOf p) nodes
  rootApart : ∀ d p b, s.Entry d p → s.OnChain 1 b → ¬ s.OnChain (s.firstOf p) b
  apart : ∀ d d' p q b, s.Entry d p → s.Entry d' q → p ≠ q → s.OnChain (s.firstOf p) b →
    ¬ s.OnChain (s.firstOf q) b

/-- Every directory but the root has one entry, '.' leads back to it, '..' leads to the directory
of its entry, and following '..' leads to the root. -/
structure TreeShaped (s : Fs) : Prop where
  self : ∀ d, s.Dir d → d ≠ 1 → (s.dirent (d, 0)).cName = dot ∧ s.firstOf (d, 0) = d
  parent : ∀ d, s.Dir d → d ≠ 1 → ∃ o p, s.Entry o p ∧ s.firstOf p = d ∧
    (∀ o' q, s.Entry o' q → s.firstOf q = d → q = p) ∧
    (s.dirent (d, 1)).cName = dotDot ∧ s.up d = o
  climbs : ∀ d, s.Dir d → ∃ count, s.up^[count] d = 1

/-- Every block in use past the root's first is on the chain of the root directory or of an
entry. -/
def NoneLost (s : Fs) : Prop :=
  ∀ b, 2 ≤ b → b < s.fatEntries → s.fat b ≠ fatFree →
    s.OnChain 1 b ∨ ∃ d p, s.Entry d p ∧ s.OnChain (s.firstOf p) b

/-- No directory has two live entries of one name. -/
def NamesUnique (s : Fs) : Prop :=
  ∀ d p q, s.Slot d p → s.Slot d q → (s.dirent p).live = true → (s.dirent q).live = true →
    (s.dirent p).cName = (s.dirent q).cName → p = q

end Fs

open Fs

variable {promised : Promises} {s v : Fs} {I : Image} {b c d h : Nat} {p : Nat × Nat}

section Reading

theorem Fs.OnChain.single (on : s.OnChain h b) (ends : s.fat h = fatEoc) : b = h := by
  induction on with
  | start => rfl
  | next _ more _ ih => exact absurd (ih ▸ ends) more

theorem Tracks.disk (tracks : Tracks s I) : Shows s.disk I := by
  obtain ⟨config, small, size, word⟩ := tracks.volume.super
  have bytes := fat_zero s
  have low := (s.file 0).toNat_lt
  have config' : (s.file 0).toNat = config := by omega
  have size' : s.disk.gBlockSize = s.gBlockSize := by
    show blockSizes (s.file 0).toNat = _
    rw [config', size]
  have shows := tracks.shows
  have block : s.disk.block = s.block := by
    funext b j
    simp only [block, blockOffset, size']
    rfl
  refine ⟨?_, ?_, shows.fat, ?_⟩
  · simp only [fatEntries, size']
    exact shows.blocks
  · simp only [entriesPerBlock, size']
    exact shows.slots
  · rw [block]
    exact shows.slot

variable (shows : Shows v I) (wf : I.Wf)

include shows wf

theorem Shows.chain (used : I.chain h ≠ []) : v.Chain h (I.chain h) where
  links := (wf.links used).congr fun x member => by
    simp only [nextBlock, shows.fat x (wf.inside h x member).2.1]
  inside x member := by
    obtain ⟨low, high, inUse⟩ := wf.inside h x member
    exact ⟨low, shows.blocks ▸ high, shows.fat x high ▸ inUse⟩

/-- The blocks a walk visits are those of the chain. -/
theorem Shows.onChain_iff (used : I.chain h ≠ []) : v.OnChain h b ↔ b ∈ I.chain h := by
  have chain := shows.chain wf used
  constructor
  · intro on
    induction on with
    | start => exact wf.head_mem used
    | next _ linked _ ih => exact chain.links.closed ih (linkOf_of_ne linked)
  · have reach : ∀ nodes start, Links (nextBlock v.fat) (some start) nodes →
        (∀ x ∈ nodes, x ≠ fatFree) → v.OnChain h start → ∀ x ∈ nodes, v.OnChain h x := by
      intro nodes
      induction nodes with
      | nil => exact fun _ _ _ _ x member => absurd member List.not_mem_nil
      | cons node rest ih =>
          intro start links proper on x member
          obtain ⟨same, tail⟩ := links
          obtain rfl := Option.some.inj same
          rcases List.mem_cons.mp member with rfl | later
          · exact on
          cases rest with
          | nil => cases later
          | cons second rest =>
              have linked : v.fat start = second := linkOf_eq_some tail.1
              have more : v.fat start ≠ fatEoc := by
                intro ends
                have nothing := tail.1
                rw [nextBlock, ends, linkOf_eoc] at nothing
                cases nothing
              refine ih second (tail.1 ▸ tail) (fun y member => proper y (List.mem_cons_of_mem _ member))
                ?_ x later
              have step := on.next more (linked ▸ proper second (by simp))
              rw [linked] at step
              exact step
    refine reach _ h chain.links (fun x member => ?_) .start b
    have low := (wf.inside h x member).1
    simp only [fatFree]
    omega

theorem Shows.dirent (member : p.1 ∈ I.chain d) (index : p.2 < I.slots) :
    v.dirent p = I.slot p.1 p.2 := by
  obtain ⟨low, high, _⟩ := wf.inside d p.1 member
  exact shows.slot p.1 low high p.2 index

/-- The directories the root leads to are directories of the image. -/
theorem Shows.dirs (here : v.Dir d) : I.dirs d := by
  induction here with
  | root => exact wf.root
  | @sub d p _ block index live named isDir ih =>
      have member := (shows.onChain_iff wf (wf.dirHead d ih)).mp block
      have inside : p.2 < I.slots := shows.slots ▸ index
      have row := shows.dirent wf member inside
      have link : I.Holds d p (v.firstOf p) := by
        refine ⟨⟨ih, member, inside⟩, row ▸ live, named, ?_⟩
        rw [firstOf, row]
      exact (wf.target d p _ link).2.mp (row ▸ isDir)

theorem Shows.at_ (slot : v.Slot d p) : I.At d p := by
  have here := shows.dirs wf slot.dir
  exact ⟨here, (shows.onChain_iff wf (wf.dirHead d here)).mp slot.block, shows.slots ▸ slot.index⟩

theorem Shows.row (slot : v.Slot d p) : v.dirent p = I.slot p.1 p.2 := by
  have place := shows.at_ wf slot
  exact shows.dirent wf place.block place.index

theorem Shows.holds (entry : v.Entry d p) : I.Holds d p (v.firstOf p) := by
  have row := shows.row wf entry.toSlot
  refine ⟨shows.at_ wf entry.toSlot, row ▸ entry.live, entry.named, ?_⟩
  rw [firstOf, row]

/-- Entries of directories the root leads to. -/
theorem Shows.entry (here : v.Dir d) (link : I.Holds d p c) : v.Entry d p ∧ v.firstOf p = c := by
  have row := shows.dirent wf link.block link.index
  refine ⟨⟨⟨here, (shows.onChain_iff wf (wf.dirHead d link.dir)).mpr link.block,
    shows.slots ▸ link.index⟩, row ▸ link.live, link.named⟩, ?_⟩
  rw [firstOf, row]
  exact link.first

/-- Where every directory has an entry, the root leads to all of them. -/
theorem Shows.reached (held : ∀ d, I.dirs d → d ≠ 1 → ∃ o p, I.Holds o p d) (here : I.dirs d) :
    v.Dir d := by
  have path := wf.tree.reached held here
  induction path with
  | refl => exact .root
  | tail _ last ih =>
      obtain ⟨isDir, p, link⟩ := last
      have above := ih link.dir
      obtain ⟨entry, first⟩ := shows.entry wf above link
      have type : (v.dirent p).type = DirEntry.typeDirectory := by
        rw [shows.row wf entry.toSlot]
        exact (wf.target _ p _ link).2.mpr isDir
      have step := Dir.sub above entry.block entry.index entry.live entry.named type
      rw [first] at step
      exact step

theorem Shows.up (here : I.dirs d) : v.up d = I.parent d := by
  have slots := wf.slotsMin
  have row := shows.dirent (p := (d, 1)) wf (wf.dir_mem here) (by simp only; omega)
  rw [Fs.up, firstOf, row]
  rfl

end Reading

section Promised

variable (shows : Shows v I) (good : I.Good promised)

include shows good

theorem Shows.blocksOwned : v.BlocksOwned := by
  have wf := good.wf
  have chain : ∀ {d p}, v.Entry d p → I.chain (v.firstOf p) ≠ [] :=
    fun entry => (wf.target _ _ _ (shows.holds wf entry)).1
  constructor
  · exact ⟨_, shows.chain wf (wf.dirHead 1 wf.root)⟩
  · intro d p entry
    exact ⟨_, shows.chain wf (chain entry)⟩
  · intro d p b entry first second
    have first' := (shows.onChain_iff wf (wf.dirHead 1 wf.root)).mp first
    have second' := (shows.onChain_iff wf (chain entry)).mp second
    exact wf.tree.notRoot d p _ (shows.holds wf entry) (wf.apart second' first')
  · intro d d' p q b entry entry' other first second
    have first' := (shows.onChain_iff wf (chain entry)).mp first
    have second' := (shows.onChain_iff wf (chain entry')).mp second
    have link := shows.holds wf entry
    rw [wf.apart first' second'] at link
    exact other (wf.tree.unique d p d' q _ link (shows.holds wf entry')).2

theorem Shows.treeShaped : v.TreeShaped := by
  have wf := good.wf
  have slots := wf.slotsMin
  constructor
  · intro d here proper
    have isDir := shows.dirs wf here
    have pair := wf.dots d isDir proper
    have row := shows.dirent (p := (d, 0)) wf (wf.dir_mem isDir) (by simp only; omega)
    rw [firstOf, row]
    exact ⟨pair.self, pair.selfBlock⟩
  · intro d here proper
    have isDir := shows.dirs wf here
    have pair := wf.dots d isDir proper
    have row := shows.dirent (p := (d, 1)) wf (wf.dir_mem isDir) (by simp only; omega)
    cases here with
    | root => exact absurd rfl proper
    | @sub o p above block index live named type =>
        have entry : v.Entry o p := ⟨⟨above, block, index⟩, live, named⟩
        have link := shows.holds wf entry
        refine ⟨o, p, entry, rfl, fun o' q entry' same => ?_, row ▸ pair.up, ?_⟩
        · have link' := shows.holds wf entry'
          rw [same] at link'
          exact (wf.tree.unique o' q o p _ link' link).2
        · rw [shows.up wf isDir]
          exact wf.tree.parentOf o p _ link isDir
  · intro d here
    have isDir := shows.dirs wf here
    have climb : ∀ x, Hierarchy.Below 1 I.parent 1 x → I.dirs x → ∃ count, v.up^[count] x = 1 := by
      intro x below
      induction below with
      | self => exact fun _ => ⟨0, rfl⟩
      | up proper _ ih =>
          intro there
          obtain ⟨count, climbs⟩ := ih (wf.dir_parent there proper)
          refine ⟨count + 1, ?_⟩
          rw [Function.iterate_succ_apply, shows.up wf there]
          exact climbs
    exact climb d (wf.tree.below_root isDir) isDir

theorem Shows.noneLost (asked : promised.lossless) (idle : ∀ c, ¬ I.loose c) : v.NoneLost := by
  have wf := good.wf
  have cover := good.covered asked
  have owned : ∀ h, I.chain h ≠ [] → h = 1 ∨ ∃ d p, I.Holds d p h := by
    intro h used
    rcases cover.owned h used with root | isLoose | held
    · exact .inl root
    · exact absurd isLoose (idle h)
    · exact .inr held
  have reached : ∀ {d}, I.dirs d → v.Dir d := by
    intro d here
    refine shows.reached wf (fun x isDir proper => ?_) here
    exact (owned x (wf.dirHead x isDir)).resolve_left proper
  intro b low high inUse
  have high' : b < I.blocks := shows.blocks ▸ high
  obtain ⟨h, member⟩ := cover.used b low high' (shows.fat b high' ▸ inUse)
  have used := List.ne_nil_of_mem member
  rcases owned h used with rfl | ⟨d, p, link⟩
  · exact .inl ((shows.onChain_iff wf used).mpr member)
  · obtain ⟨entry, first⟩ := shows.entry wf (reached link.dir) link
    exact .inr ⟨d, p, entry, first.symm ▸ (shows.onChain_iff wf used).mpr member⟩

theorem Shows.namesUnique (asked : promised.distinct) : v.NamesUnique := by
  have wf := good.wf
  intro d p q slot slot' live live' same
  rw [shows.row wf slot] at live same
  rw [shows.row wf slot'] at live' same
  exact (good.distinct asked).names d p q (shows.at_ wf slot) (shows.at_ wf slot') live live' same

end Promised

end PennOs.Fat
