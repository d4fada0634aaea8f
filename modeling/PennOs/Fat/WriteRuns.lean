import PennOs.Fat.OpenRuns
import PennOs.Fat.WriteSplice

set_option autoImplicit false

/- The calls on descriptors: what they do to the image and to the tables. -/
namespace PennOs.Fat

open Image (Promises KeepsAll)
open Fs (setFd_self setFd_ne)

/-- Blocks were written and linked to the chain of the file `x`, and nothing else changed. -/
structure Wrote (s : Fs) (I : Image) (x : Nat) (t : Fs) (J : Image) : Prop where
  keeps : KeepsAll I J
  dirs : J.dirs = I.dirs
  chains : ∀ h, h ≠ x → I.chain h ≠ [] → J.chain h = I.chain h
  front : I.chain x <+: J.chain x
  rows : ∀ h, h ≠ x → ∀ b ∈ I.chain h, J.slot b = I.slot b
  blocks : ∀ h, h ≠ x → ∀ b ∈ I.chain h, t.block b = s.block b

variable {promised : Promises} {s t u : Fs} {I J K : Image} {b c d x h fd index : Nat} {p : Nat × Nat}

section Extending

theorem Wrote.refl (s : Fs) (I : Image) (x : Nat) : Wrote s I x s I :=
  ⟨.refl I, rfl, fun _ _ _ => rfl, List.prefix_rfl, fun _ _ _ _ => rfl, fun _ _ _ _ => rfl⟩

theorem Wrote.trans (first : Wrote s I x t J) (second : Wrote t J x u K) : Wrote s I x u K where
  keeps := first.keeps.trans second.keeps
  dirs := second.dirs.trans first.dirs
  chains h other used := by
    have same := first.chains h other used
    rw [second.chains h other (same.symm ▸ used), same]
  front := first.front.trans second.front
  rows h other b member := by
    have member' : b ∈ J.chain h := first.chains h other (List.ne_nil_of_mem member) ▸ member
    rw [second.rows h other b member', first.rows h other b member]
  blocks h other b member := by
    have member' : b ∈ J.chain h := first.chains h other (List.ne_nil_of_mem member) ▸ member
    rw [second.blocks h other b member', first.blocks h other b member]

theorem Wrote.of_blocks (wrote : Wrote s I x t J) (same : ∀ b, u.block b = t.block b) :
    Wrote s I x u J :=
  ⟨wrote.keeps, wrote.dirs, wrote.chains, wrote.front, wrote.rows,
    fun h other b member => (same b).trans (wrote.blocks h other b member)⟩

/-- A block of the file is overwritten. -/
theorem Resting.writeBlock (resting : Resting promised s I) (file : ¬ I.dirs x) (member : b ∈ I.chain x)
    (buf : Buffer) :
    writeBlock buf b s = some (true, s.putBlock b buf) ∧
      Resting promised (s.putBlock b buf) (I.setRow b fun i => direntAt buf i) ∧
      Wrote s I x (s.putBlock b buf) (I.setRow b fun i => direntAt buf i) := by
  have wf := resting.good.wf
  have bounds := resting.tracks.blocks_bounds
  obtain ⟨low, high, _⟩ := wf.inside x b member
  have out := wf.outside_of_file file member
  refine ⟨writeBlock_run resting.tracks.ready.toMounted buf b, ⟨?_, resting.good.setRow out _,
    resting.idle, resting.cwd⟩, .setRow out, rfl, fun _ _ _ => rfl, List.prefix_rfl, ?_, ?_⟩
  · exact resting.tracks.putBlock low high fun _ _ => rfl
  · intro h other y there
    apply I.setRow_ne
    rintro rfl
    exact other (wf.apart there member)
  · intro h other y there
    obtain ⟨_, high', _⟩ := wf.inside h y there
    refine resting.tracks.ready.block_putBlock_ne buf ?_ (by omega) (by omega)
    rintro rfl
    exact other (wf.apart there member)

/-- The chain of a file gets another block, or there is none left. -/
theorem extendChain_run (resting : Resting promised s I) (file : ¬ I.dirs x) (used : I.chain x ≠ []) :
    extendChain x s = some (none, s) ∨ ∃ b t J, extendChain x s = some (some b, t) ∧
      Resting promised t J ∧ Wrote s I x t J ∧ SameTables s t ∧ b ∈ J.chain x := by
  have wf := resting.good.wf
  have entries := resting.tracks.ready.fatEntries_bounds
  have chain := resting.tracks.chain wf used
  have short := chain.length_le
  obtain ⟨front, last, shape⟩ : ∃ front last, I.chain x = front ++ [last] :=
    ⟨_, _, (List.dropLast_append_getLast used).symm⟩
  rw [shape] at chain short
  have enough : front.length < chainFuel + 1 := by
    simp only [List.length_append, List.length_singleton] at short
    simp only [chainFuel]
    omega
  have finding := lastInChain_run chain.links
    (fun y member => resting.tracks.ready.mapped (chain.inside y member).2.1) enough
  rcases take_run resting with full | ⟨b, free, took, taken⟩
  · left
    rw [extendChain, Prog.bind_of_run finding, Prog.bind_of_run full]
    rfl
  right
  have nothing := wf.chain_nil_of_free free
  have apart : x ≠ b := by
    rintro rfl
    exact used nothing
  have inLast := wf.inside x last (by simp [shape])
  have bound := taken.bound
  have shape' : (I.alloc b).chain x = front ++ [last] := by
    rw [← shape]
    exact Function.update_of_ne apart _ _
  have linked := taken.tracks.setFat (b := last) (v := b) inLast.1 inLast.2.1 bound
  have chainOf : ∀ h, h ≠ x → I.chain h ≠ [] → ((I.alloc b).link x last b).chain h = I.chain h := by
    intro h other inUse
    have apart' : h ≠ b := by
      rintro rfl
      exact inUse nothing
    rw [Image.link_chain, if_neg other, if_neg apart']
    exact Function.update_of_ne apart' _ _
  refine ⟨b, _, (I.alloc b).link x last b, ?_, ⟨?_, ?_, ?_, ?_⟩, ⟨?_, rfl, chainOf, ?_, ?_, ?_⟩,
    (SameTables.setFat s b fatEoc).trans (.setFat _ last b), ?_⟩
  · rw [extendChain, Prog.bind_of_run finding, Prog.bind_of_run took]
    simp only
    rw [Prog.bind_of_run (fatSet_ready taken.tracks.ready _ (taken.tracks.inside inLast.2.1))]
    rfl
  · exact linked.ghost rfl rfl (fun _ _ => rfl) fun _ _ _ _ _ => rfl
  · exact taken.good.linked shape' ((taken.loose b).mpr rfl) taken.single taken.file apart
      fun here => absurd here file
  · rintro y ⟨old, other⟩
    exact other ((taken.loose y).mp old)
  · exact resting.cwd
  · exact (Image.Keeps.alloc wf free).trans (.linked taken.file)
  · rw [Image.link_chain, if_pos rfl, shape', ← shape]
    exact List.prefix_append _ _
  · exact fun _ _ _ _ => rfl
  · intro h other y member
    obtain ⟨low, high, _⟩ := wf.inside h y member
    have inside := taken.tracks.inside (show y < (I.alloc b).blocks from high)
    have bounds := resting.tracks.blocks_bounds
    have first : (s.setFat b fatEoc).block y = s.block y :=
      resting.tracks.ready.block_setFat fatEoc low (by omega) (entries.2.2 ▸ resting.tracks.inside taken.high)
    rw [taken.tracks.ready.block_setFat b low (by omega)
      (taken.tracks.ready.fatEntries_bounds.2.2 ▸ taken.tracks.inside inLast.2.1), first]
  · rw [Image.link_chain, if_pos rfl]
    exact List.mem_append_right _ (List.mem_singleton_self b)

end Extending

section Writing

/-- A write through `fd` changes the offset, and the size of the entry `index`. -/
structure WroteTables (s t : Fs) (fd index : Nat) : Prop where
  files : ∀ i ≠ index, t.gSysfileTable i = s.gSysfileTable i
  entry : (t.gSysfileTable index).inUse = (s.gSysfileTable index).inUse ∧
    (t.gSysfileTable index).dirIndex = (s.gSysfileTable index).dirIndex ∧
    (t.gSysfileTable index).firstBlock = (s.gSysfileTable index).firstBlock
  descriptors : ∀ x ≠ fd, t.gFdTable x = s.gFdTable x
  descriptor : (t.gFdTable fd).inUse = (s.gFdTable fd).inUse ∧
    (t.gFdTable fd).sysfileIndex = (s.gFdTable fd).sysfileIndex ∧
    (t.gFdTable fd).mode = (s.gFdTable fd).mode
  cwd : t.gCwdBlock = s.gCwdBlock

theorem WroteTables.refl (s : Fs) (fd index : Nat) : WroteTables s s fd index :=
  ⟨fun _ _ => rfl, ⟨rfl, rfl, rfl⟩, fun _ _ => rfl, ⟨rfl, rfl, rfl⟩, rfl⟩

theorem WroteTables.trans (first : WroteTables s t fd index) (second : WroteTables t u fd index) :
    WroteTables s u fd index where
  files i other := (second.files i other).trans (first.files i other)
  entry := ⟨second.entry.1.trans first.entry.1, second.entry.2.1.trans first.entry.2.1,
    second.entry.2.2.trans first.entry.2.2⟩
  descriptors y other := (second.descriptors y other).trans (first.descriptors y other)
  descriptor := ⟨second.descriptor.1.trans first.descriptor.1,
    second.descriptor.2.1.trans first.descriptor.2.1, second.descriptor.2.2.trans first.descriptor.2.2⟩
  cwd := second.cwd.trans first.cwd

theorem WroteTables.of_tables (same : SameTables s t) : WroteTables s t fd index :=
  ⟨fun _ _ => by rw [same.files], ⟨by rw [same.files], by rw [same.files], by rw [same.files]⟩,
    fun _ _ => by rw [same.descriptors],
    ⟨by rw [same.descriptors], by rw [same.descriptors], by rw [same.descriptors]⟩, same.cwd⟩

theorem WroteTables.retains (wrote : WroteTables s t fd index) : Retains s t where
  files i used := by
    by_cases here : i = index
    · subst here
      obtain ⟨inUse, key, first⟩ := wrote.entry
      exact ⟨inUse ▸ used, key, first⟩
    · rw [wrote.files i here] at used ⊢
      exact ⟨used, rfl, rfl⟩
  descriptors y used := by
    by_cases here : y = fd
    · subst here
      obtain ⟨inUse, key, mode⟩ := wrote.descriptor
      exact ⟨inUse ▸ used, key, mode⟩
    · rw [wrote.descriptors y here] at used ⊢
      exact ⟨used, rfl, rfl⟩
  cwd := wrote.cwd

/-- The tables at the end of a turn. -/
theorem advance_tables (s : Fs) (now : UInt64) (fd chunk : Nat) :
    WroteTables s (s.advance now fd chunk) fd (s.gFdTable fd).sysfileIndex := by
  have table := advance_gFdTable s now fd chunk
  have files := advance_gSysfileTable s now fd chunk
  constructor
  · intro i other
    rw [files]
    split
    · exact Function.update_of_ne other _ _
    · rfl
  · rw [files]
    split
    · rw [Function.update_self]
      exact ⟨rfl, rfl, rfl⟩
    · exact ⟨rfl, rfl, rfl⟩
  · intro y other
    rw [table]
    exact Function.update_of_ne other _ _
  · rw [table, Function.update_self]
    exact ⟨rfl, rfl, rfl⟩
  · simp only [Fs.advance]
    split <;> rfl

theorem Resting.advance (resting : Resting promised s I) (now : UInt64) (fd chunk : Nat) :
    Resting promised (s.advance now fd chunk) I := by
  simp only [Fs.advance]
  split
  · exact (resting.setFd fd _).setSysfile _ _
  · exact resting.setFd fd _

theorem advance_block (s : Fs) (now : UInt64) (fd chunk b : Nat) :
    (s.advance now fd chunk).block b = s.block b := by
  simp only [Fs.advance]
  split <;> rfl

/-- The block a turn writes to is one of the file's, or the turn finds none. -/
theorem blockForWrite_tracks (resting : Resting promised s I) (file : ¬ I.dirs x)
    (used : I.chain x ≠ []) (offset : Nat) :
    blockForWrite x offset s = some (none, s) ∨
      (∃ o, blockForWrite x offset s = some (some (fatEoc, o), s)) ∨
      ∃ b o t J, blockForWrite x offset s = some (some (b, o), t) ∧ Resting promised t J ∧
        Wrote s I x t J ∧ SameTables s t ∧ b ∈ J.chain x := by
  have chain := resting.tracks.chain resting.good.wf used
  by_cases within : offset / s.gBlockSize ≤ (I.chain x).length
  · have run := blockForWrite_run resting.tracks.ready chain within
    cases found : (I.chain x)[offset / s.gBlockSize]? with
    | none =>
        rw [found] at run
        exact .inr (.inl ⟨_, run⟩)
    | some b =>
        rw [found] at run
        exact .inr (.inr ⟨b, _, s, I, run, resting, .refl s I x, .refl s, List.mem_of_getElem? found⟩)
  · have located := locateBlockInChain_beyond (chain.linked resting.tracks.ready) used
      (Nat.lt_of_not_le within)
    rcases extendChain_run resting file used with full | ⟨b, t, J, run, rests, wrote, tables, member⟩
    · left
      rw [blockForWrite, Prog.bind_of_run located]
      exact Prog.bind_of_run full _
    · refine .inr (.inr ⟨b, 0, t, J, ?_, rests, wrote, tables, member⟩)
      rw [blockForWrite, Prog.bind_of_run located]
      exact Prog.bind_of_run run _

/-- What `k_write` through `fd` did with the file `x`. -/
def WriteDone (promised : Promises) (s : Fs) (I : Image) (x fd index : Nat) (t : Fs) : Prop :=
  ∃ J, Resting promised t J ∧ Wrote s I x t J ∧ WroteTables s t fd index

theorem writeLoop_tracks (now : UInt64) (buf : Buffer) {fuel total remain : Nat}
    (resting : Resting promised s I) (file : ¬ I.dirs x) (used : I.chain x ≠ [])
    (first : (s.gSysfileTable (s.gFdTable fd).sysfileIndex).firstBlock.toNat = x) :
    Prog.Ensures (writeLoop now fd buf fuel total remain) s
      fun _ t => WriteDone promised s I x fd (s.gFdTable fd).sysfileIndex t := by
  induction fuel generalizing s I total remain with
  | zero => exact .pure ⟨I, resting, .refl s I x, .refl _ _ _⟩
  | succ fuel ih =>
      have stays : WriteDone promised s I x fd (s.gFdTable fd).sysfileIndex s :=
        ⟨I, resting, .refl s I x, .refl _ _ _⟩
      unfold writeLoop
      refine .ite (fun _ => .pure stays) fun _ => .get ?_
      simp only [first]
      rcases blockForWrite_tracks resting file used (s.gFdTable fd).offset.toNat with
        none | ⟨o, past⟩ | ⟨b, o, t, J, run, rests, wrote, tables, member⟩
      · exact .step none (.pure stays)
      · refine .step past (.step (readBlock_eoc resting.tracks.ready resting.tracks.volume.fits) ?_)
        exact .pure stays
      · have file' : ¬ J.dirs x := wrote.dirs ▸ file
        obtain ⟨_, high, _⟩ := rests.good.wf.inside x b member
        refine .step run (.step (readBlock_run rests.tracks.ready (rests.tracks.inside high)) ?_)
        obtain ⟨writing, rests', wrote'⟩ := rests.writeBlock file' member (overlay (t.block b) o
          (min (s.gBlockSize - o) remain) fun j => buf (total + j))
        refine .step writing (.ite (fun _ => .modify ?_) fun no => absurd rfl no)
        obtain ⟨u, isU⟩ : ∃ u, u = t.putBlock b (overlay (t.block b) o
          (min (s.gBlockSize - o) remain) fun j => buf (total + j)) := ⟨_, rfl⟩
        rw [← isU] at rests' wrote' ⊢
        have same : SameTables s u := isU ▸ tables.trans (.putBlock t b _)
        have index : (u.gFdTable fd).sysfileIndex = (s.gFdTable fd).sysfileIndex := by
          rw [same.descriptors]
        have moved := advance_tables u now fd (min (s.gBlockSize - o) remain)
        rw [index] at moved
        have turned : WroteTables s (u.advance now fd (min (s.gBlockSize - o) remain)) fd
            (s.gFdTable fd).sysfileIndex := (WroteTables.of_tables same).trans moved
        have index' := turned.descriptor.2.1
        have used' : J.chain x ≠ [] := List.ne_nil_of_mem member
        have blocks : Wrote t J x (u.advance now fd (min (s.gBlockSize - o) remain)) _ :=
          wrote'.of_blocks (advance_block u now fd _)
        refine (ih (rests'.advance now fd _) file' used' ?_).mono ?_
        · rw [index', turned.entry.2.2]
          exact first
        · rintro _ v ⟨K, rests'', wrote'', tables''⟩
          rw [index'] at tables''
          exact ⟨K, rests'', (wrote.trans blocks).trans wrote'', turned.trans tables''⟩

/-- `k_write` through a descriptor whose table entry names the chain of a file. -/
theorem kWrite_tracks (now : UInt64) (fd : Int) (buf : Buffer) (n : Int) (resting : Resting promised s I)
    (allowed : s.validFd fd = true → hasRead (s.gFdTable fd.toNat).mode = false →
      ¬ I.dirs (s.fileOf fd.toNat).firstBlock.toNat ∧ I.chain (s.fileOf fd.toNat).firstBlock.toNat ≠ []) :
    Prog.Ensures (kWrite now fd buf n) s fun _ t => t = s ∨ (s.validFd fd = true ∧
      hasRead (s.gFdTable fd.toNat).mode = false ∧
      WriteDone promised s I (s.fileOf fd.toNat).firstBlock.toNat fd.toNat
        (s.gFdTable fd.toNat).sysfileIndex t) := by
  unfold kWrite
  refine .get (.ite (fun _ => .pure (.inl rfl)) fun _ => .ite (fun _ => .pure (.inl rfl)) fun valid => ?_)
  refine .ite (fun _ => .pure (.inl rfl)) fun writes => ?_
  refine .step (malloc_run resting.tracks.ready.host) (.ite nofun fun _ => ?_)
  have valid' : s.validFd fd = true := by simpa using valid
  have writes' : hasRead (s.gFdTable fd.toNat).mode = false := by simpa using writes
  obtain ⟨file, used⟩ := allowed valid' writes'
  refine (writeLoop_tracks now buf resting file used rfl).bind ?_
  intro _ t done
  exact .pure (.inr ⟨valid', writes', done⟩)

end Writing

section Descriptors

/-- `k_close` gives one reference back. -/
theorem kClose_run (resting : Resting promised s I) (fd : Int) :
    Prog.Ensures (kClose fd) s fun _ t => ∃ J, Resting promised t J ∧ KeepsAll I J ∧ Retains s t ∧
      SameNames I J ∧ (s.validFd fd = true → (t.gFdTable fd.toNat).inUse = false) := by
  have mounted : s.gMounted = true := resting.tracks.ready.flag
  unfold kClose
  refine .get (.ite (fun out => ?_) fun _ => .ite (fun invalid => ?_) fun _ => .modify ?_)
  · rw [mounted] at out
    cases out
  · refine .pure ⟨I, resting, .refl I, .refl s, .refl I, fun valid => ?_⟩
    rw [valid] at invalid
    cases invalid
  refine (release_run (resting.setFd fd.toNat _) _).bind ?_
  rintro _ t ⟨J, released⟩
  refine .pure ⟨J, released.rests, released.keeps, ⟨fun i used => ?_, fun x used => ?_, released.cwd⟩,
    released.names, fun _ => ?_⟩
  · rw [released.files] at used ⊢
    exact Fs.released_entry _ _ i used
  · rw [released.descriptors] at used ⊢
    by_cases here : x = fd.toNat
    · rw [here, setFd_self] at used
      cases used
    · rw [setFd_ne _ _ here] at used ⊢
      exact ⟨used, rfl, rfl⟩
  · rw [released.descriptors, setFd_self]

theorem OnlyOffsets.retains (only : OnlyOffsets s t) : Retains s t := by
  obtain ⟨table, host, rfl⟩ := only.image
  refine ⟨fun _ used => ⟨used, rfl, rfl⟩, fun x used => ?_, rfl⟩
  obtain ⟨inUse, key, mode⟩ := only.descriptors x
  exact ⟨inUse ▸ used, key, mode⟩

theorem OnlyOffsets.resting (only : OnlyOffsets s t) (resting : Resting promised s I) :
    Resting promised t I := by
  have host := only.idle resting.tracks.ready.host
  obtain ⟨table, _, rfl⟩ := only.image
  refine ⟨resting.tracks.of_image rfl rfl rfl rfl rfl rfl rfl rfl rfl ?_ rfl, resting.good,
    resting.idle, resting.cwd⟩
  exact host.trans resting.tracks.ready.host.symm

/-- `k_chdir` moves to a directory. -/
theorem kChdir_run (resting : Resting promised s I) (now : UInt64) (path : List UInt8) :
    Prog.Ensures (kChdir now path) s fun _ t => ∃ c, I.dirs c ∧ t = { s with gCwdBlock := c } := by
  have stays : ∃ c, I.dirs c ∧ s = { s with gCwdBlock := c } := ⟨s.gCwdBlock, resting.cwd, rfl⟩
  have wf := resting.good.wf
  unfold kChdir
  refine .get (.ite (fun _ => .pure stays) fun _ => ?_)
  obtain ⟨err, r, run, resolved⟩ := resolvePath_run resting.tracks wf resting.cwd now path
  refine .step run (.ite (fun _ => .pure stays) fun _ => .ite (fun _ => .pure stays) fun found => ?_)
  refine .ite (fun _ => .modify (.pure ⟨1, wf.root, rfl⟩)) fun top => ?_
  refine .ite (fun _ => .pure stays) fun kind => .modify (.pure ⟨_, ?_, rfl⟩)
  have isDir := Decidable.of_not_not kind
  cases resolved with
  | slash => exact absurd rfl top
  | missing err d here kind => exact absurd rfl found
  | nothing err => exact absurd rfl found
  | dir name d parent mtime here above at_ =>
      have bounds := resting.tracks.blocks_bounds
      obtain ⟨_, high⟩ := wf.dir_inside here
      have first : (resolvedDir name d parent mtime).entry.firstBlock.toNat = d := by
        show (UInt16.ofNat d).toNat = d
        rw [UInt16.toNat_ofNat', Nat.mod_eq_of_lt (by omega)]
      rw [first]
      exact here
  | entry d p place live named before => exact (wf.target d p _ ⟨place, live, named, rfl⟩).2.mp isDir

end Descriptors

end PennOs.Fat
