import PennOs.Fat.CreateRuns
import PennOs.Fat.TableRuns

set_option autoImplicit false

/- The calls that remove entries: what they do to the image of a volume. -/
namespace PennOs.Fat

open Image (Promises Keeps KeepsAll Sinks)

/-- The entry in the slot `p` was removed, and what it named is gone. -/
structure Removed (promised : Promises) (s : Fs) (I : Image) (p : Nat × Nat) (c : Nat) (t : Fs)
    (J : Image) : Prop where
  rests : Resting promised t J
  keeps : Keeps (fun q => q = p ∨ I.SlotUnder c q) (I.Under c) I J
  tables : SameTables s t
  others : ∀ q, q ≠ p → J.slot q.1 q.2 = I.slot q.1 q.2
  places : ∀ d q, J.At d q → I.At d q
  dead : (J.slot p.1 p.2).live = false

variable {promised : Promises} {s t : Fs} {I J : Image} {c d : Nat} {p : Nat × Nat}

section Removing

/-- The chain of a file is freed and its entry is marked deleted. -/
theorem unlinkEntry_run (resting : Resting promised s I) (link : I.Holds d p c) (file : ¬ I.dirs c) :
    ∃ t J, unlinkEntry (I.foundAt d p) s = some (.ok, t) ∧ Removed promised s I p c t J := by
  have wf := resting.good.wf
  have first : (I.foundAt d p).entry.firstBlock.toNat = c := link.first
  have used := (wf.target d p c link).1
  obtain ⟨low, high, _⟩ := wf.inside d p.1 link.block
  obtain ⟨freeing, freed⟩ := freeBlockChain_tracks resting.tracks wf used
  have inUse : c ≠ fatEoc ∧ c ≠ fatFree := by
    obtain ⟨low, high, _⟩ := wf.inside c c (wf.head_mem used)
    have apart := notEoc resting.tracks low high
    exact ⟨fun eoc => apart (.inr eoc), fun free => apart (.inl free)⟩
  have writing := writeDirent_run freed low high link.index .deleted
  have written := freed.putDirent low high .deleted
  have tables := (SameTables.freeAll s (I.chain c)).trans (.putDirent _ p .deleted)
  have loosened : (I.remove p).loose c := .inr link.first.symm
  refine ⟨(s.freeAll (I.chain c)).putDirent p .deleted, (I.remove p).free c, ?_, ?_⟩
  · unfold unlinkEntry
    rw [first, if_pos inUse, Prog.bind_of_run freeing]
    exact writing
  · constructor
    · refine ⟨written.ghost rfl rfl (fun _ _ => rfl) fun _ _ _ _ _ => rfl,
        (resting.good.remove link).free loosened file, ?_, ?_⟩
      · rintro x ⟨old | new, apart⟩
        · exact resting.idle x old
        · exact apart (new.trans link.first)
      · rw [tables.cwd]
        exact resting.cwd
    · exact (Keeps.remove (.inl rfl)).trans (.free file)
    · exact tables
    · exact fun q apart => I.setSlot_ne .deleted apart
    · intro d' q place
      have block : q.1 ∈ Function.update (I.remove p).chain c [] d' := place.block
      have apart : d' ≠ c := by
        rintro rfl
        exact file place.dir
      rw [Function.update_of_ne apart] at block
      exact ⟨place.dir, block, place.index⟩
    · show ((I.setSlot p .deleted).slot p.1 p.2).live = false
      rw [I.setSlot_self]
      exact DirEntry.deleted_live

/-- `k_unlink` removes a file that no descriptor holds open. -/
theorem kUnlink_run (resting : Resting promised s I) (now : UInt64) (path : List UInt8) :
    Prog.Ensures (kUnlink now path) s fun err t => (err ≠ .ok ∧ t = s) ∨
      ∃ d p c J, resolvePath now path s = some ((.ok, I.foundAt d p), s) ∧ I.Holds d p c ∧
        ¬ I.dirs c ∧ s.busy (pseudoInode p.1 p.2) = false ∧ Removed promised s I p c t J := by
  have wf := resting.good.wf
  rw [kUnlink_eq]
  refine .get (.ite (fun _ => .pure (.inl ⟨nofun, rfl⟩)) fun _ => ?_)
  refine .ite (fun _ => .pure (.inl ⟨nofun, rfl⟩)) fun _ => ?_
  obtain ⟨err, r, run, resolved⟩ := resolvePath_run resting.tracks wf resting.cwd now path
  refine .step run (.ite (fun bad => .pure (.inl ⟨bad, rfl⟩)) fun _ => ?_)
  refine .ite (fun _ => .pure (.inl ⟨nofun, rfl⟩)) fun found => ?_
  refine .ite (fun _ => .pure (.inl ⟨nofun, rfl⟩)) fun notDir => .get ?_
  refine .ite (fun _ => .pure (.inl ⟨nofun, rfl⟩)) fun idle => ?_
  cases resolved with
  | slash => exact absurd (.inr rfl) found
  | dir name d parent mtime here above at_ => exact absurd rfl notDir
  | missing err d here kind => exact absurd (.inl rfl) found
  | nothing err => exact absurd (.inl rfl) found
  | entry d p place live named before =>
      have link : I.Holds d p (I.slot p.1 p.2).firstBlock.toNat := ⟨place, live, named, rfl⟩
      have file : ¬ I.dirs (I.slot p.1 p.2).firstBlock.toNat :=
        fun here => notDir ((wf.target d p _ link).2.mpr here)
      obtain ⟨t, J, removing, removed⟩ := unlinkEntry_run resting link file
      refine .of_run removing (.inr ⟨d, p, _, J, run, link, file, ?_, removed⟩)
      exact Bool.eq_false_iff.mpr idle

/-- What `k_rmdir` needs so that nothing is lost with a directory but the directory. -/
structure Droppable (promised : Promises) (s : Fs) (I : Image) (c : Nat) : Prop where
  cwd : ¬ Hierarchy.Below 1 I.parent c s.gCwdBlock
  vacant : promised.lossless → I.chain c = [c] ∧ ∀ p x, ¬ I.Holds c p x

/-- The entry of a directory is marked deleted, and the directory's first block is freed. -/
theorem dropEntry_run (resting : Resting promised s I) (link : I.Holds d p c) (here : I.dirs c)
    (droppable : Droppable promised s I c) :
    ∃ t, writeDirent p.1 p.2 .deleted s = some (.ok, t) ∧
      fatSet c fatFree t = some ((), t.setFat c fatFree) ∧
      Removed promised s I p c (t.setFat c fatFree) ((I.remove p).dropDir c) := by
  have wf := resting.good.wf
  have proper := wf.tree.notRoot d p c link
  obtain ⟨low, high, _⟩ := wf.inside d p.1 link.block
  obtain ⟨lowC, highC⟩ := wf.dir_inside here
  have written := resting.tracks.putDirent low high .deleted
  have cleared := written.setFat (v := fatFree) lowC highC (by decide)
  have removed := resting.good.remove link
  have tables := (SameTables.putDirent s p .deleted).trans (.setFat _ c fatFree)
  have sinks := (Sinks.under I c).remove wf link
  refine ⟨s.putDirent p .deleted, writeDirent_run resting.tracks low high link.index .deleted,
    fatSet_ready written.ready _ (written.inside highC), ?_⟩
  constructor
  · refine ⟨cleared.ghost rfl rfl (fun _ _ => rfl) fun _ _ _ _ _ => rfl, ?_, ?_, ?_⟩
    · refine removed.dropDir (.inr link.first.symm) proper fun asked => ?_
      obtain ⟨single, empty⟩ := droppable.vacant asked
      refine ⟨single, fun q x link' => ?_, fun x old there apart => ?_⟩
      · exact empty q x (Image.holds_of_remove link')
      rcases old with old | new
      · exact absurd old (resting.idle x)
      · exact absurd (new.trans link.first) apart
    · rintro x ⟨old | new, apart⟩
      · exact resting.idle x old
      · exact apart (new.trans link.first)
    · rw [tables.cwd]
      exact ⟨resting.cwd, fun below => droppable.cwd (sinks.dirs _ resting.cwd below).2⟩
  · have kept : Keeps (I.SlotUnder c) (I.Under c) (I.remove p) ((I.remove p).dropDir c) := .dropDir sinks
    exact (Keeps.remove (.inl rfl)).trans (kept.mono (fun _ under => .inr under) fun _ under => under)
  · exact tables
  · exact fun q apart => I.setSlot_ne .deleted apart
  · intro d' q place
    have block : q.1 ∈ I.chain d' := by
      have old : q.1 ∈ ((I.remove p).dropDir c).chain d' := place.block
      rw [Image.dropDir_chain place.dir] at old
      exact old
    exact ⟨place.dir.1, block, place.index⟩
  · show ((I.setSlot p .deleted).slot p.1 p.2).live = false
    rw [I.setSlot_self]
    exact DirEntry.deleted_live

/-- `k_rmdir` removes a directory in whose first block it sees only '.' and '..'. -/
theorem kRmdir_run (resting : Resting promised s I) (now : UInt64) (path : List UInt8)
    (allowed : ∀ d p c, resolvePath now path s = some ((.ok, I.foundAt d p), s) → I.Holds d p c →
      I.dirs c → onlyDots (s.block c) s.entriesPerBlock 0 = true → Droppable promised s I c) :
    Prog.Ensures (kRmdir now path) s fun err t => (err ≠ .ok ∧ t = s) ∨
      ∃ d p c J, resolvePath now path s = some ((.ok, I.foundAt d p), s) ∧ I.Holds d p c ∧
        I.dirs c ∧ onlyDots (s.block c) s.entriesPerBlock 0 = true ∧ Removed promised s I p c t J := by
  have wf := resting.good.wf
  unfold kRmdir
  refine .get (.ite (fun _ => .pure (.inl ⟨nofun, rfl⟩)) fun _ => ?_)
  refine .ite (fun _ => .pure (.inl ⟨nofun, rfl⟩)) fun _ => ?_
  obtain ⟨err, r, run, resolved⟩ := resolvePath_run resting.tracks wf resting.cwd now path
  refine .step run (.ite (fun bad => .pure (.inl ⟨bad, rfl⟩)) fun _ => ?_)
  refine .ite (fun _ => .pure (.inl ⟨nofun, rfl⟩)) fun found => ?_
  refine .ite (fun _ => .pure (.inl ⟨nofun, rfl⟩)) fun isDir => ?_
  refine .step (malloc_run resting.tracks.ready.host) (.ite nofun fun _ => ?_)
  have isDir' := Decidable.of_not_not isDir
  cases resolved with
  | slash => exact absurd isDir' (by decide)
  | missing err d here kind => exact absurd rfl found
  | nothing err => exact absurd rfl found
  | dir name d parent mtime here above at_ =>
      obtain ⟨low, high⟩ := wf.dir_inside here
      have bounds := resting.tracks.blocks_bounds
      have first : (resolvedDir name d parent mtime).entry.firstBlock.toNat = d := by
        show (UInt16.ofNat d).toNat = d
        rw [UInt16.toNat_ofNat', Nat.mod_eq_of_lt (by omega)]
      rw [first]
      refine .step (readBlock_run resting.tracks.ready (resting.tracks.inside high)) ?_
      refine .ite (fun _ => .pure (.inl ⟨nofun, rfl⟩)) fun _ => ?_
      refine .step (writeDirent_negative resting.tracks low high .deleted) ?_
      exact .pure (.inl ⟨nofun, rfl⟩)
  | entry d p place live named before =>
      have link : I.Holds d p (I.slot p.1 p.2).firstBlock.toNat := ⟨place, live, named, rfl⟩
      have here : I.dirs (I.slot p.1 p.2).firstBlock.toNat := (wf.target d p _ link).2.mp isDir'
      obtain ⟨_, high⟩ := wf.dir_inside here
      refine .step (readBlock_run resting.tracks.ready (resting.tracks.inside high)) ?_
      refine .ite (fun _ => .pure (.inl ⟨nofun, rfl⟩)) fun empty => ?_
      have dots : onlyDots (s.block (I.slot p.1 p.2).firstBlock.toNat) s.entriesPerBlock 0 = true := by
        simp only [Bool.not_eq_true', Bool.not_eq_false] at empty
        exact empty
      obtain ⟨t, writing, freeing, removed⟩ :=
        dropEntry_run resting link here (allowed d p _ run link here dots)
      exact .step writing (.step freeing (.pure (.inr ⟨d, p, _, _, run, link, here, dots, removed⟩)))

end Removing

end PennOs.Fat
