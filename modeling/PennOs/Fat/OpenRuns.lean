import PennOs.Fat.CreatedPaths
import PennOs.Fat.OpenAccounting

set_option autoImplicit false

/- Opening files and giving references back: what happens to the image and to the tables. -/
namespace PennOs.Fat

open Image (Promises Keeps KeepsAll)

/-- No descriptor and no entry of the system-wide table in use is new. -/
structure Retains (s t : Fs) : Prop where
  files : ∀ i, (t.gSysfileTable i).inUse = true → (s.gSysfileTable i).inUse = true ∧
    (t.gSysfileTable i).dirIndex = (s.gSysfileTable i).dirIndex ∧
    (t.gSysfileTable i).firstBlock = (s.gSysfileTable i).firstBlock
  descriptors : ∀ fd, (t.gFdTable fd).inUse = true → (s.gFdTable fd).inUse = true ∧
    (t.gFdTable fd).sysfileIndex = (s.gFdTable fd).sysfileIndex ∧
    (t.gFdTable fd).mode = (s.gFdTable fd).mode
  cwd : t.gCwdBlock = s.gCwdBlock

/-- The images are of one size, and the names in their slots are the same. -/
structure SameNames (I J : Image) : Prop where
  blocks : J.blocks = I.blocks
  slots : J.slots = I.slots
  names : ∀ q : Nat × Nat, (J.slot q.1 q.2).cName = (I.slot q.1 q.2).cName

/-- The system-wide table once a reference to an entry was given back. -/
def Fs.released (s : Fs) (index : Nat) : Nat → SystemFile :=
  if maxSystemFiles ≤ index ∨ !(s.gSysfileTable index).inUse then s.gSysfileTable
  else Function.update s.gSysfileTable index
    (if (s.gSysfileTable index).refCount - 1 ≤ 0 then .zero
      else { s.gSysfileTable index with refCount := (s.gSysfileTable index).refCount - 1 })

variable {promised : Promises} {s t u : Fs} {I J : Image} {b c d : Nat} {p : Nat × Nat} {e : DirEntry}

section Tables

theorem Retains.refl (s : Fs) : Retains s s :=
  ⟨fun _ used => ⟨used, rfl, rfl⟩, fun _ used => ⟨used, rfl, rfl⟩, rfl⟩

theorem Retains.trans (first : Retains s t) (second : Retains t u) : Retains s u where
  files i used := by
    obtain ⟨used', inode, block⟩ := second.files i used
    obtain ⟨used'', inode', block'⟩ := first.files i used'
    exact ⟨used'', inode.trans inode', block.trans block'⟩
  descriptors fd used := by
    obtain ⟨used', index, mode⟩ := second.descriptors fd used
    obtain ⟨used'', index', mode'⟩ := first.descriptors fd used'
    exact ⟨used'', index.trans index', mode.trans mode'⟩
  cwd := second.cwd.trans first.cwd

theorem SameNames.refl (I : Image) : SameNames I I := ⟨rfl, rfl, fun _ => rfl⟩

theorem SameNames.trans {K : Image} (first : SameNames I J) (second : SameNames J K) : SameNames I K :=
  ⟨second.blocks.trans first.blocks, second.slots.trans first.slots,
    fun q => (second.names q).trans (first.names q)⟩

theorem SameTables.retains (same : SameTables s t) : Retains s t where
  files i used := by
    rw [same.files] at used ⊢
    exact ⟨used, rfl, rfl⟩
  descriptors fd used := by
    rw [same.descriptors] at used ⊢
    exact ⟨used, rfl, rfl⟩
  cwd := same.cwd

theorem Fs.released_entry (s : Fs) (index i : Nat) (used : (s.released index i).inUse = true) :
    (s.gSysfileTable i).inUse = true ∧
      (s.released index i).dirIndex = (s.gSysfileTable i).dirIndex ∧
      (s.released index i).firstBlock = (s.gSysfileTable i).firstBlock := by
  by_cases idle : maxSystemFiles ≤ index ∨ (!(s.gSysfileTable index).inUse) = true
  · have table : s.released index = s.gSysfileTable := if_pos idle
    rw [table] at used ⊢
    exact ⟨used, rfl, rfl⟩
  · by_cases here : i = index
    · subst here
      rw [Fs.released, if_neg idle, Function.update_self] at used ⊢
      split at used
      · cases used
      · next more =>
          rw [if_neg more]
          exact ⟨used, rfl, rfl⟩
    · rw [Fs.released, if_neg idle, Function.update_of_ne here] at used ⊢
      exact ⟨used, rfl, rfl⟩

theorem Resting.setSysfile (resting : Resting promised s I) (i : Nat) (sf : SystemFile) :
    Resting promised (s.setSysfile i sf) I :=
  ⟨resting.tracks.setSysfile i sf, resting.good, resting.idle, resting.cwd⟩

theorem Resting.setFd (resting : Resting promised s I) (fd : Nat) (entry : FdEntry) :
    Resting promised (s.setFd fd entry) I :=
  ⟨resting.tracks.setFd fd entry, resting.good, resting.idle, resting.cwd⟩

/-- The size goes back to the directory entry, if that is still the file's. -/
theorem flush_run (resting : Resting promised s I) (sf : SystemFile) :
    Prog.Ensures (flushSysfile sf) s fun _ t => ∃ J, Resting promised t J ∧ KeepsAll I J ∧
      SameTables s t ∧ SameNames I J := by
  have stays : ∃ J, Resting promised s J ∧ KeepsAll I J ∧ SameTables s s ∧ SameNames I J :=
    ⟨I, resting, .refl I, .refl s, .refl I⟩
  unfold flushSysfile
  have bound : sf.dirIndex / 65536 % 65536 < 65536 := Nat.mod_lt _ (by decide)
  rcases readDirent_result resting.tracks _ (sf.dirIndex % 65536) bound with
    ⟨err, run⟩ | ⟨low, high, index, run⟩
  · exact .step run (.pure stays)
  · refine .step run (.ite (fun same => ?_) fun _ => .pure stays)
    obtain ⟨writing, rests, keeps⟩ := resting.setMeta_run (p := (_, _))
      (e := { I.slot _ _ with size := sf.size, mtime := sf.mtime }) low high index same.1 rfl rfl rfl
    exact .step writing (.pure ⟨_, rests, keeps, .putDirent s _ _, rfl, rfl, Image.setMeta_cName rfl⟩)

/-- A reference to an entry of the system-wide table is given back. -/
structure Released (promised : Promises) (s : Fs) (I : Image) (index : Nat) (t : Fs) (J : Image) :
    Prop where
  rests : Resting promised t J
  keeps : KeepsAll I J
  names : SameNames I J
  files : t.gSysfileTable = s.released index
  descriptors : t.gFdTable = s.gFdTable
  cwd : t.gCwdBlock = s.gCwdBlock

theorem release_run (resting : Resting promised s I) (index : Nat) :
    Prog.Ensures (releaseSysfileEntry index) s fun _ t => ∃ J, Released promised s I index t J := by
  unfold releaseSysfileEntry
  refine .get (.ite (fun unused => ?_) fun used => ?_)
  · exact .pure ⟨I, resting, .refl I, .refl I, by rw [Fs.released, if_pos unused], rfl, rfl⟩
  refine .modify (.ite (fun last => ?_) fun more => ?_)
  · refine (flush_run (resting.setSysfile index _) (s.gSysfileTable index)).bind ?_
    rintro _ t ⟨J, rests, keeps, tables, names⟩
    refine .of_run (Prog.modify_run _ _) ⟨J, rests.setSysfile index .zero, keeps, names, ?_,
      tables.descriptors, tables.cwd⟩
    show Function.update t.gSysfileTable index SystemFile.zero = s.released index
    rw [tables.files, Fs.released, if_neg used, if_pos last]
    exact Function.update_idem _ _ _
  · refine .pure ⟨I, resting.setSysfile index _, .refl I, .refl I, ?_, rfl, rfl⟩
    show Function.update s.gSysfileTable index _ = s.released index
    rw [Fs.released, if_neg used, if_neg more]

end Tables

section Granting

/-- The descriptor `fd` was opened on the slot with the key `inode`, through an entry of the
system-wide table that was there already or is new. -/
structure Granted (s t : Fs) (mode : UInt32) (inode : Nat) (first : UInt16) (fd i : Nat) : Prop where
  low : fd < maxFd
  free : (s.gFdTable fd).inUse = false
  descriptors : ∃ offset, t.gFdTable = Function.update s.gFdTable fd ⟨true, i, mode, offset⟩
  others : ∀ j ≠ i, t.gSysfileTable j = s.gSysfileTable j
  used : (t.gSysfileTable i).inUse = true
  key : (t.gSysfileTable i).dirIndex = inode
  entry : (s.findSysfile inode = some i ∧
      (t.gSysfileTable i).firstBlock = (s.gSysfileTable i).firstBlock) ∨
    ((s.gSysfileTable i).inUse = false ∧ (t.gSysfileTable i).firstBlock = first)
  cwd : t.gCwdBlock = s.gCwdBlock

/-- A reference was counted in `t` for a descriptor to come: the entry `i` was in use or is new. -/
structure Counted (s t : Fs) (inode : Nat) (first : UInt16) (i : Nat) : Prop where
  descriptors : t.gFdTable = s.gFdTable
  cwd : t.gCwdBlock = s.gCwdBlock
  others : ∀ j ≠ i, t.gSysfileTable j = s.gSysfileTable j
  used : (t.gSysfileTable i).inUse = true
  key : (t.gSysfileTable i).dirIndex = inode
  entry : (s.findSysfile inode = some i ∧
      (t.gSysfileTable i).firstBlock = (s.gSysfileTable i).firstBlock) ∨
    ((s.gSysfileTable i).inUse = false ∧ (t.gSysfileTable i).firstBlock = first ∧
      (t.gSysfileTable i).refCount = 1)

theorem findAndIncrement_counted {inode i : Nat} (first : UInt16) (found : s.findSysfile inode = some i) :
    Counted s (s.countUp i) inode first i := by
  obtain ⟨_, used, key⟩ := findSysfile_some found
  have here : (s.countUp i).gSysfileTable i =
      { s.gSysfileTable i with refCount := (s.gSysfileTable i).refCount + 1 } :=
    Function.update_self _ _ _
  refine ⟨rfl, rfl, fun j other => Function.update_of_ne other _ _, ?_, ?_, .inl ⟨found, ?_⟩⟩
  · rw [here]
    exact used
  · rw [here]
    exact key
  · rw [here]

/-- There is room in the system-wide table. -/
theorem createSysfile_run (accounted : s.Accounted none) (resolved : ResolvedPath) (inode : Nat) :
    ∃ i t, createSysfileEntryFromResolved resolved inode s = some (some i, t) ∧
      Counted s t inode resolved.entry.firstBlock i ∧ i < maxSystemFiles ∧
      ∃ sf, t = s.setSysfile i sf := by
  obtain ⟨i, found⟩ := accounted.freeSysfile
  obtain ⟨_, high, unused, _⟩ := Search.firstFrom_some found
  have here : ∀ sf : SystemFile, (s.setSysfile i sf).gSysfileTable i = sf :=
    fun sf => Function.update_self _ _ _
  refine ⟨i, s.setSysfile i ⟨1, true, resolved.entry.firstBlock, resolved.entry.size,
    resolved.entry.mtime, inode⟩, ?_, ?_, by omega, _, rfl⟩
  · rw [createSysfileEntryFromResolved, Prog.get_bind, found]
    rfl
  · refine ⟨rfl, rfl, fun j other => Function.update_of_ne other _ _, ?_, ?_, .inr ⟨?_, ?_, ?_⟩⟩
    · rw [here]
    · rw [here]
    · simpa using unused
    · rw [here]
    · rw [here]

/-- The descriptor, or the reference given back. -/
theorem assignFd_run (resting : Resting promised t I) {inode i : Nat} {first : UInt16}
    (counted : Counted s t inode first i) (low : i < maxSystemFiles) (mode size : UInt32) :
    Prog.Ensures (assignFd i mode size) t fun res u => ∃ J, Resting promised u J ∧ KeepsAll I J ∧
      ((∃ err, res = .error err ∧ Retains s u) ∨
        ∃ fd, res = .ok fd ∧ Granted s u mode inode first fd i) := by
  unfold assignFd
  refine .get ?_
  cases found : t.freeFd with
  | some fd =>
      obtain ⟨_, high, unused, _⟩ := Search.firstFrom_some found
      refine .modify (.pure ⟨I, resting.setFd fd _, .refl I, .inr ⟨fd, rfl, ?_⟩⟩)
      refine ⟨by omega, ?_, ⟨if hasAppend mode then size else 0, ?_⟩, counted.others, counted.used,
        counted.key,
        counted.entry.imp id fun fresh => ⟨fresh.1, fresh.2.1⟩, counted.cwd⟩
      · rw [← counted.descriptors]
        simpa using unused
      · show Function.update t.gFdTable fd _ = _
        rw [counted.descriptors]
  | none =>
      refine (release_run resting i).bind ?_
      rintro _ u ⟨J, released⟩
      refine .pure ⟨J, released.rests, released.keeps, .inl ⟨_, rfl, ?_⟩⟩
      refine ⟨fun j used => ?_, fun fd used => ?_, released.cwd.trans counted.cwd⟩
      · rw [released.files] at used ⊢
        by_cases here : j = i
        · subst here
          obtain ⟨_, key, block⟩ := t.released_entry j j used
          rcases counted.entry with ⟨shared, same⟩ | ⟨unused, _, once⟩
          · obtain ⟨_, used', key'⟩ := findSysfile_some shared
            exact ⟨used', key.trans (counted.key.trans key'.symm), block.trans same⟩
          · have gone : t.released j j = .zero := by
              have busy : ¬ (maxSystemFiles ≤ j ∨ (!(t.gSysfileTable j).inUse) = true) := by
                rw [counted.used]
                simp only [Bool.not_true, Bool.false_eq_true, or_false]
                omega
              rw [Fs.released, if_neg busy, Function.update_self, if_pos (by rw [once]; decide)]
            rw [gone] at used
            cases used
        · obtain ⟨used', key, block⟩ := t.released_entry i j used
          rw [counted.others j here] at used' key block
          exact ⟨used', key, block⟩
      · rw [released.descriptors, counted.descriptors] at used ⊢
        exact ⟨used, rfl, rfl⟩

end Granting

section Truncating

/-- The file in the slot `p` got a new chain of one block, the first free one after its old
blocks were freed. -/
structure Truncated (promised : Promises) (s : Fs) (I : Image) (p : Nat × Nat) (c : Nat) (t : Fs)
    (J : Image) (b : Nat) : Prop where
  rests : Resting promised t J
  keeps : Keeps (fun q => q = p) (fun _ => False) I J
  tables : SameTables s t
  file : J.FileAt p b
  first : (J.slot p.1 p.2).firstBlock.toNat = b
  names : SameNames I J
  chain : ∀ d, I.dirs d → J.chain d = I.chain d
  taken : (s.freeAll (I.chain c)).freeBlock = some b

theorem truncateFile_run (resting : Resting promised s I) (now : UInt64) (link : I.Holds d p c)
    (file : ¬ I.dirs c) (before : ∀ j < p.2, (I.slot p.1 j).name0 ≠ 0) :
    Prog.Ensures (truncateFile now (I.foundAt d p)) s fun res t =>
      ∃ J b, res = .ok (J.foundAt d p) ∧ Truncated promised s I p c t J b := by
  have wf := resting.good.wf
  have used := (wf.target d p c link).1
  have head := wf.head_mem used
  obtain ⟨lowC, highC, _⟩ := wf.inside c c head
  have proper := wf.tree.notRoot d p c link
  obtain ⟨low, high, _⟩ := wf.inside d p.1 link.block
  have first : (I.foundAt d p).entry.firstBlock.toNat = c := link.first
  obtain ⟨freeing, freed⟩ := freeBlockChain_tracks resting.tracks wf used
  have isFree : (I.free c).fat c = fatFree := if_pos head
  obtain ⟨b, lowB, highB, freeB, taking, taken⟩ :=
    allocate_some freed (show 2 ≤ c by omega) highC isFree
  have bound : b < 65536 := by
    have bounds := resting.tracks.blocks_bounds
    have inside : b < I.blocks := highB
    omega
  have firstB : (UInt16.ofNat b).toNat = b := by
    rw [UInt16.toNat_ofNat', Nat.mod_eq_of_lt bound]
  have found : (s.freeAll (I.chain c)).freeBlock = some b := by
    have scan := allocateFreeBlock_run freed.ready
    rw [taking] at scan
    cases result : (s.freeAll (I.chain c)).freeBlock with
    | none =>
        rw [result] at scan
        cases scan
    | some x =>
        rw [result] at scan
        simp only [Option.some.injEq, Prod.mk.injEq] at scan
        rw [scan.1]
  obtain ⟨e, isE⟩ : ∃ e : DirEntry,
      e = { I.slot p.1 p.2 with firstBlock := UInt16.ofNat b, size := 0, mtime := now } := ⟨_, rfl⟩
  have firstE : e.firstBlock.toNat = b := by
    rw [isE]
    exact firstB
  have name : e.cName = (I.slot p.1 p.2).cName := by
    rw [isE]
    rfl
  have regular : e.type ≠ DirEntry.typeDirectory := by
    rw [isE]
    exact fun isDir => file ((wf.target d p c link).2.mp isDir)
  have live : e.live = true := DirEntry.live_congr name ▸ link.live
  obtain ⟨t, writing, written, tables⟩ : ∃ t,
      writeDirent p.1 p.2 e ((s.freeAll (I.chain c)).setFat b fatEoc) = some (.ok, t) ∧
        Tracks t (((I.free c).alloc b).setSlot p e) ∧ SameTables s t :=
    ⟨_, writeDirent_run taken low high link.index e, taken.putDirent low high e,
      ((SameTables.freeAll s (I.chain c)).trans (.setFat _ b fatEoc)).trans (.putDirent _ p e)⟩
  -- the entry is taken out, its chain exchanged, and the entry put back in its slot
  have removed := (resting.good.remove link).free (.inr link.first.symm) file
  have again := removed.alloc lowB highB freeB
  have row : (I.remove p).slot p.1 p.2 = .deleted := I.setSlot_self p .deleted
  have rowOf : ∀ {q}, q ≠ p → (I.remove p).slot q.1 q.2 = I.slot q.1 q.2 :=
    fun other => I.setSlot_ne .deleted other
  have chainOf : (((I.remove p).free c).alloc b).chain d = I.chain d := by
    rw [Image.alloc_chain removed.wf freeB (d := d) link.dir]
    exact Image.free_chain (I := I.remove p) file link.dir
  have place : (((I.remove p).free c).alloc b).At d p :=
    ⟨link.dir, chainOf.symm ▸ link.block, link.index⟩
  have notDir : ¬ I.dirs b := fun here =>
    removed.wf.dirHead b here (removed.wf.chain_nil_of_free freeB)
  have dead : ((((I.remove p).free c).alloc b).slot p.1 p.2).live = false := row ▸ DirEntry.deleted_live
  have added := again.add place dead live (.inr firstE)
    ⟨fun isDir => absurd isDir regular, fun here => absurd (firstE ▸ here) notDir⟩
    (by omega) (fun here => absurd (firstE ▸ here) notDir)
    (fun asked q at_ other alive same => ?_) fun i less => ?_
  · obtain ⟨J, isJ⟩ : ∃ J, J = (((I.remove p).free c).alloc b).add p e := ⟨_, rfl⟩
    have slotP : J.slot p.1 p.2 = e := isJ ▸ Image.setSlot_self (((I.remove p).free c).alloc b) p e
    have updated : J.foundAt d p = { I.foundAt d p with entry := e } := by
      rw [Image.foundAt, slotP]
      rfl
    have gone : Keeps (fun q => q = p) (fun _ => False) I (I.remove p) := .remove rfl
    have held : J.Holds d p b :=
      ⟨isJ ▸ ⟨place.dir, place.block, place.index⟩, slotP.symm ▸ live, link.named, slotP.symm ▸ firstE⟩
    refine .of_run ?_ ⟨J, b, rfl, ⟨?_, isJ ▸ added, fun x isLoose => ?_, ?_⟩, ?_, tables,
      ⟨d, held, isJ ▸ notDir⟩, slotP.symm ▸ firstE, ⟨?_, ?_, ?_⟩, ?_, found⟩
    · rw [truncateFile, first, Prog.bind_of_run freeing, Prog.bind_of_run taking]
      subst isE
      refine (Prog.bind_of_run writing _).trans ?_
      rw [updated]
      rfl
    · rw [isJ]
      exact written.ghost rfl rfl (fun _ _ => rfl) fun x _ _ i _ =>
        congrFun (congrFun (Image.setSlot_setSlot I p .deleted e) x) i
    · rw [isJ] at isLoose
      rcases isLoose with ⟨⟨old | new, other⟩ | same, apart⟩
      · exact resting.idle x old
      · exact other (new.trans link.first)
      · exact apart (same.trans firstE.symm)
    · rw [isJ, tables.cwd]
      exact resting.cwd
    · rw [isJ]
      exact gone.trans ((Keeps.free (I := I.remove p) file).trans ((Keeps.alloc removed.wf freeB).trans
        (.add dead)))
    · rw [isJ]
      rfl
    · rw [isJ]
      rfl
    · intro q
      by_cases same : q = p
      · rw [same, slotP]
        exact name
      · rw [isJ]
        exact congrArg DirEntry.cName
          ((Image.setSlot_ne (((I.remove p).free c).alloc b) e same).trans (rowOf same))
    · intro d' here
      rw [isJ]
      exact (Image.alloc_chain removed.wf freeB (d := d') here).trans
        (Image.free_chain (I := I.remove p) file here)
  · have old : I.At d q := ⟨link.dir, chainOf ▸ at_.block, at_.index⟩
    have rowQ : (((I.remove p).free c).alloc b).slot q.1 q.2 = I.slot q.1 q.2 := rowOf other
    rw [rowQ] at alive same
    exact other ((resting.good.distinct asked).names d q p old link.toAt alive link.live (same.trans name))
  · have other : (p.1, i) ≠ p := fun same => absurd (congrArg Prod.snd same) (by simp only; omega)
    have rowI : (((I.remove p).free c).alloc b).slot p.1 i = I.slot p.1 i := rowOf other
    rw [rowI]
    exact before i less

end Truncating

section Opening

/-- What `k_open` changes on the image. -/
inductive OpenedImage (s : Fs) (I : Image) (now : UInt64) (path : List UInt8) (mode : UInt32)
    (J : Image) : Prop where
  | kept : KeepsAll I J → OpenedImage s I now path mode J
  | truncated {d : Nat} {p : Nat × Nat} {c b : Nat} :
      resolvePath now path s = some ((.ok, I.foundAt d p), s) → I.Holds d p c → ¬ I.dirs c →
      hasWrite mode = true → Keeps (fun q => q = p) (fun _ => False) I J → J.FileAt p b →
      (s.freeAll (I.chain c)).freeBlock = some b → OpenedImage s I now path mode J

/-- The file a new descriptor is for: "/" for modes that ask for no access, or the file in the
slot `p`, whose key the table knows, or does not know, or that was not in use before. -/
inductive OpenedSlot (s : Fs) (I : Image) (path : List UInt8) (mode : UInt32) (J : Image) (i : Nat) :
    Nat × Nat → UInt16 → Prop where
  | root : path = [slash] → permits mode 0 = true → OpenedSlot s I path mode J i (1, 0) 0
  | file {p : Nat × Nat} {first : UInt16} : J.FileAt p first.toNat →
      s.findSysfile (pseudoInode p.1 p.2) = some i ∨ s.findSysfile (pseudoInode p.1 p.2) = none ∨
        (∀ d c, ¬ I.Holds d p c) → OpenedSlot s I path mode J i p first

/-- What `k_open` changes in the tables. -/
inductive OpenedTables (s : Fs) (I : Image) (path : List UInt8) (mode : UInt32) (J : Image) (t : Fs) :
    Except PennFatErr Nat → Prop where
  | refused {err : PennFatErr} : Retains s t → OpenedTables s I path mode J t (.error err)
  | granted {fd i : Nat} {p : Nat × Nat} {first : UInt16} :
      OpenedSlot s I path mode J i p first → Granted s t mode (pseudoInode p.1 p.2) first fd i →
      OpenedTables s I path mode J t (.ok fd)

theorem Granted.of_tables {mode : UInt32} {inode fd i : Nat} {first : UInt16} (same : SameTables s t)
    (granted : Granted t u mode inode first fd i) : Granted s u mode inode first fd i := by
  have search : t.findSysfile inode = s.findSysfile inode := by simp only [Fs.findSysfile, same.files]
  obtain ⟨low, free, descriptors, others, used, key, entry, cwd⟩ := granted
  rw [same.descriptors] at free descriptors
  simp only [same.files] at others entry
  exact ⟨low, free, descriptors, others, used, key, search ▸ entry, cwd.trans same.cwd⟩

/-- `openExisting` past the truncation. -/
theorem openCurrent_run (resting : Resting promised s I) (accounted : s.Accounted none) (mode : UInt32)
    (r : ResolvedPath) :
    Prog.Ensures (openCurrent mode (.ok r)) s fun res t => ∃ J, Resting promised t J ∧ KeepsAll I J ∧
      ((∃ err, res = .error err ∧ Retains s t) ∨ ∃ fd i, res = .ok fd ∧
        Granted s t mode (pseudoInode r.entryBlock r.entryIndexInBlock) r.entry.firstBlock fd i ∧
        (s.findSysfile (pseudoInode r.entryBlock r.entryIndexInBlock) = some i ∨
          s.findSysfile (pseudoInode r.entryBlock r.entryIndexInBlock) = none)) := by
  simp only [openCurrent]
  cases found : s.findSysfile (pseudoInode r.entryBlock r.entryIndexInBlock) with
  | some i =>
      refine .step (findAndIncrement_some found) ?_
      have counted := findAndIncrement_counted r.entry.firstBlock found
      refine (assignFd_run (resting.setSysfile i _) counted (findSysfile_some found).1 mode _).mono ?_
      rintro res t ⟨J, rests, keeps, refused | ⟨fd, granted⟩⟩
      · exact ⟨J, rests, keeps, .inl refused⟩
      · exact ⟨J, rests, keeps, .inr ⟨fd, i, granted.1, granted.2, .inl rfl⟩⟩
  | none =>
      refine .step (findAndIncrement_none found) ?_
      obtain ⟨i, t, making, counted, low, sf, rfl⟩ :=
        createSysfile_run accounted r (pseudoInode r.entryBlock r.entryIndexInBlock)
      refine .step making ?_
      refine (assignFd_run (resting.setSysfile i sf) counted low mode _).mono ?_
      rintro res t ⟨J, rests, keeps, refused | ⟨fd, granted⟩⟩
      · exact ⟨J, rests, keeps, .inl refused⟩
      · exact ⟨J, rests, keeps, .inr ⟨fd, i, granted.1, granted.2, .inr rfl⟩⟩

/-- `k_open` on a file that exists. -/
theorem openExisting_run (resting : Resting promised s I) (accounted : s.Accounted none) (now : UInt64)
    (path : List UInt8) (mode : UInt32) (run : resolvePath now path s = some ((.ok, I.foundAt d p), s))
    (link : I.Holds d p c) (before : ∀ j < p.2, (I.slot p.1 j).name0 ≠ 0) :
    Prog.Ensures (openExisting now mode (I.foundAt d p)) s fun res t => ∃ J, Resting promised t J ∧
      OpenedImage s I now path mode J ∧ OpenedTables s I path mode J t res := by
  have wf := resting.good.wf
  rw [openExisting_eq]
  refine .ite (fun _ => .pure ⟨I, resting, .kept (.refl I), .refused (.refl s)⟩) fun notDir => ?_
  refine .ite (fun _ => .pure ⟨I, resting, .kept (.refl I), .refused (.refl s)⟩) fun _ => ?_
  have file : ¬ I.dirs c := fun here => notDir ((wf.target d p c link).2.mpr here)
  by_cases truncates : hasWrite mode = true ∧ (!hasAppend mode) = true
  · rw [openedEntry, if_pos truncates]
    refine (truncateFile_run resting now link file before).bind ?_
    rintro _ t ⟨J, b, rfl, truncated⟩
    refine (openCurrent_run truncated.rests (accounted.of_refs truncated.tables.refs) mode _).mono ?_
    have search : t.findSysfile (pseudoInode p.1 p.2) = s.findSysfile (pseudoInode p.1 p.2) := by
      simp only [Fs.findSysfile, truncated.tables.files]
    rintro res u ⟨K, rests, keeps, outcome⟩
    have file' := keeps.fileAt truncated.file id
    refine ⟨K, rests, .truncated run link file truncates.1 (truncated.keeps.trans keeps.keeps) file'
      truncated.taken, ?_⟩
    rcases outcome with ⟨err, rfl, retains⟩ | ⟨fd, i, rfl, granted, known⟩
    · exact .refused (truncated.tables.retains.trans retains)
    · refine .granted (p := p) (.file ?_ (known.imp search.symm.trans fun missing =>
        .inl (search.symm.trans missing))) (granted.of_tables truncated.tables)
      show K.FileAt p (J.slot p.1 p.2).firstBlock.toNat
      rw [truncated.first]
      exact file'
  · rw [openedEntry, if_neg truncates]
    refine .step (Prog.pure_run _ s) ?_
    refine (openCurrent_run resting accounted mode _).mono ?_
    rintro res u ⟨K, rests, keeps, outcome⟩
    refine ⟨K, rests, .kept keeps, ?_⟩
    rcases outcome with ⟨err, rfl, retains⟩ | ⟨fd, i, rfl, granted, known⟩
    · exact .refused retains
    · refine .granted (p := p) (.file ?_ (known.imp id .inl)) granted
      show K.FileAt p (I.slot p.1 p.2).firstBlock.toNat
      rw [link.first]
      exact keeps.fileAt ⟨d, link, file⟩ id

theorem permits_zero {mode : UInt32} (permitted : permits mode 0 = true) : hasWrite mode = false := by
  simp only [permits, canRead, canWrite, Bool.not_eq_true', Bool.or_eq_false_iff,
    Bool.and_eq_false_iff] at permitted
  rcases permitted.2 with none | can
  · exact none.1
  · exact absurd can (by decide)

/-- `k_open` on "/" grants a descriptor for modes that ask for no access. -/
theorem openRoot_run (resting : Resting promised s I) (accounted : s.Accounted none) (now : UInt64)
    (mode : UInt32) :
    Prog.Ensures (openExisting now mode
      { ResolvedPath.zero with found := true, isRoot := true, entryBlock := 1 }) s
      fun res t => ∃ J, Resting promised t J ∧ OpenedImage s I now [slash] mode J ∧
        OpenedTables s I [slash] mode J t res := by
  rw [openExisting_eq]
  refine .ite (fun _ => .pure ⟨I, resting, .kept (.refl I), .refused (.refl s)⟩) fun _ => ?_
  refine .ite (fun _ => .pure ⟨I, resting, .kept (.refl I), .refused (.refl s)⟩) fun permitted => ?_
  have allowed : permits mode 0 = true := by
    simp only [Bool.not_eq_true', Bool.not_eq_false] at permitted
    exact permitted
  rw [openedEntry, if_neg (by rw [permits_zero allowed]; exact fun both => absurd both.1 Bool.false_ne_true)]
  refine .step (Prog.pure_run _ s) ?_
  refine (openCurrent_run resting accounted mode _).mono ?_
  rintro res u ⟨K, rests, keeps, outcome⟩
  refine ⟨K, rests, .kept keeps, ?_⟩
  rcases outcome with ⟨err, rfl, retains⟩ | ⟨fd, i, rfl, granted, _⟩
  · exact .refused retains
  · exact .granted (.root rfl allowed) granted

/-- The image and the tables after `k_open`; what the new descriptor is for is known where the
directories are dense. -/
def OpenDone (promised : Promises) (s : Fs) (I : Image) (now : UInt64) (path : List UInt8)
    (mode : UInt32) (res : Except PennFatErr Nat) (t : Fs) : Prop :=
  ∃ J, Resting promised t J ∧ t.gCwdBlock = s.gCwdBlock ∧ OpenedImage s I now path mode J ∧
    (promised.dense → OpenedTables s I path mode J t res)

theorem Resting.openDone {path : List UInt8} {mode : UInt32} {now : UInt64} {err : PennFatErr}
    (rests : Resting promised t J) (keeps : KeepsAll I J) (tables : SameTables s t) :
    OpenDone promised s I now path mode (.error err) t :=
  ⟨J, rests, tables.cwd, .kept keeps, fun _ => .refused tables.retains⟩

theorem OpenedTables.cwd {path : List UInt8} {mode : UInt32} {res : Except PennFatErr Nat}
    (tables : OpenedTables s I path mode J t res) : t.gCwdBlock = s.gCwdBlock := by
  cases tables with
  | refused retains => exact retains.cwd
  | granted _ granted => exact granted.cwd

/-- What `k_open` finds after a creation is the new file. -/
theorem Resolved.foundAt_slot {err : PennFatErr} {r : ResolvedPath} (resolved : Resolved I err r)
    (same : r = I.foundAt d p) : (I.slot p.1 p.2).live = true := by
  have index : r.entryIndexInBlock = p.2 := congrArg ResolvedPath.entryIndexInBlock same
  have block : r.entryBlock = p.1 := congrArg ResolvedPath.entryBlock same
  have root : r.isRoot = false := congrArg ResolvedPath.isRoot same
  have found : r.found = true := congrArg ResolvedPath.found same
  cases resolved with
  | slash => cases root
  | dir name x parent mtime here above at_ =>
      have negative : (-1 : Int) = p.2 := index
      omega
  | missing err x here kind => cases found
  | nothing err => cases found
  | entry x q place live named before =>
      have block' : q.1 = p.1 := block
      have index' : (q.2 : Int) = p.2 := index
      rw [show p = q from Prod.ext block'.symm (by omega)]
      exact live

/-- `k_open` on a path that ends at a missing entry. -/
theorem openCreate_run (resting : Resting promised s I) (accounted : s.Accounted none) (now : UInt64)
    (path : CStr) (mode : UInt32) {err : PennFatErr} (here : I.dirs d)
    (run : resolvePath now path.bytes s = some ((err, unresolvedIn d), s))
    (welcome : hasCreate mode = true → (getFilenameFromPath path.bytes).length < 32 →
      NameWelcome promised I d (getFilenameFromPath path.bytes)) :
    Prog.Ensures (openCreate now path.bytes mode (unresolvedIn d)) s
      (OpenDone promised s I now path.bytes mode) := by
  have stays : ∀ err, OpenDone promised s I now path.bytes mode (.error err) s :=
    fun err => resting.openDone (.refl I) (.refl s)
  unfold openCreate
  refine .ite (fun _ => .pure (stays _)) fun creates => .ite (fun _ => .pure (stays _)) fun _ => ?_
  refine .ite (fun _ => .pure (stays _)) fun short => ?_
  have noNul := fun member => path.noNul (mem_getFilenameFromPath member)
  have named := welcome (by simpa using creates) (by omega)
  rcases newFile_run resting now here (by omega) noNul named with
    full | ⟨b, t, free, took, ⟨full, back⟩ | ⟨u, J, p, added, rests, keeps, tables, entered, file⟩⟩
  · exact .step full (.pure (stays _))
  · refine .step took (.step full (back.bind ?_))
    rintro _ v ⟨K, rests, keeps, tables⟩
    exact .pure (rests.openDone keeps tables)
  · refine .step took (.step added ?_)
    obtain ⟨err', created, again, resolved⟩ :=
      resolvePath_run rests.tracks rests.good.wf rests.cwd now path.bytes
    refine .step again (.ite (fun found => ?_) fun _ => ?_)
    · obtain ⟨i, v, making, counted, low, sf, rfl⟩ := createSysfile_run
        (accounted.of_refs tables.refs) created (pseudoInode created.entryBlock created.entryIndexInBlock)
      refine .step making ?_
      refine (assignFd_run (rests.setSysfile i sf) counted low mode _).mono ?_
      rintro res w ⟨K, rests', keeps', outcome⟩
      have cwd : w.gCwdBlock = s.gCwdBlock := by
        rcases outcome with ⟨err, _, retains⟩ | ⟨fd, _, granted⟩
        · exact (tables.retains.trans retains).cwd
        · exact granted.cwd.trans tables.cwd
      refine ⟨K, rests', cwd, .kept (keeps.trans keeps'), fun dense => ?_⟩
      rcases outcome with ⟨err, rfl, retains⟩ | ⟨fd, rfl, granted⟩
      · exact .refused (tables.retains.trans retains)
      have gains := entered.gains resting dense free (allocateFreeBlock_tables _ _ _ took) rfl
        (named.dense (.inl dense))
      obtain ⟨_, _, again', leads⟩ := gains.resolvePath_sees resting.cwd path.bytes err _ run rfl
      rw [again] at again'
      cases again'
      obtain ⟨d', rfl⟩ := leads found.2
      have live := resolved.foundAt_slot rfl
      rw [entered.written] at live
      have file' := file live
      have first : (J.slot p.1 p.2).firstBlock.toNat = b := by
        obtain ⟨_, link, _⟩ := file'
        exact link.first
      refine .granted (p := p) (.file ?_ (.inr (.inr gains.unused))) (granted.of_tables tables)
      show K.FileAt p (J.slot p.1 p.2).firstBlock.toNat
      rw [first]
      exact keeps'.fileAt file' id
    · exact .ite (fun _ => .pure (rests.openDone keeps tables)) fun _ => .pure (rests.openDone keeps tables)

theorem kOpen_run (resting : Resting promised s I) (accounted : s.Accounted none) (now : UInt64)
    (path : CStr) (mode : UInt32)
    (welcome : ∀ err d, resolvePath now path.bytes s = some ((err, unresolvedIn d), s) → I.dirs d →
      hasCreate mode = true → (getFilenameFromPath path.bytes).length < 32 →
      NameWelcome promised I d (getFilenameFromPath path.bytes)) :
    Prog.Ensures (kOpen now path.bytes mode) s (OpenDone promised s I now path.bytes mode) := by
  have stays : ∀ err, OpenDone promised s I now path.bytes mode (.error err) s :=
    fun err => resting.openDone (.refl I) (.refl s)
  have wf := resting.good.wf
  unfold kOpen
  refine .get (.ite (fun _ => .pure (stays _)) fun _ => .ite (fun _ => .pure (stays _)) fun _ => ?_)
  refine .ite (fun _ => .pure (stays _)) fun _ => ?_
  obtain ⟨err, r, run, resolved⟩ := resolvePath_run resting.tracks wf resting.cwd now path.bytes
  refine .step run (.ite (fun _ => .pure (stays _)) fun _ => ?_)
  have done : ∀ {res t}, (∃ J, Resting promised t J ∧ OpenedImage s I now path.bytes mode J ∧
      OpenedTables s I path.bytes mode J t res) → OpenDone promised s I now path.bytes mode res t := by
    rintro res t ⟨J, rests, effect, tables⟩
    exact ⟨J, rests, tables.cwd, effect, fun _ => tables⟩
  cases resolved with
  | slash =>
      refine .ite (fun _ => ?_) nofun
      have top : path.bytes = [slash] := resolvePath_root run rfl (by decide)
      have opened := openRoot_run resting accounted now mode
      rw [← top] at opened
      exact opened.mono fun _ _ => done
  | dir name d parent mtime here above at_ =>
      refine .ite (fun _ => ?_) nofun
      rw [openExisting_eq]
      exact .ite (fun _ => .pure (stays _)) fun no => absurd rfl no
  | entry d p place live named before =>
      refine .ite (fun _ => ?_) nofun
      exact (openExisting_run resting accounted now path.bytes mode run ⟨place, live, named, rfl⟩ before).mono
        fun _ _ => done
  | missing err d here kind =>
      exact .ite nofun fun _ =>
        openCreate_run resting accounted now path mode here run (welcome err d run here)
  | nothing err =>
      refine .ite nofun fun _ => ?_
      unfold openCreate
      exact .ite (fun _ => .pure (stays _)) fun _ => .ite (fun _ => .pure (stays _)) fun no =>
        absurd (.inl rfl) no

end Opening

end PennOs.Fat
