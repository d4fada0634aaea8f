import PennOs.Fat.FreshFiles
import PennOs.Fat.WriteSplice
import PennOs.Fat.BoundCalls

set_option autoImplicit false

/- A new file of one block while it is written, and once it is closed. -/
namespace PennOs.Fat

open Image (Promises)
open Fs

/-- Descriptor 0 is the only one, and writes at the end of the file in the slot `p`. -/
structure Writer (w : Fs) (J : Image) (p : Nat × Nat) (length : Nat) : Prop where
  descriptor : w.gFdTable 0 = ⟨true, 0, rewriteMode, UInt32.ofNat length⟩
  entry : ∃ mtime, w.gSysfileTable 0 =
    ⟨1, true, (J.slot p.1 p.2).firstBlock, UInt32.ofNat length, mtime, pseudoInode p.1 p.2⟩
  descriptors : ∀ fd < maxFd, fd ≠ 0 → (w.gFdTable fd).inUse = false
  files : ∀ i < maxSystemFiles, i ≠ 0 → (w.gSysfileTable i).inUse = false

/-- The path leads to the slot `p`, whose file can be read, has the one block `b`, and begins with the
data. -/
structure Stores (promised : Promises) (path data : List UInt8) (w : Fs) (J : Image) (d : Nat) (p : Nat × Nat)
    (b : Nat) : Prop where
  rests : Resting promised w J
  link : J.Holds d p b
  file : ¬ J.dirs b
  single : J.chain b = [b]
  leads : ∀ now, resolvePath now path w = some ((.ok, J.foundAt d p), w)
  reads : canRead (J.slot p.1 p.2).perm = true
  fits : data.length ≤ w.gBlockSize
  bytes : w.bytesFrom [b] 0 data.length = data

variable {promised : Promises} {w u : Fs} {J K : Image} {b d n : Nat} {p : Nat × Nat} {now : UInt64}
  {path data : List UInt8}

section Start

/-- The file that was just opened to be written anew. -/
theorem Fresh.writer (fresh : Fresh promised now path u J d p b) :
    Writer (u.openedAs (J.foundAt d p) rewriteMode 0) J p 0 where
  descriptor := rfl
  entry := by
    refine ⟨(J.slot p.1 p.2).mtime, ?_⟩
    have empty : (J.foundAt d p).entry.size = 0 := fresh.empty
    show readEntry (J.foundAt d p) = _
    rw [readEntry, empty]
    rfl
  descriptors fd low other := by
    show (Function.update u.gFdTable 0 _ fd).inUse = false
    rw [Function.update_of_ne other]
    exact fresh.idle.descriptors fd low
  files i low other := by
    show (Function.update u.gSysfileTable 0 _ i).inUse = false
    rw [Function.update_of_ne other]
    exact fresh.idle.files i low

theorem Fresh.stores (fresh : Fresh promised now path u J d p b)
    (reads : canRead (J.slot p.1 p.2).perm = true) :
    Stores promised path [] (u.openedAs (J.foundAt d p) rewriteMode 0) J d p b where
  rests := fresh.rests.withTables _ _
  link := fresh.link
  file := fresh.file
  single := fresh.single
  leads now' := by
    have plain := resolvePath_findsNoLink path u _ _ trivial fresh.leads rfl
    have steady := Steady.refl fresh.rests.tracks fresh.rests.good.wf fresh.link fresh.file plain
    have again : resolvePath now' path u = some ((.ok, J.foundAt d p), u) :=
      steady.resolvePath_leads fresh.rests.cwd path fresh.leads
    show resolvePath now' path
      (u.withTables (Function.update u.gSysfileTable 0 _) (Function.update u.gFdTable 0 _)) = _
    exact resolvePath_withTables again
  reads := reads
  fits := Nat.zero_le _
  bytes := rfl

end Start

section Growth

theorem Writer.valid (writer : Writer w J p n) : w.validFd 0 = true := by
  simp only [validFd, Int.toNat_zero, writer.descriptor, maxFd]
  decide

/-- The file is open through descriptor 0. -/
theorem Stores.openFile (stores : Stores promised path data w J d p b) (writer : Writer w J p data.length) :
    OpenFile w 0 [b] := by
  obtain ⟨mtime, entry⟩ := writer.entry
  have tracks := stores.rests.tracks
  have size := tracks.ready.toMounted.blockSize_bounds
  have small : data.length < 2 ^ 32 := by
    have fits := stores.fits
    omega
  have fileOf : w.fileOf 0 =
      ⟨1, true, (J.slot p.1 p.2).firstBlock, UInt32.ofNat data.length, mtime, pseudoInode p.1 p.2⟩ := by
    rw [Fs.fileOf, writer.descriptor]
    exact entry
  have length : w.lengthOf 0 = data.length := by
    rw [lengthOf, fileOf]
    exact UInt32.toNat_ofNat_of_lt' small
  have offset : w.offsetOf 0 = data.length := by
    rw [offsetOf, writer.descriptor]
    exact UInt32.toNat_ofNat_of_lt' small
  have chain := tracks.chain stores.rests.good.wf (show J.chain b ≠ [] by
    rw [stores.single]
    exact List.cons_ne_nil b [])
  rw [stores.single] at chain
  refine ⟨tracks.ready, tracks.volume.fits, writer.valid, ?_, ?_, by omega⟩
  · have first : (w.fileOf 0).firstBlock.toNat = b := by
      rw [fileOf]
      exact stores.link.first
    exact first ▸ chain
  · have room : w.capacity [b] = w.gBlockSize := Nat.one_mul _
    rw [length, room]
    exact stores.fits

/-- A write to the file of the slot `p` leaves the paths as they were. -/
theorem Wrote.steady (wrote : Wrote w J b u K) (before : Resting promised w J) (after : Resting promised u K)
    (cwd : u.gCwdBlock = w.gCwdBlock) (link : J.Holds d p b) (file : ¬ J.dirs b)
    (plain : (J.slot p.1 p.2).type ≠ DirEntry.typeSymlink) (same : u.gBlockSize = w.gBlockSize) :
    Steady w J u K p := by
  have wf := before.good.wf
  have apart : ∀ {d}, J.dirs d → d ≠ b := by
    intro d here equal
    exact file (equal ▸ here)
  have slots : K.slots = J.slots := by
    rw [after.tracks.shows.slots, before.tracks.shows.slots, entriesPerBlock, entriesPerBlock, same]
  have rowOf : ∀ d q, J.At d q → K.slot q.1 = J.slot q.1 := by
    intro d q place
    exact wrote.rows d (apart place.dir) q.1 place.block
  have row : K.slot p.1 = J.slot p.1 := rowOf d p link.toAt
  exact
    { before := before.tracks
      wf := wf
      after := after.tracks
      wf' := after.good.wf
      slots := slots
      cwd := cwd
      dirs := fun d here => wrote.dirs ▸ here
      chain := fun d here => wrote.chains d (apart here) (wf.dirHead d here)
      others := fun d q place _ => by rw [rowOf d q place]
      rows := fun d' q c held _ other i _ => by
        have used := (wf.target d' q c held).1
        have away : c ≠ b := by
          intro equal
          exact other (wf.tree.unique d' q d p b (equal ▸ held) link).2
        rw [wrote.rows c away c (wf.head_mem used)]
      name := by rw [row]
      type := by rw [row]
      file := ⟨fun isDir => file ((wf.target d p b link).2.mp isDir), plain⟩ }

/-- What a call that writes through descriptor 0 leaves of the image. -/
theorem Stores.wrote (stores : Stores promised path data w J d p b) (writer : Writer w J p data.length)
    {now' : UInt64} {buf : Buffer} {res : Except PennFatErr Nat}
    (run : kWrite now' 0 buf n w = some (res, u)) :
    ∃ K, Resting promised u K ∧ Wrote w J b u K ∧ u.gCwdBlock = w.gCwdBlock := by
  obtain ⟨mtime, entry⟩ := writer.entry
  have first : (w.fileOf 0).firstBlock.toNat = b := by
    rw [Fs.fileOf, writer.descriptor, entry]
    exact stores.link.first
  have used : J.chain b ≠ [] := by
    rw [stores.single]
    exact List.cons_ne_nil b []
  obtain ⟨res', u', run', done⟩ := kWrite_tracks now' 0 buf n stores.rests fun _ _ => by
    rw [Int.toNat_zero, first]
    exact ⟨stores.file, used⟩
  rw [run] at run'
  cases run'
  rcases done with rfl | ⟨_, _, K, rests, wrote, tables⟩
  · exact ⟨J, stores.rests, .refl u J b, rfl⟩
  · rw [Int.toNat_zero, first] at wrote
    exact ⟨K, rests, wrote, tables.cwd⟩

/-- The file keeps its one block. -/
theorem Stores.single_after (stores : Stores promised path data w J d p b) (rests : Resting promised u K)
    (wrote : Wrote w J b u K) (fat : ∀ x < w.fatEntries, u.fat x = w.fat x) : K.chain b = [b] := by
  have wf := stores.rests.good.wf
  have front := wrote.front
  rw [stores.single] at front
  have used : K.chain b ≠ [] := by
    intro none_
    rw [none_] at front
    exact absurd (List.prefix_nil.mp front) (List.cons_ne_nil b [])
  have inside : b < J.blocks := (wf.inside b b (stores.single ▸ List.mem_singleton_self b)).2.1
  have inside' : b < K.blocks := (rests.good.wf.inside b b (rests.good.wf.head_mem used)).2.1
  apply rests.good.wf.single used
  rw [← rests.tracks.shows.fat b inside', fat b (stores.rests.tracks.shows.blocks ▸ inside),
    stores.rests.tracks.shows.fat b inside]
  exact wf.ends stores.single

/-- The tables after `count` bytes went to the end of the file. -/
theorem Writer.after (writer : Writer w J p n) {buf : Buffer} {nodes : List Nat} {count : Nat}
    (written : Written w u 0 nodes buf count) (small : n + count < 2 ^ 32)
    (row : (K.slot p.1 p.2).firstBlock = (J.slot p.1 p.2).firstBlock) : Writer u K p (n + count) := by
  obtain ⟨mtime, entry⟩ := writer.entry
  have offset : w.offsetOf 0 = n := by
    rw [offsetOf, writer.descriptor]
    exact UInt32.toNat_ofNat_of_lt' (by show n < 2 ^ 32; omega)
  have index : (w.gFdTable 0).sysfileIndex = 0 := by rw [writer.descriptor]
  have fileOf : w.fileOf 0 = w.gSysfileTable 0 := by rw [Fs.fileOf, index]
  have length : w.lengthOf 0 = n := by
    rw [lengthOf, fileOf, entry]
    exact UInt32.toNat_ofNat_of_lt' (by show n < 2 ^ 32; omega)
  obtain ⟨mtime', files⟩ := written.file
  have larger : max n (n + count) = n + count := by omega
  rw [index, fileOf, entry, length, offset, larger] at files
  constructor
  · rw [written.descriptor, Function.update_self, writer.descriptor, offset]
  · refine ⟨mtime', ?_⟩
    rw [files, Function.update_self, row]
  · intro fd low other
    rw [written.descriptor, Function.update_of_ne other]
    exact writer.descriptors fd low other
  · intro i low other
    rw [files, Function.update_of_ne other]
    exact writer.files i low other

/-- What the chain holds after `count` bytes went to the end of the data. -/
theorem Written.bytesFrom_append {buf : Buffer} {nodes : List Nat} {count : Nat}
    (written : Written w u 0 nodes buf count) (offset : w.offsetOf 0 = data.length)
    (room : data.length + count ≤ w.capacity nodes) (bytes : w.bytesFrom nodes 0 data.length = data) :
    u.bytesFrom nodes 0 (data.length + count) = data ++ (List.range count).map buf := by
  have before : u.bytesFrom nodes 0 data.length = w.bytesFrom nodes 0 data.length := by
    apply List.map_congr_left
    intro j member
    have low : j < data.length := List.mem_range.mp member
    have outside : ¬ (data.length ≤ 0 + j ∧ 0 + j < data.length + count) := by omega
    rw [written.bytes (0 + j) (by omega), spliced, offset, if_neg outside]
  have added : u.bytesFrom nodes data.length count = (List.range count).map buf := by
    apply List.map_congr_left
    intro j member
    have low : j < count := List.mem_range.mp member
    have inside : data.length ≤ data.length + j ∧ data.length + j < data.length + count := by omega
    rw [written.bytes (data.length + j) (by omega), spliced, offset, if_pos inside, Nat.add_sub_cancel_left]
  rw [bytesFrom_add, before, bytes, Nat.zero_add, added]

/-- As much as the block has room for goes to the end of the file. -/
theorem Stores.append (stores : Stores promised path data w J d p b) (writer : Writer w J p data.length)
    (now' : UInt64) (buf : Buffer) (n : Nat) {count : Nat}
    (isCount : count = min n (w.gBlockSize - data.length)) :
    ∃ u K, kWrite now' 0 buf n w = some (.ok count, u) ∧ u.gBlockSize = w.gBlockSize ∧
      Writer u K p (data ++ (List.range count).map buf).length ∧
      Stores promised path (data ++ (List.range count).map buf) u K d p b := by
  have opened := stores.openFile writer
  have plain : hasRead (w.gFdTable 0).mode = false := by
    rw [writer.descriptor]
    show hasRead rewriteMode = false
    decide
  obtain ⟨u, run, written⟩ := kWrite_run opened plain now' buf n
  have size := stores.rests.tracks.ready.toMounted.blockSize_bounds
  have fits := stores.fits
  have small : data.length < 2 ^ 32 := by omega
  have offset : w.offsetOf 0 = data.length := by
    rw [offsetOf, writer.descriptor]
    exact UInt32.toNat_ofNat_of_lt' small
  have room : w.capacity [b] = w.gBlockSize := Nat.one_mul _
  rw [offset, room, ← isCount] at run written
  obtain ⟨K, rests, wrote, cwd⟩ := stores.wrote writer run
  have plainLink : (J.slot p.1 p.2).type ≠ DirEntry.typeSymlink :=
    resolvePath_findsNoLink path w _ _ trivial (stores.leads 0) rfl
  have steady := wrote.steady stores.rests rests cwd stores.link stores.file plainLink written.blockSize
  have link := stores.link
  have row : K.slot p.1 = J.slot p.1 :=
    wrote.rows d (fun same => stores.file (same ▸ link.dir)) p.1 link.block
  have grown : (data ++ (List.range count).map buf).length = data.length + count := by
    rw [List.length_append, List.length_map, List.length_range]
  refine ⟨u, K, run, written.blockSize, ?_, ?_⟩
  · rw [grown]
    exact writer.after written (by omega) (by rw [row])
  · exact
      { rests := rests
        link := ⟨⟨steady.dirs d link.dir, (steady.chain d link.dir).symm ▸ link.block,
          steady.slots.symm ▸ link.index⟩,
          row.symm ▸ link.live, link.named, row.symm ▸ link.first⟩
        file := by
          rw [wrote.dirs]
          exact stores.file
        single := stores.single_after rests wrote fun x inside => written.fat x inside
        leads := fun now => steady.resolvePath_leads stores.rests.cwd path (stores.leads now)
        reads := by
          rw [row]
          exact stores.reads
        fits := by
          rw [grown, written.blockSize]
          omega
        bytes := by
          rw [grown]
          exact written.bytesFrom_append offset (by omega) stores.bytes }

end Growth

section Closing

/-- The size and the time of the file in the slot `p` change. -/
theorem Stores.setMeta (stores : Stores promised path data w J d p b) (size : UInt32) (mtime : UInt64) :
    Stores promised path data (w.putDirent p { J.slot p.1 p.2 with size := size, mtime := mtime })
      (J.setSlot p { J.slot p.1 p.2 with size := size, mtime := mtime }) d p b := by
  have wf := stores.rests.good.wf
  have link := stores.link
  obtain ⟨low, high, _⟩ := wf.inside d p.1 link.block
  obtain ⟨e, isE⟩ : ∃ e, e = { J.slot p.1 p.2 with size := size, mtime := mtime } := ⟨_, rfl⟩
  have name : e.cName = (J.slot p.1 p.2).cName := by rw [isE]; rfl
  have type : e.type = (J.slot p.1 p.2).type := by rw [isE]
  have first : e.firstBlock = (J.slot p.1 p.2).firstBlock := by rw [isE]
  have live : e.live = (J.slot p.1 p.2).live := by rw [isE]; rfl
  have perm : e.perm = (J.slot p.1 p.2).perm := by rw [isE]
  rw [← isE]
  obtain ⟨_, rests, _⟩ := stores.rests.setMeta_run low high link.index link.live name type first
  have row : (J.setSlot p e).slot p.1 p.2 = e := J.setSlot_self p e
  have plain : (J.slot p.1 p.2).type ≠ DirEntry.typeSymlink :=
    resolvePath_findsNoLink path w _ _ trivial (stores.leads 0) rfl
  have steady : Steady w J (w.putDirent p e) (J.setSlot p e) p :=
    { before := stores.rests.tracks
      wf := wf
      after := rests.tracks
      wf' := rests.good.wf
      slots := rfl
      cwd := rfl
      dirs := fun _ here => here
      chain := fun _ _ => rfl
      others := fun _ q _ apart => J.setSlot_ne e apart
      rows := fun d' q c held file' _ i _ => by
        have member := wf.head_mem (wf.target d' q c held).1
        refine Image.setSlot_ne (q := (c, i)) J e fun same => ?_
        rw [← same] at link
        rw [wf.apart member link.block] at file'
        exact file' link.dir
      name := by rw [row, name]
      type := by rw [row, type]
      file := ⟨fun isDir => stores.file ((wf.target d p b link).2.mp isDir), plain⟩ }
  have apart : b ≠ p.1 := by
    intro same
    have member : p.1 ∈ J.chain b := by
      rw [stores.single, same]
      exact List.mem_singleton_self _
    exact stores.file (wf.apart member link.block ▸ link.dir)
  have inside : b < J.blocks := (wf.inside b b (stores.single ▸ List.mem_singleton_self b)).2.1
  have bound := stores.rests.tracks.blocks_bounds
  exact
    { rests := rests
      link := ⟨⟨link.dir, link.block, link.index⟩, row.symm ▸ live.trans link.live, link.named,
        row.symm ▸ (congrArg UInt16.toNat first).trans link.first⟩
      file := stores.file
      single := stores.single
      leads := fun now => steady.resolvePath_leads stores.rests.cwd path (stores.leads now)
      reads := by
        rw [row, perm]
        exact stores.reads
      fits := stores.fits
      bytes := by
        refine Eq.trans ?_ stores.bytes
        have same : (w.putDirent p e).block b = w.block b :=
          stores.rests.tracks.ready.block_putBlock_ne _ apart (by omega) (by omega)
        apply List.map_congr_left
        intro j _
        have size : (w.putDirent p e).gBlockSize = w.gBlockSize := rfl
        rw [byteAt, byteAt, size]
        cases node : [b][(0 + j) / w.gBlockSize]? with
        | none => rfl
        | some x =>
            obtain rfl : x = b := List.mem_singleton.mp (List.mem_of_getElem? node)
            exact congrFun same _ }

/-- With the file closed, no descriptor is in use, and its entry has the length of the data. -/
theorem Stores.close (stores : Stores promised path data w J d p b) (writer : Writer w J p data.length) :
    ∃ t K, kClose 0 w = some (.ok, t) ∧ t.gBlockSize = w.gBlockSize ∧ t.NoneOpen ∧
      Stores promised path data t K d p b ∧ (K.slot p.1 p.2).size.toNat = data.length := by
  obtain ⟨mtime, entry⟩ := writer.entry
  have size := stores.rests.tracks.ready.toMounted.blockSize_bounds
  have fits := stores.fits
  have inUse : (w.gFdTable 0).inUse = true := by rw [writer.descriptor]
  have index : (w.gFdTable 0).sysfileIndex = 0 := by rw [writer.descriptor]
  have closed := kClose_last stores.rests stores.link inUse index entry rfl rfl rfl rfl
  obtain ⟨e, isE⟩ : ∃ e, e = { J.slot p.1 p.2 with size := UInt32.ofNat data.length, mtime := mtime } :=
    ⟨_, rfl⟩
  have updated := stores.setMeta (UInt32.ofNat data.length) mtime
  rw [← isE] at closed updated
  refine ⟨_, J.setSlot p e, closed, rfl, ⟨?_, ?_⟩, ?_, ?_⟩
  · intro fd low
    show (Function.update w.gFdTable 0 _ fd).inUse = false
    rw [Function.update_apply]
    split
    · rfl
    · rename_i other
      exact writer.descriptors fd low other
  · intro i low
    show (Function.update w.gSysfileTable 0 _ i).inUse = false
    rw [Function.update_apply]
    split
    · rfl
    · rename_i other
      exact writer.files i low other
  · exact
      { updated with
        rests := updated.rests.withTables _ _
        leads := fun now => by
          show resolvePath now path ((w.putDirent p e).withTables (Function.update w.gSysfileTable 0 _)
            (Function.update w.gFdTable 0 _)) = _
          exact resolvePath_withTables (updated.leads now) }
  · rw [J.setSlot_self p e, isE]
    exact UInt32.toNat_ofNat_of_lt' (by show data.length < 2 ^ 32; omega)

end Closing

end PennOs.Fat
