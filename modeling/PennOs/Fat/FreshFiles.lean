import PennOs.Fat.CreatedPaths
import PennOs.Fat.SteadyPaths
import PennOs.Fat.WholeReads

set_option autoImplicit false

/- `k_open` with K_O_CREATE and K_O_WRONLY on a path: an empty file of one block, made or truncated. -/
namespace PennOs.Fat

open Image (Promises KeepsAll)
open LinkedChain (Links)
open Fs

/-- The mode of a file that is written anew. -/
def rewriteMode : UInt32 := 0x5

/-- The path leads to the slot `p`, whose file is empty, has the one block `b`, and is not open. -/
structure Fresh (promised : Promises) (now : UInt64) (path : List UInt8) (u : Fs) (J : Image) (d : Nat)
    (p : Nat × Nat) (b : Nat) : Prop where
  rests : Resting promised u J
  idle : u.NoneOpen
  link : J.Holds d p b
  file : ¬ J.dirs b
  single : J.chain b = [b]
  leads : resolvePath now path u = some ((.ok, J.foundAt d p), u)
  empty : (J.slot p.1 p.2).size = 0

/-- The file can be read if the one at the path could be, or if there was none. -/
def Readable (s : Fs) (now : UInt64) (path : List UInt8) : Prop :=
  ∀ r, resolvePath now path s = some ((.ok, r), s) → r.found = true → canRead r.entry.perm = true

variable {promised : Promises} {s t u : Fs} {I J K : Image} {b c d h : Nat} {p : Nat × Nat} {now : UInt64}
  {path : List UInt8}

section Images

/-- A chain whose first block is marked as the last. -/
theorem Image.Wf.single (wf : I.Wf) (used : I.chain h ≠ []) (ends : I.fat h = fatEoc) : I.chain h = [h] := by
  have links := wf.links used
  cases nodes : I.chain h with
  | nil => exact absurd nodes used
  | cons first rest =>
      rw [nodes] at links
      obtain ⟨head, tail⟩ := links
      obtain rfl : h = first := Option.some.inj head
      have last : nextBlock I.fat h = none := linkOf_eq_none.mpr ends
      rw [last] at tail
      cases rest with
      | nil => rfl
      | cons next more => cases tail.1

theorem Image.Wf.ends (wf : I.Wf) (single : I.chain h = [h]) : I.fat h = fatEoc := by
  have links := wf.links (show I.chain h ≠ [] by rw [single]; exact List.cons_ne_nil h [])
  rw [single] at links
  exact linkOf_eq_none.mp links.2

/-- Images of one volume agree. -/
theorem Tracks.same (tracks : Tracks u J) (tracks' : Tracks u K) :
    (∀ b < J.blocks, K.fat b = J.fat b) ∧
      ∀ b, 1 ≤ b → b < J.blocks → ∀ i < J.slots, K.slot b i = J.slot b i := by
  have blocks : K.blocks = J.blocks := tracks'.shows.blocks.trans tracks.shows.blocks.symm
  have slots : K.slots = J.slots := tracks'.shows.slots.trans tracks.shows.slots.symm
  constructor
  · intro b inside
    rw [← tracks.shows.fat b inside, ← tracks'.shows.fat b (blocks ▸ inside)]
  · intro b low inside i index
    rw [← tracks.shows.slot b low inside i index, ← tracks'.shows.slot b low (blocks ▸ inside) i
      (slots ▸ index)]

theorem SameTables.noneOpen (same : SameTables s t) (idle : s.NoneOpen) : t.NoneOpen where
  descriptors fd low := by
    rw [same.descriptors]
    exact idle.descriptors fd low
  files i low := by
    rw [same.files]
    exact idle.files i low

end Images

section Truncation

/-- The file at the path is truncated. -/
theorem truncateFile_fresh (resting : Resting promised s I) (idle : s.NoneOpen) (link : I.Holds d p c)
    (file : ¬ I.dirs c) (before : ∀ j < p.2, (I.slot p.1 j).name0 ≠ 0)
    (run : resolvePath now path s = some ((.ok, I.foundAt d p), s)) :
    ∃ u J b, truncateFile now (I.foundAt d p) s = some (.ok (J.foundAt d p), u) ∧
      Fresh promised now path u J d p b ∧ J.slots = I.slots ∧
        (J.slot p.1 p.2).perm = (I.slot p.1 p.2).perm := by
  have wf := resting.good.wf
  have used := (wf.target d p c link).1
  have head := wf.head_mem used
  obtain ⟨lowC, highC, _⟩ := wf.inside c c head
  have proper := wf.tree.notRoot d p c link
  obtain ⟨low, high, _⟩ := wf.inside d p.1 link.block
  have first : (I.foundAt d p).entry.firstBlock.toNat = c := link.first
  -- the run, step by step, for the rows and the FAT that it leaves
  obtain ⟨freeing, freed⟩ := freeBlockChain_tracks resting.tracks wf used
  have isFree : (I.free c).fat c = fatFree := if_pos head
  obtain ⟨x, lowX, highX, freeX, taking, taken⟩ := allocate_some freed (show 2 ≤ c by omega) highC isFree
  obtain ⟨e, isE⟩ : ∃ e : DirEntry,
      e = { I.slot p.1 p.2 with firstBlock := UInt16.ofNat x, size := 0, mtime := now } := ⟨_, rfl⟩
  have writing := writeDirent_run taken low high link.index e
  have written := taken.putDirent low high e
  have stepped : truncateFile now (I.foundAt d p) s = some (.ok { I.foundAt d p with entry := e },
      ((s.freeAll (I.chain c)).setFat x fatEoc).putDirent p e) := by
    rw [isE] at writing ⊢
    unfold truncateFile
    rw [first]
    refine (Prog.bind_of_run freeing _).trans ((Prog.bind_of_run taking _).trans ?_)
    exact (Prog.bind_of_run writing _).trans rfl
  obtain ⟨_, u, whole, J, b, rfl, done⟩ := truncateFile_run resting now link file before
  rw [stepped] at whole
  obtain ⟨found, rfl⟩ := Prod.mk.inj (Option.some.inj whole)
  have slot : J.slot p.1 p.2 = e := (congrArg (fun r => r.entry) (Except.ok.inj found)).symm
  have wf' := done.rests.good.wf
  obtain ⟨fats, slots⟩ := done.rests.tracks.same written
  have rowOf : ∀ y, 1 ≤ y → y < I.blocks → ∀ i < I.slots, (y, i) ≠ p → J.slot y i = I.slot y i := by
    intro y lowY highY i inside apart
    have row := slots y lowY (done.names.blocks ▸ highY) i (done.names.slots ▸ inside)
    exact row.symm.trans (Image.setSlot_ne (q := (y, i)) _ e apart)
  have steady : Steady s I (((s.freeAll (I.chain c)).setFat x fatEoc).putDirent p e) J p :=
    { before := resting.tracks
      wf := wf
      after := done.rests.tracks
      wf' := wf'
      slots := done.names.slots
      cwd := done.tables.cwd
      dirs := fun d' here => done.keeps.dirs d' here id
      chain := done.chain
      others := fun d' q place apart => by
        obtain ⟨lowQ, highQ, _⟩ := wf.inside d' q.1 place.block
        exact rowOf q.1 lowQ highQ q.2 place.index apart
      rows := fun d' q c' held file' _ i inside => by
        have member := wf.head_mem (wf.target d' q c' held).1
        obtain ⟨lowQ, highQ, _⟩ := wf.inside c' c' member
        refine rowOf c' lowQ highQ i inside fun same => ?_
        rw [← same] at link
        rw [wf.apart member link.block] at file'
        exact file' link.dir
      name := done.names.names p
      type := by rw [slot, isE]
      file := ⟨fun isDir => file ((wf.target d p c link).2.mp isDir),
        resolvePath_findsNoLink path s _ _ trivial run rfl⟩ }
  have bound : x < 65536 := by
    have bounds := resting.tracks.blocks_bounds
    have inside : x < I.blocks := highX
    omega
  have same : b = x := by
    rw [← done.first, slot, isE]
    exact (UInt16.toNat_ofNat').trans (Nat.mod_eq_of_lt bound)
  have ends : J.fat b = fatEoc := by
    rw [← fats b (same ▸ done.names.blocks ▸ highX), same]
    exact Function.update_self _ _ _
  obtain ⟨fileJ, usedJ⟩ := done.file.used wf'
  obtain ⟨d', held, _⟩ := done.file
  have here : d' = d := wf'.apart held.block (done.chain d link.dir ▸ link.block)
  rw [here] at held
  refine ⟨_, J, b, ?_, ⟨done.rests, done.tables.noneOpen idle, held, fileJ, wf'.single usedJ ends,
    steady.resolvePath_leads resting.cwd path run, ?_⟩, steady.slots, ?_⟩
  · rw [stepped, found]
  · rw [slot, isE]
  · rw [slot, isE]

end Truncation

section Creation

theorem Resolved.foundAt_place {err : PennFatErr} {r : ResolvedPath} (resolved : Resolved I err r)
    (same : r = I.foundAt d p) : I.At d p := by
  cases resolved with
  | slash => cases same
  | dir name x parent mtime here above at_ =>
      have index : (-1 : Int) = p.2 := congrArg (fun r => r.entryIndexInBlock) same
      omega
  | missing err x here kind => cases same
  | nothing err => cases same
  | entry x q place live named before =>
      obtain ⟨rfl, rfl⟩ := Image.foundAt_inj same
      exact place

/-- The one block of the file stays its own while the directory gets the entry. -/
theorem addDirentToDir_single {e : DirEntry} (resting : Resting promised s I) (here : I.dirs d)
    (took : allocateFreeBlock s = some (some b, t)) (added : addDirentToDir d e t = some (.ok, u))
    (tracks : Tracks u J) : J.fat b = fatEoc := by
  rcases take_run resting with full | ⟨x, free, took', taken⟩
  · rw [took] at full
    cases full
  rw [took] at took'
  cases took'
  have here' : (I.alloc b).dirs d := here
  rcases addDirentToDir_run taken.tracks taken.good.wf here' e with full | ⟨v, K, p, added', growth⟩
  · rw [added] at full
    cases full
  rw [added] at added'
  cases added'
  have apart : b ≠ d := by
    intro same
    exact taken.file (same ▸ here')
  have used : (I.alloc b).chain b ≠ [] := by
    rw [taken.single]
    exact List.cons_ne_nil b []
  have single : K.chain b = [b] := (growth.grows.chain b apart used).trans taken.single
  have ends := (growth.grows.good _ taken.good).wf.ends single
  have inside : b < J.blocks := by
    have member : b ∈ (I.alloc b).chain b := taken.single ▸ List.mem_singleton_self b
    have bound := (taken.good.wf.inside b b member).2.1
    have bound' : b < K.blocks := growth.grows.blocks.symm ▸ bound
    have blocks : K.blocks = u.fatEntries := growth.tracks.shows.blocks
    rw [tracks.shows.blocks, ← blocks]
    exact bound'
  exact ((tracks.same growth.tracks).1 b inside).symm.trans ends

/-- A new file is found at the path, or the creation fails. -/
theorem openCreate_fresh (resting : Resting promised s I) (dense : promised.dense) (idle : s.NoneOpen)
    (path : CStr) {err : PennFatErr} (here : I.dirs d)
    (run : resolvePath now path.bytes s = some ((err, unresolvedIn d), s))
    (welcome : (getFilenameFromPath path.bytes).length < 32 →
      NameWelcome promised I d (getFilenameFromPath path.bytes))
    {fd : Nat} (opened : openCreate now path.bytes rewriteMode (unresolvedIn d) s = some (.ok fd, t)) :
    ∃ u J x p b, fd = 0 ∧ t = u.openedAs (J.foundAt x p) rewriteMode 0 ∧
      Fresh promised now path.bytes u J x p b ∧ J.slots = I.slots ∧ (J.slot p.1 p.2).perm = defPerm := by
  have wf := resting.good.wf
  have creates : (!hasCreate rewriteMode) = false := by decide
  have noNul := fun member => path.noNul (mem_getFilenameFromPath member)
  unfold openCreate at opened
  simp only [creates, Bool.false_eq_true, ↓reduceIte] at opened
  split at opened
  · cases opened
  split at opened
  · cases opened
  rename_i short
  have named := welcome (by omega)
  rcases newFile_run resting now here (by omega) noNul named with
    full | ⟨b, v, free, took, ⟨full, back⟩ | ⟨u, J, p, added, rests, keeps, tables, entered, file⟩⟩
  · rw [Prog.bind_of_run full] at opened
    cases opened
  · obtain ⟨_, _, first, opened⟩ := Prog.bind_inv opened
    rw [took] at first
    cases first
    dsimp only at opened
    obtain ⟨_, _, second, opened⟩ := Prog.bind_inv opened
    rw [show (unresolvedIn d).parentDirBlock = d from rfl, full] at second
    cases second
    dsimp only at opened
    obtain ⟨_, _, _, failed⟩ := Prog.bind_inv opened
    cases failed
  · obtain ⟨_, _, first, opened⟩ := Prog.bind_inv opened
    rw [took] at first
    cases first
    dsimp only at opened
    obtain ⟨_, _, second, opened⟩ := Prog.bind_inv opened
    rw [show (unresolvedIn d).parentDirBlock = d from rfl, added] at second
    cases second
    dsimp only at opened
    obtain ⟨err', created, again, resolved⟩ :=
      resolvePath_run rests.tracks rests.good.wf rests.cwd now path.bytes
    rw [Prog.bind_of_run again] at opened
    split at opened
    swap
    · split at opened
      · cases opened
      · cases opened
    rename_i success
    have idle' := tables.noneOpen idle
    rw [Prog.bind_of_run (createSysfile_fresh idle' created)] at opened
    dsimp only at opened
    rw [assignFd_fresh idle'] at opened
    cases opened
    have gains := entered.gains resting dense free (allocateFreeBlock_tables _ _ _ took) rfl
      (named.dense (.inl dense))
    obtain ⟨_, _, again', leads⟩ := gains.resolvePath_sees resting.cwd path.bytes err _ run rfl
    rw [again] at again'
    cases again'
    obtain ⟨x, rfl⟩ := leads success.2
    obtain rfl : err' = .ok := success.1
    have ends := addDirentToDir_single resting here took added rests.tracks
    have live := resolved.foundAt_slot rfl
    rw [entered.written] at live
    obtain ⟨used, chained⟩ := (file live).used rests.good.wf
    obtain ⟨y, held, _⟩ := file live
    have same : y = x := rests.good.wf.apart held.block (resolved.foundAt_place rfl).block
    refine ⟨u, J, x, p, b, rfl, rfl,
      ⟨rests, idle', same ▸ held, used, rests.good.wf.single chained ends, again, ?_⟩,
      gains.slots, ?_⟩
    · rw [entered.written]
      rfl
    · rw [entered.written]
      rfl

end Creation

section Opening

/-- With no file open, `k_open` for a file to write anew makes it descriptor 0. -/
theorem kOpen_fresh (resting : Resting promised s I) (dense : promised.dense) (idle : s.NoneOpen)
    (path : CStr)
    (welcome : ∀ err d, resolvePath now path.bytes s = some ((err, unresolvedIn d), s) → I.dirs d →
      (getFilenameFromPath path.bytes).length < 32 →
      NameWelcome promised I d (getFilenameFromPath path.bytes))
    {fd : Nat} (opened : kOpen now path.bytes rewriteMode s = some (.ok fd, t)) :
    ∃ u J d p b, fd = 0 ∧ t = u.openedAs (J.foundAt d p) rewriteMode 0 ∧
      Fresh promised now path.bytes u J d p b ∧ u.gBlockSize = s.gBlockSize ∧
      (Readable s now path.bytes → canRead (J.slot p.1 p.2).perm = true) := by
  have wf := resting.good.wf
  unfold kOpen at opened
  rw [Prog.get_bind] at opened
  split at opened
  · cases opened
  split at opened
  · cases opened
  split at opened
  · cases opened
  obtain ⟨err, r, run, resolved⟩ := resolvePath_run resting.tracks wf resting.cwd now path.bytes
  rw [Prog.bind_of_run run] at opened
  dsimp only at opened
  split at opened
  · cases opened
  cases resolved with
  | slash =>
      have barred : (!permits rewriteMode ResolvedPath.zero.entry.perm) = true := by decide
      have kind : ResolvedPath.zero.entry.type ≠ DirEntry.typeDirectory := by decide
      rw [if_pos rfl, openExisting_eq, if_neg kind] at opened
      split at opened
      · cases opened
      · rename_i permitted
        exact absurd barred permitted
  | dir name d parent mtime here above at_ =>
      have kind : (resolvedDir name d parent mtime).entry.type = DirEntry.typeDirectory := rfl
      rw [if_pos (show (resolvedDir name d parent mtime).found = true from rfl), openExisting_eq,
        if_pos kind] at opened
      cases opened
  | entry d p place live named before =>
      have link : I.Holds d p (I.foundAt d p).entry.firstBlock.toNat := ⟨place, live, named, rfl⟩
      rw [if_pos (show (I.foundAt d p).found = true from rfl), openExisting_eq] at opened
      split at opened
      · cases opened
      rename_i notDir
      split at opened
      · cases opened
      have file : ¬ I.dirs (I.foundAt d p).entry.firstBlock.toNat := fun here =>
        notDir ((wf.target d p _ link).2.mpr here)
      obtain ⟨u, J, b, truncated, fresh, slots, perm⟩ := truncateFile_fresh resting idle link file before run
      have plain : openedEntry now rewriteMode (I.foundAt d p) = truncateFile now (I.foundAt d p) := rfl
      rw [plain, Prog.bind_of_run truncated, openCurrent_fresh fresh.idle] at opened
      cases opened
      refine ⟨u, J, d, p, b, rfl, rfl, fresh, resting.tracks.sameSize fresh.rests.tracks slots,
        fun readable => ?_⟩
      rw [perm]
      exact readable _ run rfl
  | missing err d here kind =>
      have created : openCreate now path.bytes rewriteMode (unresolvedIn d) s = some (.ok fd, t) := opened
      obtain ⟨u, J, x, p, b, zero, same, fresh, slots, perm⟩ :=
        openCreate_fresh resting dense idle path here run (welcome err d run here) created
      refine ⟨u, J, x, p, b, zero, same, fresh, resting.tracks.sameSize fresh.rests.tracks slots, fun _ => ?_⟩
      rw [perm]
      decide
  | nothing err =>
      have created : openCreate now path.bytes rewriteMode .zero s = some (.ok fd, t) := opened
      unfold openCreate at created
      split at created
      · cases created
      rw [if_pos (.inl rfl)] at created
      cases created

end Opening

end PennOs.Fat
