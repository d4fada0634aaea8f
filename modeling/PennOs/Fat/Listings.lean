import PennOs.Fat.TreeRuns
import PennOs.Shell.KillCommand

set_option autoImplicit false

/- `k_ls` and `k_ls_long`: what they print, against what path resolution finds. -/
namespace PennOs.Fat

open Image (Promises)
open PennOs.Shell (ascii decimal)
open Fs

/-- `CAN_EXEC` -/
def canExec (perm : UInt8) : Bool := perm &&& 0x1 != 0

/-- `perm_to_str` -/
def permToStr (perm : UInt8) : List UInt8 :=
  (if canRead perm then ascii "r" else ascii "-") ++ (if canWrite perm then ascii "w" else ascii "-") ++
    if canExec perm then ascii "x" else ascii "-"

/-- `%10u`, for a width of 10. -/
def padLeft (width : Nat) (text : List UInt8) : List UInt8 :=
  List.replicate (width - text.length) 32 ++ text

/-- `%-10u`, for a width of 10. -/
def padRight (width : Nat) (text : List UInt8) : List UInt8 :=
  text ++ List.replicate (width - text.length) 32

/-- How one of the two functions prints an entry. -/
structure LsStyle where
  line : DirEntry → List UInt8
  unreadable : List UInt8

/-- The lines of `k_ls`. The host turns a time into text. -/
def lsStyle (timeStr : UInt64 → List UInt8) : LsStyle where
  line e :=
    padLeft 10 (decimal e.firstBlock.toNat) ++ ascii " " ++
      (if e.type = DirEntry.typeDirectory then ascii "d"
        else if e.type = DirEntry.typeSymlink then ascii "l" else ascii "-") ++
      permToStr e.perm ++ ascii " " ++ padRight 10 (decimal e.size.toNat) ++ ascii " " ++
      timeStr e.mtime ++ ascii " " ++ e.cName
  unreadable := ascii " -> [Error reading target]"

/-- The lines of `k_ls_long`. -/
def lsLongStyle (timeStr : UInt64 → List UInt8) : LsStyle where
  line e :=
    (if e.type = DirEntry.typeDirectory then ascii "d" else ascii "-") ++ permToStr e.perm ++
      ascii "------ 1 " ++ decimal e.firstBlock.toNat ++ ascii " " ++ decimal e.size.toNat ++ ascii " " ++
      padLeft 8 (decimal e.size.toNat) ++ ascii " " ++ timeStr e.mtime ++ ascii " " ++ e.cName
  unreadable := []

/-- What stands behind the entry of a symbolic link. -/
def lsTarget (style : LsStyle) (e : DirEntry) : FsM (List UInt8) := do
  if e.type ≠ DirEntry.typeSymlink then return []
  match ← readBlock e.firstBlock.toNat with
  | none => return style.unreadable
  | some buf =>
      let s ← Prog.get
      return ascii " -> " ++ cStringIn buf (s.gBlockSize - 1)

/-- The lines of a block: an empty name ends it, and deleted entries are skipped. -/
def lsBlock (style : LsStyle) (buf : Buffer) : Nat → Nat → FsM (List (List UInt8))
  | 0, _ => return []
  | count + 1, index => do
      let entry := direntAt buf index
      if entry.name0 = 0 then return []
      else if entry.name0 = 1 ∨ entry.name0 = 2 then lsBlock style buf count (index + 1)
      else
        let target ← lsTarget style entry
        let rest ← lsBlock style buf count (index + 1)
        return (style.line entry ++ target ++ ascii "\n") :: rest

/-- The loop over the chain of the directory: the lines, and the block that could not be read. -/
def lsLoop (style : LsStyle) : Nat → Nat → FsM (List (List UInt8) × Option Nat)
  | 0, _ => Prog.fault
  | fuel + 1, currentBlock => do
      if currentBlock = fatEoc ∨ currentBlock = fatFree then return ([], none)
      match ← readBlock currentBlock with
      | none => return ([], some currentBlock)
      | some buf =>
          let s ← Prog.get
          let lines ← lsBlock style buf s.entriesPerBlock 0
          let (rest, failed) ← lsLoop style fuel (← fatGet currentBlock)
          return (lines ++ rest, failed)

/-- `(path && path[0] != '\0') ? path : "."` -/
def lsPath (path : List UInt8) : List UInt8 := if path = [] then dot else path

/-- The first block of the directory to list. -/
def listedDir (now : UInt64) (path : List UInt8) : FsM (Except PennFatErr Nat) := do
  let (err, resolved) ← resolvePath now (lsPath path)
  if err ≠ .ok then return .error err
  if !resolved.found then return .error .exist
  if resolved.isRoot then return .ok 1
  if resolved.entry.type = DirEntry.typeDirectory then return .ok resolved.entry.firstBlock.toNat
  return .error .notdir

/-- What a call printed, and what it returned. -/
structure Printed where
  stdout : List UInt8
  stderr : List UInt8
  code : PennFatErr
  deriving DecidableEq

def lsRule : List UInt8 := ascii "------------------------------------------------------------\n"

def lsHead (dirBlock : Nat) : List UInt8 :=
  ascii "Listing directory block " ++ decimal dirBlock ++ ascii ":\n" ++
    ascii "      Block Perm Size       Timestamp             Name\n" ++ lsRule

/-- `k_ls` -/
def kLs (timeStr : UInt64 → List UInt8) (now : UInt64) (path : List UInt8) : FsM Printed := do
  let s ← Prog.get
  if !s.gMounted then return ⟨[], [], .notMounted⟩
  match ← listedDir now path with
  | .error err => return ⟨[], [], err⟩
  | .ok dirBlock =>
      if !(← malloc) then return ⟨lsHead dirBlock, [], .outofmem⟩
      let (lines, failed) ← lsLoop (lsStyle timeStr) (chainFuel + 1) dirBlock
      match failed with
      | some block =>
          return ⟨lsHead dirBlock ++ lines.flatten,
            ascii "Error reading block " ++ decimal block ++ ascii "\n", .io⟩
      | none =>
          let empty := if lines = [] then ascii "(Directory is empty)\n" else []
          return ⟨lsHead dirBlock ++ lines.flatten ++ empty ++ lsRule, [], .ok⟩

/-- `k_ls_long` -/
def kLsLong (timeStr : UInt64 → List UInt8) (now : UInt64) (path : List UInt8) : FsM Printed := do
  let s ← Prog.get
  if !s.gMounted then return ⟨[], [], .notMounted⟩
  match ← listedDir now path with
  | .error err => return ⟨[], [], err⟩
  | .ok dirBlock =>
      if !(← malloc) then return ⟨ascii "total 0\n", [], .outofmem⟩
      let (lines, failed) ← lsLoop (lsLongStyle timeStr) (chainFuel + 1) dirBlock
      match failed with
      | some _ => return ⟨ascii "total 0\n" ++ lines.flatten, [], .io⟩
      | none => return ⟨ascii "total 0\n" ++ lines.flatten, [], .ok⟩

/-- The indices of a block that are not passed over: those of the entries that are not deleted, in
front of the first empty name. -/
def shownRow (row : Nat → DirEntry) : Nat → Nat → List Nat
  | 0, _ => []
  | count + 1, index =>
      if (row index).name0 = 0 then []
      else if (row index).name0 = 1 ∨ (row index).name0 = 2 then shownRow row count (index + 1)
      else index :: shownRow row count (index + 1)

namespace Fs

/-- The slots of the blocks that are not passed over. -/
def shownSlots (s : Fs) (nodes : List Nat) : List (Nat × Nat) :=
  nodes.flatMap fun b => (shownRow (direntAt (s.block b)) s.entriesPerBlock 0).map fun i => (b, i)

def targetOf (s : Fs) (style : LsStyle) (e : DirEntry) : List UInt8 :=
  if e.type ≠ DirEntry.typeSymlink then []
  else if s.blockOffset e.firstBlock.toNat + s.gBlockSize ≤ s.fileSize then
    ascii " -> " ++ cStringIn (s.block e.firstBlock.toNat) (s.gBlockSize - 1)
  else style.unreadable

def lineOf (s : Fs) (style : LsStyle) (e : DirEntry) : List UInt8 :=
  style.line e ++ s.targetOf style e ++ ascii "\n"

/-- The slots of the blocks that hold a live entry, in the order of the chain. -/
def liveSlots (s : Fs) (nodes : List Nat) : List (Nat × Nat) :=
  nodes.flatMap fun b =>
    ((List.range s.entriesPerBlock).filter fun i => (s.dirent (b, i)).live).map fun i => (b, i)

/-- What `k_ls` prints for the directory `d` on the blocks. -/
def lsText (s : Fs) (timeStr : UInt64 → List UInt8) (d : Nat) (nodes : List Nat) : List UInt8 :=
  lsHead d ++ ((s.liveSlots nodes).map fun p => s.lineOf (lsStyle timeStr) (s.dirent p)).flatten ++
    (if s.liveSlots nodes = [] then ascii "(Directory is empty)\n" else []) ++ lsRule

def lsLongText (s : Fs) (timeStr : UInt64 → List UInt8) (nodes : List Nat) : List UInt8 :=
  ascii "total 0\n" ++
    ((s.liveSlots nodes).map fun p => s.lineOf (lsLongStyle timeStr) (s.dirent p)).flatten

end Fs

variable {s : Fs} {row : Nat → DirEntry} {style : LsStyle} {fatBlocks current count index d : Nat}
  {nodes : List Nat}

section Rows

/-- A lookup in a block is a search among the entries that are shown. -/
theorem scanRow_shown (name : List UInt8) (count index : Nat) :
    scanRow row name count index =
      (shownRow row count index).find? fun i => decide ((row i).cName = name) := by
  induction count generalizing index with
  | zero => rfl
  | succ count ih =>
      rw [scanRow, shownRow]
      split
      · rfl
      split
      · exact ih (index + 1)
      · rw [List.find?_cons, ih (index + 1)]
        by_cases here : (row index).cName = name
        · rw [if_pos here, decide_eq_true here]
        · rw [if_neg here, decide_eq_false here]

theorem find_shown (s : Fs) (name : List UInt8) (nodes : List Nat) :
    s.view.find name nodes = (s.shownSlots nodes).find? fun p => decide ((s.dirent p).cName = name) := by
  induction nodes with
  | nil => rfl
  | cons b rest ih =>
      rw [Image.find, shownSlots, List.flatMap_cons, List.find?_append, List.find?_map, scanRow_shown]
      show (match (shownRow (direntAt (s.block b)) s.entriesPerBlock 0).find?
          (fun i => decide ((direntAt (s.block b) i).cName = name)) with
        | some i => some (b, i)
        | none => s.view.find name rest) =
        (((shownRow (direntAt (s.block b)) s.entriesPerBlock 0).find?
          (fun i => decide ((direntAt (s.block b) i).cName = name))).map (Prod.mk b)).or _
      cases (shownRow (direntAt (s.block b)) s.entriesPerBlock 0).find?
          (fun i => decide ((direntAt (s.block b) i).cName = name)) with
      | some i => rfl
      | none => exact ih

/-- Where nothing live is behind an empty name, everything live is shown. -/
theorem shownRow_dense (dense : ∀ i j, i < j → j < index + count → (row i).name0 = 0 → (row j).live = false) :
    shownRow row count index = (List.range' index count).filter fun i => (row i).live := by
  induction count generalizing index with
  | zero => rfl
  | succ count ih =>
      have later := @ih (index + 1) fun i j less inside => dense i j less (by omega)
      rw [shownRow, List.range'_succ, List.filter_cons, later]
      split
      · rename_i ends
        have dead : (row index).live = false := by simp [DirEntry.live, ends]
        have behind : (List.range' (index + 1) count).filter (fun i => (row i).live) = [] := by
          apply List.filter_eq_nil_iff.mpr
          intro j member
          have bounds := List.mem_range'_1.mp member
          rw [dense index j (by omega) (by omega) ends]
          exact Bool.false_ne_true
        rw [dead, behind]
        rfl
      · rename_i ends
        split
        · rename_i gone
          have dead : (row index).live = false := by
            simp only [DirEntry.live, Bool.and_eq_false_iff, bne_eq_false_iff_eq]
            tauto
          rw [dead]
          rfl
        · rename_i kept
          have alive : (row index).live = true := by
            rw [DirEntry.live_iff]
            tauto
          rw [alive]
          rfl

end Rows

section Loops

variable (mounted : s.Mounted fatBlocks)

include mounted

theorem readBlock_mounted (b : Nat) :
    readBlock b s =
      some (if s.blockOffset b + s.gBlockSize ≤ s.fileSize then some (s.block b) else none, s) := by
  by_cases stored : s.blockOffset b + s.gBlockSize ≤ s.fileSize
  · rw [if_pos stored]
    exact readBlock_stored mounted stored
  · simp only [readBlock, Prog.get_bind, mounted.gFsFd_ne, ↓reduceIte]
    rw [Prog.bind_of_run (hostOk_run mounted.host)]
    simp only [Bool.not_true, Bool.false_eq_true, ↓reduceIte]
    rw [Prog.bind_of_run (hostOk_run mounted.host)]
    simp only [Bool.not_true, Bool.false_eq_true, ↓reduceIte, stored, and_false, Prog.pure_run]

theorem lsTarget_run (style : LsStyle) (e : DirEntry) :
    lsTarget style e s = some (s.targetOf style e, s) := by
  rw [lsTarget, targetOf]
  split
  · rfl
  · rw [Prog.bind_of_run (readBlock_mounted mounted _)]
    split
    · rfl
    · rfl

/-- The lines of a block are those of the entries shown in it. -/
theorem lsBlock_run (style : LsStyle) (b count index : Nat) :
    lsBlock style (s.block b) count index s =
      some ((shownRow (direntAt (s.block b)) count index).map fun i =>
        s.lineOf style (s.dirent (b, i)), s) := by
  induction count generalizing index with
  | zero => rfl
  | succ count ih =>
      simp only [lsBlock, shownRow]
      split
      · rfl
      split
      · exact ih (index + 1)
      · rw [Prog.bind_of_run (lsTarget_run mounted style _), Prog.bind_of_run (ih (index + 1))]
        rfl

/-- The loop prints the entries shown in the blocks of the chain, in order. -/
theorem lsLoop_linked (style : LsStyle) (linked : s.Linked current nodes) {fuel : Nat}
    (enough : nodes.length < fuel) :
    lsLoop style fuel current s =
      some (((s.shownSlots nodes).map fun p => s.lineOf style (s.dirent p), none), s) := by
  induction nodes generalizing current fuel with
  | nil =>
      obtain rfl := linkOf_eq_none.mp linked.links
      cases fuel with
      | zero => omega
      | succ fuel => simp [lsLoop, shownSlots]
  | cons node rest ih =>
      obtain rfl := linkOf_eq_some linked.links.1
      have used : ¬ (current = fatEoc ∨ current = fatFree) :=
        fun either => linked.first_used (by simp) either.symm
      cases fuel with
      | zero => omega
      | succ fuel =>
          have later : lsLoop style fuel (s.fat current) s =
              some (((s.shownSlots rest).map fun p => s.lineOf style (s.dirent p), none), s) :=
            ih linked.tail (by simpa using enough)
          simp only [lsLoop, used, ↓reduceIte]
          rw [Prog.bind_of_run (readBlock_stored mounted (linked.stored current List.mem_cons_self))]
          simp only [Prog.get_bind]
          rw [Prog.bind_of_run (lsBlock_run mounted style current _ 0),
            Prog.bind_of_run (fatGet_mapped (linked.mapped current List.mem_cons_self)),
            Prog.bind_of_run later]
          simp only [shownSlots, List.flatMap_cons, List.map_append, List.map_map]
          rfl

end Loops

section Runs

variable {promised : Promises} {I : Image}

/-- The entries shown of a directory are its live ones. -/
theorem Resting.shownSlots_eq (resting : Resting promised s I) (dense : I.Dense) (here : I.dirs d) :
    s.shownSlots (I.chain d) = s.liveSlots (I.chain d) := by
  have shows := resting.tracks.shows
  have wf := resting.good.wf
  rw [shownSlots, liveSlots]
  apply List.flatMap_congr
  intro b member
  have row : ∀ i, i < s.entriesPerBlock → direntAt (s.block b) i = I.slot b i := fun i inside =>
    shows.dirent wf (p := (b, i)) member (shows.slots ▸ inside)
  rw [shownRow_dense, List.range_eq_range']
  · rfl
  · intro i j less inside ends
    rw [row i (by omega)] at ends
    rw [row j (by omega)]
    exact dense d here b member i j less (shows.slots ▸ (by omega)) ends

theorem mem_liveSlots {p : Nat × Nat} :
    p ∈ s.liveSlots nodes ↔ p.1 ∈ nodes ∧ p.2 < s.entriesPerBlock ∧ (s.dirent p).live = true := by
  obtain ⟨b, i⟩ := p
  simp [liveSlots]

theorem liveSlots_nodup (unique : nodes.Nodup) : (s.liveSlots nodes).Nodup := by
  apply List.nodup_flatMap.mpr
  constructor
  · intro b _
    exact (List.nodup_range.filter _).map fun i j same => (Prod.mk.inj same).2
  · refine unique.imp ?_
    intro b c other p first second
    obtain ⟨i, _, rfl⟩ := List.mem_map.mp first
    obtain ⟨j, _, same⟩ := List.mem_map.mp second
    exact other (Prod.mk.inj same).1.symm

/-- The directory that is listed, or the error that both calls return. -/
theorem listedDir_run (resting : Resting promised s I) (now : UInt64) (path : List UInt8) :
    Prog.Ensures (listedDir now path) s fun result t =>
      t = s ∧ (∀ err, result = .error err → err ≠ .ok) ∧ ∀ d, result = .ok d → I.dirs d := by
  have wf := resting.good.wf
  have fails : ∀ err : PennFatErr, err ≠ .ok → s = s ∧
      (∀ e, (Except.error err : Except PennFatErr Nat) = .error e → e ≠ .ok) ∧
        ∀ d, (Except.error err : Except PennFatErr Nat) = .ok d → I.dirs d := by
    intro err bad
    refine ⟨rfl, ?_, ?_⟩
    · intro e same
      cases same
      exact bad
    · intro d same
      cases same
  have lists : ∀ d, I.dirs d → s = s ∧
      (∀ e, (Except.ok d : Except PennFatErr Nat) = .error e → e ≠ .ok) ∧
        ∀ x, (Except.ok d : Except PennFatErr Nat) = .ok x → I.dirs x := by
    intro d here
    refine ⟨rfl, ?_, ?_⟩
    · intro e same
      cases same
    · intro x same
      cases same
      exact here
  unfold listedDir
  obtain ⟨err, r, run, resolved⟩ := resolvePath_run resting.tracks wf resting.cwd now (lsPath path)
  refine .step run (.ite (fun bad => .pure (fails err bad)) fun _ => ?_)
  refine .ite (fun _ => .pure (fails .exist (by decide))) fun found => ?_
  refine .ite (fun _ => .pure (lists 1 wf.root)) fun top => ?_
  refine .ite (fun isDir => .pure (lists _ ?_)) fun _ => .pure (fails .notdir (by decide))
  cases resolved with
  | slash => exact absurd rfl top
  | missing err d here kind => exact absurd rfl found
  | nothing err => exact absurd rfl found
  | dir name d parent mtime here above at_ =>
      have bounds := resting.tracks.blocks_bounds
      obtain ⟨_, high⟩ := wf.dir_inside here
      have first : (resolvedDir name d parent mtime).entry.firstBlock.toNat = d := by
        show (UInt16.ofNat d).toNat = d
        rw [UInt16.toNat_ofNat', Nat.mod_eq_of_lt (by omega)]
      rw [first]
      exact here
  | entry d p place live named before => exact (wf.target d p _ ⟨place, live, named, rfl⟩).2.mp isDir

theorem Resting.linked (resting : Resting promised s I) (here : I.dirs d) :
    s.Linked d (I.chain d) ∧ (I.chain d).length ≤ chainFuel := by
  have wf := resting.good.wf
  have tracks := resting.tracks
  have chain := tracks.chain wf (wf.dirHead d here)
  have short := chain.length_le
  have entries := tracks.ready.fatEntries_bounds
  have inside : ∀ b ∈ I.chain d, 1 ≤ b ∧ b < I.blocks :=
    fun b member => ⟨(wf.inside d b member).1, (wf.inside d b member).2.1⟩
  refine ⟨tracks.linked (chain.linkOf_links tracks.ready) inside, ?_⟩
  simp only [chainFuel]
  omega

/-- Both calls print the live entries of a directory. -/
theorem kLs_listed (resting : Resting promised s I) (dense : I.Dense) (here : I.dirs d)
    (timeStr : UInt64 → List UInt8) {now : UInt64} {path : List UInt8}
    (listed : listedDir now path s = some (.ok d, s)) :
    kLs timeStr now path s = some (⟨s.lsText timeStr d (I.chain d), [], .ok⟩, s) ∧
      kLsLong timeStr now path s = some (⟨s.lsLongText timeStr (I.chain d), [], .ok⟩, s) := by
  have mounted := resting.tracks.ready.toMounted
  have flag : s.gMounted = true := mounted.flag
  obtain ⟨linked, short⟩ := resting.linked here
  have enough : (I.chain d).length < chainFuel + 1 := Nat.lt_succ_of_le short
  have shown := resting.shownSlots_eq dense here
  constructor
  · simp only [kLs, Prog.get_bind, flag, Bool.not_true, Bool.false_eq_true, ↓reduceIte]
    rw [Prog.bind_of_run listed]
    simp only
    rw [Prog.bind_of_run (malloc_run mounted.host)]
    simp only [Bool.not_true, Bool.false_eq_true, ↓reduceIte]
    rw [Prog.bind_of_run (lsLoop_linked mounted _ linked enough), shown]
    simp only [lsText, List.map_eq_nil_iff]
    rfl
  · simp only [kLsLong, Prog.get_bind, flag, Bool.not_true, Bool.false_eq_true, ↓reduceIte]
    rw [Prog.bind_of_run listed]
    simp only
    rw [Prog.bind_of_run (malloc_run mounted.host)]
    simp only [Bool.not_true, Bool.false_eq_true, ↓reduceIte]
    rw [Prog.bind_of_run (lsLoop_linked mounted _ linked enough), shown]
    rfl

theorem kLs_failed {timeStr : UInt64 → List UInt8} {now : UInt64} {path : List UInt8} {err : PennFatErr}
    (flag : s.gMounted = true) (failed : listedDir now path s = some (.error err, s)) :
    kLs timeStr now path s = some (⟨[], [], err⟩, s) ∧
      kLsLong timeStr now path s = some (⟨[], [], err⟩, s) := by
  constructor
  · simp only [kLs, Prog.get_bind, flag, Bool.not_true, Bool.false_eq_true, ↓reduceIte]
    rw [Prog.bind_of_run failed]
    rfl
  · simp only [kLsLong, Prog.get_bind, flag, Bool.not_true, Bool.false_eq_true, ↓reduceIte]
    rw [Prog.bind_of_run failed]
    rfl

/-- The names of the slots shown differ. -/
theorem Resting.names_nodup (resting : Resting promised s I) (distinct : I.Distinct) (here : I.dirs d) :
    ((s.liveSlots (I.chain d)).map fun p => (s.dirent p).cName).Nodup := by
  have wf := resting.good.wf
  have shows := resting.tracks.shows
  have unique := liveSlots_nodup (s := s) (wf.chains.links d).nodup
  refine unique.map_on ?_
  intro p first q second same
  obtain ⟨block, index, live⟩ := mem_liveSlots.mp first
  obtain ⟨block', index', live'⟩ := mem_liveSlots.mp second
  have row := shows.dirent wf block (shows.slots ▸ index)
  have row' := shows.dirent wf block' (shows.slots ▸ index')
  rw [row] at live same
  rw [row'] at live' same
  exact distinct.names d p q ⟨here, block, shows.slots ▸ index⟩ ⟨here, block', shows.slots ▸ index'⟩
    live live' same

/-- A lookup finds the slot shown under the name. -/
theorem Resting.lookup_shown (resting : Resting promised s I) (dense : I.Dense) (here : I.dirs d)
    (name : List UInt8) : findEntryInDir d name s =
      some (.ok (match (s.liveSlots (I.chain d)).find? fun p => decide ((s.dirent p).cName = name) with
        | none => { ResolvedPath.zero with parentDirBlock := d }
        | some p => s.view.foundAt d p), s) := by
  obtain ⟨linked, short⟩ := resting.linked here
  have found := findEntryInDir_linked resting.tracks.ready.toMounted linked
    (resting.good.wf.dirHead d here) short name
  rw [find_shown, resting.shownSlots_eq dense here] at found
  refine found.trans ?_
  cases (s.liveSlots (I.chain d)).find? fun p => decide ((s.dirent p).cName = name) with
  | none => rfl
  | some p => rfl

/-- In runs of guarded calls `k_ls` and `k_ls_long` change nothing. They return the same error and
print nothing, or they print a line for each live entry of the directory, in the order of its chain:
no name is printed twice, and a lookup finds the entry printed under a name, if there is one. -/
theorem listings_match_lookups (hostFiles : List UInt8 → Option HostFile) (fsName : List UInt8) (config : Int)
    (s : Fs) (host : HostSound .keepNames hostFiles fsName) (low : 0 ≤ config) (high : config ≤ 4)
    (run : Run (Guarded .keepNames) (freshVolume hostFiles fsName config) s)
    (mounted : s.gMounted = true) (timeStr : UInt64 → List UInt8) (now : UInt64) (path : List UInt8) :
    (∃ err, err ≠ .ok ∧ kLs timeStr now path s = some (⟨[], [], err⟩, s) ∧
      kLsLong timeStr now path s = some (⟨[], [], err⟩, s)) ∨
    ∃ d nodes, s.Chain d nodes ∧ listedDir now path s = some (.ok d, s) ∧
      kLs timeStr now path s = some (⟨s.lsText timeStr d nodes, [], .ok⟩, s) ∧
      kLsLong timeStr now path s = some (⟨s.lsLongText timeStr nodes, [], .ok⟩, s) ∧
      ((s.liveSlots nodes).map fun p => (s.dirent p).cName).Nodup ∧
      ∀ name, findEntryInDir d name s =
        some (.ok (match (s.liveSlots nodes).find? fun p => decide ((s.dirent p).cName = name) with
          | none => { ResolvedPath.zero with parentDirBlock := d }
          | some p => s.view.foundAt d p), s) := by
  obtain ⟨standing, _⟩ := guarded_run host low high run
  cases standing with
  | stored stored => exact absurd mounted (by rw [stored.unmounted]; decide)
  | @mounted I resting =>
      have distinct : I.Distinct := resting.good.distinct trivial
      obtain ⟨result, t, listed, rfl, fails, lists⟩ := listedDir_run resting now path
      cases result with
      | error err => exact .inl ⟨err, fails err rfl, kLs_failed mounted listed⟩
      | ok d =>
          right
          have here := lists d rfl
          have chain := resting.tracks.chain resting.good.wf (resting.good.wf.dirHead d here)
          obtain ⟨short, long⟩ := kLs_listed resting distinct.dense here timeStr listed
          exact ⟨d, I.chain d, chain, listed, short, long, resting.names_nodup distinct here,
            resting.lookup_shown distinct.dense here⟩

theorem listings_match_lookups_housekeeping :
    ∃ nodes, ((runCalls housekeeping).after blankVolume).Chain 1 nodes ∧
    (kLs (fun _ => []) 3 [] ((runCalls housekeeping).after blankVolume)).map (·.1.stdout) =
      some (((runCalls housekeeping).after blankVolume).lsText (fun _ => []) 1 nodes) := by
  obtain ⟨t, isT⟩ : ∃ t, t = (runCalls housekeeping).after blankVolume := ⟨_, rfl⟩
  have mounted : t.gMounted = true := isT ▸ (by decide +kernel)
  have root : (listedDir 3 [] t).map (fun r => decide (r.1.toOption = some 1)) = some true :=
    isT ▸ (by decide +kernel)
  rw [← isT]
  have listed := listings_match_lookups _ imageA.bytes 0 t (.empty (by decide)) (by decide) (by decide)
    (isT ▸ housekeeping_run .keepNames) mounted (fun _ => []) 3 []
  rcases listed with ⟨err, bad, short, _⟩ | ⟨d, nodes, chain, dir, short, _⟩
  · have code : (kLs (fun _ => []) 3 [] t).map (·.1.code) = some .ok := isT ▸ (by decide +kernel)
    rw [short] at code
    exact absurd (Option.some.inj code) bad
  · rw [dir] at root
    obtain rfl : d = 1 := by simpa [Except.toOption] using root
    exact ⟨nodes, chain, by rw [short]; rfl⟩

end Runs

end PennOs.Fat
