import PennOs.Fat.CreateRuns

set_option autoImplicit false

/- A path that leads to a file leads to it again after the file's blocks, size and time changed. -/
namespace PennOs.Fat

open Prog (Hoare)
open Fs

/-- Only the entry in the slot `p` and the chain of its file are not the same in `J` as in `I`; the
name of the entry and its type are. -/
structure Steady (s : Fs) (I : Image) (u : Fs) (J : Image) (p : Nat × Nat) : Prop where
  before : Tracks s I
  wf : I.Wf
  after : Tracks u J
  wf' : J.Wf
  slots : J.slots = I.slots
  cwd : u.gCwdBlock = s.gCwdBlock
  dirs : ∀ d, I.dirs d → J.dirs d
  chain : ∀ d, I.dirs d → J.chain d = I.chain d
  others : ∀ d q, I.At d q → q ≠ p → J.slot q.1 q.2 = I.slot q.1 q.2
  rows : ∀ d q c, I.Holds d q c → ¬ I.dirs c → q ≠ p → ∀ i < I.slots, J.slot c i = I.slot c i
  name : (J.slot p.1 p.2).cName = (I.slot p.1 p.2).cName
  type : (J.slot p.1 p.2).type = (I.slot p.1 p.2).type
  file : (I.slot p.1 p.2).type ≠ DirEntry.typeDirectory ∧ (I.slot p.1 p.2).type ≠ DirEntry.typeSymlink

/-- What the program finds in the slot `p` before, the other one finds there afterwards. -/
def Leads (s : Fs) (I : Image) (u : Fs) (J : Image) (d : Nat) (p : Nat × Nat)
    (prog prog' : FsM (PennFatErr × ResolvedPath)) : Prop :=
  prog s = some ((.ok, I.foundAt d p), s) → prog' u = some ((.ok, J.foundAt d p), u)

/-- What the program finds is no symbolic link. -/
def FindsNoLink (prog : FsM (PennFatErr × ResolvedPath)) : Prop :=
  Hoare (fun _ => True) prog fun res _ => res.2.found = true → res.2.entry.type ≠ DirEntry.typeSymlink

variable {s u : Fs} {I J : Image} {p q : Nat × Nat} {c d : Nat} {now now' : UInt64}
  {follow : Bool} {name : List UInt8} {nodes : List Nat}
  {recurse recurse' : List UInt8 → FsM (PennFatErr × ResolvedPath)}

section Links

theorem findsNoLink_missing (err : PennFatErr) (d : Nat) : FindsNoLink (pure (err, unresolvedIn d)) :=
  .pure fun _ _ found => by cases found

theorem findsNoLink_nothing (err : PennFatErr) : FindsNoLink (pure (err, .zero)) :=
  .pure fun _ _ found => by cases found

theorem findsNoLink_dir (name : List UInt8) (d parent : Nat) (mtime : UInt64) :
    FindsNoLink (pure (.ok, resolvedDir name d parent mtime)) := by
  have kind : DirEntry.typeDirectory ≠ DirEntry.typeSymlink := by decide
  exact .pure fun _ _ _ => kind

theorem findsNoLink_after {α : Type} {first : FsM α} {rest : α → FsM (PennFatErr × ResolvedPath)}
    (finds : ∀ a, FindsNoLink (rest a)) : FindsNoLink (first >>= rest) :=
  Hoare.bind (fun _ _ _ _ _ => trivial) finds

theorem walk_findsNoLink (targets : ∀ target, FindsNoLink (recurse target)) (components : List (List UInt8))
    (current parent : Nat) : FindsNoLink (walk now true recurse components current parent) := by
  induction components generalizing current parent with
  | nil => exact findsNoLink_dir _ _ _ _
  | cons component rest ih =>
      unfold walk
      refine .ite (fun _ => ih current parent) fun _ => .ite (fun _ => ?_) fun _ => ?_
      · refine .ite (fun _ => ih current parent) fun _ => findsNoLink_after fun up => ?_
        cases up with
        | error err => exact findsNoLink_nothing err
        | ok up => exact .ite (fun _ => findsNoLink_nothing _) fun _ => ih _ current
      · refine findsNoLink_after fun hit => ?_
        cases hit with
        | error err => exact findsNoLink_nothing err
        | ok hit =>
            refine .ite (fun _ => findsNoLink_missing _ _) fun _ => ?_
            cases rest with
            | nil =>
                refine .ite (fun _ => findsNoLink_after fun target => ?_) fun plain =>
                  .pure fun _ _ _ isLink => plain ⟨rfl, isLink⟩
                cases target with
                | error err => exact findsNoLink_nothing err
                | ok target => exact targets target
            | cons next rest => exact .ite (fun _ => findsNoLink_missing _ _) fun _ => ih _ current

/-- A path does not end at a symbolic link. -/
theorem resolvePath_findsNoLink (path : List UInt8) : FindsNoLink (resolvePath now path) := by
  have internal : ∀ levels path, FindsNoLink (resolvePathInternal now true levels path) := by
    intro levels
    induction levels with
    | zero => exact fun _ => findsNoLink_nothing _
    | succ levels ih =>
        intro path
        unfold resolvePathInternal
        refine findsNoLink_after fun s => ?_
        cases path with
        | nil => exact .ite (fun _ => findsNoLink_dir _ _ _ _) fun _ => findsNoLink_dir _ _ _ _
        | cons c rest =>
            refine .ite (fun _ => ?_) fun _ => walk_findsNoLink ih _ _ _
            exact .ite (fun _ => findsNoLink_dir _ _ _ _) fun _ => walk_findsNoLink ih _ _ _
  have kind : ResolvedPath.zero.entry.type ≠ DirEntry.typeSymlink := by decide
  unfold resolvePath
  exact .ite (fun _ => .pure fun _ _ _ => kind) fun _ => internal symlinkLevels path

end Links

section Names

theorem scanRow_names {row row' : Nat → DirEntry} {count index : Nat}
    (same : ∀ i, index ≤ i → i < index + count → (row' i).cName = (row i).cName) :
    scanRow row' name count index = scanRow row name count index := by
  induction count generalizing index with
  | zero => rfl
  | succ count ih =>
      have here := same index (Nat.le_refl _) (by omega)
      have first := DirEntry.name0_congr here
      have later : scanRow row' name count (index + 1) = scanRow row name count (index + 1) :=
        ih fun i low high => same i (by omega) (by omega)
      simp only [scanRow, here, first, later]

/-- A search compares the names only. -/
theorem find_names (slots : J.slots = I.slots)
    (same : ∀ b ∈ nodes, ∀ i < I.slots, (J.slot b i).cName = (I.slot b i).cName) :
    J.find name nodes = I.find name nodes := by
  induction nodes with
  | nil => rfl
  | cons b rest ih =>
      have later := ih fun x member => same x (List.mem_cons_of_mem _ member)
      have here : scanRow (J.slot b) name I.slots 0 = scanRow (I.slot b) name I.slots 0 :=
        scanRow_names fun i _ inside => same b List.mem_cons_self i (by omega)
      simp only [Image.find, slots, here, later]

end Names

theorem Image.foundAt_inj {x : Nat} (same : I.foundAt x q = I.foundAt d p) : x = d ∧ q = p := by
  have parent : x = d := congrArg (fun r => r.parentDirBlock) same
  have block : q.1 = p.1 := congrArg (fun r => r.entryBlock) same
  have index : (q.2 : Int) = p.2 := congrArg (fun r => r.entryIndexInBlock) same
  exact ⟨parent, Prod.ext block (by omega)⟩

/-- Blocks with as many slots have the same size. -/
theorem Tracks.sameSize (before : Tracks s I) (after : Tracks u J) (slots : J.slots = I.slots) :
    u.gBlockSize = s.gBlockSize := by
  have perBlock : u.entriesPerBlock = s.entriesPerBlock := by
    rw [← before.shows.slots, ← after.shows.slots, slots]
  have bounds := before.ready.blockSize_bounds
  have bounds' := after.ready.blockSize_bounds
  simp only [entriesPerBlock] at perBlock
  omega

namespace Steady

variable (steady : Steady s I u J p)

include steady

theorem find (here : I.dirs d) (name : List UInt8) : J.find name (J.chain d) = I.find name (I.chain d) := by
  rw [steady.chain d here]
  refine find_names steady.slots fun b member i inside => ?_
  by_cases same : (b, i) = p
  · have row := steady.name
    rw [← same] at row
    exact row
  · have row := steady.others d (b, i) ⟨here, member, inside⟩ same
    rw [row]

theorem sizes : u.gBlockSize = s.gBlockSize ∧ J.blocks = I.blocks := by
  have size := steady.before.sameSize steady.after steady.slots
  refine ⟨size, ?_⟩
  rw [steady.before.shows.blocks, steady.after.shows.blocks, fatEntries, fatEntries, size]

/-- What a symbolic link holds stays. -/
theorem target (held : I.Holds d q c) (type : (I.slot q.1 q.2).type = DirEntry.typeSymlink) :
    ∃ result, readSymlinkTarget (I.slot q.1 q.2) s = some (result, s) ∧
      readSymlinkTarget (I.slot q.1 q.2) u = some (result, u) := by
  have file : ¬ I.dirs c := by
    intro here
    rw [(steady.wf.target d q c held).2.mpr here] at type
    exact absurd type (by decide)
  have apart : q ≠ p := by
    intro same
    rw [same] at type
    exact steady.file.2 type
  have member := steady.wf.head_mem (steady.wf.target d q c held).1
  obtain ⟨low, high, _⟩ := steady.wf.inside c c member
  obtain ⟨size, blocks⟩ := steady.sizes
  have bounds := steady.before.ready.blockSize_bounds
  have same : u.block c = s.block c := by
    refine block_eq_of_rows size (by omega) fun i inside => ?_
    have inside' : i < I.slots := steady.before.shows.slots.symm ▸ inside
    rw [steady.before.shows.slot c low high i inside',
      steady.after.shows.slot c low (blocks.symm ▸ high) i (steady.slots.symm ▸ inside'),
      steady.rows d q c held file apart i inside']
  have first : (I.slot q.1 q.2).firstBlock.toNat = c := held.first
  have read := readBlock_run steady.before.ready (steady.before.inside high)
  have read' := readBlock_run steady.after.ready (steady.after.inside (blocks.symm ▸ high))
  simp only [readSymlinkTarget, type, ne_eq, not_true_eq_false, ↓reduceIte, first]
  rw [Prog.bind_of_run (malloc_run steady.before.ready.host),
    Prog.bind_of_run (malloc_run steady.after.ready.host)]
  simp only [Bool.not_true, Bool.false_eq_true, ↓reduceIte]
  rw [Prog.bind_of_run read, Prog.bind_of_run read', same]
  exact ⟨_, rfl, rfl⟩

theorem not_dir {name : List UInt8} {x parent : Nat} {mtime : UInt64}
    (run : (pure (.ok, resolvedDir name x parent mtime) : FsM (PennFatErr × ResolvedPath)) s =
      some ((.ok, I.foundAt d p), s)) : False := by
  have same : resolvedDir name x parent mtime = I.foundAt d p :=
    (Prod.mk.inj (Prod.mk.inj (Option.some.inj run)).1).2
  exact steady.file.1 (congrArg (fun r => r.entry.type) same).symm

omit steady in
theorem not_missing {err : PennFatErr} {r : ResolvedPath} (missing : r.found = false)
    (run : (pure (err, r) : FsM (PennFatErr × ResolvedPath)) s = some ((.ok, I.foundAt d p), s)) : False := by
  have same : r = I.foundAt d p := (Prod.mk.inj (Prod.mk.inj (Option.some.inj run)).1).2
  rw [same] at missing
  cases missing

theorem walk_leads (targets : ∀ target, Leads s I u J d p (recurse target) (recurse' target))
    (components : List (List UInt8))
    {current parent : Nat} (here : I.dirs current) :
    Leads s I u J d p (walk now follow recurse components current parent)
      (walk now' follow recurse' components current parent) := by
  induction components generalizing current parent with
  | nil => exact fun run => (steady.not_dir run).elim
  | cons component rest ih =>
      intro run
      rw [walk] at run ⊢
      by_cases isDot : component = dot
      · rw [if_pos isDot] at run ⊢
        exact ih here run
      rw [if_neg isDot] at run ⊢
      by_cases isUp : component = dotDot
      · rw [if_pos isUp] at run ⊢
        by_cases top : current = 1
        · rw [if_pos top] at run ⊢
          exact ih here run
        rw [if_neg top] at run ⊢
        obtain ⟨up, found, isFound, entry⟩ := findDotDot_run steady.before steady.wf here top
        obtain ⟨up', found', isFound', entry'⟩ :=
          findDotDot_run steady.after steady.wf' (steady.dirs current here) top
        have slots := steady.wf.slotsMin
        have place : I.At current (current, 1) := ⟨here, steady.wf.dir_mem here, by omega⟩
        have apart : (current, 1) ≠ p := by
          intro same
          have up := (steady.wf.dots current here top).upType
          rw [← same] at steady
          exact steady.file.1 up
        have row := steady.others current (current, 1) place apart
        rw [Prog.bind_of_run found] at run
        rw [Prog.bind_of_run found']
        simp only [isFound, isFound', Bool.not_true, Bool.false_eq_true, ↓reduceIte, entry, entry'] at run ⊢
        simp only at row
        rw [row]
        exact ih (steady.wf.dir_parent here top) run
      rw [if_neg isUp] at run ⊢
      rw [Prog.bind_of_run (findEntryInDir_eq steady.before steady.wf here component)] at run
      rw [Prog.bind_of_run (findEntryInDir_eq steady.after steady.wf' (steady.dirs current here) component),
        steady.find here component]
      cases found : I.find component (I.chain current) with
      | none =>
          rw [found] at run
          exact (not_missing rfl run).elim
      | some q =>
          rw [found] at run
          obtain ⟨member, inside, live, named, _⟩ := find_some found
          have place : I.At current q := ⟨here, member, inside⟩
          have link : I.Holds current q (I.slot q.1 q.2).firstBlock.toNat :=
            ⟨place, live, not_dotSlot_of_name steady.wf here named isDot isUp, rfl⟩
          have row : q ≠ p → J.foundAt current q = I.foundAt current q := by
            intro apart
            simp only [Image.foundAt, steady.others current q place apart]
          have type : (J.foundAt current q).entry.type = (I.foundAt current q).entry.type := by
            by_cases same : q = p
            · rw [same]
              exact steady.type
            · rw [row same]
          simp only at run ⊢
          rw [if_neg (show ¬ (!(I.foundAt current q).found) = true from Bool.false_ne_true)] at run
          rw [if_neg (show ¬ (!(J.foundAt current q).found) = true from Bool.false_ne_true)]
          cases rest with
          | nil =>
              simp only [type] at run ⊢
              by_cases follows : follow = true ∧ (I.foundAt current q).entry.type = DirEntry.typeSymlink
              · rw [if_pos follows] at run ⊢
                have apart : q ≠ p := by
                  intro same
                  rw [same] at follows
                  exact steady.file.2 follows.2
                obtain ⟨result, read, read'⟩ := steady.target link follows.2
                have read₀ : readSymlinkTarget (I.foundAt current q).entry s = some (result, s) := read
                have read₁ : readSymlinkTarget (I.foundAt current q).entry u = some (result, u) := read'
                rw [Prog.bind_of_run read₀] at run
                rw [row apart, Prog.bind_of_run read₁]
                cases result with
                | error err => exact (not_missing rfl run).elim
                | ok target => exact targets target run
              · rw [if_neg follows] at run ⊢
                have same : I.foundAt current q = I.foundAt d p :=
                  (Prod.mk.inj (Prod.mk.inj (Option.some.inj run)).1).2
                obtain ⟨rfl, rfl⟩ := Image.foundAt_inj same
                rfl
          | cons next rest =>
              simp only [type] at run ⊢
              by_cases isDir : (I.foundAt current q).entry.type = DirEntry.typeDirectory
              · rw [if_neg (not_not.mpr isDir)] at run ⊢
                have apart : q ≠ p := by
                  intro same
                  rw [same] at isDir
                  exact steady.file.1 isDir
                rw [row apart]
                exact ih ((steady.wf.target current q _ link).2.mp isDir) run
              · rw [if_pos isDir] at run
                exact (not_missing rfl run).elim

theorem resolvePathInternal_leads (here : I.dirs s.gCwdBlock) (levels : Nat) (path : List UInt8) :
    Leads s I u J d p (resolvePathInternal now follow levels path)
      (resolvePathInternal now' follow levels path) := by
  induction levels generalizing path with
  | zero => exact fun run => (not_missing rfl run).elim
  | succ levels ih =>
      intro run
      rw [resolvePathInternal, Prog.get_bind] at run ⊢
      cases path with
      | nil =>
          simp only at run
          split at run
          · exact (steady.not_dir run).elim
          · exact (steady.not_dir run).elim
      | cons first rest =>
          simp only [steady.cwd] at run ⊢
          by_cases absolute : first = slash
          · rw [if_pos absolute] at run ⊢
            by_cases top : rest = []
            · rw [if_pos top] at run
              exact (steady.not_dir run).elim
            · rw [if_neg top] at run ⊢
              exact steady.walk_leads ih _ steady.wf.root run
          · rw [if_neg absolute] at run ⊢
            exact steady.walk_leads ih _ here run

/-- The path leads to the slot as before, whatever the time is. -/
theorem resolvePath_leads (here : I.dirs s.gCwdBlock) (path : List UInt8) :
    Leads s I u J d p (resolvePath now path) (resolvePath now' path) := by
  intro run
  rw [resolvePath] at run ⊢
  by_cases top : path = [slash]
  · rw [if_pos top] at run
    have root := congrArg (fun r => r.isRoot) (Prod.mk.inj (Prod.mk.inj (Option.some.inj run)).1).2
    cases root
  · rw [if_neg top] at run ⊢
    exact steady.resolvePathInternal_leads here _ path run

omit steady in
theorem refl (before : Tracks s I) (wf : I.Wf) (link : I.Holds d p c) (file : ¬ I.dirs c)
    (plain : (I.slot p.1 p.2).type ≠ DirEntry.typeSymlink) : Steady s I s I p where
  before := before
  wf := wf
  after := before
  wf' := wf
  slots := rfl
  cwd := rfl
  dirs _ here := here
  chain _ _ := rfl
  others _ _ _ _ := rfl
  rows _ _ _ _ _ _ _ _ := rfl
  name := rfl
  type := rfl
  file := ⟨fun isDir => file ((wf.target d p c link).2.mp isDir), plain⟩

end Steady

end PennOs.Fat
