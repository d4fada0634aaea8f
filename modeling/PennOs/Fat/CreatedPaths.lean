import PennOs.Fat.CreateRuns

set_option autoImplicit false

/- A path that was missing is resolved again after a regular file was created: it leads to the
new entry or is missing again. -/
namespace PennOs.Fat

open Fs

/-- The regular file in the slot `p` is the only entry `J` has and `I` has not. -/
structure Gains (s : Fs) (I : Image) (u : Fs) (J : Image) (p : Nat × Nat) : Prop where
  before : Tracks s I
  wf : I.Wf
  after : Tracks u J
  wf' : J.Wf
  slots : J.slots = I.slots
  cwd : u.gCwdBlock = s.gCwdBlock
  dirs : ∀ d, I.dirs d → J.dirs d
  others : ∀ d q, I.At d q → q ≠ p → J.slot q.1 q.2 = I.slot q.1 q.2
  unused : ∀ d c, ¬ I.Holds d p c
  rows : ∀ h, ¬ I.dirs h → ∀ b ∈ I.chain h, J.slot b = I.slot b
  finds : ∀ d, I.dirs d → ∀ name, J.find name (J.chain d) = I.find name (I.chain d) ∨
    J.find name (J.chain d) = some p
  regular : (J.slot p.1 p.2).type = DirEntry.typeRegular

/-- What the program finds missing before the file is created is the new entry, or missing,
afterwards. -/
def Sees (s u : Fs) (J : Image) (p : Nat × Nat) (prog : FsM (PennFatErr × ResolvedPath)) : Prop :=
  ∀ err r, prog s = some ((err, r), s) → r.found = false →
    ∃ err' r', prog u = some ((err', r'), u) ∧ (r'.found = true → ∃ d, r' = J.foundAt d p)

variable {s u : Fs} {I J : Image} {p q : Nat × Nat} {d c : Nat} {now : UInt64} {follow : Bool}
  {recurse : List UInt8 → FsM (PennFatErr × ResolvedPath)}

namespace Gains

variable (gains : Gains s I u J p)

include gains

/-- The contents of a symbolic link stay. -/
theorem symlink (held : I.Holds d q c) (type : (I.slot q.1 q.2).type = DirEntry.typeSymlink) :
    ∃ result, readSymlinkTarget (I.slot q.1 q.2) s = some (result, s) ∧
      readSymlinkTarget (I.slot q.1 q.2) u = some (result, u) := by
  have kind := (gains.wf.target d q c held).2
  have file : ¬ I.dirs c := by
    intro here
    rw [kind.mpr here] at type
    exact absurd type (by decide)
  have member := gains.wf.head_mem (gains.wf.target d q c held).1
  obtain ⟨low, high, _⟩ := gains.wf.inside c c member
  have perBlock : u.entriesPerBlock = s.entriesPerBlock := by
    rw [← gains.before.shows.slots, ← gains.after.shows.slots, gains.slots]
  have bounds := gains.before.ready.blockSize_bounds
  have bounds' := gains.after.ready.blockSize_bounds
  have size : u.gBlockSize = s.gBlockSize := by
    simp only [entriesPerBlock] at perBlock
    omega
  have entries : u.fatEntries = s.fatEntries := by simp only [fatEntries, size]
  have blocks : J.blocks = I.blocks := by
    rw [gains.before.shows.blocks, gains.after.shows.blocks, entries]
  have same : u.block c = s.block c := by
    refine block_eq_of_rows size (by omega) fun i inside => ?_
    have inside' : i < I.slots := gains.before.shows.slots.symm ▸ inside
    rw [gains.before.shows.slot c low high i inside',
      gains.after.shows.slot c low (blocks.symm ▸ high) i (gains.slots.symm ▸ inside'),
      gains.rows c file c member]
  have first : (I.slot q.1 q.2).firstBlock.toNat = c := held.first
  have read := readBlock_run gains.before.ready (gains.before.inside high)
  have read' := readBlock_run gains.after.ready (gains.after.inside (blocks.symm ▸ high))
  simp only [readSymlinkTarget, type, ne_eq, not_true_eq_false, ↓reduceIte, first]
  rw [Prog.bind_of_run (malloc_run gains.before.ready.host),
    Prog.bind_of_run (malloc_run gains.after.ready.host)]
  simp only [Bool.not_true, Bool.false_eq_true, ↓reduceIte]
  rw [Prog.bind_of_run read, Prog.bind_of_run read', same]
  exact ⟨_, rfl, rfl⟩

theorem walk_sees (targets : ∀ target, Sees s u J p (recurse target))
    (components : List (List UInt8)) {current parent : Nat} (here : I.dirs current) :
    Sees s u J p (walk now follow recurse components current parent) := by
  induction components generalizing current parent with
  | nil =>
      intro err r run missing
      cases run
      cases missing
  | cons component rest ih =>
      intro err r run missing
      rw [walk] at run ⊢
      by_cases isDot : component = dot
      · rw [if_pos isDot] at run ⊢
        exact ih here err r run missing
      rw [if_neg isDot] at run ⊢
      by_cases isUp : component = dotDot
      · rw [if_pos isUp] at run ⊢
        by_cases top : current = 1
        · rw [if_pos top] at run ⊢
          exact ih here err r run missing
        rw [if_neg top] at run ⊢
        obtain ⟨up, found, isFound, entry⟩ := findDotDot_run gains.before gains.wf here top
        obtain ⟨up', found', isFound', entry'⟩ :=
          findDotDot_run gains.after gains.wf' (gains.dirs current here) top
        have slots := gains.wf.slotsMin
        have place : I.At current (current, 1) := ⟨here, gains.wf.dir_mem here, by omega⟩
        have apart : (current, 1) ≠ p := by
          rintro rfl
          have up := (gains.wf'.dots current (gains.dirs current here) top).upType
          exact absurd (gains.regular.symm.trans up) (by decide)
        have row := gains.others current (current, 1) place apart
        rw [Prog.bind_of_run found] at run
        rw [Prog.bind_of_run found']
        simp only [isFound, isFound', Bool.not_true, Bool.false_eq_true, ↓reduceIte, entry, entry'] at run ⊢
        simp only at row
        rw [row]
        exact ih (gains.wf.dir_parent here top) err r run missing
      rw [if_neg isUp] at run ⊢
      rw [Prog.bind_of_run (findEntryInDir_eq gains.before gains.wf here component)] at run
      rw [Prog.bind_of_run (findEntryInDir_eq gains.after gains.wf' (gains.dirs current here) component)]
      rcases gains.finds current here component with same | new
      · rw [same]
        cases found : I.find component (I.chain current) with
        | none => exact ⟨.ok, unresolvedIn current, rfl, (by rintro ⟨⟩)⟩
        | some q =>
            rw [found] at run
            obtain ⟨member, inside, live, named, _⟩ := find_some found
            have place : I.At current q := ⟨here, member, inside⟩
            have link : I.Holds current q (I.slot q.1 q.2).firstBlock.toNat :=
              ⟨place, live, not_dotSlot_of_name gains.wf here named isDot isUp, rfl⟩
            have apart : q ≠ p := by
              rintro rfl
              exact gains.unused _ _ link
            have row := gains.others current q place apart
            have entry : J.foundAt current q = I.foundAt current q := by
              simp only [Image.foundAt, row]
            simp only [entry] at run ⊢
            rw [if_neg (show ¬ (!(I.foundAt current q).found) = true from Bool.false_ne_true)] at run ⊢
            cases rest with
            | nil =>
                simp only at run ⊢
                by_cases follows : follow = true ∧ (I.foundAt current q).entry.type = DirEntry.typeSymlink
                · rw [if_pos follows] at run ⊢
                  obtain ⟨result, read, read'⟩ := gains.symlink link follows.2
                  have read₀ : readSymlinkTarget (I.foundAt current q).entry s = some (result, s) := read
                  have read₁ : readSymlinkTarget (I.foundAt current q).entry u = some (result, u) := read'
                  rw [Prog.bind_of_run read₀] at run
                  rw [Prog.bind_of_run read₁]
                  cases result with
                  | error err => exact ⟨err, .zero, rfl, (by rintro ⟨⟩)⟩
                  | ok target => exact targets target err r run missing
                · rw [if_neg follows] at run
                  cases run
                  cases missing
            | cons next rest =>
                simp only at run ⊢
                by_cases isDir : (I.foundAt current q).entry.type = DirEntry.typeDirectory
                · rw [if_neg (not_not.mpr isDir)] at run ⊢
                  exact ih ((gains.wf.target current q _ link).2.mp isDir) err r run missing
                · rw [if_pos isDir]
                  exact ⟨.notdir, unresolvedIn current, rfl, (by rintro ⟨⟩)⟩
      · rw [new]
        have kind : (J.foundAt current p).entry.type = DirEntry.typeRegular := gains.regular
        simp only
        rw [if_neg (show ¬ (!(J.foundAt current p).found) = true from Bool.false_ne_true)]
        cases rest with
        | nil =>
            refine ⟨.ok, J.foundAt current p, ?_, fun _ => ⟨current, rfl⟩⟩
            have notLink : ¬ (follow = true ∧ (J.foundAt current p).entry.type = DirEntry.typeSymlink) := by
              rw [kind]
              exact fun follows => absurd follows.2 (by decide)
            simp only
            rw [if_neg notLink]
            rfl
        | cons next rest =>
            refine ⟨.notdir, unresolvedIn current, ?_, (by rintro ⟨⟩)⟩
            have notDir : (J.foundAt current p).entry.type ≠ DirEntry.typeDirectory := by
              rw [kind]
              decide
            simp only
            rw [if_pos notDir]
            rfl

theorem resolvePathInternal_sees (here : I.dirs s.gCwdBlock) (levels : Nat) (path : List UInt8) :
    Sees s u J p (resolvePathInternal now follow levels path) := by
  induction levels generalizing path with
  | zero => exact fun err r run missing => ⟨.range, .zero, rfl, nofun⟩
  | succ levels ih =>
      intro err r run missing
      rw [resolvePathInternal, Prog.get_bind] at run ⊢
      cases path with
      | nil =>
          simp only at run
          split at run
          · cases run
            cases missing
          · cases run
            cases missing
      | cons first rest =>
          simp only [gains.cwd] at run ⊢
          by_cases absolute : first = slash
          · rw [if_pos absolute] at run ⊢
            by_cases top : rest = []
            · rw [if_pos top] at run
              cases run
              cases missing
            · rw [if_neg top] at run ⊢
              exact gains.walk_sees ih _ gains.wf.root err r run missing
          · rw [if_neg absolute] at run ⊢
            exact gains.walk_sees ih _ here err r run missing

/-- A missing path leads to the new file now, if anywhere. -/
theorem resolvePath_sees (here : I.dirs s.gCwdBlock) (path : List UInt8) :
    Sees s u J p (resolvePath now path) := by
  intro err r run missing
  rw [resolvePath] at run ⊢
  by_cases top : path = [slash]
  · rw [if_pos top] at run
    cases run
    cases missing
  · rw [if_neg top] at run ⊢
    exact gains.resolvePathInternal_sees here _ path err r run missing

end Gains

open Image (Promises)

/-- A new regular file is all that is gained when its entry went in. -/
theorem Entered.gains {promised : Promises} {t : Fs} {b : Nat} {e : DirEntry}
    {gone : Nat × Nat → Prop} (resting : Resting promised s I) (dense : promised.dense)
    (free : I.fat b = fatFree) (tables : SameTables s t)
    (entered : Entered promised gone (fun _ => False) t (I.alloc b) d e p u J)
    (regular : e.type = DirEntry.typeRegular) (visible : e.name0 ≠ 0) : Gains s I u J p where
  before := resting.tracks
  wf := resting.good.wf
  after := entered.tracks
  wf' := entered.good.wf
  slots := entered.slots
  cwd := entered.tables.cwd.trans tables.cwd
  dirs d' here := entered.keeps.dirs d' here id
  others d' q place := by
    have block := (Image.alloc_chain resting.good.wf free place.dir).symm ▸ place.block
    exact entered.others d' q ⟨place.dir, block, place.index⟩
  unused d' c link := by
    have kept : Image.Keeps (fun _ => False) (fun _ => False) I (I.alloc b) :=
      .alloc resting.good.wf free
    exact entered.unused d' c (kept.holds d' p c link id)
  rows h file x member := by
    refine entered.rows h file x ?_
    have apart : h ≠ b := by
      rintro rfl
      rw [resting.good.wf.chain_nil_of_free free] at member
      cases member
    have chain : (I.alloc b).chain h = I.chain h := Function.update_of_ne apart _ _
    rw [chain]
    exact member
  finds d' here name := by
    have chain := Image.alloc_chain resting.good.wf free here
    have same : (I.alloc b).find name (I.chain d') = I.find name (I.chain d') :=
      find_congr rfl fun _ _ _ _ => rfl
    have found := entered.finds ((resting.good.dense dense).alloc resting.good.wf free) visible d' here name
    rw [chain, same] at found
    exact found.imp id And.left
  regular := by
    rw [entered.written]
    exact regular

end PennOs.Fat
