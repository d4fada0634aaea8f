import PennOs.Fat.RemoveRuns

set_option autoImplicit false

/- Renaming: an entry for the same file or directory is added before the old one is marked
deleted. -/
namespace PennOs.Fat

open Image (Promises Keeps KeepsAll Sinks Welcome)

/-- The entry `e` in the slot `p'` of the directory `dt` took the place of the entry in `ps`. -/
structure Moved (promised : Promises) (s : Fs) (I : Image) (ps : Nat × Nat) (c dt : Nat) (e : DirEntry)
    (t : Fs) (K : Image) (p' : Nat × Nat) : Prop where
  rests : Resting promised t K
  keeps : Keeps (fun q => q = ps ∨ (e.live = false ∧ I.SlotUnder c q))
    (fun d => e.live = false ∧ I.Under c d) I K
  tables : SameTables s t
  apart : p' ≠ ps
  held : e.live = true → K.Holds dt p' c
  unused : ∀ d x, ¬ I.Holds d p' x
  onto : ∀ d q x, K.Holds d q x → I.Holds d q x ∨ x = c

variable {promised : Promises} {s t : Fs} {I J : Image} {c d ds dt : Nat} {p ps p' : Nat × Nat}
  {e : DirEntry}

section Moving

/-- The new name keeps the promises in the directory once the old entry is gone. -/
structure NameFits (promised : Promises) (I : Image) (ps : Nat × Nat) (dt : Nat) (name : List UInt8) :
    Prop where
  live : promised.lossless → DirEntry.packName name 0 ≠ 0 ∧ DirEntry.packName name 0 ≠ 1 ∧
    DirEntry.packName name 0 ≠ 2
  dense : promised.dense ∨ promised.distinct → DirEntry.packName name 0 ≠ 0
  fresh : promised.distinct → ∀ q, I.At dt q → q ≠ ps → (I.slot q.1 q.2).live = true →
    (I.slot q.1 q.2).cName ≠ name

/-- The entry is gone from its old slot, so its name is no obstacle. -/
theorem NameFits.welcome {name : List UInt8} (fits : NameFits promised I ps dt name)
    (grows : Grows I J dt) (short : name.length < 32) (noNul : 0 ∉ name)
    (named : e.name = DirEntry.packName name) : Welcome promised (J.remove ps) dt e where
  live asked := by
    rw [DirEntry.live_iff, DirEntry.name0, named]
    exact fits.live asked
  dense asked := by
    rw [DirEntry.name0, named]
    exact fits.dense asked
  fresh asked q place alive := by
    have apart : q ≠ ps := by
      rintro rfl
      rw [show (J.remove q).slot q.1 q.2 = .deleted from J.setSlot_self q .deleted,
        DirEntry.deleted_live] at alive
      cases alive
    have row : (J.remove ps).slot q.1 q.2 = J.slot q.1 q.2 := J.setSlot_ne .deleted apart
    rw [row] at alive ⊢
    have old := grows.empty dt q ⟨place.dir, place.block, place.index⟩ alive
    have same := grows.slot dt q old
    rw [same] at alive ⊢
    rw [cName_packName short noNul named]
    exact fits.fresh asked q old apart alive

theorem Removed.holds (removed : Removed promised s I p c t J) {q : Nat × Nat} {x : Nat}
    (link : J.Holds d q x) : I.Holds d q x := by
  have apart : q ≠ p := by
    rintro rfl
    have live := link.live
    rw [removed.dead] at live
    cases live
  have same := removed.others q apart
  have place := removed.places d q link.toAt
  exact ⟨place, same ▸ link.live, link.named, same ▸ link.first⟩

theorem Removed.dirs (removed : Removed promised s I p c t J) (here : J.dirs d) : I.dirs d := by
  have wf := removed.rests.good.wf
  have slots := wf.slotsMin
  exact (removed.places d (d, 0) ⟨here, wf.dir_mem here, by omega⟩).dir

theorem Removed.under (removed : Removed promised s I p c t J) (link : I.Holds ds p c) {x : Nat}
    (wf : I.Wf) (under : J.Under x d) : I.Under x d := by
  refine ⟨removed.dirs under.1, ?_⟩
  refine under.2.congr under.1 (fun y here proper => removed.rests.good.wf.dir_parent here proper) ?_
  intro y here proper
  have apart := wf.dot_ne link.toAt link.named (removed.dirs here) proper (show 1 < 2 by decide)
  have row := removed.others (y, 1) apart
  simp only at row
  rw [Image.parent, Image.parent, row]

/-- Writes to two slots may change places. -/
theorem setSlot_comm (I : Image) {p q : Nat × Nat} (apart : p ≠ q) (e e' : DirEntry) :
    ((I.setSlot q e').setSlot p e).slot = ((I.setSlot p e).setSlot q e').slot := by
  funext b i
  by_cases atP : (b, i) = p
  · subst atP
    have left := (I.setSlot q e').setSlot_self (b, i) e
    have right := (I.setSlot (b, i) e).setSlot_ne e' apart
    simp only at left right
    rw [left, right]
    exact (I.setSlot_self (b, i) e).symm
  by_cases atQ : (b, i) = q
  · subst atQ
    have left := (I.setSlot (b, i) e').setSlot_ne e apart.symm
    have right := (I.setSlot p e).setSlot_self (b, i) e'
    simp only at left right
    rw [left, right]
    exact I.setSlot_self (b, i) e'
  · have left := (I.setSlot q e').setSlot_ne e atP
    have right := (I.setSlot p e).setSlot_ne e' atQ
    simp only at left right
    rw [left, right]
    exact (I.setSlot_ne e' atQ).trans (I.setSlot_ne e atP).symm

/-- What the last two steps of `k_rename` do. -/
theorem moveEntry_run (resting : Resting promised s I) (link : I.Holds ds ps c) (here : I.dirs dt)
    {name : List UInt8} (short : name.length < 32) (noNul : 0 ∉ name)
    (named : e.name = DirEntry.packName name) (type : e.type = (I.slot ps.1 ps.2).type)
    (first : e.firstBlock = (I.slot ps.1 ps.2).firstBlock) (within : I.dirs c → ds = dt)
    (fits : NameFits promised I ps dt name)
    (cwd : e.live = false → ¬ I.Under c s.gCwdBlock) :
    addDirentToDir dt e s = some (.nospace, s) ∨ ∃ t u K p',
      addDirentToDir dt e s = some (.ok, t) ∧ writeDirent ps.1 ps.2 .deleted t = some (.ok, u) ∧
        Moved promised s I ps c dt e u K p' := by
  have wf := resting.good.wf
  rcases addDirentToDir_run resting.tracks wf here e with full | ⟨t, J, p', run, added⟩
  · exact .inl full
  right
  have grows := added.grows
  have grown := grows.good promised resting.good
  have old : J.Holds ds ps c := grows.holds.mpr link
  have removed := grown.remove old
  have dead : (J.slot p'.1 p'.2).live = false := DirEntry.live_of_reusable added.free
  have apart : p' ≠ ps := by
    rintro rfl
    rw [old.live] at dead
    cases dead
  have target : e.firstBlock.toNat = c := by
    rw [first]
    exact link.first
  obtain ⟨low, high, _⟩ := grown.wf.inside ds ps.1 old.block
  have rowOf : ∀ {q}, q ≠ ps → (J.remove ps).slot q.1 q.2 = J.slot q.1 q.2 :=
    fun other => J.setSlot_ne .deleted other
  have rowS : (J.remove ps).slot ps.1 ps.2 = .deleted := J.setSlot_self ps .deleted
  have place : (J.remove ps).At dt p' := ⟨added.place.dir, added.place.block, added.place.index⟩
  have isLoose : (J.remove ps).loose e.firstBlock.toNat := .inr (target.trans old.first.symm)
  have dead' : ((J.remove ps).slot p'.1 p'.2).live = false := by
    rw [rowOf apart]
    exact dead
  have before : ∀ i < p'.2, ((J.remove ps).slot p'.1 i).name0 ≠ 0 := by
    intro i less
    by_cases same : (p'.1, i) = ps
    · subst same
      have row : (J.remove (p'.1, i)).slot p'.1 i = .deleted := rowS
      rw [row]
      decide
    · rw [rowOf same]
      exact DirEntry.name0_of_not_reusable (added.first i less)
  have kind : e.type = DirEntry.typeDirectory ↔ (J.remove ps).dirs e.firstBlock.toNat := by
    rw [target, type]
    exact (wf.target ds ps c link).2.trans (by rw [← grows.dirs]; exact Iff.rfl)
  have agrees : (J.remove ps).dirs e.firstBlock.toNat →
      (J.remove ps).parent e.firstBlock.toNat = dt := by
    intro isDir
    rw [target] at isDir ⊢
    have isDir' : I.dirs c := grows.dirs ▸ isDir
    have notRoot := wf.tree.notRoot ds ps c link
    have up : (J.remove ps).parent c = J.parent c :=
      grown.wf.setSlot_parent old.toAt old.named (grows.dirs.symm ▸ isDir') notRoot
    rw [up, grows.parent wf isDir', wf.tree.parentOf ds ps c link isDir']
    exact within isDir'
  have shape := (J.remove ps).enter_shape p' e
  have slots := (J.remove ps).enter_slot p' e
  have entered := removed.enter place dead' before isLoose (target ▸ wf.tree.notRoot ds ps c link)
    (fun _ => kind) agrees (fits.welcome grows short noNul named)
  have written := added.tracks.putDirent low high .deleted
  have tables := added.tables.trans (.putDirent t ps .deleted)
  refine ⟨t, _, (J.remove ps).enter p' e, p', run,
    writeDirent_run added.tracks low high old.index .deleted, ?_⟩
  have sinks : Sinks (I.SlotUnder c) (I.Under c) (J.remove ps) e.firstBlock.toNat := by
    rw [target]
    exact ((Sinks.under I c).grows wf grows).remove grown.wf old
  have kept : Keeps (fun q => q = ps ∨ (e.live = false ∧ I.SlotUnder c q))
      (fun d => e.live = false ∧ I.Under c d) I ((J.remove ps).enter p' e) := by
    refine (Keeps.grows grows).trans ((Keeps.remove (.inl rfl)).trans ?_)
    refine .enter removed.wf place dead' fun gives => ?_
    exact ⟨fun d here below => ⟨gives, sinks.dirs d here below⟩,
      fun d q x link below => .inr ⟨gives, sinks.slots d q x link below⟩⟩
  constructor
  · refine ⟨written.ghost shape.1 shape.2.1 (fun _ _ => by rw [shape.2.2]; rfl) fun b _ _ i _ => ?_,
      entered, fun x => ?_, ?_⟩
    · rw [slots]
      exact congrFun (congrFun (setSlot_comm J apart e .deleted) b) i
    · rw [Image.enter_loose]
      rintro ⟨old' | new, other⟩
      · exact resting.idle x ((grows.loose x).mp old')
      · exact other (new.trans (old.first.trans target.symm))
    · rw [tables.cwd]
      refine kept.dirs _ resting.cwd ?_
      rintro ⟨gives, under⟩
      exact cwd gives under
  · exact kept
  · exact tables
  · exact apart
  · intro live
    have held := Image.enter_holds removed.wf place dead' live
    rw [target] at held
    exact held
  · intro d x link'
    have live := (grows.holds.mpr link').live
    rw [dead] at live
    cases live
  · intro d q x link'
    obtain ⟨place', live, named', first'⟩ := Image.holds_of_enter link'
    by_cases new : q = p'
    · right
      rw [new, Image.setSlot_self] at first'
      exact first'.symm.trans target
    · left
      have row := (J.remove ps).setSlot_ne e new
      rw [row] at live first'
      exact grows.holds.mp (Image.holds_of_remove ⟨place', live, named', first'⟩)

end Moving

section Renaming

/-- What `k_rename` needs of its two resolved paths: the source is not the target, directories
stay where their '..' points, and no name is taken twice. -/
structure Movable (promised : Promises) (s : Fs) (I : Image) (ds : Nat) (ps : Nat × Nat) (c : Nat)
    (r : ResolvedPath) (name : List UInt8) : Prop where
  apart : ∀ d, r ≠ I.foundAt d ps
  within : I.dirs c → ds = r.parentDirBlock
  cwd : ∀ e : DirEntry, e.name = DirEntry.packName name → e.live = false → ¬ I.Under c s.gCwdBlock
  drops : ∀ d p x, r = I.foundAt d p → I.Holds d p x → I.dirs x →
    onlyDots (s.block x) s.entriesPerBlock 0 = true → Droppable promised s I x
  live : promised.lossless → DirEntry.packName name 0 ≠ 0 ∧ DirEntry.packName name 0 ≠ 1 ∧
    DirEntry.packName name 0 ≠ 2
  dense : promised.dense ∨ promised.distinct → DirEntry.packName name 0 ≠ 0
  fresh : promised.distinct → ∀ q, I.At r.parentDirBlock q → q ≠ ps →
    (∀ d, r ≠ I.foundAt d q) → (I.slot q.1 q.2).live = true → (I.slot q.1 q.2).cName ≠ name

/-- The slots a rename may empty. -/
def Displaced (I : Image) (ps : Nat × Nat) (c : Nat) (r : ResolvedPath) (e : DirEntry)
    (q : Nat × Nat) : Prop :=
  q = ps ∨ (e.live = false ∧ I.SlotUnder c q) ∨
    ∃ d p x, r = I.foundAt d p ∧ I.Holds d p x ∧ (q = p ∨ I.SlotUnder x q)

/-- The directories a rename may give up. -/
def Dropped (I : Image) (c : Nat) (r : ResolvedPath) (e : DirEntry) (d : Nat) : Prop :=
  (e.live = false ∧ I.Under c d) ∨ ∃ d' p x, r = I.foundAt d' p ∧ I.Holds d' p x ∧ I.Under x d

/-- The file or directory `c` moved from the slot `ps`, in place of what was there. -/
structure Renamed (promised : Promises) (s : Fs) (I : Image) (ps : Nat × Nat) (c : Nat)
    (r : ResolvedPath) (e : DirEntry) (t : Fs) (K : Image) : Prop where
  rests : Resting promised t K
  keeps : Keeps (Displaced I ps c r e) (Dropped I c r e) I K
  tables : SameTables s t
  onto : ∀ d q x, K.Holds d q x → I.Holds d q x ∨ x = c
  held : ∀ d, I.dirs c → e.live = true → I.Holds d ps c → ∃ q, K.Holds d q c
  stays : ∀ x, Dropped I c r e x → ¬ Hierarchy.Below 1 I.parent x s.gCwdBlock

/-- The destination of a rename is removed, if it may be. -/
theorem removeDestination_run (resting : Resting promised s I) (now : UInt64) (newpath : List UInt8)
    {err : PennFatErr} {r : ResolvedPath} {name : List UInt8} (source : ResolvedPath)
    (run : resolvePath now newpath s = some ((err, r), s))
    (movable : Movable promised s I ds ps c r name) :
    Prog.Ensures (removeDestination now newpath source r) s fun err t =>
      (err ≠ .ok ∧ t = s) ∨ (err = .ok ∧ t = s ∧ r.found = false) ∨
        ∃ d p x J, r = I.foundAt d p ∧ I.Holds d p x ∧ source.entry.type = r.entry.type ∧
          ¬ I.Under x s.gCwdBlock ∧ Removed promised s I p x t J := by
  have same : ∀ {err'} {r'}, resolvePath now newpath s = some ((err', r'), s) → r = r' := by
    intro err' r' other
    rw [run] at other
    cases other
    rfl
  unfold removeDestination
  refine .ite (fun missing => .pure (.inr (.inl ⟨rfl, rfl, by simpa using missing⟩))) fun _ => ?_
  refine .ite (fun _ => .ite (fun _ => .pure (.inl ⟨nofun, rfl⟩)) fun _ => .pure (.inl ⟨nofun, rfl⟩))
    fun kind => ?_
  have type := Decidable.of_not_not kind
  refine .ite (fun _ => ?_) fun _ => ?_
  · refine (kRmdir_run resting now newpath fun d p x found => movable.drops d p x (same found)).mono ?_
    rintro err t (stays | ⟨d, p, x, J, found, held, here, empty, removed⟩)
    · exact .inl stays
    · have away := (movable.drops d p x (same found) held here empty).cwd
      exact .inr (.inr ⟨d, p, x, J, same found, held, type, fun under => away under.2, removed⟩)
  · refine (kUnlink_run resting now newpath).mono ?_
    rintro err t (stays | ⟨d, p, x, J, found, held, file, _, removed⟩)
    · exact .inl stays
    · have away : ¬ I.Under x s.gCwdBlock := fun under =>
        file (resting.good.wf.tree.below_dir under.2 under.1)
      exact .inr (.inr ⟨d, p, x, J, same found, held, type, away, removed⟩)

/-- Nothing above the current directory is given up. -/
theorem Movable.stays {r : ResolvedPath} {name : List UInt8} (movable : Movable promised s I ds ps c r name)
    (resting : Resting promised s I) (named : e.name = DirEntry.packName name)
    (clear : ∀ d p x, r = I.foundAt d p → I.Holds d p x → ¬ I.Under x s.gCwdBlock) (x : Nat)
    (drops : Dropped I c r e x) : ¬ Hierarchy.Below 1 I.parent x s.gCwdBlock := by
  intro below
  rcases drops with ⟨dead, under⟩ | ⟨d, p, y, found, held, under⟩
  · exact movable.cwd e named dead ⟨resting.cwd, under.2.trans below⟩
  · exact clear d p y found held ⟨resting.cwd, under.2.trans below⟩

theorem Renamed.refl {r : ResolvedPath} (resting : Resting promised s I)
    (stays : ∀ x, Dropped I c r e x → ¬ Hierarchy.Below 1 I.parent x s.gCwdBlock) :
    Renamed promised s I ps c r e s I :=
  ⟨resting, .refl I, .refl s, fun _ _ _ link => .inl link, fun _ _ _ link => ⟨ps, link⟩, stays⟩

theorem Renamed.of_removed {r : ResolvedPath} {x : Nat} (found : r = I.foundAt d p)
    (held : I.Holds d p x) (removed : Removed promised s I p x t J) (wf : I.Wf)
    (link : I.Holds ds ps c) (link' : J.Holds ds ps c)
    (stays : ∀ x, Dropped I c r e x → ¬ Hierarchy.Below 1 I.parent x s.gCwdBlock) :
    Renamed promised s I ps c r e t J where
  rests := removed.rests
  keeps := by
    refine removed.keeps.mono (fun q goes => .inr (.inr ⟨d, p, x, found, held, goes⟩)) fun d' under => ?_
    exact .inr ⟨d, p, x, found, held, under⟩
  tables := removed.tables
  onto _ _ _ link := .inl (removed.holds link)
  held d' _ _ again := by
    obtain rfl := wf.at_unique link.toAt again.toAt
    exact ⟨ps, link'⟩
  stays := stays

theorem Renamed.of_moved {r : ResolvedPath} {K : Image} (before : Renamed promised s I ps c r e t J)
    {u : Fs} (onward : ∀ d q x, J.Holds d q x → I.Holds d q x)
    (under : ∀ d, J.Under c d → I.Under c d) (moved : Moved promised t J ps c dt e u K p')
    (within : ∀ d, I.dirs c → I.Holds d ps c → d = dt) : Renamed promised s I ps c r e u K where
  rests := moved.rests
  keeps := by
    refine before.keeps.trans (moved.keeps.mono (fun q goes => ?_) fun d goes => ?_)
    · rcases goes with same | ⟨gives, d, x, link, below⟩
      · exact .inl same
      · have sunk : J.Under c d := ⟨link.dir, below⟩
        exact .inr (.inl ⟨gives, d, x, onward d q x link, (under d sunk).2⟩)
    · exact .inl ⟨goes.1, under d goes.2⟩
  tables := before.tables.trans moved.tables
  onto d q x link := by
    rcases moved.onto d q x link with old | same
    · exact before.onto d q x old
    · exact .inr same
  held d here live link := by
    obtain rfl := within d here link
    exact ⟨p', moved.held live⟩
  stays := before.stays

/-- The removal of the destination leaves the source and its directory alone. -/
theorem Movable.after {r : ResolvedPath} {name : List UInt8} {x : Nat}
    (movable : Movable promised s I ds ps c r name) (wf : I.Wf) (link : I.Holds ds ps c)
    (found : r = I.foundAt d p) (held : I.Holds d p x)
    (same : I.dirs c ↔ I.dirs x) (removed : Removed promised s I p x t J) :
    J.Holds ds ps c ∧ J.slot ps.1 ps.2 = I.slot ps.1 ps.2 ∧ J.dirs d ∧ (J.dirs c → ds = d) ∧
      NameFits promised J ps d name := by
  have parent : r.parentDirBlock = d := congrArg ResolvedPath.parentDirBlock found
  have apart : ps ≠ p := by
    rintro rfl
    exact movable.apart d found
  have above : ¬ I.Under x d := by
    intro under
    have isDir := wf.tree.below_dir under.2 under.1
    have up := wf.tree.parentOf d p x held isDir
    exact wf.tree.not_below_parent isDir (wf.tree.notRoot d p x held) (up.symm ▸ under.2)
  have outside : ¬ I.SlotUnder x ps := by
    rintro ⟨d', y, link', below⟩
    have here := wf.tree.below_dir below link'.dir
    obtain rfl := wf.at_unique link.toAt link'.toAt
    have within := (movable.within (same.mpr here)).trans parent
    exact above ⟨within ▸ link.dir, within ▸ below⟩
  have row := removed.others ps apart
  refine ⟨removed.keeps.holds ds ps c link fun goes => goes.elim apart outside, row,
    removed.keeps.dirs d held.dir above,
    fun isDir => (movable.within (removed.dirs isDir)).trans parent, movable.live, movable.dense, ?_⟩
  intro asked q place other alive
  have apart' : q ≠ p := by
    rintro rfl
    rw [removed.dead] at alive
    cases alive
  rw [removed.others q apart'] at alive ⊢
  refine movable.fresh asked q (parent.symm ▸ removed.places d q place) other (fun d' again => ?_) alive
  have block : p.1 = q.1 := congrArg ResolvedPath.entryBlock (found.symm.trans again)
  have index : (p.2 : Int) = q.2 := congrArg ResolvedPath.entryIndexInBlock (found.symm.trans again)
  exact apart' (Prod.ext block.symm (by omega))

theorem kRename_run (resting : Resting promised s I) (now : UInt64) (oldpath : List UInt8)
    (newpath : CStr)
    (allowed : ∀ ds ps c err r, resolvePath now oldpath s = some ((.ok, I.foundAt ds ps), s) →
      I.Holds ds ps c → resolvePath now newpath.bytes s = some ((err, r), s) →
      ¬ badName (getFilenameFromPath newpath.bytes) = true →
      Movable promised s I ds ps c r (getFilenameFromPath newpath.bytes)) :
    Prog.Ensures (kRename now oldpath newpath.bytes) s fun _ t => t = s ∨
      ∃ ds ps c err r K, resolvePath now oldpath s = some ((.ok, I.foundAt ds ps), s) ∧
        I.Holds ds ps c ∧ resolvePath now newpath.bytes s = some ((err, r), s) ∧
        Renamed promised s I ps c r
          (movedEntry now (I.slot ps.1 ps.2) (getFilenameFromPath newpath.bytes)) t K := by
  have wf := resting.good.wf
  unfold kRename
  refine .get (.ite (fun _ => .pure (.inl rfl)) fun _ => .ite (fun _ => .pure (.inl rfl)) fun _ => ?_)
  refine .ite (fun _ => .pure (.inl rfl)) fun _ => ?_
  obtain ⟨err, r, run, resolved⟩ := resolvePath_run resting.tracks wf resting.cwd now oldpath
  refine .step run (.ite (fun _ => .pure (.inl rfl)) fun _ => ?_)
  refine .ite (fun _ => .pure (.inl rfl)) fun found => .ite (fun _ => .pure (.inl rfl)) fun notDots => ?_
  obtain ⟨err', r', run', resolved'⟩ :=
    resolvePath_run resting.tracks wf resting.cwd now newpath.bytes
  refine .step run' (.ite (fun _ => .pure (.inl rfl)) fun _ =>
    .ite (fun _ => .pure (.inl rfl)) fun used => ?_)
  refine .ite (fun _ => .pure (.inl rfl)) fun good => ?_
  cases resolved with
  | slash => exact absurd (.inr rfl) found
  | missing err d here kind => exact absurd (.inl rfl) found
  | nothing err => exact absurd (.inl rfl) found
  | dir name d parent mtime here above at_ =>
      rcases at_ with rfl | rfl
      · exact absurd (.inl (cName_packName (by decide) (by decide) rfl)) notDots
      · exact absurd (.inr rfl) found
  | entry ds ps place live named before =>
      have link : I.Holds ds ps (I.slot ps.1 ps.2).firstBlock.toNat := ⟨place, live, named, rfl⟩
      have movable := allowed ds ps _ err' r' run link run' good
      have short := (goodName good).1
      have noNul := fun member => newpath.noNul (mem_getFilenameFromPath member)
      refine (removeDestination_run resting now newpath.bytes (I.foundAt ds ps) run' movable).bind ?_
      rintro err t (⟨bad, rfl⟩ | ⟨rfl, rfl, missing⟩ | ⟨d, p, x, J, target, held, type, away, removed⟩)
      · cases err <;> first | exact absurd rfl bad | exact .pure (.inl rfl)
      · cases resolved' with
        | slash => cases missing
        | dir name d parent mtime here above at_ => cases missing
        | entry d p place live named before => cases missing
        | nothing err => exact absurd (.inl rfl) used
        | missing err d here kind =>
            have fits : NameFits promised I ps d (getFilenameFromPath newpath.bytes) :=
              ⟨movable.live, movable.dense, fun asked q at_ other => movable.fresh asked q at_ other nofun⟩
            rcases moveEntry_run resting link here short noNul
                (e := movedEntry now (I.slot ps.1 ps.2) (getFilenameFromPath newpath.bytes)) rfl rfl rfl
                movable.within fits (movable.cwd _ rfl) with full | ⟨t, u, K, p', adding, writing, moved⟩
            · exact .step full (.pure (.inl rfl))
            · refine .step adding (.of_run writing (.inr ⟨ds, ps, _, err', _, K, run, link, run', ?_⟩))
              have stays := movable.stays
                (e := movedEntry now (I.slot ps.1 ps.2) (getFilenameFromPath newpath.bytes)) resting rfl nofun
              refine (Renamed.refl resting stays).of_moved (fun _ _ _ link => link)
                (fun _ under => under) moved
                fun d' isDir link' => ?_
              obtain rfl := wf.at_unique link.toAt link'.toAt
              exact movable.within isDir
      · have same : I.dirs (I.slot ps.1 ps.2).firstBlock.toNat ↔ I.dirs x := by
          rw [← (wf.target ds ps _ link).2, ← (wf.target d p x held).2]
          rw [target] at type
          exact ⟨fun isDir => type.symm.trans isDir, fun isDir => type.trans isDir⟩
        obtain ⟨link', row, here, within, fits⟩ := movable.after wf link target held same removed
        have parent : r'.parentDirBlock = d := congrArg ResolvedPath.parentDirBlock target
        have clear : ∀ d' p' y, r' = I.foundAt d' p' → I.Holds d' p' y → ¬ I.Under y s.gCwdBlock := by
          intro d' p' y again held'
          have block : p.1 = p'.1 := congrArg ResolvedPath.entryBlock (target.symm.trans again)
          have index : (p.2 : Int) = p'.2 :=
            congrArg ResolvedPath.entryIndexInBlock (target.symm.trans again)
          obtain rfl : p = p' := Prod.ext block (by omega)
          obtain rfl : x = y := held.first.symm.trans held'.first
          exact away
        have start : Renamed promised s I ps (I.slot ps.1 ps.2).firstBlock.toNat r'
            (movedEntry now (I.slot ps.1 ps.2) (getFilenameFromPath newpath.bytes)) t J :=
          .of_removed target held removed wf link link' (movable.stays resting rfl clear)
        have found := fun u K done => (⟨ds, ps, _, err', r', K, run, link, run', done⟩ : ∃ ds ps c err r K,
          resolvePath now oldpath s = some ((.ok, I.foundAt ds ps), s) ∧ I.Holds ds ps c ∧
            resolvePath now newpath.bytes s = some ((err, r), s) ∧ Renamed promised s I ps c r
              (movedEntry now (I.slot ps.1 ps.2) (getFilenameFromPath newpath.bytes)) u K)
        cases err <;> try exact .pure (.inr (found t J start))
        rw [parent]
        rcases moveEntry_run removed.rests link' here short noNul
            (e := movedEntry now (I.slot ps.1 ps.2) (getFilenameFromPath newpath.bytes)) rfl
            (by rw [row]; rfl) (by rw [row]; rfl) within fits
            (fun gives under => movable.cwd _ rfl gives
              (removed.tables.cwd ▸ removed.under held wf under)) with
          full | ⟨t, u, K, p', adding, writing, moved⟩
        · exact .step full (.pure (.inr (found _ J start)))
        · refine .step adding (.of_run writing (.inr (found u K ?_)))
          refine start.of_moved (fun _ _ _ link => removed.holds link)
            (fun _ under => removed.under held wf under) moved fun d' isDir again => ?_
          obtain rfl := wf.at_unique link.toAt again.toAt
          exact (movable.within isDir).trans parent

end Renaming

end PennOs.Fat
