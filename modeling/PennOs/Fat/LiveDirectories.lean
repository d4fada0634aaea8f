import PennOs.Fat.TreeRuns

set_option autoImplicit false

/- The current directory in runs of the calls: it is live as long as no call takes the entries that
lead to it. -/
namespace PennOs.Fat

open Image (Promises Keeps KeepsAll)
open Fs

/-- Live entries lead from the root directory to the directory. -/
inductive Image.Rooted (I : Image) : Nat → Prop where
  | root : I.Rooted 1
  | step {d c : Nat} {p : Nat × Nat} : I.Rooted d → I.Holds d p c → I.dirs c → I.Rooted c

/-- The image with only the directories that entries lead to. -/
def Image.pruned (I : Image) : Image := { I with dirs := I.Rooted }

/-- `k_unmount` clears the first block of the root directory: no entry there is for a directory
above the current one. -/
def UnmountSound (s : Fs) : Prop :=
  ∀ i < s.disk.entriesPerBlock, (s.disk.dirent (1, i)).live = true →
    (s.disk.dirent (1, i)).type = DirEntry.typeDirectory →
    ¬ Hierarchy.Below 1 s.disk.up (s.disk.firstOf (1, i)) s.gCwdBlock

/-- The condition on a call and the state it starts from. -/
def CwdSound (s : Fs) (call : Call) : Prop :=
  Guarded .plain s call ∧ (call = .unmount → s.gMounted = true → UnmountSound s)

/-- Mounted or not, entries lead to the current directory. -/
inductive Seated (s : Fs) : Prop where
  | mounted {I : Image} : Resting .plain s I → I.Rooted s.gCwdBlock → Seated s
  | stored {config : Nat} {I : Image} : Stored .plain s config I → I.Rooted s.gCwdBlock → Seated s

variable {s t : Fs} {I J : Image} {c d : Nat} {p : Nat × Nat} {gone : Nat × Nat → Prop}
  {lost : Nat → Prop} {call : Call} {config : Nat}

section Rooted

theorem Image.Rooted.dir (rooted : I.Rooted d) (wf : I.Wf) : I.dirs d := by
  cases rooted with
  | root => exact wf.root
  | step _ _ here => exact here

/-- The path to a directory stays where the entries on it stay. -/
theorem Image.Rooted.kept (rooted : I.Rooted c) (wf : I.Wf)
    (stays : ∀ d p x, I.Holds d p x → I.dirs x → Hierarchy.Below 1 I.parent x c →
      J.dirs x ∧ ∃ q, J.Holds d q x) : J.Rooted c := by
  induction rooted with
  | root => exact .root
  | @step d c p _ link here ih =>
      have proper := wf.tree.notRoot d p c link
      have up := wf.tree.parentOf d p c link here
      obtain ⟨here', q, link'⟩ := stays d p c link here .self
      refine .step (ih fun d' p' x link'' isDir below => ?_) link' here'
      exact stays d' p' x link'' isDir (.up proper (up.symm ▸ below))

theorem Image.Rooted.keepsAll (rooted : I.Rooted c) (wf : I.Wf) (keeps : KeepsAll I J) : J.Rooted c :=
  rooted.kept wf fun d p x link here _ => ⟨keeps.dirs x here id, p, keeps.holds d p x link id⟩

/-- What goes is a file, or a directory that is not above `c`. -/
theorem Image.Rooted.keeps (rooted : I.Rooted c) (wf : I.Wf) (keeps : Keeps gone lost I J)
    (slots : ∀ d p x, I.Holds d p x → I.dirs x → Hierarchy.Below 1 I.parent x c → ¬ gone p)
    (dirs : ∀ x, Hierarchy.Below 1 I.parent x c → ¬ lost x) : J.Rooted c :=
  rooted.kept wf fun d p x link here below =>
    ⟨keeps.dirs x here (dirs x below), p, keeps.holds d p x link (slots d p x link here below)⟩

theorem Image.pruned_holds {q : Nat × Nat} (wf : I.Wf) :
    I.pruned.Holds d q c ↔ I.Rooted d ∧ I.Holds d q c := by
  constructor
  · intro link
    exact ⟨link.dir, ⟨⟨link.dir.dir wf, link.block, link.index⟩, link.live, link.named, link.first⟩⟩
  · rintro ⟨rooted, link⟩
    exact ⟨⟨rooted, link.block, link.index⟩, link.live, link.named, link.first⟩

theorem Image.Rooted.parent (rooted : I.Rooted d) (wf : I.Wf) (proper : d ≠ 1) :
    I.Rooted (I.parent d) := by
  cases rooted with
  | root => exact absurd rfl proper
  | step above link here =>
      rw [wf.tree.parentOf _ _ _ link here]
      exact above

/-- Directories that no entries lead to need not count as such. -/
theorem Image.Wf.pruned (wf : I.Wf) : I.pruned.Wf where
  slotsMin := wf.slotsMin
  blocksMax := wf.blocksMax
  chains := wf.chains
  headed := wf.headed
  inside := wf.inside
  dirHead d rooted := wf.dirHead d (rooted.dir wf)
  dots d rooted := wf.dots d (rooted.dir wf)
  target d p c link := by
    obtain ⟨rooted, link⟩ := (Image.pruned_holds wf).mp link
    obtain ⟨used, kind⟩ := wf.target d p c link
    exact ⟨used, fun isDir => rooted.step link (kind.mp isDir), fun here => kind.mpr (here.dir wf)⟩
  looseHead := wf.looseHead
  tree := wf.tree.shrink .root (fun d rooted => rooted.dir wf)
    (fun d rooted proper => rooted.parent wf proper) (fun _ _ _ => rfl)
    (fun d p c link => ((Image.pruned_holds wf).mp link).symm)
    fun c isLoose d p link => wf.tree.looseFree c isLoose d p ((Image.pruned_holds wf).mp link).2

theorem Resting.pruned (resting : Resting .plain s I) (rooted : I.Rooted s.gCwdBlock) :
    Resting .plain s I.pruned where
  tracks := resting.tracks.ghost rfl rfl (fun _ _ => rfl) fun _ _ _ _ _ => rfl
  good := ⟨resting.good.wf.pruned, nofun, nofun, nofun⟩
  idle := resting.idle
  cwd := rooted

/-- The entries the volume shows lead to the directory, too. -/
theorem Image.Rooted.shown {v : Fs} (rooted : I.Rooted d) (shows : Shows v I) (wf : I.Wf) : v.Dir d := by
  induction rooted with
  | root => exact .root
  | @step d c p _ link here ih =>
      obtain ⟨entry, first⟩ := shows.entry wf ih link
      have type : (v.dirent p).type = DirEntry.typeDirectory := by
        rw [shows.row wf entry.toSlot]
        exact (wf.target _ p _ link).2.mpr here
      have step := Dir.sub ih entry.block entry.index entry.live entry.named type
      rw [first] at step
      exact step

/-- A directory that the volume leads to is rooted in the image. -/
theorem Shows.rooted {v : Fs} (shows : Shows v I) (wf : I.Wf) (here : v.Dir d) : I.Rooted d := by
  induction here with
  | root => exact .root
  | @sub d p above block index live named isDir ih =>
      have here := shows.dirs wf above
      have entry : v.Entry d p := ⟨⟨above, block, index⟩, live, named⟩
      have link := shows.holds wf entry
      refine ih.step link ((wf.target d p _ link).2.mp ?_)
      rw [← shows.row wf entry.toSlot]
      exact isDir

end Rooted

section Steps

/-- A directory with an entry is below the directory of the entry. -/
theorem Image.Wf.below_holder {x : Nat} (wf : I.Wf) (link : I.Holds d p x) (here : I.dirs x)
    (below : Hierarchy.Below 1 I.parent x c) : Hierarchy.Below 1 I.parent d c := by
  have up := wf.tree.parentOf d p x link here
  have first : Hierarchy.Below 1 I.parent d x := .up (wf.tree.notRoot d p x link) (up.symm ▸ .self)
  exact first.trans below

/-- The entry of a directory above `c` is in none of the directories under `x`, unless `x` is above
`c`. -/
theorem Image.Wf.slot_stays {x y : Nat} (wf : I.Wf) (apart : ¬ Hierarchy.Below 1 I.parent x c)
    (link : I.Holds d p y) (here : I.dirs y) (below : Hierarchy.Below 1 I.parent y c) :
    ¬ I.SlotUnder x p := by
  rintro ⟨d', z, link', under⟩
  obtain rfl := wf.at_unique link.toAt link'.toAt
  exact apart (under.trans (wf.below_holder link here below))

variable (resting : Resting .plain s I) (rooted : I.Rooted s.gCwdBlock)

include resting rooted

theorem Calm.seated (calm : Calm .plain s I t) : Seated t := by
  obtain ⟨J, rests, keeps, tables⟩ := calm
  exact .mounted rests (tables.cwd ▸ rooted.keepsAll resting.good.wf keeps)

/-- A file, or a directory that is not above the current one, was removed. -/
theorem Removed.seated (removed : Removed .plain s I p c t J) (link : I.Holds d p c)
    (away : ¬ I.Under c s.gCwdBlock) : Seated t := by
  have wf := resting.good.wf
  have apart : ¬ Hierarchy.Below 1 I.parent c s.gCwdBlock := fun below => away ⟨resting.cwd, below⟩
  refine .mounted removed.rests (removed.tables.cwd ▸ rooted.keeps wf removed.keeps ?_ ?_)
  · rintro d' q x link' here below (rfl | under)
    · obtain rfl : x = c := link'.first.symm.trans link.first
      exact apart below
    · exact wf.slot_stays apart link' here below under
  · exact fun x below under => apart (under.2.trans below)

theorem Renamed.seated {r : ResolvedPath} {e : DirEntry} {ds : Nat} {ps : Nat × Nat}
    (renamed : Renamed .plain s I ps c r e t J) (link : I.Holds ds ps c) : Seated t := by
  have wf := resting.good.wf
  refine .mounted renamed.rests (renamed.tables.cwd ▸ rooted.kept wf fun d q x link' here below => ?_)
  have isDir : J.dirs x := renamed.keeps.dirs x here fun drops => renamed.stays x drops below
  refine ⟨isDir, ?_⟩
  by_cases source : q = ps
  · subst source
    obtain rfl : x = c := link'.first.symm.trans link.first
    refine renamed.held d here ?_ link'
    by_contra dead
    exact renamed.stays x (.inl ⟨by simpa using dead, here, .self⟩) below
  · refine ⟨q, renamed.keeps.holds d q x link' ?_⟩
    rintro (same | ⟨dead, under⟩ | ⟨d', p, y, found, held, same | under⟩)
    · exact source same
    · obtain ⟨d', z, link'', sunk⟩ := under
      obtain rfl := wf.at_unique link'.toAt link''.toAt
      exact renamed.stays d (.inl ⟨dead, link'.dir, sunk⟩) (wf.below_holder link' here below)
    · subst same
      obtain rfl : x = y := link'.first.symm.trans held.first
      exact renamed.stays x (.inr ⟨d', q, x, found, held, here, .self⟩) below
    · obtain ⟨d'', z, link'', sunk⟩ := under
      obtain rfl := wf.at_unique link'.toAt link''.toAt
      exact renamed.stays d (.inr ⟨d', p, y, found, held, link'.dir, sunk⟩)
        (wf.below_holder link' here below)

theorem OpenDone.seated {now : UInt64} {path : List UInt8} {mode : UInt32} {res : Except PennFatErr Nat}
    (done : OpenDone .plain s I now path mode res t) : Seated t := by
  have wf := resting.good.wf
  obtain ⟨J, rests, cwd, opened, _⟩ := done
  refine .mounted rests (cwd ▸ ?_)
  cases opened with
  | kept keeps => exact rooted.keepsAll wf keeps
  | truncated _ link file _ keeps _ _ =>
      refine rooted.keeps wf keeps (fun d' q x link' here below same => ?_) fun _ _ => id
      subst same
      exact file (link.first.symm.trans link'.first ▸ here)

/-- `k_chdir` goes to a directory that entries lead to. -/
theorem Resting.chdir_seated {now : UInt64} {path : List UInt8} {err : PennFatErr}
    (run : kChdir now path s = some (err, t)) : Seated t := by
  obtain ⟨c, rooted', rfl⟩ := (kChdir_run (resting.pruned rooted) now path).of_eq run
  exact .mounted ⟨resting.tracks.setCwd c, resting.good, resting.idle, rooted'.dir resting.good.wf⟩ rooted'

theorem Resting.unmount_seated {err : PennFatErr} (sound : UnmountSound s)
    (run : kUnmount s = some (err, t)) : Seated t := by
  obtain ⟨u, J, _, unmounted⟩ := (kUnmount_run resting nofun).of_eq run
  have wf := resting.good.wf
  have settled := unmounted.settled
  have rootedJ := rooted.keepsAll wf settled.keeps
  obtain ⟨config, stored⟩ := unmounted.stored
  have cwd : t.gCwdBlock = s.gCwdBlock := by
    obtain ⟨fd, mapping, root, rfl⟩ := unmounted.result
    exact settled.retains.cwd
  refine .stored stored (cwd ▸ rooted.kept wf fun d q x link here below => ?_)
  have link' := settled.keeps.holds d q x link id
  have away : q.1 ≠ 1 := by
    intro first
    have row := resting.disk.dirent wf link.block link.index
    have type := (wf.target d q x link).2.mpr here
    rw [← row] at type
    have firstOf : s.disk.firstOf q = x := by
      rw [firstOf, row]
      exact link.first
    have live := link.live
    rw [← row] at live
    rw [show q = (1, q.2) from Prod.ext first rfl] at type firstOf live
    refine sound q.2 (resting.disk.slots ▸ link.index) live type ?_
    rw [firstOf]
    exact resting.below below resting.cwd
  have rowQ : (J.setRow 1 fun _ => .zero).slot q.1 = J.slot q.1 := J.setRow_ne _ away
  refine ⟨settled.keeps.dirs x here id, q, ⟨link'.dir, link'.block, link'.index⟩, ?_, link'.named, ?_⟩
  · rw [rowQ]
    exact link'.live
  · rw [rowQ]
    exact link'.first

theorem Resting.seated_step (accounted : s.Accounted none) (sound : CwdSound s call)
    (step : Step s call t) : Seated t := by
  have flag : s.gMounted = true := resting.tracks.ready.flag
  have wf := resting.good.wf
  obtain ⟨guarded, unmounts⟩ := sound
  have still : ∀ {J}, Resting .plain t J → KeepsAll I J → t.gCwdBlock = s.gCwdBlock → Seated t :=
    fun rests keeps cwd => .mounted rests (cwd ▸ rooted.keepsAll wf keeps)
  cases call with
  | mkfs fsName blocks config =>
      obtain ⟨err, run⟩ := ignore_inv step
      simp only [kMkfs, Prog.get_bind, flag, ↓reduceIte, Prog.pure_run] at run
      cases run
      exact .mounted resting rooted
  | mount fsName =>
      obtain ⟨err, run⟩ := ignore_inv step
      simp only [kMount, Prog.get_bind, flag, ↓reduceIte, Prog.pure_run] at run
      cases run
      exact .mounted resting rooted
  | unmount =>
      obtain ⟨err, run⟩ := ignore_inv step
      exact resting.unmount_seated rooted (unmounts rfl flag) run
  | openFile now path mode =>
      obtain ⟨res, run⟩ := ignore_inv step
      exact OpenDone.seated resting rooted ((kOpen_run resting accounted now path mode
        fun err d found here creates short =>
          (guarded flag creates).welcome resting found here short).of_eq run)
  | read fd n =>
      obtain ⟨res, run⟩ := ignore_inv step
      have only := kRead_only fd n _ _ _ run
      exact still (only.resting resting) (.refl I) only.cwd
  | write now fd buf n =>
      obtain ⟨res, run⟩ := ignore_inv step
      rcases (kWrite_tracks now fd buf n resting fun valid writes =>
        (guarded flag).file resting valid writes).of_eq run with rfl | ⟨_, _, J, rests, wrote, tables⟩
      · exact .mounted resting rooted
      · exact still rests wrote.keeps tables.cwd
  | close fd =>
      obtain ⟨res, run⟩ := ignore_inv step
      obtain ⟨J, rests, keeps, retains, _⟩ := (kClose_run resting fd).of_eq run
      exact still rests keeps retains.cwd
  | lseek fd offset whence =>
      obtain ⟨res, run⟩ := ignore_inv step
      have only := kLseek_only fd offset whence _ _ _ run
      exact still (only.resting resting) (.refl I) only.cwd
  | unlink now path =>
      obtain ⟨err, run⟩ := ignore_inv step
      rcases (kUnlink_run resting now path.bytes).of_eq run with
        ⟨_, rfl⟩ | ⟨d, p, c, J, _, link, file, _, removed⟩
      · exact .mounted resting rooted
      · exact removed.seated resting rooted link fun under => file (wf.tree.below_dir under.2 under.1)
  | touch now path =>
      obtain ⟨err, run⟩ := ignore_inv step
      exact Calm.seated resting rooted ((kTouch_run resting now path fun err d found here short =>
        (guarded flag).welcome resting found here short).of_eq run)
  | chmod now path perm =>
      obtain ⟨err, run⟩ := ignore_inv step
      exact Calm.seated resting rooted ((kChmod_run resting now path.bytes perm).of_eq run)
  | chdir now path =>
      obtain ⟨err, run⟩ := ignore_inv step
      exact resting.chdir_seated rooted run
  | symlink now target linkpath =>
      obtain ⟨err, run⟩ := ignore_inv step
      exact Calm.seated resting rooted ((kSymlink_run resting now target.bytes linkpath
        fun err d found here short => (guarded flag).welcome resting found here short).of_eq run)
  | mkdir now path =>
      obtain ⟨err, run⟩ := ignore_inv step
      exact Calm.seated resting rooted ((kMkdir_run resting now path fun err d found here short =>
        (guarded flag).welcome resting found here short).of_eq run)
  | rmdir now path =>
      obtain ⟨err, run⟩ := ignore_inv step
      rcases (kRmdir_run resting now path.bytes fun d p c found link here empty =>
        (guarded flag).droppable resting found link here empty).of_eq run with
        ⟨_, rfl⟩ | ⟨d, p, c, J, found, link, here, empty, removed⟩
      · exact .mounted resting rooted
      · have away := ((guarded flag).droppable resting found link here empty).cwd
        exact removed.seated resting rooted link fun under => away under.2
  | rename now oldpath newpath =>
      obtain ⟨err, run⟩ := ignore_inv step
      rcases (kRename_run resting now oldpath.bytes newpath fun ds ps c err r found link target good =>
        (guarded flag).movable resting found link target good).of_eq run with
        rfl | ⟨ds, ps, c, err, r, K, _, link, _, renamed⟩
      · exact .mounted resting rooted
      · exact renamed.seated resting rooted link

omit resting rooted in
/-- A stored volume keeps the current directory for the next mount. -/
theorem Stored.seated_step (stored : Stored .plain s config I) (rooted : I.Rooted s.gCwdBlock)
    (others : s.OthersSound .plain) (guarded : Guarded .plain s call) (step : Step s call t) :
    Seated t := by
  cases call with
  | mkfs fsName blocks size =>
      obtain ⟨err, run⟩ := ignore_inv step
      rcases kMkfs_cases stored.host stored.unmounted (guarded stored.unmounted) run with
        rfl | ⟨config', small, cwd, rfl⟩
      · exact .stored stored rooted
      · refine .stored (format_stored (s := s.useImage _) stored.host stored.unmounted small cwd) ?_
        rw [show ((s.useImage fsName.bytes).formatAs config').gCwdBlock = 1 from cwd]
        exact .root
  | mount fsName =>
      obtain ⟨err, run⟩ := ignore_inv step
      rcases stored.mount_cases others (guarded stored.unmounted) run with
        rfl | ⟨config', J, stored', which, rfl⟩
      · exact .stored stored rooted
      · refine .mounted stored'.rests ?_
        rcases which with rfl | ⟨shows, here⟩
        · exact rooted
        · exact shows.rooted stored'.rests.good.wf here
  | _ =>
      obtain rfl := unmounted_step stored.unmounted step (by rintro _ ⟨⟩) (by rintro _ _ _ ⟨⟩)
      exact .stored stored rooted

end Steps

section Runs

theorem seated_step (seated : Seated s) (others : s.OthersSound .plain) (accounted : s.Accounted none)
    (sound : CwdSound s call) (step : Step s call t) : Seated t := by
  cases seated with
  | mounted resting rooted => exact resting.seated_step rooted accounted sound step
  | stored stored rooted => exact stored.seated_step rooted others sound.1 step

theorem Seated.standing (seated : Seated s) : Standing .plain s := by
  cases seated with
  | mounted resting _ => exact .mounted resting
  | stored stored _ => exact .stored stored

/-- In runs of such calls the current directory is the root or a live directory. -/
theorem cwd_live (hostFiles : List UInt8 → Option HostFile) (fsName : List UInt8) (config : Int) (t : Fs)
    (host : HostSound .plain hostFiles fsName) (low : 0 ≤ config) (high : config ≤ 4)
    (run : Run CwdSound (freshVolume hostFiles fsName config) t) (mounted : t.gMounted = true) :
    t.disk.Dir t.gCwdBlock := by
  have fresh : (freshVolume hostFiles fsName config).gCwdBlock = 1 := by
    rw [freshVolume_eq host.named low high]
    rfl
  have start : Seated (freshVolume hostFiles fsName config) ∧
      (freshVolume hostFiles fsName config).OthersSound .plain ∧
      (freshVolume hostFiles fsName config).Accounted none :=
    ⟨.mounted (freshVolume_resting host.named low high) (fresh ▸ .root), freshVolume_others host low high,
      freshVolume_accounted host.named low high⟩
  have kept := run.keeps (P := fun s => Seated s ∧ s.OthersSound .plain ∧ s.Accounted none) start ?_
  · cases kept.1 with
    | mounted resting rooted => exact rooted.shown resting.disk resting.good.wf
    | stored stored _ =>
        rw [stored.unmounted] at mounted
        cases mounted
  rintro s call u ⟨seated, others, accounted⟩ sound step
  exact ⟨seated_step seated others accounted sound step, others_step seated.standing others
    (fun _ => sound.1) step,
    step_accounted call accounted step⟩

/-- A directory "d" is made, and becomes the current directory. -/
def enteredDirectory : List Call := [.mkdir 1 (.literal [100]), .chdir 2 (.literal [100])]

theorem cwd_live_enteredDirectory :
    ((runCalls enteredDirectory).after blankVolume).disk.Dir
      ((runCalls enteredDirectory).after blankVolume).gCwdBlock := by
  have ends : (runCalls enteredDirectory blankVolume).isSome = true := by decide +kernel
  have sound : SoundCalls CwdSound blankVolume enteredDirectory := by
    refine ⟨⟨fun _ err d run _ _ => ?_, nofun⟩, ⟨trivial, nofun⟩, trivial⟩
    exact ⟨nofun, fun asked => asked.elim nofun nofun, nofun⟩
  exact cwd_live _ imageA.bytes 0 _ (.empty (by decide)) (by decide) (by decide)
    (.of_calls (runCalls_after ends) sound)
    (by decide +kernel)

/-- The current directory "d" is removed. -/
def removedCwd : List Call := enteredDirectory ++ [.rmdir 3 (.literal [47, 100])]

/-- The current directory is a free block. -/
theorem rmdir_takes_cwd :
    ¬ ∀ (hostFiles : List UInt8 → Option HostFile) (fsName : List UInt8) (config : Int) (t : Fs),
      HostSound .plain hostFiles fsName → 0 ≤ config → config ≤ 4 →
        Run AnyCall (freshVolume hostFiles fsName config) t → t.gMounted = true →
          t.disk.Dir t.gCwdBlock := by
  intro live
  obtain ⟨t, isT⟩ : ∃ t, t = (runCalls removedCwd).after blankVolume := ⟨_, rfl⟩
  have ends : (runCalls removedCwd blankVolume).isSome = true := by decide +kernel
  have kept := live _ imageA.bytes 0 t (.empty (by decide)) (by decide) (by decide)
    (isT ▸ .of_calls (runCalls_after ends) ⟨trivial, trivial, trivial, trivial⟩)
    (by subst isT; decide +kernel)
  have cwd : t.gCwdBlock = 2 := by
    subst isT
    decide +kernel
  have single : t.disk.fat 1 = fatEoc := by
    subst isT
    decide +kernel
  have dead : ∀ i < t.disk.entriesPerBlock, (t.disk.dirent (1, i)).live = false := by
    subst isT
    decide +kernel
  have only : ∀ d, t.disk.Dir d → d = 1 := by
    intro d here
    induction here with
    | root => rfl
    | @sub d p _ on index alive _ _ ih =>
        subst ih
        rw [show p = (1, p.2) from Prod.ext (on.single single) rfl, dead p.2 index] at alive
        cases alive
  rw [cwd] at kept
  exact absurd (only 2 kept) (by decide)

end Runs

end PennOs.Fat
