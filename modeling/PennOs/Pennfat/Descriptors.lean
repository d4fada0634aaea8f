import PennOs.Fat.DescriptorUse
import PennOs.Pennfat.Commands

set_option autoImplicit false

/- Every command of `pennfat` closes the descriptors that it opened. -/
namespace PennOs.Pennfat

open Prog (Keeps Hoare)
open PennOs.Fat
open Fs
open PennOs.Shell (ascii)
open PennOs.Util (Heap ParsedCommand parseCommand)

/-- The descriptors `fds` are in use, and the counts of the system-wide table are right. -/
structure Holding (fds : Finset Nat) (s : Fs) : Prop where
  accounted : s.Accounted none
  used : s.usedFds = fds
  mounted : fds.Nonempty → s.gMounted = true

/-- The same module, with other streams or at another time. -/
def SameFs (s t : Session) : Prop := t.fs = s.fs

variable {fds : Finset Nat} {fd : Nat} {α β : Type} {timeStr : UInt64 → List UInt8}

instance instReflSameFs : Std.Refl SameFs := ⟨fun _ => rfl⟩

instance instIsTransSameFs : IsTrans Session SameFs := ⟨fun _ _ _ first second => second.trans first⟩

section Calls

theorem holding_of {p : FsM α} (accounts : Hoare (fun s => s.Accounted none) p fun _ s => s.Accounted none)
    (uses : Keeps SameUse p) (flag : Keeps SameFlag p) : Hoare (Holding fds) p fun _ => Holding fds := by
  intro s a t start run
  exact ⟨accounts s a t start.accounted run, (uses s a t run).trans start.used,
    fun some => (flag s a t run).flag.trans (start.mounted some)⟩

theorem kRead_holding (fd n : Int) : Hoare (Holding fds) (kRead fd n) fun _ => Holding fds :=
  holding_of (accounted_of_keeps (keepsRefs_only (kRead_only fd n)))
    (use_of_refs (keepsRefs_only (kRead_only fd n))) (flag_of_offsets (kRead_only fd n))

theorem kLseek_holding (fd offset whence : Int) :
    Hoare (Holding fds) (kLseek fd offset whence) fun _ => Holding fds :=
  holding_of (accounted_of_keeps (keepsRefs_only (kLseek_only fd offset whence)))
    (use_of_refs (keepsRefs_only (kLseek_only fd offset whence)))
    (flag_of_offsets (kLseek_only fd offset whence))

theorem kWrite_holding (now : UInt64) (fd : Int) (buf : Buffer) (n : Int) :
    Hoare (Holding fds) (kWrite now fd buf n) fun _ => Holding fds :=
  holding_of (accounted_of_keeps (kWrite_refs now fd buf n)) (use_of_refs (kWrite_refs now fd buf n))
    (kWrite_flag buf fd n)

theorem kOpen_holding (now : UInt64) (path : List UInt8) (mode : UInt32) :
    Hoare (Holding fds) (kOpen now path mode)
      fun r s => Holding (afterOpen fds r) s ∧ ∀ fd, r = .ok fd → fd ∉ fds := by
  intro s r t start run
  obtain ⟨used, fresh⟩ := kOpen_opens s r t start.used run
  refine ⟨⟨kOpen_accounted s r t start.accounted run, used, fun some => ?_⟩, fresh⟩
  cases r with
  | ok fd => exact kOpen_mounted run
  | error err => exact (kOpen_flag s _ t run).flag.trans (start.mounted some)

theorem kClose_holding (fds : Finset Nat) (fd : Nat) (inUse : fd ∈ fds) :
    Hoare (Holding fds) (kClose fd) fun _ => Holding (fds.erase fd) := by
  intro s a t start run
  have mounted := start.mounted ⟨fd, inUse⟩
  exact ⟨kClose_accounted fd s a t start.accounted run,
    kClose_closes fd inUse s a t ⟨mounted, start.used⟩ run,
    fun _ => (kClose_flag fd s a t run).flag.trans mounted⟩

theorem holding_none {p : FsM α} (accounts : Hoare (fun s => s.Accounted none) p fun _ s => s.Accounted none)
    (none : Hoare (fun s => s.usedFds = ∅) p fun _ s => s.usedFds = ∅) :
    Hoare (Holding ∅) p fun _ => Holding ∅ := by
  intro s a t start run
  exact ⟨accounts s a t start.accounted run, none s a t start.used run,
    fun some => absurd some Finset.not_nonempty_empty⟩

theorem holding_none_of_tables {p : FsM α} (keeps : Keeps SameTables p) :
    Hoare (Holding ∅) p fun _ => Holding ∅ :=
  holding_none (accounted_of_tables keeps) (none_of_use (use_of_tables keeps))

theorem tables_of_host {p : FsM α} (keeps : Keeps OnlyHost p) : Keeps SameTables p := by
  intro s a t run
  rw [(keeps s a t run).same]
  exact ⟨rfl, rfl, rfl, rfl, rfl⟩

theorem holding_of_host {p : FsM α} (keeps : Keeps OnlyHost p) : Hoare (Holding fds) p fun _ => Holding fds :=
  holding_of (accounted_of_tables (tables_of_host keeps)) (use_of_tables (tables_of_host keeps))
    (flag_of_host keeps)

theorem lsTarget_host (style : LsStyle) (e : DirEntry) : Keeps OnlyHost (lsTarget style e) := by
  unfold lsTarget
  refine .ite (fun _ => .pure _) fun _ => .bind (readBlock_host _) fun read => ?_
  cases read with
  | none => exact .pure _
  | some buf => exact .bind .get fun _ => .pure _

theorem lsBlock_host (style : LsStyle) (buf : Buffer) (count index : Nat) :
    Keeps OnlyHost (lsBlock style buf count index) := by
  induction count generalizing index with
  | zero => exact .pure _
  | succ count ih =>
      unfold lsBlock
      refine .ite (fun _ => .pure _) fun _ => .ite (fun _ => ih (index + 1)) fun _ => ?_
      exact .bind (lsTarget_host style _) fun _ => .bind (ih (index + 1)) fun _ => .pure _

theorem lsLoop_host (style : LsStyle) (fuel current : Nat) : Keeps OnlyHost (lsLoop style fuel current) := by
  induction fuel generalizing current with
  | zero => exact .fault
  | succ fuel ih =>
      unfold lsLoop
      refine .ite (fun _ => .pure _) fun _ => .bind (readBlock_host current) fun read => ?_
      cases read with
      | none => exact .pure _
      | some buf =>
          refine .bind .get fun s => .bind (lsBlock_host style buf _ 0) fun lines => ?_
          exact .bind (fatGet_host current) fun next => .bind (ih next) fun _ => .pure _

theorem listedDir_host (now : UInt64) (path : List UInt8) : Keeps OnlyHost (listedDir now path) := by
  unfold listedDir
  refine .bind (resolvePath_host _) fun found => .ite (fun _ => .pure _) fun _ =>
    .ite (fun _ => .pure _) fun _ => ?_
  exact .ite (fun _ => .pure _) fun _ => .ite (fun _ => .pure _) fun _ => .pure _

theorem kLs_host (timeStr : UInt64 → List UInt8) (now : UInt64) (path : List UInt8) :
    Keeps OnlyHost (kLs timeStr now path) := by
  unfold kLs
  refine .bind .get fun s => .ite (fun _ => .pure _) fun _ => .bind (listedDir_host now path) fun listed => ?_
  cases listed with
  | error err => exact .pure _
  | ok d =>
      refine .bind hostOk_host fun room => .ite (fun _ => .pure _) fun _ => ?_
      refine .bind (lsLoop_host _ _ d) fun listed => ?_
      obtain ⟨lines, failed⟩ := listed
      cases failed with
      | none => exact .pure _
      | some block => exact .pure _

theorem kLsLong_host (timeStr : UInt64 → List UInt8) (now : UInt64) (path : List UInt8) :
    Keeps OnlyHost (kLsLong timeStr now path) := by
  unfold kLsLong
  refine .bind .get fun s => .ite (fun _ => .pure _) fun _ => .bind (listedDir_host now path) fun listed => ?_
  cases listed with
  | error err => exact .pure _
  | ok d =>
      refine .bind hostOk_host fun room => .ite (fun _ => .pure _) fun _ => ?_
      refine .bind (lsLoop_host _ _ d) fun listed => ?_
      obtain ⟨lines, failed⟩ := listed
      cases failed with
      | none => exact .pure _
      | some block => exact .pure _

end Calls

section Rules

theorem holding_of_same {p : SessionM α} (keeps : Keeps SameFs p) :
    Hoare (fun s => Holding fds s.fs) p fun _ s => Holding fds s.fs := by
  intro s a t start run
  have same : t.fs = s.fs := keeps s a t run
  rw [same]
  exact start

theorem holding_pure (a : α) :
    Hoare (fun s => Holding fds s.fs) (pure a : SessionM α) fun _ s => Holding fds s.fs :=
  .pure fun _ start => start

theorem holding_call {p : FsM α} {post : α → Fs → Prop} (holds : Hoare (Holding fds) p post) :
    Hoare (fun s => Holding fds s.fs) (call p) fun a s => post a s.fs := by
  show Hoare (fun s => Holding fds (fsPart.read s)) (p.on fsPart) fun a s => post a (fsPart.read s)
  exact holds.on

theorem holding_timed {p : UInt64 → FsM α} {post : α → Fs → Prop}
    (holds : ∀ now, Hoare (Holding fds) (p now) post) :
    Hoare (fun s => Holding fds s.fs) (timed p) fun a s => post a s.fs := by
  refine .get fun s => ?_
  exact .seq (fun _ t => Holding fds t.fs) (.modify fun t start => start.2) fun _ => holding_call (holds _)

theorem printOut_same (text : List UInt8) : Keeps SameFs (printOut text) := .modify fun _ => rfl

theorem printErr_same (text : List UInt8) : Keeps SameFs (printErr text) := .modify fun _ => rfl

theorem reportFailure_same (what : List UInt8) (status : PennFatErr) :
    Keeps SameFs (reportFailure what status) :=
  .ite (fun _ => .pure _) fun _ => printErr_same _

theorem fgets_same (size : Nat) : Keeps SameFs (fgets size) := by
  unfold fgets
  refine .bind .get fun s => .ite (fun _ => .pure _) fun _ => ?_
  exact .bind (.modify fun _ => rfl) fun _ => .pure _

theorem printOut_holding (text : List UInt8) :
    Hoare (fun s => Holding fds s.fs) (printOut text) fun _ s => Holding fds s.fs :=
  holding_of_same (printOut_same text)

theorem printErr_holding (text : List UInt8) :
    Hoare (fun s => Holding fds s.fs) (printErr text) fun _ s => Holding fds s.fs :=
  holding_of_same (printErr_same text)

theorem reportFailure_holding (what : List UInt8) (status : PennFatErr) :
    Hoare (fun s => Holding fds s.fs) (reportFailure what status) fun _ s => Holding fds s.fs :=
  holding_of_same (reportFailure_same what status)

/-- A descriptor that was opened is closed behind `rest`. -/
theorem holding_closed {rest : SessionM α} {after : α → SessionM β} (fresh : fd ∉ fds)
    (body : Hoare (fun s => Holding (insert fd fds) s.fs) rest fun _ s => Holding (insert fd fds) s.fs)
    (last : ∀ a, Hoare (fun s => Holding fds s.fs) (after a) fun _ s => Holding fds s.fs) :
    Hoare (fun s => Holding (insert fd fds) s.fs)
      (do
        let a ← rest
        let _ ← call (kClose fd)
        after a) fun _ s => Holding fds s.fs := by
  refine .bind body fun a => ?_
  have closes := holding_call (kClose_holding (insert fd fds) fd (Finset.mem_insert_self fd fds))
  rw [Finset.erase_insert fresh] at closes
  exact .bind closes fun _ => last a

end Rules

section Commands

theorem writeBuffer_holding (outFd : Option Nat) (buf : List UInt8) :
    Hoare (fun s => Holding fds s.fs) (writeBuffer outFd buf) fun _ s => Holding fds s.fs := by
  unfold writeBuffer
  cases outFd with
  | none => exact .bind (printOut_holding buf) fun _ => holding_pure _
  | some fd =>
      refine .bind (holding_timed fun now => kWrite_holding now fd _ _) fun written => ?_
      cases written with
      | error err => exact holding_pure err
      | ok count => exact holding_pure _

theorem catStdin_holding (outFd : Option Nat) :
    Hoare (fun s => Holding fds s.fs) (catStdin outFd) fun _ s => Holding fds s.fs := by
  unfold catStdin
  refine .bind (holding_of_same (fgets_same bufSize)) fun read => ?_
  cases read with
  | none => exact holding_pure ()
  | some line =>
      refine .bind (writeBuffer_holding outFd _) fun err => ?_
      exact .ite (fun _ => printErr_holding _) fun _ => holding_pure ()

theorem catLoop_holding (file : CStr) (inFd : Nat) (outFd : Option Nat) (fuel : Nat) :
    Hoare (fun s => Holding fds s.fs) (catLoop file inFd outFd fuel) fun _ s => Holding fds s.fs := by
  induction fuel with
  | zero => exact .fault
  | succ fuel ih =>
      unfold catLoop
      refine .bind (holding_call (kRead_holding inFd _)) fun read => ?_
      cases read with
      | error err => exact printErr_holding _
      | ok bytes =>
          refine .ite (fun _ => holding_pure ()) fun _ =>
            .bind (writeBuffer_holding outFd bytes) fun err => ?_
          exact .ite (fun _ => printErr_holding _) fun _ => ih

theorem catFile_holding (outFd : Option Nat) (file : CStr) :
    Hoare (fun s => Holding fds s.fs) (catFile outFd file) fun _ s => Holding fds s.fs := by
  unfold catFile
  refine .bind (holding_timed fun now => kOpen_holding now file.bytes oRdonly) fun opened => ?_
  cases opened with
  | error err => exact (printErr_holding _).mono (fun _ start => start.1) fun _ _ post => post
  | ok inFd =>
      refine (Hoare.assume fun fresh => ?_).mono (fun _ start => start) fun _ _ post => post
      exact holding_closed (fresh inFd rfl) (catLoop_holding file inFd outFd copyFuel) fun _ =>
        holding_pure ()

theorem catFiles_holding (outFd : Option Nat) (files : List CStr) :
    Hoare (fun s => Holding fds s.fs) (catFiles outFd files) fun _ s => Holding fds s.fs := by
  induction files with
  | nil => exact holding_pure ()
  | cons file rest ih => exact .bind (catFile_holding outFd file) fun _ => ih

/-- What `cat` holds with its output file. -/
def withOutput (fds : Finset Nat) : Option (Option Nat) → Finset Nat
  | some (some fd) => insert fd fds
  | _ => fds

theorem openOutput_holding (found : CatArgs) :
    Hoare (fun s => Holding fds s.fs) (openOutput found)
      fun out s => Holding (withOutput fds out) s.fs ∧ ∀ fd, out = some (some fd) → fd ∉ fds := by
  have without : ∀ out : Option (Option Nat), withOutput fds out = fds → (∀ fd, out ≠ some (some fd)) →
      Hoare (fun s => Holding fds s.fs) (pure out : SessionM (Option (Option Nat)))
        fun out s => Holding (withOutput fds out) s.fs ∧ ∀ fd, out = some (some fd) → fd ∉ fds := by
    intro out same other
    refine .pure fun s start => ⟨?_, fun fd isOpen => absurd isOpen (other fd)⟩
    rw [same]
    exact start
  unfold openOutput
  cases found.outputFile with
  | none => exact without (some none) rfl (by rintro fd ⟨⟩)
  | some file =>
      refine .bind (holding_timed fun now => kOpen_holding now file.bytes _) fun opened => ?_
      cases opened with
      | error err =>
          refine .bind ((printErr_holding _).mono (fun _ start => start.1) fun _ _ post => post) fun _ => ?_
          exact without none rfl (by rintro fd ⟨⟩)
      | ok fd =>
          refine Hoare.assume fun fresh => ?_
          have kept : Hoare (fun s => Holding (insert fd fds) s.fs)
              (pure (some (some fd)) : SessionM (Option (Option Nat)))
              fun out s => Holding (withOutput fds out) s.fs ∧ ∀ fd, out = some (some fd) → fd ∉ fds := by
            refine .pure fun s start => ⟨start, ?_⟩
            rintro x ⟨⟩
            exact fresh fd rfl
          refine .ite (fun _ => kept) fun _ => .bind (holding_call (kLseek_holding fd 0 2)) fun sought => ?_
          cases sought with
          | ok offset => exact kept
          | error err =>
              refine .bind (printErr_holding _) fun _ => ?_
              have closes := holding_call (kClose_holding (insert fd fds) fd (Finset.mem_insert_self fd fds))
              rw [Finset.erase_insert (fresh fd rfl)] at closes
              exact .bind closes fun _ => without none rfl (by rintro fd ⟨⟩)

theorem cat_holding (args : List CStr) :
    Hoare (fun s => Holding fds s.fs) (cat args) fun _ s => Holding fds s.fs := by
  unfold cat
  cases catArgs args ⟨false, false, none, []⟩ with
  | error message => exact printErr_holding message
  | ok found =>
      have body : ∀ (held : Finset Nat) (outFd : Option Nat), Hoare (fun s => Holding held s.fs)
          (catInputs found outFd) fun _ s => Holding held s.fs :=
        fun held outFd => .ite (fun _ => catStdin_holding outFd) fun _ => catFiles_holding outFd _
      refine .bind (openOutput_holding found) fun out => Hoare.assume fun fresh => ?_
      rcases out with _ | _ | fd
      · exact holding_pure ()
      · exact body fds none
      · exact holding_closed (fresh fd rfl) (body (insert fd fds) (some fd)) fun _ => holding_pure ()

theorem fromHostLoop_holding (src dest : CStr) (destFd fuel pos : Nat) :
    Hoare (fun s => Holding fds s.fs) (fromHostLoop src dest destFd fuel pos) fun _ s =>
      Holding fds s.fs := by
  induction fuel generalizing pos with
  | zero => exact .fault
  | succ fuel ih =>
      unfold fromHostLoop
      refine .bind (holding_of_same .get) fun s => .ite (fun _ => holding_pure _) fun _ => ?_
      refine .bind (holding_timed fun now => kWrite_holding now _ _ _) fun written => ?_
      cases written with
      | error err => exact .bind (printErr_holding _) fun _ => holding_pure _
      | ok count => exact .ite (fun _ => .bind (printErr_holding _) fun _ => holding_pure _) fun _ => ih _

theorem cpFromHost_holding (src dest : CStr) :
    Hoare (fun s => Holding fds s.fs) (cpFromHost src dest) fun _ s => Holding fds s.fs := by
  unfold cpFromHost
  refine .bind (holding_of_same .get) fun s =>
    .ite (fun _ => .bind (printErr_holding _) fun _ => holding_pure _) fun _ => ?_
  refine .bind (holding_timed fun now => kOpen_holding now dest.bytes _) fun opened =>
    Hoare.assume fun fresh => ?_
  cases opened with
  | error err => exact .bind (printErr_holding _) fun _ => holding_pure _
  | ok destFd =>
      exact holding_closed (fresh destFd rfl) (fromHostLoop_holding src dest destFd _ 0) fun _ =>
        holding_pure _

/-- A host file that changes is no matter to the tables, even if it is the image. -/
theorem Holding.saveHostFile {u : Fs} (held : Holding fds u) (name : List UInt8) (f : HostFile) :
    Holding fds (u.saveHostFile name f) := by
  unfold Fs.saveHostFile
  split
  · exact ⟨held.accounted.of_refs ⟨fun _ => rfl, fun _ => rfl, fun _ => rfl, fun _ => rfl⟩,
      held.used, held.mounted⟩
  · exact ⟨held.accounted.of_refs ⟨fun _ => rfl, fun _ => rfl, fun _ => rfl, fun _ => rfl⟩,
      held.used, held.mounted⟩

theorem toHostLoop_holding (src dest : CStr) (srcFd fuel : Nat) :
    Hoare (fun s => Holding fds s.fs) (toHostLoop src dest srcFd fuel) fun _ s => Holding fds s.fs := by
  induction fuel with
  | zero => exact .fault
  | succ fuel ih =>
      unfold toHostLoop
      refine .bind (holding_call (kRead_holding srcFd _)) fun read => ?_
      cases read with
      | error err => exact .bind (printErr_holding _) fun _ => holding_pure _
      | ok bytes =>
          refine .ite (fun _ => holding_pure _) fun _ => ?_
          exact .bind (.modify fun _ held => held.saveHostFile _ _) fun _ => ih

theorem cpToHost_holding (src dest : CStr) :
    Hoare (fun s => Holding fds s.fs) (cpToHost src dest) fun _ s => Holding fds s.fs := by
  unfold cpToHost
  refine .bind (holding_timed fun now => kOpen_holding now src.bytes oRdonly) fun opened =>
    Hoare.assume fun fresh => ?_
  cases opened with
  | error err => exact .bind (printErr_holding _) fun _ => holding_pure _
  | ok srcFd =>
      refine .bind (holding_of_same .get) fun s => .ite (fun _ => ?_) fun _ => ?_
      · exact holding_closed (fresh srcFd rfl) (printErr_holding _) fun _ => holding_pure _
      · have emptied : Hoare (fun t : Session => Holding (insert srcFd fds) t.fs)
            (Prog.modify fun t => { t with fs := t.fs.saveHostFile dest.bytes .empty })
            fun _ t => Holding (insert srcFd fds) t.fs := .modify fun _ held => held.saveHostFile _ _
        refine .bind emptied fun _ => ?_
        exact holding_closed (fresh srcFd rfl) (toHostLoop_holding src dest srcFd copyFuel) fun _ =>
          holding_pure _

theorem insideLoop_holding (src dest : CStr) (srcFd destFd fuel : Nat) :
    Hoare (fun s => Holding fds s.fs) (insideLoop src dest srcFd destFd fuel) fun _ s =>
      Holding fds s.fs := by
  induction fuel with
  | zero => exact .fault
  | succ fuel ih =>
      unfold insideLoop
      refine .bind (holding_call (kRead_holding srcFd _)) fun read => ?_
      cases read with
      | error err => exact .bind (printErr_holding _) fun _ => holding_pure _
      | ok bytes =>
          refine .ite (fun _ => holding_pure _) fun _ =>
            .bind (holding_timed fun now => kWrite_holding now _ _ _) fun written => ?_
          cases written with
          | error err => exact .bind (printErr_holding _) fun _ => holding_pure _
          | ok count => exact .ite (fun _ => .bind (printErr_holding _) fun _ => holding_pure _) fun _ => ih

theorem cpInside_holding (src dest : CStr) :
    Hoare (fun s => Holding fds s.fs) (cpInside src dest) fun _ s => Holding fds s.fs := by
  unfold cpInside
  refine .bind (holding_timed fun now => kOpen_holding now src.bytes oRdonly) fun opened =>
    Hoare.assume fun fresh => ?_
  cases opened with
  | error err => exact .bind (printErr_holding _) fun _ => holding_pure _
  | ok srcFd =>
      have source : srcFd ∉ fds := fresh srcFd rfl
      refine .bind (holding_timed fun now => kOpen_holding now dest.bytes _) fun opened =>
        Hoare.assume fun fresh' => ?_
      cases opened with
      | error err => exact holding_closed source (printErr_holding _) fun _ => holding_pure _
      | ok destFd =>
          have dest_ : destFd ∉ insert srcFd fds := fresh' destFd rfl
          have other : destFd ≠ srcFd := fun same => dest_ (same ▸ Finset.mem_insert_self srcFd fds)
          refine .bind (insideLoop_holding src dest srcFd destFd copyFuel) fun ret => ?_
          have first := holding_call (kClose_holding (insert destFd (insert srcFd fds)) srcFd
            (Finset.mem_insert_of_mem (Finset.mem_insert_self srcFd fds)))
          rw [Finset.erase_insert_of_ne other, Finset.erase_insert source] at first
          refine .bind first fun _ => ?_
          have second :=
            holding_call (kClose_holding (insert destFd fds) destFd (Finset.mem_insert_self destFd fds))
          rw [Finset.erase_insert fun member => dest_ (Finset.mem_insert_of_mem member)] at second
          exact .bind second fun _ => holding_pure _

theorem cp_holding (args : List CStr) :
    Hoare (fun s => Holding fds s.fs) (cp args) fun _ s => Holding fds s.fs := by
  unfold cp
  cases cpArgs args with
  | error refused => exact .bind (printErr_holding _) fun _ => holding_pure _
  | ok found =>
      cases found with
      | fromHost src dest => exact cpFromHost_holding src dest
      | toHost src dest => exact cpToHost_holding src dest
      | inside src dest => exact cpInside_holding src dest

end Commands

section Sessions

theorem unmount_holding : Hoare (fun s => Holding ∅ s.fs) unmount fun _ s => Holding ∅ s.fs :=
  holding_call (holding_none kUnmount_accounted kUnmount_none)

theorem mount_holding (fsName : Option CStr) :
    Hoare (fun s => Holding ∅ s.fs) (mount fsName) fun _ s => Holding ∅ s.fs := by
  cases fsName with
  | none => exact .bind (holding_of_same .get) fun _ => holding_pure _
  | some name => exact holding_call (holding_none (kMount_accounted _) (kMount_none _))

theorem runMkfs_holding (fsName blocks config : CStr) :
    Hoare (fun s => Holding ∅ s.fs) (runMkfs fsName blocks config) fun _ s => Holding ∅ s.fs := by
  have makes : ∀ n k, Hoare (fun s => Holding ∅ s.fs) (mkfs fsName n k) fun _ s => Holding ∅ s.fs :=
    fun n k =>
    holding_call (holding_none (accounted_of_keeps (kMkfs_refs _ n k))
      (none_of_use (use_of_refs (kMkfs_refs _ n k))))
  unfold runMkfs
  refine .ite (fun _ => printErr_holding _) fun _ => .ite (fun _ => printErr_holding _) fun _ => ?_
  exact .bind (makes _ _) fun _ => reportFailure_holding _ _

theorem touch_holding (files : List CStr) :
    Hoare (fun s => Holding ∅ s.fs) (touch files) fun _ s => Holding ∅ s.fs := by
  induction files with
  | nil => exact holding_pure ()
  | cons file rest ih =>
      refine .bind (holding_timed fun now =>
        holding_none_of_tables (kTouch_tables file.bytes)) fun status => ?_
      exact .bind (reportFailure_holding _ status) fun _ => ih

theorem rm_holding (files : List CStr) :
    Hoare (fun s => Holding ∅ s.fs) (rm files) fun _ s => Holding ∅ s.fs := by
  induction files with
  | nil => exact holding_pure ()
  | cons file rest ih =>
      refine .bind (holding_timed fun now =>
        holding_none_of_tables (kUnlink_tables file.bytes)) fun status => ?_
      exact .bind (reportFailure_holding _ status) fun _ => ih

theorem chmod_holding (permStr fname : CStr) :
    Hoare (fun s => Holding ∅ s.fs) (chmod permStr fname) fun _ s => Holding ∅ s.fs := by
  unfold chmod
  cases permOf permStr.bytes with
  | none => exact .bind (printErr_holding _) fun _ => holding_pure _
  | some perm => exact holding_timed fun now => holding_none_of_tables (kChmod_tables fname.bytes perm)

theorem ls_holding (args : List CStr) :
    Hoare (fun s => Holding ∅ s.fs) (ls timeStr args) fun _ s => Holding ∅ s.fs := by
  unfold ls
  cases lsArgs args false none with
  | error message => exact printErr_holding message
  | ok found =>
      refine .bind (holding_timed fun now => holding_of_host ?_) fun printed => ?_
      · exact .ite (fun _ => kLsLong_host timeStr now _) fun _ => kLs_host timeStr now _
      · refine .bind (printOut_holding _) fun _ => .bind (printErr_holding _) fun _ => ?_
        exact reportFailure_holding _ _

theorem execCommand_holding (name : CStr) (args : List CStr) :
    Hoare (fun s => Holding ∅ s.fs) (execCommand timeStr name args) fun _ s => Holding ∅ s.fs := by
  unfold execCommand
  refine .ite (fun _ => .bind (mount_holding _) fun _ => reportFailure_holding _ _) fun _ => ?_
  refine .ite (fun _ => .bind unmount_holding fun _ => reportFailure_holding _ _) fun _ => ?_
  refine .ite (fun _ => ?_) fun _ => .ite (fun _ => ls_holding args) fun _ => ?_
  · split
    · exact runMkfs_holding _ _ _
    · exact printErr_holding _
  refine .ite (fun _ => .ite (fun _ => printErr_holding _) fun _ => touch_holding args) fun _ => ?_
  refine .ite (fun _ => ?_) fun _ => ?_
  · split
    · refine .bind (holding_timed fun now => holding_none_of_tables (kRename_tables _ _)) fun _ => ?_
      exact reportFailure_holding _ _
    · exact printErr_holding _
  refine .ite (fun _ => .ite (fun _ => printErr_holding _) fun _ => rm_holding args) fun _ => ?_
  refine .ite (fun _ => ?_) fun _ => ?_
  · split
    · exact .bind (chmod_holding _ _) fun _ => reportFailure_holding _ _
    · exact printErr_holding _
  refine .ite (fun _ => .ite (fun _ => printErr_holding _) fun _ => cat_holding args) fun _ => ?_
  refine .ite (fun _ => ?_) fun _ => printErr_holding _
  split
  · exact .bind (cp_holding _) fun _ => reportFailure_holding _ _
  · exact printErr_holding _

theorem execParsed_holding (cmd : ParsedCommand) :
    Hoare (fun s => Holding ∅ s.fs) (execParsed timeStr cmd) fun _ s => Holding ∅ s.fs := by
  unfold execParsed
  refine .ite (fun _ => printErr_holding _) fun _ => ?_
  split
  · exact execCommand_holding _ _
  · exact printErr_holding _

theorem mainTurn_holding (heap : Heap) :
    Hoare (fun s => Holding ∅ s.fs) (mainTurn heap timeStr) fun _ s => Holding ∅ s.fs := by
  unfold mainTurn
  refine .bind (printOut_holding _) fun _ => .bind (holding_of_same (fgets_same _)) fun read => ?_
  cases read with
  | none => exact holding_pure _
  | some buf =>
      refine .ite (fun _ => holding_pure _) fun _ => ?_
      split
      · exact .bind (printErr_holding _) fun _ => holding_pure _
      · exact .bind (printOut_holding _) fun _ => holding_pure _
      · exact .bind (execParsed_holding _) fun _ => holding_pure _

theorem mainLoop_holding (heap : Heap) (turns : Nat) :
    Hoare (fun s => Holding ∅ s.fs) (mainLoop heap timeStr turns) fun _ s => Holding ∅ s.fs := by
  have cleanup : Hoare (fun s => Holding ∅ s.fs) pennfatKernelCleanup fun _ s => Holding ∅ s.fs := by
    unfold pennfatKernelCleanup
    refine .bind (holding_of_same .get) fun s => .ite (fun _ => ?_) fun _ => printOut_holding _
    exact .bind unmount_holding fun _ => printOut_holding _
  induction turns with
  | zero => exact holding_pure _
  | succ turns ih =>
      unfold mainLoop
      refine .bind (mainTurn_holding heap) fun turn => ?_
      cases turn with
      | again => exact ih
      | endOfInput => exact .bind cleanup fun _ => holding_pure _
      | exitFailure => exact holding_pure _

/-- Whatever is typed, whatever the host files hold and whatever the host refuses: at every prompt no
descriptor and no entry of the system-wide table is in use. -/
theorem prompts_idle (heap : Heap) (timeStr : UInt64 → List UInt8) (hostFiles : List UInt8 → Option HostFile)
    (host : List HostOutcome) (s t : Session) (turns : Nat) (turn : Turn)
    (loaded : s.fs = Fs.loaded hostFiles host) (run : mainLoop heap timeStr turns s = some (turn, t)) :
    (∀ fd < maxFd, (t.fs.gFdTable fd).inUse = false) ∧
      ∀ i < maxSystemFiles, (t.fs.gSysfileTable i).inUse = false := by
  have start : Holding ∅ s.fs := by
    rw [loaded]
    exact ⟨zero_accounted rfl rfl, usedFds_none fun _ _ => rfl, fun some =>
      absurd some Finset.not_nonempty_empty⟩
  have held := mainLoop_holding heap turns s turn t start run
  have closed : ∀ fd < maxFd, (t.fs.gFdTable fd).inUse = false := by
    intro fd low
    by_contra inUse
    have member := mem_usedFds.mpr ⟨low, by simpa using inUse⟩
    rw [held.used] at member
    cases member
  exact ⟨closed, (held.accounted.noneOpen closed).files⟩

/-- `pennfat` as it is started, with what is typed. -/
def started (stdin : List UInt8) : Session where
  fs := Fs.bare
  clock := UInt64.ofNat
  ticks := 0
  stdin := stdin
  stdout := []
  stderr := []
  writable := fun _ => false

/-- A file is made, written and copied to the terminal. -/
def typed : List UInt8 := ascii "mkfs i 1 0\nmount i\ncat -w a\nhi\ncat a b\n"

theorem typed_ends : (mainLoop ⟨true, true, 0⟩ (fun _ => []) 6 (started typed)).map Prod.fst =
    some .endOfInput := by
  decide +kernel

theorem prompts_idle_typed :
    (∀ fd < maxFd, (((mainLoop ⟨true, true, 0⟩ (fun _ => []) 6).after (started typed)).fs.gFdTable fd).inUse = false) ∧
      ∀ i < maxSystemFiles,
        (((mainLoop ⟨true, true, 0⟩ (fun _ => []) 6).after (started typed)).fs.gSysfileTable
        i).inUse = false :=
  prompts_idle ⟨true, true, 0⟩ (fun _ => []) (fun _ => none) [] (started typed) _ 6 .endOfInput rfl
    (Prog.run_after typed_ends)

end Sessions

end PennOs.Pennfat
