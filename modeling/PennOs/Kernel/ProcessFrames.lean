import PennOs.Kernel.QueueTable
import PennOs.Kernel.Lifecycle

set_option autoImplicit false

/- What an event changes in a PCB that existed before it. -/
namespace PennOs.Kernel

open Prog (Keeps)

variable {k k' k'' : KernelState} {ptr self target : PcbPtr} {level : Level} {pcb pcb' : Pcb}

/-- The PCB of the thread that makes the call. -/
def Event.caller : Event → Option PcbPtr
  | .spawnShell self | .shellReturned self | .initResumed self _ | .procCreate self _
  | .setRoutineAndRun self _ | .kill self _ _ | .selfStopResumed self | .exit self
  | .sleep self _ | .sleepResumed self | .waitpid self _ _ | .waitpidJoined self _
  | .waitpidReap self _ | .nice self _ _ => some self
  | .maintenancePass | .pick _ | .idleTick | .quantumEnd => none

/-- The PCB that a search of the vector by PID finds. -/
def KernelState.resolved (k : KernelState) (pid : Int) : Option Pcb :=
  match pcbVecSeekPcbByPid pid k with
  | some (some target, _) => k.pcbs target
  | _ => none

theorem resolved_of_seek {pid : Int} (seek : pcbVecSeekPcbByPid pid k = some (some target, k'))
    (found : k.pcbs target = some pcb) : k.resolved pid = some pcb := by
  simp only [KernelState.resolved, seek, found]

/-- Status and thread. -/
def Pcb.SameRun (pcb pcb' : Pcb) : Prop := pcb'.status = pcb.status ∧ pcb'.thrd = pcb.thrd

/-- Only `caller` gets another status or thread. -/
structure SameBut (caller : PcbPtr) (k k' : KernelState) : Prop where
  nextPtr : k.nextPtr ≤ k'.nextPtr
  pcb : ∀ ptr pcb', ptr < k.nextPtr → k'.pcbs ptr = some pcb' → ∃ pcb, k.pcbs ptr = some pcb ∧
    pcb'.pid = pcb.pid ∧ (pcb.thrd ≠ .absent → pcb'.thrd ≠ .absent) ∧
    (ptr ≠ caller → pcb.SameRun pcb')

/-- The ways in which an event changes status and thread of a PCB. -/
inductive Touch (k : KernelState) (event : Event) (ptr : PcbPtr) (pcb pcb' : Pcb) : Prop
  | own (calls : event.caller = some ptr) (live : pcb.thrd = .live) (thread : pcb'.thrd ≠ .absent)
  | started (self : PcbPtr) (isStart : event = .setRoutineAndRun self ptr)
      (absent : pcb.thrd = .absent)
  | stopped (self : PcbPtr) (isStop : event = .kill self pcb.pid pSigstop)
      (listed : ptr ∈ k.allUnreapedPcbVector) (status : pcb'.status = .stopped)
      (thread : pcb'.thrd = pcb.thrd)
  | continued (self : PcbPtr) (isCont : event = .kill self pcb.pid pSigcont)
      (listed : ptr ∈ k.allUnreapedPcbVector) (before : pcb.status = .stopped)
      (status : pcb'.status = .running) (thread : pcb'.thrd = pcb.thrd)
  | terminated (self : PcbPtr) (isTerm : event = .kill self pcb.pid pSigterm)
      (listed : ptr ∈ k.allUnreapedPcbVector) (before : pcb.status ≠ .zombie)
      (thread : pcb.thrd ≠ .absent) (status : pcb'.status = .zombie) (ended : pcb'.thrd = .ended)
  | woken (scheduler : event.caller = none) (before : pcb.status = .blocked)
      (status : pcb'.status = .running) (thread : pcb'.thrd = pcb.thrd)
  | reaped (self : PcbPtr) (isReap : event = .waitpidReap self ptr) (before : pcb.status = .zombie)
      (status : pcb'.status = .reaped) (thread : pcb'.thrd = pcb.thrd)

section Frames

theorem Pcb.SameRun.refl (pcb : Pcb) : pcb.SameRun pcb := ⟨rfl, rfl⟩

theorem SameBut.of_pcbs (pcbs : k'.pcbs = k.pcbs) (nextPtr : k'.nextPtr = k.nextPtr) :
    SameBut self k k' :=
  ⟨Nat.le_of_eq nextPtr.symm, fun _ pcb' _ found => ⟨pcb', pcbs ▸ found, rfl, id,
    fun _ => .refl pcb'⟩⟩

instance : Std.Refl (SameBut self) where
  refl _ := .of_pcbs rfl rfl

instance : IsTrans KernelState (SameBut self) where
  trans k k' k'' first second := by
    refine ⟨Nat.le_trans first.nextPtr second.nextPtr, fun ptr pcb'' old found'' => ?_⟩
    have old' : ptr < k'.nextPtr := Nat.lt_of_lt_of_le old first.nextPtr
    obtain ⟨pcb', found', pid', thread', same'⟩ := second.pcb ptr pcb'' old' found''
    obtain ⟨pcb, found, pid, thread, same⟩ := first.pcb ptr pcb' old found'
    exact ⟨pcb, found, pid'.trans pid, fun present => thread' (thread present), fun apart =>
      ⟨(same' apart).1.trans (same apart).1, (same' apart).2.trans (same apart).2⟩⟩

theorem SameBut.setPcb (found : k.pcbs ptr = some pcb) (pid : pcb'.pid = pcb.pid)
    (thread : pcb.thrd ≠ .absent → pcb'.thrd ≠ .absent)
    (same : ptr ≠ self → pcb.SameRun pcb') : SameBut self k (k.setPcb ptr pcb') := by
  refine ⟨Nat.le_refl _, fun other otherPcb _ found' => ?_⟩
  rw [setPcb_pcbs] at found'
  split at found'
  · next here =>
      cases found'
      exact ⟨pcb, here ▸ found, pid, thread, fun apart => same (here ▸ apart)⟩
  · exact ⟨otherPcb, found', rfl, id, fun _ => .refl otherPcb⟩

/-- An update of the calling thread's own PCB. -/
theorem update_sameBut {f : Pcb → Pcb} (pid : ∀ pcb, (f pcb).pid = pcb.pid)
    (thread : ∀ pcb, pcb.thrd ≠ .absent → (f pcb).thrd ≠ .absent) :
    Keeps (SameBut self) (update self f) := by
  intro k _ k' run
  obtain ⟨pcb, found, rfl⟩ := update_inv run
  exact .setPcb found (pid pcb) (thread pcb) fun apart => absurd rfl apart

/-- An update of any PCB that is not about its run. -/
theorem update_sameRun {f : Pcb → Pcb} (pid : ∀ pcb, (f pcb).pid = pcb.pid)
    (same : ∀ pcb : Pcb, pcb.SameRun (f pcb)) : Keeps (SameBut self) (update ptr f) := by
  intro k _ k' run
  obtain ⟨pcb, found, rfl⟩ := update_inv run
  refine .setPcb found (pid pcb) (fun present => ?_) fun _ => same pcb
  rw [(same pcb).2]
  exact present

theorem SameBut.of_sameButLinks (links : SameButLinks k k') : SameBut self k k' := by
  refine ⟨Nat.le_of_eq links.nextPtr.symm, fun ptr pcb' _ found => ?_⟩
  obtain ⟨pcb, before, core⟩ := links.pcb found
  have thread := Pcb.core_thrd core
  exact ⟨pcb, before, Pcb.core_pid core, fun present => thread ▸ present,
    fun _ => ⟨Pcb.core_status core, thread⟩⟩

theorem deref_sameBut : Keeps (SameBut self) (deref ptr) :=
  .of_state fun _ _ _ run => (deref_inv run).2

theorem require_sameBut {condition : Prop} [Decidable condition] :
    Keeps (SameBut self) (require condition) := .of_state fun _ _ _ run => (require_inv run).2

theorem asCaller_sameBut : Keeps (SameBut self) (asCaller ptr) :=
  .of_state fun _ _ _ run => (asCaller_inv run).2.2.2

theorem pcbVecSeekPcbByPid_sameBut {pid : Int} :
    Keeps (SameBut self) (pcbVecSeekPcbByPid pid) :=
  .of_state fun _ _ _ run => (pcbVecSeekPcbByPid_inv run).1

end Frames

section Calls

theorem shellReturned_sameBut : Keeps (SameBut self) (shellReturned self) :=
  .bind asCaller_sameBut fun _ => .bind require_sameBut fun _ =>
    update_sameBut (fun _ => rfl) fun _ _ => nofun

theorem initResumed_sameBut {shell : PcbPtr} : Keeps (SameBut self) (initResumed self shell) :=
  .bind asCaller_sameBut fun _ => .bind .get fun _ => .bind deref_sameBut fun _ =>
    .bind require_sameBut fun _ => .bind (.modify fun _ => .of_pcbs rfl rfl) fun _ =>
    update_sameBut (fun _ => rfl) fun _ => id

theorem disconnectLoop_sameBut (pids : List Int) :
    Keeps (SameBut self) (disconnectLoop pids) := by
  induction pids with
  | nil => exact .pure ()
  | cons pid rest ih =>
      apply Keeps.bind pcbVecSeekPcbByPid_sameBut
      intro found
      cases found with
      | none => exact ih
      | some child => exact .bind (update_sameRun (fun _ => rfl) fun _ => ⟨rfl, rfl⟩) fun _ => ih

theorem pcbDisconnectChild_sameBut : Keeps (SameBut self) (pcbDisconnectChild ptr) :=
  .bind deref_sameBut fun _ => .bind (disconnectLoop_sameBut _) fun _ =>
    update_sameRun (fun _ => rfl) fun _ => ⟨rfl, rfl⟩

theorem selfStopResumed_sameBut : Keeps (SameBut self) (selfStopResumed self) :=
  .bind asCaller_sameBut fun _ => .bind .get fun _ => .bind require_sameBut fun _ =>
    .bind (.modify fun _ => .of_pcbs rfl rfl) fun _ => update_sameBut (fun _ => rfl) fun _ => id

theorem kExit_sameBut : Keeps (SameBut self) (kExit self) :=
  .bind asCaller_sameBut fun _ => .bind (update_sameBut (fun _ => rfl) fun _ => id) fun _ =>
    .bind pcbDisconnectChild_sameBut fun _ => update_sameBut (fun _ => rfl) fun _ _ => nofun

theorem kSleep_sameBut {length : UInt32} : Keeps (SameBut self) (kSleep self length) :=
  .bind asCaller_sameBut fun _ => .bind .get fun _ =>
    .bind (update_sameBut (fun _ => rfl) fun _ => id) fun _ => .modify fun _ => .of_pcbs rfl rfl

theorem kSleepResumed_sameBut : Keeps (SameBut self) (kSleepResumed self) :=
  .bind asCaller_sameBut fun _ => .bind .get fun _ => .bind require_sameBut fun _ =>
    .bind (.modify fun _ => .of_pcbs rfl rfl) fun _ => update_sameBut (fun _ => rfl) fun _ => id

theorem kWaitpid_sameBut {pid : Int} {nohang : Bool} :
    Keeps (SameBut self) (kWaitpid self pid nohang) := by
  refine .bind require_sameBut fun _ => .bind asCaller_sameBut fun _ => .bind .get fun _ =>
    .bind (.of_state fun _ _ _ run => seekChild_state run) fun child => ?_
  cases child with
  | none => exact .bind (.modify fun _ => .of_pcbs rfl rfl) fun _ => .pure _
  | some child =>
      refine .bind deref_sameBut fun _ => .ite (fun _ => .pure _) fun _ => ?_
      exact .bind (update_sameBut (fun _ => rfl) fun _ => id) fun _ =>
        .bind (.modify fun _ => .of_pcbs rfl rfl) fun _ => .pure _

theorem kWaitpidJoined_sameBut {child : PcbPtr} :
    Keeps (SameBut self) (kWaitpidJoined self child) :=
  .bind asCaller_sameBut fun _ => .bind .get fun _ => .bind deref_sameBut fun _ =>
    .bind require_sameBut fun _ => .bind (.modify fun _ => .of_pcbs rfl rfl) fun _ =>
    update_sameBut (fun _ => rfl) fun _ => id

theorem kNice_sameBut {pid newPriority : Int} : Keeps (SameBut self) (kNice self pid newPriority) := by
  apply Keeps.bind asCaller_sameBut
  intro _
  split
  swap
  · exact .pure _
  apply Keeps.bind pcbVecSeekPcbByPid_sameBut
  intro found
  cases found with
  | none => exact .pure _
  | some target =>
      exact .bind (update_sameRun (fun _ => rfl) fun _ => ⟨rfl, rfl⟩) fun _ => .pure _

theorem pcbAddChildPid_sameBut {pid : Int} : Keeps (SameBut self) (pcbAddChildPid ptr pid) := by
  intro k _ k' run
  obtain ⟨pcb, k₁, read, run⟩ := Prog.bind_inv run
  obtain ⟨found, rfl⟩ := deref_inv read
  obtain ⟨_, k₂, checked, run⟩ := Prog.bind_inv run
  obtain ⟨_, rfl⟩ := require_inv checked
  simp only [Prog.modify_run, Option.some.injEq, Prod.mk.injEq, true_and] at run
  exact run ▸ .setPcb found rfl id fun _ => ⟨rfl, rfl⟩

theorem allocate_sameBut (pcb : Pcb) : SameBut self k (k.allocate pcb) := by
  refine ⟨Nat.le_succ _, fun other pcb' old found => ?_⟩
  rw [allocate_pcbs, if_neg (Nat.ne_of_lt old)] at found
  exact ⟨pcb', found, rfl, id, fun _ => .refl pcb'⟩

theorem pcbInitEmpty_sameBut {priority : Level} {pid : Int} :
    Keeps (SameBut self) (pcbInitEmpty ptr priority pid) :=
  .bind deref_sameBut fun _ => .bind .get fun _ =>
    .bind (.modify fun _ => allocate_sameBut _) fun _ => .bind pcbAddChildPid_sameBut fun _ =>
    .pure _

theorem pcbInitEmpty_result {priority : Level} {pid : Int} {new : PcbPtr}
    (run : pcbInitEmpty ptr priority pid k = some (new, k')) : new = k.nextPtr := by
  obtain ⟨_, k₁, read, run⟩ := Prog.bind_inv run
  obtain ⟨_, rfl⟩ := deref_inv read
  simp only [Prog.get_bind, Prog.modify_bind] at run
  obtain ⟨_, k₂, _, run⟩ := Prog.bind_inv run
  simp only [Prog.pure_run, Option.some.injEq, Prod.mk.injEq] at run
  exact run.1.symm

theorem pcbVecPushBack_sameBut : Keeps (SameBut self) (pcbVecPushBack ptr) :=
  .modify fun _ => .of_pcbs rfl rfl

theorem kProcCreate_sameBut {priority : Level} : Keeps (SameBut self) (kProcCreate self priority) :=
  .bind asCaller_sameBut fun _ => .bind (.of_state fun _ _ _ run => getNextFreePid_state run)
    fun _ => .bind pcbInitEmpty_sameBut fun _ => .bind pcbVecPushBack_sameBut fun _ => .pure _

/-- A PCB that did not exist yet may be changed freely. -/
theorem SameBut.setPcb_new (new : k.nextPtr ≤ ptr) (same : SameBut self k k') :
    SameBut self k (k'.setPcb ptr pcb) := by
  refine ⟨same.nextPtr, fun other pcb' old found => ?_⟩
  have apart : other ≠ ptr := Nat.ne_of_lt (Nat.lt_of_lt_of_le old new)
  rw [setPcb_pcbs, if_neg apart] at found
  exact same.pcb other pcb' old found

theorem spawnShell_sameBut : Keeps (SameBut self) (spawnShell self) := by
  intro k _ k' run
  obtain ⟨_, k₁, called, run⟩ := Prog.bind_inv run
  obtain ⟨_, _, _, rfl⟩ := asCaller_inv called
  simp only [Prog.get_bind] at run
  obtain ⟨_, k₂, checked, run⟩ := Prog.bind_inv run
  obtain ⟨_, rfl⟩ := require_inv checked
  rw [Prog.modify_bind] at run
  obtain ⟨shell, k₃, made, run⟩ := Prog.bind_inv run
  have result := pcbInitEmpty_result made
  have spawned : SameBut self k k.setShellSpawned := .of_pcbs rfl rfl
  have making : SameBut self k k₃ := IsTrans.trans _ _ _ spawned (pcbInitEmpty_sameBut _ _ _ made)
  obtain ⟨_, k₄, started, run⟩ := Prog.bind_inv run
  obtain ⟨shellPcb, _, rfl⟩ := update_inv started
  have new : k.nextPtr ≤ shell := Nat.le_of_eq result.symm
  have starting : ∀ pcb, SameBut self k (k₃.setPcb shell pcb) := fun _ => making.setPcb_new new
  have rest : Keeps (SameBut self) (pcbVecPushBack shell >>= fun _ => pcbQueuePush 0 shell >>=
      fun _ => update self (fun pcb => { pcb with status := .blocked }) >>= fun _ =>
      Prog.modify fun k => k.setPending (.initJoin self shell :: k.pending)) :=
    .bind pcbVecPushBack_sameBut fun _ =>
      .bind (fun _ _ _ run => .of_sameButLinks (pcbQueuePush_frame run)) fun _ =>
      .bind (update_sameBut (fun _ => rfl) fun _ => id) fun _ => .modify fun _ => .of_pcbs rfl rfl
  exact IsTrans.trans _ _ _ (starting _) (rest _ _ _ run)

end Calls

section Events

/-- What one event may do to the PCBs that existed before it. -/
structure Touches (k : KernelState) (event : Event) (k' : KernelState) : Prop where
  nextPtr : k.nextPtr ≤ k'.nextPtr
  pcb : ∀ ptr pcb', ptr < k.nextPtr → k'.pcbs ptr = some pcb' → ∃ pcb, k.pcbs ptr = some pcb ∧
    pcb'.pid = pcb.pid ∧ (pcb.SameRun pcb' ∨ Touch k event ptr pcb pcb')

variable {event : Event}

theorem SameBut.touches (same : SameBut self k k') (calls : event.caller = some self)
    (live : ∀ pcb, k.pcbs self = some pcb → pcb.thrd = .live) : Touches k event k' := by
  refine ⟨same.nextPtr, fun ptr pcb' old found' => ?_⟩
  obtain ⟨pcb, found, pid, thread, same⟩ := same.pcb ptr pcb' old found'
  refine ⟨pcb, found, pid, ?_⟩
  by_cases here : ptr = self
  · subst here
    have runs := live pcb found
    exact .inr (.own calls runs (thread (runs ▸ nofun)))
  · exact .inl (same here)

/-- An event that changes the run of no PCB. -/
theorem Touches.of_same (same : ∀ caller, SameBut caller k k') : Touches k event k' := by
  refine ⟨(same 0).nextPtr, fun ptr pcb' old found' => ?_⟩
  obtain ⟨pcb, found, pid, _, run⟩ := (same (ptr + 1)).pcb ptr pcb' old found'
  exact ⟨pcb, found, pid, .inl (run (Nat.ne_of_lt (Nat.lt_succ_self ptr)))⟩

theorem Touch.of_sameRun {pcb'' : Pcb} (touch : Touch k event ptr pcb pcb')
    (same : pcb'.SameRun pcb'') : Touch k event ptr pcb pcb'' := by
  obtain ⟨status, thrd⟩ := same
  cases touch with
  | own calls live thread => exact .own calls live (thrd ▸ thread)
  | started self isStart absent => exact .started self isStart absent
  | stopped self isStop listed after thread =>
      exact .stopped self isStop listed (status.trans after) (thrd.trans thread)
  | continued self isCont listed before after thread =>
      exact .continued self isCont listed before (status.trans after) (thrd.trans thread)
  | terminated self isTerm listed before present after ended =>
      exact .terminated self isTerm listed before present (status.trans after) (thrd.trans ended)
  | woken scheduler before after thread =>
      exact .woken scheduler before (status.trans after) (thrd.trans thread)
  | reaped self isReap before after thread =>
      exact .reaped self isReap before (status.trans after) (thrd.trans thread)

/-- One PCB is touched; what follows changes no run. -/
theorem Touches.of_setPcb (found : k.pcbs ptr = some pcb)
    (calm : ∀ caller, SameBut caller (k.setPcb ptr pcb') k') (pid : pcb'.pid = pcb.pid)
    (touch : Touch k event ptr pcb pcb') : Touches k event k' := by
  refine ⟨(calm 0).nextPtr, fun other otherPcb old found' => ?_⟩
  obtain ⟨mid, midFound, midPid, _, run⟩ := (calm (other + 1)).pcb other otherPcb old found'
  have same := run (Nat.ne_of_lt (Nat.lt_succ_self other))
  rw [setPcb_pcbs] at midFound
  split at midFound
  · next here =>
      cases midFound
      exact ⟨pcb, here ▸ found, midPid.trans pid, .inr (here ▸ touch.of_sameRun same)⟩
  · exact ⟨mid, midFound, midPid, .inl same⟩

theorem kKill_touches {pid sig : Int} (run : kKill self pid sig k = some ((), k')) :
    Touches k (.kill self pid sig) k' := by
  obtain ⟨selfPcb, k₁, called, run⟩ := Prog.bind_inv run
  obtain ⟨selfFound, live, _, rfl⟩ := asCaller_inv called
  have unchanged : Touches k (.kill self pid sig) k := .of_same fun _ => .of_pcbs rfl rfl
  obtain ⟨found, k₂, searched, run⟩ := Prog.bind_inv run
  obtain ⟨rfl, isTarget⟩ := pcbVecSeekPcbByPid_inv searched
  cases found with
  | none =>
      simp only [Prog.pure_run, Option.some.injEq, Prod.mk.injEq, true_and] at run
      exact run ▸ unchanged
  | some target =>
      obtain ⟨listed, pcb, found, isPid⟩ := isTarget target rfl
      obtain ⟨pcb₁, k₃, read, run⟩ := Prog.bind_inv run
      obtain ⟨found₁, rfl⟩ := deref_inv read
      obtain rfl := Option.some.inj (found.symm.trans found₁)
      by_cases isStop : sig = pSigstop
      · rw [if_pos isStop] at run
        by_cases running : pcb.status = .running
        swap
        · rw [if_neg running] at run
          cases run
          exact unchanged
        rw [if_pos running] at run
        obtain ⟨_, k₄, checked, run⟩ := Prog.bind_inv run
        obtain ⟨_, rfl⟩ := require_inv checked
        by_cases own : target = self
        · rw [if_pos own] at run
          cases run
          exact .of_same fun _ => .of_pcbs rfl rfl
        · rw [if_neg own] at run
          obtain ⟨pcb₂, found₂, rfl⟩ := update_inv run
          obtain rfl := Option.some.inj (found.symm.trans found₂)
          refine .of_setPcb found (fun _ => .of_pcbs rfl rfl) rfl (.stopped self ?_ listed rfl rfl)
          rw [isStop, isPid]
      rw [if_neg isStop] at run
      by_cases isCont : sig = pSigcont
      · rw [if_pos isCont] at run
        by_cases stopped : pcb.status = .stopped
        swap
        · rw [if_neg stopped] at run
          cases run
          exact unchanged
        rw [if_pos stopped] at run
        obtain ⟨pcb₂, found₂, rfl⟩ := update_inv run
        obtain rfl := Option.some.inj (found.symm.trans found₂)
        refine .of_setPcb found (fun _ => .of_pcbs rfl rfl) rfl
          (.continued self ?_ listed stopped rfl rfl)
        rw [isCont, isPid]
      rw [if_neg isCont] at run
      by_cases isTerm : sig = pSigterm
      swap
      · rw [if_neg isTerm] at run
        cases run
        exact unchanged
      rw [if_pos isTerm] at run
      by_cases zombie : pcb.status ≠ .zombie
      swap
      · rw [if_neg zombie] at run
        cases run
        exact unchanged
      rw [if_pos zombie] at run
      obtain ⟨_, k₄, checked, run⟩ := Prog.bind_inv run
      obtain ⟨present, rfl⟩ := require_inv checked
      obtain ⟨_, k₅, cancelled, run⟩ := Prog.bind_inv run
      obtain ⟨pcb₂, found₂, rfl⟩ := update_inv cancelled
      obtain rfl := Option.some.inj (found.symm.trans found₂)
      by_cases other : target ≠ self
      · rw [if_pos other] at run
        obtain ⟨_, k₆, ended, run⟩ := Prog.bind_inv run
        obtain ⟨pcb₃, found₃, rfl⟩ := update_inv ended
        rw [setPcb_pcbs, if_pos rfl, Option.some.injEq] at found₃
        subst found₃
        have twice : ∀ pcb', (k.setPcb target { pcb with thrd := .ended }).setPcb target pcb' =
            k.setPcb target pcb' := by
          intro pcb'
          simp only [KernelState.setPcb, Function.update_idem]
        rw [twice] at run
        refine .of_setPcb found (fun _ => pcbDisconnectChild_sameBut _ _ _ run) rfl
          (.terminated self ?_ listed zombie present rfl rfl)
        rw [isTerm, isPid]
      · rw [if_neg other] at run
        cases run
        obtain rfl := Decidable.not_not.mp other
        obtain rfl := Option.some.inj (found.symm.trans selfFound)
        exact .of_setPcb found (fun _ => .of_pcbs rfl rfl) rfl (.own rfl live (by rintro ⟨⟩))

theorem setRoutineAndRun_touches (run : setRoutineAndRun self target k = some ((), k')) :
    Touches k (.setRoutineAndRun self target) k' := by
  obtain ⟨_, k₁, called, run⟩ := Prog.bind_inv run
  obtain ⟨_, _, _, rfl⟩ := asCaller_inv called
  obtain ⟨pcb, k₂, read, run⟩ := Prog.bind_inv run
  obtain ⟨found, rfl⟩ := deref_inv read
  obtain ⟨_, k₃, checked, run⟩ := Prog.bind_inv run
  obtain ⟨absent, rfl⟩ := require_inv checked
  obtain ⟨_, k₄, started, run⟩ := Prog.bind_inv run
  obtain ⟨pcb₁, found₁, rfl⟩ := update_inv started
  obtain rfl := Option.some.inj (found.symm.trans found₁)
  obtain ⟨_, k₅, read', queued⟩ := Prog.bind_inv run
  obtain ⟨_, rfl⟩ := deref_inv read'
  exact .of_setPcb found (fun _ => .of_sameButLinks (pcbQueuePush_frame queued)) rfl
    (.started self rfl absent)

theorem kWaitpidReap_touches {result : Int} (run : kWaitpidReap self target k = some (result, k')) :
    Touches k (.waitpidReap self target) k' := by
  obtain ⟨_, k₁, called, run⟩ := Prog.bind_inv run
  obtain ⟨_, _, _, rfl⟩ := asCaller_inv called
  simp only [Prog.get_bind] at run
  obtain ⟨_, k₂, checked, run⟩ := Prog.bind_inv run
  obtain ⟨_, rfl⟩ := require_inv checked
  rw [Prog.modify_bind] at run
  obtain ⟨pcb, k₃, read, run⟩ := Prog.bind_inv run
  obtain ⟨found, rfl⟩ := deref_inv read
  obtain ⟨_, k₄, checked', run⟩ := Prog.bind_inv run
  obtain ⟨zombie, rfl⟩ := require_inv checked'
  obtain ⟨_, k₅, marked, run⟩ := Prog.bind_inv run
  obtain ⟨pcb₁, found₁, rfl⟩ := update_inv marked
  obtain rfl := Option.some.inj (found.symm.trans found₁)
  simp only [Prog.pure_run, Option.some.injEq, Prod.mk.injEq] at run
  have calm : ∀ caller, SameBut caller (k.setPcb target { pcb with status := .reaped }) k' :=
    fun _ => run.2 ▸ .of_pcbs rfl rfl
  exact .of_setPcb (show k.pcbs target = some pcb from found) calm rfl
    (.reaped self rfl zombie rfl rfl)

/-- Statuses change only where a sleeper wakes up. -/
structure Wakes (k k' : KernelState) : Prop where
  nextPtr : k'.nextPtr = k.nextPtr
  pcb : ∀ ptr pcb', k'.pcbs ptr = some pcb' → ∃ pcb, k.pcbs ptr = some pcb ∧
    pcb'.pid = pcb.pid ∧
    (pcb.SameRun pcb' ∨ pcb.status = .blocked ∧ pcb'.status = .running ∧ pcb'.thrd = pcb.thrd)

theorem Wakes.of_pcbs (pcbs : k'.pcbs = k.pcbs) (nextPtr : k'.nextPtr = k.nextPtr) : Wakes k k' :=
  ⟨nextPtr, fun _ pcb found => ⟨pcb, pcbs ▸ found, rfl, .inl (.refl pcb)⟩⟩

theorem Wakes.of_sameButLinks (links : SameButLinks k k') : Wakes k k' := by
  refine ⟨links.nextPtr, fun ptr pcb' found => ?_⟩
  obtain ⟨pcb, before, core⟩ := links.pcb found
  exact ⟨pcb, before, Pcb.core_pid core, .inl ⟨Pcb.core_status core, Pcb.core_thrd core⟩⟩

instance : Std.Refl Wakes where
  refl _ := .of_pcbs rfl rfl

instance : IsTrans KernelState Wakes where
  trans k k' k'' first second := by
    refine ⟨second.nextPtr.trans first.nextPtr, fun ptr pcb'' found'' => ?_⟩
    obtain ⟨pcb', found', pid', run'⟩ := second.pcb ptr pcb'' found''
    obtain ⟨pcb, found, pid, run⟩ := first.pcb ptr pcb' found'
    refine ⟨pcb, found, pid'.trans pid, ?_⟩
    rcases run with ⟨status, thrd⟩ | ⟨blocked, running, thrd⟩ <;>
      rcases run' with ⟨status', thrd'⟩ | ⟨blocked', running', thrd'⟩
    · exact .inl ⟨status'.trans status, thrd'.trans thrd⟩
    · exact .inr ⟨status.symm.trans blocked', running', thrd'.trans thrd⟩
    · exact .inr ⟨blocked, status'.trans running, thrd'.trans thrd⟩
    · rw [running] at blocked'
      cases blocked'

theorem Wakes.wake (found : k.pcbs ptr = some pcb) (blocked : pcb.status = .blocked) :
    Wakes k (k.setPcb ptr { pcb with status := .running }) := by
  refine ⟨rfl, fun other otherPcb found' => ?_⟩
  rw [setPcb_pcbs] at found'
  split at found'
  · next here =>
      cases found'
      exact ⟨pcb, here ▸ found, rfl, .inr ⟨blocked, rfl, rfl⟩⟩
  · exact ⟨otherPcb, found', rfl, .inl (.refl otherPcb)⟩

theorem Wakes.touches (wakes : Wakes k k') (scheduler : event.caller = none) :
    Touches k event k' := by
  refine ⟨Nat.le_of_eq wakes.nextPtr.symm, fun ptr pcb' _ found' => ?_⟩
  obtain ⟨pcb, found, pid, run⟩ := wakes.pcb ptr pcb' found'
  refine ⟨pcb, found, pid, ?_⟩
  rcases run with same | ⟨blocked, running, thrd⟩
  · exact .inl same
  · exact .inr (.woken scheduler blocked running thrd)

theorem pcbQueuePush_wakes : Keeps Wakes (pcbQueuePush level ptr) :=
  fun _ _ _ run => .of_sameButLinks (pcbQueuePush_frame run)

theorem pcbVecRemoveByPcb_wakes : Keeps Wakes (pcbVecRemoveByPcb ptr) :=
  .modify fun _ => .of_pcbs rfl rfl

theorem pcbDestroy_wakes : Keeps Wakes (pcbDestroy ptr) := by
  refine .modify fun k => ⟨rfl, fun other pcb found => ?_⟩
  change Function.update k.pcbs ptr none other = some pcb at found
  by_cases here : other = ptr
  · subst here
    rw [Function.update_self] at found
    cases found
  · rw [Function.update_of_ne here] at found
    exact ⟨pcb, found, rfl, .inl (.refl pcb)⟩

theorem maintain_wakes : Keeps Wakes (maintain ptr) := by
  intro k gone k' run
  obtain ⟨pcb, k₁, read, run⟩ := Prog.bind_inv run
  obtain ⟨found, rfl⟩ := deref_inv read
  rw [Prog.get_bind] at run
  have push : Keeps Wakes (pcbQueuePush pcb.priorityLevel ptr >>= fun _ => pure false) :=
    .bind pcbQueuePush_wakes fun _ => .pure _
  split at run
  · have look : Keeps Wakes (pcbInQueue ptr pcb.priorityLevel) :=
      .of_state fun _ _ _ run => pcbInQueue_state run
    exact Keeps.bind look (fun _ => .ite (fun _ => push) fun _ => .pure _) _ _ _ run
  split at run
  · next asleep =>
      split at run
      · obtain ⟨_, k₂, woken, run⟩ := Prog.bind_inv run
        obtain ⟨pcb₁, found₁, rfl⟩ := update_inv woken
        obtain rfl := Option.some.inj (found.symm.trans found₁)
        exact IsTrans.trans _ _ _ (Wakes.wake found asleep.1) (push _ _ _ run)
      · cases run
        exact .of_pcbs rfl rfl
  split at run
  · have remove : Keeps Wakes (pcbQueuePopByPid pcb.priorityLevel pcb.pid >>= fun _ =>
        pcbVecRemoveByPcb ptr >>= fun _ => pcbDestroy ptr >>= fun _ => pure true) :=
      .bind (fun _ _ _ run => .of_sameButLinks (pcbQueuePopByPid_frame run)) fun _ =>
        .bind pcbVecRemoveByPcb_wakes fun _ => .bind pcbDestroy_wakes fun _ => .pure _
    exact remove _ _ _ run
  · cases run
    exact .of_pcbs rfl rfl

theorem maintenanceLoop_wakes (count i : Nat) : Keeps Wakes (maintenanceLoop count i) := by
  induction count generalizing i with
  | zero => exact .pure _
  | succ count ih =>
      refine .bind .get fun k => ?_
      cases k.allUnreapedPcbVector[i]? with
      | none => exact .fault
      | some curr => exact .bind maintain_wakes fun gone => .ite (fun _ => ih i) fun _ => ih (i + 1)

theorem maintenancePass_wakes : Keeps Wakes maintenancePass :=
  .bind .get fun _ => .bind (.of_state fun _ _ _ run => (require_inv run).2) fun _ =>
    maintenanceLoop_wakes _ _

theorem pick_wakes : Keeps Wakes (pick level) := by
  refine .bind .get fun _ => .bind (.of_state fun _ _ _ run => (require_inv run).2) fun _ =>
    .bind (fun _ _ _ run => .of_sameButLinks (pickLoop_frame run)) fun found => ?_
  cases found with
  | none => exact .pure _
  | some curr =>
      exact .bind (.of_state fun _ _ _ run => (deref_inv run).2) fun _ =>
        .bind (.of_state fun _ _ _ run => (require_inv run).2) fun _ =>
        .modify fun _ => .of_pcbs rfl rfl

theorem idleTick_wakes : Keeps Wakes idleTick :=
  .bind .get fun _ => .bind (.of_state fun _ _ _ run => (require_inv run).2) fun _ =>
    .modify fun _ => .of_pcbs rfl rfl

theorem quantumEnd_wakes : Keeps Wakes quantumEnd := by
  refine .bind .get fun first => ?_
  cases first.quantum with
  | none => exact .fault
  | some slot =>
      refine .bind (.modify fun _ => .of_pcbs rfl rfl) fun _ =>
        .bind (fun _ _ _ run => .of_sameButLinks (pcbQueuePop_frame run)) fun popped => ?_
      cases popped with
      | none => exact .pure _
      | some _ =>
          intro k _ k' run
          obtain ⟨pcb, k₁, read, run⟩ := Prog.bind_inv run
          obtain ⟨found, rfl⟩ := deref_inv read
          split at run
          · exact pcbQueuePush_wakes _ _ _ run
          split at run
          · next asleep =>
              split at run
              · obtain ⟨_, k₂, woken, run⟩ := Prog.bind_inv run
                obtain ⟨pcb₁, found₁, rfl⟩ := update_inv woken
                obtain rfl := Option.some.inj (found.symm.trans found₁)
                exact IsTrans.trans _ _ _ (Wakes.wake found asleep.1)
                  (pcbQueuePush_wakes _ _ _ run)
              · cases run
                exact .of_pcbs rfl rfl
          split at run
          · have remove : Keeps Wakes (pcbVecRemoveByPcb slot.2 >>= fun _ => pcbDestroy slot.2) :=
              .bind pcbVecRemoveByPcb_wakes fun _ => pcbDestroy_wakes
            exact remove _ _ _ run
          · cases run
            exact .of_pcbs rfl rfl

/-- The thread that makes a call runs, and its PCB is in the vector. -/
theorem caller_live (step : Step k event k') (calls : event.caller = some self) :
    ∃ pcb, k.pcbs self = some pcb ∧ pcb.thrd = .live ∧ self ∈ k.allUnreapedPcbVector := by
  have of_called : ∀ {pcb : Pcb} {k₁ : KernelState} {caller : PcbPtr}, caller = self →
      asCaller caller k = some (pcb, k₁) →
      ∃ pcb, k.pcbs self = some pcb ∧ pcb.thrd = .live ∧ self ∈ k.allUnreapedPcbVector := by
    rintro pcb k₁ caller rfl called
    obtain ⟨found, live, listed, _⟩ := asCaller_inv called
    exact ⟨pcb, found, live, listed⟩
  cases event with
  | maintenancePass | pick _ | idleTick | quantumEnd => cases calls
  | procCreate _ _ | waitpidReap _ _ | nice _ _ _ =>
      obtain ⟨_, _, run, _⟩ := Prog.bind_inv step
      obtain ⟨_, _, called, _⟩ := Prog.bind_inv run
      exact of_called (Option.some.inj calls) called
  | waitpid _ _ _ =>
      obtain ⟨_, _, run, _⟩ := Prog.bind_inv step
      obtain ⟨_, _, checked, run⟩ := Prog.bind_inv run
      obtain ⟨_, rfl⟩ := require_inv checked
      obtain ⟨_, _, called, _⟩ := Prog.bind_inv run
      exact of_called (Option.some.inj calls) called
  | _ =>
      obtain ⟨_, _, called, _⟩ := Prog.bind_inv step
      exact of_called (Option.some.inj calls) called

theorem event_touches (step : Step k event k') : Touches k event k' := by
  have of_call : ∀ {caller : PcbPtr}, event.caller = some caller → SameBut caller k k' →
      Touches k event k' := by
    intro caller calls same
    refine same.touches calls fun pcb found => ?_
    obtain ⟨pcb₁, found₁, live, _⟩ := caller_live step calls
    exact Option.some.inj (found.symm.trans found₁) ▸ live
  have of_result : ∀ {α : Type} {p : KernelM α}, (do let _ ← p) k = some ((), k') →
      ∃ result, p k = some (result, k') := by
    intro α p run
    obtain ⟨result, k₁, run, rest⟩ := Prog.bind_inv run
    simp only [Prog.pure_run, Option.some.injEq, Prod.mk.injEq, true_and] at rest
    exact ⟨result, rest ▸ run⟩
  cases event with
  | spawnShell self => exact of_call rfl (spawnShell_sameBut _ _ _ step)
  | shellReturned self => exact of_call rfl (shellReturned_sameBut _ _ _ step)
  | initResumed self shell => exact of_call rfl (initResumed_sameBut _ _ _ step)
  | procCreate self priority =>
      obtain ⟨_, run⟩ := of_result step
      exact of_call rfl (kProcCreate_sameBut _ _ _ run)
  | setRoutineAndRun self proc => exact setRoutineAndRun_touches step
  | kill self pid sig => exact kKill_touches step
  | selfStopResumed self => exact of_call rfl (selfStopResumed_sameBut _ _ _ step)
  | exit self => exact of_call rfl (kExit_sameBut _ _ _ step)
  | sleep self length => exact of_call rfl (kSleep_sameBut _ _ _ step)
  | sleepResumed self => exact of_call rfl (kSleepResumed_sameBut _ _ _ step)
  | waitpid self pid nohang =>
      obtain ⟨_, run⟩ := of_result step
      exact of_call rfl (kWaitpid_sameBut _ _ _ run)
  | waitpidJoined self child => exact of_call rfl (kWaitpidJoined_sameBut _ _ _ step)
  | waitpidReap self child =>
      obtain ⟨_, run⟩ := of_result step
      exact kWaitpidReap_touches run
  | nice self pid newPriority =>
      obtain ⟨_, run⟩ := of_result step
      exact of_call rfl (kNice_sameBut _ _ _ run)
  | maintenancePass => exact (maintenancePass_wakes _ _ _ step).touches rfl
  | pick level => exact (pick_wakes _ _ _ step).touches rfl
  | idleTick => exact (idleTick_wakes _ _ _ step).touches rfl
  | quantumEnd => exact (quantumEnd_wakes _ _ _ step).touches rfl

end Events

end PennOs.Kernel
