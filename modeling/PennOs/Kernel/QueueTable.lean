import PennOs.Kernel.QueueLists

set_option autoImplicit false

/- What must hold around the ready queues, and the calls that leave it alone. -/
namespace PennOs.Kernel

open LinkedChain (Links Forest)
open Prog (Keeps)

variable {k k' k'' : KernelState} {ptr : PcbPtr} {level : Level} {lists : Level → List PcbPtr}

/-- The PCBs, their addresses and their PIDs. -/
structure Table (k : KernelState) : Prop where
  bounded : ∀ ptr pcb, k.pcbs ptr = some pcb → ptr < k.nextPtr
  listed : ∀ ptr pcb, k.pcbs ptr = some pcb → ptr ∈ k.allUnreapedPcbVector
  allocated : ∀ ptr ∈ k.allUnreapedPcbVector, ∃ pcb, k.pcbs ptr = some pcb
  distinct : k.allUnreapedPcbVector.Nodup
  pids : ∀ ptr other pcb pcb', k.pcbs ptr = some pcb → k.pcbs other = some pcb' →
    pcb.pid = pcb'.pid → ptr = other
  shell : ∀ ptr pcb, k.pcbs ptr = some pcb → pcb.pid = shellPid → k.shellSpawned = true

/-- A queued PCB is in the queue of its priority, except for the one whose quantum runs; that
one is the first of its queue. -/
structure Placed (k : KernelState) (lists : Level → List PcbPtr) : Prop where
  allocated : ∀ level, ∀ ptr ∈ lists level, ∃ pcb, k.pcbs ptr = some pcb
  level : ∀ level ptr pcb, ptr ∈ lists level → k.pcbs ptr = some pcb →
    pcb.priorityLevel = level ∨ k.quantum = some (level, ptr)
  running : ∀ level ptr, k.quantum = some (level, ptr) → (lists level).head? = some ptr ∧
    ∃ pcb, k.pcbs ptr = some pcb ∧ pcb.thrd ≠ .absent

structure Orderly (k : KernelState) (lists : Level → List PcbPtr) : Prop where
  intact : Intact k lists
  table : Table k
  placed : Placed k lists

section Frames

/-- PCBs stay at their addresses, with their PIDs. -/
structure SamePids (k k' : KernelState) : Prop where
  vector : k'.allUnreapedPcbVector = k.allUnreapedPcbVector
  nextPtr : k'.nextPtr = k.nextPtr
  quantum : k'.quantum = k.quantum
  shellSpawned : k'.shellSpawned = k.shellSpawned
  was : ∀ ptr pcb', k'.pcbs ptr = some pcb' → ∃ pcb, k.pcbs ptr = some pcb ∧ pcb'.pid = pcb.pid
  kept : ∀ ptr pcb, k.pcbs ptr = some pcb → ∃ pcb', k'.pcbs ptr = some pcb' ∧
    (pcb.thrd ≠ .absent → pcb'.thrd ≠ .absent)

/-- Priorities stay too. -/
structure SameTable (k k' : KernelState) : Prop extends SamePids k k' where
  priority : ∀ ptr pcb pcb', k.pcbs ptr = some pcb → k'.pcbs ptr = some pcb' →
    pcb'.priorityLevel = pcb.priorityLevel

/-- The queues too are left alone. -/
structure Quiet (k k' : KernelState) : Prop extends SameTable k k' where
  next : k'.next = k.next
  queues : k'.priorityQueueArray = k.priorityQueueArray

theorem SameTable.trans (first : SameTable k k') (second : SameTable k' k'') :
    SameTable k k'' where
  vector := second.vector.trans first.vector
  nextPtr := second.nextPtr.trans first.nextPtr
  quantum := second.quantum.trans first.quantum
  shellSpawned := second.shellSpawned.trans first.shellSpawned
  was ptr pcb'' found := by
    obtain ⟨pcb', found', pid'⟩ := second.was ptr pcb'' found
    obtain ⟨pcb, before, pid⟩ := first.was ptr pcb' found'
    exact ⟨pcb, before, pid'.trans pid⟩
  kept ptr pcb found := by
    obtain ⟨pcb', found', thread⟩ := first.kept ptr pcb found
    obtain ⟨pcb'', after, thread'⟩ := second.kept ptr pcb' found'
    exact ⟨pcb'', after, fun present => thread' (thread present)⟩
  priority ptr pcb pcb'' found found'' := by
    obtain ⟨pcb', found', _⟩ := first.kept ptr pcb found
    exact (second.priority ptr pcb' pcb'' found' found'').trans
      (first.priority ptr pcb pcb' found found')

theorem SameTable.of_pcbs (pcbs : k'.pcbs = k.pcbs)
    (vector : k'.allUnreapedPcbVector = k.allUnreapedPcbVector) (nextPtr : k'.nextPtr = k.nextPtr)
    (quantum : k'.quantum = k.quantum) (shellSpawned : k'.shellSpawned = k.shellSpawned) :
    SameTable k k' where
  vector := vector
  nextPtr := nextPtr
  quantum := quantum
  shellSpawned := shellSpawned
  was _ pcb found := ⟨pcb, pcbs ▸ found, rfl⟩
  kept _ pcb found := ⟨pcb, pcbs ▸ found, id⟩
  priority _ _ _ found found' := by
    rw [pcbs] at found'
    rw [Option.some.inj (found.symm.trans found')]

theorem setPending_quiet (k : KernelState) (pending : List Pending) :
    Quiet k (k.setPending pending) := ⟨.of_pcbs rfl rfl rfl rfl rfl, rfl, rfl⟩

theorem setErrno_quiet (k : KernelState) (errno : Int) :
    Quiet k (k.setErrno errno) := ⟨.of_pcbs rfl rfl rfl rfl rfl, rfl, rfl⟩

instance : Std.Refl Quiet where
  refl k := setPending_quiet k k.pending

instance : IsTrans KernelState Quiet where
  trans _ _ _ first second := ⟨first.toSameTable.trans second.toSameTable,
    second.next.trans first.next, second.queues.trans first.queues⟩

theorem SameTable.of_sameButLinks (same : SameButLinks k k') : SameTable k k' where
  vector := same.vector
  nextPtr := same.nextPtr
  quantum := same.quantum
  shellSpawned := same.shellSpawned
  was ptr pcb' found := by
    obtain ⟨pcb, before, core⟩ := same.pcb found
    exact ⟨pcb, before, Pcb.core_pid core⟩
  kept ptr pcb found := by
    have cores := same.cores ptr
    rw [found] at cores
    obtain ⟨pcb', after, core⟩ := Option.map_eq_some_iff.mp cores
    exact ⟨pcb', after, fun present => Pcb.core_thrd core ▸ present⟩
  priority ptr pcb pcb' found found' := by
    obtain ⟨pcb1, before, core⟩ := same.pcb found'
    obtain rfl := Option.some.inj (found.symm.trans before)
    exact Pcb.core_priorityLevel core

theorem Table.of_same (table : Table k) (same : SamePids k k') : Table k' where
  bounded ptr pcb' found := by
    obtain ⟨pcb, before, _⟩ := same.was ptr pcb' found
    exact same.nextPtr ▸ table.bounded ptr pcb before
  listed ptr pcb' found := by
    obtain ⟨pcb, before, _⟩ := same.was ptr pcb' found
    exact same.vector ▸ table.listed ptr pcb before
  allocated ptr member := by
    obtain ⟨pcb, found⟩ := table.allocated ptr (same.vector ▸ member)
    obtain ⟨pcb', after, _⟩ := same.kept ptr pcb found
    exact ⟨pcb', after⟩
  distinct := same.vector ▸ table.distinct
  pids ptr other pcb' pcb'' found found' equal := by
    obtain ⟨pcb, before, pid⟩ := same.was ptr pcb' found
    obtain ⟨pcb1, before1, pid1⟩ := same.was other pcb'' found'
    exact table.pids ptr other pcb pcb1 before before1 (pid.symm.trans (equal.trans pid1))
  shell ptr pcb' found pid' := by
    obtain ⟨pcb, before, pid⟩ := same.was ptr pcb' found
    exact same.shellSpawned ▸ table.shell ptr pcb before (pid.symm.trans pid')

theorem Placed.of_same (placed : Placed k lists) (same : SameTable k k') : Placed k' lists where
  allocated level ptr member := by
    obtain ⟨pcb, found⟩ := placed.allocated level ptr member
    obtain ⟨pcb', after, _⟩ := same.kept ptr pcb found
    exact ⟨pcb', after⟩
  level level ptr pcb' member found := by
    obtain ⟨pcb, before, _⟩ := same.was ptr pcb' found
    rw [same.priority ptr pcb pcb' before found, same.quantum]
    exact placed.level level ptr pcb member before
  running level ptr quantum := by
    obtain ⟨first, pcb, found, thread⟩ := placed.running level ptr (same.quantum ▸ quantum)
    obtain ⟨pcb', after, thread'⟩ := same.kept ptr pcb found
    exact ⟨first, pcb', after, thread' thread⟩

theorem Orderly.of_quiet (orderly : Orderly k lists) (quiet : Quiet k k') : Orderly k' lists :=
  ⟨orderly.intact.of_same quiet.next quiet.queues, orderly.table.of_same quiet.toSamePids,
    orderly.placed.of_same quiet.toSameTable⟩

/-- A change of a PCB that the queues do not notice. -/
def Mild (f : Pcb → Pcb) : Prop := ∀ pcb, (f pcb).nextPcbPtr = pcb.nextPcbPtr ∧
  (f pcb).pid = pcb.pid ∧ (f pcb).priorityLevel = pcb.priorityLevel ∧
  (pcb.thrd ≠ .absent → (f pcb).thrd ≠ .absent)

theorem setPcb_samePids {pcb pcb' : Pcb} (found : k.pcbs ptr = some pcb)
    (pid : pcb'.pid = pcb.pid) (thread : pcb.thrd ≠ .absent → pcb'.thrd ≠ .absent) :
    SamePids k (k.setPcb ptr pcb') where
  vector := rfl
  nextPtr := rfl
  quantum := rfl
  shellSpawned := rfl
  was other otherPcb found' := by
    rw [setPcb_pcbs] at found'
    split at found'
    · next here =>
        cases found'
        exact ⟨pcb, here ▸ found, pid⟩
    · exact ⟨otherPcb, found', rfl⟩
  kept other otherPcb found' := by
    rw [setPcb_pcbs]
    split
    · next here =>
        subst here
        obtain rfl := Option.some.inj (found.symm.trans found')
        exact ⟨_, rfl, thread⟩
    · exact ⟨otherPcb, found', id⟩

theorem setPcb_quiet {f : Pcb → Pcb} {pcb : Pcb} (mild : Mild f) (found : k.pcbs ptr = some pcb) :
    Quiet k (k.setPcb ptr (f pcb)) := by
  obtain ⟨next, pid, priority, thread⟩ := mild pcb
  refine ⟨⟨setPcb_samePids found pid thread, fun other before after found1 found2 => ?_⟩, ?_, rfl⟩
  · rw [setPcb_pcbs] at found2
    split at found2
    · next here =>
        cases found2
        rw [Option.some.inj (found1.symm.trans (here ▸ found))]
        exact priority
    · rw [Option.some.inj (found1.symm.trans found2)]
  · rw [next_setPcb, next, ← next_of_found found, Function.update_eq_self]

theorem quiet_of_update {f : Pcb → Pcb} (run : update ptr f k = some ((), k'))
    (mild : Mild f) : Quiet k k' := by
  obtain ⟨pcb, found, rfl⟩ := update_inv run
  exact setPcb_quiet mild found

theorem update_quiet {f : Pcb → Pcb} (mild : Mild f) : Keeps Quiet (update ptr f) :=
  fun _ _ _ run => quiet_of_update run mild

theorem deref_quiet : Keeps Quiet (deref ptr) := .of_state fun _ _ _ run => (deref_inv run).2

theorem require_quiet {condition : Prop} [Decidable condition] :
    Keeps Quiet (require condition) := .of_state fun _ _ _ run => (require_inv run).2

theorem asCaller_quiet : Keeps Quiet (asCaller ptr) :=
  .of_state fun _ _ _ run => (asCaller_inv run).2.2.2

theorem pcbVecSeekPcbByPid_quiet {pid : Int} : Keeps Quiet (pcbVecSeekPcbByPid pid) :=
  .of_state fun _ _ _ run => (pcbVecSeekPcbByPid_inv run).1

end Frames

section QuietCalls

variable {self : PcbPtr}

theorem pcbAddChildPid_quiet {pid : Int} : Keeps Quiet (pcbAddChildPid self pid) := by
  intro k _ k' run
  obtain ⟨pcb, k1, read, run⟩ := Prog.bind_inv run
  obtain ⟨found, rfl⟩ := deref_inv read
  obtain ⟨_, k2, checked, run⟩ := Prog.bind_inv run
  obtain ⟨_, rfl⟩ := require_inv checked
  simp only [Prog.modify_run, Option.some.injEq, Prod.mk.injEq, true_and] at run
  have mild : Mild fun pcb => { pcb with childPids := pcb.childPids ++ [pid] } :=
    fun _ => ⟨rfl, rfl, rfl, id⟩
  exact run ▸ setPcb_quiet mild found

theorem shellReturned_quiet : Keeps Quiet (shellReturned self) :=
  .bind asCaller_quiet fun _ => .bind require_quiet fun _ =>
    update_quiet fun _ => ⟨rfl, rfl, rfl, fun _ => nofun⟩

theorem initResumed_quiet {shell : PcbPtr} : Keeps Quiet (initResumed self shell) :=
  .bind asCaller_quiet fun _ => .bind .get fun _ => .bind deref_quiet fun _ =>
    .bind require_quiet fun _ => .bind (.modify fun k => setPending_quiet k _) fun _ =>
    update_quiet fun _ => ⟨rfl, rfl, rfl, id⟩

theorem disconnectLoop_quiet (pids : List Int) : Keeps Quiet (disconnectLoop pids) := by
  induction pids with
  | nil => exact .pure ()
  | cons pid rest ih =>
      refine .bind pcbVecSeekPcbByPid_quiet fun found => ?_
      cases found with
      | none => exact ih
      | some child => exact .bind (update_quiet fun _ => ⟨rfl, rfl, rfl, id⟩) fun _ => ih

theorem pcbDisconnectChild_quiet : Keeps Quiet (pcbDisconnectChild self) :=
  .bind deref_quiet fun _ => .bind (disconnectLoop_quiet _) fun _ =>
    update_quiet fun _ => ⟨rfl, rfl, rfl, id⟩

theorem kKill_quiet {pid sig : Int} : Keeps Quiet (kKill self pid sig) := by
  refine .bind asCaller_quiet fun _ => .bind pcbVecSeekPcbByPid_quiet fun found => ?_
  cases found with
  | none => exact .pure ()
  | some target =>
      refine .bind deref_quiet fun pcb => .ite (fun _ => ?_) fun _ => .ite (fun _ => ?_)
        fun _ => .ite (fun _ => ?_) fun _ => .pure ()
      · refine .ite (fun _ => .bind require_quiet fun _ => ?_) fun _ => .pure ()
        exact .ite (fun _ => .modify fun k => setPending_quiet k _)
          fun _ => update_quiet fun _ => ⟨rfl, rfl, rfl, id⟩
      · exact .ite (fun _ => update_quiet fun _ => ⟨rfl, rfl, rfl, id⟩) fun _ => .pure ()
      · refine .ite (fun _ => .bind require_quiet fun _ =>
          .bind (update_quiet fun _ => ⟨rfl, rfl, rfl, fun _ => nofun⟩) fun _ => ?_)
          fun _ => .pure ()
        exact .ite (fun _ => .bind (update_quiet fun _ => ⟨rfl, rfl, rfl, id⟩)
          fun _ => pcbDisconnectChild_quiet) fun _ => .pure ()

theorem selfStopResumed_quiet : Keeps Quiet (selfStopResumed self) :=
  .bind asCaller_quiet fun _ => .bind .get fun _ => .bind require_quiet fun _ =>
    .bind (.modify fun k => setPending_quiet k _) fun _ =>
    update_quiet fun _ => ⟨rfl, rfl, rfl, id⟩

theorem kExit_quiet : Keeps Quiet (kExit self) :=
  .bind asCaller_quiet fun _ => .bind (update_quiet fun _ => ⟨rfl, rfl, rfl, id⟩) fun _ =>
    .bind pcbDisconnectChild_quiet fun _ => update_quiet fun _ => ⟨rfl, rfl, rfl, fun _ => nofun⟩

theorem kSleep_quiet {length : UInt32} : Keeps Quiet (kSleep self length) :=
  .bind asCaller_quiet fun _ => .bind .get fun _ =>
    .bind (update_quiet fun _ => ⟨rfl, rfl, rfl, id⟩) fun _ =>
    .modify fun k => setPending_quiet k _

theorem kSleepResumed_quiet : Keeps Quiet (kSleepResumed self) :=
  .bind asCaller_quiet fun _ => .bind .get fun _ => .bind require_quiet fun _ =>
    .bind (.modify fun k => setPending_quiet k _) fun _ =>
    update_quiet fun _ => ⟨rfl, rfl, rfl, id⟩

theorem seekChild_quiet {ppid pid : Int} (ptrs : List PcbPtr) :
    Keeps Quiet (seekChild ppid pid ptrs) := by
  induction ptrs with
  | nil => exact .pure none
  | cons ptr rest ih =>
      exact .bind deref_quiet fun _ => .ite (fun _ => .pure _) fun _ => ih

theorem kWaitpid_quiet {pid : Int} {nohang : Bool} : Keeps Quiet (kWaitpid self pid nohang) := by
  refine .bind require_quiet fun _ => .bind asCaller_quiet fun _ => .bind .get fun _ =>
    .bind (seekChild_quiet _) fun child => ?_
  cases child with
  | none => exact .bind (.modify fun k => setErrno_quiet k _) fun _ => .pure _
  | some child =>
      refine .bind deref_quiet fun _ => .ite (fun _ => .pure _) fun _ => ?_
      exact .bind (update_quiet fun _ => ⟨rfl, rfl, rfl, id⟩) fun _ =>
        .bind (.modify fun k => setPending_quiet k _) fun _ => .pure _

theorem kWaitpidJoined_quiet {child : PcbPtr} : Keeps Quiet (kWaitpidJoined self child) :=
  .bind asCaller_quiet fun _ => .bind .get fun _ => .bind deref_quiet fun _ =>
    .bind require_quiet fun _ => .bind (.modify fun k => setPending_quiet k _) fun _ =>
    update_quiet fun _ => ⟨rfl, rfl, rfl, id⟩

theorem kWaitpidReap_quiet {child : PcbPtr} : Keeps Quiet (kWaitpidReap self child) :=
  .bind asCaller_quiet fun _ => .bind .get fun _ => .bind require_quiet fun _ =>
    .bind (.modify fun k => setPending_quiet k _) fun _ => .bind deref_quiet fun _ =>
    .bind require_quiet fun _ => .bind (update_quiet fun _ => ⟨rfl, rfl, rfl, id⟩) fun _ => .pure _

end QuietCalls

end PennOs.Kernel
