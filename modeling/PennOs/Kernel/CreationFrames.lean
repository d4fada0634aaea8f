import PennOs.Kernel.ProcessCreation
import PennOs.Kernel.Roster

set_option autoImplicit false

/- What events leave of the vector, and what making a PCB adds. -/
namespace PennOs.Kernel

open Prog (Keeps)

variable {k k' k'' : KernelState} {ptr self : PcbPtr} {level : Level} {pid : Int} {event : Event}

/-- No PCB in the vector is reaped. -/
def NoReaped (k : KernelState) : Prop :=
  ∀ ptr ∈ k.allUnreapedPcbVector, ∀ pcb ∈ k.pcbs ptr, pcb.status ≠ .reaped

/-- Only reaped PCBs leave the vector and are freed. -/
structure Clears (k k' : KernelState) : Prop where
  vector : k'.allUnreapedPcbVector.Sublist k.allUnreapedPcbVector
  shellSpawned : k'.shellSpawned = k.shellSpawned
  same : NoReaped k → k'.allUnreapedPcbVector = k.allUnreapedPcbVector ∧ NoReaped k'
  survive : ∀ ptr pcb, k.pcbs ptr = some pcb → pcb.status ≠ .reaped →
    ∃ pcb', k'.pcbs ptr = some pcb' ∧ pcb'.status ≠ .reaped

theorem Clears.of_pcbs (pcbs : k'.pcbs = k.pcbs)
    (vector : k'.allUnreapedPcbVector = k.allUnreapedPcbVector)
    (shellSpawned : k'.shellSpawned = k.shellSpawned) : Clears k k' where
  vector := vector ▸ .refl _
  shellSpawned := shellSpawned
  same none := ⟨vector, by rwa [NoReaped, vector, pcbs]⟩
  survive _ pcb found alive := ⟨pcb, pcbs ▸ found, alive⟩

instance : Std.Refl Clears where
  refl _ := .of_pcbs rfl rfl rfl

instance : IsTrans KernelState Clears where
  trans _ _ _ first second := by
    refine ⟨second.vector.trans first.vector, second.shellSpawned.trans first.shellSpawned,
      fun none => ?_, fun ptr pcb found alive => ?_⟩
    · obtain ⟨vector, none'⟩ := first.same none
      obtain ⟨vector', none''⟩ := second.same none'
      exact ⟨vector'.trans vector, none''⟩
    · obtain ⟨pcb', found', alive'⟩ := first.survive ptr pcb found alive
      exact second.survive ptr pcb' found' alive'

theorem Clears.of_sameButLinks (links : SameButLinks k k') : Clears k k' := by
  refine ⟨links.vector ▸ .refl _, links.shellSpawned, fun none => ⟨links.vector, ?_⟩,
    fun ptr pcb found alive => ?_⟩
  · intro ptr listed pcb' found
    obtain ⟨pcb, before, core⟩ := links.pcb found
    rw [Pcb.core_status core]
    exact none ptr (links.vector ▸ listed) pcb before
  · have cores := links.cores ptr
    rw [found] at cores
    obtain ⟨pcb', found', core⟩ := Option.map_eq_some_iff.mp cores
    exact ⟨pcb', found', Pcb.core_status core ▸ alive⟩

theorem Clears.setPcb {pcb' : Pcb} (alive : pcb'.status ≠ .reaped) :
    Clears k (k.setPcb ptr pcb') := by
  refine ⟨.refl _, rfl, fun none => ⟨rfl, fun other listed otherPcb otherFound => ?_⟩,
    fun other otherPcb otherFound otherAlive => ?_⟩
  · change (k.setPcb ptr pcb').pcbs other = some otherPcb at otherFound
    rw [setPcb_pcbs] at otherFound
    split at otherFound
    · cases otherFound
      exact alive
    · exact none other listed otherPcb otherFound
  · rw [setPcb_pcbs]
    split
    · exact ⟨pcb', rfl, alive⟩
    · exact ⟨otherPcb, otherFound, otherAlive⟩

/-- A reaped PCB leaves the vector and is freed. -/
theorem remove_clears {pcb : Pcb} (found : k.pcbs ptr = some pcb) (reaped : pcb.status = .reaped)
    (run : (pcbVecRemoveByPcb ptr >>= fun _ => pcbDestroy ptr) k = some ((), k')) : Clears k k' := by
  simp only [pcbVecRemoveByPcb, pcbDestroy, Prog.modify_bind, Prog.modify_run, Option.some.injEq,
    Prod.mk.injEq, true_and] at run
  subst run
  have off : NoReaped k → ptr ∉ k.allUnreapedPcbVector :=
    fun none listed => none ptr listed pcb found reaped
  refine ⟨List.erase_sublist, rfl, fun none => ⟨List.erase_of_not_mem (off none), ?_⟩,
    fun other otherPcb otherFound alive => ?_⟩
  · intro other listed otherPcb otherFound
    change other ∈ k.allUnreapedPcbVector.erase ptr at listed
    rw [List.erase_of_not_mem (off none)] at listed
    have apart : other ≠ ptr := fun same => off none (same ▸ listed)
    exact none other listed otherPcb ((Function.update_of_ne apart _ _).symm.trans otherFound)
  · have apart : other ≠ ptr := by
      rintro rfl
      rw [found] at otherFound
      exact alive (Option.some.inj otherFound ▸ reaped)
    exact ⟨otherPcb, (Function.update_of_ne apart _ _).trans otherFound, alive⟩

section Scheduler

theorem pcbQueuePush_clears : Keeps Clears (pcbQueuePush level ptr) :=
  fun _ _ _ run => .of_sameButLinks (pcbQueuePush_frame run)

theorem wake_clears : Keeps Clears (update ptr fun pcb => { pcb with status := .running }) := by
  intro k _ k' run
  obtain ⟨pcb, found, rfl⟩ := update_inv run
  exact .setPcb nofun

theorem maintain_clears : Keeps Clears (maintain ptr) := by
  intro k gone k' run
  obtain ⟨pcb, k₁, read, run⟩ := Prog.bind_inv run
  obtain ⟨found, rfl⟩ := deref_inv read
  rw [Prog.get_bind] at run
  have push : Keeps Clears (pcbQueuePush pcb.priorityLevel ptr >>= fun _ => pure false) :=
    .bind pcbQueuePush_clears fun _ => .pure _
  split at run
  · have look : Keeps Clears (pcbInQueue ptr pcb.priorityLevel) :=
      .of_state fun _ _ _ run => pcbInQueue_state run
    exact Keeps.bind look (fun _ => .ite (fun _ => push) fun _ => .pure _) _ _ _ run
  split at run
  · exact Keeps.ite (fun _ => .bind wake_clears fun _ => push) (fun _ => .pure _) _ _ _ run
  split at run
  · next reaped =>
      obtain ⟨_, k₁, popped, run⟩ := Prog.bind_inv run
      have links := pcbQueuePopByPid_frame popped
      have cores := links.cores ptr
      rw [found] at cores
      obtain ⟨pcb₁, found₁, core⟩ := Option.map_eq_some_iff.mp cores
      obtain ⟨_, k₂, removed, run⟩ := Prog.bind_inv run
      obtain ⟨_, k₃, destroyed, run⟩ := Prog.bind_inv run
      simp only [Prog.pure_run, Option.some.injEq, Prod.mk.injEq] at run
      have clears := remove_clears found₁ ((Pcb.core_status core).trans reaped)
        ((Prog.bind_of_run removed _).trans destroyed)
      exact run.2 ▸ IsTrans.trans _ _ _ (Clears.of_sameButLinks links) clears
  · cases run
    exact .of_pcbs rfl rfl rfl

theorem maintenancePass_clears : Keeps Clears maintenancePass := by
  have loop : ∀ count i, Keeps Clears (maintenanceLoop count i) := by
    intro count
    induction count with
    | zero => exact fun _ => .pure _
    | succ count ih =>
        intro i
        refine .bind .get fun k => ?_
        cases k.allUnreapedPcbVector[i]? with
        | none => exact .fault
        | some curr => exact .bind maintain_clears fun _ => .ite (fun _ => ih i) fun _ => ih (i + 1)
  exact .bind .get fun _ => .bind (.of_state fun _ _ _ run => (require_inv run).2) fun _ =>
    loop _ _

theorem pick_clears : Keeps Clears (pick level) := by
  refine .bind .get fun _ => .bind (.of_state fun _ _ _ run => (require_inv run).2) fun _ =>
    .bind (fun _ _ _ run => .of_sameButLinks (pickLoop_frame run)) fun found => ?_
  cases found with
  | none => exact .pure _
  | some curr =>
      exact .bind (.of_state fun _ _ _ run => (deref_inv run).2) fun _ =>
        .bind (.of_state fun _ _ _ run => (require_inv run).2) fun _ =>
        .modify fun _ => .of_pcbs rfl rfl rfl

theorem idleTick_clears : Keeps Clears idleTick :=
  .bind .get fun _ => .bind (.of_state fun _ _ _ run => (require_inv run).2) fun _ =>
    .modify fun _ => .of_pcbs rfl rfl rfl

theorem quantumEnd_clears : Keeps Clears quantumEnd := by
  refine .bind .get fun first => ?_
  cases first.quantum with
  | none => exact .fault
  | some slot =>
      refine .bind (.modify fun _ => .of_pcbs rfl rfl rfl) fun _ =>
        .bind (fun _ _ _ run => .of_sameButLinks (pcbQueuePop_frame run)) fun popped => ?_
      cases popped with
      | none => exact .pure _
      | some _ =>
          intro k _ k' run
          obtain ⟨pcb, k₁, read, run⟩ := Prog.bind_inv run
          obtain ⟨found, rfl⟩ := deref_inv read
          split at run
          · exact pcbQueuePush_clears _ _ _ run
          split at run
          · exact Keeps.ite (fun _ => .bind wake_clears fun _ => pcbQueuePush_clears)
              (fun _ => .pure _) _ _ _ run
          split at run
          · next reaped => exact remove_clears found reaped run
          · cases run
            exact .of_pcbs rfl rfl rfl

end Scheduler

/-- What any event but a creation leaves of the PCBs and the vector. -/
structure Leaves (k : KernelState) (event : Event) (k' : KernelState) : Prop where
  vector : k'.allUnreapedPcbVector.Sublist k.allUnreapedPcbVector
  shellSpawned : k'.shellSpawned = k.shellSpawned
  same : (event.caller = none → NoReaped k) → k'.allUnreapedPcbVector = k.allUnreapedPcbVector
  survive : ∀ ptr pcb, k.pcbs ptr = some pcb → pcb.status ≠ .reaped →
    ∃ pcb', k'.pcbs ptr = some pcb'

theorem Leaves.of_clears (clears : Clears k k') (scheduler : event.caller = none) :
    Leaves k event k' where
  vector := clears.vector
  shellSpawned := clears.shellSpawned
  same none := (clears.same (none scheduler)).1
  survive ptr pcb found alive := by
    obtain ⟨pcb', found', _⟩ := clears.survive ptr pcb found alive
    exact ⟨pcb', found'⟩

theorem Leaves.of_samePids (same : SamePids k k') : Leaves k event k' where
  vector := same.vector ▸ .refl _
  shellSpawned := same.shellSpawned
  same _ := same.vector
  survive ptr pcb found _ := by
    obtain ⟨pcb', found', _⟩ := same.kept ptr pcb found
    exact ⟨pcb', found'⟩

theorem kNice_samePids {newPriority result : Int}
    (run : kNice self pid newPriority k = some (result, k')) : SamePids k k' := by
  have unchanged : SamePids k k := (SameTable.of_sameButLinks (.refl k)).toSamePids
  obtain ⟨_, k₁, called, run⟩ := Prog.bind_inv run
  obtain ⟨_, _, _, rfl⟩ := asCaller_inv called
  split at run
  swap
  · cases run
    exact unchanged
  obtain ⟨found, k₂, searched, run⟩ := Prog.bind_inv run
  obtain ⟨rfl, _⟩ := pcbVecSeekPcbByPid_inv searched
  cases found with
  | none =>
      cases run
      exact unchanged
  | some target =>
      obtain ⟨_, k₃, changed, run⟩ := Prog.bind_inv run
      obtain ⟨pcb, found, rfl⟩ := update_inv changed
      simp only [Prog.pure_run, Option.some.injEq, Prod.mk.injEq] at run
      exact run.2 ▸ setPcb_samePids found rfl id

theorem setRoutineAndRun_samePids {proc : PcbPtr}
    (run : setRoutineAndRun self proc k = some ((), k')) :
    k'.allUnreapedPcbVector = k.allUnreapedPcbVector ∧ k'.shellSpawned = k.shellSpawned ∧
      ∀ ptr pcb, k.pcbs ptr = some pcb → ∃ pcb', k'.pcbs ptr = some pcb' := by
  obtain ⟨_, k₁, called, run⟩ := Prog.bind_inv run
  obtain ⟨_, _, _, rfl⟩ := asCaller_inv called
  obtain ⟨pcb, k₂, read, run⟩ := Prog.bind_inv run
  obtain ⟨_, rfl⟩ := deref_inv read
  obtain ⟨_, k₃, checked, run⟩ := Prog.bind_inv run
  obtain ⟨_, rfl⟩ := require_inv checked
  obtain ⟨_, k₄, started, run⟩ := Prog.bind_inv run
  have quiet := quiet_of_update started fun _ => ⟨rfl, rfl, rfl, fun _ => nofun⟩
  obtain ⟨_, k₅, read', queued⟩ := Prog.bind_inv run
  obtain ⟨_, rfl⟩ := deref_inv read'
  have table := SameTable.of_sameButLinks (pcbQueuePush_frame queued)
  refine ⟨table.vector.trans quiet.vector, table.shellSpawned.trans quiet.shellSpawned,
    fun ptr pcb found => ?_⟩
  obtain ⟨pcb₁, found₁, _⟩ := quiet.kept ptr pcb found
  obtain ⟨pcb₂, found₂, _⟩ := table.kept ptr pcb₁ found₁
  exact ⟨pcb₂, found₂⟩

theorem event_leaves (step : Step k event k')
    (noCreate : ∀ self priority, event ≠ .procCreate self priority)
    (noShell : ∀ self, event ≠ .spawnShell self) : Leaves k event k' := by
  have quietly : ∀ {α : Type} {p : KernelM α}, Keeps Quiet p →
      (do let _ ← p) k = some ((), k') → Leaves k event k' := by
    intro α p quiet run
    obtain ⟨result, k₁, run, rest⟩ := Prog.bind_inv run
    simp only [Prog.pure_run, Option.some.injEq, Prod.mk.injEq, true_and] at rest
    exact .of_samePids (rest ▸ (quiet _ _ _ run).toSamePids)
  cases event with
  | spawnShell self => exact absurd rfl (noShell self)
  | procCreate self priority => exact absurd rfl (noCreate self priority)
  | shellReturned self => exact .of_samePids (shellReturned_quiet _ _ _ step).toSamePids
  | initResumed self shell => exact .of_samePids (initResumed_quiet _ _ _ step).toSamePids
  | setRoutineAndRun self proc =>
      obtain ⟨vector, shellSpawned, kept⟩ := setRoutineAndRun_samePids step
      exact ⟨vector ▸ .refl _, shellSpawned, fun _ => vector,
        fun ptr pcb found _ => kept ptr pcb found⟩
  | kill self pid sig => exact .of_samePids (kKill_quiet _ _ _ step).toSamePids
  | selfStopResumed self => exact .of_samePids (selfStopResumed_quiet _ _ _ step).toSamePids
  | exit self => exact .of_samePids (kExit_quiet _ _ _ step).toSamePids
  | sleep self length => exact .of_samePids (kSleep_quiet _ _ _ step).toSamePids
  | sleepResumed self => exact .of_samePids (kSleepResumed_quiet _ _ _ step).toSamePids
  | waitpid self pid nohang => exact quietly kWaitpid_quiet step
  | waitpidJoined self child => exact .of_samePids (kWaitpidJoined_quiet _ _ _ step).toSamePids
  | waitpidReap self child => exact quietly kWaitpidReap_quiet step
  | nice self pid newPriority =>
      obtain ⟨result, k₁, run, rest⟩ := Prog.bind_inv step
      simp only [Prog.pure_run, Option.some.injEq, Prod.mk.injEq, true_and] at rest
      exact .of_samePids (rest ▸ kNice_samePids run)
  | maintenancePass => exact .of_clears (maintenancePass_clears _ _ _ step) rfl
  | pick level => exact .of_clears (pick_clears _ _ _ step) rfl
  | idleTick => exact .of_clears (idleTick_clears _ _ _ step) rfl
  | quantumEnd => exact .of_clears (quantumEnd_clears _ _ _ step) rfl

section NewPcb

/-- The smallest PID from 3 on that no PCB in the vector has. -/
def SmallestFree (k : KernelState) (pid : Int) : Prop :=
  3 ≤ pid ∧ some pid ∉ k.allUnreapedPcbVector.map k.pidAt ∧
    ∀ lower, 3 ≤ lower → lower < pid → some lower ∈ k.allUnreapedPcbVector.map k.pidAt

theorem pidsOf_pids {ptrs : List PcbPtr} {pids : List Int}
    (run : pidsOf ptrs k = some (pids, k')) : ptrs.map k.pidAt = pids.map some := by
  induction ptrs generalizing pids k' with
  | nil =>
      cases run
      rfl
  | cons ptr rest ih =>
      obtain ⟨pcb, k₁, read, run⟩ := Prog.bind_inv run
      obtain ⟨found, rfl⟩ := deref_inv read
      obtain ⟨tail, k₂, tailRun, run⟩ := Prog.bind_inv run
      simp only [Prog.pure_run, Option.some.injEq, Prod.mk.injEq] at run
      obtain ⟨rfl, _⟩ := run
      rw [List.map_cons, List.map_cons, pidAt_of_found found, ih tailRun]

theorem nextFreePidLoop_smallest {used : List Int} {fuel : Nat} {candidate : Int}
    (run : nextFreePidLoop used fuel candidate k = some (pid, k')) :
    pid ∉ used ∧ ∀ lower, candidate ≤ lower → lower < pid → lower ∈ used := by
  induction fuel generalizing candidate with
  | zero => cases run
  | succ fuel ih =>
      unfold nextFreePidLoop at run
      split at run
      · next taken =>
          obtain ⟨free, below⟩ := ih run
          refine ⟨free, fun lower from_ upTo => ?_⟩
          by_cases here : lower = candidate
          · exact here ▸ taken
          · exact below lower (by omega) upTo
      · next free =>
          cases run
          exact ⟨free, fun lower from_ upTo => absurd upTo (by omega)⟩

theorem getNextFreePid_smallest (run : getNextFreePid k = some (pid, k')) :
    k = k' ∧ SmallestFree k pid := by
  obtain ⟨rfl, above⟩ := getNextFreePid_above run
  simp only [getNextFreePid, Prog.get_bind] at run
  obtain ⟨used, k₁, read, run⟩ := Prog.bind_inv run
  have pids := pidsOf_pids read
  obtain ⟨free, below⟩ := nextFreePidLoop_smallest run
  refine ⟨rfl, above, ?_, fun lower from_ upTo => ?_⟩
  · rw [pids]
    simpa using free
  · rw [pids]
    simpa using below lower from_ upTo

/-- A new PCB with PID `pid` at `new`, and nothing else but the parent's list of children. -/
structure Made (k : KernelState) (new : PcbPtr) (pid : Int) (k' : KernelState) : Prop where
  isNew : new = k.nextPtr
  vector : k'.allUnreapedPcbVector = k.allUnreapedPcbVector
  shellSpawned : k'.shellSpawned = k.shellSpawned
  pidAt : k'.pidAt = Function.update k.pidAt new (some pid)
  fresh : ∃ pcb, k'.pcbs new = some pcb ∧ pcb.status = .stopped ∧ pcb.thrd = .absent

theorem pcbInitEmpty_made {priority : Level} {new : PcbPtr} (roster : Roster k)
    (run : pcbInitEmpty self priority pid k = some (new, k')) : Made k new pid k' := by
  obtain ⟨parentPcb, k₁, read, run⟩ := Prog.bind_inv run
  obtain ⟨parentFound, rfl⟩ := deref_inv read
  simp only [Prog.get_bind, Prog.modify_bind] at run
  obtain ⟨_, k₂, added, run⟩ := Prog.bind_inv run
  simp only [Prog.pure_run, Option.some.injEq, Prod.mk.injEq] at run
  obtain ⟨rfl, rfl⟩ := run
  obtain ⟨pcb, k₃, read', added⟩ := Prog.bind_inv added
  obtain ⟨found, rfl⟩ := deref_inv read'
  obtain ⟨_, k₄, checked, added⟩ := Prog.bind_inv added
  obtain ⟨_, rfl⟩ := require_inv checked
  simp only [Prog.modify_run, Option.some.injEq, Prod.mk.injEq, true_and] at added
  subst added
  have apart : self ≠ k.nextPtr := Nat.ne_of_lt (roster.bounded self parentPcb parentFound)
  rw [allocate_pcbs, if_neg apart] at found
  refine ⟨rfl, rfl, rfl, funext fun other => ?_, ?_⟩
  · rw [KernelState.pidAt, setPcb_pcbs, allocate_pcbs, Function.update_apply]
    by_cases isSelf : other = self
    · rw [if_pos isSelf, if_neg (isSelf ▸ apart), isSelf, pidAt_of_found found, Option.map_some]
    · rw [if_neg isSelf]
      split <;> rfl
  · refine ⟨emptyPcb parentPcb.pid priority pid, ?_, rfl, rfl⟩
    rw [setPcb_pcbs, if_neg apart.symm, allocate_pcbs, if_pos rfl]

theorem makePcb_made {priority : Level} {new : PcbPtr} (roster : Roster k)
    (run : makePcb self priority k = some (new, k')) :
    ∃ pid, SmallestFree k pid ∧ Made k new pid k' ∧ Roster k' ∧ SameBut self k k' ∧
      ∃ pcb, k.pcbs self = some pcb ∧ pcb.thrd = .live := by
  obtain ⟨pcb, k₁, called, run⟩ := Prog.bind_inv run
  obtain ⟨found, live, _, rfl⟩ := asCaller_inv called
  obtain ⟨pid, k₂, chosen, run⟩ := Prog.bind_inv run
  obtain ⟨rfl, smallest⟩ := getNextFreePid_smallest chosen
  have positive : 0 < pid := by
    have above := smallest.1
    omega
  exact ⟨pid, smallest, pcbInitEmpty_made roster run, (pcbInitEmpty_roster roster positive run).1,
    pcbInitEmpty_sameBut _ _ _ run, pcb, found, live⟩

theorem pidAt_of_touches (touches : Touches k event k') (old : ptr < k.nextPtr)
    (kept : k'.pidAt ptr ≠ none) : k'.pidAt ptr = k.pidAt ptr := by
  obtain ⟨pid', there⟩ := Option.ne_none_iff_exists'.mp kept
  obtain ⟨pcb', found', rfl⟩ := Option.map_eq_some_iff.mp there
  obtain ⟨pcb, found, pid, _⟩ := touches.pcb ptr pcb' old found'
  rw [pidAt_of_found found', pidAt_of_found found, pid]

/-- The shell's PCB gets its PID and enters the vector. -/
theorem spawnShell_made (roster : Roster k) (step : Step k (.spawnShell self) k') :
    k.shellSpawned = false ∧ k'.shellSpawned = true ∧
      k'.allUnreapedPcbVector = k.allUnreapedPcbVector ++ [k.nextPtr] ∧
      k'.pidAt = Function.update k.pidAt k.nextPtr (some shellPid) := by
  obtain ⟨_, k₁, called, run⟩ := Prog.bind_inv step
  obtain ⟨_, _, _, rfl⟩ := asCaller_inv called
  simp only [Prog.get_bind] at run
  obtain ⟨_, k₂, checked, run⟩ := Prog.bind_inv run
  obtain ⟨⟨_, unspawned⟩, rfl⟩ := require_inv checked
  rw [Prog.modify_bind] at run
  have spawning : Enrols k k.setShellSpawned := .of_same rfl rfl rfl
  obtain ⟨shell, k₃, made, run⟩ := Prog.bind_inv run
  obtain ⟨rfl, vector, spawned, pids, _⟩ := pcbInitEmpty_made (spawning roster) made
  obtain ⟨_, k₄, started, run⟩ := Prog.bind_inv run
  have starting := (quiet_of_update started fun _ => ⟨rfl, rfl, rfl, fun _ => (by rintro ⟨⟩)⟩).toSamePids
  obtain ⟨_, k₅, listed, run⟩ := Prog.bind_inv run
  simp only [pcbVecPushBack, Prog.modify_run, Option.some.injEq, Prod.mk.injEq, true_and] at listed
  obtain ⟨_, k₆, queued, run⟩ := Prog.bind_inv run
  have queueing := (SameTable.of_sameButLinks (pcbQueuePush_frame queued)).toSamePids
  obtain ⟨_, k₇, blocked, run⟩ := Prog.bind_inv run
  have blocking := (quiet_of_update blocked fun _ => ⟨rfl, rfl, rfl, id⟩).toSamePids
  simp only [Prog.modify_run, Option.some.injEq, Prod.mk.injEq, true_and] at run
  subst run
  refine ⟨unspawned, ?_, ?_, ?_⟩
  · show k₇.shellSpawned = true
    rw [blocking.shellSpawned, queueing.shellSpawned, ← listed]
    show k₄.shellSpawned = true
    rw [starting.shellSpawned, spawned]
    rfl
  · show k₇.allUnreapedPcbVector = k.allUnreapedPcbVector ++ [k.nextPtr]
    rw [blocking.vector, queueing.vector, ← listed]
    show k₄.allUnreapedPcbVector ++ _ = _
    rw [starting.vector, vector]
    rfl
  · show k₇.pidAt = _
    rw [blocking.pidAt, queueing.pidAt, ← listed]
    show k₄.pidAt = _
    rw [starting.pidAt, pids]
    rfl

end NewPcb

end PennOs.Kernel
