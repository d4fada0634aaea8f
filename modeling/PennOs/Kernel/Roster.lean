import PennOs.Kernel.QueueIntegrity
import PennOs.Kernel.ProcessFrames

set_option autoImplicit false

/- The vector of PCBs, in every run. -/
namespace PennOs.Kernel

open Prog (Keeps)

variable {k k' k'' : KernelState} {ptr self : PcbPtr} {level : Level} {pcb : Pcb}

/-- Each entry of the vector is a different PCB that is allocated; addresses are below the next
one, and PIDs are positive. -/
structure Roster (k : KernelState) : Prop where
  bounded : ∀ ptr pcb, k.pcbs ptr = some pcb → ptr < k.nextPtr
  positive : ∀ ptr pcb, k.pcbs ptr = some pcb → 0 < pcb.pid
  allocated : ∀ ptr ∈ k.allUnreapedPcbVector, ∃ pcb, k.pcbs ptr = some pcb
  distinct : k.allUnreapedPcbVector.Nodup

/-- A step keeps the roster. -/
def Enrols (k k' : KernelState) : Prop := Roster k → Roster k'

instance : Std.Refl Enrols where
  refl _ := id

instance : IsTrans KernelState Enrols where
  trans _ _ _ first second := second ∘ first

/-- The PIDs at all addresses. -/
def KernelState.pidAt (k : KernelState) (ptr : PcbPtr) : Option Int := (k.pcbs ptr).map (·.pid)

theorem pidAt_of_found (found : k.pcbs ptr = some pcb) : k.pidAt ptr = some pcb.pid := by
  rw [KernelState.pidAt, found, Option.map_some]

theorem Enrols.of_same (pids : k'.pidAt = k.pidAt)
    (vector : k'.allUnreapedPcbVector = k.allUnreapedPcbVector) (nextPtr : k'.nextPtr = k.nextPtr) :
    Enrols k k' := by
  intro roster
  have before : ∀ ptr pcb', k'.pcbs ptr = some pcb' →
      ∃ pcb, k.pcbs ptr = some pcb ∧ pcb.pid = pcb'.pid := by
    intro ptr pcb' found
    have pid := pidAt_of_found found
    rw [pids] at pid
    exact Option.map_eq_some_iff.mp pid
  constructor
  · intro ptr pcb' found
    obtain ⟨pcb, old, _⟩ := before ptr pcb' found
    exact nextPtr ▸ roster.bounded ptr pcb old
  · intro ptr pcb' found
    obtain ⟨pcb, old, pid⟩ := before ptr pcb' found
    exact pid ▸ roster.positive ptr pcb old
  · intro ptr listed
    obtain ⟨pcb, found⟩ := roster.allocated ptr (vector ▸ listed)
    have pid := pidAt_of_found found
    rw [← pids] at pid
    obtain ⟨pcb', found', _⟩ := Option.map_eq_some_iff.mp pid
    exact ⟨pcb', found'⟩
  · exact vector ▸ roster.distinct

theorem Enrols.of_sameButLinks (same : SameButLinks k k') : Enrols k k' := by
  refine .of_same (funext fun ptr => ?_) same.vector same.nextPtr
  have cores := congrArg (Option.map Pcb.pid) (same.cores ptr)
  rw [Option.map_map, Option.map_map] at cores
  exact cores

theorem Enrols.setPcb {pcb' : Pcb} (found : k.pcbs ptr = some pcb) (pid : pcb'.pid = pcb.pid) :
    Enrols k (k.setPcb ptr pcb') := by
  refine .of_same (funext fun other => ?_) rfl rfl
  rw [KernelState.pidAt, setPcb_pcbs]
  split
  · next here => rw [here, pidAt_of_found found, Option.map_some, pid]
  · rfl

theorem SamePids.pidAt (same : SamePids k k') : k'.pidAt = k.pidAt := by
  funext ptr
  cases found : k.pcbs ptr with
  | some pcb =>
      obtain ⟨pcb', found', _⟩ := same.kept ptr pcb found
      obtain ⟨pcb₁, found₁, pid⟩ := same.was ptr pcb' found'
      obtain rfl := Option.some.inj (found.symm.trans found₁)
      rw [pidAt_of_found found', pidAt_of_found found, pid]
  | none =>
      cases found' : k'.pcbs ptr with
      | none => rw [KernelState.pidAt, KernelState.pidAt, found, found']
      | some pcb' =>
          obtain ⟨pcb, before, _⟩ := same.was ptr pcb' found'
          rw [found] at before
          cases before

theorem Enrols.of_samePids (same : SamePids k k') : Enrols k k' :=
  .of_same same.pidAt same.vector same.nextPtr

theorem Enrols.allocate (positive : 0 < pcb.pid) : Enrols k (k.allocate pcb) := by
  intro roster
  have cases_ : ∀ other pcb', (k.allocate pcb).pcbs other = some pcb' →
      other = k.nextPtr ∧ pcb' = pcb ∨ k.pcbs other = some pcb' := by
    intro other pcb' found
    rw [allocate_pcbs] at found
    split at found
    · next here => exact .inl ⟨here, (Option.some.inj found).symm⟩
    · exact .inr found
  constructor
  · intro other pcb' found
    rcases cases_ other pcb' found with ⟨rfl, _⟩ | old
    · exact Nat.lt_succ_self _
    · exact Nat.lt_succ_of_lt (roster.bounded other pcb' old)
  · intro other pcb' found
    rcases cases_ other pcb' found with ⟨_, rfl⟩ | old
    · exact positive
    · exact roster.positive other pcb' old
  · intro other listed
    obtain ⟨pcb', found⟩ := roster.allocated other listed
    have apart : other ≠ k.nextPtr := Nat.ne_of_lt (roster.bounded other pcb' found)
    exact ⟨pcb', by rw [allocate_pcbs, if_neg apart, found]⟩
  · exact roster.distinct

/-- A PCB that is allocated but not listed yet enters the vector. -/
theorem Roster.push (roster : Roster k) (found : k.pcbs ptr = some pcb)
    (unlisted : ptr ∉ k.allUnreapedPcbVector) :
    Roster { k with allUnreapedPcbVector := k.allUnreapedPcbVector ++ [ptr] } := by
  refine ⟨roster.bounded, roster.positive, fun other listed => ?_, ?_⟩
  · rcases List.mem_append.mp listed with old | new
    · exact roster.allocated other old
    · exact ⟨pcb, (List.mem_singleton.mp new).symm ▸ found⟩
  · refine List.nodup_append.mpr ⟨roster.distinct, List.nodup_singleton _, ?_⟩
    intro other old another new same
    exact unlisted ((same.trans (List.mem_singleton.mp new)) ▸ old)

/-- A PCB leaves the vector and is freed. -/
theorem Roster.remove (roster : Roster k) (ptr : PcbPtr) :
    Roster { k with
      allUnreapedPcbVector := k.allUnreapedPcbVector.erase ptr
      pcbs := Function.update k.pcbs ptr none } := by
  have keeps : ∀ other pcb, Function.update k.pcbs ptr none other = some pcb →
      k.pcbs other = some pcb := by
    intro other pcb found
    rw [Function.update_apply] at found
    split at found
    · cases found
    · exact found
  constructor
  · exact fun other pcb found => roster.bounded other pcb (keeps other pcb found)
  · exact fun other pcb found => roster.positive other pcb (keeps other pcb found)
  · intro other listed
    obtain ⟨apart, old⟩ := roster.distinct.mem_erase_iff.mp listed
    obtain ⟨pcb, found⟩ := roster.allocated other old
    exact ⟨pcb, (Function.update_of_ne apart _ _).trans found⟩
  · exact roster.distinct.erase ptr

theorem Quiet.enrols {α : Type} {p : KernelM α} (quiet : Keeps Quiet p) : Keeps Enrols p :=
  fun _ _ _ run => .of_samePids (quiet _ _ _ run).toSamePids

theorem update_enrols {f : Pcb → Pcb} (pid : ∀ pcb, (f pcb).pid = pcb.pid) :
    Keeps Enrols (update ptr f) := by
  intro k _ k' run
  obtain ⟨pcb, found, rfl⟩ := update_inv run
  exact .setPcb found (pid pcb)

theorem pcbQueuePush_enrols : Keeps Enrols (pcbQueuePush level ptr) :=
  fun _ _ _ run => .of_sameButLinks (pcbQueuePush_frame run)

/-- A PCB is made: allocated, and not in the vector. -/
theorem pcbInitEmpty_roster {priority : Level} {pid : Int} {new : PcbPtr} (roster : Roster k)
    (positive : 0 < pid) (run : pcbInitEmpty self priority pid k = some (new, k')) :
    Roster k' ∧ (∃ pcb, k'.pcbs new = some pcb) ∧ new ∉ k'.allUnreapedPcbVector := by
  obtain ⟨parentPcb, k₁, read, run⟩ := Prog.bind_inv run
  obtain ⟨_, rfl⟩ := deref_inv read
  simp only [Prog.get_bind, Prog.modify_bind] at run
  obtain ⟨_, k₂, added, run⟩ := Prog.bind_inv run
  simp only [Prog.pure_run, Option.some.injEq, Prod.mk.injEq] at run
  obtain ⟨rfl, rfl⟩ := run
  have same := (pcbAddChildPid_quiet _ _ _ added).toSamePids
  have born : Roster (k.allocate (emptyPcb parentPcb.pid priority pid)) :=
    Enrols.allocate positive roster
  have found : (k.allocate (emptyPcb parentPcb.pid priority pid)).pcbs k.nextPtr =
      some (emptyPcb parentPcb.pid priority pid) := by
    rw [allocate_pcbs, if_pos rfl]
  obtain ⟨pcb, after, _⟩ := same.kept _ _ found
  refine ⟨Enrols.of_samePids same born, ⟨pcb, after⟩, ?_⟩
  rw [same.vector]
  intro listed
  obtain ⟨old, oldFound⟩ := roster.allocated _ listed
  exact Nat.lt_irrefl _ (roster.bounded _ old oldFound)

/-- A PCB is listed; other PCBs may be updated before that. -/
theorem push_roster {new : PcbPtr} (roster : Roster k) (allocated : ∃ pcb, k.pcbs new = some pcb)
    (unlisted : new ∉ k.allUnreapedPcbVector) (run : pcbVecPushBack new k = some ((), k')) :
    Roster k' := by
  simp only [pcbVecPushBack, Prog.modify_run, Option.some.injEq, Prod.mk.injEq, true_and] at run
  obtain ⟨pcb, found⟩ := allocated
  exact run ▸ roster.push found unlisted

theorem getNextFreePid_above {pid : Int} (run : getNextFreePid k = some (pid, k')) :
    k = k' ∧ 3 ≤ pid := by
  simp only [getNextFreePid, Prog.get_bind] at run
  obtain ⟨used, k₁, read, run⟩ := Prog.bind_inv run
  obtain ⟨rfl, _⟩ := pidsOf_inv read
  obtain ⟨rfl, _, above⟩ := nextFreePidLoop_inv run
  exact ⟨rfl, above⟩

theorem kProcCreate_enrols {priority : Level} : Keeps Enrols (kProcCreate self priority) := by
  intro k new k' run roster
  obtain ⟨_, k₁, called, run⟩ := Prog.bind_inv run
  obtain ⟨_, _, _, rfl⟩ := asCaller_inv called
  obtain ⟨pid, k₂, chosen, run⟩ := Prog.bind_inv run
  obtain ⟨rfl, above⟩ := getNextFreePid_above chosen
  obtain ⟨ptr, k₃, made, run⟩ := Prog.bind_inv run
  obtain ⟨born, allocated, unlisted⟩ := pcbInitEmpty_roster roster (by omega) made
  obtain ⟨_, k₄, listed, run⟩ := Prog.bind_inv run
  simp only [Prog.pure_run, Option.some.injEq, Prod.mk.injEq] at run
  exact run.2 ▸ push_roster born allocated unlisted listed

theorem spawnShell_enrols : Keeps Enrols (spawnShell self) := by
  intro k _ k' run roster
  obtain ⟨_, k₁, called, run⟩ := Prog.bind_inv run
  obtain ⟨_, _, _, rfl⟩ := asCaller_inv called
  simp only [Prog.get_bind] at run
  obtain ⟨_, k₂, checked, run⟩ := Prog.bind_inv run
  obtain ⟨_, rfl⟩ := require_inv checked
  rw [Prog.modify_bind] at run
  have spawning : Enrols k k.setShellSpawned := .of_same rfl rfl rfl
  obtain ⟨shell, k₃, made, run⟩ := Prog.bind_inv run
  obtain ⟨born, allocated, unlisted⟩ := pcbInitEmpty_roster (spawning roster) (by decide) made
  obtain ⟨_, k₄, started, run⟩ := Prog.bind_inv run
  obtain ⟨shellPcb, shellFound, rfl⟩ := update_inv started
  have starting : Enrols k₃ (k₃.setPcb shell { shellPcb with thrd := .live, status := .running }) :=
    .setPcb shellFound rfl
  have exists_ : ∃ pcb, (k₃.setPcb shell { shellPcb with thrd := .live, status := .running }).pcbs
      shell = some pcb := ⟨_, by rw [setPcb_pcbs, if_pos rfl]⟩
  obtain ⟨_, k₅, listed, run⟩ := Prog.bind_inv run
  have full := push_roster (starting born) exists_ unlisted listed
  have rest : Keeps Enrols (pcbQueuePush 0 shell >>= fun _ =>
      update self (fun pcb => { pcb with status := .blocked }) >>= fun _ =>
      Prog.modify fun k => k.setPending (.initJoin self shell :: k.pending)) :=
    .bind pcbQueuePush_enrols fun _ => .bind (update_enrols fun _ => rfl) fun _ =>
      .modify fun _ => .of_same rfl rfl rfl
  exact rest _ _ _ run full

theorem setRoutineAndRun_enrols : Keeps Enrols (setRoutineAndRun self ptr) :=
  .bind (.of_state fun _ _ _ run => (asCaller_inv run).2.2.2) fun _ =>
    .bind (.of_state fun _ _ _ run => (deref_inv run).2) fun _ =>
    .bind (.of_state fun _ _ _ run => (require_inv run).2) fun _ =>
    .bind (update_enrols fun _ => rfl) fun _ =>
    .bind (.of_state fun _ _ _ run => (deref_inv run).2) fun _ => pcbQueuePush_enrols

theorem kNice_enrols {pid newPriority : Int} : Keeps Enrols (kNice self pid newPriority) := by
  refine .bind (.of_state fun _ _ _ run => (asCaller_inv run).2.2.2) fun _ => ?_
  split
  swap
  · exact .pure _
  refine .bind (.of_state fun _ _ _ run => (pcbVecSeekPcbByPid_inv run).1) fun found => ?_
  cases found with
  | none => exact .pure _
  | some target => exact .bind (update_enrols fun _ => rfl) fun _ => .pure _

/-- `pcb_vec_remove_by_pcb` and `pcb_destroy` -/
theorem remove_enrols : Keeps Enrols (pcbVecRemoveByPcb ptr >>= fun _ => pcbDestroy ptr) := by
  intro k _ k' run roster
  simp only [pcbVecRemoveByPcb, pcbDestroy, Prog.modify_bind, Prog.modify_run, Option.some.injEq,
    Prod.mk.injEq, true_and] at run
  exact run ▸ roster.remove ptr

theorem maintain_enrols : Keeps Enrols (maintain ptr) := by
  refine .bind (.of_state fun _ _ _ run => (deref_inv run).2) fun pcb => .bind .get fun k => ?_
  refine .ite (fun _ => ?_) fun _ => .ite (fun _ => ?_) fun _ => .ite (fun _ => ?_) fun _ => .pure _
  · exact .bind (.of_state fun _ _ _ run => pcbInQueue_state run) fun _ =>
      .ite (fun _ => .bind pcbQueuePush_enrols fun _ => .pure _) fun _ => .pure _
  · exact .ite (fun _ => .bind (update_enrols fun _ => rfl) fun _ =>
      .bind pcbQueuePush_enrols fun _ => .pure _) fun _ => .pure _
  · refine .bind (fun _ _ _ run => .of_sameButLinks (pcbQueuePopByPid_frame run)) fun _ => ?_
    intro k gone k' run
    obtain ⟨_, k₁, removed, run⟩ := Prog.bind_inv run
    obtain ⟨_, k₂, destroyed, run⟩ := Prog.bind_inv run
    simp only [Prog.pure_run, Option.some.injEq, Prod.mk.injEq] at run
    exact run.2 ▸ remove_enrols _ _ _ ((Prog.bind_of_run removed _).trans destroyed)

theorem maintenancePass_enrols : Keeps Enrols maintenancePass := by
  have loop : ∀ count i, Keeps Enrols (maintenanceLoop count i) := by
    intro count
    induction count with
    | zero => exact fun _ => .pure _
    | succ count ih =>
        intro i
        refine .bind .get fun k => ?_
        cases k.allUnreapedPcbVector[i]? with
        | none => exact .fault
        | some curr => exact .bind maintain_enrols fun _ => .ite (fun _ => ih i) fun _ => ih (i + 1)
  exact .bind .get fun _ => .bind (.of_state fun _ _ _ run => (require_inv run).2) fun _ =>
    loop _ _

theorem pick_enrols : Keeps Enrols (pick level) := by
  refine .bind .get fun _ => .bind (.of_state fun _ _ _ run => (require_inv run).2) fun _ =>
    .bind (fun _ _ _ run => .of_sameButLinks (pickLoop_frame run)) fun found => ?_
  cases found with
  | none => exact .pure _
  | some curr =>
      exact .bind (.of_state fun _ _ _ run => (deref_inv run).2) fun _ =>
        .bind (.of_state fun _ _ _ run => (require_inv run).2) fun _ =>
        .modify fun _ => .of_same rfl rfl rfl

theorem idleTick_enrols : Keeps Enrols idleTick :=
  .bind .get fun _ => .bind (.of_state fun _ _ _ run => (require_inv run).2) fun _ =>
    .modify fun _ => .of_same rfl rfl rfl

theorem quantumEnd_enrols : Keeps Enrols quantumEnd := by
  refine .bind .get fun first => ?_
  cases first.quantum with
  | none => exact .fault
  | some slot =>
      refine .bind (.modify fun _ => .of_same rfl rfl rfl) fun _ =>
        .bind (fun _ _ _ run => .of_sameButLinks (pcbQueuePop_frame run)) fun popped => ?_
      cases popped with
      | none => exact .pure _
      | some _ =>
          refine .bind (.of_state fun _ _ _ run => (deref_inv run).2) fun pcb => ?_
          exact .ite (fun _ => pcbQueuePush_enrols) fun _ => .ite (fun _ =>
            .ite (fun _ => .bind (update_enrols fun _ => rfl) fun _ => pcbQueuePush_enrols)
              fun _ => .pure _) fun _ => .ite (fun _ => remove_enrols) fun _ => .pure _

theorem event_enrols (event : Event) : Keeps Enrols event.run := by
  have quietly : ∀ {α : Type} {p : KernelM α}, Keeps Quiet p → Keeps Enrols (do let _ ← p) :=
    fun quiet => .bind (Quiet.enrols quiet) fun _ => .pure _
  cases event with
  | spawnShell self => exact spawnShell_enrols
  | shellReturned self => exact Quiet.enrols shellReturned_quiet
  | initResumed self shell => exact Quiet.enrols initResumed_quiet
  | procCreate self priority => exact .bind kProcCreate_enrols fun _ => .pure _
  | setRoutineAndRun self proc => exact setRoutineAndRun_enrols
  | kill self pid sig => exact Quiet.enrols kKill_quiet
  | selfStopResumed self => exact Quiet.enrols selfStopResumed_quiet
  | exit self => exact Quiet.enrols kExit_quiet
  | sleep self length => exact Quiet.enrols kSleep_quiet
  | sleepResumed self => exact Quiet.enrols kSleepResumed_quiet
  | waitpid self pid nohang => exact quietly kWaitpid_quiet
  | waitpidJoined self child => exact Quiet.enrols kWaitpidJoined_quiet
  | waitpidReap self child => exact quietly kWaitpidReap_quiet
  | nice self pid newPriority => exact .bind kNice_enrols fun _ => .pure _
  | maintenancePass => exact maintenancePass_enrols
  | pick level => exact pick_enrols
  | idleTick => exact idleTick_enrols
  | quantumEnd => exact quantumEnd_enrols

theorem run_roster {sound : KernelState → Event → Prop} (run : Run sound k k') (roster : Roster k) :
    Roster k' := by
  induction run with
  | refl => exact roster
  | step _ _ step ih => exact event_enrols _ _ _ _ step ih

theorem boot_roster : Roster .boot := by
  have table := (boot_orderly).table
  refine ⟨table.bounded, fun ptr pcb found => ?_, table.allocated, table.distinct⟩
  rw [boot_pcbs] at found
  split at found
  · cases found
    decide
  · cases found

end PennOs.Kernel
