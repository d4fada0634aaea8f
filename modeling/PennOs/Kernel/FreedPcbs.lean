import Mathlib.Logic.Relation
import PennOs.Kernel.QueueIntegrity
import PennOs.Kernel.Lifecycle

set_option autoImplicit false

/- The ready queues at the time a PCB is freed. -/
namespace PennOs.Kernel

open LinkedChain (Links)

variable {k k' : KernelState} {ptr : PcbPtr} {level : Level} {lists : Level → List PcbPtr}

/-- The PCB is met by following the links of a queue from its head. -/
def KernelState.Queued (k : KernelState) (level : Level) (ptr : PcbPtr) : Prop :=
  ∃ head, k.head level = some head ∧
    Relation.ReflTransGen (fun node after => k.next node = some after) head ptr

/-- A state a maintenance pass from `k` goes through between two PCBs. -/
inductive PassReaches (k : KernelState) : KernelState → Prop
  | start : k.quantum = none → PassReaches k k
  | turn {k₁ k₂ : KernelState} {curr : PcbPtr} {gone : Bool} (before : PassReaches k k₁)
      (listed : curr ∈ k₁.allUnreapedPcbVector) (run : maintain curr k₁ = some (gone, k₂)) :
      PassReaches k k₂

/-- `pcb_destroy` is called on `ptr` in the state `k'` while an event of the scheduler runs
from `k`. -/
inductive Destroys (k : KernelState) : Event → PcbPtr → KernelState → Prop
  | maintain {k₁ k₂ k₃ : KernelState} {curr : PcbPtr} {pcb : Pcb} {result : Option PcbPtr}
      (before : PassReaches k k₁) (found : k₁.pcbs curr = some pcb) (reaped : pcb.status = .reaped)
      (popped : pcbQueuePopByPid pcb.priorityLevel pcb.pid k₁ = some (result, k₂))
      (removed : pcbVecRemoveByPcb curr k₂ = some ((), k₃)) : Destroys k .maintenancePass curr k₃
  | quantumEnd {k₁ k₂ : KernelState} {curr : PcbPtr} {pcb : Pcb} {result : Option PcbPtr}
      {level : Level} (running : k.quantum = some (level, curr))
      (popped : pcbQueuePop level (k.setQuantum none) = some (result, k₁))
      (found : k₁.pcbs curr = some pcb) (reaped : pcb.status = .reaped)
      (removed : pcbVecRemoveByPcb curr k₁ = some ((), k₂)) : Destroys k .quantumEnd curr k₂

theorem Intact.queued_mem (intact : Intact k lists) (queued : k.Queued level ptr) :
    ptr ∈ lists level := by
  obtain ⟨head, first, path⟩ := queued
  have links := intact.forest.links level
  rw [first] at links
  induction path with
  | refl =>
      cases list : lists level with
      | nil =>
          rw [list] at links
          cases links
      | cons node rest =>
          rw [list] at links
          rw [Option.some.inj links.1]
          exact List.mem_cons_self
  | tail _ link ih => exact links.closed ih link

/-- What a queue reaches is allocated and in the vector. -/
theorem Orderly.queued_listed (orderly : Orderly k lists) (queued : k.Queued level ptr) :
    ptr ∈ k.allUnreapedPcbVector := by
  obtain ⟨pcb, found⟩ := orderly.placed.allocated level ptr (orderly.intact.queued_mem queued)
  exact orderly.table.listed ptr pcb found

theorem PassReaches.orderly (reached : PassReaches k k') (orderly : Orderly k lists) :
    (∃ lists', Orderly k' lists') ∧ k'.quantum = none := by
  induction reached with
  | start idle => exact ⟨⟨lists, orderly⟩, idle⟩
  | turn _ _ run ih =>
      obtain ⟨⟨lists', orderly'⟩, idle⟩ := ih
      exact maintain_orderly orderly' idle run

/-- Removing a PCB from the vector touches no queue. -/
theorem Intact.removed (intact : Intact k lists) (out : ∀ level, ptr ∉ lists level)
    (run : pcbVecRemoveByPcb ptr k = some ((), k')) : ¬ k'.Queued level ptr := by
  simp only [pcbVecRemoveByPcb, Prog.modify_run, Option.some.injEq, Prod.mk.injEq, true_and] at run
  subst run
  intro queued
  have same : Intact { k with allUnreapedPcbVector := k.allUnreapedPcbVector.erase ptr } lists :=
    intact.of_same rfl rfl
  exact out level (same.queued_mem queued)

/-- At both places where the scheduler frees a PCB it is in no queue. -/
theorem Orderly.destroys_unqueued {event : Event} (orderly : Orderly k lists)
    (destroys : Destroys k event ptr k') : ¬ k'.Queued level ptr := by
  cases destroys with
  | maintain before found reaped popped removed =>
      obtain ⟨⟨lists', orderly'⟩, idle⟩ := before.orderly orderly
      obtain ⟨lists'', orderly'', out⟩ := popOwn_orderly orderly' idle found popped
      exact orderly''.intact.removed out removed
  | quantumEnd running popped found reaped removed =>
      obtain ⟨_, _, _, _, orderly', out⟩ := quantumPop_orderly orderly running popped
      exact orderly'.intact.removed out removed

/-- Where no `k_nice` moves a queued PCB to another priority, no PCB is freed in a queue, and
queues reach only PCBs of the vector. -/
theorem freed_unqueued (reached : Run NiceInPlace .boot k) :
    (∀ event ptr k', Destroys k event ptr k' → ∀ level, ¬ k'.Queued level ptr) ∧
      ∀ level ptr, k.Queued level ptr → ptr ∈ k.allUnreapedPcbVector := by
  obtain ⟨lists, orderly⟩ := run_orderly reached boot_orderly
  exact ⟨fun _ _ _ destroys _ => orderly.destroys_unqueued destroys,
    fun _ _ queued => orderly.queued_listed queued⟩

/-- The shell has reaped its child; the maintenance pass to come frees it. -/
theorem freed_unqueued_afterWait :
    ∃ k', Destroys (afterWait.after [.quantumEnd]) .maintenancePass 2 k' ∧
      ∀ level, ¬ k'.Queued level 2 := by
  have reached : Run NiceInPlace .boot (afterWait.after [.quantumEnd]) := by
    have waited : Run NiceInPlace .boot afterWait :=
      Run.of_runEvents (afterExit_run (by simp [startProcess, NiceInPlace])
        (by simp [exitProcess, NiceInPlace])) (by simp [waitForIt, NiceInPlace])
        (runEvents_after (by decide +kernel))
    exact Run.of_runEvents waited (by simp [NiceInPlace]) (runEvents_after (by decide +kernel))
  have status : ((afterWait.after [.quantumEnd]).pcbs 2).map (·.status) = some .reaped := by
    decide +kernel
  obtain ⟨pcb, found, reaped⟩ := Option.map_eq_some_iff.mp status
  have frees : (((afterWait.after [.quantumEnd]).pcbs 2).bind fun pcb => (do
      let _ ← pcbQueuePopByPid pcb.priorityLevel pcb.pid
      pcbVecRemoveByPcb 2) (afterWait.after [.quantumEnd])).isSome := by
    decide +kernel
  rw [found] at frees
  obtain ⟨⟨_, k'⟩, freed⟩ := Option.isSome_iff_exists.mp frees
  obtain ⟨result, k₁, popped, removed⟩ := Prog.bind_inv freed
  have destroys : Destroys (afterWait.after [.quantumEnd]) .maintenancePass 2 k' :=
    .maintain (.start (by decide +kernel)) found reaped popped removed
  exact ⟨k', destroys, (freed_unqueued reached).1 _ _ _ destroys⟩

/-- The shell moves the queued process to priority 2, terminates it and waits for it. -/
def niceAndReap : List Event :=
  [.pick 0, .nice 1 3 2, .kill 1 3 pSigterm, .waitpid 1 3 false, .waitpidJoined 1 2,
    .waitpidReap 1 2, .quantumEnd, .maintenancePass]

/-- Queue 1 still starts with the PCB that was freed. -/
theorem freed_in_queue :
    ¬ ∀ k, Run (fun _ _ => True) .boot k →
      (∀ event ptr k', Destroys k event ptr k' → ∀ level, ¬ k'.Queued level ptr) ∧
        ∀ level ptr, k.Queued level ptr → ptr ∈ k.allUnreapedPcbVector := by
  intro always
  have reached : Run (fun _ _ => True) .boot (processStarted.after niceAndReap) :=
    Run.of_runEvents (processStarted_run fun _ _ _ => trivial) (fun _ _ _ => trivial)
      (runEvents_after (by decide +kernel))
  have head : (processStarted.after niceAndReap).head 1 = some 2 := by decide +kernel
  have gone : 2 ∉ (processStarted.after niceAndReap).allUnreapedPcbVector := by decide +kernel
  exact gone ((always _ reached).2 1 2 ⟨2, head, .refl⟩)

end PennOs.Kernel
