import PennOs.Kernel.ChildLists

set_option autoImplicit false

/- `s_spawn` on a host that runs out of memory or threads. -/
namespace PennOs.Kernel

variable {k k' : KernelState} {ptr self : PcbPtr} {pcb : Pcb} {memory thread : Bool} {result : Int}

/-- `k_proc_cleanup` -/
def kProcCleanup (ptr : PcbPtr) : KernelM Unit := do
  pcbVecRemoveByPcb ptr
  pcbDestroy ptr

/-- `k_set_routine_and_run`; `thread` says whether the host creates the thread. -/
def kSetRoutineAndRun (thread : Bool) (self proc : PcbPtr) : KernelM Int := do
  if thread then
    setRoutineAndRun self proc
    return 0
  else
    update proc fun pcb => { pcb with status := .zombie }
    return -1

/-- `s_spawn`; `memory` says whether the host has memory for the wrapper. -/
def sSpawn (memory thread : Bool) (self : PcbPtr) : KernelM Int := do
  let child ← kProcCreate self 1
  if memory then
    if (← kSetRoutineAndRun thread self child) < 0 then
      kProcCleanup child
      return -1
    let pcb ← deref child
    return pcb.pid
  else
    kProcCleanup child
    return -1

/-- The states the kernel comes to on a host that may fail. -/
inductive Reached : KernelState → Prop
  | boot : Reached .boot
  | event {k k' : KernelState} {event : Event} (before : Reached k) (step : Step k event k') : Reached k'
  | spawn {k k' : KernelState} {memory thread : Bool} {self : PcbPtr} {result : Int}
      (before : Reached k) (run : sSpawn memory thread self k = some (result, k')) : Reached k'

/-- The vector, the queues with their links and the caller's child list are as before. -/
structure NoTrace (caller : PcbPtr) (k k' : KernelState) : Prop where
  vector : k'.allUnreapedPcbVector = k.allUnreapedPcbVector
  queues : k'.priorityQueueArray = k.priorityQueueArray
  links : k'.next = k.next
  children : (k'.pcbs caller).map Pcb.childPids = (k.pcbs caller).map Pcb.childPids

section Enrolment

open Prog (Keeps)

theorem kProcCleanup_enrols : Keeps Enrols (kProcCleanup ptr) := remove_enrols

theorem sSpawn_enrols : Keeps Enrols (sSpawn memory thread self) := by
  refine .bind kProcCreate_enrols fun child => ?_
  have undone : Keeps Enrols (do kProcCleanup child; return (-1 : Int)) :=
    .bind kProcCleanup_enrols fun _ => .pure _
  refine .ite (fun _ => .bind (.ite (fun _ => ?_) fun _ => ?_) fun created => ?_) fun _ => undone
  · exact .bind setRoutineAndRun_enrols fun _ => .pure _
  · exact .bind (update_enrols fun _ => rfl) fun _ => .pure _
  · exact .ite (fun _ => undone) fun _ =>
      .bind (.of_state fun _ _ _ run => (deref_inv run).2) fun _ => .pure _

theorem Reached.roster (reached : Reached k) : Roster k := by
  induction reached with
  | boot => exact boot_roster
  | event _ step ih => exact event_enrols _ _ _ _ step ih
  | spawn _ run ih => exact sSpawn_enrols _ _ _ run ih

end Enrolment

section Failures

/-- The child was created, given a status and cleaned up: only the caller's list is longer. -/
theorem cleanup_traces {pid : Int} (roster : Roster k) (found : k.pcbs self = some pcb)
    (cores : ∀ other, other ≠ k.nextPtr → k'.pcbs other = (k.adopt self pcb 1 pid).pcbs other)
    (vector : k'.allUnreapedPcbVector = (k.adopt self pcb 1 pid).allUnreapedPcbVector)
    (queues : k'.priorityQueueArray = k.priorityQueueArray) {k'' : KernelState}
    (run : kProcCleanup k.nextPtr k' = some ((), k'')) :
    k''.allUnreapedPcbVector = k.allUnreapedPcbVector ∧
      k''.priorityQueueArray = k.priorityQueueArray ∧ k''.next = k.next ∧
      k''.pcbs self = some { pcb with childPids := pcb.childPids ++ [pid] } := by
  have apart : self ≠ k.nextPtr := Nat.ne_of_lt (roster.bounded self pcb found)
  have fresh : k.nextPtr ∉ k.allUnreapedPcbVector := by
    intro listed
    obtain ⟨other, there⟩ := roster.allocated _ listed
    exact Nat.lt_irrefl _ (roster.bounded _ other there)
  have free : k.pcbs k.nextPtr = none := by
    cases there : k.pcbs k.nextPtr with
    | none => rfl
    | some other => exact absurd (roster.bounded _ other there) (Nat.lt_irrefl _)
  simp only [kProcCleanup, pcbVecRemoveByPcb, pcbDestroy, Prog.modify_bind, Prog.modify_run,
    Option.some.injEq, Prod.mk.injEq, true_and] at run
  subst run
  refine ⟨?_, queues, ?_, ?_⟩
  · show k'.allUnreapedPcbVector.erase k.nextPtr = _
    rw [vector]
    show (k.allUnreapedPcbVector ++ [k.nextPtr]).erase k.nextPtr = _
    rw [List.erase_append_right _ fresh, List.erase_cons_head, List.append_nil]
  · funext other
    show (Function.update k'.pcbs k.nextPtr none other).bind (·.nextPcbPtr) = _
    by_cases new : other = k.nextPtr
    · rw [new, Function.update_self, KernelState.next, free]
    · rw [Function.update_of_ne new, cores other new]
      by_cases here : other = self
      · rw [here, adopt_self, KernelState.next, found]
        rfl
      · rw [adopt_old here new]
        rfl
  · show Function.update k'.pcbs k.nextPtr none self = _
    rw [Function.update_of_ne apart, cores self apart, adopt_self]

/-- What a spawn that fails for want of memory or of a thread leaves behind. -/
theorem sSpawn_fails (roster : Roster k) (fails : memory = false ∨ thread = false)
    (run : sSpawn memory thread self k = some (result, k')) :
    result = -1 ∧ ∃ pcb pid, k.pcbs self = some pcb ∧
      k'.allUnreapedPcbVector = k.allUnreapedPcbVector ∧
      k'.priorityQueueArray = k.priorityQueueArray ∧ k'.next = k.next ∧
      k'.pcbs self = some { pcb with childPids := pcb.childPids ++ [pid] } := by
  obtain ⟨child, k₁, created, run⟩ := Prog.bind_inv run
  obtain ⟨pcb, pid, found, _, _, _, _, rfl, rfl⟩ := kProcCreate_inv roster created
  have apart : self ≠ k.nextPtr := Nat.ne_of_lt (roster.bounded self pcb found)
  cases memory with
  | false =>
      rw [if_neg Bool.false_ne_true] at run
      obtain ⟨_, k₂, cleaned, run⟩ := Prog.bind_inv run
      simp only [Prog.pure_run, Option.some.injEq, Prod.mk.injEq] at run
      obtain ⟨rfl, rfl⟩ := run
      exact ⟨rfl, pcb, pid, found, cleanup_traces roster found (fun _ _ => rfl) rfl rfl cleaned⟩
  | true =>
      obtain rfl : thread = false := fails.resolve_left (by simp)
      rw [if_pos rfl] at run
      obtain ⟨status, k₂, set, run⟩ := Prog.bind_inv run
      rw [kSetRoutineAndRun, if_neg Bool.false_ne_true,
        Prog.bind_of_run (update_run (adopt_new apart))] at set
      simp only [Prog.pure_run, Option.some.injEq, Prod.mk.injEq] at set
      obtain ⟨rfl, rfl⟩ := set
      rw [if_pos (by decide)] at run
      obtain ⟨_, k₃, cleaned, run⟩ := Prog.bind_inv run
      simp only [Prog.pure_run, Option.some.injEq, Prod.mk.injEq] at run
      obtain ⟨rfl, rfl⟩ := run
      have others := fun other (new : other ≠ k.nextPtr) =>
        (setPcb_pcbs (k.adopt self pcb 1 pid) k.nextPtr other
          { emptyPcb pcb.pid 1 pid with status := .zombie }).trans (if_neg new)
      exact ⟨rfl, pcb, pid, found, cleanup_traces roster found others rfl rfl cleaned⟩

/-- A spawn that fails leaves the vector and the queues alone, and never the caller's child list. -/
theorem failed_spawn_traces (reached : Reached k) (fails : memory = false ∨ thread = false)
    (run : sSpawn memory thread self k = some (result, k')) :
    result = -1 ∧ k'.allUnreapedPcbVector = k.allUnreapedPcbVector ∧
      k'.priorityQueueArray = k.priorityQueueArray ∧ k'.next = k.next ∧ ¬ NoTrace self k k' := by
  obtain ⟨answer, pcb, pid, found, vector, queues, links, found'⟩ :=
    sSpawn_fails reached.roster fails run
  refine ⟨answer, vector, queues, links, fun clean => ?_⟩
  have children := clean.children
  rw [found, found', Option.map_some, Option.map_some, Option.some.injEq] at children
  have lengths := congrArg List.length children
  rw [List.length_append, List.length_singleton] at lengths
  omega

theorem Reached.of_run {sound : KernelState → Event → Prop} (run : Run sound .boot k) : Reached k := by
  induction run with
  | refl => exact .boot
  | step _ _ step ih => exact ih.event step

/-- The shell with one child. -/
def shellSpawns : KernelState := processStarted.after [.pick 0]

theorem shellSpawns_reached : Reached shellSpawns := by
  have reached : Run (fun _ _ => True) .boot shellSpawns :=
    Run.of_runEvents (processStarted_run fun _ _ _ => trivial) (fun _ _ _ => trivial)
      (runEvents_after (by decide +kernel))
  exact .of_run reached

/-- Its spawn fails for want of memory. -/
theorem shellSpawns_run : sSpawn false true 1 shellSpawns =
    some (-1, (sSpawn false true 1).after shellSpawns) := Prog.run_after (by decide +kernel)

theorem failed_spawn_traces_shellSpawns :
    ¬ NoTrace 1 shellSpawns ((sSpawn false true 1).after shellSpawns) :=
  (failed_spawn_traces shellSpawns_reached (.inl rfl) shellSpawns_run).2.2.2.2

/-- The child list of the shell holds the PID of a process that was never there. -/
theorem failed_spawn_not_undone :
    ¬ ∀ (k k' : KernelState) (memory thread : Bool) (self : PcbPtr) (result : Int), Reached k →
      (memory = false ∨ thread = false) → sSpawn memory thread self k = some (result, k') →
      result = -1 ∧ NoTrace self k k' := by
  intro undone
  have clean := (undone _ _ _ _ _ _ shellSpawns_reached (.inl rfl) shellSpawns_run).2
  have children := clean.children
  have known : (shellSpawns.pcbs 1).map Pcb.childPids = some [3] ∧
      (((sSpawn false true 1).after shellSpawns).pcbs 1).map Pcb.childPids = some [3, 4] := by
    decide +kernel
  rw [known.1, known.2] at children
  cases children

end Failures

end PennOs.Kernel
