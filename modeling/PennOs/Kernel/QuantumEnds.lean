import PennOs.Kernel.ProcessFrames
import PennOs.Kernel.QueueIntegrity

set_option autoImplicit false

/- From `spthread_continue` to the `pcb_queue_pop` at the end of the quantum. -/
namespace PennOs.Kernel

open Prog (Keeps)

variable {k k' k'' : KernelState} {ptr self curr : PcbPtr} {level other : Level} {event : Event}

/-- `pcb_queue_pop` takes `curr` off the front of the queue, and nothing else from any queue. -/
def PopsExactly (level : Level) (curr : PcbPtr) (k : KernelState) : Prop :=
  ∃ k', pcbQueuePop level k = some (some curr, k') ∧ k'.head level = k.next curr ∧
    (k'.priorityQueueArray level).length + 1 = (k.priorityQueueArray level).length ∧
    ∀ other, other ≠ level → k'.priorityQueueArray other = k.priorityQueueArray other

theorem pcbQueuePop_first {pcb : Pcb} (filled : 0 < (k.priorityQueueArray level).length)
    (head : k.head level = some curr) (found : k.pcbs curr = some pcb) :
    PopsExactly level curr k := by
  have head' : (k.priorityQueueArray level).qHeadPtr = some curr := head
  let popped : PcbQueue := ⟨pcb.nextPcbPtr,
    if (k.priorityQueueArray level).length = 1 then none else (k.priorityQueueArray level).qEndPtr,
    (k.priorityQueueArray level).length - 1⟩
  have unlink : update curr (fun pcb => { pcb with nextPcbPtr := none }) (k.setQueue level popped) =
      some ((), (k.setQueue level popped).setPcb curr { pcb with nextPcbPtr := none }) :=
    update_run (show (k.setQueue level popped).pcbs curr = some pcb from found)
  refine ⟨(k.setQueue level popped).setPcb curr { pcb with nextPcbPtr := none }, ?_, ?_, ?_, ?_⟩
  · have counted : (k.priorityQueueArray level).length ≠ 0 := by omega
    simp only [pcbQueuePop, Prog.get_bind, counted, ↓reduceIte, head']
    rw [Prog.bind_of_run (deref_run found), Prog.modify_bind, Prog.bind_of_run unlink]
    rfl
  · have first : ((k.setQueue level popped).setPcb curr { pcb with nextPcbPtr := none }).head level =
        pcb.nextPcbPtr := by
      simp [KernelState.head, KernelState.setPcb, KernelState.setQueue, popped]
    rw [first, next_of_found found]
  · have length : (((k.setQueue level popped).setPcb curr
        { pcb with nextPcbPtr := none }).priorityQueueArray level).length =
        (k.priorityQueueArray level).length - 1 := by
      simp [KernelState.setPcb, KernelState.setQueue, popped]
    omega
  · intro other apart
    simp [KernelState.setPcb, KernelState.setQueue, apart]

/-- Nothing else makes `pcb_queue_pop` return `curr`. -/
theorem PopsExactly.front (pops : PopsExactly level curr k) :
    0 < (k.priorityQueueArray level).length ∧ k.head level = some curr := by
  obtain ⟨k', run, _⟩ := pops
  simp only [pcbQueuePop, Prog.get_bind] at run
  by_cases empty : (k.priorityQueueArray level).length = 0
  · rw [if_pos empty] at run
    cases run
  rw [if_neg empty] at run
  cases head : (k.priorityQueueArray level).qHeadPtr with
  | none =>
      rw [head] at run
      cases run
  | some first =>
      simp only [head] at run
      obtain ⟨_, k₁, read, run⟩ := Prog.bind_inv run
      rw [Prog.modify_bind] at run
      obtain ⟨_, k₂, _, run⟩ := Prog.bind_inv run
      cases run
      refine ⟨?_, head⟩
      omega

section Growth

/-- What a process does to the queue at `level`. Where the length is positive, the first PCB stays.
Where the length is zero although there is a first PCB, a push replaces it. -/
structure QueueGrows (level : Level) (k k' : KernelState) : Prop where
  alive : ∀ ptr pcb, k.pcbs ptr = some pcb → ∃ pcb', k'.pcbs ptr = some pcb'
  first : 0 < (k.priorityQueueArray level).length →
    0 < (k'.priorityQueueArray level).length ∧ k'.head level = k.head level
  stray : ∀ curr, (k.priorityQueueArray level).length = 0 → k.head level = some curr →
    (k'.priorityQueueArray level).length = 0 ∧ k'.head level = some curr ∨
      0 < (k'.priorityQueueArray level).length ∧ k'.head level ≠ some curr

theorem QueueGrows.of_queue (alive : ∀ ptr pcb, k.pcbs ptr = some pcb → ∃ pcb', k'.pcbs ptr = some pcb')
    (same : k'.priorityQueueArray level = k.priorityQueueArray level) : QueueGrows level k k' := by
  refine ⟨alive, ?_, ?_⟩
  · intro filled
    rw [KernelState.head, same]
    exact ⟨filled, rfl⟩
  · intro curr empty head
    apply Or.inl
    rw [KernelState.head, same]
    exact ⟨empty, head⟩

instance : Std.Refl (QueueGrows level) where
  refl _ := .of_queue (fun _ pcb found => ⟨pcb, found⟩) rfl

instance : IsTrans KernelState (QueueGrows level) where
  trans k k' k'' early late := by
    refine ⟨?_, ?_, ?_⟩
    · intro ptr pcb found
      obtain ⟨pcb', found'⟩ := early.alive ptr pcb found
      exact late.alive ptr pcb' found'
    · intro filled
      have filled' := early.first filled
      have filled'' := late.first filled'.1
      exact ⟨filled''.1, filled''.2.trans filled'.2⟩
    · intro curr empty head
      rcases early.stray curr empty head with ⟨empty', head'⟩ | ⟨filled', apart⟩
      · exact late.stray curr empty' head'
      · have filled'' := late.first filled'
        exact .inr ⟨filled''.1, filled''.2 ▸ apart⟩

theorem QueueGrows.of_samePids (same : SamePids k k')
    (queues : k'.priorityQueueArray = k.priorityQueueArray) : QueueGrows level k k' := by
  apply QueueGrows.of_queue
  · intro ptr pcb found
    obtain ⟨pcb', found', _⟩ := same.kept ptr pcb found
    exact ⟨pcb', found'⟩
  · rw [queues]

theorem QueueGrows.of_quiet (quiet : Quiet k k') : QueueGrows level k k' :=
  .of_samePids quiet.toSamePids quiet.queues

theorem quiet_grows {α : Type} {p : KernelM α} (quiet : Keeps Quiet p) : Keeps (QueueGrows level) p :=
  fun k a k' run => .of_quiet (quiet k a k' run)

theorem modify_grows {f : KernelState → KernelState} (pcbs : ∀ k, (f k).pcbs = k.pcbs)
    (queues : ∀ k, (f k).priorityQueueArray = k.priorityQueueArray) :
    Keeps (QueueGrows level) (Prog.modify f) := by
  apply Keeps.modify
  intro k
  apply QueueGrows.of_queue
  · intro ptr pcb found
    exact ⟨pcb, (congrFun (pcbs k) ptr).trans found⟩
  · rw [queues]

theorem update_grows {f : Pcb → Pcb} : Keeps (QueueGrows level) (update ptr f) := by
  intro k _ k' run
  obtain ⟨pcb, found, rfl⟩ := update_inv run
  apply QueueGrows.of_queue
  · intro other otherPcb found'
    rw [setPcb_pcbs]
    split
    · exact ⟨_, rfl⟩
    · exact ⟨otherPcb, found'⟩
  · rfl

/-- The first node of a queue is found in it. -/
theorem pcbInQueue_head {found : Bool} (head : k.head level = some ptr)
    (run : pcbInQueue ptr level k = some (found, k')) : found = true := by
  have head' : (k.priorityQueueArray level).qHeadPtr = some ptr := head
  unfold pcbInQueue at run
  rw [Prog.get_bind, head', KernelState.linkFuel, inQueueLoop, if_pos rfl] at run
  cases run
  rfl

theorem pcbQueuePush_grows : Keeps (QueueGrows level) (pcbQueuePush other ptr) := by
  intro k _ k' run
  have links := SameTable.of_sameButLinks (pcbQueuePush_frame run)
  have alive : ∀ ptr pcb, k.pcbs ptr = some pcb → ∃ pcb', k'.pcbs ptr = some pcb' := by
    intro ptr pcb found
    obtain ⟨pcb', found', _⟩ := links.kept ptr pcb found
    exact ⟨pcb', found'⟩
  obtain ⟨queued, k₁, searched, run⟩ := Prog.bind_inv run
  obtain rfl := pcbInQueue_state searched
  cases queued with
  | true =>
      cases run
      exact .of_queue alive rfl
  | false =>
      rw [if_neg Bool.false_ne_true, Prog.get_bind] at run
      by_cases empty : (k.priorityQueueArray other).length = 0
      · rw [if_pos empty] at run
        cases run
        by_cases here : other = level
        swap
        · exact .of_queue alive (Function.update_of_ne (Ne.symm here) _ _)
        subst here
        refine ⟨alive, fun filled => absurd empty (Nat.ne_of_gt filled), ?_⟩
        intro first _ head
        -- the PCB in front would have been found
        have apart : ptr ≠ first := by
          intro same
          cases pcbInQueue_head (same ▸ head) searched
        apply Or.inr
        rw [head_setQueue, Function.update_self]
        refine ⟨?_, fun same => apart (Option.some.inj same)⟩
        simp [KernelState.setQueue]
      · rw [if_neg empty] at run
        cases tail : (k.priorityQueueArray other).qEndPtr with
        | none =>
            rw [tail] at run
            cases run
        | some last =>
            rw [tail] at run
            obtain ⟨_, k₂, linked, run⟩ := Prog.bind_inv run
            obtain ⟨pcb, found, rfl⟩ := update_inv linked
            cases run
            by_cases here : other = level
            swap
            · exact .of_queue alive (Function.update_of_ne (Ne.symm here) _ _)
            subst here
            refine ⟨alive, ?_, fun _ none => absurd none empty⟩
            intro _
            rw [head_setQueue, Function.update_self]
            refine ⟨?_, rfl⟩
            simp [KernelState.setQueue]

theorem pcbInitEmpty_grows {priority : Level} {pid : Int} :
    Keeps (QueueGrows level) (pcbInitEmpty ptr priority pid) := by
  apply Keeps.bind (quiet_grows deref_quiet)
  intro parentPcb
  refine .bind .get fun _ => ?_
  have allocates : Keeps (QueueGrows level)
      (Prog.modify fun k => k.allocate (emptyPcb parentPcb.pid priority pid)) := by
    apply Keeps.modify
    intro k
    apply QueueGrows.of_queue
    · intro other pcb found
      rw [allocate_pcbs]
      split
      · exact ⟨_, rfl⟩
      · exact ⟨pcb, found⟩
    · rfl
  exact .bind allocates fun _ => .bind (quiet_grows pcbAddChildPid_quiet) fun _ => .pure _

theorem pcbVecPushBack_grows : Keeps (QueueGrows level) (pcbVecPushBack ptr) :=
  modify_grows (fun _ => rfl) fun _ => rfl

theorem kProcCreate_grows {priority : Level} :
    Keeps (QueueGrows level) (kProcCreate self priority) := by
  apply Keeps.bind (quiet_grows asCaller_quiet)
  intro _
  refine .bind (.of_state fun _ _ _ run => getNextFreePid_state run) fun newpid => ?_
  exact .bind pcbInitEmpty_grows fun _ => .bind pcbVecPushBack_grows fun _ => .pure _

theorem setRoutineAndRun_grows {proc : PcbPtr} :
    Keeps (QueueGrows level) (setRoutineAndRun self proc) :=
  .bind (quiet_grows asCaller_quiet) fun _ => .bind (quiet_grows deref_quiet) fun _ =>
    .bind (quiet_grows require_quiet) fun _ => .bind update_grows fun _ =>
    .bind (quiet_grows deref_quiet) fun _ => pcbQueuePush_grows

theorem spawnShell_grows : Keeps (QueueGrows level) (spawnShell self) := by
  apply Keeps.bind (quiet_grows asCaller_quiet)
  intro pcb
  refine .bind .get fun _ => ?_
  apply Keeps.bind (quiet_grows require_quiet)
  intro _
  refine .bind (modify_grows (fun _ => rfl) fun _ => rfl) fun _ => ?_
  exact .bind pcbInitEmpty_grows fun _ => .bind update_grows fun _ =>
    .bind pcbVecPushBack_grows fun _ => .bind pcbQueuePush_grows fun _ =>
    .bind update_grows fun _ => modify_grows (fun _ => rfl) fun _ => rfl

theorem kNice_grows {pid newPriority : Int} :
    Keeps (QueueGrows level) (kNice self pid newPriority) := by
  apply Keeps.bind (quiet_grows asCaller_quiet)
  intro _
  split
  swap
  · exact .pure _
  apply Keeps.bind (quiet_grows pcbVecSeekPcbByPid_quiet)
  intro found
  cases found with
  | none => exact .pure _
  | some target => exact .bind update_grows fun _ => .pure _

end Growth

/-- A step of a process, and not of the scheduler. -/
def OfProcess (_ : KernelState) (event : Event) : Prop := event.caller ≠ none

theorem event_grows (process : OfProcess k event) (step : Step k event k') :
    QueueGrows level k k' := by
  cases event with
  | spawnShell self => exact spawnShell_grows _ _ _ step
  | shellReturned self => exact quiet_grows shellReturned_quiet _ _ _ step
  | initResumed self shell => exact quiet_grows initResumed_quiet _ _ _ step
  | procCreate self priority =>
      obtain ⟨_, _, run, step⟩ := Prog.bind_inv step
      cases step
      exact kProcCreate_grows _ _ _ run
  | setRoutineAndRun self proc => exact setRoutineAndRun_grows _ _ _ step
  | kill self pid sig => exact quiet_grows kKill_quiet _ _ _ step
  | selfStopResumed self => exact quiet_grows selfStopResumed_quiet _ _ _ step
  | exit self => exact quiet_grows kExit_quiet _ _ _ step
  | sleep self length => exact quiet_grows kSleep_quiet _ _ _ step
  | sleepResumed self => exact quiet_grows kSleepResumed_quiet _ _ _ step
  | waitpid self pid nohang =>
      obtain ⟨_, _, run, step⟩ := Prog.bind_inv step
      cases step
      exact quiet_grows kWaitpid_quiet _ _ _ run
  | waitpidJoined self child => exact quiet_grows kWaitpidJoined_quiet _ _ _ step
  | waitpidReap self child =>
      obtain ⟨_, _, run, step⟩ := Prog.bind_inv step
      cases step
      exact quiet_grows kWaitpidReap_quiet _ _ _ run
  | nice self pid newPriority =>
      obtain ⟨_, _, run, step⟩ := Prog.bind_inv step
      cases step
      exact kNice_grows _ _ _ run
  | maintenancePass => exact absurd rfl process
  | pick _ => exact absurd rfl process
  | idleTick => exact absurd rfl process
  | quantumEnd => exact absurd rfl process

theorem run_grows (run : Run OfProcess k k') : QueueGrows level k k' := by
  induction run with
  | refl => exact Std.Refl.refl _
  | step _ process step ih => exact IsTrans.trans _ _ _ ih (event_grows process step)

/-- The PCB that `pick` continues is allocated. -/
theorem pick_found {k₀ : KernelState} (continued : pick other k₀ = some ((), k))
    (quantum : k.quantum = some (level, curr)) : ∃ pcb, k.pcbs curr = some pcb := by
  simp only [pick, Prog.get_bind] at continued
  obtain ⟨_, k₁, checked, run⟩ := Prog.bind_inv continued
  obtain ⟨idle, rfl⟩ := require_inv checked
  obtain ⟨found, k₂, picked, run⟩ := Prog.bind_inv run
  have links := pickLoop_frame picked
  cases found with
  | none =>
      cases run
      rw [links.quantum, idle] at quantum
      cases quantum
  | some chosen =>
      obtain ⟨pcb, k₃, read, run⟩ := Prog.bind_inv run
      obtain ⟨found, rfl⟩ := deref_inv read
      obtain ⟨_, k₄, checked', run⟩ := Prog.bind_inv run
      obtain ⟨_, rfl⟩ := require_inv checked'
      cases run
      cases quantum
      exact ⟨pcb, found⟩

/-- The queue was counted as non-empty when `curr` was continued from its head. -/
theorem QueueGrows.pops (grows : QueueGrows level k k')
    (filled : 0 < (k.priorityQueueArray level).length) (head : k.head level = some curr)
    (alive : ∃ pcb, k.pcbs curr = some pcb) : PopsExactly level curr k' := by
  obtain ⟨pcb, found⟩ := alive
  obtain ⟨pcb', found'⟩ := grows.alive curr pcb found
  have kept := grows.first filled
  exact pcbQueuePop_first kept.1 (kept.2.trans head) found'

/-- Whatever the processes do in the quantum of `curr`, the pop at its end removes `curr` exactly
where the queue was counted as non-empty when `curr` was continued from its head. -/
theorem quantum_pops_iff {k₀ : KernelState} (continued : pick level k₀ = some ((), k))
    (quantum : k.quantum = some (level, curr)) (head : k.head level = some curr)
    (run : Run OfProcess k k') :
    PopsExactly level curr k' ↔ 0 < (k.priorityQueueArray level).length := by
  have grows : QueueGrows level k k' := run_grows run
  constructor
  · intro pops
    obtain ⟨filled', head'⟩ := pops.front
    apply Nat.pos_of_ne_zero
    intro empty
    rcases grows.stray curr empty head with ⟨empty', _⟩ | ⟨_, apart⟩
    · omega
    · exact apart head'
  · intro filled
    exact grows.pops filled head (pick_found continued quantum)

/-- The first quantum: the init thread spawns the shell. -/
theorem quantum_pops_iff_init :
    PopsExactly 0 0 ((KernelState.boot.after [.pick 0]).after [.spawnShell 0]) ↔
      0 < ((KernelState.boot.after [.pick 0]).priorityQueueArray 0).length := by
  have continued : Step .boot (.pick 0) (KernelState.boot.after [.pick 0]) :=
    step_after (by decide +kernel)
  have spawned : Step (KernelState.boot.after [.pick 0]) (.spawnShell 0)
      ((KernelState.boot.after [.pick 0]).after [.spawnShell 0]) := step_after (by decide +kernel)
  have run : Run OfProcess (KernelState.boot.after [.pick 0])
      ((KernelState.boot.after [.pick 0]).after [.spawnShell 0]) :=
    .step (.refl _) (by simp [OfProcess, Event.caller]) spawned
  exact quantum_pops_iff continued (by decide +kernel) (by decide +kernel) run

/-- The shell moves its first child to priority 2 while both children are in queue 1; the first child
exits as soon as it is continued from queue 2. The pop leaves the second child at the head of queue 2,
with length 0. -/
def niceThenExit : List Event :=
  [.pick 0, .procCreate 1 1, .setRoutineAndRun 1 3, .nice 1 3 2, .quantumEnd, .maintenancePass,
    .pick 2, .exit 2, .quantumEnd, .maintenancePass, .pick 1, .maintenancePass,
    .pick 0, .quantumEnd, .maintenancePass]

/-- The second child is continued from queue 2, and the pop returns `NULL`. -/
theorem quantum_pop_null :
    ¬ ∀ (k₀ k k' : KernelState) (level : Level) (curr : PcbPtr), Run (fun _ _ => True) .boot k₀ →
      pick level k₀ = some ((), k) → k.quantum = some (level, curr) → k.head level = some curr →
      Run OfProcess k k' → PopsExactly level curr k' := by
  intro always
  have reached : Run (fun _ _ => True) .boot (processStarted.after niceThenExit) :=
    Run.of_runEvents (processStarted_run fun _ _ _ => trivial) (fun _ _ _ => trivial)
      (runEvents_after (by decide +kernel))
  have continued : Step (processStarted.after niceThenExit) (.pick 2)
      ((processStarted.after niceThenExit).after [.pick 2]) := step_after (by decide +kernel)
  obtain ⟨filled, _⟩ := PopsExactly.front
    (always _ _ _ 2 3 reached continued (by decide +kernel) (by decide +kernel) (.refl _))
  have empty : (((processStarted.after niceThenExit).after [.pick 2]).priorityQueueArray 2).length = 0 := by
    decide +kernel
  omega

/-- Where no `k_nice` moves a queued PCB to another priority, the pop always removes the PCB that ran. -/
theorem quantum_pops {k₀ : KernelState} (reached : Run NiceInPlace .boot k₀)
    (continued : pick level k₀ = some ((), k)) (quantum : k.quantum = some (level, curr))
    (run : Run OfProcess k k') : PopsExactly level curr k' := by
  have inPlace : NiceInPlace k₀ (.pick level) := trivial
  obtain ⟨lists, orderly⟩ := run_orderly (reached.step inPlace continued) boot_orderly
  obtain ⟨first, _⟩ := orderly.placed.running level curr quantum
  have links := orderly.intact.forest.links level
  have length := orderly.intact.length level
  cases list : lists level with
  | nil =>
      rw [list] at first
      cases first
  | cons node rest =>
      rw [list] at first links length
      cases first
      have filled : 0 < (k.priorityQueueArray level).length := by
        rw [length, List.length_cons]
        omega
      exact (run_grows run).pops filled links.1 (pick_found continued quantum)

end PennOs.Kernel
