import PennOs.Kernel.QueueIntegrity
import PennOs.Lib.RoundRobin

set_option autoImplicit false

/- The quanta `scheduler_fn` gives to processes that stay runnable. -/
namespace PennOs.Kernel

open LinkedChain (Links)
open RoundRobin (serve schedule)

variable {k k' k'' : KernelState} {ptr curr : PcbPtr} {level : Level}
  {lists : Level → List PcbPtr} {assigned : PcbPtr → Option Level} {left : Nat}

/-- `queue_pick_pattern` -/
def queuePickPattern : List Level :=
  [0, 1, 0, 2, 1, 0, 1, 0, 2, 0, 1, 0, 2, 0, 1, 0, 1, 0, 2]

/-- The slots of `count` traversals of `queue_pick_pattern`. -/
def traversals (count : Nat) : List Level := (List.replicate count queuePickPattern).flatten

/-- Events that are calls of threads. -/
def Event.IsCall : Event → Prop
  | .maintenancePass | .pick _ | .idleTick | .quantumEnd => False
  | _ => True

/-- The processes of `assigned` are runnable at their priorities; no other is, and none that
sleeps wakes in the next `left` ticks. -/
structure Runnable (assigned : PcbPtr → Option Level) (left : Nat) (k : KernelState) : Prop where
  runs : ∀ ptr level, assigned ptr = some level → ∃ pcb, k.pcbs ptr = some pcb ∧
    pcb.status = .running ∧ pcb.priorityLevel = level ∧ pcb.thrd ≠ .absent
  others : ∀ ptr pcb, k.pcbs ptr = some pcb → assigned ptr = none → pcb.status ≠ .running ∧
    (pcb.status = .blocked → pcb.sleepStamp ≠ 0 →
      ∀ tick ≤ left, sleepOver (k.globalClock + .ofNat tick) pcb = false)

/-- Calls of threads, after each of which the same processes are runnable. -/
inductive Calls (assigned : PcbPtr → Option Level) (left : Nat) :
    KernelState → KernelState → Prop
  | refl (k : KernelState) : Calls assigned left k k
  | call {k k' k'' : KernelState} {event : Event} (before : Calls assigned left k k')
      (isCall : event.IsCall) (step : Step k' event k'') (stays : Runnable assigned left k'') :
      Calls assigned left k k''

/-- The calls before the pass, the pass, and the calls after it. -/
def Passed (assigned : PcbPtr → Option Level) (left : Nat) (k k' : KernelState) : Prop :=
  ∃ k₁ k₂, Calls assigned left k k₁ ∧ maintenancePass k₁ = some ((), k₂) ∧
    Calls assigned left k₂ k'

/-- A turn of the `for` loop of `scheduler_fn` in the pattern slot `level`, and the PCB it
continues; `left` more ticks follow its own. -/
inductive Turn (assigned : PcbPtr → Option Level) (left : Nat) (level : Level)
    (k : KernelState) : Option PcbPtr → KernelState → Prop
  | allEmpty {k₁ k₂ k₃ : KernelState} (passed : Passed assigned (left + 1) k k₁)
      (tick : idleTick k₁ = some ((), k₂)) (calls : Calls assigned left k₂ k₃) :
      Turn assigned left level k none k₃
  | noneRunnable {k₁ k₂ : KernelState} {other : Level} (passed : Passed assigned (left + 1) k k₁)
      (filled : (k₁.priorityQueueArray other).length ≠ 0)
      (picked : pick level k₁ = some ((), k₂)) (idle : k₂.quantum = none) :
      Turn assigned left level k none k₂
  | quantum {k₁ k₂ k₃ k₄ : KernelState} {other slot : Level} {curr : PcbPtr}
      (passed : Passed assigned (left + 1) k k₁)
      (filled : (k₁.priorityQueueArray other).length ≠ 0)
      (picked : pick level k₁ = some ((), k₂)) (continued : k₂.quantum = some (slot, curr))
      (calls : Calls assigned left k₂ k₃) (ended : quantumEnd k₃ = some ((), k₄)) :
      Turn assigned left level k (some curr) k₄

/-- Turns in a list of pattern slots, and the PCBs they continue. -/
inductive Turns (assigned : PcbPtr → Option Level) :
    List Level → KernelState → List PcbPtr → KernelState → Prop
  | nil (k : KernelState) : Turns assigned [] k [] k
  | cons {level : Level} {rest : List Level} {k k' k'' : KernelState} {ran : Option PcbPtr}
      {log : List PcbPtr} (turn : Turn assigned rest.length level k ran k')
      (later : Turns assigned rest k' log k'') :
      Turns assigned (level :: rest) k (ran.toList ++ log) k''

/-- The queues hold exactly the assigned processes. -/
structure Sharing (assigned : PcbPtr → Option Level) (left : Nat) (k : KernelState)
    (lists : Level → List PcbPtr) : Prop where
  orderly : Orderly k lists
  runnable : Runnable assigned left k
  exact : ∀ level ptr, ptr ∈ lists level ↔ assigned ptr = some level

section Totality

theorem Orderly.head_eq (orderly : Orderly k lists) (level : Level) :
    (k.priorityQueueArray level).qHeadPtr = (lists level).head? := by
  have links := orderly.intact.forest.links level
  cases list : lists level with
  | nil =>
      rw [list] at links
      exact links
  | cons node rest =>
      rw [list] at links
      exact links.1

theorem pcbQueuePop_total {rest : List PcbPtr} (orderly : Orderly k lists)
    (front : lists level = curr :: rest) :
    ∃ k', pcbQueuePop level k = some (some curr, k') := by
  have length := orderly.intact.length level
  have head := orderly.head_eq level
  rw [front] at length head
  obtain ⟨pcb, found⟩ := orderly.placed.allocated level curr (front ▸ List.mem_cons_self)
  simp only [pcbQueuePop, Prog.get_bind, length, List.length_cons, Nat.add_one_ne_zero,
    ↓reduceIte, head, List.head?_cons]
  rw [Prog.bind_of_run (deref_run found), Prog.modify_bind]
  have found' : ∀ queue, (k.setQueue level queue).pcbs curr = some pcb := fun _ => found
  exact ⟨_, Prog.bind_of_run (update_run (found' _)) _⟩

theorem pcbQueuePush_total (orderly : Orderly k lists) (ptr : PcbPtr) (level : Level) :
    ∃ k', pcbQueuePush level ptr k = some ((), k') := by
  simp only [pcbQueuePush]
  rw [Prog.bind_of_run (pcbInQueue_total orderly ptr level)]
  by_cases member : ptr ∈ lists level
  · exact ⟨k, by simp [member]⟩
  simp only [member, decide_false, Bool.false_eq_true, ↓reduceIte, Prog.get_bind]
  by_cases empty : (k.priorityQueueArray level).length = 0
  · exact ⟨_, by simp only [empty, ↓reduceIte]; rfl⟩
  obtain ⟨front, last, list⟩ : ∃ front last, lists level = front ++ [last] := by
    have filled : lists level ≠ [] := fun none => empty (by simp [orderly.intact.length, none])
    exact ⟨_, _, (List.dropLast_append_getLast filled).symm⟩
  have ends := orderly.intact.last level
  rw [list, List.getLast?_append, List.getLast?_singleton, Option.some_or] at ends
  obtain ⟨pcb, found⟩ := orderly.placed.allocated level last (by simp [list])
  simp only [empty, ↓reduceIte, ends]
  exact ⟨_, Prog.bind_of_run (update_run found) _⟩

/-- No PCB behind `curr` has the PID. -/
theorem beforePidLoop_absent {pid : Int} {fuel : Nat} {rest : List PcbPtr}
    (links : Links k.next (some curr) (curr :: rest))
    (allocated : ∀ node ∈ curr :: rest, ∃ pcb, k.pcbs node = some pcb)
    (absent : ∀ node ∈ rest, k.hasPid pid node = false) (enough : rest.length < fuel) :
    beforePidLoop pid fuel curr k = some (none, k) := by
  induction rest generalizing fuel curr with
  | nil =>
      obtain ⟨fuel, rfl⟩ := Nat.exists_eq_add_of_lt enough
      obtain ⟨pcb, found⟩ := allocated curr List.mem_cons_self
      have link : pcb.nextPcbPtr = none := next_of_found found ▸ links.2
      simp only [List.length_nil, Nat.zero_add, beforePidLoop]
      rw [Prog.bind_of_run (deref_run found), link]
      rfl
  | cons after rest ih =>
      obtain ⟨fuel, rfl⟩ : ∃ less, fuel = less + 1 := ⟨fuel - 1, by omega⟩
      obtain ⟨pcb, found⟩ := allocated curr List.mem_cons_self
      have link : pcb.nextPcbPtr = some after := next_of_found found ▸ links.2.1
      obtain ⟨afterPcb, found'⟩ :=
        allocated after (List.mem_cons_of_mem _ List.mem_cons_self)
      have differs := absent after List.mem_cons_self
      rw [hasPid_of_found found', decide_eq_false_iff_not] at differs
      simp only [beforePidLoop]
      rw [Prog.bind_of_run (deref_run found), link]
      show (deref after >>= _) k = _
      rw [Prog.bind_of_run (deref_run found'), if_neg differs]
      refine ih ⟨rfl, links.2.2⟩ (fun node member => allocated node (List.mem_cons_of_mem _ member))
        (fun node member => absent node (List.mem_cons_of_mem _ member)) ?_
      simp only [List.length_cons] at enough
      omega

theorem pcbQueuePopByPid_absent {pid : Int} (orderly : Orderly k lists)
    (absent : ∀ node ∈ lists level, k.hasPid pid node = false) :
    pcbQueuePopByPid level pid k = some (none, k) := by
  have length := orderly.intact.length level
  have head := orderly.head_eq level
  simp only [pcbQueuePopByPid, Prog.get_bind]
  cases front : lists level with
  | nil => simp [length, front]
  | cons first rest =>
      have links := orderly.intact.forest.links level
      have bound := orderly.length_le level
      rw [front] at length head links bound absent
      obtain ⟨pcb, found⟩ := orderly.placed.allocated level first (front ▸ List.mem_cons_self)
      have differs := absent first List.mem_cons_self
      rw [hasPid_of_found found, decide_eq_false_iff_not] at differs
      simp only [length, List.length_cons, Nat.add_one_ne_zero, ↓reduceIte, head, List.head?_cons]
      rw [Prog.bind_of_run (deref_run found), if_neg differs]
      have search : beforePidLoop pid k.linkFuel first k = some (none, k) := by
        refine beforePidLoop_absent ⟨rfl, links.2⟩ ?_
          (fun node member => absent node (List.mem_cons_of_mem _ member)) ?_
        · exact fun node member => orderly.placed.allocated level node (front ▸ member)
        · simp only [KernelState.linkFuel]
          simp only [List.length_cons] at bound
          omega
      rw [Prog.bind_of_run search]
      rfl

end Totality

section Calls

variable {self : PcbPtr}

/-- The shell PCB is a new one, and it is runnable. -/
theorem spawnShell_runs (table : Table k) (run : spawnShell self k = some ((), k')) :
    ∃ pcb, k'.pcbs k.nextPtr = some pcb ∧ pcb.status = .running := by
  obtain ⟨selfPcb, k₁, called, run⟩ := Prog.bind_inv run
  obtain ⟨selfFound, _, _, rfl⟩ := asCaller_inv called
  have apart : k.nextPtr ≠ self := (Nat.ne_of_lt (table.bounded self selfPcb selfFound)).symm
  simp only [Prog.get_bind] at run
  obtain ⟨_, k₂, checked, run⟩ := Prog.bind_inv run
  obtain ⟨_, rfl⟩ := require_inv checked
  rw [Prog.modify_bind] at run
  obtain ⟨shell, k₃, made, run⟩ := Prog.bind_inv run
  have table' : Table k.setShellSpawned := { table with shell := fun _ _ _ _ => rfl }
  obtain ⟨rfl, _⟩ := pcbInitEmpty_born table' made
  obtain ⟨_, k₄, started, run⟩ := Prog.bind_inv run
  obtain ⟨shellPcb, _, rfl⟩ := update_inv started
  obtain ⟨_, k₅, listed, run⟩ := Prog.bind_inv run
  simp only [pcbVecPushBack, Prog.modify_run, Option.some.injEq, Prod.mk.injEq,
    true_and] at listed
  obtain ⟨_, k₆, queued, run⟩ := Prog.bind_inv run
  obtain ⟨_, k₇, blocked, run⟩ := Prog.bind_inv run
  simp only [Prog.modify_run, Option.some.injEq, Prod.mk.injEq, true_and] at run
  have cores := (pcbQueuePush_frame queued).cores k.nextPtr
  have found₅ : k₅.pcbs k.nextPtr = some { shellPcb with thrd := .live, status := .running } := by
    rw [← listed]
    exact (setPcb_pcbs _ _ _ _).trans (if_pos rfl)
  rw [found₅] at cores
  obtain ⟨pcb, found₆, core⟩ := Option.map_eq_some_iff.mp cores
  obtain ⟨_, _, rfl⟩ := update_inv blocked
  refine ⟨pcb, ?_, Pcb.core_status core⟩
  rw [← run]
  exact (setPcb_pcbs _ _ _ _).trans ((if_neg apart).trans found₆)

/-- The new process is runnable from then on. -/
theorem setRoutineAndRun_runs {proc : PcbPtr} (run : setRoutineAndRun self proc k = some ((), k')) :
    (∃ pcb, k.pcbs proc = some pcb ∧ pcb.thrd = .absent) ∧
      ∃ pcb, k'.pcbs proc = some pcb ∧ pcb.status = .running := by
  obtain ⟨_, k₁, called, run⟩ := Prog.bind_inv run
  obtain ⟨_, _, _, rfl⟩ := asCaller_inv called
  obtain ⟨pcb, k₂, read, run⟩ := Prog.bind_inv run
  obtain ⟨found, rfl⟩ := deref_inv read
  obtain ⟨_, k₃, checked, run⟩ := Prog.bind_inv run
  obtain ⟨absent, rfl⟩ := require_inv checked
  obtain ⟨_, k₄, started, run⟩ := Prog.bind_inv run
  obtain ⟨pcb₁, _, rfl⟩ := update_inv started
  obtain ⟨_, k₅, read', queued⟩ := Prog.bind_inv run
  obtain ⟨_, rfl⟩ := deref_inv read'
  have cores := (pcbQueuePush_frame queued).cores proc
  rw [setPcb_pcbs, if_pos rfl] at cores
  obtain ⟨pcb', found', core⟩ := Option.map_eq_some_iff.mp cores
  exact ⟨⟨pcb, found, absent⟩, pcb', found', Pcb.core_status core⟩

/-- A PCB that no queue holds is not runnable. -/
theorem Sharing.unassigned (sharing : Sharing assigned left k lists)
    (out : ∀ level, ptr ∉ lists level) : assigned ptr = none := by
  cases at_ : assigned ptr with
  | none => rfl
  | some level => exact absurd ((sharing.exact level ptr).mpr at_) (out level)

theorem kNice_inPlace {pid newPriority result : Int} (sharing : Sharing assigned left k lists)
    (run : kNice self pid newPriority k = some (result, k')) (stays : Runnable assigned left k') :
    NiceInPlace k (.nice self pid newPriority) := by
  intro valid target k₁ pcb searched found
  obtain ⟨rfl, _⟩ := pcbVecSeekPcbByPid_inv searched
  cases at_ : assigned target with
  | none =>
      refine .inr (.inr fun level k₁ queued => ?_)
      have member := pcbInQueue_inv sharing.orderly.intact queued
      rw [(sharing.exact level target).mp (of_decide_eq_true member.symm)] at at_
      cases at_
  | some level =>
      obtain ⟨pcb₁, found₁, _, before, _⟩ := sharing.runnable.runs target level at_
      obtain ⟨pcb₂, found₂, _, after, _⟩ := stays.runs target level at_
      obtain rfl := Option.some.inj (found.symm.trans found₁)
      obtain ⟨_, k₂, called, run⟩ := Prog.bind_inv run
      obtain ⟨_, _, _, rfl⟩ := asCaller_inv called
      rw [dif_pos valid, Prog.bind_of_run searched] at run
      obtain ⟨_, k₃, changed, run⟩ := Prog.bind_inv run
      simp only [Prog.pure_run, Option.some.injEq, Prod.mk.injEq] at run
      obtain ⟨_, rfl⟩ := run
      obtain ⟨_, _, rfl⟩ := update_inv changed
      rw [setPcb_pcbs, if_pos rfl, Option.some.injEq] at found₂
      rw [← found₂] at after
      left
      rw [before, ← after]
      exact Int.toNat_of_nonneg valid.1

theorem kNice_quantum {pid newPriority result : Int}
    (run : kNice self pid newPriority k = some (result, k')) : k'.quantum = k.quantum := by
  obtain ⟨_, k₁, called, run⟩ := Prog.bind_inv run
  obtain ⟨_, _, _, rfl⟩ := asCaller_inv called
  by_cases valid : 0 ≤ newPriority ∧ newPriority < 3
  swap
  · rw [dif_neg valid] at run
    simp only [Prog.pure_run, Option.some.injEq, Prod.mk.injEq] at run
    rw [run.2]
  rw [dif_pos valid] at run
  obtain ⟨found, k₂, searched, run⟩ := Prog.bind_inv run
  obtain ⟨rfl, _⟩ := pcbVecSeekPcbByPid_inv searched
  cases found with
  | none =>
      simp only [Prog.pure_run, Option.some.injEq, Prod.mk.injEq] at run
      rw [run.2]
  | some target =>
      obtain ⟨_, k₃, changed, run⟩ := Prog.bind_inv run
      simp only [Prog.pure_run, Option.some.injEq, Prod.mk.injEq] at run
      obtain ⟨_, _, rfl⟩ := update_inv changed
      exact run.2 ▸ rfl

theorem kProcCreate_quantum {priority : Level} (table : Table k)
    (run : kProcCreate self priority k = some (ptr, k')) : k'.quantum = k.quantum := by
  obtain ⟨_, k₁, called, run⟩ := Prog.bind_inv run
  obtain ⟨_, _, _, rfl⟩ := asCaller_inv called
  obtain ⟨pid, k₂, chosen, run⟩ := Prog.bind_inv run
  obtain ⟨rfl, _, _⟩ := getNextFreePid_unused table chosen
  obtain ⟨new, k₃, made, run⟩ := Prog.bind_inv run
  obtain ⟨_, born⟩ := pcbInitEmpty_born table made
  simp only [pcbVecPushBack, Prog.modify_bind, Prog.pure_run, Option.some.injEq,
    Prod.mk.injEq] at run
  rw [← run.2]
  exact born.quantum

/-- A call after which the same processes are runnable leaves the queues as they are. -/
theorem call_sharing {event : Event} (sharing : Sharing assigned left k lists)
    (isCall : event.IsCall) (step : Step k event k') (stays : Runnable assigned left k') :
    Sharing assigned left k' lists ∧ k'.quantum = k.quantum := by
  have of_quiet : Quiet k k' → Sharing assigned left k' lists ∧ k'.quantum = k.quantum :=
    fun quiet => ⟨⟨sharing.orderly.of_quiet quiet, stays, sharing.exact⟩, quiet.quantum⟩
  cases event with
  | spawnShell self =>
      obtain ⟨pcb, found, running⟩ := spawnShell_runs sharing.orderly.table step
      have unassigned : assigned k.nextPtr = none := by
        refine sharing.unassigned fun level member => ?_
        obtain ⟨_, old⟩ := sharing.orderly.placed.allocated level _ member
        rw [sharing.orderly.table.next_free] at old
        cases old
      exact absurd running (stays.others _ pcb found unassigned).1
  | shellReturned self => exact of_quiet (shellReturned_quiet _ _ _ step)
  | initResumed self shell => exact of_quiet (initResumed_quiet _ _ _ step)
  | procCreate self priority =>
      obtain ⟨_, k₁, created, rest⟩ := Prog.bind_inv step
      simp only [Prog.pure_run, Option.some.injEq, Prod.mk.injEq, true_and] at rest
      subst rest
      exact ⟨⟨kProcCreate_orderly sharing.orderly created, stays, sharing.exact⟩,
        kProcCreate_quantum sharing.orderly.table created⟩
  | setRoutineAndRun self proc =>
      obtain ⟨⟨old, found, absent⟩, pcb, found', running⟩ := setRoutineAndRun_runs step
      have unassigned : assigned proc = none := by
        cases at_ : assigned proc with
        | none => rfl
        | some level =>
            obtain ⟨old', oldFound, _, _, thread⟩ := sharing.runnable.runs proc level at_
            obtain rfl := Option.some.inj (found.symm.trans oldFound)
            exact absurd absent thread
      exact absurd running (stays.others proc pcb found' unassigned).1
  | kill self pid sig => exact of_quiet (kKill_quiet _ _ _ step)
  | selfStopResumed self => exact of_quiet (selfStopResumed_quiet _ _ _ step)
  | exit self => exact of_quiet (kExit_quiet _ _ _ step)
  | sleep self length => exact of_quiet (kSleep_quiet _ _ _ step)
  | sleepResumed self => exact of_quiet (kSleepResumed_quiet _ _ _ step)
  | waitpid self pid nohang =>
      obtain ⟨_, k₁, waited, rest⟩ := Prog.bind_inv step
      simp only [Prog.pure_run, Option.some.injEq, Prod.mk.injEq, true_and] at rest
      exact of_quiet (rest ▸ kWaitpid_quiet _ _ _ waited)
  | waitpidJoined self child => exact of_quiet (kWaitpidJoined_quiet _ _ _ step)
  | waitpidReap self child =>
      obtain ⟨_, k₁, reaped, rest⟩ := Prog.bind_inv step
      simp only [Prog.pure_run, Option.some.injEq, Prod.mk.injEq, true_and] at rest
      exact of_quiet (rest ▸ kWaitpidReap_quiet _ _ _ reaped)
  | nice self pid newPriority =>
      obtain ⟨_, k₁, changed, rest⟩ := Prog.bind_inv step
      simp only [Prog.pure_run, Option.some.injEq, Prod.mk.injEq, true_and] at rest
      subst rest
      have inPlace := kNice_inPlace sharing changed stays
      exact ⟨⟨kNice_orderly sharing.orderly inPlace changed, stays, sharing.exact⟩,
        kNice_quantum changed⟩
  | maintenancePass => exact absurd isCall id
  | pick level => exact absurd isCall id
  | idleTick => exact absurd isCall id
  | quantumEnd => exact absurd isCall id

theorem Calls.sharing (calls : Calls assigned left k k') (sharing : Sharing assigned left k lists) :
    Sharing assigned left k' lists ∧ k'.quantum = k.quantum := by
  induction calls with
  | refl => exact ⟨sharing, rfl⟩
  | call _ isCall step stays ih =>
      obtain ⟨sharing', quantum⟩ := ih
      obtain ⟨sharing'', quantum'⟩ := call_sharing sharing' isCall step stays
      exact ⟨sharing'', quantum'.trans quantum⟩

end Calls

section Slots

/-- The state of a PCB is looked at by the pass, and nothing changes but that a reaped PCB is
freed. -/
theorem maintain_sharing (sharing : Sharing assigned left k lists) (idle : k.quantum = none)
    (listed : curr ∈ k.allUnreapedPcbVector) :
    Prog.Ensures (maintain curr) k fun gone k' => Sharing assigned left k' lists ∧
      k'.quantum = none ∧ k'.allUnreapedPcbVector =
        if gone then k.allUnreapedPcbVector.erase curr else k.allUnreapedPcbVector := by
  have orderly := sharing.orderly
  obtain ⟨pcb, found⟩ := orderly.table.allocated curr listed
  have unchanged : ∀ gone, gone = false → Sharing assigned left k lists ∧ k.quantum = none ∧
      k.allUnreapedPcbVector =
        if gone then k.allUnreapedPcbVector.erase curr else k.allUnreapedPcbVector := by
    rintro gone rfl
    exact ⟨sharing, idle, rfl⟩
  unfold maintain
  cases at_ : assigned curr with
  | some level =>
      obtain ⟨pcb₁, found₁, running, priority, _⟩ := sharing.runnable.runs curr level at_
      obtain rfl := Option.some.inj (found.symm.trans found₁)
      have queued := pcbInQueue_total orderly curr pcb.priorityLevel
      have member : curr ∈ lists pcb.priorityLevel :=
        (sharing.exact _ curr).mpr (priority.symm ▸ at_)
      rw [decide_eq_true member] at queued
      refine .of_run ?_ (unchanged false rfl)
      rw [Prog.bind_of_run (deref_run found), Prog.get_bind]
      simp only [running, ↓reduceIte]
      rw [Prog.bind_of_run queued]
      rfl
  | none =>
      obtain ⟨stopped, asleep⟩ := sharing.runnable.others curr pcb found at_
      by_cases sleeps : pcb.status = .blocked ∧ pcb.sleepStamp ≠ 0
      · have later := asleep sleeps.1 sleeps.2 0 (Nat.zero_le _)
        have now : sleepOver k.globalClock pcb = false := by simpa using later
        refine .of_run ?_ (unchanged false rfl)
        rw [Prog.bind_of_run (deref_run found), Prog.get_bind]
        simp only [↓reduceIte, sleeps, ne_eq, not_false_eq_true, and_self, now]
        rfl
      by_cases reaped : pcb.status = .reaped
      swap
      · refine .of_run ?_ (unchanged false rfl)
        rw [Prog.bind_of_run (deref_run found), Prog.get_bind]
        simp only [stopped, ↓reduceIte, sleeps, reaped]
        rfl
      have out : ∀ level, curr ∉ lists level := by
        intro level member
        rw [(sharing.exact level curr).mp member] at at_
        cases at_
      have popped : pcbQueuePopByPid pcb.priorityLevel pcb.pid k = some (none, k) := by
        refine pcbQueuePopByPid_absent orderly fun node member => ?_
        obtain ⟨nodePcb, nodeFound⟩ := orderly.placed.allocated _ node member
        rw [hasPid_of_found nodeFound, decide_eq_false_iff_not]
        intro same
        exact out _ (orderly.table.pids node curr nodePcb pcb nodeFound found same ▸ member)
      refine ⟨true, _, ?_, ⟨destroy_orderly orderly idle out rfl rfl, ⟨?_, ?_⟩, sharing.exact⟩,
        idle, (if_pos rfl).symm⟩
      · rw [Prog.bind_of_run (deref_run found), Prog.get_bind]
        rw [if_neg stopped, if_neg sleeps, if_pos reaped, Prog.bind_of_run popped]
        rfl
      · intro ptr level assigned_
        obtain ⟨node, nodeFound, runs⟩ := sharing.runnable.runs ptr level assigned_
        have apart : ptr ≠ curr := by
          rintro rfl
          rw [at_] at assigned_
          cases assigned_
        exact ⟨node, (Function.update_of_ne apart _ _).trans nodeFound, runs⟩
      · intro ptr node nodeFound unassigned
        change Function.update k.pcbs curr none ptr = some node at nodeFound
        have apart : ptr ≠ curr := by
          rintro rfl
          rw [Function.update_self] at nodeFound
          cases nodeFound
        rw [Function.update_of_ne apart] at nodeFound
        exact sharing.runnable.others ptr node nodeFound unassigned

theorem maintenanceLoop_sharing {count i : Nat} (sharing : Sharing assigned left k lists)
    (idle : k.quantum = none) (within : i + count = k.allUnreapedPcbVector.length) :
    Prog.Ensures (maintenanceLoop count i) k fun _ k' =>
      Sharing assigned left k' lists ∧ k'.quantum = none := by
  induction count generalizing i k with
  | zero => exact .of_run rfl ⟨sharing, idle⟩
  | succ count ih =>
      have bound : i < k.allUnreapedPcbVector.length := by omega
      have entry := List.getElem?_eq_getElem bound
      have listed := List.getElem_mem bound
      obtain ⟨gone, k₁, run, sharing₁, idle₁, vector⟩ := maintain_sharing sharing idle listed
      unfold maintenanceLoop
      simp only [Prog.Ensures, Prog.get_bind, entry]
      rw [Prog.bind_of_run run]
      cases gone with
      | true =>
          refine ih sharing₁ idle₁ ?_
          rw [vector, if_pos rfl, List.length_erase_of_mem listed]
          omega
      | false =>
          refine ih sharing₁ idle₁ ?_
          rw [vector, if_neg Bool.false_ne_true]
          omega

theorem maintenancePass_sharing (sharing : Sharing assigned left k lists)
    (idle : k.quantum = none) :
    Prog.Ensures maintenancePass k fun _ k' =>
      Sharing assigned left k' lists ∧ k'.quantum = none := by
  unfold maintenancePass
  simp only [Prog.Ensures, Prog.get_bind, require, idle, ↓reduceIte, Prog.pure_bind_run]
  exact maintenanceLoop_sharing sharing idle (Nat.zero_add _)

theorem Runnable.tick (runnable : Runnable assigned (left + 1) k)
    (quantum : Option (Level × PcbPtr)) :
    Runnable assigned left { k with quantum := quantum, globalClock := k.globalClock + 1 } := by
  refine ⟨runnable.runs, fun ptr pcb found unassigned => ?_⟩
  obtain ⟨stopped, asleep⟩ := runnable.others ptr pcb found unassigned
  refine ⟨stopped, fun blocked stamped tick within => ?_⟩
  have later := asleep blocked stamped (tick + 1) (Nat.add_le_add_right within 1)
  have same : k.globalClock + 1 + .ofNat tick = k.globalClock + .ofNat (tick + 1) := by
    rw [UInt32.ofNat_add, UInt32.add_assoc, UInt32.add_comm 1]
    rfl
  show sleepOver (k.globalClock + 1 + .ofNat tick) pcb = false
  rw [same]
  exact later

/-- The scheduler continues the first of the queue, and no queue changes. -/
theorem pick_sharing {rest : List PcbPtr} (sharing : Sharing assigned (left + 1) k lists)
    (idle : k.quantum = none) (front : lists level = curr :: rest) :
    Prog.Ensures (pick level) k fun _ k' =>
      Sharing assigned left k' lists ∧ k'.quantum = some (level, curr) := by
  have orderly := sharing.orderly
  have member : curr ∈ lists level := front ▸ List.mem_cons_self
  obtain ⟨pcb, found, running, _, thread⟩ :=
    sharing.runnable.runs curr level ((sharing.exact level curr).mp member)
  have head := orderly.head_eq level
  rw [front, List.head?_cons] at head
  have chosen : pickLoop level k.linkFuel (some curr) k = some (some curr, k) := by
    simp only [KernelState.linkFuel, pickLoop]
    rw [Prog.bind_of_run (deref_run found), if_pos running]
    rfl
  refine ⟨(), _, ?_, ⟨?_, sharing.runnable.tick (some (level, curr)), sharing.exact⟩, rfl⟩
  · unfold pick
    simp only [Prog.get_bind, require, idle, ↓reduceIte, Prog.pure_bind_run, head]
    rw [Prog.bind_of_run chosen]
    show (deref curr >>= _) k = _
    rw [Prog.bind_of_run (deref_run found), if_pos thread]
    rfl
  · refine ⟨orderly.intact.of_same rfl rfl, { orderly.table with }, orderly.placed.allocated,
      ?_, ?_⟩
    · intro other node nodePcb here nodeFound
      rcases orderly.placed.level other node nodePcb here nodeFound with own | runs
      · exact .inl own
      · rw [idle] at runs
        cases runs
    · intro other node runs
      simp only [Option.some.injEq, Prod.mk.injEq] at runs
      obtain ⟨rfl, rfl⟩ := runs
      exact ⟨by rw [front, List.head?_cons], pcb, found, thread⟩

theorem Runnable.of_sameButLinks (runnable : Runnable assigned left k)
    (same : SameButLinks k k') : Runnable assigned left k' := by
  refine ⟨fun ptr level at_ => ?_, fun ptr pcb' found unassigned => ?_⟩
  · obtain ⟨pcb, found, running, priority, thread⟩ := runnable.runs ptr level at_
    have cores := same.cores ptr
    rw [found] at cores
    obtain ⟨pcb', found', core⟩ := Option.map_eq_some_iff.mp cores
    exact ⟨pcb', found', (Pcb.core_status core).trans running,
      (Pcb.core_priorityLevel core).trans priority, Pcb.core_thrd core ▸ thread⟩
  · obtain ⟨pcb, before, core⟩ := same.pcb found
    obtain ⟨stopped, asleep⟩ := runnable.others ptr pcb before unassigned
    have status := Pcb.core_status core
    simp only [Pcb.core, Pcb.mk.injEq] at core
    obtain ⟨_, _, _, _, _, _, _, _, _, _, _, stamp, length⟩ := core
    rw [status, stamp, same.clock]
    refine ⟨stopped, fun blocked stamped tick within => ?_⟩
    rw [sleepOver, stamp, length]
    exact asleep blocked stamped tick within

/-- The process whose quantum ends goes to the end of its queue. -/
theorem quantumEnd_sharing (sharing : Sharing assigned left k lists)
    (running : k.quantum = some (level, curr)) :
    Prog.Ensures quantumEnd k fun _ k' =>
      Sharing assigned left k' (serve lists level) ∧ k'.quantum = none := by
  have orderly := sharing.orderly
  obtain ⟨head, _⟩ := orderly.placed.running level curr running
  obtain ⟨rest, front⟩ : ∃ rest, lists level = curr :: rest := List.head?_eq_some_iff.mp head
  have member : curr ∈ lists level := front ▸ List.mem_cons_self
  obtain ⟨pcb, found, runs, priority, _⟩ :=
    sharing.runnable.runs curr level ((sharing.exact level curr).mp member)
  have stopped : Orderly (k.setQuantum none) lists := by
    refine ⟨orderly.intact.of_same rfl rfl, { orderly.table with }, orderly.placed.allocated,
      fun other node nodePcb here nodeFound => .inl ?_, nofun⟩
    obtain ⟨nodePcb₁, nodeFound₁, _, own, _⟩ :=
      sharing.runnable.runs node other ((sharing.exact other node).mp here)
    exact Option.some.inj (nodeFound.symm.trans nodeFound₁) ▸ own
  obtain ⟨k₁, popped⟩ := pcbQueuePop_total stopped front
  obtain ⟨_, idle₁, rest₁, front₁, orderly₁, out⟩ := quantumPop_orderly orderly running popped
  obtain rfl : rest₁ = rest := (List.cons.inj (front₁.symm.trans front)).2
  have frame₁ := pcbQueuePop_frame popped
  have cores := frame₁.cores curr
  rw [show (k.setQuantum none).pcbs curr = some pcb from found] at cores
  obtain ⟨pcb₁, found₁, core⟩ := Option.map_eq_some_iff.mp cores
  have runs₁ : pcb₁.status = .running := (Pcb.core_status core).trans runs
  have priority₁ : pcb₁.priorityLevel = level := (Pcb.core_priorityLevel core).trans priority
  obtain ⟨k₂, pushed_⟩ := pcbQueuePush_total orderly₁ curr pcb₁.priorityLevel
  have orderly₂ := pcbQueuePush_orderly orderly₁ found₁ (fun other => by rw [idle₁]; nofun) pushed_
  have frame₂ := pcbQueuePush_frame pushed_
  have served : pushed (Function.update lists level rest₁) pcb₁.priorityLevel curr =
      serve lists level := by
    rw [priority₁, pushed, if_neg (out level), Function.update_self, Function.update_idem, serve,
      front]
    simp
  rw [served] at orderly₂
  refine ⟨(), k₂, ?_, ⟨orderly₂, ?_, ?_⟩, frame₂.quantum.trans idle₁⟩
  · unfold quantumEnd
    simp only [Prog.get_bind, running, Prog.modify_bind]
    rw [Prog.bind_of_run popped]
    show (deref curr >>= _) k₁ = _
    rw [Prog.bind_of_run (deref_run found₁), if_pos runs₁]
    exact pushed_
  · have runnable : Runnable assigned left (k.setQuantum none) := ⟨sharing.runnable.runs,
      sharing.runnable.others⟩
    exact runnable.of_sameButLinks (frame₁.trans frame₂)
  · intro other ptr
    rw [RoundRobin.mem_serve]
    exact sharing.exact other ptr

theorem Passed.sharing (passed : Passed assigned left k k') (sharing : Sharing assigned left k lists)
    (idle : k.quantum = none) : Sharing assigned left k' lists ∧ k'.quantum = none := by
  obtain ⟨k₁, k₂, before, pass, after⟩ := passed
  obtain ⟨sharing₁, quantum₁⟩ := before.sharing sharing
  have ensures := maintenancePass_sharing sharing₁ (quantum₁.trans idle)
  obtain ⟨sharing₂, idle₂⟩ := ensures.of_eq pass
  obtain ⟨sharing₃, quantum₃⟩ := after.sharing sharing₂
  exact ⟨sharing₃, quantum₃.trans idle₂⟩

/-- A turn serves the queue of its slot. -/
theorem Turn.sharing {ran : Option PcbPtr} (turn : Turn assigned left level k ran k')
    (sharing : Sharing assigned (left + 1) k lists) (idle : k.quantum = none)
    (filled : ∀ level, lists level ≠ []) :
    ran = (lists level).head? ∧ Sharing assigned left k' (serve lists level) ∧
      k'.quantum = none := by
  obtain ⟨curr, rest, front⟩ := List.exists_cons_of_ne_nil (filled level)
  cases turn with
  | allEmpty passed tick =>
      obtain ⟨sharing₁, idle₁⟩ := passed.sharing sharing idle
      simp only [idleTick, Prog.get_bind] at tick
      obtain ⟨_, k₂, checked, _⟩ := Prog.bind_inv tick
      obtain ⟨⟨_, empty⟩, _⟩ := require_inv checked
      have nothing := sharing₁.orderly.intact.length level ▸ empty level
      exact absurd (List.length_eq_zero_iff.mp nothing) (filled level)
  | noneRunnable passed _ picked none =>
      obtain ⟨sharing₁, idle₁⟩ := passed.sharing sharing idle
      obtain ⟨_, continued⟩ := (pick_sharing sharing₁ idle₁ front).of_eq picked
      rw [none] at continued
      cases continued
  | quantum passed _ picked continued calls ended =>
      obtain ⟨sharing₁, idle₁⟩ := passed.sharing sharing idle
      obtain ⟨sharing₂, quantum₂⟩ := (pick_sharing sharing₁ idle₁ front).of_eq picked
      rw [quantum₂] at continued
      obtain ⟨rfl, rfl⟩ := Prod.mk.inj (Option.some.inj continued)
      obtain ⟨sharing₃, quantum₃⟩ := calls.sharing sharing₂
      obtain ⟨sharing₄, idle₄⟩ :=
        (quantumEnd_sharing sharing₃ (quantum₃.trans quantum₂)).of_eq ended
      exact ⟨by rw [front, List.head?_cons], sharing₄, idle₄⟩

/-- Where the threads make no call, the turn takes place. -/
theorem turn_total (sharing : Sharing assigned (left + 1) k lists) (idle : k.quantum = none)
    (filled : ∀ level, lists level ≠ []) (level : Level) :
    ∃ ran k', Turn assigned left level k ran k' := by
  obtain ⟨curr, rest, front⟩ := List.exists_cons_of_ne_nil (filled level)
  obtain ⟨_, k₁, pass, sharing₁, idle₁⟩ := maintenancePass_sharing sharing idle
  obtain ⟨_, k₂, picked, sharing₂, quantum₂⟩ := pick_sharing sharing₁ idle₁ front
  obtain ⟨_, k₃, ended, _⟩ := quantumEnd_sharing sharing₂ quantum₂
  have nonempty : (k₁.priorityQueueArray level).length ≠ 0 := by
    rw [sharing₁.orderly.intact.length level, front]
    exact Nat.succ_ne_zero _
  exact ⟨some curr, k₃, .quantum ⟨k, k₁, .refl k, pass, .refl k₁⟩ nonempty picked quantum₂
    (.refl k₂) ended⟩

theorem Turns.sharing {slots : List Level} {log : List PcbPtr} (turns : Turns assigned slots k log k')
    (sharing : Sharing assigned slots.length k lists) (idle : k.quantum = none)
    (filled : ∀ level, lists level ≠ []) : log = schedule lists slots := by
  induction turns generalizing lists with
  | nil => rfl
  | cons turn _ ih =>
      obtain ⟨rfl, sharing', idle'⟩ := turn.sharing sharing idle filled
      rw [ih sharing' idle' fun level => RoundRobin.serve_ne_nil (filled level)]
      rfl

theorem turns_total {slots : List Level} (sharing : Sharing assigned slots.length k lists)
    (idle : k.quantum = none) (filled : ∀ level, lists level ≠ []) :
    ∃ log k', Turns assigned slots k log k' := by
  induction slots generalizing k lists with
  | nil => exact ⟨[], k, .nil k⟩
  | cons level rest ih =>
      obtain ⟨ran, k₁, turn⟩ := turn_total sharing idle filled level
      obtain ⟨_, sharing₁, idle₁⟩ := turn.sharing sharing idle filled
      obtain ⟨log, k', later⟩ :=
        ih sharing₁ idle₁ fun level => RoundRobin.serve_ne_nil (filled level)
      exact ⟨_, k', .cons turn later⟩

end Slots

theorem traversals_count (count : Nat) (level : Level) :
    (traversals count).count level = count * queuePickPattern.count level := by
  unfold traversals
  induction count with
  | zero => simp
  | succ count ih =>
      rw [List.replicate_succ, List.flatten_cons, List.count_append, ih, Nat.succ_mul, Nat.add_comm]

/-- The quanta of `count` traversals: nine, six and four in each for the three queues, shared
within a queue up to one quantum, and none for others; and the traversals do take place. -/
theorem round_robin_shares (count : Nat) (k : KernelState) (assigned : PcbPtr → Option Level)
    (lists : Level → List PcbPtr)
    (sharing : Sharing assigned (traversals count).length k lists) (idle : k.quantum = none)
    (filled : ∀ level, lists level ≠ []) :
    (∃ log k', Turns assigned (traversals count) k log k') ∧
      ∀ log k', Turns assigned (traversals count) k log k' →
        log.countP (· ∈ lists 0) = 9 * count ∧ log.countP (· ∈ lists 1) = 6 * count ∧
        log.countP (· ∈ lists 2) = 4 * count ∧
        (∀ level, ∀ first ∈ lists level, ∀ second ∈ lists level,
          log.count first ≤ log.count second + 1) ∧
        ∀ ptr ∈ log, ∃ level, assigned ptr = some level := by
  refine ⟨turns_total sharing idle filled, fun log k' turns => ?_⟩
  obtain rfl := turns.sharing sharing idle filled
  have apart := sharing.orderly.intact.forest.apart
  have share : ∀ level, (schedule lists (traversals count)).countP (· ∈ lists level) =
      count * queuePickPattern.count level := by
    intro level
    rw [RoundRobin.schedule_countP apart filled, traversals_count]
  refine ⟨(share 0).trans (Nat.mul_comm _ _), (share 1).trans (Nat.mul_comm _ _),
    (share 2).trans (Nat.mul_comm _ _), ?_, ?_⟩
  · intro level first here second there
    have distinct := (sharing.orderly.intact.forest.links level).nodup
    exact RoundRobin.schedule_fair apart distinct here there
  · intro ptr served
    obtain ⟨level, member⟩ := RoundRobin.schedule_mem served
    exact ⟨level, (sharing.exact level ptr).mp member⟩

/-- The queue of one of the PCBs of `sixProcesses`. -/
def sixLevels (ptr : PcbPtr) : Option Level :=
  if ptr < 6 then some ⟨ptr % 3, Nat.mod_lt ptr (by decide)⟩ else none

/-- A state with two runnable processes in each queue. -/
def sixProcesses : KernelState where
  pcbs ptr := (sixLevels ptr).map fun level =>
    { initPcb with
      pid := ptr + 1
      priorityLevel := level
      nextPcbPtr := if ptr < 3 then some (ptr + 3) else none }
  priorityQueueArray level := ⟨some level, some (level + 3), 2⟩
  allUnreapedPcbVector := [0, 1, 2, 3, 4, 5]
  nextPtr := 6
  globalClock := 0
  pending := []
  quantum := none
  shellSpawned := true
  kErrno := pNoerror

theorem sixLevels_exact (level : Level) (ptr : Nat) :
    ptr ∈ [level.val, level.val + 3] ↔ sixLevels ptr = some level := by
  have bound : level.val < 3 := level.isLt
  simp only [List.mem_cons, List.not_mem_nil, or_false, sixLevels]
  by_cases within : ptr < 6
  · simp only [within, ↓reduceIte, Option.some.injEq, Fin.ext_iff]
    omega
  · simp only [within, ↓reduceIte, reduceCtorEq, iff_false]
    omega

theorem sixProcesses_pcb {node : Pcb} (found : sixProcesses.pcbs ptr = some node) :
    ∃ level, sixLevels ptr = some level ∧ node = { initPcb with
      pid := ptr + 1
      priorityLevel := level
      nextPcbPtr := if ptr < 3 then some (ptr + 3) else none } := by
  obtain ⟨level, assigned, rfl⟩ := Option.map_eq_some_iff.mp found
  exact ⟨level, assigned, rfl⟩

theorem sixLevels_bound {level : Level} (assigned : sixLevels ptr = some level) : ptr < 6 := by
  unfold sixLevels at assigned
  split at assigned
  · assumption
  · cases assigned

theorem sixProcesses_found (level : Level) (member : ptr ∈ [level.val, level.val + 3]) :
    sixProcesses.pcbs ptr = some { initPcb with
      pid := ptr + 1
      priorityLevel := level
      nextPcbPtr := if ptr < 3 then some (ptr + 3) else none } :=
  Option.map_eq_some_iff.mpr ⟨level, (sixLevels_exact level ptr).mp member, rfl⟩

theorem sixProcesses_next : sixProcesses.next ptr = if ptr < 3 then some (ptr + 3) else none := by
  rw [KernelState.next]
  cases assigned : sixLevels ptr with
  | none =>
      have beyond : ¬ ptr < 3 := by
        intro within
        have inside : ptr < 6 := Nat.lt_trans within (by decide)
        simp [sixLevels, inside] at assigned
      simp [sixProcesses, assigned, beyond]
  | some level => simp [sixProcesses, assigned]

theorem sixProcesses_intact : Intact sixProcesses fun level => [level.val, level.val + 3] := by
  refine ⟨⟨fun level => ?_, fun level other ptr here there => ?_⟩, fun level => rfl,
    fun level => rfl, fun ptr out => ?_⟩
  · have second : sixProcesses.next level.val = some (level.val + 3) := by
      rw [sixProcesses_next, if_pos level.isLt]
    have beyond : ¬ level.val + 3 < 3 := Nat.not_lt.mpr (Nat.le_add_left 3 level.val)
    have last : sixProcesses.next (level.val + 3) = none := by
      rw [sixProcesses_next, if_neg beyond]
    exact ⟨rfl, second, last⟩
  · rw [sixLevels_exact] at here there
    exact Option.some.inj (here.symm.trans there)
  · rw [sixProcesses_next, if_neg]
    intro within
    exact out ⟨ptr, within⟩ List.mem_cons_self

theorem sixProcesses_table : Table sixProcesses := by
  constructor
  · intro ptr node there
    obtain ⟨_, assigned, _⟩ := sixProcesses_pcb there
    exact sixLevels_bound assigned
  · intro ptr node there
    obtain ⟨_, assigned, _⟩ := sixProcesses_pcb there
    have listed : ∀ node < 6, node ∈ sixProcesses.allUnreapedPcbVector := by decide
    exact listed ptr (sixLevels_bound assigned)
  · intro ptr member
    have bounded : ∀ node ∈ sixProcesses.allUnreapedPcbVector, node < 6 := by decide
    have assigned : sixLevels ptr = some _ := if_pos (bounded ptr member)
    exact ⟨_, Option.map_eq_some_iff.mpr ⟨_, assigned, rfl⟩⟩
  · decide
  · intro ptr other first second here there same
    obtain ⟨_, _, rfl⟩ := sixProcesses_pcb here
    obtain ⟨_, _, rfl⟩ := sixProcesses_pcb there
    exact Int.ofNat_inj.mp ((Int.add_left_inj 1).mp same)
  · exact fun _ _ _ _ => rfl

theorem sixProcesses_placed : Placed sixProcesses fun level => [level.val, level.val + 3] := by
  constructor
  · intro level ptr member
    exact ⟨_, sixProcesses_found level member⟩
  · intro level ptr node member there
    rw [sixProcesses_found level member] at there
    obtain rfl := Option.some.inj there
    exact .inl rfl
  · rintro _ _ ⟨⟩

theorem sixProcesses_sharing (left : Nat) :
    Sharing sixLevels left sixProcesses fun level => [level.val, level.val + 3] := by
  refine ⟨⟨sixProcesses_intact, sixProcesses_table, sixProcesses_placed⟩, ⟨?_, ?_⟩,
    sixLevels_exact⟩
  · intro ptr level assigned
    have member := (sixLevels_exact level ptr).mpr assigned
    refine ⟨_, sixProcesses_found level member, rfl, rfl, ?_⟩
    simp [initPcb]
  · intro ptr node there unassigned
    obtain ⟨level, assigned, _⟩ := sixProcesses_pcb there
    rw [unassigned] at assigned
    cases assigned

theorem round_robin_shares_sixProcesses :
    (∃ log k', Turns sixLevels (traversals 2) sixProcesses log k') ∧
      ∀ log k', Turns sixLevels (traversals 2) sixProcesses log k' →
        log.countP (· ∈ [0, 3]) = 18 ∧ log.countP (· ∈ [1, 4]) = 12 ∧
          log.countP (· ∈ [2, 5]) = 8 ∧ log.count 0 ≤ log.count 3 + 1 ∧
          log.count 3 ≤ log.count 0 + 1 := by
  have shares := round_robin_shares 2 sixProcesses _ (fun level => [level.val, level.val + 3])
    (sixProcesses_sharing _) rfl fun _ => List.cons_ne_nil _ _
  refine ⟨shares.1, fun log k' turns => ?_⟩
  obtain ⟨high, middle, low, fair, _⟩ := shares.2 log k' turns
  exact ⟨high, middle, low, fair 0 0 (by decide) 3 (by decide), fair 0 3 (by decide) 0 (by decide)⟩

end PennOs.Kernel
