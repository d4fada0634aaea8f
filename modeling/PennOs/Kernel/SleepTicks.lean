import PennOs.Kernel.Roster

set_option autoImplicit false

/- How many ticks `s_sleep` lasts. -/
namespace PennOs.Kernel

variable {k k' k₀ : KernelState} {self : PcbPtr} {pid : Int} {child : Pcb} {ticks : Nat}
  {g : UInt32} {queued : Bool} {quantum : Option (Level × PcbPtr)}

/-- `s_sleep` -/
def sSleep (self : PcbPtr) (ticks : UInt32) : KernelM Unit := kSleep self ticks

def KernelState.HasStatus (k : KernelState) (ptr : PcbPtr) (status : ThrdStatus) : Prop :=
  (k.pcbs ptr).map Pcb.status = some status

/-- From the call at `k₀`, `ticks` ticks have gone by up to `k`; the process has got no signal and its
PCB is still blocked. -/
inductive Asleep (k₀ : KernelState) (self : PcbPtr) (pid : Int) : Nat → KernelState → Prop
  | called : Asleep k₀ self pid 0 k₀
  | step {ticks : Nat} {k k' : KernelState} {event : Event} (before : Asleep k₀ self pid ticks k)
      (others : event.caller ≠ some self) (unsignalled : ∀ caller sig, event ≠ .kill caller pid sig)
      (step : Step k event k') (blocked : k'.HasStatus self .blocked) :
      Asleep k₀ self pid (if k'.globalClock = k.globalClock then ticks else ticks + 1) k'

/-- A sleep of `t` ticks that starts at clock `g` lasts `t` ticks, in every run: no step of the scheduler
ends it before, and the next maintenance pass does. -/
def SleepsTicks (t g : UInt32) : Prop :=
  ∀ (k k₀ : KernelState) (self : PcbPtr) (pcb : Pcb), Run (fun _ _ => True) .boot k →
    k.pcbs self = some pcb → k.globalClock = g → sSleep self t k = some ((), k₀) →
    ∀ (ticks : Nat) (k₁ k₂ : KernelState) (event : Event), Asleep k₀ self pcb.pid ticks k₁ →
      event.caller = none → Step k₁ event k₂ →
      (ticks < t.toNat → ¬ k₂.HasStatus self .running) ∧
      (event = .maintenancePass → t.toNat ≤ ticks → ticks < 2 ^ 32 → k₂.HasStatus self .running)

/-- The process with PID 3 is the only one that may run: `init` and the shell wait. -/
structure Alone (k : KernelState) (child : Pcb) (queued : Bool) (quantum : Option (Level × PcbPtr)) :
    Prop where
  vector : k.allUnreapedPcbVector = [0, 1, 2]
  nextPtr : k.nextPtr = 3
  waiting : ∀ ptr, ptr = 0 ∨ ptr = 1 →
    ∃ pcb, k.pcbs ptr = some pcb ∧ pcb.status = .blocked ∧ pcb.sleepStamp = 0
  found : k.pcbs 2 = some child
  queue : k.priorityQueueArray 1 = if queued then ⟨some 2, some 2, 1⟩ else .empty
  others : ∀ level, level ≠ 1 → (k.priorityQueueArray level).length = 0
  quantum : k.quantum = quantum
  live : child.thrd = .live
  priority : child.priorityLevel = 1
  unlinked : child.nextPcbPtr = none

namespace Alone

/-- Only the clock and the quantum change. -/
theorem of_clock (alone : Alone k child queued quantum) (clock : UInt32)
    (next : Option (Level × PcbPtr)) :
    Alone { k with globalClock := clock, quantum := next } child queued next :=
  ⟨alone.vector, alone.nextPtr, alone.waiting, alone.found, alone.queue, alone.others, rfl, alone.live,
    alone.priority, alone.unlinked⟩

/-- The process's PCB and its queue change. -/
theorem change (alone : Alone k child queued quantum) {child' : Pcb} (live : child'.thrd = .live)
    (priority : child'.priorityLevel = 1) (unlinked : child'.nextPcbPtr = none) (queued' : Bool)
    (pcbs : ∀ ptr, k'.pcbs ptr = if ptr = 2 then some child' else k.pcbs ptr)
    (queues : ∀ level, k'.priorityQueueArray level = if level = 1 then
      (if queued' then ⟨some 2, some 2, 1⟩ else .empty) else k.priorityQueueArray level)
    (vector : k'.allUnreapedPcbVector = k.allUnreapedPcbVector) (nextPtr : k'.nextPtr = k.nextPtr) :
    Alone k' child' queued' k'.quantum where
  vector := vector.trans alone.vector
  nextPtr := nextPtr.trans alone.nextPtr
  waiting ptr other := by
    have apart : ptr ≠ 2 := by rcases other with rfl | rfl <;> decide
    obtain ⟨pcb, found, still⟩ := alone.waiting ptr other
    exact ⟨pcb, by rw [pcbs, if_neg apart, found], still⟩
  found := by rw [pcbs, if_pos rfl]
  queue := by rw [queues, if_pos rfl]
  others level apart := by rw [queues, if_neg apart, alone.others level apart]
  quantum := rfl
  live := live
  priority := priority
  unlinked := unlinked

/-- The process gets the processor. -/
theorem pick (alone : Alone k child true none) (running : child.status = .running) :
    Step k (.pick 1) { k with globalClock := k.globalClock + 1, quantum := some (1, 2) } := by
  have present : child.thrd ≠ .absent := by simp [alone.live]
  have fuel : k.linkFuel = 3 + 1 := by rw [KernelState.linkFuel, alone.nextPtr]
  have chosen : pickLoop 1 k.linkFuel (k.priorityQueueArray 1).qHeadPtr k = some (some 2, k) := by
    rw [alone.queue, fuel, if_pos rfl, pickLoop, Prog.bind_of_run (deref_run alone.found), if_pos running]
    rfl
  show Kernel.pick 1 k = _
  rw [Kernel.pick, Prog.get_bind, Prog.bind_of_run (show require (k.quantum = none) k = some ((), k) by
    rw [require, if_pos alone.quantum]; rfl), Prog.bind_of_run chosen]
  dsimp only
  rw [Prog.bind_of_run (deref_run alone.found), require, if_pos present]
  rfl

/-- The head of its queue is popped and has no link. -/
theorem pop (alone : Alone k child true quantum) :
    ∃ k', pcbQueuePop 1 k = some (some 2, k') ∧ Alone k' child false quantum ∧
      k'.globalClock = k.globalClock := by
  have same : ({ child with nextPcbPtr := none } : Pcb) = child := by
    rw [← alone.unlinked]
  have found : (k.setQueue 1 ⟨child.nextPcbPtr, none, 0⟩).pcbs 2 = some child := alone.found
  refine ⟨(k.setQueue 1 ⟨child.nextPcbPtr, none, 0⟩).setPcb 2 { child with nextPcbPtr := none }, ?_, ?_, rfl⟩
  · rw [pcbQueuePop, Prog.get_bind, alone.queue]
    simp only [↓reduceIte, Nat.one_ne_zero]
    rw [Prog.bind_of_run (deref_run alone.found), Prog.modify_bind]
    exact Prog.bind_of_run (update_run found) _
  · rw [← alone.quantum]
    apply alone.change alone.live alone.priority alone.unlinked false
    · intro ptr
      rw [same, setPcb_pcbs]
      rfl
    · intro level
      show Function.update k.priorityQueueArray 1 _ level = _
      rw [Function.update_apply, alone.unlinked]
      rfl
    · rfl
    · rfl

/-- A push onto its empty queue. -/
theorem push (alone : Alone k child false quantum) :
    ∃ k', pcbQueuePush child.priorityLevel 2 k = some ((), k') ∧ Alone k' child true quantum ∧
      k'.globalClock = k.globalClock := by
  rw [alone.priority]
  have searched : pcbInQueue 2 1 k = some (false, k) := by
    rw [pcbInQueue, Prog.get_bind, alone.queue]
    rfl
  refine ⟨k.setQueue 1 ⟨some 2, some 2, 0 + 1⟩, ?_, ?_, rfl⟩
  · rw [pcbQueuePush, Prog.bind_of_run searched, if_neg Bool.false_ne_true, Prog.get_bind, alone.queue]
    rfl
  · rw [← alone.quantum]
    apply alone.change alone.live alone.priority alone.unlinked true
    · intro ptr
      by_cases here : ptr = 2
      · rw [if_pos here, here]
        exact alone.found
      · rw [if_neg here]
        rfl
    · intro level
      show Function.update k.priorityQueueArray 1 _ level = _
      rw [Function.update_apply]
      rfl
    · rfl
    · rfl

/-- A change of the process's PCB that leaves its thread, priority and link alone. -/
theorem setPcb (alone : Alone k child queued quantum) {child' : Pcb} (live : child'.thrd = .live)
    (priority : child'.priorityLevel = 1) (unlinked : child'.nextPcbPtr = none) :
    Alone (k.setPcb 2 child') child' queued quantum := by
  rw [← alone.quantum]
  apply alone.change live priority unlinked queued
  · intro ptr
    rw [setPcb_pcbs]
  · intro level
    by_cases here : level = 1
    · rw [if_pos here, here]
      exact alone.queue
    · rw [if_neg here]
      rfl
  · rfl
  · rfl

/-- At the end of its quantum the process is popped and its PCB looked at. -/
theorem quantumEnd_eq (alone : Alone k child true (some (1, 2))) :
    ∃ k₁, Alone k₁ child false none ∧ k₁.globalClock = k.globalClock ∧
      Kernel.quantumEnd k = (if child.status = .running then pcbQueuePush child.priorityLevel 2
        else if child.status = .blocked ∧ child.sleepStamp ≠ 0 then
          if sleepOver k.globalClock child then do
            update 2 fun pcb => { pcb with status := .running }
            pcbQueuePush child.priorityLevel 2
          else return ()
        else if child.status = .reaped then do
          pcbVecRemoveByPcb 2
          pcbDestroy 2
        else return () : KernelM Unit) k₁ := by
  obtain ⟨k₁, popped, alone₁, clock⟩ := (alone.of_clock k.globalClock none).pop
  refine ⟨k₁, alone₁, clock, ?_⟩
  rw [Kernel.quantumEnd, Prog.get_bind, alone.quantum]
  dsimp only
  rw [Prog.modify_bind, Prog.bind_of_run (show pcbQueuePop 1 (k.setQuantum none) = _ from popped)]
  dsimp only
  rw [Prog.bind_of_run (deref_run alone₁.found)]

/-- It goes on running. -/
theorem end_running (alone : Alone k child true (some (1, 2))) (running : child.status = .running) :
    ∃ k', Step k .quantumEnd k' ∧ Alone k' child true none ∧ k'.globalClock = k.globalClock := by
  obtain ⟨k₁, alone₁, clock, run⟩ := alone.quantumEnd_eq
  obtain ⟨k₂, pushed, alone₂, clock'⟩ := alone₁.push
  refine ⟨k₂, ?_, alone₂, clock'.trans clock⟩
  rw [if_pos running] at run
  exact run.trans pushed

/-- It sleeps on. -/
theorem end_asleep (alone : Alone k child true (some (1, 2))) (blocked : child.status = .blocked)
    (asleep : ¬ (child.sleepStamp ≠ 0 ∧ sleepOver k.globalClock child = true)) :
    ∃ k', Step k .quantumEnd k' ∧ Alone k' child false none ∧ k'.globalClock = k.globalClock := by
  obtain ⟨k₁, alone₁, clock, run⟩ := alone.quantumEnd_eq
  refine ⟨k₁, ?_, alone₁, clock⟩
  rw [if_neg (by simp [blocked])] at run
  by_cases stamped : child.sleepStamp ≠ 0
  · rw [if_pos ⟨blocked, stamped⟩, if_neg fun ended => asleep ⟨stamped, ended⟩] at run
    exact run
  · rw [if_neg fun both => stamped both.2, if_neg (by simp [blocked])] at run
    exact run

/-- It is woken at once. -/
theorem end_woken (alone : Alone k child true (some (1, 2))) (blocked : child.status = .blocked)
    (stamped : child.sleepStamp ≠ 0) (ended : sleepOver k.globalClock child = true) :
    ∃ k', Step k .quantumEnd k' ∧ k'.HasStatus 2 .running := by
  obtain ⟨k₁, alone₁, clock, run⟩ := alone.quantumEnd_eq
  have woken := @setPcb _ _ _ _ alone₁ { child with status := .running } alone.live alone.priority
    alone.unlinked
  obtain ⟨k₂, pushed, alone₂, _⟩ := woken.push
  refine ⟨k₂, ?_, ?_⟩
  · rw [if_neg (by simp [blocked]), if_pos ⟨blocked, stamped⟩, if_pos ended,
      Prog.bind_of_run (update_run alone₁.found)] at run
    exact run.trans pushed
  · rw [KernelState.HasStatus, alone₂.found]
    rfl

/-- Nobody runs and a tick goes by. -/
theorem idle (alone : Alone k child false none) :
    Step k .idleTick { k with globalClock := k.globalClock + 1 } := by
  have empty : ∀ level, (k.priorityQueueArray level).length = 0 := by
    intro level
    by_cases here : level = 1
    · rw [here, alone.queue]
      rfl
    · exact alone.others level here
  show idleTick k = _
  rw [idleTick, Prog.get_bind, require, if_pos ⟨alone.quantum, empty⟩]
  rfl

/-- A maintenance pass comes to the process last. -/
theorem pass_eq (alone : Alone k child false none) :
    maintenancePass k = (do let _ ← maintain 2 : KernelM Unit) k := by
  have still : ∀ ptr, ptr = 0 ∨ ptr = 1 → maintain ptr k = some (false, k) := by
    intro ptr other
    obtain ⟨pcb, found, blocked, unstamped⟩ := alone.waiting ptr other
    rw [maintain, Prog.bind_of_run (deref_run found), Prog.get_bind]
    simp only [blocked, unstamped, reduceCtorEq, ↓reduceIte, ne_eq, not_true_eq_false, and_false]
    rfl
  have first : k.allUnreapedPcbVector[0]? = some 0 := by rw [alone.vector]; rfl
  have second : k.allUnreapedPcbVector[0 + 1]? = some 1 := by rw [alone.vector]; rfl
  have third : k.allUnreapedPcbVector[0 + 1 + 1]? = some 2 := by rw [alone.vector]; rfl
  rw [maintenancePass, Prog.get_bind, require, if_pos alone.quantum, alone.vector]
  show maintenanceLoop (0 + 1 + 1 + 1) 0 k = _
  rw [maintenanceLoop, Prog.get_bind, first]
  dsimp only
  rw [Prog.bind_of_run (still 0 (.inl rfl)), if_neg Bool.false_ne_true, maintenanceLoop, Prog.get_bind,
    second]
  dsimp only
  rw [Prog.bind_of_run (still 1 (.inr rfl)), if_neg Bool.false_ne_true, maintenanceLoop, Prog.get_bind,
    third]
  dsimp only
  rw [Prog.bind_run, Prog.bind_run]
  cases maintain 2 k with
  | none => rfl
  | some result =>
      obtain ⟨gone, k'⟩ := result
      cases gone <;> rfl

theorem pass_asleep (alone : Alone k child false none) (blocked : child.status = .blocked)
    (asleep : ¬ (child.sleepStamp ≠ 0 ∧ sleepOver k.globalClock child = true)) :
    Step k .maintenancePass k := by
  have turn : maintain 2 k = some (false, k) := by
    rw [maintain, Prog.bind_of_run (deref_run alone.found), Prog.get_bind, if_neg (by simp [blocked])]
    by_cases stamped : child.sleepStamp ≠ 0
    · rw [if_pos ⟨blocked, stamped⟩, if_neg fun ended => asleep ⟨stamped, ended⟩]
      rfl
    · rw [if_neg fun both => stamped both.2, if_neg (by simp [blocked])]
      rfl
  show maintenancePass k = _
  rw [alone.pass_eq, Prog.bind_of_run turn]
  rfl

theorem pass_woken (alone : Alone k child false none) (blocked : child.status = .blocked)
    (stamped : child.sleepStamp ≠ 0) (ended : sleepOver k.globalClock child = true) :
    ∃ k', Step k .maintenancePass k' ∧ k'.HasStatus 2 .running := by
  have woken := @setPcb _ _ _ _ alone { child with status := .running } alone.live alone.priority
    alone.unlinked
  obtain ⟨k', pushed, alone', _⟩ := woken.push
  have turn : maintain 2 k = some (false, k') := by
    rw [maintain, Prog.bind_of_run (deref_run alone.found), Prog.get_bind, if_neg (by simp [blocked]),
      if_pos ⟨blocked, stamped⟩, if_pos ended, Prog.bind_of_run (update_run alone.found)]
    exact Prog.bind_of_run pushed _
  refine ⟨k', ?_, ?_⟩
  · show maintenancePass k = _
    rw [alone.pass_eq, Prog.bind_of_run turn]
    rfl
  · rw [KernelState.HasStatus, alone'.found]
    rfl

/-- It goes to sleep in its quantum. -/
theorem sleep (alone : Alone k child true (some (1, 2))) (t : UInt32) :
    ∃ k', sSleep 2 t k = some ((), k') ∧
      Alone k' { child with sleepStamp := k.globalClock, sleepLength := t * 10, status := .blocked }
        true (some (1, 2)) ∧ k'.globalClock = k.globalClock := by
  have caller : asCaller 2 k = some (child, k) := by
    rw [asCaller, Prog.get_bind, Prog.bind_of_run (deref_run alone.found), require,
      if_pos ⟨alone.live, by rw [alone.vector]; decide⟩]
    rfl
  have slept := @setPcb _ _ _ _ alone
    { child with sleepStamp := k.globalClock, sleepLength := t * 10, status := .blocked } alone.live
    alone.priority alone.unlinked
  refine ⟨(k.setPcb 2 { child with
    sleepStamp := k.globalClock, sleepLength := t * 10, status := .blocked }).setPending
      (.sleep 2 :: k.pending), ?_, ⟨slept.vector, slept.nextPtr, slept.waiting, slept.found, slept.queue,
    slept.others, slept.quantum, slept.live, slept.priority, slept.unlinked⟩, rfl⟩
  rw [sSleep, kSleep, Prog.bind_of_run caller, Prog.get_bind, Prog.bind_of_run (update_run alone.found)]
  rfl

/-- Idle ticks go by while it sleeps, each after a pass. -/
theorem naps (alone : Alone k child false none) (blocked : child.status = .blocked)
    (asleep : Asleep k₀ 2 pid 0 k) (count : Nat)
    (unended : ∀ m < count, ¬ (child.sleepStamp ≠ 0 ∧
      sleepOver (k.globalClock + UInt32.ofNat m) child = true)) :
    ∃ k', Asleep k₀ 2 pid count k' ∧ Alone k' child false none ∧
      k'.globalClock = k.globalClock + UInt32.ofNat count := by
  induction count with
  | zero => exact ⟨k, asleep, alone, by simp⟩
  | succ count ih =>
      obtain ⟨k₁, asleep₁, alone₁, clock₁⟩ := ih fun m before => unended m (Nat.lt_succ_of_lt before)
      have before : k₁.HasStatus 2 .blocked := by
        rw [KernelState.HasStatus, alone₁.found, ← blocked]
        rfl
      have passed := alone₁.pass_asleep blocked (clock₁ ▸ unended count (Nat.lt_succ_self count))
      have passing := asleep₁.step (by simp [Event.caller]) (by simp) passed before
      rw [if_pos rfl] at passing
      have ticked : k₁.globalClock + 1 ≠ k₁.globalClock := by simp
      have alone₂ := alone₁.of_clock (k₁.globalClock + 1) none
      have still : KernelState.HasStatus { k₁ with globalClock := k₁.globalClock + 1, quantum := none } 2
          .blocked := by
        rw [KernelState.HasStatus, alone₂.found, ← blocked]
        rfl
      have step : Step k₁ .idleTick { k₁ with globalClock := k₁.globalClock + 1, quantum := none } := by
        have idled := alone₁.idle
        rwa [← alone₁.quantum]
      have later := passing.step (by simp [Event.caller]) (by simp) step still
      rw [if_neg ticked] at later
      refine ⟨_, later, alone₂, ?_⟩
      show k₁.globalClock + 1 = _
      rw [clock₁, UInt32.ofNat_add, UInt32.add_assoc]
      rfl

/-- It runs until the clock stands at any value. -/
theorem runs (alone : Alone k child true none) (running : child.status = .running)
    (reached : Run (fun _ _ => True) .boot k) (count : Nat) :
    ∃ k', Run (fun _ _ => True) .boot k' ∧ Alone k' child true none ∧
      k'.globalClock = k.globalClock + UInt32.ofNat count := by
  induction count with
  | zero => exact ⟨k, reached, alone, by simp⟩
  | succ count ih =>
      obtain ⟨k₁, reached₁, alone₁, clock₁⟩ := ih
      have picked := alone₁.pick running
      have alone₂ := alone₁.of_clock (k₁.globalClock + 1) (some (1, 2))
      obtain ⟨k₃, ended, alone₃, clock₃⟩ := alone₂.end_running running
      refine ⟨k₃, (reached₁.step trivial picked).step trivial ended, alone₃, ?_⟩
      rw [clock₃]
      show k₁.globalClock + 1 = _
      rw [clock₁, UInt32.ofNat_add, UInt32.add_assoc]
      rfl

end Alone

section Sleeps

/-- The shell waits for the process. -/
def shellWaits : KernelState := processStarted.after [.pick 0, .waitpid 1 3 false, .quantumEnd]

theorem shellWaits_alone : ∃ child, Alone shellWaits child true none ∧ child.status = .running := by
  have known : shellWaits.allUnreapedPcbVector = [0, 1, 2] ∧ shellWaits.nextPtr = 3 ∧
      (∀ ptr ∈ [0, 1], (shellWaits.pcbs ptr).any fun pcb =>
        decide (pcb.status = .blocked ∧ pcb.sleepStamp = 0)) ∧
      ((shellWaits.pcbs 2).any fun pcb => decide (pcb.thrd = .live ∧ pcb.priorityLevel = 1 ∧
        pcb.nextPcbPtr = none ∧ pcb.status = .running)) ∧
      ((shellWaits.priorityQueueArray 1).qHeadPtr = some 2 ∧
        (shellWaits.priorityQueueArray 1).qEndPtr = some 2 ∧
        (shellWaits.priorityQueueArray 1).length = 1) ∧
      (∀ level, level ≠ 1 → (shellWaits.priorityQueueArray level).length = 0) ∧
      shellWaits.quantum = none := by
    decide +kernel
  obtain ⟨vector, nextPtr, waiting, there, ⟨head, last, length⟩, others, quantum⟩ := known
  obtain ⟨child, found, facts⟩ := (Option.any_eq_true _ _).mp there
  obtain ⟨live, priority, unlinked, running⟩ := of_decide_eq_true facts
  refine ⟨child, ⟨vector, nextPtr, ?_, found, ?_, others, quantum, live, priority, unlinked⟩, running⟩
  · intro ptr other
    have present := waiting ptr (by simpa using other)
    obtain ⟨pcb, foundPcb, still⟩ := (Option.any_eq_true _ _).mp present
    exact ⟨pcb, foundPcb, of_decide_eq_true still⟩
  · show PcbQueue.mk (shellWaits.priorityQueueArray 1).qHeadPtr (shellWaits.priorityQueueArray 1).qEndPtr
      (shellWaits.priorityQueueArray 1).length = _
    rw [head, last, length, if_pos rfl]

theorem shellWaits_run : Run (fun _ _ => True) .boot shellWaits :=
  Run.of_runEvents (processStarted_run fun _ _ _ => trivial) (fun _ _ _ => trivial)
    (runEvents_after (by decide +kernel))

/-- The process is in its quantum when the clock stands at `g`. -/
theorem awake_at (g : UInt32) : ∃ k child, Run (fun _ _ => True) .boot k ∧
    Alone k child true (some (1, 2)) ∧ k.globalClock = g := by
  obtain ⟨child, alone, running⟩ := shellWaits_alone
  obtain ⟨k, reached, alone', clock⟩ :=
    alone.runs running shellWaits_run (g - shellWaits.globalClock - 1).toNat
  refine ⟨_, child, reached.step trivial (alone'.pick running),
    alone'.of_clock (k.globalClock + 1) (some (1, 2)), ?_⟩
  show k.globalClock + 1 = g
  rw [clock, UInt32.ofNat_toNat]
  grind

/-- No length is its own tenfold. -/
theorem length_ne {t : UInt32} (positive : 0 < t.toNat) : (t * 10).toNat ≠ t.toNat := by
  have bound := t.toNat_lt
  rw [UInt32.toNat_mul]
  show t.toNat * 10 % 2 ^ 32 ≠ t.toNat
  omega

theorem sleepOver_iff {clock elapsed : UInt32} {pcb : Pcb} (stamp : pcb.sleepStamp = clock) :
    sleepOver (clock + elapsed) pcb = true ↔ pcb.sleepLength.toNat ≤ elapsed.toNat := by
  have gone : clock + elapsed - clock = elapsed := by grind
  rw [sleepOver, stamp, gone, decide_eq_true_iff, UInt32.le_iff_toNat_le]

/-- The process calls `s_sleep(t)` when the clock stands at `g`. -/
theorem falls_asleep (t g : UInt32) :
    ∃ k k₀ child sleeper, Run (fun _ _ => True) .boot k ∧ k.pcbs 2 = some child ∧ k.globalClock = g ∧
      sSleep 2 t k = some ((), k₀) ∧ Alone k₀ sleeper true (some (1, 2)) ∧ k₀.globalClock = g ∧
      sleeper.status = .blocked ∧ sleeper.sleepStamp = g ∧ sleeper.sleepLength = t * 10 := by
  obtain ⟨k, child, reached, alone, clock⟩ := awake_at g
  obtain ⟨k₀, called, alone₀, clock₀⟩ := alone.sleep t
  exact ⟨k, k₀, child, _, reached, alone.found, clock, called, alone₀, clock₀.trans clock, rfl, clock, rfl⟩

/-- The end of its quantum finds it asleep. -/
theorem quantum_asleep {sleeper : Pcb} (alone : Alone k₀ sleeper true (some (1, 2)))
    (blocked : sleeper.status = .blocked)
    (asleep : ¬ (sleeper.sleepStamp ≠ 0 ∧ sleepOver k₀.globalClock sleeper = true)) (pid : Int) :
    ∃ k₁, Asleep k₀ 2 pid 0 k₁ ∧ Alone k₁ sleeper false none ∧ k₁.globalClock = k₀.globalClock := by
  obtain ⟨k₁, ended, alone₁, clock₁⟩ := alone.end_asleep blocked asleep
  have still : k₁.HasStatus 2 .blocked := by
    rw [KernelState.HasStatus, alone₁.found, ← blocked]
    rfl
  have later := (@Asleep.called k₀ 2 pid).step (by simp [Event.caller]) (by simp) ended still
  rw [if_pos clock₁] at later
  exact ⟨k₁, later, alone₁, clock₁⟩

/-- The pass after `t` ticks leaves it asleep. -/
theorem sleeps_on {t g : UInt32} (late : ¬ (g ≠ 0 ∧ (t * 10).toNat ≤ t.toNat)) : ¬ SleepsTicks t g := by
  intro sleeps
  obtain ⟨k, k₀, child, sleeper, reached, found, clock, called, alone₀, clock₀, blocked, stamp, length⟩ :=
    falls_asleep t g
  have asleep : ∀ m : Nat, m ≤ t.toNat → ¬ (sleeper.sleepStamp ≠ 0 ∧
      sleepOver (g + UInt32.ofNat m) sleeper = true) := by
    intro m inside both
    have elapsed := Nat.lt_of_le_of_lt inside t.toNat_lt
    rw [sleepOver_iff stamp, length, UInt32.toNat_ofNat', Nat.mod_eq_of_lt elapsed, stamp] at both
    exact late ⟨both.1, Nat.le_trans both.2 inside⟩
  have asleep₀ : ¬ (sleeper.sleepStamp ≠ 0 ∧ sleepOver k₀.globalClock sleeper = true) := by
    have atOnce := asleep 0 (Nat.zero_le _)
    rwa [show UInt32.ofNat 0 = 0 from rfl, UInt32.add_zero, ← clock₀] at atOnce
  obtain ⟨k₁, asleep₁, alone₁, clock₁⟩ := quantum_asleep alone₀ blocked asleep₀ child.pid
  have now := clock₁.trans clock₀
  obtain ⟨k₂, asleep₂, alone₂, clock₂⟩ := alone₁.naps blocked asleep₁ t.toNat fun m before =>
    now.symm ▸ asleep m (Nat.le_of_lt before)
  rw [now] at clock₂
  have passed := alone₂.pass_asleep blocked (clock₂.symm ▸ asleep t.toNat (Nat.le_refl _))
  have running := (sleeps k k₀ 2 child reached found clock called _ k₂ k₂ _ asleep₂ rfl passed).2 rfl
    (Nat.le_refl _) t.toNat_lt
  rw [KernelState.HasStatus, alone₂.found, Option.map_some, blocked] at running
  cases running

/-- Its time, reduced, is over before `t` ticks have gone by. -/
theorem wakes_early {t g : UInt32} (stamped : g ≠ 0) (early : (t * 10).toNat < t.toNat) :
    ¬ SleepsTicks t g := by
  intro sleeps
  obtain ⟨k, k₀, child, sleeper, reached, found, clock, called, alone₀, clock₀, blocked, stamp, length⟩ :=
    falls_asleep t g
  have promise := sleeps k k₀ 2 child reached found clock called
  by_cases atOnce : sleepOver k₀.globalClock sleeper = true
  · -- the end of the quantum in which it went to sleep wakes it
    obtain ⟨k₁, ended, running⟩ := alone₀.end_woken blocked (stamp ▸ stamped) atOnce
    exact (promise 0 k₀ k₁ _ .called rfl ended).1 (by omega) running
  · obtain ⟨k₁, asleep₁, alone₁, clock₁⟩ :=
      quantum_asleep alone₀ blocked (fun both => atOnce both.2) child.pid
    obtain ⟨k₂, asleep₂, alone₂, clock₂⟩ := alone₁.naps blocked asleep₁ (t * 10).toNat (by
      intro m inside both
      have elapsed := Nat.lt_trans inside (t * 10).toNat_lt
      rw [clock₁, clock₀, sleepOver_iff stamp, length, UInt32.toNat_ofNat', Nat.mod_eq_of_lt elapsed] at both
      exact Nat.not_lt.mpr both.2 inside)
    have ends : sleepOver k₂.globalClock sleeper = true := by
      rw [clock₂, clock₁, clock₀, UInt32.ofNat_toNat, sleepOver_iff stamp]
      exact Nat.le_of_eq (by rw [length])
    obtain ⟨k₃, passed, running⟩ := alone₂.pass_woken blocked (stamp ▸ stamped) ends
    exact (promise _ k₂ k₃ _ asleep₂ rfl passed).1 early running

/-- A sleep lasts ten times as long as asked for, modulo `2 ^ 32`, and for ever from clock 0 on: for
no length and no clock is it right. -/
theorem never_sleepsTicks (t g : UInt32) (positive : 0 < t) : ¬ SleepsTicks t g := by
  have some_ : 0 < t.toNat := UInt32.lt_iff_toNat_lt.mp positive
  by_cases early : g ≠ 0 ∧ (t * 10).toNat ≤ t.toNat
  · exact wakes_early early.1 (Nat.lt_of_le_of_ne early.2 (length_ne some_))
  · exact sleeps_on early

theorem never_sleepsTicks_wrapped : ¬ SleepsTicks 429496730 4 :=
  never_sleepsTicks 429496730 4 (by decide)

/-- One tick after a process asked for one, a maintenance pass leaves it asleep. -/
theorem sleep_one_tick : ¬ ∀ t g : UInt32, 0 < t → SleepsTicks t g := by
  intro always
  exact sleeps_on (by decide) (always 1 4 (by decide))

end Sleeps

end PennOs.Kernel
