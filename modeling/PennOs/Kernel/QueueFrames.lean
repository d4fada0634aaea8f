import PennOs.Kernel.Scheduler

set_option autoImplicit false

/- What the queue and vector operations leave alone. -/
namespace PennOs.Kernel

/-- A PCB without its queue link. -/
def Pcb.core (pcb : Pcb) : Pcb := { pcb with nextPcbPtr := none }

/-- Only links and queue records differ. -/
structure SameButLinks (k k' : KernelState) : Prop where
  cores : ∀ ptr, (k'.pcbs ptr).map Pcb.core = (k.pcbs ptr).map Pcb.core
  vector : k'.allUnreapedPcbVector = k.allUnreapedPcbVector
  nextPtr : k'.nextPtr = k.nextPtr
  clock : k'.globalClock = k.globalClock
  pending : k'.pending = k.pending
  quantum : k'.quantum = k.quantum
  shellSpawned : k'.shellSpawned = k.shellSpawned

variable {k k' k'' : KernelState} {ptr : PcbPtr} {level : Level}

theorem SameButLinks.refl (k : KernelState) : SameButLinks k k :=
  ⟨fun _ => rfl, rfl, rfl, rfl, rfl, rfl, rfl⟩

theorem SameButLinks.trans (first : SameButLinks k k') (second : SameButLinks k' k'') :
    SameButLinks k k'' where
  cores ptr := (second.cores ptr).trans (first.cores ptr)
  vector := second.vector.trans first.vector
  nextPtr := second.nextPtr.trans first.nextPtr
  clock := second.clock.trans first.clock
  pending := second.pending.trans first.pending
  quantum := second.quantum.trans first.quantum
  shellSpawned := second.shellSpawned.trans first.shellSpawned

/-- The PCB behind a pointer keeps every field but its link. -/
theorem SameButLinks.pcb (same : SameButLinks k k') {pcb' : Pcb}
    (found : k'.pcbs ptr = some pcb') :
    ∃ pcb, k.pcbs ptr = some pcb ∧ pcb'.core = pcb.core := by
  have cores := same.cores ptr
  rw [found] at cores
  cases before : k.pcbs ptr with
  | none => simp [before] at cores
  | some pcb => exact ⟨pcb, rfl, by simpa [before] using cores⟩

theorem Pcb.core_status {pcb pcb' : Pcb} (same : pcb'.core = pcb.core) :
    pcb'.status = pcb.status := by
  simp only [core, mk.injEq] at same
  simp [same]

theorem Pcb.core_thrd {pcb pcb' : Pcb} (same : pcb'.core = pcb.core) :
    pcb'.thrd = pcb.thrd := by
  simp only [core, mk.injEq] at same
  simp [same]

theorem Pcb.core_pid {pcb pcb' : Pcb} (same : pcb'.core = pcb.core) :
    pcb'.pid = pcb.pid := by
  simp only [core, mk.injEq] at same
  simp [same]

theorem Pcb.core_priorityLevel {pcb pcb' : Pcb} (same : pcb'.core = pcb.core) :
    pcb'.priorityLevel = pcb.priorityLevel := by
  simp only [core, mk.injEq] at same
  simp [same]

theorem deref_inv {pcb : Pcb} (run : deref ptr k = some (pcb, k')) :
    k.pcbs ptr = some pcb ∧ k = k' := by
  simp only [deref, Option.map_eq_some_iff, Prod.mk.injEq] at run
  obtain ⟨_, found, rfl, rfl⟩ := run
  exact ⟨found, rfl⟩

theorem deref_run {pcb : Pcb} (found : k.pcbs ptr = some pcb) : deref ptr k = some (pcb, k) := by
  simp only [deref, found, Option.map_some]

theorem update_inv {f : Pcb → Pcb} (run : update ptr f k = some ((), k')) :
    ∃ pcb, k.pcbs ptr = some pcb ∧ k' = k.setPcb ptr (f pcb) := by
  obtain ⟨pcb, k1, read, rest⟩ := Prog.bind_inv run
  obtain ⟨found, rfl⟩ := deref_inv read
  refine ⟨pcb, found, ?_⟩
  simpa using rest.symm

theorem update_run {f : Pcb → Pcb} {pcb : Pcb} (found : k.pcbs ptr = some pcb) :
    update ptr f k = some ((), k.setPcb ptr (f pcb)) := by
  rw [update, Prog.bind_of_run (deref_run found), Prog.modify_run]

theorem require_inv {condition : Prop} [Decidable condition]
    (run : require condition k = some ((), k')) : condition ∧ k = k' := by
  by_cases holds : condition
  · simp only [require, holds, ↓reduceIte, Prog.pure_run, Option.some.injEq, Prod.mk.injEq,
      true_and] at run
    exact ⟨holds, run⟩
  · simp [require, holds] at run

theorem asCaller_inv {pcb : Pcb} (run : asCaller ptr k = some (pcb, k')) :
    k.pcbs ptr = some pcb ∧ pcb.thrd = .live ∧ ptr ∈ k.allUnreapedPcbVector ∧ k = k' := by
  simp only [asCaller, Prog.get_bind] at run
  obtain ⟨found, k1, read, run⟩ := Prog.bind_inv run
  obtain ⟨exists_, rfl⟩ := deref_inv read
  obtain ⟨_, k2, checked, run⟩ := Prog.bind_inv run
  obtain ⟨holds, rfl⟩ := require_inv checked
  simp only [Prog.pure_run, Option.some.injEq, Prod.mk.injEq] at run
  obtain ⟨rfl, rfl⟩ := run
  exact ⟨exists_, holds.1, holds.2, rfl⟩

theorem asCaller_run {pcb : Pcb} (found : k.pcbs ptr = some pcb) (live : pcb.thrd = .live)
    (listed : ptr ∈ k.allUnreapedPcbVector) : asCaller ptr k = some (pcb, k) := by
  unfold asCaller
  rw [Prog.get_bind, Prog.bind_of_run (deref_run found), require, if_pos ⟨live, listed⟩]
  rfl

theorem setPcb_pcbs (k : KernelState) (ptr other : PcbPtr) (pcb : Pcb) :
    (k.setPcb ptr pcb).pcbs other = if other = ptr then some pcb else k.pcbs other := by
  simp [KernelState.setPcb, Function.update_apply]

theorem allocate_pcbs (k : KernelState) (other : PcbPtr) (pcb : Pcb) :
    (k.allocate pcb).pcbs other = if other = k.nextPtr then some pcb else k.pcbs other := by
  simp [KernelState.allocate, Function.update_apply]

theorem setPcb_sameButLinks {pcb pcb' : Pcb} (found : k.pcbs ptr = some pcb)
    (same : pcb'.core = pcb.core) : SameButLinks k (k.setPcb ptr pcb') := by
  refine ⟨fun other => ?_, rfl, rfl, rfl, rfl, rfl, rfl⟩
  rw [setPcb_pcbs]
  split
  · next here => rw [here, found, Option.map_some, Option.map_some, same]
  · rfl

theorem updateNext_sameButLinks {target : Option PcbPtr}
    (run : update ptr (fun pcb => { pcb with nextPcbPtr := target }) k = some ((), k')) :
    SameButLinks k k' := by
  obtain ⟨pcb, found, rfl⟩ := update_inv run
  exact setPcb_sameButLinks found rfl

theorem setQueue_sameButLinks (k : KernelState) (level : Level) (queue : PcbQueue) :
    SameButLinks k (k.setQueue level queue) := ⟨fun _ => rfl, rfl, rfl, rfl, rfl, rfl, rfl⟩

theorem inQueueLoop_state {self : PcbPtr} {fuel : Nat} {curr : Option PcbPtr} {found : Bool}
    (run : inQueueLoop self fuel curr k = some (found, k')) : k = k' := by
  induction fuel generalizing curr with
  | zero =>
      cases curr with
      | none =>
          simp only [inQueueLoop, Prog.pure_run, Option.some.injEq, Prod.mk.injEq] at run
          exact run.2
      | some _ => simp [inQueueLoop] at run
  | succ fuel ih =>
      cases curr with
      | none =>
          simp only [inQueueLoop, Prog.pure_run, Option.some.injEq, Prod.mk.injEq] at run
          exact run.2
      | some curr =>
          by_cases here : curr = self
          · simp only [inQueueLoop, here, ↓reduceIte, Prog.pure_run, Option.some.injEq,
              Prod.mk.injEq] at run
            exact run.2
          · simp only [inQueueLoop, here, ↓reduceIte] at run
            obtain ⟨pcb, k1, read, run⟩ := Prog.bind_inv run
            obtain ⟨_, rfl⟩ := deref_inv read
            exact ih run

theorem pcbInQueue_state {found : Bool} (run : pcbInQueue ptr level k = some (found, k')) :
    k = k' := inQueueLoop_state run

theorem pcbQueuePush_frame (run : pcbQueuePush level ptr k = some ((), k')) :
    SameButLinks k k' := by
  obtain ⟨queued, k1, searched, run⟩ := Prog.bind_inv run
  obtain rfl := pcbInQueue_state searched
  cases queued with
  | true =>
      simp only [↓reduceIte, Prog.pure_run, Option.some.injEq, Prod.mk.injEq, true_and] at run
      exact run ▸ SameButLinks.refl _
  | false =>
      simp only [Bool.false_eq_true, ↓reduceIte, Prog.get_bind] at run
      by_cases empty : (k.priorityQueueArray level).length = 0
      · simp only [empty, ↓reduceIte, Prog.modify_run, Option.some.injEq, Prod.mk.injEq,
          true_and] at run
        exact run ▸ setQueue_sameButLinks _ _ _
      · simp only [empty, ↓reduceIte] at run
        cases tail : (k.priorityQueueArray level).qEndPtr with
        | none => simp [tail] at run
        | some last =>
            simp only [tail] at run
            obtain ⟨_, k2, linked, run⟩ := Prog.bind_inv run
            simp only [Prog.modify_run, Option.some.injEq, Prod.mk.injEq, true_and] at run
            exact (updateNext_sameButLinks linked).trans (run ▸ setQueue_sameButLinks _ _ _)

theorem pcbQueuePop_frame {result : Option PcbPtr}
    (run : pcbQueuePop level k = some (result, k')) : SameButLinks k k' := by
  simp only [pcbQueuePop, Prog.get_bind] at run
  by_cases empty : (k.priorityQueueArray level).length = 0
  · simp only [empty, ↓reduceIte, Prog.pure_run, Option.some.injEq, Prod.mk.injEq] at run
    exact run.2 ▸ SameButLinks.refl _
  · simp only [empty, ↓reduceIte] at run
    cases head : (k.priorityQueueArray level).qHeadPtr with
    | none => simp [head] at run
    | some first =>
        simp only [head] at run
        obtain ⟨pcb, k1, read, run⟩ := Prog.bind_inv run
        obtain ⟨_, rfl⟩ := deref_inv read
        rw [Prog.modify_bind] at run
        obtain ⟨_, k2, unlinked, run⟩ := Prog.bind_inv run
        simp only [Prog.pure_run, Option.some.injEq, Prod.mk.injEq] at run
        exact (setQueue_sameButLinks _ _ _).trans (run.2 ▸ updateNext_sameButLinks unlinked)

theorem beforePidLoop_state {pid : Int} {fuel : Nat} {curr : PcbPtr}
    {result : Option (PcbPtr × PcbPtr)} (run : beforePidLoop pid fuel curr k = some (result, k')) :
    k = k' := by
  induction fuel generalizing curr with
  | zero => simp [beforePidLoop] at run
  | succ fuel ih =>
      obtain ⟨pcb, k1, read, run⟩ := Prog.bind_inv run
      obtain ⟨_, rfl⟩ := deref_inv read
      cases link : pcb.nextPcbPtr with
      | none =>
          simp only [link, Prog.pure_run, Option.some.injEq, Prod.mk.injEq] at run
          exact run.2
      | some after =>
          simp only [link] at run
          obtain ⟨nextPcb, k2, read', run⟩ := Prog.bind_inv run
          obtain ⟨_, rfl⟩ := deref_inv read'
          by_cases here : nextPcb.pid = pid
          · simp only [here, ↓reduceIte, Prog.pure_run, Option.some.injEq, Prod.mk.injEq] at run
            exact run.2
          · simp only [here, ↓reduceIte] at run
            exact ih run

theorem pcbQueuePopByPid_frame {pid : Int} {result : Option PcbPtr}
    (run : pcbQueuePopByPid level pid k = some (result, k')) : SameButLinks k k' := by
  simp only [pcbQueuePopByPid, Prog.get_bind] at run
  by_cases empty : (k.priorityQueueArray level).length = 0
  · simp only [empty, ↓reduceIte, Prog.pure_run, Option.some.injEq, Prod.mk.injEq] at run
    exact run.2 ▸ SameButLinks.refl _
  · simp only [empty, ↓reduceIte] at run
    cases head : (k.priorityQueueArray level).qHeadPtr with
    | none => simp [head] at run
    | some first =>
        simp only [head] at run
        obtain ⟨pcb, k1, read, run⟩ := Prog.bind_inv run
        obtain ⟨_, rfl⟩ := deref_inv read
        by_cases here : pcb.pid = pid
        · simp only [here, ↓reduceIte] at run
          exact pcbQueuePop_frame run
        · simp only [here, ↓reduceIte] at run
          obtain ⟨hit, k2, searched, run⟩ := Prog.bind_inv run
          obtain rfl := beforePidLoop_state searched
          cases hit with
          | none =>
              simp only [Prog.pure_run, Option.some.injEq, Prod.mk.injEq] at run
              exact run.2 ▸ SameButLinks.refl _
          | some pair =>
              obtain ⟨resultPcb, k3, read', run⟩ := Prog.bind_inv run
              obtain ⟨_, rfl⟩ := deref_inv read'
              obtain ⟨_, k4, linked, run⟩ := Prog.bind_inv run
              rw [Prog.modify_bind] at run
              obtain ⟨_, k5, unlinked, run⟩ := Prog.bind_inv run
              simp only [Prog.pure_run, Option.some.injEq, Prod.mk.injEq] at run
              exact (updateNext_sameButLinks linked).trans
                ((setQueue_sameButLinks _ _ _).trans (run.2 ▸ updateNext_sameButLinks unlinked))

theorem seekByPid_inv {pid : Int} {ptrs : List PcbPtr} {result : Option PcbPtr}
    (run : seekByPid pid ptrs k = some (result, k')) :
    k = k' ∧ ∀ found, result = some found →
      found ∈ ptrs ∧ ∃ pcb, k.pcbs found = some pcb ∧ pcb.pid = pid := by
  induction ptrs with
  | nil =>
      simp only [seekByPid, Prog.pure_run, Option.some.injEq, Prod.mk.injEq] at run
      obtain ⟨rfl, rfl⟩ := run
      simp
  | cons ptr rest ih =>
      obtain ⟨pcb, k1, read, run⟩ := Prog.bind_inv run
      obtain ⟨exists_, rfl⟩ := deref_inv read
      by_cases here : pcb.pid = pid
      · simp only [here, ↓reduceIte, Prog.pure_run, Option.some.injEq, Prod.mk.injEq] at run
        obtain ⟨rfl, rfl⟩ := run
        refine ⟨rfl, ?_⟩
        rintro found ⟨rfl⟩
        exact ⟨List.mem_cons_self, pcb, exists_, here⟩
      · simp only [here, ↓reduceIte] at run
        obtain ⟨state, members⟩ := ih run
        refine ⟨state, fun found same => ?_⟩
        obtain ⟨member, rest'⟩ := members found same
        exact ⟨List.mem_cons_of_mem _ member, rest'⟩

theorem pcbVecSeekPcbByPid_inv {pid : Int} {result : Option PcbPtr}
    (run : pcbVecSeekPcbByPid pid k = some (result, k')) :
    k = k' ∧ ∀ found, result = some found →
      found ∈ k.allUnreapedPcbVector ∧ ∃ pcb, k.pcbs found = some pcb ∧ pcb.pid = pid :=
  seekByPid_inv run

theorem pickLoop_frame {fuel : Nat} {curr result : Option PcbPtr}
    (run : pickLoop level fuel curr k = some (result, k')) : SameButLinks k k' := by
  induction fuel generalizing curr k with
  | zero =>
      cases curr with
      | none =>
          simp only [pickLoop, Prog.pure_run, Option.some.injEq, Prod.mk.injEq] at run
          exact run.2 ▸ SameButLinks.refl _
      | some _ => simp [pickLoop] at run
  | succ fuel ih =>
      cases curr with
      | none =>
          simp only [pickLoop, Prog.pure_run, Option.some.injEq, Prod.mk.injEq] at run
          exact run.2 ▸ SameButLinks.refl _
      | some curr =>
          obtain ⟨pcb, k1, read, run⟩ := Prog.bind_inv run
          obtain ⟨_, rfl⟩ := deref_inv read
          by_cases runs : pcb.status = .running
          · simp only [runs, ↓reduceIte, Prog.pure_run, Option.some.injEq, Prod.mk.injEq] at run
            exact run.2 ▸ SameButLinks.refl _
          · simp only [runs, ↓reduceIte] at run
            obtain ⟨_, k2, popped, run⟩ := Prog.bind_inv run
            exact (pcbQueuePopByPid_frame popped).trans (ih run)

section Runs

variable {sound : KernelState → Event → Prop}

theorem Run.trans (first : Run sound k k') (second : Run sound k' k'') : Run sound k k'' := by
  induction second with
  | refl => exact first
  | step _ meets step ih => exact ih.step meets step

theorem Run.mono {weaker : KernelState → Event → Prop} (run : Run sound k k')
    (implies : ∀ k event, sound k event → weaker k event) : Run weaker k k' := by
  induction run with
  | refl => exact .refl k
  | step _ meets step ih => exact ih.step (implies _ _ meets) step

theorem Run.of_runEvents {events : List Event} (before : Run sound k k')
    (meets : ∀ k, ∀ event ∈ events, sound k event)
    (run : runEvents events k' = some ((), k'')) : Run sound k k'' := by
  induction events generalizing k' with
  | nil =>
      simp only [runEvents, Prog.pure_run, Option.some.injEq, Prod.mk.injEq, true_and] at run
      exact run ▸ before
  | cons event rest ih =>
      obtain ⟨_, k1, first, run⟩ := Prog.bind_inv run
      have next : Run sound k k1 := before.step (meets k' event List.mem_cons_self) first
      exact ih next (fun k event' member => meets k event' (List.mem_cons_of_mem _ member)) run

theorem runEvents_after {events : List Event} (possible : (runEvents events k).isSome = true) :
    runEvents events k = some ((), k.after events) := by
  obtain ⟨⟨_, last⟩, run⟩ := Option.isSome_iff_exists.mp possible
  simp [KernelState.after, run]

theorem Run.after {events : List Event} (k : KernelState)
    (meets : ∀ k, ∀ event ∈ events, sound k event)
    (possible : (runEvents events k).isSome = true) : Run sound k (k.after events) :=
  Run.of_runEvents (.refl k) meets (runEvents_after possible)

/-- A list of events that each meet `sound`. -/
def soundEvents (sound : KernelState → Event → Prop) [∀ k event, Decidable (sound k event)] :
    List Event → KernelM Unit
  | [] => return ()
  | event :: rest => do
      let k ← Prog.get
      require (sound k event)
      event.run
      soundEvents sound rest

theorem soundEvents_inv [∀ k event, Decidable (sound k event)] {events : List Event}
    (before : Run sound k k') (run : soundEvents sound events k' = some ((), k'')) :
    Run sound k k'' ∧ runEvents events k' = some ((), k'') := by
  induction events generalizing k' with
  | nil =>
      simp only [soundEvents, Prog.pure_run, Option.some.injEq, Prod.mk.injEq, true_and] at run
      subst run
      exact ⟨before, rfl⟩
  | cons event rest ih =>
      simp only [soundEvents, Prog.get_bind] at run
      obtain ⟨_, k1, checked, run⟩ := Prog.bind_inv run
      obtain ⟨meets, rfl⟩ := require_inv checked
      obtain ⟨_, k2, first, run⟩ := Prog.bind_inv run
      obtain ⟨reached, later⟩ := ih (before.step meets first) run
      exact ⟨reached, (Prog.bind_of_run first _).trans later⟩

theorem Run.after_sound [∀ k event, Decidable (sound k event)] {events : List Event}
    (k : KernelState) (possible : (soundEvents sound events k).isSome = true) :
    Run sound k (k.after events) := by
  obtain ⟨⟨_, last⟩, run⟩ := Option.isSome_iff_exists.mp possible
  obtain ⟨reached, later⟩ := soundEvents_inv (.refl k) run
  rw [KernelState.after, later]
  exact reached

theorem step_after {event : Event} (possible : (event.run k).isSome = true) :
    Step k event (k.after [event]) := by
  obtain ⟨⟨_, last⟩, run⟩ := Option.isSome_iff_exists.mp possible
  have all : runEvents [event] k = some ((), last) := Prog.bind_of_run run _
  rw [KernelState.after, all]
  exact run

/-- The shell is spawned and starts a process. -/
def startProcess : List Event :=
  [.pick 0, .spawnShell 0, .quantumEnd, .maintenancePass,
    .pick 0, .procCreate 1 1, .setRoutineAndRun 1 2, .quantumEnd, .maintenancePass]

def processStarted : KernelState := KernelState.boot.after startProcess

theorem processStarted_run (meets : ∀ k, ∀ event ∈ startProcess, sound k event) :
    Run sound .boot processStarted := Run.after _ meets (by decide +kernel)

end Runs

theorem boot_pcbs (ptr : PcbPtr) :
    KernelState.boot.pcbs ptr = if ptr = 0 then some initPcb else none := by
  simp [KernelState.boot, Function.update_apply]

end PennOs.Kernel
