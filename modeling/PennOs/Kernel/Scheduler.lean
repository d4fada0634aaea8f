import PennOs.Kernel.Syscalls

set_option autoImplicit false

/- `scheduler_fn`, cut at the points where other threads run. -/
namespace PennOs.Kernel

/-- `global_clock - sleep_stamp >= sleep_length` -/
def sleepOver (clock : UInt32) (pcb : Pcb) : Bool :=
  decide (pcb.sleepLength ≤ clock - pcb.sleepStamp)

/-- One turn of the pass over `all_unreaped_pcb_vector`: `true` when the PCB is destroyed. -/
def maintain (curr : PcbPtr) : KernelM Bool := do
  let pcb ← deref curr
  let k ← Prog.get
  if pcb.status = .running then
    if !(← pcbInQueue curr pcb.priorityLevel) then
      pcbQueuePush pcb.priorityLevel curr
    return false
  else if pcb.status = .blocked ∧ pcb.sleepStamp ≠ 0 then
    if sleepOver k.globalClock pcb then
      update curr fun pcb => { pcb with status := .running }
      pcbQueuePush pcb.priorityLevel curr
    return false
  else if pcb.status = .reaped then
    let _ ← pcbQueuePopByPid pcb.priorityLevel pcb.pid
    pcbVecRemoveByPcb curr
    pcbDestroy curr
    return true
  else return false

/-- The pass from index `i`, with `count` PCBs left. -/
def maintenanceLoop : Nat → Nat → KernelM Unit
  | 0, _ => return ()
  | count + 1, i => do
      let k ← Prog.get
      match k.allUnreapedPcbVector[i]? with
      | none => Prog.fault
      | some curr =>
          if ← maintain curr then maintenanceLoop count i else maintenanceLoop count (i + 1)

/-- The maintenance pass of `scheduler_fn`. -/
def maintenancePass : KernelM Unit := do
  let k ← Prog.get
  require (k.quantum = none)
  maintenanceLoop k.allUnreapedPcbVector.length 0

/-- The search for a runnable thread: others are popped on the way. -/
def pickLoop (level : Level) : Nat → Option PcbPtr → KernelM (Option PcbPtr)
  | _, none => return none
  | 0, some _ => Prog.fault
  | fuel + 1, some curr => do
      let pcb ← deref curr
      if pcb.status = .running then return some curr
      let _ ← pcbQueuePopByPid level pcb.pid
      pickLoop level fuel pcb.nextPcbPtr

/-- The scheduler's choice from the queue of its pattern slot. The chosen thread is continued;
a PCB without a thread has none. -/
def pick (level : Level) : KernelM Unit := do
  let k ← Prog.get
  require (k.quantum = none)
  match ← pickLoop level k.linkFuel (k.priorityQueueArray level).qHeadPtr with
  | none => return ()
  | some curr =>
      let pcb ← deref curr
      require (pcb.thrd ≠ .absent)
      Prog.modify fun k =>
        { k with quantum := some (level, curr), globalClock := k.globalClock + 1 }

/-- A tick with every queue empty. -/
def idleTick : KernelM Unit := do
  let k ← Prog.get
  require (k.quantum = none ∧ ∀ level : Level, (k.priorityQueueArray level).length = 0)
  Prog.modify fun k => { k with globalClock := k.globalClock + 1 }

/-- The end of a quantum. -/
def quantumEnd : KernelM Unit := do
  let k ← Prog.get
  match k.quantum with
  | none => Prog.fault
  | some (level, curr) =>
      Prog.modify fun k => k.setQuantum none
      match ← pcbQueuePop level with
      | none => return ()
      | some _ =>
          let pcb ← deref curr
          if pcb.status = .running then
            pcbQueuePush pcb.priorityLevel curr
          else if pcb.status = .blocked ∧ pcb.sleepStamp ≠ 0 then
            if sleepOver k.globalClock pcb then
              update curr fun pcb => { pcb with status := .running }
              pcbQueuePush pcb.priorityLevel curr
          else if pcb.status = .reaped then
            pcbVecRemoveByPcb curr
            pcbDestroy curr

/-- Steps of the kernel: parts of system calls, by the PCB of the caller, and parts of
`scheduler_fn`. -/
inductive Event where
  | spawnShell (self : PcbPtr)
  | shellReturned (self : PcbPtr)
  | initResumed (self shell : PcbPtr)
  | procCreate (self : PcbPtr) (priority : Level)
  | setRoutineAndRun (self proc : PcbPtr)
  | kill (self : PcbPtr) (pid sig : Int)
  | selfStopResumed (self : PcbPtr)
  | exit (self : PcbPtr)
  | sleep (self : PcbPtr) (lengthInSecond : UInt32)
  | sleepResumed (self : PcbPtr)
  | waitpid (self : PcbPtr) (pid : Int) (nohang : Bool)
  | waitpidJoined (self child : PcbPtr)
  | waitpidReap (self child : PcbPtr)
  | nice (self : PcbPtr) (pid newPriority : Int)
  | maintenancePass
  | pick (level : Level)
  | idleTick
  | quantumEnd

/-- The program an event runs. -/
def Event.run : Event → KernelM Unit
  | .spawnShell self => PennOs.Kernel.spawnShell self
  | .shellReturned self => PennOs.Kernel.shellReturned self
  | .initResumed self shell => PennOs.Kernel.initResumed self shell
  | .procCreate self priority => do let _ ← kProcCreate self priority
  | .setRoutineAndRun self proc => PennOs.Kernel.setRoutineAndRun self proc
  | .kill self pid sig => kKill self pid sig
  | .selfStopResumed self => PennOs.Kernel.selfStopResumed self
  | .exit self => kExit self
  | .sleep self length => kSleep self length
  | .sleepResumed self => kSleepResumed self
  | .waitpid self pid nohang => do let _ ← kWaitpid self pid nohang
  | .waitpidJoined self child => kWaitpidJoined self child
  | .waitpidReap self child => do let _ ← kWaitpidReap self child
  | .nice self pid newPriority => do let _ ← kNice self pid newPriority
  | .maintenancePass => PennOs.Kernel.maintenancePass
  | .pick level => PennOs.Kernel.pick level
  | .idleTick => PennOs.Kernel.idleTick
  | .quantumEnd => PennOs.Kernel.quantumEnd

/-- The PCB of the init thread as `pennos_kernel` sets it up. -/
def initPcb : Pcb where
  thrd := .live
  pid := initPid
  ppid := 0
  priorityLevel := 0
  childPids := []
  nextPcbPtr := none
  status := .running
  exitCode := -1
  termSignal := 0
  stopSignal := 0
  contSignal := 0
  sleepStamp := 0
  sleepLength := 0

/-- `pennos_kernel` just before it enters `scheduler_fn`. -/
def KernelState.boot : KernelState where
  pcbs := Function.update (fun _ => none) 0 (some initPcb)
  priorityQueueArray level := if level = 0 then ⟨some 0, some 0, 1⟩ else .empty
  allUnreapedPcbVector := [0]
  nextPtr := 1
  globalClock := 0
  pending := []
  quantum := none
  shellSpawned := false
  kErrno := pNoerror

/-- One step of the kernel. -/
def Step (k : KernelState) (event : Event) (k' : KernelState) : Prop := event.run k = some ((), k')

/-- `k'` is reached from `k` by steps that each meet `sound` in the state they start from. -/
inductive Run (sound : KernelState → Event → Prop) : KernelState → KernelState → Prop
  | refl (k : KernelState) : Run sound k k
  | step {k k' k'' : KernelState} {event : Event} (before : Run sound k k')
      (meets : sound k' event) (step : Step k' event k'') : Run sound k k''

/-- A list of events, one after the other. -/
def runEvents : List Event → KernelM Unit
  | [] => return ()
  | event :: rest => do
      event.run
      runEvents rest

/-- The state a list of events leads to; `k` itself where they cannot all happen. -/
def KernelState.after (k : KernelState) (events : List Event) : KernelState :=
  ((runEvents events k).map Prod.snd).getD k

end PennOs.Kernel
