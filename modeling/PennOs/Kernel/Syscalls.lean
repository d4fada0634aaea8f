import PennOs.Kernel.Queues

set_option autoImplicit false

/- `kernel_syscall.c`. A call that suspends its thread is one definition for each part that
runs without suspending. -/
namespace PennOs.Kernel

def pSigstop : Int := 1
def pSigcont : Int := 2
def pSigterm : Int := 3

def pNoerror : Int := 0
def pEchild : Int := 2

def initPid : Int := 1
def shellPid : Int := 2

/-- `k_get_self_pcb` finds the caller: its thread runs and its PCB is in the vector. -/
def asCaller (self : PcbPtr) : KernelM Pcb := do
  let k ← Prog.get
  let pcb ← deref self
  require (pcb.thrd = .live ∧ self ∈ k.allUnreapedPcbVector)
  return pcb

/-- The loop of `get_next_free_pid`. -/
def nextFreePidLoop (used : List Int) : Nat → Int → KernelM Int
  | 0, _ => Prog.fault
  | fuel + 1, candidate =>
      if candidate ∈ used then nextFreePidLoop used fuel (candidate + 1) else return candidate

def pidsOf : List PcbPtr → KernelM (List Int)
  | [] => return []
  | ptr :: rest => do
      let pcb ← deref ptr
      let pids ← pidsOf rest
      return pcb.pid :: pids

/-- `get_next_free_pid` -/
def getNextFreePid : KernelM Int := do
  let k ← Prog.get
  let used ← pidsOf k.allUnreapedPcbVector
  -- one candidate more than there are PCBs
  nextFreePidLoop used (used.length + 1) 3

/-- `pcb_add_child_pid`; a full table makes the callers panic. -/
def pcbAddChildPid (parent : PcbPtr) (pid : Int) : KernelM Unit := do
  let pcb ← deref parent
  require (pcb.childPids.length < numChildrenMax)
  Prog.modify fun k => k.setPcb parent { pcb with childPids := pcb.childPids ++ [pid] }

/-- The fields `pcb_init_empty` sets. -/
def emptyPcb (ppid : Int) (priority : Level) (pid : Int) : Pcb where
  thrd := .absent
  pid := pid
  ppid := ppid
  priorityLevel := priority
  childPids := []
  nextPcbPtr := none
  status := .stopped
  exitCode := -1
  termSignal := 0
  stopSignal := 0
  contSignal := 0
  sleepStamp := 0
  sleepLength := 0

/-- `pcb_init_empty` for a parent that exists. -/
def pcbInitEmpty (parent : PcbPtr) (priority : Level) (pid : Int) : KernelM PcbPtr := do
  let parentPcb ← deref parent
  let k ← Prog.get
  Prog.modify fun k => k.allocate (emptyPcb parentPcb.pid priority pid)
  pcbAddChildPid parent pid
  return k.nextPtr

/-- `k_proc_create` -/
def kProcCreate (self : PcbPtr) (priority : Level) : KernelM PcbPtr := do
  let _ ← asCaller self
  let newpid ← getNextFreePid
  let ptr ← pcbInitEmpty self priority newpid
  pcbVecPushBack ptr
  return ptr

/-- `set_routine_and_run_helper` on a PCB that has no thread yet; the host creates it. -/
def setRoutineAndRun (self proc : PcbPtr) : KernelM Unit := do
  let _ ← asCaller self
  let pcb ← deref proc
  require (pcb.thrd = .absent)
  update proc fun pcb => { pcb with thrd := .live, status := .running }
  let pcb ← deref proc
  pcbQueuePush pcb.priorityLevel proc

/-- `thrd_init_fn` up to its join on the shell thread. -/
def spawnShell (self : PcbPtr) : KernelM Unit := do
  let pcb ← asCaller self
  let k ← Prog.get
  require (pcb.pid = initPid ∧ k.shellSpawned = false)
  Prog.modify KernelState.setShellSpawned
  let shell ← pcbInitEmpty self 0 shellPid
  update shell fun pcb => { pcb with thrd := .live, status := .running }
  pcbVecPushBack shell
  pcbQueuePush 0 shell
  update self fun pcb => { pcb with status := .blocked }
  Prog.modify fun k => k.setPending (.initJoin self shell :: k.pending)

/-- The return of `thrd_shell_fn`: its thread ends without `k_exit`. -/
def shellReturned (self : PcbPtr) : KernelM Unit := do
  let pcb ← asCaller self
  require (pcb.pid = shellPid)
  update self fun pcb => { pcb with thrd := .ended }

/-- `thrd_init_fn` after the shell thread has ended. -/
def initResumed (self shell : PcbPtr) : KernelM Unit := do
  let _ ← asCaller self
  let k ← Prog.get
  let shellPcb ← deref shell
  require (.initJoin self shell ∈ k.pending ∧ shellPcb.thrd = .ended)
  Prog.modify fun k => k.setPending (k.pending.erase (.initJoin self shell))
  update self fun pcb => { pcb with status := .running }

/-- The loop of `pcb_disconnect_child`. -/
def disconnectLoop : List Int → KernelM Unit
  | [] => return ()
  | pid :: rest => do
      match ← pcbVecSeekPcbByPid pid with
      | none => disconnectLoop rest
      | some child =>
          update child fun pcb => { pcb with ppid := 1 }
          disconnectLoop rest

/-- `pcb_disconnect_child` -/
def pcbDisconnectChild (self : PcbPtr) : KernelM Unit := do
  let pcb ← deref self
  disconnectLoop pcb.childPids
  update self fun pcb => { pcb with childPids := [] }

/-- `k_kill`. A thread that stops itself is suspended before its status changes, and one that
terminates itself is cancelled there. `spthread_*` on a PCB without a thread has no meaning. -/
def kKill (self : PcbPtr) (pid : Int) (sig : Int) : KernelM Unit := do
  let _ ← asCaller self
  match ← pcbVecSeekPcbByPid pid with
  | none => return ()
  | some target =>
      let pcb ← deref target
      if sig = pSigstop then
        if pcb.status = .running then
          require (pcb.thrd ≠ .absent)
          if target = self then
            Prog.modify fun k => k.setPending (.stop self :: k.pending)
          else
            update target fun pcb => { pcb with status := .stopped, stopSignal := pSigstop }
      else if sig = pSigcont then
        if pcb.status = .stopped then
          update target fun pcb => { pcb with status := .running, contSignal := pSigcont }
      else if sig = pSigterm then
        if pcb.status ≠ .zombie then
          require (pcb.thrd ≠ .absent)
          update target fun pcb => { pcb with thrd := .ended }
          if target ≠ self then
            update target fun pcb =>
              { pcb with status := .zombie, termSignal := pSigterm, exitCode := 1 }
            pcbDisconnectChild target

/-- The rest of `k_kill(self, P_SIGSTOP)` once the scheduler continues the thread. -/
def selfStopResumed (self : PcbPtr) : KernelM Unit := do
  let _ ← asCaller self
  let k ← Prog.get
  require (.stop self ∈ k.pending)
  Prog.modify fun k => k.setPending (k.pending.erase (.stop self))
  update self fun pcb => { pcb with status := .stopped, stopSignal := pSigstop }

/-- `k_exit` -/
def kExit (self : PcbPtr) : KernelM Unit := do
  let _ ← asCaller self
  update self fun pcb => { pcb with status := .zombie, termSignal := 0, exitCode := 0 }
  pcbDisconnectChild self
  update self fun pcb => { pcb with thrd := .ended }

/-- `k_sleep` up to its suspension. -/
def kSleep (self : PcbPtr) (lengthInSecond : UInt32) : KernelM Unit := do
  let _ ← asCaller self
  let k ← Prog.get
  update self fun pcb =>
    { pcb with
      sleepStamp := k.globalClock
      sleepLength := lengthInSecond * 10
      status := .blocked }
  Prog.modify fun k => k.setPending (.sleep self :: k.pending)

/-- `k_sleep` after its suspension. -/
def kSleepResumed (self : PcbPtr) : KernelM Unit := do
  let _ ← asCaller self
  let k ← Prog.get
  require (.sleep self ∈ k.pending)
  Prog.modify fun k => k.setPending (k.pending.erase (.sleep self))
  update self fun pcb => { pcb with sleepStamp := 0, sleepLength := 0 }

/-- The search of `k_waitpid`: the first PCB that is a child with this PID. -/
def seekChild (ppid pid : Int) : List PcbPtr → KernelM (Option PcbPtr)
  | [] => return none
  | ptr :: rest => do
      let pcb ← deref ptr
      if pcb.ppid = ppid ∧ pcb.pid = pid then return some ptr
      seekChild ppid pid rest

/-- `k_waitpid` up to `spthread_join`: the result when it returns without joining. -/
def kWaitpid (self : PcbPtr) (pid : Int) (nohang : Bool) : KernelM (Option Int) := do
  require (0 < pid)
  let selfPcb ← asCaller self
  let k ← Prog.get
  match ← seekChild selfPcb.pid pid k.allUnreapedPcbVector with
  | none =>
      Prog.modify fun k => k.setErrno pEchild
      return some (-1)
  | some child =>
      let childPcb ← deref child
      if childPcb.status ≠ .zombie ∧ nohang then return some 0
      update self fun pcb => { pcb with status := .blocked }
      Prog.modify fun k => k.setPending (.join self child :: k.pending)
      return none

/-- `k_waitpid` when the joined thread has ended. -/
def kWaitpidJoined (self child : PcbPtr) : KernelM Unit := do
  let _ ← asCaller self
  let k ← Prog.get
  let childPcb ← deref child
  require (.join self child ∈ k.pending ∧ childPcb.thrd = .ended)
  Prog.modify fun k =>
    k.setPending (.reap self child :: k.pending.erase (.join self child))
  update self fun pcb => { pcb with status := .running }

/-- The rest of `k_waitpid`; a child that is no zombie makes it panic. -/
def kWaitpidReap (self child : PcbPtr) : KernelM Int := do
  let _ ← asCaller self
  let k ← Prog.get
  require (.reap self child ∈ k.pending)
  Prog.modify fun k => k.setPending (k.pending.erase (.reap self child))
  let childPcb ← deref child
  require (childPcb.status = .zombie)
  update child fun pcb => { pcb with status := .reaped }
  return childPcb.pid

/-- `k_nice` -/
def kNice (self : PcbPtr) (pid : Int) (newPriority : Int) : KernelM Int := do
  let _ ← asCaller self
  if valid : 0 ≤ newPriority ∧ newPriority < 3 then
    match ← pcbVecSeekPcbByPid pid with
    | none => return -1
    | some target =>
        update target fun pcb => { pcb with priorityLevel := ⟨newPriority.toNat, by omega⟩ }
        return 0
  else return -1

end PennOs.Kernel
