import Mathlib.Algebra.GroupWithZero.Nat
import Mathlib.Logic.Function.Basic
import PennOs.Lib.Prog

set_option autoImplicit false

/- Process control blocks, the ready queues and the other kernel-wide variables. -/
namespace PennOs.Kernel

/-- The address of a PCB. -/
abbrev PcbPtr := Nat

/-- `thrd_status_t` -/
inductive ThrdStatus where
  | running | stopped | blocked | zombie | reaped
  deriving DecidableEq, Repr

/-- The host thread behind a PCB: not created yet, created, or terminated. -/
inductive Thread where
  | absent | live | ended
  deriving DecidableEq, Repr

def numChildrenMax : Nat := 128

/-- `priority_level`, an index of `priority_queue_array`. -/
abbrev Level := Fin 3

instance Level.neZero : NeZero 3 := ⟨by decide⟩

/-- `pcb_t` -/
structure Pcb where
  thrd : Thread
  pid : Int
  ppid : Int
  priorityLevel : Level
  childPids : List Int
  nextPcbPtr : Option PcbPtr
  status : ThrdStatus
  exitCode : Int
  termSignal : Int
  stopSignal : Int
  contSignal : Int
  sleepStamp : UInt32
  sleepLength : UInt32

/-- `pcb_queue_t` -/
structure PcbQueue where
  qHeadPtr : Option PcbPtr
  qEndPtr : Option PcbPtr
  length : Nat

def PcbQueue.empty : PcbQueue := ⟨none, none, 0⟩

/-- The rest of a call whose thread is waiting: in `spthread_join`, between the join and
the reaping, in the sleep of `k_sleep`, or in its own suspension by `P_SIGSTOP`. -/
inductive Pending where
  | join (self child : PcbPtr)
  | reap (self child : PcbPtr)
  | sleep (self : PcbPtr)
  | stop (self : PcbPtr)
  | initJoin (self shell : PcbPtr)
  deriving DecidableEq

/-- `pcbs` holds the PCBs that are allocated. `quantum` is `curr_queue_ptr` and
`curr_run_pcb_ptr` between `spthread_continue` and the end of the quantum. `shellSpawned` is
how far `thrd_init_fn` has run. -/
structure KernelState where
  pcbs : PcbPtr → Option Pcb
  priorityQueueArray : Level → PcbQueue
  allUnreapedPcbVector : List PcbPtr
  nextPtr : PcbPtr
  globalClock : UInt32
  pending : List Pending
  quantum : Option (Level × PcbPtr)
  shellSpawned : Bool
  kErrno : Int

abbrev KernelM := Prog KernelState

namespace KernelState

def setPcb (k : KernelState) (ptr : PcbPtr) (pcb : Pcb) : KernelState :=
  { k with pcbs := Function.update k.pcbs ptr (some pcb) }

/-- A PCB from `calloc`, at an address not used before. -/
def allocate (k : KernelState) (pcb : Pcb) : KernelState :=
  { k with pcbs := Function.update k.pcbs k.nextPtr (some pcb), nextPtr := k.nextPtr + 1 }

def setQueue (k : KernelState) (level : Level) (queue : PcbQueue) : KernelState :=
  { k with priorityQueueArray := Function.update k.priorityQueueArray level queue }

def setPending (k : KernelState) (pending : List Pending) : KernelState :=
  { k with pending := pending }

def setQuantum (k : KernelState) (quantum : Option (Level × PcbPtr)) : KernelState :=
  { k with quantum := quantum }

def setErrno (k : KernelState) (errno : Int) : KernelState := { k with kErrno := errno }

def setShellSpawned (k : KernelState) : KernelState := { k with shellSpawned := true }

/-- `thrd_next` -/
def next (k : KernelState) (ptr : PcbPtr) : Option PcbPtr := (k.pcbs ptr).bind (·.nextPcbPtr)

end KernelState

/-- Reading through a PCB pointer. A freed PCB has no meaning. -/
def deref (ptr : PcbPtr) : KernelM Pcb := fun k => (k.pcbs ptr).map fun pcb => (pcb, k)

/-- Writing fields through a PCB pointer. -/
def update (ptr : PcbPtr) (f : Pcb → Pcb) : KernelM Unit := do
  let pcb ← deref ptr
  Prog.modify fun k => k.setPcb ptr (f pcb)

/-- The step is only taken where `condition` holds. -/
def require (condition : Prop) [Decidable condition] : KernelM Unit :=
  if condition then pure () else Prog.fault

end PennOs.Kernel
