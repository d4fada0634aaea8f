import PennOs.Kernel.Definitions

set_option autoImplicit false

/- `pcb_queue.c`, and the PCB vector operations the kernel uses. -/
namespace PennOs.Kernel

/-- More links than there are PCBs: the list is cyclic and the loop never ends. -/
def KernelState.linkFuel (k : KernelState) : Nat := k.nextPtr + 1

/-- The loop of `pcb_in_queue` from `curr`. -/
def inQueueLoop (self : PcbPtr) : Nat → Option PcbPtr → KernelM Bool
  | _, none => return false
  | 0, some _ => Prog.fault
  | fuel + 1, some curr => do
      if curr = self then return true
      let pcb ← deref curr
      inQueueLoop self fuel pcb.nextPcbPtr

/-- `pcb_in_queue` -/
def pcbInQueue (self : PcbPtr) (level : Level) : KernelM Bool := do
  let k ← Prog.get
  inQueueLoop self k.linkFuel (k.priorityQueueArray level).qHeadPtr

/-- `pcb_queue_push` -/
def pcbQueuePush (level : Level) (ptr : PcbPtr) : KernelM Unit := do
  if ← pcbInQueue ptr level then return ()
  let k ← Prog.get
  let queue := k.priorityQueueArray level
  if queue.length = 0 then
    Prog.modify fun k => k.setQueue level ⟨some ptr, some ptr, queue.length + 1⟩
  else
    match queue.qEndPtr with
    | none => Prog.fault
    | some last =>
        update last fun pcb => { pcb with nextPcbPtr := some ptr }
        Prog.modify fun k => k.setQueue level ⟨queue.qHeadPtr, some ptr, queue.length + 1⟩

/-- `pcb_queue_pop` -/
def pcbQueuePop (level : Level) : KernelM (Option PcbPtr) := do
  let k ← Prog.get
  let queue := k.priorityQueueArray level
  if queue.length = 0 then return none
  match queue.qHeadPtr with
  | none => Prog.fault
  | some head =>
      let pcb ← deref head
      Prog.modify fun k => k.setQueue level
        ⟨pcb.nextPcbPtr, if queue.length = 1 then none else queue.qEndPtr, queue.length - 1⟩
      update head fun pcb => { pcb with nextPcbPtr := none }
      return some head

/-- The loop of `pcb_queue_pop_by_pid`: the PCB before the one with the target PID. -/
def beforePidLoop (targetPid : Int) : Nat → PcbPtr → KernelM (Option (PcbPtr × PcbPtr))
  | 0, _ => Prog.fault
  | fuel + 1, curr => do
      let pcb ← deref curr
      match pcb.nextPcbPtr with
      | none => return none
      | some after =>
          let nextPcb ← deref after
          if nextPcb.pid = targetPid then return some (curr, after)
          beforePidLoop targetPid fuel after

/-- `pcb_queue_pop_by_pid` -/
def pcbQueuePopByPid (level : Level) (targetPid : Int) : KernelM (Option PcbPtr) := do
  let k ← Prog.get
  let queue := k.priorityQueueArray level
  if queue.length = 0 then return none
  match queue.qHeadPtr with
  | none => Prog.fault
  | some head =>
      let headPcb ← deref head
      if headPcb.pid = targetPid then pcbQueuePop level
      else
        match ← beforePidLoop targetPid k.linkFuel head with
        | none => return none
        | some (before, result) =>
            let resultPcb ← deref result
            update before fun pcb => { pcb with nextPcbPtr := resultPcb.nextPcbPtr }
            Prog.modify fun k => k.setQueue level
              ⟨queue.qHeadPtr, if queue.qEndPtr = some result then some before else queue.qEndPtr,
                queue.length - 1⟩
            update result fun pcb => { pcb with nextPcbPtr := none }
            return some result

/-- The loop of `pcb_vec_seek_pcb_by_pid`. -/
def seekByPid (pid : Int) : List PcbPtr → KernelM (Option PcbPtr)
  | [] => return none
  | ptr :: rest => do
      let pcb ← deref ptr
      if pcb.pid = pid then return some ptr
      seekByPid pid rest

/-- `pcb_vec_seek_pcb_by_pid(&all_unreaped_pcb_vector, pid)` -/
def pcbVecSeekPcbByPid (pid : Int) : KernelM (Option PcbPtr) := do
  let k ← Prog.get
  seekByPid pid k.allUnreapedPcbVector

/-- `pcb_vec_push_back(&all_unreaped_pcb_vector, ptr)` -/
def pcbVecPushBack (ptr : PcbPtr) : KernelM Unit :=
  Prog.modify fun k => { k with allUnreapedPcbVector := k.allUnreapedPcbVector ++ [ptr] }

/-- `pcb_vec_remove_by_pcb(&all_unreaped_pcb_vector, ptr)` -/
def pcbVecRemoveByPcb (ptr : PcbPtr) : KernelM Unit :=
  Prog.modify fun k => { k with allUnreapedPcbVector := k.allUnreapedPcbVector.erase ptr }

/-- `pcb_destroy` -/
def pcbDestroy (ptr : PcbPtr) : KernelM Unit :=
  Prog.modify fun k => { k with pcbs := Function.update k.pcbs ptr none }

end PennOs.Kernel
