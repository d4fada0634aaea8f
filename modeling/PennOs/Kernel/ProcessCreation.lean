import PennOs.Kernel.Scheduler
import PennOs.Kernel.ProcessFrames

set_option autoImplicit false

/- `k_proc_create`, cut where its thread can be preempted: after the part with interrupts off, and
inside `pcb_vec_push_back`. -/
namespace PennOs.Kernel

/-- How far a `k_proc_create` has come: the PCB is made; `pcb_vec_push_back` has loaded the length
as the index of its slot, has stored the slot, has loaded the length to increment it. -/
inductive Stage where
  | made | indexed (slot : Nat) | stored | counted (length : Nat)
  deriving DecidableEq

/-- A `k_proc_create` that has not returned: its caller and the new PCB. -/
structure Creation where
  self : PcbPtr
  proc : PcbPtr
  stage : Stage

/-- `beyond` is what the array of `all_unreaped_pcb_vector` holds from its length on, where that
is known. -/
structure CreationState where
  kernel : KernelState
  beyond : Nat → Option PcbPtr
  creations : List Creation

abbrev CreationM := Prog CreationState

namespace CreationState

/-- A slot of the array. -/
def slot (s : CreationState) (index : Nat) : Option PcbPtr :=
  if index < s.kernel.allUnreapedPcbVector.length then s.kernel.allUnreapedPcbVector[index]?
  else s.beyond index

def setVector (s : CreationState) (vector : List PcbPtr) : CreationState :=
  { s with kernel := { s.kernel with allUnreapedPcbVector := vector } }

/-- `pcb_ptr_array[index] = ptr` -/
def setSlot (s : CreationState) (index : Nat) (ptr : PcbPtr) : CreationState :=
  if index < s.kernel.allUnreapedPcbVector.length then
    s.setVector (s.kernel.allUnreapedPcbVector.set index ptr)
  else { s with beyond := Function.update s.beyond index (some ptr) }

def setCreation (s : CreationState) (creation : Creation) : CreationState :=
  { s with creations := creation :: s.creations.filter (·.self ≠ creation.self) }

def dropCreation (s : CreationState) (self : PcbPtr) : CreationState :=
  { s with creations := s.creations.filter (·.self ≠ self) }

/-- The kernel has moved on. Slots a removal has moved out of are not known any more, and a
thread that has ended does not go on with its call. -/
def setKernel (s : CreationState) (k : KernelState) : CreationState where
  kernel := k
  beyond index := if index < s.kernel.allUnreapedPcbVector.length then none else s.beyond index
  creations := s.creations.filter fun creation =>
    (k.pcbs creation.self).any fun pcb => pcb.thrd = .live

end CreationState

def onKernel {α : Type} (p : KernelM α) : CreationM α := fun s =>
  (p s.kernel).map fun (result, k) => (result, s.setKernel k)

/-- The call of `k_proc_create` that `self` is in. -/
def creationOf (self : PcbPtr) : CreationM Creation := do
  let s ← Prog.get
  match s.creations.find? (·.self = self) with
  | none => Prog.fault
  | some creation => return creation

/-- The part of `k_proc_create` with interrupts off. -/
def makePcb (self : PcbPtr) (priority : Level) : KernelM PcbPtr := do
  let _ ← asCaller self
  let newpid ← getNextFreePid
  pcbInitEmpty self priority newpid

/-- `k_proc_create` up to `pcb_vec_push_back`. -/
def choosePid (self : PcbPtr) (priority : Level) : CreationM Unit := do
  let s ← Prog.get
  if ∃ creation ∈ s.creations, creation.self = self then Prog.fault
  else
    let proc ← onKernel (makePcb self priority)
    Prog.modify fun s => s.setCreation ⟨self, proc, .made⟩

/-- `pcb_vec_push_back` loads the length for its slot. The array is grown where needed. -/
def loadIndex (self : PcbPtr) : CreationM Unit := do
  let creation ← creationOf self
  match creation.stage with
  | .made => Prog.modify fun s =>
      s.setCreation { creation with stage := .indexed s.kernel.allUnreapedPcbVector.length }
  | _ => Prog.fault

def storeSlot (self : PcbPtr) : CreationM Unit := do
  let creation ← creationOf self
  match creation.stage with
  | .indexed index => Prog.modify fun s =>
      (s.setSlot index creation.proc).setCreation { creation with stage := .stored }
  | _ => Prog.fault

def loadLength (self : PcbPtr) : CreationM Unit := do
  let creation ← creationOf self
  match creation.stage with
  | .stored => Prog.modify fun s =>
      s.setCreation { creation with stage := .counted s.kernel.allUnreapedPcbVector.length }
  | _ => Prog.fault

/-- `length` becomes one more than was loaded; slots that are not known have no meaning. -/
def storeLength (self : PcbPtr) : CreationM Unit := do
  let creation ← creationOf self
  let s ← Prog.get
  match creation.stage with
  | .counted length =>
      match (List.range (length + 1)).mapM s.slot with
      | none => Prog.fault
      | some vector =>
          Prog.modify fun s => ({ s with beyond := s.slot }.setVector vector).dropCreation self
  | _ => Prog.fault

/-- Steps of the kernel in which calls of `k_proc_create` are taken apart. -/
inductive CreationEvent where
  | kernel (event : Event)
  | choosePid (self : PcbPtr) (priority : Level)
  | loadIndex (self : PcbPtr)
  | storeSlot (self : PcbPtr)
  | loadLength (self : PcbPtr)
  | storeLength (self : PcbPtr)

/-- `k_proc_create` is taken apart, and a PCB it has not returned yet gets no thread. -/
def CreationState.Allows (s : CreationState) : Event → Prop
  | .procCreate _ _ => False
  | .setRoutineAndRun _ proc => ∀ creation ∈ s.creations, creation.proc ≠ proc
  | _ => True

instance (s : CreationState) (event : Event) : Decidable (s.Allows event) := by
  cases event <;> unfold CreationState.Allows <;> infer_instance

def CreationEvent.run : CreationEvent → CreationM Unit
  | .kernel event => do
      let s ← Prog.get
      if s.Allows event then onKernel event.run else Prog.fault
  | .choosePid self priority => PennOs.Kernel.choosePid self priority
  | .loadIndex self => PennOs.Kernel.loadIndex self
  | .storeSlot self => PennOs.Kernel.storeSlot self
  | .loadLength self => PennOs.Kernel.loadLength self
  | .storeLength self => PennOs.Kernel.storeLength self

/-- `pennos_kernel` just before it enters `scheduler_fn`. -/
def CreationState.boot : CreationState := ⟨.boot, fun _ => none, []⟩

/-- `s'` is reached from `s` by steps that each meet `sound` in the state they start from. -/
inductive CreationRun (sound : CreationState → CreationEvent → Prop) :
    CreationState → CreationState → Prop
  | refl (s : CreationState) : CreationRun sound s s
  | step {s s' s'' : CreationState} {event : CreationEvent} (before : CreationRun sound s s')
      (meets : sound s' event) (step : event.run s' = some ((), s'')) : CreationRun sound s s''

end PennOs.Kernel
