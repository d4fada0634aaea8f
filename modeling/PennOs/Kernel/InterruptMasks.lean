import PennOs.Kernel.QueueFifo

set_option autoImplicit false

/- The mask of the suspend signal around `pcb_queue_push`. -/
namespace PennOs.Kernel

variable {α : Type} {level : Level} {ptr : PcbPtr} {list : List PcbPtr}

/-- A push on a sound queue comes to its end, whatever PCB it is given. -/
theorem Represents.push_runs {k : KernelState} (rep : Represents k level list) (ptr : PcbPtr) :
    ∃ k', pcbQueuePush level ptr k = some ((), k') := by
  rw [pcbQueuePush, Prog.bind_of_run (rep.contains ptr)]
  by_cases member : ptr ∈ list
  · exact ⟨k, by simp [member]⟩
  simp only [member, decide_false, Bool.false_eq_true, ↓reduceIte, Prog.get_bind, rep.length]
  rcases List.eq_nil_or_concat' list with rfl | ⟨front, last, rfl⟩
  · exact ⟨_, rfl⟩
  · obtain ⟨pcb, found⟩ := rep.found (List.mem_append_right front (List.mem_singleton_self last))
    have isEnd : (k.priorityQueueArray level).qEndPtr = some last := by
      rw [rep.last, List.getLast?_concat]
    have filled : ¬ (front ++ [last]).length = 0 := by simp
    simp only [filled, ↓reduceIte, isEnd]
    rw [Prog.bind_of_run (update_run found)]
    exact ⟨_, rfl⟩

/-- The kernel, and whether the calling thread blocks `SIGPTHD`. -/
structure MaskedState where
  kernel : KernelState
  masked : Bool

namespace MaskedState

variable {s : MaskedState}

/-- A part of a call that leaves the mask alone. -/
def keepingMask (prog : KernelM α) : Prog MaskedState α := fun s =>
  (prog s.kernel).map fun (a, k) => (a, ⟨k, s.masked⟩)

/-- `spthread_disable_interrupts_self` -/
def disableInterruptsSelf : Prog MaskedState Unit := Prog.modify fun s => { s with masked := true }

/-- `spthread_enable_interrupts_self` -/
def enableInterruptsSelf : Prog MaskedState Unit := Prog.modify fun s => { s with masked := false }

/-- `pcb_queue_push` with its critical section. -/
def pcbQueuePush (level : Level) (ptr : PcbPtr) : Prog MaskedState Unit := do
  disableInterruptsSelf
  -- the early return is still inside the section
  if ← keepingMask (pcbInQueue ptr level) then return ()
  let s ← Prog.get
  let queue := s.kernel.priorityQueueArray level
  if queue.length = 0 then
    keepingMask <| Prog.modify fun k => k.setQueue level ⟨some ptr, some ptr, queue.length + 1⟩
    enableInterruptsSelf
  else
    match queue.qEndPtr with
    | none => Prog.fault
    | some last =>
        keepingMask <| update last fun pcb => { pcb with nextPcbPtr := some ptr }
        keepingMask <| Prog.modify fun k =>
          k.setQueue level ⟨queue.qHeadPtr, some ptr, queue.length + 1⟩
        enableInterruptsSelf

theorem keepingMask_run {prog : KernelM α} {a : α} {k : KernelState}
    (run : prog s.kernel = some (a, k)) : keepingMask prog s = some (a, ⟨k, s.masked⟩) := by
  rw [keepingMask, run]
  rfl

/-- Without the mask this is `pcb_queue_push`; the mask it leaves says whether it returned early. -/
theorem pcbQueuePush_run {k k' : KernelState} {present masked : Bool}
    (searched : pcbInQueue ptr level k = some (present, k))
    (run : Kernel.pcbQueuePush level ptr k = some ((), k')) :
    pcbQueuePush level ptr ⟨k, masked⟩ = some ((), ⟨k', present⟩) := by
  have inside : keepingMask (pcbInQueue ptr level) ⟨k, true⟩ = some (present, ⟨k, true⟩) :=
    keepingMask_run searched
  rw [Kernel.pcbQueuePush, Prog.bind_of_run searched] at run
  rw [pcbQueuePush, disableInterruptsSelf, Prog.modify_bind, Prog.bind_of_run inside]
  cases present with
  | true =>
      simp only [↓reduceIte, Prog.pure_run, Option.some.injEq, Prod.mk.injEq, true_and] at run ⊢
      rw [run]
  | false =>
      simp only [Bool.false_eq_true, ↓reduceIte, Prog.get_bind] at run ⊢
      by_cases empty : (k.priorityQueueArray level).length = 0
      · simp only [empty, ↓reduceIte, Prog.modify_run, Option.some.injEq, Prod.mk.injEq,
          true_and] at run ⊢
        rw [← run]
        rfl
      · simp only [empty, ↓reduceIte] at run ⊢
        cases tail : (k.priorityQueueArray level).qEndPtr with
        | none => simp [tail] at run
        | some last =>
            simp only [tail] at run ⊢
            obtain ⟨_, k1, linked, run⟩ := Prog.bind_inv run
            have linked' := @keepingMask_run _ ⟨k, true⟩ _ _ _ linked
            simp only [Prog.modify_run, Option.some.injEq, Prod.mk.injEq, true_and] at run
            rw [Prog.bind_of_run linked', ← run]
            rfl

/-- The mask is as before exactly when the PCB is already in the queue of a masked caller, or not in
the queue of an unmasked one. -/
theorem pcbQueuePush_mask_iff (rep : Represents s.kernel level list) (ptr : PcbPtr) :
    ∃ s', pcbQueuePush level ptr s = some ((), s') ∧
      (s'.masked = s.masked ↔ (ptr ∈ list ↔ s.masked = true)) := by
  obtain ⟨k', run⟩ := rep.push_runs ptr
  refine ⟨_, pcbQueuePush_run (rep.contains ptr) run, ?_⟩
  cases s.masked <;> simp

theorem pcbQueuePush_mask_iff_boot :
    ∃ s', pcbQueuePush 0 0 ⟨.boot, true⟩ = some ((), s') ∧
      (s'.masked = true ↔ (0 ∈ [0] ↔ true = true)) := pcbQueuePush_mask_iff boot_represents 0

/-- Every push by a caller with this mask leaves the mask as it was. -/
def PushKeepsMask (masked : Bool) : Prop :=
  ∀ (s s' : MaskedState) (level : Level) (list : List PcbPtr) (ptr : PcbPtr),
    s.masked = masked → Represents s.kernel level list →
    pcbQueuePush level ptr s = some ((), s') → s'.masked = s.masked

/-- A caller in a critical section is put out of it by the push of a new PCB, and a caller outside
of one is left in one by the push of a PCB that is there. -/
theorem pcbQueuePush_unbalanced : ¬ PushKeepsMask true ∧ ¬ PushKeepsMask false := by
  constructor
  · intro balanced
    have empty : Represents .boot 1 [] := ⟨rfl, nofun, rfl, rfl⟩
    obtain ⟨k', run⟩ := empty.push_runs 0
    have left := balanced ⟨.boot, true⟩ _ 1 [] 0 rfl empty (pcbQueuePush_run (empty.contains 0) run)
    simp at left
  · intro balanced
    obtain ⟨k', run⟩ := boot_represents.push_runs 0
    have kept := balanced ⟨.boot, false⟩ _ 0 [0] 0 rfl boot_represents
      (pcbQueuePush_run (boot_represents.contains 0) run)
    simp at kept

end MaskedState

end PennOs.Kernel
