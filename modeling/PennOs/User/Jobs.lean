import Mathlib.Data.List.FinRange
import PennOs.Kernel.ReapedChildren
import PennOs.Shell.KillCommand

set_option autoImplicit false

/- `jobs.c`, and the exit information that `k_waitpid` hands to it. -/
namespace PennOs.User

open PennOs.Kernel (KernelM KernelState Pcb PcbPtr Roster deref)
open PennOs.Shell (pSigstop pSigcont)

abbrev maxJobs : Nat := 64

/-- `job_state_t` -/
inductive JobState where
  | running | stopped | done
  deriving DecidableEq, Repr

/-- `job_t`; a slot with `jid` 0 is free. -/
structure Job where
  jid : Int
  pid : Int
  cmdline : List UInt8
  state : JobState

/-- A slot that `memset` has cleared. -/
def Job.cleared : Job := ⟨0, 0, [], .running⟩

structure JobTable where
  table : Fin maxJobs → Job
  nextJid : Int
  fgIndex : Option (Fin maxJobs)

/-- The variables of `jobs.c` when the program starts. -/
def JobTable.static : JobTable := ⟨fun _ => .cleared, 1, none⟩

/-- A value that is stored in an `int`. -/
def toInt (n : Int) : Int := n.bmod (2 ^ 32)

variable {t : JobTable} {i j : Fin maxJobs} {answers : Fin maxJobs → Int × Int} {slots : List (Fin maxJobs)}

namespace JobTable

def setSlot (t : JobTable) (i : Fin maxJobs) (job : Job) : JobTable :=
  { t with table := Function.update t.table i job }

/-- `find_empty_slot` -/
def findEmptySlot (t : JobTable) : Option (Fin maxJobs) :=
  (List.finRange maxJobs).find? fun i => decide ((t.table i).jid = 0)

/-- `index_by_pid` -/
def indexByPid (t : JobTable) (pid : Int) : Option (Fin maxJobs) :=
  (List.finRange maxJobs).find? fun i => decide ((t.table i).jid ≠ 0 ∧ (t.table i).pid = pid)

/-- `jobs_init` -/
def jobsInit (t : JobTable) : JobTable := { t with table := fun _ => .cleared }

/-- `jobs_add` -/
def jobsAdd (pid : Int) (cmdline : List UInt8) (bg : Bool) (t : JobTable) : JobTable :=
  match t.findEmptySlot with
  | none => t
  | some idx =>
      { t.setSlot idx ⟨t.nextJid, pid, cmdline.take 127, .running⟩ with
        nextJid := toInt (t.nextJid + 1)
        fgIndex := if bg then t.fgIndex else some idx }

/-- `jobs_update` -/
def jobsUpdate (pid : Int) (state : JobState) (t : JobTable) : JobTable :=
  match t.indexByPid pid with
  | none => t
  | some i => t.setSlot i { t.table i with state := state }

/-- `jobs_remove` -/
def jobsRemove (pid : Int) (t : JobTable) : JobTable :=
  match t.indexByPid pid with
  | none => t
  | some i => t.setSlot i .cleared

/-- `jobs_current_fg`: the slot it points to. -/
def jobsCurrentFg (t : JobTable) : Option (Fin maxJobs) := t.fgIndex

/-- What a status that `s_waitpid` stored says about a job. -/
def stateOf (status : Int) : JobState :=
  if status = pSigstop then .stopped else if status = pSigcont then .running else .done

/-- The turn of slot `i` in `chld_handler`; `s_waitpid` returns `answer.1` and stores `answer.2`. -/
def chldTurn (answer : Int × Int) (i : Fin maxJobs) (t : JobTable) : JobTable :=
  if (t.table i).jid = 0 then t
  else if answer.1 ≤ 0 then t
  else
    let t := t.setSlot i { t.table i with state := stateOf answer.2 }
    if t.fgIndex = some i ∧ stateOf answer.2 ≠ .running then { t with fgIndex := none } else t

/-- `chld_handler`, with what `s_waitpid` answers for each slot. -/
def chldHandler (answers : Fin maxJobs → Int × Int) (t : JobTable) : JobTable :=
  (List.finRange maxJobs).foldl (fun t i => chldTurn (answers i) i t) t

end JobTable

/-- The exit information `k_waitpid` stores; it panics at another signal than `P_SIGTERM`. -/
def exitStatus (pcb : Pcb) : Option Int :=
  if pcb.termSignal = 0 then some (toInt (pcb.exitCode * 2 ^ 8))
  else if pcb.termSignal = Kernel.pSigterm then some pcb.termSignal
  else none

/-- The rest of `k_waitpid` after its join, with the status it stores. -/
def kWaitpidStatus (self child : PcbPtr) : KernelM (Int × Int) := do
  let childPcb ← deref child
  let pid ← Kernel.kWaitpidReap self child
  match exitStatus childPcb with
  | none => Prog.fault
  | some status => return (pid, status)

section Handler

/-- A turn looks at one slot and changes that one only. -/
theorem chldTurn_table (answer : Int × Int) (i j : Fin maxJobs) (t : JobTable) :
    (t.chldTurn answer i).table j = if j = i ∧ (t.table i).jid ≠ 0 ∧ 0 < answer.1 then
      { t.table j with state := JobTable.stateOf answer.2 } else t.table j := by
  rw [JobTable.chldTurn]
  by_cases free : (t.table i).jid = 0
  · simp [free]
  by_cases nothing : answer.1 ≤ 0
  · simp [free, nothing, Int.not_lt.mpr nothing]
  have here : (t.setSlot i { t.table i with state := JobTable.stateOf answer.2 }).table j =
      if j = i then { t.table j with state := JobTable.stateOf answer.2 } else t.table j := by
    by_cases same : j = i
    · simp [JobTable.setSlot, same]
    · simp [JobTable.setSlot, same]
  rw [if_neg free, if_neg nothing]
  dsimp only
  split
  · rw [show ({ t.setSlot i { t.table i with state := JobTable.stateOf answer.2 } with
        fgIndex := none } : JobTable).table j = _ from here]
    simp [free, Int.not_le.mp nothing]
  · rw [here]
    simp [free, Int.not_le.mp nothing]

/-- Several turns: by induction on the slots, which are looked at once each. -/
theorem foldl_chldTurn_table (distinct : slots.Nodup) (j : Fin maxJobs) :
    (slots.foldl (fun t i => t.chldTurn (answers i) i) t).table j =
      if j ∈ slots ∧ (t.table j).jid ≠ 0 ∧ 0 < (answers j).1 then
        { t.table j with state := JobTable.stateOf (answers j).2 } else t.table j := by
  induction slots generalizing t with
  | nil => simp
  | cons i rest ih =>
      obtain ⟨fresh, distinct'⟩ := List.nodup_cons.mp distinct
      rw [List.foldl_cons, ih distinct', chldTurn_table]
      by_cases here : j = i
      · subst here
        simp [fresh]
      · simp [here]

theorem chldHandler_table (j : Fin maxJobs) : (t.chldHandler answers).table j =
    if (t.table j).jid ≠ 0 ∧ 0 < (answers j).1 then
      { t.table j with state := JobTable.stateOf (answers j).2 } else t.table j := by
  rw [JobTable.chldHandler, foldl_chldTurn_table (List.nodup_finRange maxJobs)]
  simp [List.mem_finRange]

end Handler

section Reaping

variable {k k' : KernelState} {self child : PcbPtr} {pcb : Pcb} {status pid : Int}

theorem kWaitpidStatus_inv (found : k.pcbs child = some pcb)
    (run : kWaitpidStatus self child k = some ((pid, status), k')) :
    pid = pcb.pid ∧ exitStatus pcb = some status := by
  obtain ⟨childPcb, k₁, read, run⟩ := Prog.bind_inv run
  obtain ⟨found', rfl⟩ := Kernel.deref_inv read
  obtain rfl := Option.some.inj (found.symm.trans found')
  obtain ⟨reapedPid, k₂, reaped, run⟩ := Prog.bind_inv run
  cases info : exitStatus pcb with
  | none => simp [info] at run
  | some stored =>
      simp only [info, Prog.pure_run, Option.some.injEq, Prod.mk.injEq] at run
      obtain ⟨⟨rfl, rfl⟩, _⟩ := run
      refine ⟨?_, rfl⟩
      obtain ⟨_, k₃, called, reaped⟩ := Prog.bind_inv reaped
      obtain ⟨_, _, _, rfl⟩ := Kernel.asCaller_inv called
      rw [Prog.get_bind] at reaped
      obtain ⟨_, k₄, checked, reaped⟩ := Prog.bind_inv reaped
      obtain ⟨_, rfl⟩ := Kernel.require_inv checked
      rw [Prog.modify_bind] at reaped
      obtain ⟨childPcb, k₅, read', reaped⟩ := Prog.bind_inv reaped
      obtain ⟨found₂, rfl⟩ := Kernel.deref_inv read'
      obtain rfl := Option.some.inj (found.symm.trans found₂)
      obtain ⟨_, k₆, _, reaped⟩ := Prog.bind_inv reaped
      obtain ⟨_, k₇, _, reaped⟩ := Prog.bind_inv reaped
      simp only [Prog.pure_run, Option.some.injEq, Prod.mk.injEq] at reaped
      exact reaped.1.symm

/-- No status says that a process was continued. -/
theorem exitStatus_ne_sigcont (stored : exitStatus pcb = some status) : status ≠ pSigcont := by
  rw [exitStatus] at stored
  split at stored
  · rw [← Option.some.inj stored, toInt, Int.bmod_def, pSigcont]
    omega
  · split at stored
    · next signalled =>
        rw [← Option.some.inj stored, signalled]
        decide
    · cases stored

theorem stateOf_ne_running (stored : exitStatus pcb = some status) : JobTable.stateOf status ≠ .running := by
  rw [JobTable.stateOf]
  split
  · simp
  · rw [if_neg (exitStatus_ne_sigcont stored)]
    simp

/-- The lowest byte of a status is empty, or it is the signal. -/
theorem stateOf_done_iff (stored : exitStatus pcb = some status) :
    JobTable.stateOf status = .done ↔
      pcb.termSignal = Kernel.pSigterm ∨ ¬ (2 ^ 24 : Int) ∣ pcb.exitCode := by
  rw [exitStatus] at stored
  split at stored
  · next exited =>
      obtain rfl := Option.some.inj stored
      have unsignalled : pcb.termSignal ≠ Kernel.pSigterm := by
        rw [exited]
        decide
      have zero : toInt (pcb.exitCode * 2 ^ 8) = 0 ↔ (2 ^ 24 : Int) ∣ pcb.exitCode := by
        rw [toInt, Int.bmod_def]
        omega
      have notCont := @exitStatus_ne_sigcont pcb _ (by rw [exitStatus, if_pos exited])
      rw [JobTable.stateOf, pSigstop, if_neg notCont]
      by_cases divides : (2 ^ 24 : Int) ∣ pcb.exitCode
      · rw [if_pos (zero.mpr divides)]
        simp only [reduceCtorEq, unsignalled, divides, not_true_eq_false, or_self]
      · rw [if_neg (mt zero.mp divides)]
        simp only [divides, not_false_eq_true, or_true]
  · split at stored
    · next signalled =>
        obtain rfl := Option.some.inj stored
        rw [signalled]
        simp [JobTable.stateOf, Kernel.pSigterm, pSigstop, pSigcont]
    · cases stored

/-- A job that `chld_handler` reaps is recorded as done exactly when its process was terminated by
`P_SIGTERM` or left an exit code that survives the shift. -/
theorem reaped_done_iff (roster : Roster k) (found : k.pcbs child = some pcb)
    (returned : kWaitpidStatus self child k = some (answers i, k')) (live : (t.table i).jid ≠ 0) :
    (((t.chldHandler answers).table i).state = .done ∧
      ∀ j, j ≠ i → ((t.chldHandler answers).table j).state =
        ((t.chldHandler (Function.update answers i (0, 0))).table j).state) ↔
      (pcb.termSignal = Kernel.pSigterm ∨ ¬ (2 ^ 24 : Int) ∣ pcb.exitCode) := by
  obtain ⟨isPid, stored⟩ := kWaitpidStatus_inv found returned
  have positive : 0 < (answers i).1 := isPid ▸ roster.positive child pcb found
  have others : ∀ j, j ≠ i → ((t.chldHandler answers).table j).state =
      ((t.chldHandler (Function.update answers i (0, 0))).table j).state := by
    intro j apart
    rw [chldHandler_table, chldHandler_table, Function.update_of_ne apart]
  rw [and_iff_left others, chldHandler_table, if_pos ⟨live, positive⟩]
  exact stateOf_done_iff stored

/-- One job in the first slot. -/
def oneJob : JobTable := JobTable.static.jobsInit.jobsAdd 3 [] true

theorem oneJob_first : oneJob.table 0 = ⟨1, 3, [], .running⟩ := rfl

/-- The shell's child has called `k_exit`, and the shell's wait for it comes to its end. -/
theorem childJoined_returns :
    ∃ k' pcb, kWaitpidStatus 1 2 Kernel.childJoined = some ((3, 0), k') ∧
      Kernel.childJoined.pcbs 2 = some pcb ∧ pcb.termSignal = 0 ∧ pcb.exitCode = 0 := by
  have returned : kWaitpidStatus 1 2 Kernel.childJoined = some ((3, 0), _) :=
    Prog.run_after (by decide +kernel)
  obtain ⟨pcb, found, exited⟩ : ∃ pcb, Kernel.childJoined.pcbs 2 = some pcb ∧
      (pcb.termSignal, pcb.exitCode) = (0, 0) := Option.map_eq_some_iff.mp (by decide +kernel)
  exact ⟨_, pcb, returned, found, congrArg Prod.fst exited, congrArg Prod.snd exited⟩

theorem childJoined_run : Kernel.Run (fun _ _ => True) .boot Kernel.childJoined :=
  .after_sound _ (by decide +kernel)

theorem reaped_done_iff_oneJob :
    ¬ (((oneJob.chldHandler fun _ => (3, 0)).table 0).state = .done ∧
      ∀ j, j ≠ 0 → ((oneJob.chldHandler fun _ => (3, 0)).table j).state =
        ((oneJob.chldHandler (Function.update (fun _ => (3, 0)) 0 (0, 0))).table j).state) := by
  obtain ⟨k', pcb, returned, found, exited, code⟩ := childJoined_returns
  have roster := Kernel.run_roster childJoined_run Kernel.boot_roster
  rw [reaped_done_iff roster found returned (by rw [oneJob_first]; decide), exited, code]
  decide

/-- A job whose process has exited with code 0 is recorded as stopped. -/
theorem exited_job_stopped :
    ¬ ∀ (k k' : KernelState) (self child : PcbPtr) (pcb : Pcb) (t : JobTable) (i : Fin maxJobs)
        (answers : Fin maxJobs → Int × Int), Kernel.Run (fun _ _ => True) .boot k →
      k.pcbs child = some pcb → kWaitpidStatus self child k = some (answers i, k') →
      (answers i).1 = (t.table i).pid → (t.table i).jid ≠ 0 →
      ((t.chldHandler answers).table i).state = .done := by
  intro always
  obtain ⟨k', pcb, returned, found, _⟩ := childJoined_returns
  have done := always _ k' 1 2 pcb oneJob 0 (fun _ => (3, 0)) childJoined_run found returned
    (by rw [oneJob_first]) (by rw [oneJob_first]; decide)
  rw [chldHandler_table, oneJob_first] at done
  cases done

end Reaping

end PennOs.User
