import PennOs.Kernel.Roster

set_option autoImplicit false

/- Processes that were stopped. -/
namespace PennOs.Kernel

variable {k k₁ k₂ k₃ k' : KernelState} {event : Event} {pid : Int} {ptr : PcbPtr} {level slot : Level}

/-- With `event`, a `k_kill(pid, P_SIGSTOP)` returns 0 for the PCB of a process that is not over:
at once for another thread, and for the calling thread when it runs again. -/
inductive StopReturns (k : KernelState) : Event → Int → PcbPtr → Prop
  | other {self target : PcbPtr} {pid : Int} {pcb : Pcb} (apart : target ≠ self)
      (resolves : pcbVecSeekPcbByPid pid k = some (some target, k))
      (found : k.pcbs target = some pcb) (alive : ¬ pcb.over) :
      StopReturns k (.kill self pid pSigstop) pid target
  | own {self : PcbPtr} {pcb : Pcb} (found : k.pcbs self = some pcb) :
      StopReturns k (.selfStopResumed self) pcb.pid self

/-- The PCB a `P_SIGSTOP` goes to. -/
def stopTarget (k : KernelState) : Event → Option Pcb
  | .kill _ pid sig => if sig = pSigstop then k.resolved pid else none
  | _ => none

/-- The PCB of the thread that makes the call. -/
def callerPcb (k : KernelState) (event : Event) : Option Pcb := event.caller.bind k.pcbs

/-- No `P_SIGSTOP` goes to a PCB that is blocked or has no thread yet, and no thread goes on
making calls while its PCB is stopped. -/
def StopsHold (k : KernelState) (event : Event) : Prop :=
  (∀ pcb ∈ stopTarget k event, pcb.status ≠ .blocked ∧ pcb.thrd ≠ .absent) ∧
    ∀ pcb ∈ callerPcb k event, pcb.status ≠ .stopped

instance (k : KernelState) (event : Event) : Decidable (StopsHold k event) :=
  inferInstanceAs (Decidable (_ ∧ _))

theorem mem_stopTarget {self target : PcbPtr} {pcb : Pcb}
    (resolves : pcbVecSeekPcbByPid pid k = some (some target, k))
    (found : k.pcbs target = some pcb) : pcb ∈ stopTarget k (.kill self pid pSigstop) := by
  simp only [stopTarget, ↓reduceIte, resolved_of_seek resolves found, Option.mem_def]

theorem mem_callerPcb {self : PcbPtr} {pcb : Pcb} (calls : event.caller = some self)
    (found : k.pcbs self = some pcb) : pcb ∈ callerPcb k event := by
  simp only [callerPcb, calls, Option.bind_some, found, Option.mem_def]

/-- The event is a `k_kill(pid, P_SIGCONT)`. -/
def Event.IsCont (pid : Int) : Event → Prop
  | .kill _ target sig => target = pid ∧ sig = pSigcont
  | _ => False

instance (pid : Int) (event : Event) : Decidable (event.IsCont pid) :=
  match event with
  | .kill _ target sig => inferInstanceAs (Decidable (target = pid ∧ sig = pSigcont))
  | .spawnShell _ | .shellReturned _ | .initResumed _ _ | .procCreate _ _ |
    .setRoutineAndRun _ _ | .selfStopResumed _ | .exit _ | .sleep _ _ | .sleepResumed _ |
    .waitpid _ _ _ | .waitpidJoined _ _ | .waitpidReap _ _ | .nice _ _ _ | .maintenancePass |
    .pick _ | .idleTick | .quantumEnd => isFalse id

/-- The process is stopped, or over. -/
structure Halted (pid : Int) (ptr : PcbPtr) (k : KernelState) : Prop where
  old : ptr < k.nextPtr
  pcb : ∀ pcb, k.pcbs ptr = some pcb → pcb.pid = pid ∧ pcb.thrd ≠ .absent ∧
    (pcb.status = .stopped ∨ pcb.over ∧ pcb.thrd = .ended)

theorem Halted.step (halted : Halted pid ptr k) (holds : StopsHold k event)
    (noCont : ¬ event.IsCont pid) (step : Step k event k') :
    Halted pid ptr k' := by
  have touches := event_touches step
  refine ⟨Nat.lt_of_lt_of_le halted.old touches.nextPtr, fun pcb' found' => ?_⟩
  obtain ⟨pcb, found, samePid, run⟩ := touches.pcb ptr pcb' halted.old found'
  obtain ⟨isPid, present, idle⟩ := halted.pcb pcb found
  refine ⟨samePid.trans isPid, ?_⟩
  rcases run with ⟨status, thrd⟩ | touch
  · refine ⟨thrd ▸ present, ?_⟩
    unfold Pcb.over at idle ⊢
    rw [status, thrd]
    exact idle
  cases touch with
  | own calls live thread =>
      rcases idle with stopped | ⟨_, ended⟩
      · exact absurd stopped (holds.2 pcb (mem_callerPcb calls found))
      · rw [live] at ended
        cases ended
  | started self isStart absent => exact absurd absent present
  | stopped self isStop listed status thrd => exact ⟨thrd ▸ present, .inl status⟩
  | continued self isCont listed before status thrd =>
      rw [isCont] at noCont
      exact absurd ⟨isPid, rfl⟩ noCont
  | terminated self isTerm listed before thread status ended =>
      exact ⟨ended ▸ nofun, .inr ⟨.inl status, ended⟩⟩
  | woken scheduler before status thrd =>
      rcases idle with stopped | ⟨zombie | reaped, _⟩
      · rw [before] at stopped
        cases stopped
      · rw [before] at zombie
        cases zombie
      · rw [before] at reaped
        cases reaped
  | reaped self isReap before status thrd =>
      refine ⟨thrd ▸ present, ?_⟩
      rcases idle with stopped | ⟨_, ended⟩
      · rw [before] at stopped
        cases stopped
      · exact .inr ⟨.inr status, thrd.trans ended⟩

theorem Halted.run (halted : Halted pid ptr k)
    (later : Run (fun k event => StopsHold k event ∧ ¬ event.IsCont pid) k k') :
    Halted pid ptr k' := by
  induction later with
  | refl => exact halted
  | step _ meets step ih => exact ih.step meets.1 meets.2 step

/-- Another thread's `P_SIGSTOP` sets the status of a running process. -/
theorem kKill_stops {self target : PcbPtr} {pcb : Pcb} (apart : target ≠ self)
    (resolves : pcbVecSeekPcbByPid pid k = some (some target, k)) (found : k.pcbs target = some pcb)
    (running : pcb.status = .running) (run : kKill self pid pSigstop k = some ((), k')) :
    k' = k.setPcb target { pcb with status := .stopped, stopSignal := pSigstop } := by
  obtain ⟨_, k₁, called, run⟩ := Prog.bind_inv run
  obtain ⟨_, _, _, rfl⟩ := asCaller_inv called
  rw [Prog.bind_of_run resolves] at run
  obtain ⟨pcb₁, k₂, read, run⟩ := Prog.bind_inv run
  obtain ⟨found₁, rfl⟩ := deref_inv read
  obtain rfl := Option.some.inj (found.symm.trans found₁)
  rw [if_pos rfl, if_pos running] at run
  obtain ⟨_, k₃, checked, run⟩ := Prog.bind_inv run
  obtain ⟨_, rfl⟩ := require_inv checked
  rw [if_neg apart] at run
  obtain ⟨pcb₂, found₂, rfl⟩ := update_inv run
  rw [Option.some.inj (found.symm.trans found₂)]

theorem selfStopResumed_stops {self : PcbPtr} {pcb : Pcb} (found : k.pcbs self = some pcb)
    (run : selfStopResumed self k = some ((), k')) : pcb.thrd = .live ∧
      k'.pcbs self = some { pcb with status := .stopped, stopSignal := pSigstop } ∧
      k'.nextPtr = k.nextPtr := by
  obtain ⟨pcb₁, k₁, called, run⟩ := Prog.bind_inv run
  obtain ⟨found₁, live, _, rfl⟩ := asCaller_inv called
  obtain rfl := Option.some.inj (found.symm.trans found₁)
  simp only [Prog.get_bind] at run
  obtain ⟨_, k₂, checked, run⟩ := Prog.bind_inv run
  obtain ⟨_, rfl⟩ := require_inv checked
  rw [Prog.modify_bind] at run
  obtain ⟨pcb₂, found₂, rfl⟩ := update_inv run
  obtain rfl := Option.some.inj (found.symm.trans found₂)
  exact ⟨live, by rw [setPcb_pcbs, if_pos rfl], rfl⟩

/-- When the call returns, the process is halted. -/
theorem StopReturns.halted (returned : StopReturns k event pid ptr) (holds : StopsHold k event)
    (roster : Roster k) (step : Step k event k') : Halted pid ptr k' := by
  cases returned with
  | @other self _ _ pcb apart resolves found alive =>
      obtain ⟨awake, present⟩ := holds.1 pcb (mem_stopTarget resolves found)
      obtain ⟨_, _, found₁, isPid⟩ := (pcbVecSeekPcbByPid_inv resolves).2 ptr rfl
      obtain rfl := Option.some.inj (found.symm.trans found₁)
      have old := roster.bounded ptr pcb found
      cases status : pcb.status with
      | running =>
          rw [kKill_stops apart resolves found status step]
          refine ⟨old, fun pcb' found' => ?_⟩
          rw [setPcb_pcbs, if_pos rfl, Option.some.injEq] at found'
          exact found' ▸ ⟨isPid, present, .inl rfl⟩
      | stopped =>
          -- already stopped: the call changes nothing in it
          have before : Halted pid ptr k := by
            refine ⟨old, fun pcb' found' => ?_⟩
            rw [← Option.some.inj (found.symm.trans found')]
            exact ⟨isPid, present, .inl status⟩
          exact before.step holds (fun isCont => absurd isCont.2 (by decide)) step
      | blocked => exact absurd status awake
      | zombie => exact absurd (.inl status) alive
      | reaped => exact absurd (.inr status) alive
  | @own _ pcb found =>
      obtain ⟨live, found', nextPtr⟩ := selfStopResumed_stops found step
      refine ⟨nextPtr ▸ roster.bounded ptr pcb found, fun pcb' found'' => ?_⟩
      rw [found', Option.some.injEq] at found''
      rw [← found'']
      exact ⟨rfl, live ▸ nofun, .inl rfl⟩

theorem pickLoop_running {fuel : Nat} {curr : Option PcbPtr}
    (run : pickLoop level fuel curr k = some (some ptr, k')) :
    ∃ pcb, k'.pcbs ptr = some pcb ∧ pcb.status = .running := by
  induction fuel generalizing curr k with
  | zero => cases curr <;> simp [pickLoop] at run
  | succ fuel ih =>
      cases curr with
      | none => simp [pickLoop] at run
      | some curr =>
          obtain ⟨pcb, k₁, read, run⟩ := Prog.bind_inv run
          obtain ⟨found, rfl⟩ := deref_inv read
          split at run
          · next running =>
              simp only [Prog.pure_run, Option.some.injEq, Prod.mk.injEq] at run
              obtain ⟨rfl, rfl⟩ := run
              exact ⟨pcb, found, running⟩
          · obtain ⟨_, k₂, _, run⟩ := Prog.bind_inv run
            exact ih run

/-- The scheduler continues running PCBs only. -/
theorem pick_running (run : pick level k = some ((), k')) (continued : k'.quantum = some (slot, ptr)) :
    ∃ pcb, k.pcbs ptr = some pcb ∧ pcb.status = .running := by
  simp only [pick, Prog.get_bind] at run
  obtain ⟨_, k₁, checked, run⟩ := Prog.bind_inv run
  obtain ⟨idle, rfl⟩ := require_inv checked
  obtain ⟨found, k₂, picked, run⟩ := Prog.bind_inv run
  have frame := pickLoop_frame picked
  cases found with
  | none =>
      simp only [Prog.pure_run, Option.some.injEq, Prod.mk.injEq, true_and] at run
      rw [← run, frame.quantum, idle] at continued
      cases continued
  | some curr =>
      obtain ⟨pcb, chosen, running⟩ := pickLoop_running picked
      obtain ⟨_, k₃, read, run⟩ := Prog.bind_inv run
      obtain ⟨_, rfl⟩ := deref_inv read
      obtain ⟨_, k₄, started, run⟩ := Prog.bind_inv run
      obtain ⟨_, rfl⟩ := require_inv started
      simp only [Prog.modify_run, Option.some.injEq, Prod.mk.injEq, true_and] at run
      subst run
      obtain ⟨_, rfl⟩ := Prod.mk.inj (Option.some.inj continued)
      obtain ⟨before, found, core⟩ := frame.pcb chosen
      exact ⟨before, found, (Pcb.core_status core).symm.trans running⟩

/-- In runs that meet the condition, a process for which `k_kill(pid, P_SIGSTOP)` returned 0 is
not continued before a `k_kill(pid, P_SIGCONT)`. -/
theorem stopped_not_continued (reached : Run StopsHold .boot k)
    (returned : StopReturns k event pid ptr) (holds : StopsHold k event) (step : Step k event k₁)
    (later : Run (fun k event => StopsHold k event ∧ ¬ event.IsCont pid) k₁ k₂)
    (picked : Step k₂ (.pick level) k₃) : k₃.quantum ≠ some (slot, ptr) := by
  intro continued
  have halted := (returned.halted holds (run_roster reached boot_roster) step).run later
  obtain ⟨pcb, found, running⟩ := pick_running picked continued
  obtain ⟨_, _, stopped | ⟨zombie | reaped, _⟩⟩ := halted.pcb pcb found
  · rw [running] at stopped
    cases stopped
  · rw [running] at zombie
    cases zombie
  · rw [running] at reaped
    cases reaped

/-- The shell has started a process and has the processor. -/
def shellRuns : KernelState := KernelState.boot.after (startProcess ++ [.pick 0])

/-- The shell has stopped the process. -/
def processStopped : KernelState := shellRuns.after [.kill 1 3 pSigstop]

theorem stopped_not_continued_processStopped :
    ((processStopped.after [.quantumEnd, .maintenancePass]).after [.pick 1]).quantum ≠
      some (1, 2) := by
  have reached : Run StopsHold .boot shellRuns := .after_sound _ (by decide +kernel)
  have step : Step shellRuns (.kill 1 3 pSigstop) processStopped := step_after (by decide +kernel)
  obtain ⟨⟨found, last⟩, search, rfl⟩ : ∃ result, pcbVecSeekPcbByPid 3 shellRuns = some result ∧
      result.1 = some 2 := Option.map_eq_some_iff.mp (by decide +kernel)
  obtain rfl := (pcbVecSeekPcbByPid_inv search).1
  obtain ⟨pcb, found, running⟩ : ∃ pcb, shellRuns.pcbs 2 = some pcb ∧ pcb.status = .running :=
    Option.map_eq_some_iff.mp (by decide +kernel)
  have returned : StopReturns shellRuns (.kill 1 3 pSigstop) 3 2 :=
    .other (by decide) search found (by simp [Pcb.over, running])
  have later : Run (fun k event => StopsHold k event ∧ ¬ event.IsCont 3)
      processStopped (processStopped.after [.quantumEnd, .maintenancePass]) :=
    .after_sound _ (by decide +kernel)
  exact stopped_not_continued reached returned (by decide +kernel) step later
    (step_after (by decide +kernel))

/-- The process sleeps for a second, and the shell has the processor. -/
def processSleeps : KernelState := KernelState.boot.after
  (startProcess ++ [.pick 1, .sleep 2 1, .quantumEnd, .maintenancePass, .pick 0])

/-- The shell stops the sleeping process; ten ticks pass. -/
def sleeperStopped : KernelState := processSleeps.after [.kill 1 3 pSigstop]

def tenTicks : List Event :=
  (List.replicate 10 [.quantumEnd, .maintenancePass, .pick 0]).flatten ++
    [.quantumEnd, .maintenancePass]

/-- `P_SIGSTOP` leaves a sleeping process as it is: it wakes up and is continued. -/
theorem stopped_sleeper_continues :
    ¬ ∀ (k k₁ k₂ k₃ : KernelState) (event : Event) (pid : Int) (ptr : PcbPtr) (level slot : Level),
      Run (fun _ _ => True) .boot k → StopReturns k event pid ptr → Step k event k₁ →
      Run (fun _ event => ¬ event.IsCont pid) k₁ k₂ → Step k₂ (.pick level) k₃ →
      k₃.quantum ≠ some (slot, ptr) := by
  intro never
  have reached : Run (fun _ _ => True) .boot processSleeps := .after_sound _ (by decide +kernel)
  have step : Step processSleeps (.kill 1 3 pSigstop) sleeperStopped :=
    step_after (by decide +kernel)
  obtain ⟨⟨found, last⟩, search, rfl⟩ : ∃ result, pcbVecSeekPcbByPid 3 processSleeps = some result ∧
      result.1 = some 2 := Option.map_eq_some_iff.mp (by decide +kernel)
  obtain rfl := (pcbVecSeekPcbByPid_inv search).1
  obtain ⟨pcb, found, blocked⟩ : ∃ pcb, processSleeps.pcbs 2 = some pcb ∧ pcb.status = .blocked :=
    Option.map_eq_some_iff.mp (by decide +kernel)
  have returned : StopReturns processSleeps (.kill 1 3 pSigstop) 3 2 :=
    .other (by decide) search found (by simp [Pcb.over, blocked])
  have later : Run (fun _ event => ¬ event.IsCont 3) sleeperStopped (sleeperStopped.after tenTicks) :=
    .after_sound _ (by decide +kernel)
  exact never _ _ _ _ _ 3 2 1 1 reached returned step later (step_after (by decide +kernel))
    (by decide +kernel)

end PennOs.Kernel
