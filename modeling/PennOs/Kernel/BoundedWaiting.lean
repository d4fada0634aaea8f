import PennOs.Kernel.MaintenancePass
import PennOs.Kernel.QueueShares
import PennOs.Lib.WaitingLine

set_option autoImplicit false

/- How long a process waits in its queue. -/
namespace PennOs.Kernel

open LinkedChain (Links)
open WaitingLine (Onward)

variable {k k' k'' : KernelState} {lists lists' : Level → List PcbPtr} {level slot : Level} {ptr : PcbPtr}
  {event : Event} {count : Nat}

/-- The scheduler's slots for the queue in an event. -/
def slotsOf (level : Level) : Event → Nat
  | .pick slot => if slot = level then 1 else 0
  | _ => 0

/-- The process stays in the queue and is not chosen, while the queue gets `count` slots. -/
inductive Waits (level : Level) (ptr : PcbPtr) (k : KernelState) : Nat → KernelState → Prop
  | refl : Waits level ptr k 0 k
  | step {count : Nat} {k' k'' : KernelState} {event : Event} (before : Waits level ptr k count k')
      (meets : NiceInPlace k' event) (step : Step k' event k'')
      (stays : pcbInQueue ptr level k'' = some (true, k''))
      (passedOver : k''.quantum ≠ some (level, ptr)) :
      Waits level ptr k (count + slotsOf level event) k''

/-- Queues lose members at any place and get new ones at their ends, and the quantum that runs stays. -/
def Shifts (k : KernelState) (lists : Level → List PcbPtr) (k' : KernelState) : Prop :=
  ∃ lists', Intact k' lists' ∧ (∀ level, Onward (lists level) (lists' level)) ∧ k'.quantum = k.quantum

section Queues

theorem Quiet.shifts (quiet : Quiet k k') (intact : Intact k lists) : Shifts k lists k' :=
  ⟨lists, intact.of_same quiet.next quiet.queues, fun _ => .refl _, quiet.quantum⟩

theorem Intact.unique (intact : Intact k lists) (intact' : Intact k lists') : lists = lists' :=
  funext fun level => (intact.forest.links level).unique (intact'.forest.links level)

/-- A push adds at the end. -/
theorem pushed_onward (lists : Level → List PcbPtr) (slot : Level) (ptr : PcbPtr) (level : Level) :
    Onward (lists level) (pushed lists slot ptr level) := by
  unfold pushed
  split
  · exact .refl _
  · rename_i out
    by_cases here : level = slot
    · rw [here, Function.update_self]
      exact .join out
    · rw [Function.update_of_ne here]
      exact .refl _

/-- The search takes PCBs out of the queue, and all of them where it finds none to run. -/
theorem pickLoop_shortens {fuel : Nat} {curr result : Option PcbPtr} (intact : Intact k lists)
    (here : curr = (lists slot).head?) (run : pickLoop slot fuel curr k = some (result, k')) :
    ∃ lists', Intact k' lists' ∧ (∀ level, (lists' level).Sublist (lists level)) ∧
      (result = none → lists' slot = []) := by
  induction fuel generalizing curr k lists with
  | zero =>
      cases curr with
      | none =>
          simp only [pickLoop, Prog.pure_run, Option.some.injEq, Prod.mk.injEq] at run
          exact ⟨lists, run.2 ▸ intact, fun level => List.Sublist.refl _, fun _ =>
            List.head?_eq_none_iff.mp here.symm⟩
      | some _ => simp [pickLoop] at run
  | succ fuel ih =>
      cases curr with
      | none =>
          simp only [pickLoop, Prog.pure_run, Option.some.injEq, Prod.mk.injEq] at run
          exact ⟨lists, run.2 ▸ intact, fun level => List.Sublist.refl _, fun _ =>
            List.head?_eq_none_iff.mp here.symm⟩
      | some curr =>
          obtain ⟨pcb, k1, read, run⟩ := Prog.bind_inv run
          obtain ⟨found, rfl⟩ := deref_inv read
          by_cases runs : pcb.status = .running
          · simp only [runs, ↓reduceIte, Prog.pure_run, Option.some.injEq, Prod.mk.injEq] at run
            exact ⟨lists, run.2 ▸ intact, fun level =>
              List.Sublist.refl _, fun none_ => by rw [none_] at run; cases run.1⟩
          · simp only [runs, ↓reduceIte] at run
            obtain ⟨_, k2, popped, run⟩ := Prog.bind_inv run
            obtain ⟨rest, list⟩ : ∃ rest, lists slot = curr :: rest := List.head?_eq_some_iff.mp here.symm
            have intact' := pcbQueuePopByPid_intact intact popped
            rw [list, List.eraseP_cons_of_pos (by simp [hasPid_of_found found])] at intact'
            have links := intact.forest.links slot
            rw [list] at links
            have link := links.2
            rw [next_of_found found] at link
            have front : pcb.nextPcbPtr = (Function.update lists slot rest slot).head? := by
              rw [Function.update_self]
              cases rest with
              | nil => exact link
              | cons second rest => exact link.1
            obtain ⟨lists', final, shorter, empty⟩ := ih intact' front run
            refine ⟨lists', final, fun level => (shorter level).trans ?_, empty⟩
            by_cases own : level = slot
            · rw [own, Function.update_self, list]
              exact List.sublist_cons_self curr rest
            · rw [Function.update_of_ne own]

/-- The scheduler chooses a process of the queue, or leaves the queue empty. -/
theorem pick_chooses (orderly : Orderly k lists) (run : pick slot k = some ((), k')) :
    ∃ lists', Intact k' lists' ∧ (∀ level, (lists' level).Sublist (lists level)) ∧ k.quantum = none ∧
      (lists' slot = [] ∨ ∃ curr, k'.quantum = some (slot, curr)) := by
  simp only [pick, Prog.get_bind] at run
  obtain ⟨_, k1, checked, run⟩ := Prog.bind_inv run
  obtain ⟨idle, rfl⟩ := require_inv checked
  obtain ⟨found, k2, picked, run⟩ := Prog.bind_inv run
  obtain ⟨lists', intact', shorter, empty⟩ := pickLoop_shortens orderly.intact (orderly.head_eq slot) picked
  cases found with
  | none =>
      simp only [Prog.pure_run, Option.some.injEq, Prod.mk.injEq, true_and] at run
      exact ⟨lists', run ▸ intact', shorter, idle, .inl (empty rfl)⟩
  | some curr =>
      obtain ⟨pcb, k3, read, run⟩ := Prog.bind_inv run
      obtain ⟨_, rfl⟩ := deref_inv read
      obtain ⟨_, k4, started, run⟩ := Prog.bind_inv run
      obtain ⟨_, rfl⟩ := require_inv started
      simp only [Prog.modify_run, Option.some.injEq, Prod.mk.injEq, true_and] at run
      exact ⟨lists', run ▸ intact'.of_same rfl rfl, shorter, idle, .inr ⟨curr, by rw [← run]⟩⟩

theorem maintenanceLoop_idle {left i : Nat} (orderly : Orderly k lists) (idle : k.quantum = none)
    (run : maintenanceLoop left i k = some ((), k')) : k'.quantum = none := by
  induction left generalizing i k lists with
  | zero =>
      simp only [maintenanceLoop, Prog.pure_run, Option.some.injEq, Prod.mk.injEq, true_and] at run
      exact run ▸ idle
  | succ left ih =>
      simp only [maintenanceLoop, Prog.get_bind] at run
      cases entry : k.allUnreapedPcbVector[i]? with
      | none => simp [entry] at run
      | some curr =>
          simp only [entry] at run
          obtain ⟨gone, k1, kept, run⟩ := Prog.bind_inv run
          obtain ⟨⟨lists', orderly'⟩, idle'⟩ := maintain_orderly orderly idle kept
          cases gone with
          | true => exact ih orderly' idle' run
          | false => exact ih orderly' idle' run

theorem maintenancePass_shifts (orderly : Orderly k lists) (run : maintenancePass k = some ((), k')) :
    Shifts k lists k' := by
  simp only [maintenancePass, Prog.get_bind] at run
  obtain ⟨_, k1, checked, run⟩ := Prog.bind_inv run
  obtain ⟨idle, rfl⟩ := require_inv checked
  have idle' := maintenanceLoop_idle orderly idle run
  obtain ⟨k2, lists', passed, maintained⟩ := (orderly.tidy idle).passes (List.nil_append _).symm
  rw [List.length_nil, run] at passed
  cases passed
  refine ⟨lists', maintained.tidy.intact, fun level => ?_, idle'.trans idle.symm⟩
  obtain ⟨new, order, fresh⟩ := maintained.order level
  exact ⟨_, new, order, List.filter_sublist, fun node member => (fresh node member).2⟩

/-- The shell joins queue 0. -/
theorem spawnShell_shifts {self : PcbPtr} (orderly : Orderly k lists)
    (run : spawnShell self k = some ((), k')) :
    Shifts k lists k' := by
  obtain ⟨pcb, k1, called, run⟩ := Prog.bind_inv run
  obtain ⟨_, _, _, rfl⟩ := asCaller_inv called
  simp only [Prog.get_bind] at run
  obtain ⟨_, k2, checked, run⟩ := Prog.bind_inv run
  obtain ⟨_, rfl⟩ := require_inv checked
  rw [Prog.modify_bind] at run
  have orderly1 := setShellSpawned_orderly orderly
  obtain ⟨shell, k3, made, run⟩ := Prog.bind_inv run
  obtain ⟨rfl, born⟩ := pcbInitEmpty_born orderly1.table made
  obtain ⟨_, k4, started, run⟩ := Prog.bind_inv run
  have quiet := quiet_of_update started fun _ => ⟨rfl, rfl, rfl, fun _ => (by rintro ⟨⟩)⟩
  have born' := born.quiet quiet
  obtain ⟨_, k5, listed, run⟩ := Prog.bind_inv run
  simp only [pcbVecPushBack, Prog.modify_run, Option.some.injEq, Prod.mk.injEq, true_and] at listed
  obtain ⟨_, k6, queued, run⟩ := Prog.bind_inv run
  have new : ∀ slot, k.nextPtr ∉ lists slot := by
    intro slot member
    obtain ⟨_, old⟩ := orderly.placed.allocated slot _ member
    rw [orderly.table.next_free] at old
    cases old
  have intact : Intact k5 lists := listed ▸ orderly1.intact.of_same born'.next born'.queues
  have intact6 := pcbQueuePush_intact intact (fun slot _ => new slot) queued
  obtain ⟨_, k7, blocked, run⟩ := Prog.bind_inv run
  have quiet7 := quiet_of_update blocked fun _ => ⟨rfl, rfl, rfl, id⟩
  simp only [Prog.modify_run, Option.some.injEq, Prod.mk.injEq, true_and] at run
  have same : k7.quantum = k.quantum := by
    rw [quiet7.quantum, (pcbQueuePush_frame queued).quantum, ← listed]
    exact born'.quantum
  exact ⟨_, run ▸ (intact6.of_same quiet7.next quiet7.queues).of_same rfl rfl,
    pushed_onward lists 0 k.nextPtr,
    run ▸ same⟩

/-- The new process joins the queue of its priority. -/
theorem setRoutineAndRun_shifts {self proc : PcbPtr} (orderly : Orderly k lists)
    (run : setRoutineAndRun self proc k = some ((), k')) : Shifts k lists k' := by
  obtain ⟨pcb, k1, called, run⟩ := Prog.bind_inv run
  obtain ⟨_, _, _, rfl⟩ := asCaller_inv called
  obtain ⟨procPcb, k2, read, run⟩ := Prog.bind_inv run
  obtain ⟨found, rfl⟩ := deref_inv read
  obtain ⟨_, k3, checked, run⟩ := Prog.bind_inv run
  obtain ⟨absent, rfl⟩ := require_inv checked
  obtain ⟨_, k4, started, run⟩ := Prog.bind_inv run
  have quiet := quiet_of_update started fun _ => ⟨rfl, rfl, rfl, fun _ => nofun⟩
  obtain ⟨procPcb', k5, read', run⟩ := Prog.bind_inv run
  obtain ⟨found', rfl⟩ := deref_inv read'
  have idle : ∀ slot, k4.quantum ≠ some (slot, proc) := by
    intro slot
    rw [quiet.quantum]
    intro running
    obtain ⟨_, runningPcb, found'', thread⟩ := orderly.placed.running slot proc running
    obtain rfl := Option.some.inj (found.symm.trans found'')
    exact thread absent
  exact ⟨_, (pcbQueuePush_orderly (orderly.of_quiet quiet) found' idle run).intact,
    pushed_onward lists procPcb'.priorityLevel proc, (pcbQueuePush_frame run).quantum.trans quiet.quantum⟩

/-- The first of a queue leaves it, and may join a queue again. -/
theorem quantumEnd_serves (orderly : Orderly k lists) (run : quantumEnd k = some ((), k')) :
    ∃ slot curr rest lists', k.quantum = some (slot, curr) ∧ lists slot = curr :: rest ∧ Intact k' lists' ∧
      ∀ level, Onward (Function.update lists slot rest level) (lists' level) := by
  simp only [quantumEnd, Prog.get_bind] at run
  cases quantum : k.quantum with
  | none => simp [quantum] at run
  | some served =>
      obtain ⟨slot, curr⟩ := served
      simp only [quantum, Prog.modify_bind] at run
      obtain ⟨popped, k1, pop, run⟩ := Prog.bind_inv run
      obtain ⟨rfl, idle, rest, front, orderly', out⟩ := quantumPop_orderly orderly quantum pop
      have stays : k1 = k' → ∃ lists', Intact k' lists' ∧
          ∀ level, Onward (Function.update lists slot rest level) (lists' level) :=
        fun same => ⟨_, same ▸ orderly'.intact, fun level => .refl _⟩
      have joins : ∀ prio, Orderly k' (pushed (Function.update lists slot rest) prio curr) →
        ∃ lists', Intact k' lists' ∧
          ∀ level, Onward (Function.update lists slot rest level) (lists' level) :=
        fun prio ordered => ⟨_, ordered.intact, pushed_onward _ prio curr⟩
      refine ⟨slot, curr, rest, ?_⟩
      obtain ⟨pcb, k2, read, run⟩ := Prog.bind_inv run
      obtain ⟨found, rfl⟩ := deref_inv read
      suffices done : ∃ lists', Intact k' lists' ∧
          ∀ level, Onward (Function.update lists slot rest level) (lists' level) by
        obtain ⟨lists', intact, onward⟩ := done
        exact ⟨lists', rfl, front, intact, onward⟩
      by_cases running : pcb.status = .running
      · simp only [running, ↓reduceIte] at run
        exact joins _ (pcbQueuePush_orderly orderly' found (fun level => by simp [idle]) run)
      · simp only [running, ↓reduceIte] at run
        by_cases asleep : pcb.status = .blocked ∧ pcb.sleepStamp ≠ 0
        · simp only [asleep, ne_eq, not_false_eq_true, and_self, ↓reduceIte] at run
          by_cases finished : sleepOver k.globalClock pcb = true
          · simp only [finished, ↓reduceIte] at run
            obtain ⟨_, k3, woken, run⟩ := Prog.bind_inv run
            exact joins _ (wake_orderly orderly' found idle woken (fun _ => ⟨rfl, rfl, rfl, id⟩) run)
          · simp only [finished, Bool.false_eq_true, ↓reduceIte, Prog.pure_run, Option.some.injEq,
              Prod.mk.injEq, true_and] at run
            exact stays run
        · simp only [asleep, ↓reduceIte] at run
          by_cases reaped : pcb.status = .reaped
          · simp only [reaped, ↓reduceIte] at run
            obtain ⟨_, k3, removed, run⟩ := Prog.bind_inv run
            exact ⟨_, (destroy_orderly orderly' idle out removed run).intact, fun level => .refl _⟩
          · simp only [reaped, ↓reduceIte, Prog.pure_run, Option.some.injEq, Prod.mk.injEq,
              true_and] at run
            exact stays run

/-- The events in which the scheduler neither chooses a process nor ends its quantum. -/
theorem event_shifts (orderly : Orderly k lists) (meets : NiceInPlace k event) (step : Step k event k')
    (unpicked : ∀ slot, event ≠ .pick slot) (unended : event ≠ .quantumEnd) : Shifts k lists k' := by
  have intact := orderly.intact
  cases event with
  | spawnShell self => exact spawnShell_shifts orderly step
  | shellReturned self => exact (shellReturned_quiet _ _ _ step).shifts intact
  | initResumed self shell => exact (initResumed_quiet _ _ _ step).shifts intact
  | procCreate self priority =>
      obtain ⟨_, k1, created, rest⟩ := Prog.bind_inv step
      simp only [Prog.pure_run, Option.some.injEq, Prod.mk.injEq, true_and] at rest
      exact rest ▸ ⟨lists, (kProcCreate_orderly orderly created).intact, fun _ => .refl _,
        kProcCreate_quantum orderly.table created⟩
  | setRoutineAndRun self proc => exact setRoutineAndRun_shifts orderly step
  | kill self pid sig => exact (kKill_quiet _ _ _ step).shifts intact
  | selfStopResumed self => exact (selfStopResumed_quiet _ _ _ step).shifts intact
  | exit self => exact (kExit_quiet _ _ _ step).shifts intact
  | sleep self length => exact (kSleep_quiet _ _ _ step).shifts intact
  | sleepResumed self => exact (kSleepResumed_quiet _ _ _ step).shifts intact
  | waitpid self pid nohang =>
      obtain ⟨_, k1, waited, rest⟩ := Prog.bind_inv step
      simp only [Prog.pure_run, Option.some.injEq, Prod.mk.injEq, true_and] at rest
      exact rest ▸ (kWaitpid_quiet _ _ _ waited).shifts intact
  | waitpidJoined self child => exact (kWaitpidJoined_quiet _ _ _ step).shifts intact
  | waitpidReap self child =>
      obtain ⟨_, k1, reaped, rest⟩ := Prog.bind_inv step
      simp only [Prog.pure_run, Option.some.injEq, Prod.mk.injEq, true_and] at rest
      exact rest ▸ (kWaitpidReap_quiet _ _ _ reaped).shifts intact
  | nice self pid newPriority =>
      obtain ⟨_, k1, changed, rest⟩ := Prog.bind_inv step
      simp only [Prog.pure_run, Option.some.injEq, Prod.mk.injEq, true_and] at rest
      exact rest ▸ ⟨lists, (kNice_orderly orderly meets changed).intact, fun _ =>
        .refl _, kNice_quantum changed⟩
  | maintenancePass => exact maintenancePass_shifts orderly step
  | pick slot => exact absurd rfl (unpicked slot)
  | idleTick =>
      refine ⟨lists, (idleTick_orderly orderly step).intact, fun _ => .refl _, ?_⟩
      have ticked : idleTick k = some ((), k') := step
      simp only [idleTick, Prog.get_bind] at ticked
      obtain ⟨_, k1, checked, ticked⟩ := Prog.bind_inv ticked
      obtain ⟨_, rfl⟩ := require_inv checked
      simp only [Prog.modify_run, Option.some.injEq, Prod.mk.injEq, true_and] at ticked
      rw [← ticked]
  | quantumEnd => exact absurd rfl unended

end Queues

section Waiting

/-- A quantum of the queue runs. -/
def busy (level : Level) (k : KernelState) : Nat :=
  if (k.quantum.map Prod.fst) = some level then 1 else 0

theorem busy_le (level : Level) (k : KernelState) : busy level k ≤ 1 := by
  unfold busy
  split
  · exact Nat.le_refl 1
  · exact Nat.zero_le 1

/-- Nobody gets ahead of the process, and with every slot of the queue that it does not get it moves on
by one place. -/
theorem waits_step (orderly : Orderly k lists) (meets : NiceInPlace k event) (step : Step k event k')
    (orderly' : Orderly k' lists') (here : ptr ∈ lists level) (stays : ptr ∈ lists' level)
    (unchosen : k.quantum ≠ some (level, ptr)) :
    (lists' level).idxOf ptr ≤ (lists level).idxOf ptr ∧
      (lists' level).idxOf ptr + slotsOf level event + busy level k ≤
      (lists level).idxOf ptr + busy level k' := by
  have distinct := (orderly.intact.forest.links level).nodup
  by_cases ends : event = .quantumEnd
  · rw [ends] at step ⊢
    obtain ⟨slot, curr, rest, lists'', quantum, front, intact, onward⟩ := quantumEnd_serves orderly step
    obtain rfl := intact.unique orderly'.intact
    have move := onward level
    have none_ : slotsOf level .quantumEnd = 0 := rfl
    rw [busy, quantum, none_]
    by_cases own : slot = level
    · obtain rfl := own
      have apart : curr ≠ ptr := by
        intro same
        exact unchosen (same ▸ quantum)
      rw [front] at here distinct
      rw [Function.update_self] at move
      have behind : ptr ∈ rest := (List.mem_cons.mp here).resolve_left (Ne.symm apart)
      have moved := move.idxOf_le (List.nodup_cons.mp distinct).2 behind stays
      rw [front, List.idxOf_cons_ne _ apart]
      simp only [Option.map_some, ↓reduceIte]
      omega
    · rw [Function.update_of_ne (Ne.symm own)] at move
      have moved := move.idxOf_le distinct here stays
      have other : ¬ Option.map Prod.fst (some (slot, curr)) = some level := by
        intro same
        exact own (Option.some.inj same)
      rw [if_neg other]
      omega
  by_cases picks : ∃ slot, event = .pick slot
  · obtain ⟨slot, rfl⟩ := picks
    obtain ⟨lists'', intact, shorter, idle, chosen⟩ := pick_chooses orderly step
    obtain rfl := intact.unique orderly'.intact
    have moved := WaitingLine.idxOf_sublist (shorter level) distinct stays
    have idle' : busy level k = 0 := by
      rw [busy, idle]
      rfl
    rw [slotsOf]
    by_cases own : slot = level
    · obtain rfl := own
      rcases chosen with empty | ⟨curr, running⟩
      · rw [empty] at stays
        cases stays
      · have busy' : busy slot k' = 1 := by simp [busy, running]
        rw [if_pos rfl]
        omega
    · rw [if_neg own]
      omega
  · obtain ⟨lists'', intact, onward, quantum⟩ :=
      event_shifts orderly meets step (fun slot same => picks ⟨slot, same⟩) ends
    obtain rfl := intact.unique orderly'.intact
    have moved := (onward level).idxOf_le distinct here stays
    have same : busy level k' = busy level k := by rw [busy, busy, quantum]
    have none_ : slotsOf level event = 0 := by
      cases event with
      | pick slot => exact absurd ⟨slot, rfl⟩ picks
      | _ => rfl
    omega

theorem waits_run (orderly : Orderly k lists) (here : ptr ∈ lists level)
    (unchosen : k.quantum ≠ some (level, ptr)) (waits : Waits level ptr k count k') :
    ∃ lists', Orderly k' lists' ∧ ptr ∈ lists' level ∧ k'.quantum ≠ some (level, ptr) ∧
      (lists' level).idxOf ptr ≤ (lists level).idxOf ptr ∧
      (lists' level).idxOf ptr + count + busy level k ≤ (lists level).idxOf ptr + busy level k' := by
  induction waits with
  | refl => exact ⟨lists, orderly, here, unchosen, Nat.le_refl _, Nat.le_refl _⟩
  | step before meets step stays passedOver ih =>
      obtain ⟨lists', orderly', here', unchosen', ahead, bound⟩ := ih
      obtain ⟨lists'', orderly''⟩ := event_orderly orderly' meets step
      have member : ptr ∈ lists'' level := by
        rw [pcbInQueue_total orderly''] at stays
        exact of_decide_eq_true (Prod.mk.inj (Option.some.inj stays)).1
      obtain ⟨ahead', moved⟩ := waits_step orderly' meets step orderly'' here' member unchosen'
      exact ⟨lists'', orderly'', member, passedOver, ahead'.trans ahead, by omega⟩

/-- Bounded waiting, where no `k_nice` moves a queued PCB to another priority: whatever the other
processes and the scheduler do, a process that stays in its queue is passed over in at most as many
slots of the queue as there were PCBs ahead of it, and nobody gets ahead of it. -/
theorem bounded_waiting (reached : Run NiceInPlace .boot k) (integrity : QueueIntegrity k lists)
    (here : ptr ∈ lists level) (unchosen : k.quantum ≠ some (level, ptr))
    (waits : Waits level ptr k count k') :
    count ≤ (lists level).idxOf ptr ∧ ∃ lists', QueueIntegrity k' lists' ∧ ptr ∈ lists' level ∧
      (lists' level).idxOf ptr ≤ (lists level).idxOf ptr ∧
      (k'.quantum = none → (lists' level).idxOf ptr + count ≤ (lists level).idxOf ptr) := by
  obtain ⟨lists₀, orderly⟩ := run_orderly reached boot_orderly
  obtain rfl : lists₀ = lists :=
    funext fun level => (orderly.intact.forest.links level).unique (integrity.visits level)
  obtain ⟨lists', orderly', here', unchosen', ahead, bound⟩ := waits_run orderly here unchosen waits
  have low := busy_le level k'
  refine ⟨?_, lists', orderly'.integrity, here', ahead, fun idle => ?_⟩
  · -- the one that runs is ahead
    by_cases runs : busy level k' = 0
    · omega
    · have first : (lists' level).idxOf ptr ≠ 0 := by
        intro front
        have running : k'.quantum.map Prod.fst = some level := by
          by_contra other
          exact runs (if_neg other)
        obtain ⟨⟨slot, curr⟩, quantum, rfl⟩ := Option.map_eq_some_iff.mp running
        obtain ⟨head, _⟩ := orderly'.placed.running slot curr quantum
        have own := List.getElem?_idxOf here'
        rw [front, ← List.head?_eq_getElem?, head] at own
        exact unchosen' (Option.some.inj own ▸ quantum)
      omega
  · have idle' : busy level k' = 0 := by
      rw [busy, idle]
      rfl
    omega

theorem Waits.after (before : Waits level ptr k count k') (event : Event) (meets : NiceInPlace k' event)
    (possible : (event.run k').isSome = true)
    (stays : (pcbInQueue ptr level (k'.after [event])).map Prod.fst = some true)
    (passedOver : (k'.after [event]).quantum ≠ some (level, ptr)) :
    Waits level ptr k (count + slotsOf level event) (k'.after [event]) := by
  obtain ⟨⟨found, k''⟩, run, isFound⟩ := Option.map_eq_some_iff.mp stays
  obtain rfl : found = true := isFound
  have same := pcbInQueue_state run
  exact .step before meets (step_after possible) (same ▸ run) passedOver

/-- The shell starts two processes with its own priority. -/
def twoStarted : KernelState :=
  processStarted.after [.pick 0, .procCreate 1 0, .setRoutineAndRun 1 3, .procCreate 1 0,
    .setRoutineAndRun 1 4,
    .quantumEnd]

/-- The second one waits for a slot of the first one. -/
theorem bounded_waiting_twoStarted : ∃ lists, QueueIntegrity twoStarted lists ∧ 1 ≤ (lists 0).idxOf 4 := by
  have reached : Run NiceInPlace .boot twoStarted :=
    Run.of_runEvents (processStarted_run (by simp [startProcess, NiceInPlace])) (by simp [NiceInPlace])
      (runEvents_after (by decide +kernel))
  obtain ⟨lists, orderly⟩ := run_orderly reached boot_orderly
  have here : 4 ∈ lists 0 := by
    have queued := pcbInQueue_total orderly 4 0
    have found : (pcbInQueue 4 0 twoStarted).map Prod.fst = some true := by decide +kernel
    rw [queued] at found
    exact of_decide_eq_true (Option.some.inj found)
  have passed : Waits 0 4 twoStarted 0 (twoStarted.after [.maintenancePass]) :=
    Waits.refl.after .maintenancePass trivial (by decide +kernel) (by decide +kernel) (by decide +kernel)
  have picked : Waits 0 4 twoStarted 1 ((twoStarted.after [.maintenancePass]).after [.pick 0]) :=
    passed.after (.pick 0) trivial (by decide +kernel) (by decide +kernel) (by decide +kernel)
  have waits : Waits 0 4 twoStarted 1
    (((twoStarted.after [.maintenancePass]).after [.pick 0]).after [.quantumEnd]) :=
    picked.after .quantumEnd trivial (by decide +kernel) (by decide +kernel) (by decide +kernel)
  exact ⟨lists, orderly.integrity,
    (bounded_waiting reached orderly.integrity here (by decide +kernel) waits).1⟩

end Waiting

end PennOs.Kernel
