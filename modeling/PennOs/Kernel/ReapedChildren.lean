import PennOs.Kernel.Roster

set_option autoImplicit false

/- Children that `k_waitpid` has reaped. -/
namespace PennOs.Kernel

variable {k k₁ k₂ k' : KernelState} {event : Event} {pid ppid : Int} {ptr self child : PcbPtr}

/-- The caller of `k_waitpid` has reaped a child with this PID, and its PCB is still in the
vector. -/
def WaitsOnReaped (k : KernelState) : Event → Prop
  | .waitpid self pid _ => ∃ selfPcb ∈ k.pcbs self, ∃ ptr ∈ k.allUnreapedPcbVector,
      ∃ pcb ∈ k.pcbs ptr, pcb.status = .reaped ∧ pcb.ppid = selfPcb.pid ∧ pcb.pid = pid
  | _ => False

/-- A PCB that was reaped and is still in the vector is neither waited for nor terminated. -/
def ReapedLeftAlone (k : KernelState) (event : Event) : Prop :=
  NotRekilled k event ∧ ¬ WaitsOnReaped k event

theorem notRekilled_kill_iff {sig : Int} : NotRekilled k (.kill self pid sig) ↔
    (sig = pSigterm → ∀ pcb ∈ k.resolved pid, pcb.status ≠ .reaped) := by
  constructor
  · intro spared isTerm pcb found
    unfold KernelState.resolved at found
    split at found
    · next target k' seek => exact spared isTerm target k' pcb seek found
    · cases found
  · intro spared isTerm target k' pcb seek found
    exact spared isTerm pcb (resolved_of_seek seek found)

instance (k : KernelState) (event : Event) : Decidable (NotRekilled k event) :=
  match event with
  | .kill _ _ _ => decidable_of_iff' _ notRekilled_kill_iff
  | .spawnShell _ | .shellReturned _ | .initResumed _ _ | .procCreate _ _ |
    .setRoutineAndRun _ _ | .selfStopResumed _ | .exit _ | .sleep _ _ | .sleepResumed _ |
    .waitpid _ _ _ | .waitpidJoined _ _ | .waitpidReap _ _ | .nice _ _ _ | .maintenancePass |
    .pick _ | .idleTick | .quantumEnd => isTrue trivial

instance (k : KernelState) (event : Event) : Decidable (WaitsOnReaped k event) :=
  match event with
  | .waitpid self pid _ =>
      inferInstanceAs (Decidable (∃ selfPcb ∈ k.pcbs self, ∃ ptr ∈ k.allUnreapedPcbVector,
        ∃ pcb ∈ k.pcbs ptr, pcb.status = .reaped ∧ pcb.ppid = selfPcb.pid ∧ pcb.pid = pid))
  | .spawnShell _ | .shellReturned _ | .initResumed _ _ | .procCreate _ _ |
    .setRoutineAndRun _ _ | .kill _ _ _ | .selfStopResumed _ | .exit _ | .sleep _ _ |
    .sleepResumed _ | .waitpidJoined _ _ | .waitpidReap _ _ | .nice _ _ _ | .maintenancePass |
    .pick _ | .idleTick | .quantumEnd => isFalse id

instance (k : KernelState) (event : Event) : Decidable (ReapedLeftAlone k event) :=
  inferInstanceAs (Decidable (_ ∧ _))

theorem kWaitpidReap_inv (run : kWaitpidReap self child k = some (pid, k')) :
    ∃ pcb, k.pcbs child = some pcb ∧ pcb.status = .zombie ∧ pcb.pid = pid ∧
      k'.pcbs child = some { pcb with status := .reaped } := by
  obtain ⟨_, k₁, called, run⟩ := Prog.bind_inv run
  obtain ⟨_, _, _, rfl⟩ := asCaller_inv called
  simp only [Prog.get_bind] at run
  obtain ⟨_, k₂, checked, run⟩ := Prog.bind_inv run
  obtain ⟨_, rfl⟩ := require_inv checked
  rw [Prog.modify_bind] at run
  obtain ⟨pcb, k₃, read, run⟩ := Prog.bind_inv run
  obtain ⟨found, rfl⟩ := deref_inv read
  obtain ⟨_, k₄, checked', run⟩ := Prog.bind_inv run
  obtain ⟨zombie, rfl⟩ := require_inv checked'
  obtain ⟨_, k₅, marked, run⟩ := Prog.bind_inv run
  obtain ⟨pcb₁, found₁, rfl⟩ := update_inv marked
  obtain rfl := Option.some.inj (found.symm.trans found₁)
  simp only [Prog.pure_run, Option.some.injEq, Prod.mk.injEq] at run
  obtain ⟨rfl, rfl⟩ := run
  exact ⟨pcb, found, zombie, rfl, by rw [setPcb_pcbs, if_pos rfl]⟩

/-- The search for a child that is not there. -/
theorem seekChild_none {ptrs : List PcbPtr} (allocated : ∀ ptr ∈ ptrs, ∃ pcb, k.pcbs ptr = some pcb)
    (absent : ∀ ptr ∈ ptrs, ∀ pcb, k.pcbs ptr = some pcb → ¬ (pcb.ppid = ppid ∧ pcb.pid = pid)) :
    seekChild ppid pid ptrs k = some (none, k) := by
  induction ptrs with
  | nil => rfl
  | cons ptr rest ih =>
      obtain ⟨pcb, found⟩ := allocated ptr List.mem_cons_self
      unfold seekChild
      rw [Prog.bind_of_run (deref_run found), if_neg (absent ptr List.mem_cons_self pcb found)]
      exact ih (fun other later => allocated other (List.mem_cons_of_mem _ later))
        fun other later => absent other (List.mem_cons_of_mem _ later)

/-- `k_waitpid` without such a child. -/
theorem kWaitpid_echild {selfPcb : Pcb} (roster : Roster k) (nohang : Bool) (positive : 0 < pid)
    (found : k.pcbs self = some selfPcb) (live : selfPcb.thrd = .live)
    (listed : self ∈ k.allUnreapedPcbVector)
    (absent : ∀ ptr ∈ k.allUnreapedPcbVector, ∀ pcb, k.pcbs ptr = some pcb →
      ¬ (pcb.ppid = selfPcb.pid ∧ pcb.pid = pid)) :
    kWaitpid self pid nohang k = some (some (-1), k.setErrno pEchild) := by
  unfold kWaitpid
  rw [require, if_pos positive, Prog.pure_bind_run,
    Prog.bind_of_run (asCaller_run found live listed), Prog.get_bind,
    Prog.bind_of_run (seekChild_none roster.allocated absent)]
  rfl

/-- A reaped PCB stays reaped until it is freed. -/
theorem reaped_stays (reached : Run ReapedLeftAlone .boot k)
    (reaped : kWaitpidReap self child k = some (pid, k₁)) (later : Run ReapedLeftAlone k₁ k₂) :
    ∀ pcb, k₂.pcbs child = some pcb → pcb.status = .reaped := by
  intro pcb' found'
  have settled := (run_lawful (reached.mono fun _ _ meets => meets.1) boot_settled).1
  have settled₁ := (kWaitpidReap_lawful reaped settled).1
  have advances := (run_lawful (later.mono fun _ _ meets => meets.1) settled₁).2
  obtain ⟨pcb, _, _, _, found₁⟩ := kWaitpidReap_inv reaped
  rcases advances.follows child pcb' found' with fresh | ⟨pcb₁, found, follows⟩
  · exact absurd (settled₁.bounded child _ found₁) (Nat.not_lt.mpr fresh)
  · obtain rfl := Option.some.inj (found₁.symm.trans found)
    exact follows.2 rfl

/-- After a child was reaped it is not reaped again, and until its PID is that of another child of
the caller, each `k_waitpid` for the PID returns -1 with `P_ECHILD`. -/
theorem reaped_once (reached : Run ReapedLeftAlone .boot k)
    (reaped : kWaitpidReap self child k = some (pid, k₁)) (later : Run ReapedLeftAlone k₁ k₂) :
    (∀ other, kWaitpidReap other child k₂ = none) ∧
      ∀ selfPcb nohang, k₂.pcbs self = some selfPcb → selfPcb.thrd = .live →
        self ∈ k₂.allUnreapedPcbVector → ReapedLeftAlone k₂ (.waitpid self pid nohang) →
        (∀ ptr pcb, ptr ≠ child → k₂.pcbs ptr = some pcb →
          ¬ (pcb.ppid = selfPcb.pid ∧ pcb.pid = pid)) →
        kWaitpid self pid nohang k₂ = some (some (-1), k₂.setErrno pEchild) := by
  have stays := reaped_stays reached reaped later
  constructor
  · intro other
    cases again : kWaitpidReap other child k₂ with
    | none => rfl
    | some result =>
        obtain ⟨pcb, found, zombie, _⟩ := kWaitpidReap_inv again
        have status := stays pcb found
        rw [zombie] at status
        cases status
  · intro selfPcb nohang selfFound live listed alone others
    have roster := run_roster reached boot_roster
    have roster₂ : Roster k₂ := by
      have step : Step k (.waitpidReap self child) k₁ := Prog.bind_of_run reaped _
      exact run_roster later (event_enrols _ _ _ _ step roster)
    have positive : 0 < pid := by
      obtain ⟨pcb, found, _, rfl, _⟩ := kWaitpidReap_inv reaped
      exact roster.positive child pcb found
    refine kWaitpid_echild roster₂ nohang positive selfFound live listed fun ptr member pcb found => ?_
    by_cases here : ptr = child
    · subst here
      rintro ⟨isChild, isPid⟩
      exact alone.2 ⟨selfPcb, selfFound, ptr, member, pcb, found, stays pcb found, isChild, isPid⟩
    · exact others ptr pcb here found

/-- The shell has waited for its child, which has exited, and is about to reap it. -/
def childJoined : KernelState := KernelState.boot.after
  (startProcess ++ exitProcess ++ [.pick 0, .waitpid 1 3 false, .waitpidJoined 1 2])

def childReaped : KernelState := childJoined.after [.waitpidReap 1 2]

theorem childReaped_reap : kWaitpidReap 1 2 childJoined = some (3, childReaped) := by
  have step : Step childJoined (.waitpidReap 1 2) childReaped := step_after (by decide +kernel)
  obtain ⟨result, k', run, rest⟩ := Prog.bind_inv step
  simp only [Prog.pure_run, Option.some.injEq, Prod.mk.injEq, true_and] at rest
  have known : (kWaitpidReap 1 2 childJoined).map Prod.fst = some 3 := by decide +kernel
  rw [run, Option.map_some, Option.some.injEq] at known
  rw [run, rest]
  exact congrArg (fun result => some (result, childReaped)) known

/-- After the pass of the next slot the child is gone. -/
def childRemoved : KernelState := childReaped.after [.quantumEnd, .maintenancePass, .pick 0]

theorem reaped_once_childRemoved :
    kWaitpid 1 3 true childRemoved = some (some (-1), childRemoved.setErrno pEchild) := by
  have reached : Run ReapedLeftAlone .boot childJoined := .after_sound _ (by decide +kernel)
  have later : Run ReapedLeftAlone childReaped childRemoved := .after_sound _ (by decide +kernel)
  obtain ⟨selfPcb, found, live⟩ : ∃ pcb, childRemoved.pcbs 1 = some pcb ∧ pcb.thrd = .live :=
    Option.map_eq_some_iff.mp (by decide +kernel)
  have roster : Roster childRemoved :=
    run_roster ((reached.step (by decide +kernel) (step_after (by decide +kernel))).trans later)
      boot_roster
  have others : ∀ ptr < childRemoved.nextPtr, ∀ pcb ∈ childRemoved.pcbs ptr, pcb.pid ≠ 3 := by
    decide +kernel
  exact (reaped_once reached childReaped_reap later).2 selfPcb true found live (by decide +kernel)
    (by decide +kernel) fun ptr pcb _ here same =>
      others ptr (roster.bounded ptr pcb here) pcb here same.2

/-- Before that pass `k_waitpid` finds the child again: without blocking it returns 0. -/
theorem reaped_child_found :
    ¬ ∀ (k k₁ k₂ : KernelState) (self child : PcbPtr) (pid : Int),
      Run (fun _ _ => True) .boot k → kWaitpidReap self child k = some (pid, k₁) →
      Run (fun _ _ => True) k₁ k₂ →
      (∀ other, kWaitpidReap other child k₂ = none) ∧
        ∀ selfPcb nohang, k₂.pcbs self = some selfPcb → selfPcb.thrd = .live →
          self ∈ k₂.allUnreapedPcbVector →
          (∀ ptr pcb, ptr ≠ child → k₂.pcbs ptr = some pcb →
            ¬ (pcb.ppid = selfPcb.pid ∧ pcb.pid = pid)) →
          kWaitpid self pid nohang k₂ = some (some (-1), k₂.setErrno pEchild) := by
  intro always
  have reached : Run (fun _ _ => True) .boot childJoined := .after_sound _ (by decide +kernel)
  have step : Step childJoined (.waitpidReap 1 2) childReaped := step_after (by decide +kernel)
  obtain ⟨selfPcb, found, live⟩ : ∃ pcb, childReaped.pcbs 1 = some pcb ∧ pcb.thrd = .live :=
    Option.map_eq_some_iff.mp (by decide +kernel)
  have roster : Roster childReaped := run_roster (reached.step trivial step) boot_roster
  have others : ∀ ptr < childReaped.nextPtr, ptr ≠ 2 → ∀ pcb ∈ childReaped.pcbs ptr, pcb.pid ≠ 3 := by
    decide +kernel
  have answer := (always _ _ _ 1 2 3 reached childReaped_reap (.refl _)).2 selfPcb true found live
    (by decide +kernel) fun ptr pcb apart here same =>
      others ptr (roster.bounded ptr pcb here) apart pcb here same.2
  have zero : (kWaitpid 1 3 true childReaped).map Prod.fst = some (some 0) := by decide +kernel
  rw [answer] at zero
  exact absurd (Option.some.inj (Option.some.inj zero)) (by decide)

end PennOs.Kernel
